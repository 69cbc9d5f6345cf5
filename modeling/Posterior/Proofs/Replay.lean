import Posterior.Numeric.LogSpace
import Posterior.Proofs.Doubles
import Posterior.Rejuvenation.Mover

/-!
Replays: executions of a program apart from any engine. A replay delivers recorded values in order
and meets each entry as the program asks for it, with the score and the factors passed so far.
-/

namespace Posterior

open Numeric

/-- Where an execution stands: what the program does next, the score so far, and how many factors
are behind it. -/
structure Point where
  step : Step
  score : Float
  factors : Nat

namespace Point

/-- Nothing has been chosen and no factor passed. -/
def start (step : Step) : Point := ⟨step, 0, 0⟩

/-- After a choice that came out as in the entry. -/
def choose (p : Point) (e : Entry) : Point :=
  ⟨e.deliver e.choice.store e.value, p.score + e.choiceScore, p.factors⟩

/-- After a factor. -/
def pass (p : Point) (point : Factor) (resume : Continuation) : Point :=
  ⟨resume point.store, p.score + point.logWeight, p.factors + 1⟩

/-- The program asks for exactly the choice of the entry, and the entry is right about what came
before it and what the choice scores. -/
structure Meets (p : Point) (e : Entry) : Prop where
  step : p.step = .sample e.choice e.deliver
  scoreBefore : e.scoreBefore = p.score
  factorsBefore : e.factorsBefore = p.factors
  score : e.choice.dist.score e.choice.params e.value = .ok e.choiceScore
  number : e.choiceScore.isNaN = false

end Point

/-- Every execution goes on, impossible or not. -/
def anyScore (_ : Float) : Bool := true

/-- From `p` the program meets the choices of the entries in order and no others, and comes to `q`.
Every score on the way is one at which an execution goes on. -/
inductive Replay (goesOn : Float → Bool) : Point → List Entry → Point → Prop where
  | rest (p : Point) : Replay goesOn p [] p
  | choice {p q : Point} {e : Entry} {es : List Entry} (meets : p.Meets e)
      (on : goesOn (p.choose e).score = true) (tail : Replay goesOn (p.choose e) es q) :
      Replay goesOn p (e :: es) q
  | factor {p q : Point} {es : List Entry} {point : Factor} {resume : Continuation}
      (stands : p.step = .factor point resume) (number : point.logWeight.isNaN = false)
      (on : goesOn (p.pass point resume).score = true)
      (tail : Replay goesOn (p.pass point resume) es q) : Replay goesOn p es q

namespace Replay

variable {goesOn : Float → Bool} {p q r : Point} {es fs : List Entry} {e : Entry}

theorem trans (hp : Replay goesOn p es q) (hq : Replay goesOn q fs r) :
    Replay goesOn p (es ++ fs) r := by
  induction hp with
  | rest p => exact hq
  | choice meets on tail ih => exact .choice meets on (ih hq)
  | factor stands number on tail ih => exact .factor stands number on (ih hq)

/-- A replay on which every score is possible is a replay. -/
theorem any (h : Replay goesOn p es q) : Replay anyScore p es q := by
  induction h with
  | rest p => exact .rest p
  | choice meets on tail ih => exact .choice meets rfl ih
  | factor stands number on tail ih => exact .factor stands number rfl ih

/-- A replay can be broken off between any two entries. -/
theorem split (h : Replay goesOn p (es ++ fs) r) :
    ∃ q, Replay goesOn p es q ∧ Replay goesOn q fs r := by
  generalize hes : es ++ fs = all at h
  induction h generalizing es with
  | rest p =>
    obtain ⟨rfl, rfl⟩ := List.append_eq_nil_iff.mp hes
    exact ⟨p, .rest p, .rest p⟩
  | @choice p r e tail meets on ht ih =>
    cases es with
    | nil =>
      simp only [List.nil_append] at hes
      exact ⟨p, .rest p, hes ▸ .choice meets on ht⟩
    | cons d ds =>
      simp only [List.cons_append, List.cons.injEq] at hes
      obtain ⟨rfl, hds⟩ := hes
      obtain ⟨q, hp, hq⟩ := ih hds
      exact ⟨q, .choice meets on hp, hq⟩
  | factor stands number on tail ih =>
    obtain ⟨q, hp, hq⟩ := ih hes
    exact ⟨q, .factor stands number on hp, hq⟩

/-- Before an entry the program passes factors only, until it asks for the choice of the entry. -/
theorem head (h : Replay goesOn p (e :: es) r) :
    ∃ q, Replay goesOn p [] q ∧ q.Meets e ∧ goesOn (q.choose e).score = true ∧
      Replay goesOn (q.choose e) es r := by
  generalize hes : e :: es = all at h
  induction h with
  | rest p => cases hes
  | @choice p r d tail meets on ht ih =>
    cases hes
    exact ⟨p, .rest p, meets, on, ht⟩
  | factor stands number on tail ih =>
    obtain ⟨q, hp, hq⟩ := ih hes
    exact ⟨q, .factor stands number on hp, hq⟩

/-- A replay stands at each of its entries with the entries before it behind. -/
theorem at_entry (h : Replay goesOn p (es ++ e :: fs) r) :
    ∃ q, Replay goesOn p es q ∧ q.Meets e ∧ goesOn (q.choose e).score = true ∧
      Replay goesOn (q.choose e) fs r := by
  obtain ⟨q, hp, hq⟩ := h.split
  obtain ⟨q', hq', hm, ho, hr⟩ := hq.head
  exact ⟨q', by simpa using hp.trans hq', hm, ho, hr⟩

theorem snoc_choice (h : Replay goesOn p es q) (hm : q.Meets e)
    (ho : goesOn (q.choose e).score = true) : Replay goesOn p (es ++ [e]) (q.choose e) :=
  h.trans (.choice hm ho (.rest _))

theorem snoc_factor {point : Factor} {resume : Continuation} (h : Replay goesOn p es q)
    (hs : q.step = .factor point resume) (hn : point.logWeight.isNaN = false)
    (ho : goesOn (q.pass point resume).score = true) :
    Replay goesOn p es (q.pass point resume) := by
  simpa using h.trans (.factor hs hn ho (.rest _))

/-- Factors are never taken back. -/
theorem factors_le (h : Replay goesOn p es q) : p.factors ≤ q.factors := by
  induction h with
  | rest p => exact Nat.le_refl _
  | choice meets on tail ih => exact ih
  | factor stands number on tail ih => exact Nat.le_trans (Nat.le_succ _) ih

/-- Nothing follows an exit. -/
theorem of_exit {store : Store} {value : Value} (h : Replay goesOn p es q)
    (hp : p.step = .exit store value) : q = p := by
  cases h with
  | rest => rfl
  | choice meets => cases meets.step.symm.trans hp
  | factor stands => cases stands.symm.trans hp

/-- There is one way to make the choices of a trace up to the exit of the program. -/
theorem exit_unique {store store' : Store} {value value' : Value} (h : Replay goesOn p es q)
    (h' : Replay goesOn p es r) (hq : q.step = .exit store value)
    (hr : r.step = .exit store' value') : q = r := by
  induction h with
  | rest p => exact (h'.of_exit hq).symm
  | choice meets on tail ih =>
    cases h' with
    | choice meets' on' tail' => exact ih tail' hq
    | factor stands => cases meets.step.symm.trans stands
  | factor stands number on tail ih =>
    cases h' with
    | rest => cases stands.symm.trans hr
    | choice meets' => cases stands.symm.trans meets'.step
    | factor stands' number' on' tail' =>
      cases stands.symm.trans stands'
      exact ih tail' hq

/-- The entries of a replay were made between the factors at its beginning and those at its end. -/
theorem factorsBefore (h : Replay goesOn p es q) (he : e ∈ es) :
    p.factors ≤ e.factorsBefore ∧ e.factorsBefore ≤ q.factors := by
  obtain ⟨before, after, rfl⟩ := List.append_of_mem he
  obtain ⟨r, first, meets, _, rest⟩ := h.at_entry
  rw [meets.factorsBefore]
  exact ⟨first.factors_le, rest.factors_le⟩

/-- A replay that comes to a further entry passes wherever a replay of the entries before it has come
to. -/
theorem onward (h : Replay goesOn p es q) (h' : Replay goesOn p (es ++ e :: fs) r) :
    Replay goesOn q (e :: fs) r := by
  induction h with
  | rest p => exact h'
  | choice meets on tail ih =>
    cases h' with
    | choice meets' on' tail' => exact ih tail'
    | factor stands => cases meets.step.symm.trans stands
  | @factor p q es point resume stands number on tail ih =>
    generalize hall : es ++ e :: fs = all at h'
    cases h' with
    | rest => simp at hall
    | choice meets' => cases stands.symm.trans meets'.step
    | factor stands' number' on' tail' =>
      cases stands.symm.trans stands'
      exact ih (hall ▸ tail')

/-- The last score of a replay is one at which an execution goes on, if the first is. -/
theorem goesOn_last (h : Replay goesOn p es q) (hp : goesOn p.score = true) :
    goesOn q.score = true := by
  induction h with
  | rest p => exact hp
  | choice meets on tail ih => exact ih on
  | factor stands number on tail ih => exact ih on

end Replay

/-- How an execution ends: at its exit, or cut off right behind the factor with the given number.
The frontier is where it could carry on; after an exit only its store means anything. -/
inductive Arrives : Option Nat → Point → Float → Option Value → Frontier → Prop where
  | exit (store : Store) (value : Value) (score : Float) (n : Nat) (resume : Continuation) :
      Arrives none ⟨.exit store value, score, n⟩ score (some value) ⟨resume, store⟩
  | factor (point : Factor) (resume : Continuation) (score : Float) (n : Nat)
      (value : Option Value) (number : point.logWeight.isNaN = false) :
      Arrives (some (n + 1)) ⟨.factor point resume, score, n⟩ (score + point.logWeight) value
        ⟨resume, point.store⟩

/-- An execution that is cut off has just passed the factor with the given number. -/
theorem Arrives.cut {n : Nat} {p : Point} {score : Float} {value : Option Value}
    {frontier : Frontier} (h : Arrives (some n) p score value frontier) :
    ∃ point resume, p.step = .factor point resume ∧ point.logWeight.isNaN = false ∧
      frontier = ⟨resume, point.store⟩ ∧
      p.pass point resume = ⟨frontier.resume frontier.store, score, n⟩ := by
  cases h with
  | factor point resume score n value number => exact ⟨point, resume, rfl, number, rfl, rfl⟩

/-- The factor at which an execution is cut off is the first that the limit does not allow. -/
theorem Arrives.factors {n : Nat} {p : Point} {score : Float} {value : Option Value}
    {frontier : Frontier} (h : Arrives (some n) p score value frontier) : p.factors + 1 = n := by
  cases h with
  | factor point resume score n value number => rfl

/-- What is chosen on the way to the next factor is chosen with as many factors behind as at the start. -/
theorem Arrives.factorsBefore {p q : Point} {es : List Entry} {e : Entry} {score : Float}
    {value : Option Value} {frontier : Frontier} (h : Arrives (some (p.factors + 1)) q score value frontier)
    (replay : Replay goesOn p es q) (he : e ∈ es) : e.factorsBefore = p.factors := by
  obtain ⟨first, last⟩ := replay.factorsBefore he
  have next := h.factors
  omega

/-- Without a limit an execution ends at its exit. -/
theorem Arrives.left {p : Point} {score : Float} {value : Option Value} {frontier : Frontier}
    (h : Arrives none p score value frontier) :
    ∃ v, p.step = .exit frontier.store v ∧ value = some v ∧ p.score = score := by
  cases h with
  | exit store value score n resume => exact ⟨value, rfl, rfl, rfl⟩

/-- The choices of the trace, made in order from `p` on, lead to exactly this end. -/
def Complete (goesOn : Float → Bool) (limit : Option Nat) (p : Point) (trace : Trace)
    (score : Float) (value : Option Value) (frontier : Frontier) : Prop :=
  ∃ q, Replay goesOn p trace.entries q ∧ Arrives limit q score value frontier

/-- A coin whose sides score the same. -/
def coin : Distribution where
  name := "coin"
  draw _ := do return .bool ((← Draw.uniform) < 0.5)
  score _ _ := .ok (-1)

/-- Flips a coin, weighs the outcome and returns it. -/
def coinFlip : Program := fun store address =>
  sample store address coin [] fun store value =>
    factor store address (-2) fun store => exit store value

/-- Flips a coin and, if it shows heads, another one: a program whose executions differ in length. -/
def twoCoins : Program := fun store address =>
  sample store (address.child "first") coin [] fun store value =>
    if value == .bool true then sample store (address.child "second") coin [] exit
    else exit store value

/-- Flips a coin and weighs only heads. -/
def headsWeighed : Program := fun store address =>
  sample store address coin [] fun store value =>
    if value == .bool true then factor store address 0 fun store => exit store value
    else exit store value

/-- Flips a coin for each of the names and weighs it at once: heads by nothing, tails as told beside the
name. -/
def weighedFlips : List (String × Float) → List Value → Program
  | [], sides => fun store _ => exit store (.list sides)
  | (name, tails) :: flips, sides => fun store address =>
    sample store (address.child name) coin [] fun store side =>
      factor store address (if side == .bool true then 0 else tails) fun store =>
        weighedFlips flips (sides ++ [side]) store address

/-- The first coin of `twoCoins`, on record. -/
def firstFlip (heads : Bool) : Entry where
  choice := ⟨default, Address.root.child "first", coin, []⟩
  deliver store value :=
    if value == .bool true then sample store (Address.root.child "second") coin [] exit
    else exit store value
  value := .bool heads
  choiceScore := -1
  scoreBefore := 0
  factorsBefore := 0
  reused := false

/-- The second coin of `twoCoins`, on record after heads, with heads again. -/
def secondFlip : Entry where
  choice := ⟨default, Address.root.child "second", coin, []⟩
  deliver := exit
  value := .bool true
  choiceScore := -1
  scoreBefore := -1
  factorsBefore := 0
  reused := false

/-- A generator that yields the same word for a while. With zeros every coin shows heads, with ones
tails. -/
def steadyRng (word : UInt32) : Rng := { key := .replicate 8 0, ahead := .replicate 64 word }

/-- A generator with which a coin shows heads the first time and tails when it is flipped anew. -/
def headsThenTails : Rng where
  key := .replicate 8 0
  ahead := .replicate 6 0 ++ .replicate 8 0xFFFFFFFF

/-- A generator with which the first entry of a trace is picked and its coin comes out as tails. -/
def firstToTails : Rng where
  key := .replicate 8 0
  ahead := .replicate 2 0 ++ .replicate 8 0xFFFFFFFF

/-- A generator with which coins show the sides given, heads for true, and then heads for a while. An
index below two, drawn in place of a coin, is zero for heads and one for tails. -/
def sidesRng (sides : List Bool) : Rng where
  key := .replicate 8 0
  ahead := sides.flatMap (fun heads => [0, if heads then 0 else 0x80000000]) ++ .replicate 64 0

/-- A context whose generator yields zeros, with one handler installed. -/
def quietContext (name : String) : Context where
  rng := steadyRng 0
  stack := [⟨⟨1⟩, name⟩]
  next := 2

theorem possible_zero : isPossible 0 = true := by decide

theorem negInf_beq_self : (negInf == negInf) = true := by decide

end Posterior
