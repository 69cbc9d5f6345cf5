import Mathlib.Analysis.SpecialFunctions.Log.Basic
import Posterior.Proofs.AsyncRuns
import Posterior.Proofs.Replay
import Posterior.Proofs.SignedUnits

/-!
The running mean weight of the arrivals at a factor. Each arrival moves the mean towards its own weight,
in proportion to how many executions it stands for; the old mean counts for as many as there were
arrivals before. So an arrival that stood for several executions counts for all of them when it comes,
and for one from then on.
-/

namespace Posterior

open Numeric

/-- Numbers with the operations that a running mean is made of. -/
structure Arithmetic (α : Type) where
  ofCount : Nat → α
  add : α → α → α
  sub : α → α → α
  ln : α → α
  /-- The logarithm of the sum of the exponentials. -/
  logSumExp : List α → α

namespace Arithmetic

def doubles : Arithmetic Float where
  ofCount := Numeric.ofCount
  add := (· + ·)
  sub := (· - ·)
  ln := Numeric.ln
  logSumExp := Numeric.logSumExp

/-- Exact arithmetic. -/
noncomputable def reals : Arithmetic ℝ where
  ofCount := Nat.cast
  add := (· + ·)
  sub := (· - ·)
  ln := Real.log
  logSumExp xs := Real.log (xs.map Real.exp).sum

section
variable {α : Type} (A : Arithmetic α)

/-- The mean of `count` arrivals and one more. -/
def updatedMean (count : Nat) (mean weight multiplicity : α) : α :=
  let arrivals := A.ofCount count
  let ldenom := A.ln (A.add arrivals multiplicity)
  A.logSumExp [A.add (A.sub (A.ln arrivals) ldenom) mean,
    A.add (A.sub (A.ln multiplicity) ldenom) weight]

/-- What is known after one more arrival with this weight and multiplicity: how many there were, and
their mean. -/
def arrive : Option (Nat × α) → α × α → Option (Nat × α)
  | none, (weight, _) => some (1, weight)
  | some (count, mean), (weight, multiplicity) =>
    some (count + 1, A.updatedMean count mean weight multiplicity)

/-- What is known of arrivals, in their order. -/
def running (arrivals : List (α × α)) : Option (Nat × α) := arrivals.foldl A.arrive none

@[simp] theorem running_snoc (arrivals : List (α × α)) (a : α × α) :
    A.running (arrivals ++ [a]) = A.arrive (A.running arrivals) a := by
  unfold running
  rw [List.foldl_append]
  rfl

end

/-- In exact arithmetic the old mean counts for one execution per arrival. -/
theorem reals_updatedMean {count : Nat} {mean weight multiplicity : ℝ} (some : 0 < count)
    (positive : 0 < multiplicity) :
    Real.exp (reals.updatedMean count mean weight multiplicity) =
      (count * Real.exp mean + multiplicity * Real.exp weight) / (count + multiplicity) := by
  have counted : (0 : ℝ) < count := Nat.cast_pos.mpr some
  have both : 0 < (count : ℝ) + multiplicity := add_pos counted positive
  have term : ∀ x y : ℝ, 0 < x → Real.exp (Real.log x - Real.log (count + multiplicity) + y) =
      x * Real.exp y / (count + multiplicity) := by
    intro x y hx
    rw [Real.exp_add, Real.exp_sub, Real.exp_log hx, Real.exp_log both]
    ring
  simp only [updatedMean, reals, List.map_cons, List.map_nil, List.sum_cons, List.sum_nil, add_zero]
  rw [term _ _ counted, term _ _ positive, ← add_div, Real.exp_log]
  positivity

/-- The log-mean of the weights, each of them taken as often as its multiplicity says. -/
noncomputable def logMean (arrivals : List (ℝ × ℝ)) : ℝ :=
  Real.log ((arrivals.map fun a => a.2 * Real.exp a.1).sum / (arrivals.map Prod.snd).sum)

section
variable {arrivals : List (ℝ × ℝ)} {mean weight multiplicity : ℝ}

theorem multiplicities_pos (some : arrivals ≠ []) (positive : ∀ a ∈ arrivals, 0 < a.2) :
    0 < (arrivals.map Prod.snd).sum := by
  refine List.sum_pos _ (fun x hx => ?_) (by simpa using some)
  obtain ⟨a, ha, rfl⟩ := List.mem_map.mp hx
  exact positive a ha

theorem logMean_singleton (more : 0 < multiplicity) : logMean [(weight, multiplicity)] = weight := by
  simp [logMean, mul_div_cancel_left₀ _ more.ne']

theorem exp_logMean (some : arrivals ≠ []) (positive : ∀ a ∈ arrivals, 0 < a.2) :
    Real.exp (logMean arrivals) * (arrivals.map Prod.snd).sum =
      (arrivals.map fun a => a.2 * Real.exp a.1).sum := by
  have total := multiplicities_pos some positive
  have sum : 0 < (arrivals.map fun a => a.2 * Real.exp a.1).sum := by
    refine List.sum_pos _ (fun x hx => ?_) (by simpa using some)
    obtain ⟨a, ha, rfl⟩ := List.mem_map.mp hx
    exact mul_pos (positive a ha) (Real.exp_pos _)
  unfold logMean
  rw [Real.exp_log (div_pos sum total), div_mul_cancel₀ _ total.ne']

/-- With one more arrival the log-mean moves in proportion to the multiplicities. -/
theorem exp_logMean_snoc (some : arrivals ≠ []) (positive : ∀ a ∈ arrivals, 0 < a.2)
    (more : 0 < multiplicity) :
    Real.exp (logMean (arrivals ++ [(weight, multiplicity)])) =
      ((arrivals.map Prod.snd).sum * Real.exp (logMean arrivals) +
        multiplicity * Real.exp weight) / ((arrivals.map Prod.snd).sum + multiplicity) := by
  have total := multiplicities_pos some positive
  have all : ∀ a ∈ arrivals ++ [(weight, multiplicity)], 0 < a.2 := by
    intro a ha
    obtain ha | ha := List.mem_append.mp ha
    · exact positive a ha
    · rw [List.mem_singleton.mp ha]
      exact more
  have whole := exp_logMean (by simp) all
  simp only [List.map_append, List.map_cons, List.map_nil, List.sum_append, List.sum_cons,
    List.sum_nil, add_zero] at whole
  rw [eq_div_iff (add_pos total more).ne', whole, ← exp_logMean some positive]
  ring

/-- If the mean is right so far, one more arrival keeps it right exactly if those before stand for one
execution each on average, or the new weight is the mean itself. -/
theorem right_iff (some : arrivals ≠ []) (positive : ∀ a ∈ arrivals, 0 < a.2)
    (more : 0 < multiplicity) :
    reals.updatedMean arrivals.length (logMean arrivals) weight multiplicity =
        logMean (arrivals ++ [(weight, multiplicity)]) ↔
      (arrivals.map Prod.snd).sum = arrivals.length ∨ weight = logMean arrivals := by
  have count : 0 < arrivals.length := List.length_pos_of_ne_nil some
  have counted : (0 : ℝ) < arrivals.length := Nat.cast_pos.mpr count
  have total := multiplicities_pos some positive
  rw [← Real.exp_eq_exp, reals_updatedMean count more, exp_logMean_snoc some positive more,
    div_eq_div_iff (add_pos counted more).ne' (add_pos total more).ne',
    ← Real.exp_eq_exp (x := weight)]
  generalize Real.exp weight = x
  generalize Real.exp (logMean arrivals) = m
  generalize (arrivals.map Prod.snd).sum = C at *
  generalize (arrivals.length : ℝ) = k at *
  -- the two sides differ by `multiplicity * (C - k) * (x - m)`
  constructor
  · intro same
    have product : multiplicity * ((C - k) * (x - m)) = 0 := by linear_combination same
    obtain none | other := mul_eq_zero.mp product
    · exact absurd none more.ne'
    · exact (mul_eq_zero.mp other).imp sub_eq_zero.mp sub_eq_zero.mp
  · rintro (rfl | rfl) <;> ring

/-- After an arrival that stands for two executions, one that stands for itself keeps the mean right only
if it brings the same weight. -/
theorem pair_right_iff {first second : ℝ} :
    reals.updatedMean 1 first second 1 = logMean [(first, 2), (second, 1)] ↔ first = second := by
  have right := @right_iff [(first, 2)] second 1 (by simp) (by simp) one_pos
  rw [logMean_singleton two_pos] at right
  refine right.trans ⟨fun h => (h.resolve_left ?_).symm, fun h => .inr h.symm⟩
  norm_num

/-- The mean is right as long as no arrival but the last stands for several executions. -/
theorem reals_running_of_ones (ones : ∀ a ∈ arrivals, a.2 = 1) (more : 0 < multiplicity) :
    reals.running (arrivals ++ [(weight, multiplicity)]) =
      some (arrivals.length + 1, logMean (arrivals ++ [(weight, multiplicity)])) := by
  induction arrivals using List.reverseRecOn generalizing weight multiplicity with
  | nil =>
    simp only [List.nil_append, List.length_nil, Nat.zero_add]
    rw [logMean_singleton more]
    rfl
  | append_singleton arrivals a ih =>
    have one : a.2 = 1 := ones a (by simp)
    have before : reals.running (arrivals ++ [a]) =
        some (arrivals.length + 1, logMean (arrivals ++ [a])) :=
      ih (fun b hb => ones b (List.mem_append_left _ hb)) (one ▸ one_pos)
    have sum : ((arrivals ++ [a]).map Prod.snd).sum = (arrivals ++ [a]).length := by
      rw [List.map_congr_left (g := fun _ => (1 : ℝ)) ones]
      simp
    have positive : ∀ b ∈ arrivals ++ [a], 0 < b.2 := fun b hb => ones b hb ▸ one_pos
    rw [running_snoc, before]
    have right : reals.updatedMean (arrivals ++ [a]).length (logMean (arrivals ++ [a])) weight
        multiplicity = logMean (arrivals ++ [a] ++ [(weight, multiplicity)]) :=
      (right_iff (by simp) positive more).mpr (.inl sum)
    rw [← right]
    simp only [arrive, List.length_append, List.length_singleton]

end

end Arithmetic

namespace AsyncSmc

open Arithmetic

variable {s₀ s t : Session AsyncSmc} {seen : List Arrival} {moment : Moment}

/-- The arrivals at a factor that are not impossible, as weights and multiplicities. -/
def counted (seen : List Arrival) (index : Nat) : List (Float × Float) :=
  seen.filterMap fun a =>
    if a.index = index ∧ a.fate ≠ .impossible then some (a.weight, a.multiplicity) else none

@[simp] theorem counted_snoc (a : Arrival) (index : Nat) : counted (seen ++ [a]) index =
    counted seen index ++
      if a.index = index ∧ a.fate ≠ .impossible then [(a.weight, a.multiplicity)] else [] := by
  unfold counted
  rw [List.filterMap_append]
  congr 1
  by_cases here : a.index = index ∧ a.fate ≠ .impossible <;> simp [here]

/-- What the engine knows of a factor is how many have arrived and their mean. -/
def Knows (e : AsyncSmc) (seen : List Arrival) : Prop :=
  ∀ index, (e.stats.get? index).map (fun known => (known.arrivals, known.meanWeight)) =
    doubles.running (counted seen index)

theorem offspring_mean {e : AsyncSmc} {stats : FactorStats} {weight multiplicity : Float}
    {o : Offspring} {g g' : Rng} (h : e.offspring stats weight multiplicity g = .ok o g') :
    o.mean = doubles.updatedMean stats.arrivals stats.meanWeight weight multiplicity := by
  unfold offspring at h
  split at h
  · simp only [bind_eq_ok] at h
    obtain ⟨x, _, _, h⟩ := h
    split at h <;> obtain ⟨rfl, _⟩ := pure_eq_ok.mp h <;> rfl
  · obtain ⟨rfl, _⟩ := pure_eq_ok.mp h
    rfl

/-- An arrival that is not impossible is taken into the statistics of its factor and no other. -/
theorem Knows.note {e : AsyncSmc} {stats : FactorStats} {a : Arrival} (h : e.Knows seen)
    (possible : a.fate ≠ .impossible)
    (taken : some (stats.arrivals, stats.meanWeight) = doubles.arrive
      ((e.stats.get? a.index).map fun known => (known.arrivals, known.meanWeight))
      (a.weight, a.multiplicity)) :
    (e.note a.index stats).Knows (seen ++ [a]) := by
  intro index
  change ((e.stats.insert a.index stats).get? index).map _ = _
  rw [Table.get?_insert, counted_snoc]
  split
  · rename_i here
    subst here
    rw [if_pos ⟨rfl, possible⟩, running_snoc, ← h]
    exact taken
  · rename_i elsewhere
    rw [if_neg fun there => elsewhere there.1.symm, List.append_nil]
    exact h index

theorem Keeps.taken {e : AsyncSmc} {p q : AsyncParticle} {index : Nat} {g g' : Rng}
    {stats : FactorStats} (h : e.Keeps p index g q stats g') :
    some (stats.arrivals, stats.meanWeight) = doubles.arrive
      ((e.stats.get? index).map fun known => (known.arrivals, known.meanWeight))
      (p.weight, p.multiplicity) := by
  cases h with
  | first unseen =>
    rw [unseen]
    rfl
  | later seen drawn some =>
    rw [seen]
    change Option.some (_, _) = Option.some (_, _)
    rw [← offspring_mean drawn]
    rfl

theorem Knows.arrives {e e' : AsyncSmc} {p : AsyncParticle} {index : Nat} {g g' : Rng} {fate : Fate}
    (h : e.Knows seen) (arrives : Arrives e p index g fate moment e' g') :
    e'.Knows (seen ++ [⟨index, p.weight, p.multiplicity, fate⟩]) := by
  cases arrives with
  | impossible lost =>
    intro i
    rw [counted_snoc, if_neg fun there => there.2 rfl, List.append_nil]
    exact h i
  | @dropped stats o g' possible met drawn none =>
    refine h.note (a := ⟨index, p.weight, p.multiplicity, .dropped⟩) (by simp) ?_
    rw [met]
    change Option.some (_, _) = Option.some (_, _)
    rw [← offspring_mean drawn]
    rfl
  | @parked q stats g' possible keeps space =>
    exact h.note (a := ⟨index, p.weight, p.multiplicity, .parked q.children⟩) (by simp) keeps.taken
  | @ranOn q stats g' possible keeps full =>
    exact h.note (a := ⟨index, p.weight, p.multiplicity, .ranOn⟩) (by simp) keeps.taken

theorem Sees.knows (fresh : s₀.engine.stats = .empty) (h : Sees s₀ seen moment s) :
    s.engine.Knows seen := by
  induction h with
  | start =>
    intro index
    rw [fresh]
    rfl
  | launch before left launched ih =>
    obtain ⟨p, e, g, picks, _, rfl⟩ := launch_eq_ok launched
    unfold countLaunch
    cases picks <;> split <;> exact ih
  | sample before effect drawn ih => exact ih
  | @factor seen next s point resume p fate moment e g before effect number active arrives ih =>
    have known : { s.engine with active := none }.Knows seen := ih
    exact known.arrives arrives
  | exit before effect active ih => exact ih
  | again before spent more ih => exact ih

theorem install_fresh {config : AsyncConfig} {program : Program} {address : Address} {store : Store}
    {context context' : Context} {engine : AsyncSmc}
    (h : install config program address store context = .ok engine context') :
    engine.stats = .empty := by
  obtain ⟨_, _, rfl⟩ := install_eq_ok.mp h
  rfl

/-- Whatever has arrived at a factor and however often the run was resumed, the mean weight on record is
the running mean of the arrivals that were not impossible, kept or dropped: the first brings its weight,
and with each further one the old mean counts for as many executions as there were arrivals, the new
weight for as many as the arrival stands for. So in exact arithmetic the mean is the log-mean of the
weights by their multiplicities as long as at most the last arrival stands for several; where it is, one
more arrival keeps it so exactly if the multiplicities before add up to the number of arrivals or the new
weight is the mean itself. -/
theorem running_mean_counts_arrivals {config : AsyncConfig} {program : Program} {address : Address}
    {store : Store} {context context' : Context} {engine : AsyncSmc}
    (installed : install config program address store context = .ok engine context') :
    (∀ log s log' moment t, Resumes ⟨engine, context'⟩ log s → Reaches s log' moment t →
      ∃ seen, Sees ⟨engine, context'⟩ seen moment t ∧
        seen.map Arrival.event = (log ++ log').filter Event.isArrival) ∧
    (∀ seen moment t, Sees ⟨engine, context'⟩ seen moment t → ∀ index,
      (t.engine.stats.get? index).map (fun known => (known.arrivals, known.meanWeight)) =
        doubles.running (counted seen index)) ∧
    (∀ (arrivals : List (ℝ × ℝ)) (mean weight multiplicity : ℝ), 0 < multiplicity →
      reals.running arrivals = some (arrivals.length, mean) →
      ∃ mean', reals.running (arrivals ++ [(weight, multiplicity)]) =
          some (arrivals.length + 1, mean') ∧
        Real.exp mean' = (arrivals.length * Real.exp mean + multiplicity * Real.exp weight) /
          (arrivals.length + multiplicity) ∧
        ((∀ a ∈ arrivals, 0 < a.2) → mean = logMean arrivals →
          (mean' = logMean (arrivals ++ [(weight, multiplicity)]) ↔
            (arrivals.map Prod.snd).sum = arrivals.length ∨ weight = mean))) ∧
    ∀ (arrivals : List (ℝ × ℝ)) (weight multiplicity : ℝ), 0 < multiplicity →
      (∀ a ∈ arrivals, a.2 = 1) →
      reals.running (arrivals ++ [(weight, multiplicity)]) =
        some (arrivals.length + 1, logMean (arrivals ++ [(weight, multiplicity)])) := by
  refine ⟨?_, ?_, ?_, ?_⟩
  · intro log s log' moment t resumed reached
    obtain ⟨seen, sees, same⟩ := resumed.sees
    obtain ⟨seen', sees', same'⟩ := reached.sees sees
    exact ⟨seen ++ seen', sees', by rw [List.map_append, List.filter_append, same, same']⟩
  · intro seen moment t sees
    exact sees.knows (install_fresh installed)
  · intro arrivals mean weight multiplicity more known
    have some : arrivals ≠ [] := by
      rintro rfl
      cases known
    refine ⟨reals.updatedMean arrivals.length mean weight multiplicity, ?_,
      reals_updatedMean (List.length_pos_of_ne_nil some) more, ?_⟩
    · rw [running_snoc, known]
      rfl
    · rintro positive rfl
      exact right_iff some positive more
  · intro arrivals weight multiplicity more ones
    exact reals_running_of_ones ones more

/-- The real number that a finite double stands for. -/
noncomputable def exactly (x : Float) : ℝ := unitsOf x / 2 ^ 1074

/-- Arrivals in exact arithmetic. -/
noncomputable def exactArrivals (arrivals : List (Float × Float)) : List (ℝ × ℝ) :=
  arrivals.map fun a => (exactly a.1, exactly a.2)

theorem exactly_ofNat {x : Float} {n : Nat} (h : unitsOf x = n * 2 ^ 1074) : exactly x = n := by
  unfold exactly
  rw [h, Int.cast_mul, Int.cast_natCast, Int.cast_pow, Int.cast_ofNat]
  exact mul_div_cancel_right₀ _ (pow_ne_zero _ two_ne_zero)

theorem exactly_neg {x : Float} (h : unitsOf x < 0) : exactly x < 0 :=
  div_neg_of_neg_of_pos (Int.cast_lt_zero.mpr h) (pow_pos two_pos _)

/-- How heads and tails are weighed. -/
def sideWeight (heads tails : Float) (side : Value) : Float :=
  if side == .bool true then heads else tails

/-- Flips a coin and weighs it twice: tails count for little at first, and heads later. -/
def contrary : Program := fun store address =>
  sample store address coin [] fun store side =>
    factor store (address.child "first") (sideWeight 0 (-4000) side) fun store =>
      factor store (address.child "second") (sideWeight (-4000) 4000 side) fun store =>
        exit store side

/-- A generator with which a first particle shows tails and waits, a second one shows heads, and the
first one is taken up again. -/
def tailsWaits : Rng where
  key := .replicate 8 0
  ahead := [0, 0, 0xFFFFFFFF, 0xFFFFFFFF, 0, 0x80000000] ++ .replicate 16 0

/-- A run of `contrary` with a buffer that holds one particle. -/
def contraryStart : Session AsyncSmc :=
  ⟨initial { particles := 2, bufferSize := 1 } (contrary.entry .root) default ⟨1⟩,
    { rng := tailsWaits, stack := [⟨⟨1⟩, "async-smc"⟩], next := 2 }⟩

theorem contrary_install : install { particles := 2, bufferSize := 1 } contrary .root default
    { rng := tailsWaits } = .ok contraryStart.engine contraryStart.context := rfl

/-- The heads find the buffer full and stand for two executions when they come to the second factor,
with a low weight. Then the tails come there, with a high one. -/
theorem contrary_sees : ∃ seen s, Sees contraryStart seen .free s ∧
    counted seen 1 = [(-4000 - lnTwo, 2), (0, 1)] ∧
    (s.engine.stats.get? 1).map (fun known => (known.arrivals, known.meanWeight)) =
      some (2, -lnTwo) := by
  have opening : Sees contraryStart [] .free contraryStart := .start
  have tails := (opening.launch (by decide) rfl).sample rfl rfl
  have waits := tails.factor rfl (by decide +kernel) rfl
    (.parked (by decide +kernel) (.first rfl) rfl)
  have heads := (waits.launch (by decide) rfl).sample rfl rfl
  have splits := heads.factor rfl (by decide +kernel) rfl (.ranOn (by decide +kernel)
    (.later rfl (offspring_above (by decide +kernel)) (by decide +kernel)) rfl)
  have first := splits.factor rfl (by decide +kernel) rfl (.ranOn (by decide +kernel) (.first rfl) rfl)
  have again := (first.exit rfl rfl).launch (by decide) rfl
  have second := again.factor rfl (by decide +kernel) rfl (.parked (by decide +kernel)
    (.later rfl (offspring_above (by decide +kernel)) (by decide +kernel)) rfl)
  have bits : Function.Injective fun a : Float × Float => (a.1.toBits, a.2.toBits) :=
    fun a b same => Prod.ext (toBits_inj.mp (Prod.mk.inj same).1) (toBits_inj.mp (Prod.mk.inj same).2)
  have countedBits : Function.Injective fun a : Nat × Float => (a.1, a.2.toBits) :=
    fun a b same => Prod.ext (Prod.mk.inj same).1 (toBits_inj.mp (Prod.mk.inj same).2)
  exact ⟨_, _, second, List.map_injective_iff.mpr bits (by decide +kernel),
    Option.map_injective countedBits (by decide +kernel)⟩

/-- The same two arrivals in exact arithmetic. -/
theorem contrary_exact : ∃ low : ℝ, low < 0 ∧
    exactArrivals [(-4000 - lnTwo, 2), (0, 1)] = [(low, 2), (0, 1)] := by
  have two : exactly 2 = (2 : ℕ) := exactly_ofNat (by decide +kernel)
  have one : exactly 1 = (1 : ℕ) := exactly_ofNat (by decide +kernel)
  have zero : exactly 0 = (0 : ℕ) := exactly_ofNat (by decide +kernel)
  refine ⟨exactly (-4000 - lnTwo), exactly_neg (by decide +kernel), ?_⟩
  rw [exactArrivals, List.map_cons, List.map_singleton, two, one, zero, Nat.cast_ofNat, Nat.cast_one,
    Nat.cast_zero]

/-- The running mean of `contrary` at its second factor is no log-mean by the multiplicities: the first
arrival stands for two executions and is counted once. -/
theorem contrary_miscounted : ∃ engine context seen s mean,
    install { particles := 2, bufferSize := 1 } contrary .root default { rng := tailsWaits } =
      .ok engine context ∧
    Sees ⟨engine, context⟩ seen .free s ∧
    (s.engine.stats.get? 1).map (fun known => (known.arrivals, known.meanWeight)) =
      doubles.running (counted seen 1) ∧
    reals.running (exactArrivals (counted seen 1)) = some (2, mean) ∧
    mean ≠ logMean (exactArrivals (counted seen 1)) := by
  obtain ⟨seen, s, sees, arrivals, _⟩ := contrary_sees
  obtain ⟨low, negative, exact'⟩ := contrary_exact
  rw [← arrivals] at exact'
  refine ⟨_, _, seen, s, reals.updatedMean 1 low 0 1, contrary_install, sees, sees.knows rfl 1, ?_⟩
  rw [exact']
  refine ⟨rfl, fun same => ?_⟩
  exact negative.ne (pair_right_iff.mp same)

/-- On the same run the mean on record is the running mean of its arrivals, and in exact arithmetic the
first of them counts for one execution when the second one comes. -/
theorem contrary_means : ∃ engine context seen s low mean,
    install { particles := 2, bufferSize := 1 } contrary .root default { rng := tailsWaits } =
      .ok engine context ∧
    Sees ⟨engine, context⟩ seen .free s ∧ doubles.running (counted seen 1) = some (2, -lnTwo) ∧
    exactArrivals (counted seen 1) = [(low, 2), (0, 1)] ∧
    reals.running (exactArrivals (counted seen 1)) = some (2, mean) ∧
    Real.exp mean = (Real.exp low + 1) / 2 := by
  obtain ⟨seen, s, sees, arrivals, recorded⟩ := contrary_sees
  obtain ⟨low, _, exact'⟩ := contrary_exact
  rw [← arrivals] at exact'
  obtain ⟨_, means, moves, ones⟩ := running_mean_counts_arrivals contrary_install
  have known := (means seen .free s sees 1).symm.trans recorded
  have alone : reals.running [(low, 2)] = some (1, logMean [(low, 2)]) := ones [] low 2 two_pos nofun
  rw [logMean_singleton two_pos] at alone
  obtain ⟨mean, both, moved, _⟩ := moves [(low, 2)] low 0 1 one_pos alone
  refine ⟨_, _, seen, s, low, mean, contrary_install, sees, known, exact', exact' ▸ both, ?_⟩
  rw [moved, Real.exp_zero]
  norm_num

end AsyncSmc

end Posterior
