import Posterior.Proofs.MoverCoherence

/-!
The count of factors of a particle that is moved. A move never writes the count. Up to a limit every
execution that is kept has passed as many factors as the one before; along a whole execution it may
have passed any number, and the count is then that of an execution the particle no longer describes.
-/

namespace Posterior

open Numeric

variable {root : Step} {p : Particle} {limit : Option Nat} {steps n m : Nat}

namespace Particle

/-- The trace describes an execution that has come to its exit with the particle's score, value and
store, with `n` factors behind it. -/
def Exited (root : Step) (p : Particle) (n : Nat) : Prop :=
  ∃ q, Replay anyScore (.start root) p.trace.entries q ∧
    Arrives none q p.score p.value ⟨p.resume, p.store⟩ ∧ q.factors = n

/-- The trace describes an execution that has just passed its `n`-th factor and stands there with the
particle's score, continuation and store. -/
def Parked (root : Step) (p : Particle) (n : Nat) : Prop :=
  Complete anyScore (some n) (.start root) p.trace p.score p.value ⟨p.resume, p.store⟩

/-- The trace describes an execution that has passed `n` factors. -/
def Passed (root : Step) (p : Particle) (n : Nat) : Prop := p.Exited root n ∨ p.Parked root n

/-- An execution that has come to its exit has passed one number of factors. -/
theorem Exited.unique (h : p.Exited root n) (h' : p.Exited root m) : n = m := by
  obtain ⟨q, replay, arrives, rfl⟩ := h
  obtain ⟨q', replay', arrives', rfl⟩ := h'
  obtain ⟨_, exits, _⟩ := arrives.left
  obtain ⟨_, exits', _⟩ := arrives'.left
  rw [replay.exit_unique replay' exits exits']

theorem Exited.of_complete
    (h : Complete anyScore none (.start root) p.trace p.score p.value ⟨p.resume, p.store⟩) :
    ∃ n, p.Exited root n := by
  obtain ⟨q, replay, arrives⟩ := h
  exact ⟨_, q, replay, arrives, rfl⟩

theorem Passed.replay (h : p.Passed root n) :
    ∃ q, Replay anyScore (.start root) p.trace.entries q := by
  obtain ⟨q, replay, _⟩ | ⟨q, replay, _⟩ := h <;> exact ⟨q, replay⟩

end Particle

namespace Mover

/-- The chain is the one that it was at first, or has kept an execution from `b` on since. -/
structure FirstOrMade (b : Point) (limit : Option Nat) (first : Mover) (c : Chain)
    (frontier : Frontier) : Prop where
  possible : isPossible c.score = true
  held : (c.trace = first.chain.trace ∧ c.score = first.chain.score ∧
      c.value = first.chain.value ∧ frontier = first.frontier) ∨
    Complete anyScore limit b c.trace c.score c.value frontier

/-- The execution at first need not stand at the limit: what regenerations make of it does. -/
theorem firstOrMade_upheld {b q : Point} {first : Mover}
    (replay : Replay anyScore b first.chain.trace.entries q) :
    Upheld limit (FirstOrMade b limit first) where
  possible h := h.possible
  of_eq h ht hs hv := by
    refine ⟨by rw [hs]; exact h.possible, ?_⟩
    rw [ht, hs, hv]
    exact h.held
  made h made ht hs := by
    refine ⟨by rw [hs]; exact made.possible, .inr ?_⟩
    rw [ht, hs]
    obtain ⟨same, _⟩ | ⟨_, replay', _⟩ := h.held
    · exact made.complete_of_replay (fun _ _ => rfl) (same ▸ replay)
    · exact made.complete_of_replay (fun _ _ => rfl) replay'

end Mover

/-- A particle whose choices can be replayed is, after it has been moved, the one that it was, or it
describes an execution that ends at the limit. -/
theorem rejuvenate_ends {fuel : Nat} {histogram : Option Histogram} {c c' : Context}
    {r : Rejuvenated} {q : Point} (replay : Replay anyScore (.start root) p.trace.entries q)
    (moved : rejuvenate fuel p limit steps histogram c = .ok r c') :
    r.particle = p ∨ Complete anyScore limit (.start root) r.particle.trace r.particle.score
      r.particle.value ⟨r.particle.resume, r.particle.store⟩ := by
  obtain ⟨_, same⟩ | ⟨movable, id, s₀, s, trace, reached, hc, hf, ht, he⟩ := rejuvenate_eq_ok moved
  · exact .inl same
  · have whole := List.take_append_drop p.frozen p.trace.entries
    rw [← whole] at replay
    obtain ⟨b, frozen, free⟩ := replay.split
    have free : Replay anyScore b s₀.engine.chain.trace.entries q := by
      rw [hc]
      exact free
    have first : Mover.FirstOrMade b limit s₀.engine s₀.engine.chain s₀.engine.frontier := by
      refine ⟨?_, .inl ⟨rfl, rfl, rfl, rfl⟩⟩
      rw [hc]
      exact Particle.movable_possible movable
    have kept : Mover.FirstOrMade b limit s₀.engine s.engine.chain s.engine.frontier :=
      reached.keeps (Mover.firstOrMade_upheld free) first
    rw [he]
    obtain ⟨sameTrace, sameScore, sameValue, sameFrontier⟩ | ⟨q', replay', arrives⟩ := kept.held
    · left
      have sameTrace : trace = p.trace := by
        refine Trace.ext (ht.trans ?_)
        rw [sameTrace, hc]
        exact whole
      unfold Particle.adopt
      rw [sameTrace, sameScore, sameValue, sameFrontier, hc, hf]
    · right
      refine ⟨q', ?_, arrives⟩
      change Replay anyScore _ trace.entries q'
      rw [ht]
      exact frozen.trans replay'

/-- A particle that is moved keeps its count of factors. Moved up to its latest factor, it describes an
execution that has passed that many. Moved along the whole of its execution, it is the one that it was,
or its execution has come to an exit behind some number of factors, which is the only one that is right
for it; the count is right if that number is the old one, as it is for a program all of whose executions
pass that many. -/
theorem factor_count_of_last_round {fuel : Nat} {histogram : Option Histogram} {c c' : Context}
    {r : Rejuvenated} (counted : p.Passed root p.factorCount)
    (limited : limit = none ∨ limit = some p.factorCount)
    (moved : rejuvenate fuel p limit steps histogram c = .ok r c') :
    r.particle.factorCount = p.factorCount ∧
    (limit = some p.factorCount → r.particle.Passed root r.particle.factorCount) ∧
    (limit = none → r.particle = p ∨ ∃ n, r.particle.Exited root n ∧
      ∀ m, r.particle.Exited root m ↔ m = n) ∧
    ((∀ es q store value, Replay anyScore (.start root) es q → q.step = .exit store value →
        q.factors = p.factorCount) → r.particle.Passed root r.particle.factorCount) := by
  have kept : r.particle.factorCount = p.factorCount := (rejuvenate_kept moved).factorCount
  obtain ⟨_, replay⟩ := counted.replay
  have ends := rejuvenate_ends replay moved
  rw [kept]
  refine ⟨rfl, ?_, ?_, ?_⟩
  · rintro rfl
    obtain same | made := ends
    · rw [same]
      exact counted
    · exact .inr made
  · rintro rfl
    refine ends.imp_right fun made => ?_
    obtain ⟨n, exited⟩ := Particle.Exited.of_complete made
    refine ⟨n, exited, fun m => ⟨fun other => other.unique exited, ?_⟩⟩
    rintro rfl
    exact exited
  · intro steady
    obtain same | made := ends
    · rw [same]
      exact counted
    · obtain rfl | rfl := limited
      · obtain ⟨q, replay', arrives⟩ := made
        obtain ⟨value, exits, _⟩ := arrives.left
        exact .inl ⟨q, replay', arrives, steady _ q _ value replay' exits⟩
      · exact .inr made

/-- An execution of `headsWeighed` that returns heads has passed one factor. -/
theorem headsWeighed_heads (h : p.Exited (headsWeighed default .root) n)
    (heads : (p.value == some (.bool true)) = true) : n = 1 := by
  obtain ⟨q, replay, arrives, rfl⟩ := h
  obtain ⟨value, exits, hv, _⟩ := arrives.left
  rw [hv] at heads
  generalize p.trace.entries = es at replay
  cases replay with
  | rest => cases exits
  | factor stands => cases stands
  | @choice _ _ e _ meets on tail =>
    have weighs : (Point.choose (.start (headsWeighed default .root)) e).step =
        if e.value == .bool true then
          factor e.choice.store .root 0 fun store => exit store e.value
        else exit e.choice.store e.value := by
      have asked := meets.step
      simp only [Point.start, headsWeighed, sample, Step.sample.injEq] at asked
      obtain ⟨_, delivers⟩ := asked
      simp only [Point.choose, ← delivers]
    have none : (Point.choose (.start (headsWeighed default .root)) e).factors = 0 := rfl
    generalize Point.choose (.start (headsWeighed default .root)) e = flipped at *
    split at weighs
    · cases tail with
      | rest => cases exits.symm.trans weighs
      | choice meets' => cases meets'.step.symm.trans weighs
      | factor stands number on' tail' =>
        cases stands.symm.trans weighs
        rw [tail'.of_exit rfl]
        exact congrArg (· + 1) none
    · rename_i tails
      rw [tail.of_exit weighs] at exits
      obtain ⟨_, rfl⟩ := Step.exit.inj (exits.symm.trans weighs)
      exact absurd heads tails

/-- The coin of `headsWeighed`, showing tails. -/
def weighedTails : Entry where
  choice := ⟨default, .root, coin, []⟩
  deliver store value :=
    if value == .bool true then factor store .root 0 fun store => exit store value
    else exit store value
  value := .bool false
  choiceScore := -1
  scoreBefore := 0
  factorsBefore := 0
  reused := false

/-- A particle of `headsWeighed` that shows tails and has come to its exit without a factor. -/
def exitedTails : Particle where
  resume := headsWeighed.entry .root
  store := default
  score := -1
  trace := ⟨[weighedTails], by decide⟩
  completed := true
  value := some (.bool false)

/-- Moved along the whole of its execution the coin turns to heads, whose execution passes a factor; the
count stays at none. -/
theorem headsWeighed_miscounted : ∃ r c',
    rejuvenate 3 exitedTails none 1 none (quietContext "rejuvenation") = .ok r c' ∧
      r.particle.factorCount = 0 ∧ ∀ m, r.particle.Exited (headsWeighed default .root) m ↔ m = 1 := by
  have counted : exitedTails.Passed (headsWeighed default .root) exitedTails.factorCount :=
    .inl ⟨_, .choice ⟨rfl, rfl, rfl, rfl, by decide⟩ rfl (.rest _), .exit .., rfl⟩
  have ran : succeedsWith (fun r _ => r.particle.value == some (.bool true))
      (rejuvenate 3 exitedTails none 1 none (quietContext "rejuvenation")) = true := by
    decide +kernel
  obtain ⟨r, c', moved, heads⟩ := exists_of_succeedsWith ran
  obtain ⟨kept, _, whole, _⟩ := factor_count_of_last_round counted (.inl rfl) moved
  obtain same | ⟨n, exited, only⟩ := whole rfl
  · rw [same] at heads
    cases heads
  · obtain rfl := headsWeighed_heads exited heads
    exact ⟨r, c', moved, kept, only⟩

end Posterior
