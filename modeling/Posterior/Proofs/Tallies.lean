import Posterior.Proofs.FinalWeights
import Posterior.Proofs.Observations
import Posterior.Proofs.Ranges

/-!
Tallies of the filters. A step of an exited particle that is moved is observed once when it is
settled, however its execution has come out, and a particle that is not moved as often as it would
have been. What a filter ends with is one value for each particle.
-/

namespace Posterior

namespace Mover

variable {task : Task} {steps k : Nat} {s₀ s t : Session Mover} {moment : Moment} {e : Mover}

/-- Of the steps that have been begun, `k` are settled. -/
def Settles (k : Nat) : Moment → Mover → Prop
  | .settled _, e => e.proposals = k
  | .awaiting .., e | .ended .., e => e.proposals = k + 1

theorem settles_after {origin : Chain} (h : e.proposals = k + 1) (progress : Progress) :
    Settles k (.after origin progress) e := by
  cases progress <;> exact h

theorem settles_afterFactor {origin c : Chain} {limit : Option Nat} {frontier : Frontier}
    (h : e.proposals = k + 1) : Settles k (.afterFactor origin limit c frontier) e := by
  unfold Moment.afterFactor
  split
  · exact h
  · split <;> exact h

theorem settles_afterExit {origin : Chain} {limit : Option Nat} {e' : Mover} {store : Store}
    {value : Value} (h : e.proposals = k + 1) :
    Settles k (.afterExit origin limit e' store value) e := by
  unfold Moment.afterExit
  split <;> exact h

/-- The particle that is moved has exited, and it is moved along the whole of its execution. -/
def MovesExited (task : Task) (s₀ : Session Mover) : Prop :=
  task.limit = none ∧ ∃ b, Sound b none s₀.engine.chain s₀.engine.frontier

/-- Of `k` settled steps at most as many were accepted, and where the particle has exited each was
observed. -/
structure Tallied (task : Task) (s₀ : Session Mover) (k : Nat) (e : Mover) : Prop where
  accepted : e.accepted ≤ k
  observed : MovesExited task s₀ → ∃ values, values.length = k ∧
    e.histogram = s₀.engine.histogram.map (·.observeAll values)

/-- An execution that has exited has brought a value. -/
theorem Sound.value {b : Point} {c : Chain} {frontier : Frontier} (h : Sound b none c frontier) :
    ∃ value, c.value = some value := by
  obtain ⟨q, _, arrives⟩ := h.complete
  obtain ⟨value, _, valued, _⟩ := arrives.left
  exact ⟨value, valued⟩

theorem Tallied.settle {ending : Ending Outcome} {origin : Chain} (h : Tallied task s₀ k s.engine)
    (before : Reaches task steps s₀ (.ended origin ending) s)
    (concluded : conclude task ending s = .ok () t) : Tallied task s₀ (k + 1) t.engine := by
  obtain ⟨accepted, recorded⟩ := conclude_records concluded
  refine ⟨?_, fun exited => ?_⟩
  · rw [recorded.accepted]
    exact Nat.add_le_add h.accepted accepted.toNat_le
  · obtain ⟨values, length, histogram⟩ := h.observed exited
    obtain ⟨none, b, sound⟩ := exited
    have kept : Sound b task.limit t.engine.chain t.engine.frontier :=
      (before.conclude concluded).holds (none ▸ sound)
    rw [none] at kept
    obtain ⟨value, valued⟩ := kept.value
    refine ⟨values ++ [value], by simp [length], ?_⟩
    rw [recorded.observed, valued, histogram, Option.map_map]
    refine congrFun (congrArg _ ?_) _
    funext h₀
    exact (Histogram.observeAll_concat h₀ values value).symm

/-- Only settling a step changes the tally, by one. -/
theorem Reaches.tallied (fresh : s₀.engine.proposals = 0 ∧ s₀.engine.accepted = 0)
    (h : Reaches task steps s₀ moment s) :
    ∃ k, Settles k moment s.engine ∧ Tallied task s₀ k s.engine := by
  induction h with
  | start =>
    refine ⟨0, fresh.1, Nat.le_of_eq fresh.2, fun _ => ⟨[], rfl, ?_⟩⟩
    exact Option.map_id'.symm
  | propose before proposed ih =>
    obtain ⟨k, settled, tallied⟩ := ih
    obtain ⟨c, g, _, rfl⟩ := onChain_eq_ok.mp proposed
    exact ⟨k, settles_after (congrArg (· + 1) settled) _, { tallied with }⟩
  | sample before effect site ih =>
    obtain ⟨k, settled, tallied⟩ := ih
    obtain ⟨c, g, _, rfl⟩ := onChain_eq_ok.mp site
    refine ⟨k, settles_after ?_ _, { tallied with }⟩
    exact settled
  | factor before effect number passed ih =>
    obtain ⟨k, settled, tallied⟩ := ih
    subst passed
    exact ⟨k, settles_afterFactor settled, { tallied with }⟩
  | exit before effect ih =>
    obtain ⟨k, settled, tallied⟩ := ih
    unfold leave
    split
    · exact ⟨k, settles_afterExit settled, { tallied with }⟩
    · exact ⟨k, settles_afterExit settled, tallied⟩
  | conclude before concluded ih =>
    obtain ⟨k, settled, tallied⟩ := ih
    obtain ⟨_, recorded⟩ := conclude_records concluded
    exact ⟨k + 1, recorded.proposals.trans settled, tallied.settle before concluded⟩

/-- Steps that are all taken have all been settled. -/
theorem take_tallied {fuel : Nat} (fresh : s₀.engine.proposals = 0 ∧ s₀.engine.accepted = 0)
    (taken : take task fuel steps s₀ = .ok () t) :
    t.engine.proposals = steps ∧ Tallied task s₀ steps t.engine := by
  have proposals := take_proposals fresh.1 taken
  obtain ⟨s, reached, same⟩ := take_settled taken
  obtain ⟨k, settled, tallied⟩ := reached.tallied fresh
  have settled : s.engine.proposals = k := settled
  rw [← same] at settled tallied
  obtain rfl : steps = k := proposals.symm.trans settled
  exact ⟨proposals, tallied⟩

end Mover

section
variable {root : Step} {p : Particle} {steps : Nat} {histogram : Option Histogram} {c c' : Context}

/-- The steps that moving a particle comes to. Either all of them are proposed or none is, and at
most as many are accepted. -/
structure Rejuvenated.Tallied (r : Rejuvenated) (steps : Nat) : Prop where
  proposals : r.proposals = 0 ∨ r.proposals = steps
  accepted : r.accepted ≤ r.proposals

theorem rejuvenate_tallied {fuel : Nat} {limit : Option Nat} {r : Rejuvenated}
    (h : rejuvenate fuel p limit steps histogram c = .ok r c') : r.Tallied steps := by
  unfold rejuvenate at h
  split at h
  · obtain ⟨rfl, rfl⟩ := pure_eq_ok.mp h
    exact ⟨.inl rfl, Nat.le_refl 0⟩
  · simp only [bind_eq_ok, InContext.ofExcept_eq_ok, pure_eq_ok] at h
    obtain ⟨id, c₁, _, ⟨_, moved⟩, c₂, taken, trace, _, ⟨_, rfl⟩, rfl, rfl⟩ := h
    obtain ⟨proposals, tallied⟩ := Mover.take_tallied ⟨rfl, rfl⟩ (Run.inContext_eq_ok.mp taken)
    have proposals : moved.proposals = steps := proposals
    exact ⟨.inr proposals, proposals ▸ tallied.accepted⟩

/-- A particle that has exited is observed once for every step, moved or not. -/
theorem rejuvenate_observes {fuel : Nat} {r : Rejuvenated} (real : p.Describes root)
    (exited : p.limit = none) (h : rejuvenate fuel p none steps histogram c = .ok r c') :
    ∃ values, values.length = steps ∧ r.histogram = histogram.map (·.observeAll values) := by
  unfold rejuvenate at h
  split at h
  · obtain ⟨rfl, rfl⟩ := pure_eq_ok.mp h
    obtain ⟨q, _, arrives⟩ := real
    rw [exited] at arrives
    obtain ⟨value, _, valued, _⟩ := arrives.left
    refine ⟨List.replicate steps value, List.length_replicate, ?_⟩
    unfold observeIdle
    rw [valued]
  · rename_i movable
    simp only [bind_eq_ok, InContext.ofExcept_eq_ok, pure_eq_ok] at h
    obtain ⟨id, c₁, _, ⟨_, moved⟩, c₂, taken, trace, _, ⟨_, rfl⟩, rfl, rfl⟩ := h
    obtain ⟨_, tallied⟩ := Mover.take_tallied ⟨rfl, rfl⟩ (Run.inContext_eq_ok.mp taken)
    refine tallied.observed ⟨rfl, ?_⟩
    obtain ⟨b, _, sound⟩ := real.base (by simpa using movable)
    rw [exited] at sound
    exact ⟨b, sound⟩

end

namespace Population

variable {n : Nat} {p : Population n}

/-- A population of which every particle has a value has as many values as particles. -/
theorem length_values (valued : ∀ i, (p.particles.get i).value.isSome = true) :
    p.values.length = n := by
  have all : ∀ particle ∈ p.particles.toList, particle.value.isSome = true := by
    intro particle mem
    obtain ⟨i, hi, rfl⟩ := List.mem_iff_getElem.mp mem
    exact valued ⟨i, by simpa using hi⟩
  exact (List.filterMap_length_eq_length.mpr all).trans (by simp)

theorem distribution (valued : ∀ i, (p.particles.get i).value.isSome = true) :
    ∃ d, Empirical.ofHistogram p.histogram = .ok d := by
  have pos : 0 < p.values.length := by
    rw [length_values valued]
    exact Fin.pos p.active
  exact Empirical.ofHistogram_observeAll (List.ne_nil_of_length_pos pos)

end Population

namespace RejuvenatingFilter

variable {n : Nat} {root : Step} {task : Task} {s₀ s t : Session (RejuvenatingFilter n)}
  {histogram histogram' : Option Histogram} {l : List (Fin n)}

theorem moveExited_observes {i : Fin n} (exited : Holds root .exited s.engine)
    (h : moveExited task histogram i s = .ok histogram' t) :
    ∃ values, values.length = task.steps ∧
      histogram' = histogram.map (·.observeAll values) := by
  obtain ⟨stopped, describe⟩ := exited
  obtain ⟨moved, r, ran, rfl, _⟩ := moveExited_eq_ok h
  obtain ⟨_, _, _, _, _, rejuvenated⟩ := move_eq_ok ran
  have cut : ({ s.engine.population.particles.get i with regenFloor := 0 } : Particle).limit =
      none :=
    Particle.limit_of_completed (stopped i)
  exact rejuvenate_observes ((describe i).raise 0) cut rejuvenated

/-- The final pass observes every particle that it moves once for every step. -/
theorem pass_observes (exited : Holds root .exited s.engine)
    (h : l.foldlM (moveExited task) histogram s = .ok histogram' t) :
    ∃ values, values.length = l.length * task.steps ∧
      histogram' = histogram.map (·.observeAll values) := by
  induction l generalizing s histogram with
  | nil =>
    obtain ⟨rfl, rfl⟩ := pure_eq_ok.mp h
    exact ⟨[], (Nat.zero_mul _).symm, Option.map_id'.symm⟩
  | cons i l ih =>
    rw [List.foldlM_cons] at h
    obtain ⟨between, r, moved, h⟩ := bind_eq_ok.mp h
    obtain ⟨values, length, rfl⟩ := moveExited_observes exited moved
    obtain ⟨more, length', rfl⟩ := ih (moveExited_holds _ i _ _ _ exited moved) h
    refine ⟨values ++ more, ?_, ?_⟩
    · rw [List.length_append, length, length', List.length_cons, Nat.succ_mul, Nat.add_comm]
    · rw [Option.map_map]
      refine congrFun (congrArg _ ?_) _
      funext h₀
      exact (Histogram.observeAll_append h₀ values more).symm

/-- How many values a run observes: one for each particle, or one for each step of the final pass if
these are collected. -/
def observations (collectAll : Bool) (steps particles : Nat) : Nat :=
  if collectAll && steps != 0 then particles * steps else particles

theorem observations_pos (collectAll : Bool) (steps : Nat) {particles : Nat} (pos : 0 < particles) :
    0 < observations collectAll steps particles := by
  unfold observations
  split
  · rename_i all
    simp only [Bool.and_eq_true, bne_iff_ne, ne_eq] at all
    exact Nat.mul_pos pos (Nat.pos_of_ne_zero all.2)
  · exact pos

/-- After the final pass the values have been observed that the result is made of. -/
theorem pass_tallied (exited : Holds root .exited s.engine)
    (passed : (List.finRange n).foldlM (moveExited task) (collected task) s = .ok histogram t) :
    ∃ values, values.length = observations task.collectAll task.steps n ∧
      histogram.getD t.engine.population.histogram = Histogram.empty.observeAll values := by
  obtain ⟨values, length, rfl⟩ := pass_observes exited passed
  rw [List.length_finRange] at length
  unfold observations collected
  split
  · exact ⟨values, length, rfl⟩
  · obtain ⟨stopped, describe⟩ : Holds root .exited t.engine :=
      foldlM_keeps (P := fun _ s => Holds root .exited s.engine) moveExited_holds exited passed
    exact ⟨_, Population.length_values fun i => (describe i).value_of_exited (stopped i), rfl⟩

theorem pass_distribution (exited : Holds root .exited s.engine)
    (passed : (List.finRange n).foldlM (moveExited task) (collected task) s = .ok histogram t) :
    ∃ d, Empirical.ofHistogram (histogram.getD t.engine.population.histogram) = .ok d := by
  obtain ⟨values, length, same⟩ := pass_tallied exited passed
  have pos : 0 < values.length :=
    length ▸ observations_pos _ _ (Fin.pos t.engine.population.active)
  rw [same]
  exact Empirical.ofHistogram_observeAll (List.ne_nil_of_length_pos pos)

end RejuvenatingFilter

end Posterior
