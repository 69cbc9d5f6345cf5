import Posterior.Proofs.DoubleOrder
import Posterior.Proofs.Lockstep

/-!
The weights at the end of a run. When the last particle has exited, no factor is left that has not
been resampled: all particles weigh what the latest barrier has left, so that their values can be
counted without their weights.
-/

namespace Posterior

open Numeric

namespace Population

variable {n : Nat} {p : Population n} {barriers : List Barrier}

/-- The histogram of the values, each with a mass for the weight of its particle. -/
def weighted (p : Population n) (mass : Float → Float) : Histogram :=
  p.particles.toList.foldl (fun h particle =>
    match particle.value with
    | some value => h.add value (mass particle.weight)
    | none => h) .empty

/-- Masses for weights, against the greatest weight of the population. -/
def relativeMass (p : Population n) (weight : Float) : Float :=
  exp (weight - greatest p.weights.toList)

theorem foldl_equal_weights {mass : Float → Float} {w : Float} (particles : List Particle)
    (h : Histogram) (hw : ∀ q ∈ particles, q.weight = w) :
    particles.foldl (fun h particle =>
      match particle.value with
      | some value => h.add value (mass particle.weight)
      | none => h) h =
    (particles.filterMap (·.value)).foldl (fun h value => h.add value (mass w)) h := by
  induction particles generalizing h with
  | nil => rfl
  | cons q particles ih =>
    obtain ⟨hq, hw⟩ := List.forall_mem_cons.mp hw
    rw [List.foldl_cons, ih _ hw, hq]
    cases hv : q.value <;> simp [hv]

/-- All values get the same mass, whatever mass their weight stands for. -/
theorem Weighed.weighted (h : p.Weighed barriers) (mass : Float → Float) :
    p.weighted mass =
      p.values.foldl (fun h value => h.add value (mass (lastWeight barriers))) .empty := by
  refine foldl_equal_weights _ _ fun q hq => ?_
  obtain ⟨i, hi, rfl⟩ := List.mem_iff_getElem.mp hq
  exact h.weight ⟨i, by simpa using hi⟩

theorem Weighed.weights (h : p.Weighed barriers) :
    p.weights.toList = List.replicate n (lastWeight barriers) := by
  refine List.ext_getElem (by simp) fun i hi _ => ?_
  simpa [Population.weights, get_eq_getElem] using h.weight ⟨i, by simpa using hi⟩

/-- If the weights are finite, the values can be counted as they are. -/
theorem Weighed.histogram (h : p.Weighed barriers) (hf : (lastWeight barriers).isFinite = true) :
    p.weighted p.relativeMass = p.histogram := by
  have hone : p.relativeMass (lastWeight barriers) = 1 := by
    unfold relativeMass
    rw [h.weights, greatest_replicate (Fin.pos p.active) (negInf_lt_of_finite hf), sub_self hf,
      exp_zero]
  rw [h.weighted, hone]
  rfl

end Population

theorem Particle.Describes.value_of_exited {root : Step} {p : Particle} (h : p.Describes root)
    (hr : p.running = false) : p.value.isSome = true := by
  obtain ⟨q, _, ha⟩ := h
  rw [limit_of_completed hr] at ha
  obtain ⟨v, _, hv, _⟩ := ha.left
  rw [hv]
  rfl

/-- An execution that has exited was replayed to its exit, so it has brought a value. -/
theorem RejuvenatingFilter.AllExited.final {n : Nat} {root : Step} {p : Population n}
    {barriers : List Barrier} (h : AllExited p) (hd : AllDescribe root p)
    (hw : p.Weighed barriers) : p.Final barriers :=
  ⟨hw, h, fun i => (hd i).value_of_exited (h i)⟩

theorem RejuvenatingFilter.moveExited_unobserved {n : Nat} {task : Task}
    {s t : Session (RejuvenatingFilter n)} {i : Fin n} {histogram : Option Histogram}
    (h : moveExited task none i s = .ok histogram t) : histogram = none := by
  obtain ⟨moved, r, hm, rfl, _⟩ := moveExited_eq_ok h
  obtain ⟨_, _, _, _, _, hr⟩ := move_eq_ok hm
  exact rejuvenate_unobserved hr

/-- A final pass that is over was begun when all particles had exited. -/
theorem RejuvenatingFilter.Reaches.passed {n : Nat} {task : Task}
    {s₀ s : Session (RejuvenatingFilter n)} {histogram : Option Histogram}
    (h : Reaches task s₀ (.done histogram) s) :
    ∃ r, Reaches task s₀ .exited r ∧
      (List.finRange n).foldlM (moveExited task) (collected task) r = .ok histogram s := by
  generalize hm : Moment.done histogram = moment at h
  cases h with
  | exit =>
    unfold Moment.afterExit at hm
    split at hm <;> cases hm
  | pass before passed =>
    cases hm
    exact ⟨_, before, passed⟩
  | _ => cases hm

theorem RejuvenatingFilter.Reaches.unobserved {n : Nat} {task : Task}
    {s₀ s : Session (RejuvenatingFilter n)} {histogram : Option Histogram}
    (hn : collected task = none) (h : Reaches task s₀ (.done histogram) s) : histogram = none := by
  obtain ⟨r, _, passed⟩ := h.passed
  exact foldlM_keeps (P := fun histogram _ => histogram = none)
    (fun _ _ _ _ _ hb hi => moveExited_unobserved (hb ▸ hi)) hn passed

/-- When a filter comes to its end all particles have exited with a value, and all of them weigh
what the latest barrier has left: the log-mean weight noted there, negative infinity if it was
degenerate, zero if there was no barrier. The result is made of their values; weighted by their
weights, the values get equal masses, and masses of one if the weights are finite. -/
theorem final_weights_equal (program : Program) (address : Address) (store : Store) {n : Nat}
    (pos : 0 < n) (context : Context) :
    (∀ task : ParticleFilter.Task,
      let s₀ : Session (ParticleFilter n) := ⟨.start pos (program.entry address) store, context⟩
      (∀ s, ParticleFilter.Reaches task s₀ .exited s →
        s.engine.population.Final s.engine.metrics.barriers) ∧
      ∀ fuel result s, (ParticleFilter.handler task).drive fuel
          s₀.engine.population.resumeCurrent s₀ = .ok result s →
        s.engine.population.Final s.engine.metrics.barriers ∧
        ∃ d, Empirical.ofHistogram s.engine.population.histogram = .ok d ∧
          result = d.withLogNormalizer s.engine.population.logNormalizer) ∧
    (∀ task : RejuvenatingFilter.Task,
      let s₀ : Session (RejuvenatingFilter n) := ⟨.start pos (program.entry address) store, context⟩
      (∀ s, RejuvenatingFilter.Reaches task s₀ .exited s →
        s.engine.population.Final s.engine.metrics.barriers) ∧
      ∀ fuel result s, (RejuvenatingFilter.handler task).drive fuel
          s₀.engine.population.resumeCurrent s₀ = .ok result s →
        s.engine.population.Final s.engine.metrics.barriers ∧
        (RejuvenatingFilter.collected task = none →
          ∃ d, Empirical.ofHistogram s.engine.population.histogram = .ok d ∧
            result = d.withLogNormalizer s.engine.population.logNormalizer)) ∧
    (∀ (p : Population n) barriers, p.Final barriers →
      (∀ mass, p.weighted mass = p.values.foldl
        (fun h value => h.add value (mass (lastWeight barriers))) .empty) ∧
      ((lastWeight barriers).isFinite = true → p.weighted p.relativeMass = p.histogram)) := by
  have hacting := Population.start_acting pos (program.entry address) store
  refine ⟨?_, ?_, ?_⟩
  · intro task s₀
    have hfinal : ∀ s, ParticleFilter.Reaches task s₀ .exited s →
        s.engine.population.Final s.engine.metrics.barriers :=
      fun s h => h.inStep (ParticleFilter.start_opened pos _ store) hacting
    refine ⟨hfinal, ?_⟩
    intro fuel result s h
    obtain ⟨r, hr, he, hd⟩ := ParticleFilter.drive_leads h
    rw [he]
    exact ⟨hfinal r hr, hd⟩
  · intro task s₀
    have h₀ : RejuvenatingFilter.Holds (program store address)
        (.awaiting s₀.engine.population.resumeCurrent) s₀.engine :=
      RejuvenatingFilter.start_holds pos (program.entry address) store
    have hlevel := Population.start_level pos (program.entry address) store
    refine ⟨?_, ?_⟩
    · intro s h
      obtain ⟨hx, hd⟩ := h.holds h₀
      exact hx.final hd (h.inStep hlevel hacting)
    · intro fuel result s h
      obtain ⟨histogram, r, hr, he, hd⟩ := RejuvenatingFilter.drive_leads h
      obtain ⟨hx, hall⟩ := hr.holds h₀
      rw [he]
      refine ⟨hx.final hall (hr.inStep hlevel hacting), fun hnone => ?_⟩
      rw [RejuvenatingFilter.Reaches.unobserved hnone hr] at hd
      exact hd
  · intro p barriers h
    exact ⟨h.weighted, h.histogram⟩

/-- Two particles pass two barriers under either filter. At the first one the particle that shows tails
gives way to the other, so what all of them weigh at the end is the logarithm of a half. -/
theorem weighedFlips_weights_equal :
    let program := weighedFlips [("first", -1000), ("second", 0)] []
    let filter : ParticleFilter.Task := ⟨⟨1⟩, true⟩
    let rejuvenating : RejuvenatingFilter.Task := ⟨⟨1⟩, 1, false, false, 9⟩
    let s₀ : Session (ParticleFilter 2) := ⟨.start Nat.two_pos (program.entry .root) default,
      { quietContext "particle-filter" with rng := sidesRng [true, false, false, true] }⟩
    let r₀ : Session (RejuvenatingFilter 2) := ⟨.start Nat.two_pos (program.entry .root) default,
      { quietContext "rejuvenation" with rng := sidesRng [true, false] }⟩
    (∃ result s, (ParticleFilter.handler filter).drive 12 s₀.engine.population.resumeCurrent s₀ =
        .ok result s ∧
      s.engine.metrics.barriers.length = 2 ∧ lastWeight s.engine.metrics.barriers = -lnTwo ∧
      s.engine.population.Final s.engine.metrics.barriers ∧
      s.engine.population.weighted s.engine.population.relativeMass =
        s.engine.population.histogram) ∧
    (∃ s, ParticleFilter.Reaches filter s₀ .exited s ∧
      s.engine.population.Final s.engine.metrics.barriers) ∧
    ∃ result s, (RejuvenatingFilter.handler rejuvenating).drive 12
        r₀.engine.population.resumeCurrent r₀ = .ok result s ∧
      s.engine.metrics.barriers.length = 2 ∧ lastWeight s.engine.metrics.barriers = -lnTwo ∧
      s.engine.population.Final s.engine.metrics.barriers := by
  intro program filter rejuvenating s₀ r₀
  have filtered : succeedsWith
      (fun _ s => s.engine.metrics.barriers.length == 2 &&
        decide (lastWeight s.engine.metrics.barriers = -lnTwo))
      ((ParticleFilter.handler filter).drive 12 s₀.engine.population.resumeCurrent s₀) = true := by
    decide +kernel
  have rejuvenated : succeedsWith
      (fun _ s => s.engine.metrics.barriers.length == 2 &&
        decide (lastWeight s.engine.metrics.barriers = -lnTwo))
      ((RejuvenatingFilter.handler rejuvenating).drive 12 r₀.engine.population.resumeCurrent r₀) =
        true := by
    decide +kernel
  obtain ⟨result, s, hs, filtered⟩ := exists_of_succeedsWith filtered
  obtain ⟨result', r, hr, rejuvenated⟩ := exists_of_succeedsWith rejuvenated
  simp only [Bool.and_eq_true, beq_iff_eq, decide_eq_true_eq] at filtered rejuvenated
  obtain ⟨two, half⟩ := filtered
  obtain ⟨two', half'⟩ := rejuvenated
  obtain ⟨t, exited, _⟩ := ParticleFilter.drive_leads hs
  obtain ⟨particles, _, counted⟩ :=
    final_weights_equal program .root default Nat.two_pos s₀.context
  obtain ⟨atExit, atEnd⟩ := particles filter
  obtain ⟨_, moved, _⟩ := final_weights_equal program .root default Nat.two_pos r₀.context
  have final := (atEnd 12 result s hs).1
  have finite : (lastWeight s.engine.metrics.barriers).isFinite = true := by
    rw [half]
    decide +kernel
  exact ⟨⟨result, s, hs, two, half, final, (counted _ _ final).2 finite⟩, ⟨t, exited, atExit t exited⟩,
    result', r, hr, two', half', ((moved rejuvenating).2 12 result' r hr).1⟩

end Posterior
