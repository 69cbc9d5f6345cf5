import Posterior.Proofs.ChainFailures
import Posterior.Proofs.Lockstep
import Posterior.Proofs.Resampling
import Posterior.Proofs.Tallies

/-!
Failures of populations. The handler of a filter is active at every effect and whenever it makes way
with the result, also behind the moves of its particles, and those are moves of real executions; so
what is left to fail is what the distributions of the program raise, and weights.
-/

namespace Posterior

/-- Resampling fails on weights only. -/
theorem meets_resample {root : Step} {cause : Failure} {n : Nat} {p : Population n} {strict : Bool}
    {algorithm : String} {index : Nat} {g g' : Rng}
    (failed : p.resample strict algorithm index g = .error cause g') : root.Meets cause := by
  refine .inr ?_
  obtain ⟨_, ⟨i, _, rfl⟩ | ⟨_, _, rfl⟩⟩ := Population.resample_eq_error failed
  · change "weight-nan" ∈ Failure.ordinaryCodes
    decide
  · change "all-weights-impossible" ∈ Failure.ordinaryCodes
    decide

namespace ParticleFilter

variable {n : Nat} {root : Step} {task : Task} {s₀ s : Session (ParticleFilter n)} {moment : Moment}

theorem Reaches.stack (h : Reaches task s₀ moment s) : s.context.stack = s₀.context.stack := by
  induction h with
  | start => rfl
  | sample before effect chosen ih =>
    exact (((handler_tidy task).sample _ _).of_resume chosen).trans ih
  | factor before effect parked ih => exact ((steady_setPopulation _).of_ok parked).trans ih
  | exit before effect left ih => exact ((steady_setPopulation _).of_ok left).trans ih
  | turn before turn ih => exact ((turnTo_yields _).of_resume turn).trans ih
  | barrier before passed ih => exact ((steady_barrier task).of_ok passed).trans ih
  | round before running turn ih => exact ((turnTo_yields _).of_resume turn).trans ih
  | exited before running ih => exact ih

theorem Reaches.still (h : Reaches task s₀ moment s)
    (active : s₀.context.active?.map (·.id) = some task.id) :
    s.context.active?.map (·.id) = some task.id := by
  rw [Context.active?, h.stack]
  exact active

theorem barrier_admissible (task : Task) (s : Session (ParticleFilter n)) :
    Admissible root (barrier task s) := by
  refine .engine ?_
  exact .bind (.draw fun _ _ failed => meets_resample failed) fun _ _ _ => trivial

section
variable (h₀ : Opened root s₀.engine)
  (ha : s₀.engine.population.Acting s₀.engine.population
    s₀.engine.population.resumeCurrent.invoke)
  (active : s₀.context.active?.map (·.id) = some task.id)
include h₀ ha active

/-- Particles that have exited have values, and of these the result is made. -/
theorem finish_admissible (h : Reaches task s₀ .exited s) : Admissible root (finish task s) := by
  have final : s.engine.population.Final s.engine.metrics.barriers := h.inStep h₀ ha
  obtain ⟨d, made⟩ := Population.distribution final.value
  unfold finish
  rw [Run.engine_bind]
  exact .leave_with (h.still active) made

theorem nextRound_admissible (h : Reaches task s₀ (.turned true) s) :
    Admissible root (nextRound task s) := by
  refine .bind (barrier_admissible task s) fun _ t passed => ?_
  rw [Run.engine_bind]
  cases running : t.engine.population.firstRunning? with
  | some first => trivial
  | none => exact finish_admissible h₀ ha active ((h.barrier passed).exited running)

/-- No effect of the program leads to a failure that is not admitted. -/
theorem answer_admissible {next : Resume} (h : Reaches task s₀ (.awaiting next) s) :
    Admissible root ((handler task).answer next.invoke s) := by
  have there : root.Unfolds next.invoke := by
    obtain ⟨t, _, opened, _, acting⟩ := h.inStep h₀ ha
    exact ((opened.course _ acting.running).trans acting.course).unfolds
  refine .answer (h.still active) (fun _ _ => Step.meets_factorNaN) ?_
  cases effect : next.invoke with
  | sample choice deliver =>
    rw [effect] at there
    exact .bind (.choice there) fun _ _ _ => trivial
  | factor point resume =>
    intro _
    refine .engine ?_
    refine .bind trivial fun _ t parked => ?_
    have hm := h.factor effect parked
    rw [Run.engine_bind]
    cases closes : t.engine.population.atBarrier with
    | true =>
      rw [closes] at hm
      exact nextRound_admissible h₀ ha active hm
    | false => trivial
  | exit store value =>
    refine .engine ?_
    refine .engine ?_
    refine .bind trivial fun _ t left => ?_
    have hm := h.exit effect left
    unfold Moment.afterExit at hm
    rw [Run.engine_bind]
    cases others : t.engine.population.nextRunning? with
    | none =>
      rw [others] at hm
      exact finish_admissible h₀ ha active hm
    | some other =>
      rw [others] at hm
      cases closes : s.engine.population.atBarrier with
      | true =>
        rw [closes] at hm
        exact nextRound_admissible h₀ ha active hm
      | false => trivial

end

theorem drive_admissible (fuel : Nat) {e : ParticleFilter n} {c : Context} (h₀ : Opened root e)
    (ha : e.population.Acting e.population e.population.resumeCurrent.invoke)
    (active : c.active?.map (·.id) = some task.id) :
    Admissible root ((handler task).drive fuel e.population.resumeCurrent ⟨e, c⟩) := by
  refine .drive trivial (P := fun next t => Reaches task ⟨e, c⟩ (.awaiting next) t) ?_ ?_
    .start
  · intro next t next' t' reached answered
    exact answer_leads reached answered
  · intro next t reached
    exact answer_admissible h₀ ha active reached

theorem run_admissible (fuel : Nat) (config : FilterConfig) (program : Program) (address : Address)
    (store : Store) (c : Context) :
    Admissible (program store address) (run fuel config program address store c) := by
  unfold run install
  split
  · rename_i pos
    rw [bind_assoc]
    refine .bind trivial fun id r installed => ?_
    obtain ⟨rfl, rfl⟩ := InContext.install_eq_ok.mp installed
    rw [pure_bind]
    refine .bind (.inContext ?_) fun _ _ _ => trivial
    exact drive_admissible fuel (start_opened pos (program.entry address) store)
      (Population.start_acting pos (program.entry address) store) rfl
  · exact meets_zeroCount

theorem run_blameless (fuel : Nat) (config : FilterConfig) (program : Program) (address : Address)
    (store : Store) (c : Context) :
    Blameless (program store address) (run fuel config program address store c) :=
  (run_admissible fuel config program address store c).blameless

end ParticleFilter

namespace RejuvenatingFilter

variable {n : Nat} {root : Step} {task : Task} {s₀ s : Session (RejuvenatingFilter n)}
  {moment : Moment} {particle : Particle} {histogram : Option Histogram}

theorem Reaches.stack (h : Reaches task s₀ moment s) : s.context.stack = s₀.context.stack := by
  induction h with
  | start => rfl
  | sample before effect chosen ih =>
    exact (((handler_tidy task).sample _ _).of_resume chosen).trans ih
  | factor before effect number parked ih => exact ((steady_setPopulation _).of_ok parked).trans ih
  | exit before effect left ih => exact ((steady_setPopulation _).of_ok left).trans ih
  | turn before turn ih => exact ((turnTo_yields _).of_resume turn).trans ih
  | barrier before passed ih => exact ((steady_barrier task).of_ok passed).trans ih
  | round before running turn ih => exact ((turnTo_yields _).of_resume turn).trans ih
  | exited before running ih => exact ih
  | pass before passed ih =>
    exact ((Preserves.foldlM (steady_moveExited task) _ _).of_ok passed).trans ih

theorem Reaches.still (h : Reaches task s₀ moment s)
    (active : s₀.context.active?.map (·.id) = some task.id) :
    s.context.active?.map (·.id) = some task.id := by
  rw [Context.active?, h.stack]
  exact active

/-- The filter holds real executions, and its handler is active. -/
structure Ready (root : Step) (task : Task) (s : Session (RejuvenatingFilter n)) : Prop where
  describe : AllDescribe root s.engine.population
  active : s.context.active?.map (·.id) = some task.id

theorem move_admissible {limit : Option Nat} (real : particle.Describes root)
    (cut : particle.limit = limit) (active : s.context.active?.map (·.id) = some task.id) :
    Admissible root (move task particle limit histogram s) := by
  subst cut
  refine .bind (.ensureActive active) fun _ t _ => ?_
  exact .bind (.onContext (rejuvenate_admissible real ..)) fun _ _ _ => trivial

theorem moveRunning_admissible (i : Fin n) (h : Ready root task s) :
    Admissible root (moveRunning task i s) := by
  unfold moveRunning
  rw [Run.engine_bind]
  cases running : s.engine.population.isRunning i with
  | false => trivial
  | true =>
    have cut := Particle.limit_of_running running
    exact .bind (move_admissible (h.describe i) cut h.active) fun _ _ _ => trivial

theorem moveExited_admissible (histogram : Option Histogram) (i : Fin n)
    (exited : Holds root .exited s.engine) (active : s.context.active?.map (·.id) = some task.id) :
    Admissible root (moveExited task histogram i s) := by
  obtain ⟨stopped, describe⟩ := exited
  unfold moveExited
  rw [Run.engine_bind]
  have cut := Particle.limit_of_completed (stopped i)
  exact .bind (move_admissible ((describe i).raise 0) cut active) fun _ _ _ => trivial

/-- A barrier leaves the particles real, so that they can be moved. -/
theorem barrier_admissible (h : Holds root (.turned true) s.engine)
    (active : s.context.active?.map (·.id) = some task.id) : Admissible root (barrier task s) := by
  obtain ⟨_, describe⟩ := h.closed
  refine .engine ?_
  refine .bind (.draw fun _ _ failed => meets_resample failed) fun resampled t ran => ?_
  obtain ⟨g, hr, rfl⟩ := Run.draw_eq_ok.mp ran
  obtain ⟨q, noted⟩ := resampled
  refine .bind trivial fun _ t ran => ?_
  obtain rfl := Run.setEngine_eq_ok.mp ran
  refine .forM (P := Ready root task) ?_ (fun i _ ready => moveRunning_admissible i ready) ⟨?_, active⟩
  · intro i s t ready moved
    refine ⟨moveRunning_describe ready.describe moved, ?_⟩
    rw [Context.active?, (steady_moveRunning task i).of_ok moved]
    exact ready.active
  · intro i
    obtain ⟨j, hj⟩ := (Population.resample_eq_ok hr).2 i
    change (q.particles.get i).Describes root
    rw [hj]
    exact (describe j).reweigh _

theorem finish_admissible (h : Holds root .exited s.engine)
    (active : s.context.active?.map (·.id) = some task.id) : Admissible root (finish task s) := by
  refine .bind ?_ fun collected t passed => ?_
  · refine .foldlM
      (P := fun _ t => Holds root .exited t.engine ∧ t.context.active?.map (·.id) = some task.id)
      ?_ (fun histogram i t ready => moveExited_admissible histogram i ready.1 ready.2) ⟨h, active⟩
    intro histogram i s histogram' t ready moved
    refine ⟨moveExited_holds histogram i s histogram' t ready.1 moved, ?_⟩
    rw [Context.active?, (steady_moveExited task histogram i).of_ok moved]
    exact ready.2
  · have same := (Preserves.foldlM (steady_moveExited task) _ _).of_ok passed
    obtain ⟨d, made⟩ := pass_distribution h passed
    rw [Run.engine_bind]
    refine .leave_with ?_ made
    rw [Context.active?, same]
    exact active

section
variable (h₀ : Holds root (.awaiting s₀.engine.population.resumeCurrent) s₀.engine)
  (active : s₀.context.active?.map (·.id) = some task.id)
include h₀ active

theorem nextRound_admissible (h : Reaches task s₀ (.turned true) s) :
    Admissible root (nextRound task s) := by
  refine .bind (barrier_admissible (h.holds h₀) (h.still active)) fun _ t passed => ?_
  have hm := h.barrier passed
  rw [Run.engine_bind]
  cases running : t.engine.population.firstRunning? with
  | some first => trivial
  | none =>
    have exited := hm.exited running
    exact finish_admissible (exited.holds h₀) (exited.still active)

/-- No effect of the program leads to a failure that is not admitted. -/
theorem answer_admissible {next : Resume} (h : Reaches task s₀ (.awaiting next) s) :
    Admissible root ((handler task).answer next.invoke s) := by
  have there : root.Unfolds next.invoke := by
    obtain ⟨_, _, current⟩ := h.holds h₀
    exact Replay.unfolds current
  refine .answer (h.still active) (fun _ _ => Step.meets_factorNaN) ?_
  cases effect : next.invoke with
  | sample choice deliver =>
    rw [effect] at there
    refine .bind (.choice there) fun value t _ => ?_
    refine .bind (.ofExcept fun cause failed => .inl (there.raises (.score failed))) fun x t _ => ?_
    refine .bind (.ofExcept fun cause failed => meets_ensureScore failed) fun x t _ => ?_
    rw [Run.engine_bind]
    refine .bind (.ofExcept fun cause failed => ?_) fun _ _ _ => trivial
    unfold recordChoice at failed
    cases pushed : t.engine.population.current.trace.push _ with
    | ok trace =>
      rw [pushed] at failed
      cases failed
    | error raised =>
      rw [pushed] at failed
      cases failed
      exact meets_push pushed
  | factor point resume =>
    intro number
    refine .engine ?_
    refine .bind trivial fun _ t parked => ?_
    have hm := h.factor effect number parked
    rw [Run.engine_bind]
    cases closes : t.engine.population.atBarrier with
    | true =>
      rw [closes] at hm
      exact nextRound_admissible h₀ active hm
    | false => trivial
  | exit store value =>
    refine .engine ?_
    refine .engine ?_
    refine .bind trivial fun _ t left => ?_
    have hm := h.exit effect left
    unfold Moment.afterExit at hm
    rw [Run.engine_bind]
    cases others : t.engine.population.nextRunning? with
    | none =>
      rw [others] at hm
      exact finish_admissible (hm.holds h₀) (hm.still active)
    | some other =>
      rw [others] at hm
      cases closes : s.engine.population.atBarrier with
      | true =>
        rw [closes] at hm
        exact nextRound_admissible h₀ active hm
      | false => trivial

end

theorem drive_admissible (fuel : Nat) {e : RejuvenatingFilter n} {c : Context}
    (h₀ : Holds root (.awaiting e.population.resumeCurrent) e)
    (active : c.active?.map (·.id) = some task.id) :
    Admissible root ((handler task).drive fuel e.population.resumeCurrent ⟨e, c⟩) := by
  refine .drive trivial (P := fun next t => Reaches task ⟨e, c⟩ (.awaiting next) t) ?_ ?_
    .start
  · intro next t next' t' reached answered
    exact answer_leads reached answered
  · intro next t reached
    exact answer_admissible h₀ active reached

theorem run_admissible (fuel : Nat) (config : RejuvenationConfig) (program : Program)
    (address : Address) (store : Store) (c : Context) :
    Admissible (program store address) (run fuel config program address store c) := by
  unfold run install
  split
  · rename_i pos
    rw [bind_assoc]
    refine .bind trivial fun id r installed => ?_
    obtain ⟨rfl, rfl⟩ := InContext.install_eq_ok.mp installed
    rw [pure_bind]
    refine .bind (.inContext ?_) fun _ _ _ => trivial
    exact drive_admissible fuel (start_holds pos (program.entry address) store) rfl
  · exact meets_zeroCount

theorem run_blameless (fuel : Nat) (config : RejuvenationConfig) (program : Program)
    (address : Address) (store : Store) (c : Context) :
    Blameless (program store address) (run fuel config program address store c) :=
  (run_admissible fuel config program address store c).blameless

end RejuvenatingFilter

end Posterior
