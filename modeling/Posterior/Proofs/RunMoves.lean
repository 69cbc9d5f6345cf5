import Posterior.Proofs.LargerBounds
import Posterior.Proofs.PopulationFailures
import Posterior.Proofs.Segments

/-!
The moves that a run of the particle filter with rejuvenation makes. A run comes to what it comes to
from any of its moments on, so that an answer or a move that fails is a failure of the run.
-/

namespace Posterior

/-- A move that is about to be made: the particle, where its executions are cut off, the steps, what
observes them, and the context. -/
structure Moving where
  particle : Particle
  limit : Option Nat
  steps : Nat
  histogram : Option Histogram
  context : Context

def Moving.work (m : Moving) (fuel : Nat) : InContext Rejuvenated :=
  rejuvenate fuel m.particle m.limit m.steps m.histogram

namespace RejuvenatingFilter

variable {n : Nat} {root : Step} {task : Task} {s₀ s r t : Session (RejuvenatingFilter n)}
  {moment : Moment} {m : Moving}

/-- What is left at a moment of the answer that is under way. -/
def Moment.answer (task : Task) : Moment → Run (RejuvenatingFilter n) (Control Empirical)
  | .awaiting next => pure (.resume next)
  | .turned true => nextRound task
  | .turned false => do
    let p := (← Run.engine).population
    turnTo (p.nextRunning?.getD p.active)
  | .barred => do
    match (← Run.engine).population.firstRunning? with
    | some first => turnTo first
    | none => finish task
  | .exited => finish task
  | .done collected => do
    let p := (← Run.engine).population
    let distribution ← Run.ofExcept (Empirical.ofHistogram (collected.getD p.histogram))
    Run.restore task.id
    return .done (distribution.withLogNormalizer p.logNormalizer)

theorem factor_answer {point : Factor} {resume : Continuation}
    (parked : setPopulation (s.engine.population.updateCurrent (parkScored · point resume)) s =
      .ok () t) :
    (handler task).onFactor point resume s =
      (Moment.turned t.engine.population.atBarrier).answer task t := by
  dsimp only [handler]
  rw [Run.engine_bind, bind_ok parked, Run.engine_bind]
  cases t.engine.population.atBarrier <;> rfl

theorem exit_answer {store : Store} {value : Value}
    (left : setPopulation (s.engine.population.updateCurrent (·.complete store value)) s =
      .ok () t) :
    (handler task).onExit store value s =
      (Moment.afterExit s.engine.population.atBarrier t.engine.population).answer task t := by
  dsimp only [handler]
  rw [Run.engine_bind, Run.engine_bind, bind_ok left, Run.engine_bind]
  unfold Moment.afterExit
  cases others : t.engine.population.nextRunning? with
  | none => rfl
  | some next =>
    cases s.engine.population.atBarrier with
    | true => rfl
    | false =>
      change turnTo next t = turnTo (t.engine.population.nextRunning?.getD _) t
      rw [others]
      rfl

/-- The whole run comes to what it comes to from the moment on. -/
def Continued (task : Task) (s₀ : Session (RejuvenatingFilter n)) (moment : Moment)
    (s : Session (RejuvenatingFilter n)) : Prop :=
  ∃ k, ∀ fuel, (handler task).dispatch (fuel + k) s₀.engine.population.resumeCurrent s₀ =
    (moment.answer task >>= (handler task).proceed fuel) s

theorem Continued.answer {moment' : Moment} (h : Continued task s₀ moment s)
    (same : moment.answer task s = moment'.answer task t) : Continued task s₀ moment' t := by
  obtain ⟨k, h⟩ := h
  exact ⟨k, fun fuel => (h fuel).trans (bind_of_eq same)⟩

section
variable (active : s₀.context.active?.map (·.id) = some task.id)
include active

/-- An effect takes one unit of the bound. -/
theorem Continued.effect {next : Resume} (h : Continued task s₀ (.awaiting next) s)
    (there : Reaches task s₀ (.awaiting next) s)
    (same : (handler task).method next.invoke s = moment.answer task t) :
    Continued task s₀ moment t := by
  obtain ⟨k, h⟩ := h
  refine ⟨1 + k, fun fuel => ?_⟩
  calc (handler task).dispatch (fuel + (1 + k)) s₀.engine.population.resumeCurrent s₀
      = (handler task).dispatch (fuel + 1) next s := by
        rw [← Nat.add_assoc]
        exact h (fuel + 1)
    _ = ((handler task).answer next.invoke >>= (handler task).proceed fuel) s := by
        rw [Handler.dispatch_eq]
    _ = (moment.answer task >>= (handler task).proceed fuel) t :=
        bind_of_eq ((Handler.answer_of_active (there.still active)).trans same)

theorem Reaches.continued (h : Reaches task s₀ moment s) : Continued task s₀ moment s := by
  induction h with
  | start => exact ⟨0, fun _ => rfl⟩
  | sample before effect chosen ih => exact ih.effect active before (by rw [effect]; exact chosen)
  | factor before effect number parked ih =>
    refine ih.effect active before ?_
    rw [effect]
    simp only [Handler.method, number, Bool.false_eq_true, ↓reduceIte]
    exact factor_answer parked
  | exit before effect left ih =>
    refine ih.effect active before ?_
    rw [effect]
    exact exit_answer left
  | turn before turn ih => exact ih.answer turn
  | barrier before passed ih => exact ih.answer (bind_ok passed)
  | round before running turn ih =>
    refine ih.answer ?_
    dsimp only [Moment.answer]
    rw [Run.engine_bind, running]
    exact turn
  | exited before running ih =>
    refine ih.answer ?_
    dsimp only [Moment.answer]
    rw [Run.engine_bind, running]
  | pass before passed ih => exact ih.answer (bind_ok passed)

/-- A failure of an answer ends the run. -/
theorem Reaches.answer_error {stop : Stop} {next : Resume} (h : Reaches task s₀ (.awaiting next) s)
    (failed : (handler task).method next.invoke s = .error stop t) :
    ∃ fuel u, (handler task).drive fuel s₀.engine.population.resumeCurrent s₀ = .error stop u := by
  obtain ⟨k, same⟩ := h.continued active
  have last : (handler task).dispatch 1 next s = .error stop t := by
    rw [Handler.dispatch_eq]
    exact bind_error ((Handler.answer_of_active (h.still active)).trans failed)
  exact ⟨1 + k, _, Run.guarding_error ((same 1).trans last)⟩

/-- So does a failure of what is left of one. -/
theorem Reaches.drive_error {stop : Stop} (h : Reaches task s₀ moment s)
    (failed : moment.answer task s = .error stop t) :
    ∃ fuel u, (handler task).drive fuel s₀.engine.population.resumeCurrent s₀ = .error stop u := by
  obtain ⟨k, same⟩ := h.continued active
  exact ⟨0 + k, _, Run.guarding_error ((same 0).trans (bind_error failed))⟩

end

/-- A barrier resamples first. -/
def Resamples (s r : Session (RejuvenatingFilter n)) : Prop :=
  ∃ q noted g, s.engine.population.resample false "rejuvenation" s.engine.metrics.barriers.length
      s.context.rng = .ok (q, noted) g ∧
    r = ⟨⟨q, s.engine.metrics.pushBarrier noted⟩, { s.context with rng := g }⟩

theorem Resamples.barrier_eq (h : Resamples s r) :
    barrier task s = (List.finRange n).forM (moveRunning task) r := by
  obtain ⟨q, noted, g, drawn, rfl⟩ := h
  unfold barrier
  rw [Run.engine_bind, bind_ok (Run.draw_ok drawn)]
  rfl

theorem Resamples.passed (h : Resamples s r) (holds : Holds root (.turned true) s.engine) :
    Passed root s.engine.metrics.barriers.length r := by
  obtain ⟨closed, describe⟩ := holds.closed
  obtain ⟨q, noted, g, resampled, rfl⟩ := h
  refine ⟨by simp [Metrics.pushBarrier], closed.resample resampled, fun i => ?_⟩
  obtain ⟨j, hj⟩ := (Population.resample_eq_ok resampled).2 i
  change (q.particles.get i).Describes root
  rw [hj]
  exact (describe j).reweigh _

/-- The moves that a run is about to make: at a barrier, of a particle that is still running, and in the
final pass. -/
inductive Makes (task : Task) (s₀ : Session (RejuvenatingFilter n)) : Moving → Prop where
  | running {s r t : Session (RejuvenatingFilter n)} {i : Fin n} {earlier later : List (Fin n)}
      (before : Reaches task s₀ (.turned true) s) (resampled : Resamples s r)
      (order : List.finRange n = earlier ++ i :: later)
      (moved : earlier.forM (moveRunning task) r = .ok () t)
      (running : t.engine.population.isRunning i = true) :
      Makes task s₀
        { particle := t.engine.population.particles.get i
          limit := some (t.engine.population.particles.get i).factorCount
          steps := task.steps, histogram := none, context := t.context }
  | exited {s t : Session (RejuvenatingFilter n)} {i : Fin n} {earlier later : List (Fin n)}
      {histogram : Option Histogram} (before : Reaches task s₀ .exited s)
      (order : List.finRange n = earlier ++ i :: later)
      (moved : earlier.foldlM (moveExited task) (collected task) s = .ok histogram t) :
      Makes task s₀
        { particle := { t.engine.population.particles.get i with regenFloor := 0 }
          limit := none, steps := task.steps, histogram, context := t.context }

theorem Makes.bounded {bound : Nat} (more : task.fuel ≤ bound) (h : Makes task s₀ m) :
    Makes (task.bounded bound) s₀ m := by
  cases h with
  | @running s r t i earlier later before resampled order moved running =>
    have same := Continues.forM (moveRunning_continues more) earlier r
    rw [moved] at same
    exact .running (before.bounded more) resampled order same.of_ok running
  | @exited s t i earlier later histogram before order moved =>
    have same := Continues.foldlM (moveExited_continues more) earlier (collected task) s
    rw [moved] at same
    exact .exited (before.bounded more) order same.of_ok

/-- A particle that is moved describes an execution, which is cut off where the particle is parked. -/
theorem Makes.real (h₀ : Holds root (.awaiting s₀.engine.population.resumeCurrent) s₀.engine)
    (h : Makes task s₀ m) : m.particle.Describes root ∧ m.particle.limit = m.limit := by
  cases h with
  | @running s r t i earlier later before resampled order moved running =>
    have passed := forM_keeps (P := Passed root s.engine.metrics.barriers.length) moveRunning_passed
      (resampled.passed (before.holds h₀)) moved
    exact ⟨passed.2.2 i, Particle.limit_of_running running⟩
  | @exited s t i earlier later histogram before order moved =>
    have exited := foldlM_keeps (P := fun _ s => Holds root .exited s.engine) moveExited_holds
      (before.holds h₀) moved
    exact ⟨(exited.2 i).raise 0, Particle.limit_of_completed (exited.1 i)⟩

/-- The first move at the barrier that a run of one particle comes to with the factor behind a number of
answers. -/
def moving? (task : Task) (s₀ : Session (RejuvenatingFilter 1)) (k : Nat) : Option Moving :=
  match (handler task).after k s₀.engine.population.resumeCurrent s₀ with
  | some (next, s) =>
    match next.invoke with
    | .factor point resume =>
      let p := s.engine.population.updateCurrent (parkScored · point resume)
      match p.resample false "rejuvenation" s.engine.metrics.barriers.length s.context.rng with
      | .ok (q, _) g =>
        if !point.logWeight.isNaN && p.atBarrier && q.isRunning 0 then
          some
            { particle := q.particles.get 0, limit := some (q.particles.get 0).factorCount
              steps := task.steps, histogram := none, context := { s.context with rng := g } }
        else none
      | .error _ _ => none
    | _ => none
  | none => none

theorem makes_moving? {s₀ : Session (RejuvenatingFilter 1)} {k : Nat}
    (h : moving? task s₀ k = some m) : Makes task s₀ m := by
  unfold moving? at h
  split at h
  on_goal 2 => cases h
  rename_i next s later
  have reached := passes_leads (Handler.Passes.start.after later)
  split at h
  on_goal 2 => cases h
  rename_i point resume effect
  dsimp only at h
  split at h
  on_goal 2 => cases h
  rename_i q noted g resampled
  split at h
  on_goal 2 => cases h
  rename_i ready
  cases h
  simp only [Bool.and_eq_true, Bool.not_eq_true'] at ready
  obtain ⟨⟨number, closes⟩, running⟩ := ready
  have turned := reached.factor effect number rfl
  dsimp only at turned
  rw [closes] at turned
  have order : List.finRange 1 = [] ++ 0 :: [] := rfl
  exact .running turned ⟨q, noted, g, resampled, rfl⟩ order rfl running

theorem move_error {stop : Stop} {particle : Particle} {limit : Option Nat}
    {histogram : Option Histogram} {c : Context}
    (active : t.context.active?.map (·.id) = some task.id)
    (failed : rejuvenate task.fuel particle limit task.steps histogram t.context = .error stop c) :
    ∃ u, move task particle limit histogram t = .error stop u := by
  have ensured : Run.onContext (.ensureActive task.id) t = .ok () t :=
    Run.onContext_eq_ok.mpr ⟨t.context, InContext.ofExcept_eq_ok.mpr
      ⟨Context.ensureActive_eq_ok.mpr active, rfl⟩, rfl⟩
  refine ⟨{ t with context := c }, ?_⟩
  unfold move
  rw [bind_ok ensured]
  refine bind_error ?_
  unfold Run.onContext
  rw [failed]

/-- A move that fails ends the run. -/
theorem Makes.drive_error {stop : Stop} {c : Context}
    (active : s₀.context.active?.map (·.id) = some task.id) (h : Makes task s₀ m)
    (failed : m.work task.fuel m.context = .error stop c) :
    ∃ fuel u, (handler task).drive fuel s₀.engine.population.resumeCurrent s₀ = .error stop u := by
  cases h with
  | @running s r t i earlier later before resampled order moved running =>
    have still : t.context.active?.map (·.id) = some task.id := by
      obtain ⟨q, noted, g, _, rfl⟩ := resampled
      rw [Context.active?, (Preserves.forM (steady_moveRunning task) earlier).of_ok moved]
      exact before.still active
    obtain ⟨u, stopped⟩ := move_error still failed
    have here : moveRunning task i t = .error stop u := by
      unfold moveRunning
      rw [Run.engine_bind, if_pos running]
      exact bind_error stopped
    refine before.drive_error active (t := u) (bind_error ?_)
    -- the particles before this one have been moved, and the rest of the barrier is not reached
    rw [resampled.barrier_eq, order]
    change forM (earlier ++ i :: later) (moveRunning task) r = _
    rw [List.forM_append]
    exact (bind_ok moved).trans (bind_error here)
  | @exited s t i earlier later histogram before order moved =>
    have still : t.context.active?.map (·.id) = some task.id := by
      rw [Context.active?, (Preserves.foldlM (steady_moveExited task) earlier _).of_ok moved]
      exact before.still active
    obtain ⟨u, stopped⟩ := move_error still failed
    have here : moveExited task histogram i t = .error stop u := by
      unfold moveExited
      rw [Run.engine_bind]
      exact bind_error stopped
    refine before.drive_error active (t := u) (bind_error ?_)
    rw [order, List.foldlM_append, bind_ok moved]
    exact bind_error here

/-- Every choice is within reach of the moves. -/
def Grounded (s : Session (RejuvenatingFilter n)) : Prop :=
  ∀ i, (s.engine.population.particles.get i).regenFloor = 0

theorem Grounded.set {x : Particle} {i : Fin n} (h : Grounded s) (hx : x.regenFloor = 0)
    (same : t.engine.population = s.engine.population.setParticle i x) : Grounded t := by
  intro j
  rw [same, Population.get_setParticle]
  split
  · exact hx
  · exact h j

theorem rejuvenate_floor {fuel : Nat} {p : Particle} {limit : Option Nat} {steps : Nat}
    {histogram : Option Histogram} {c c' : Context} {moved : Rejuvenated}
    (h : rejuvenate fuel p limit steps histogram c = .ok moved c') :
    moved.particle.regenFloor = p.regenFloor := by
  obtain ⟨_, same⟩ | ⟨_, _, _, _, _, _, _, _, _, same⟩ := rejuvenate_eq_ok h
  · rw [same]
  · rw [same]
    rfl

theorem Resamples.grounded (h : Resamples s r) (hs : Grounded s) : Grounded r := by
  obtain ⟨q, noted, g, resampled, rfl⟩ := h
  intro i
  obtain ⟨j, hj⟩ := (Population.resample_eq_ok resampled).2 i
  change (q.particles.get i).regenFloor = 0
  rw [hj]
  exact hs j

/-- Only a restricted run raises floors. -/
theorem moveRunning_grounded (free : task.restricted = false) (i : Fin n)
    (s t : Session (RejuvenatingFilter n)) (hs : Grounded s) (h : moveRunning task i s = .ok () t) :
    Grounded t := by
  obtain ⟨_, rfl⟩ | ⟨_, moved, r, hm, rfl⟩ := moveRunning_eq_ok h
  · exact hs
  · obtain ⟨_, population, _, _, _, rejuvenated⟩ := move_eq_ok hm
    refine hs.set (i := i) (x := raiseFloor task moved.particle) ?_ ?_
    · unfold raiseFloor
      rw [free]
      exact (rejuvenate_floor rejuvenated).trans (hs i)
    · unfold place
      rw [population]

theorem moveExited_grounded (histogram : Option Histogram) (i : Fin n)
    (s : Session (RejuvenatingFilter n)) (histogram' : Option Histogram)
    (t : Session (RejuvenatingFilter n)) (hs : Grounded s)
    (h : moveExited task histogram i s = .ok histogram' t) : Grounded t := by
  obtain ⟨moved, r, hm, _, rfl⟩ := moveExited_eq_ok h
  obtain ⟨_, population, _, _, _, rejuvenated⟩ := move_eq_ok hm
  refine hs.set (i := i) (x := moved.particle) (rejuvenate_floor rejuvenated) ?_
  unfold place
  rw [population]

theorem Reaches.grounded (free : task.restricted = false) (h₀ : Grounded s₀)
    (h : Reaches task s₀ moment s) : Grounded s := by
  induction h with
  | start => exact h₀
  | sample before effect chosen ih =>
    simp only [handler, setPopulation, bind_eq_ok, pure_eq_ok, Run.draw_eq_ok, Run.ofExcept_eq_ok,
      Run.engine_eq_ok, Run.modifyEngine_eq_ok] at chosen
    obtain ⟨_, _, ⟨_, _, rfl⟩, _, _, ⟨_, rfl⟩, _, _, ⟨_, rfl⟩, _, _, ⟨rfl, rfl⟩, _, _, ⟨recorded, rfl⟩,
      _, _, rfl, _, rfl⟩ := chosen
    exact ih.set ((Particle.GoesOn.record recorded).floor.trans (ih _)) rfl
  | @factor next s t point resume before effect number parked ih =>
    obtain rfl := Run.modifyEngine_eq_ok.mp parked
    exact ih.set (x := parkScored s.engine.population.current point resume) (ih _) rfl
  | @exit next s t store value before effect left ih =>
    obtain rfl := Run.modifyEngine_eq_ok.mp left
    exact ih.set (x := s.engine.population.current.complete store value) (ih _) rfl
  | turn before turn ih =>
    obtain ⟨_, rfl⟩ := turnTo_eq_ok turn
    exact ih
  | @barrier s t before passed ih =>
    obtain ⟨q, noted, g, r, drawn, same, moves⟩ := barrier_eq_ok passed
    refine forM_keeps (moveRunning_grounded free) ?_ moves
    intro i
    rw [same]
    exact Resamples.grounded ⟨q, noted, g, drawn, rfl⟩ ih i
  | round before running turn ih =>
    obtain ⟨_, rfl⟩ := turnTo_eq_ok turn
    exact ih
  | exited before running ih => exact ih
  | pass before passed ih =>
    exact foldlM_keeps (P := fun _ s => Grounded s) moveExited_grounded ih passed

/-- A move reaches every choice of its particle unless the run is restricted and the particle running. -/
theorem Makes.grounded (h₀ : Grounded s₀) (h : Makes task s₀ m)
    (free : task.restricted = false ∨ m.limit = none) : m.particle.frozen = 0 := by
  have floor : m.particle.regenFloor = 0 := by
    cases h with
    | @running s r t i earlier later before resampled order moved running =>
      obtain free | none := free
      · exact forM_keeps (moveRunning_grounded free)
          (resampled.grounded (before.grounded free h₀)) moved i
      · cases none
    | exited before order moved => rfl
  unfold Particle.frozen
  rw [floor, Nat.zero_min]

end RejuvenatingFilter

end Posterior
