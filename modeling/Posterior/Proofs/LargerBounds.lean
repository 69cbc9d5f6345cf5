import Posterior.Proofs.ForwardRepetition
import Posterior.Proofs.MetropolisRuns
import Posterior.Proofs.RejuvenationRuns
import Posterior.Proofs.StackDiscipline

/-!
Larger bounds on the number of effects. A run that does not use its bound up comes to the same with
every larger one, also where the bound is that of the moves of its particles; so a failure with one
bound is the outcome of the run.
-/

namespace Posterior

section
variable {σ α β : Type}

/-- Unless the bound is used up, the second outcome is the first. -/
def Continues (outcome outcome' : EStateM.Result Stop σ α) : Prop :=
  outcome' = outcome ∨ ∃ s, outcome = .error .outOfFuel s

namespace Continues

variable {s : σ} {x x' : EStateM Stop σ α}

theorem refl (outcome : EStateM.Result Stop σ α) : Continues outcome outcome := .inl rfl

theorem of_ok {outcome : EStateM.Result Stop σ α} {a : α} (h : Continues (.ok a s) outcome) :
    outcome = .ok a s := by
  obtain h | ⟨_, h⟩ := h
  · exact h
  · cases h

theorem of_failed {outcome : EStateM.Result Stop σ α} {cause : Failure}
    (h : Continues (.error (.failed cause) s) outcome) : outcome = .error (.failed cause) s := by
  obtain h | ⟨_, h⟩ := h
  · exact h
  · cases h

theorem bind {f f' : α → EStateM Stop σ β} (hx : Continues (x s) (x' s))
    (hf : ∀ a t, Continues (f a t) (f' a t)) : Continues ((x >>= f) s) ((x' >>= f') s) := by
  obtain same | ⟨t, spent⟩ := hx
  · cases h : x s with
    | ok a t =>
      rw [bind_ok h, bind_ok (same.trans h)]
      exact hf a t
    | error stop t =>
      rw [bind_error h, bind_error (same.trans h)]
      exact refl _
  · exact .inr ⟨t, bind_error spent⟩

/-- What comes first is the same. -/
theorem after {f f' : α → EStateM Stop σ β} (hf : ∀ a t, Continues (f a t) (f' a t)) :
    Continues ((x >>= f) s) ((x >>= f') s) :=
  bind (refl _) hf

/-- What comes last is the same. -/
theorem before {f : α → EStateM Stop σ β} (hx : Continues (x s) (x' s)) :
    Continues ((x >>= f) s) ((x' >>= f) s) :=
  bind hx fun _ _ => refl _

theorem ite {p : Prop} [Decidable p] {y y' : EStateM Stop σ α} (hx : Continues (x s) (x' s))
    (hy : Continues (y s) (y' s)) :
    Continues ((if p then x else y) s) ((if p then x' else y') s) := by
  split
  · exact hx
  · exact hy

theorem forM {f f' : α → EStateM Stop σ Unit} (hf : ∀ a t, Continues (f a t) (f' a t))
    (l : List α) (s : σ) : Continues (l.forM f s) (l.forM f' s) := by
  induction l generalizing s with
  | nil => exact refl _
  | cons a l ih => exact bind (hf a s) fun _ t => ih t

theorem foldlM {f f' : β → α → EStateM Stop σ β} (hf : ∀ b a t, Continues (f b a t) (f' b a t))
    (l : List α) (b : β) (s : σ) : Continues (l.foldlM f b s) (l.foldlM f' b s) := by
  induction l generalizing b s with
  | nil => exact refl _
  | cons a l ih =>
    rw [List.foldlM_cons, List.foldlM_cons]
    exact bind (hf b a s) fun c t => ih c t

end Continues

/-- With every bound from some one on, the work fails for this cause. -/
def FailsFor (work : Nat → EStateM Stop σ α) (s : σ) (cause : Failure) : Prop :=
  ∃ enough, ∀ fuel, enough ≤ fuel → ∃ t, work fuel s = .error (.failed cause) t

theorem FailsFor.of_error {work : Nat → EStateM Stop σ α} {s t : σ} {cause : Failure} {fuel : Nat}
    (larger : ∀ {fuel fuel'}, fuel ≤ fuel' → Continues (work fuel s) (work fuel' s))
    (failed : work fuel s = .error (.failed cause) t) : FailsFor work s cause := by
  refine ⟨fuel, fun fuel' more => ⟨t, ?_⟩⟩
  have same := larger more
  rw [failed] at same
  exact same.of_failed

end

section
variable {σ α β : Type} {s : Session σ}

theorem Continues.guarding {id : HandlerId} {work work' : Run σ α}
    (h : Continues (work s) (work' s)) :
    Continues (Run.guarding id work s) (Run.guarding id work' s) := by
  obtain same | ⟨t, spent⟩ := h
  · refine .inl ?_
    unfold Run.guarding
    rw [same]
  · exact .inr ⟨_, Run.guarding_error spent⟩

theorem Continues.inContext {work work' : Run σ α} {e : σ} {c : Context}
    (h : Continues (work ⟨e, c⟩) (work' ⟨e, c⟩)) :
    Continues (work.inContext e c) (work'.inContext e c) := by
  unfold Run.inContext
  obtain same | ⟨t, spent⟩ := h
  · rw [same]
    exact refl _
  · rw [spent]
    exact .inr ⟨_, rfl⟩

theorem Continues.onContext {work work' : InContext α}
    (h : Continues (work s.context) (work' s.context)) :
    Continues (Run.onContext work s) (Run.onContext work' s) := by
  unfold Run.onContext
  obtain same | ⟨t, spent⟩ := h
  · rw [same]
    exact refl _
  · rw [spent]
    exact .inr ⟨_, rfl⟩

namespace Handler

variable {h h' : Handler σ α} {fuel fuel' : Nat}

/-- A larger bound, and answers that themselves have larger bounds. -/
theorem dispatch_continues (answers : ∀ step s, Continues (h.answer step s) (h'.answer step s))
    (more : fuel ≤ fuel') (next : Resume) (s : Session σ) :
    Continues (h.dispatch fuel next s) (h'.dispatch fuel' next s) := by
  induction fuel generalizing fuel' next s with
  | zero => exact .inr ⟨s, rfl⟩
  | succ fuel ih =>
    obtain ⟨fuel', rfl⟩ := Nat.exists_eq_add_of_le' (Nat.le_trans (Nat.le_add_left 1 fuel) more)
    rw [dispatch, dispatch]
    refine .bind (answers _ s) fun control t => ?_
    cases control with
    | resume next' => exact ih (Nat.le_of_succ_le_succ more) next' t
    | done result => exact .refl _

theorem drive_continues (same : h.id = h'.id)
    (answers : ∀ step s, Continues (h.answer step s) (h'.answer step s)) (more : fuel ≤ fuel')
    (next : Resume) (s : Session σ) :
    Continues (h.drive fuel next s) (h'.drive fuel' next s) := by
  unfold drive
  rw [← same]
  exact .guarding (dispatch_continues answers more next s)

variable {first next : Resume} {r t : Session σ} {stop : Stop}

/-- What a run comes to is what it comes to from any moment that it passes. -/
theorem Passes.dispatch_eq (passes : h.Passes first s next r) :
    ∃ k, ∀ fuel, h.dispatch (fuel + k) first s = h.dispatch fuel next r := by
  induction passes with
  | start => exact ⟨0, fun _ => rfl⟩
  | answer before answered ih =>
    obtain ⟨k, ih⟩ := ih
    refine ⟨k + 1, fun fuel => ?_⟩
    calc h.dispatch (fuel + (k + 1)) first s
        = h.dispatch (fuel + 1 + k) first s := by rw [Nat.add_right_comm, Nat.add_assoc]
      _ = _ := ih (fuel + 1)
      _ = _ := dispatch_succ answered

/-- An effect that is answered by a failure ends the run. -/
theorem Passes.drive_error (passes : h.Passes first s next r)
    (failed : h.answer next.invoke r = .error stop t) :
    ∃ fuel u, h.drive fuel first s = .error stop u := by
  obtain ⟨k, same⟩ := passes.dispatch_eq
  have last : h.dispatch 1 next r = .error stop t := by
    rw [Handler.dispatch]
    exact bind_error failed
  exact ⟨1 + k, _, Run.guarding_error ((same 1).trans last)⟩

end Handler

end

theorem MetropolisHastings.run_continues {fuel fuel' : Nat} (more : fuel ≤ fuel')
    (config : MetropolisConfig) (program : Program) (address : Address) (store : Store)
    (c : Context) :
    Continues (run fuel config program address store c)
      (run fuel' config program address store c) := by
  refine .after fun task c => .before (.inContext (.after fun first s => ?_))
  exact Handler.drive_continues rfl (fun _ _ => .refl _) more first s

theorem Mover.take_continues {fuel fuel' : Nat} (more : fuel ≤ fuel') (task : Task) (steps : Nat)
    (s : Session Mover) : Continues (take task fuel steps s) (take task fuel' steps s) := by
  refine .after fun pause t => ?_
  cases pause with
  | none => exact .refl _
  | some next => exact Handler.drive_continues rfl (fun _ _ => .refl _) more next t

theorem rejuvenate_continues {fuel fuel' : Nat} (more : fuel ≤ fuel') (particle : Particle)
    (limit : Option Nat) (steps : Nat) (histogram : Option Histogram) (c : Context) :
    Continues (rejuvenate fuel particle limit steps histogram c)
      (rejuvenate fuel' particle limit steps histogram c) := by
  unfold rejuvenate
  split
  · exact .refl _
  · exact .after fun id c => .before (.inContext (Mover.take_continues more _ steps _))

namespace RejuvenatingFilter

variable {n : Nat} {task : Task} {bound : Nat}

/-- The same task with another bound on the moves. -/
def Task.bounded (task : Task) (bound : Nat) : Task := { task with fuel := bound }

section
variable (more : task.fuel ≤ bound)
include more

theorem move_continues (particle : Particle) (limit : Option Nat) (histogram : Option Histogram)
    (s : Session (RejuvenatingFilter n)) :
    Continues (move task particle limit histogram s)
      (move (task.bounded bound) particle limit histogram s) :=
  .after fun _ _ => .before (.onContext (rejuvenate_continues more particle limit task.steps _ _))

theorem moveRunning_continues (i : Fin n) (s : Session (RejuvenatingFilter n)) :
    Continues (moveRunning task i s) (moveRunning (task.bounded bound) i s) := by
  exact .after fun _ _ => .ite (.before (move_continues more ..)) (.refl _)

theorem moveExited_continues (histogram : Option Histogram) (i : Fin n)
    (s : Session (RejuvenatingFilter n)) :
    Continues (moveExited task histogram i s) (moveExited (task.bounded bound) histogram i s) :=
  .after fun _ _ => .before (move_continues more ..)

theorem barrier_continues (s : Session (RejuvenatingFilter n)) :
    Continues (barrier task s) (barrier (task.bounded bound) s) :=
  .after fun _ _ => .after fun _ _ => .after fun _ _ => .forM (moveRunning_continues more) _ _

theorem finish_continues (s : Session (RejuvenatingFilter n)) :
    Continues (finish task s) (finish (task.bounded bound) s) :=
  .before (.foldlM (moveExited_continues more) _ _ s)

theorem nextRound_continues (s : Session (RejuvenatingFilter n)) :
    Continues (nextRound task s) (nextRound (task.bounded bound) s) := by
  refine .bind (barrier_continues more s) fun _ t => .after fun e t => ?_
  cases e.population.firstRunning? with
  | some first => exact .refl _
  | none => exact finish_continues more t

theorem answer_continues (step : Step) (s : Session (RejuvenatingFilter n)) :
    Continues ((handler task).answer step s) ((handler (task.bounded bound)).answer step s) := by
  refine .after fun _ t => .after fun _ t => ?_
  cases step with
  | sample choice deliver => exact .refl _
  | factor point resume =>
    dsimp only
    split
    · exact .refl _
    · exact .after fun _ _ => .after fun _ _ => .after fun _ t =>
        .ite (nextRound_continues more t) (.refl _)
  | exit store value =>
    refine .after fun _ _ => .after fun _ _ => .after fun _ _ => .after fun e t => ?_
    cases e.population.nextRunning? with
    | none => exact finish_continues more t
    | some next => exact .ite (nextRound_continues more t) (.refl _)

/-- The moments of a run are those of the run with larger bounds. -/
theorem Reaches.bounded {s₀ s : Session (RejuvenatingFilter n)} {moment : Moment}
    (h : Reaches task s₀ moment s) : Reaches (task.bounded bound) s₀ moment s := by
  induction h with
  | start => exact .start
  | sample before effect chosen ih => exact ih.sample effect chosen
  | factor before effect number parked ih => exact ih.factor effect number parked
  | exit before effect left ih => exact ih.exit effect left
  | turn before turn ih => exact ih.turn turn
  | @barrier s t before passed ih =>
    have same := barrier_continues more s
    rw [passed] at same
    exact ih.barrier same.of_ok
  | round before running turn ih => exact ih.round running turn
  | exited before running ih => exact ih.exited running
  | @pass s t histogram before passed ih =>
    have same := Continues.foldlM (moveExited_continues more) (List.finRange n) (collected task) s
    rw [passed] at same
    exact ih.pass same.of_ok

end

theorem run_continues {fuel fuel' : Nat} (more : fuel ≤ fuel') (config : RejuvenationConfig)
    (program : Program) (address : Address) (store : Store) (c : Context) :
    Continues (run fuel config program address store c)
      (run fuel' config program address store c) := by
  unfold run install
  split
  · rw [bind_assoc, bind_assoc]
    refine .after fun id c => ?_
    rw [pure_bind, pure_bind]
    have answers := @answer_continues config.particles
      ⟨id, config.steps, config.restricted, config.collectAll, fuel⟩ fuel' more
    refine .before (.inContext (Handler.drive_continues ?_ answers more _ _))
    rfl
  · exact .refl _

end RejuvenatingFilter

end Posterior
