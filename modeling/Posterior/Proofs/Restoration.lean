import Posterior.Handler.Forward
import Posterior.Proofs.Resumption
import Posterior.Proofs.StackDiscipline
import Posterior.Runner

/-!
The handler stack outlives every run as it was. Work inside an engine leaves the stack alone, the
last answer of its handler takes the handler off it, and a run that stops short is unwound; so
whoever starts an engine finds the stack of its context unchanged, with a result or without.
-/

namespace Posterior

namespace Forward

theorem handler_tidy (id : HandlerId) : (handler id).Tidy where
  sample _ _ := .bind (Run.steady_draw _) fun _ => .pure rfl
  factor _ _ := .fail _
  exit _ _ := (Run.leaves_restore id).result fun _ => rfl

theorem run_steady (fuel : Nat) (program : Program) (address : Address) (store : Store) :
    (run fuel program address store).Steady :=
  InContext.steady_install fun id =>
    (((handler_tidy id).drive fuel _).inContext ()).bind fun _ => .pure _

end Forward

namespace MetropolisHastings

theorem steady_onChain {α : Type} (move : Move α) : (onChain move).Steady :=
  Run.steady_within _ _ move

theorem steady_start (task : Task) : (start task).Steady :=
  .bind (Run.steady_modifyEngine _) fun _ => .pure _

theorem steady_observe : observe.Steady := by
  refine .bind Run.preserves_engine fun e => ?_
  cases e.chain.value with
  | some value => exact Run.steady_setEngine _
  | none => exact .throw _

theorem steady_conclude (ending : Ending (Option Value)) : (conclude ending).Steady := by
  cases ending with
  | finished value =>
    refine .bind (steady_onChain _) fun accepted => ?_
    cases accepted with
    | false => exact .bind (Run.steady_modifyEngine _) fun _ => steady_observe
    | true =>
      exact .bind (Run.steady_modifyEngine _) fun _ =>
        .bind (Run.steady_modifyEngine _) fun _ => steady_observe
  | unchanged =>
    exact .bind (Run.steady_modifyEngine _) fun _ =>
      .bind (Run.steady_modifyEngine _) fun _ => steady_observe

theorem finish_yields (task : Task) : (finish task).Yields :=
  .bind Run.preserves_engine fun _ => .bind (Run.steady_ofExcept _) fun _ =>
    (Run.leaves_restore task.id).result fun _ => rfl

theorem advance_yields (task : Task) (left : Nat) : (advance task left).Yields := by
  induction left with
  | zero => exact finish_yields task
  | succ left ih =>
    refine .bind (steady_onChain _) fun progress => ?_
    cases progress with
    | resume next => exact .pure rfl
    | halted => exact .bind (steady_conclude _) fun _ => ih
    | unchanged => exact .bind (steady_conclude _) fun _ => ih

theorem settle_yields (task : Task) (ending : Ending (Option Value)) :
    (settle task ending).Yields := by
  have rest : (do
      conclude ending
      advance task (task.iterations - (← Run.engine).steps)).Yields :=
    .bind (steady_conclude _) fun _ => .bind Run.preserves_engine fun _ => advance_yields task _
  refine .bind Run.preserves_engine fun e => ?_
  cases ending with
  | unchanged => exact rest
  | finished value =>
    dsimp only
    split
    · exact .bind (steady_start task) fun _ => .pure rfl
    · exact rest

theorem handler_tidy (task : Task) : (handler task).Tidy where
  sample choice deliver := by
    refine .bind (steady_onChain _) fun progress => ?_
    cases progress with
    | resume next => exact .pure rfl
    | halted => exact settle_yields task _
    | unchanged => exact settle_yields task _
  factor point resume := by
    refine .bind (Run.steady_modifyEngine _) fun _ => .bind Run.preserves_engine fun e => ?_
    split
    · exact settle_yields task _
    · exact .pure rfl
  exit _ value := settle_yields task (.finished (some value))

theorem run_steady (fuel : Nat) (config : MetropolisConfig) (program : Program)
    (address : Address) (store : Store) : (run fuel config program address store).Steady := by
  unfold run install
  simp only [bind_assoc, pure_bind]
  refine .bind (InContext.steady_ofExcept _) fun _ => InContext.steady_install fun id => ?_
  refine (Run.Clears.inContext ?_ _).bind fun _ => .pure _
  intro s active
  exact (handler_tidy _).drive fuel _ _ active

end MetropolisHastings

namespace ParticleFilter

variable {n : Nat}

theorem steady_setPopulation (p : Population n) : (setPopulation p).Steady :=
  Run.steady_modifyEngine _

theorem turnTo_yields (i : Fin n) : (turnTo i).Yields :=
  .bind Run.preserves_engine fun _ => .bind (steady_setPopulation _) fun _ => .pure rfl

theorem finish_yields (task : Task) : (finish (n := n) task).Yields :=
  .bind Run.preserves_engine fun _ => .bind (Run.steady_ofExcept _) fun _ =>
    (Run.leaves_restore task.id).result fun _ => rfl

theorem steady_barrier (task : Task) : (barrier (n := n) task).Steady :=
  .bind Run.preserves_engine fun _ => .bind (Run.steady_draw _) fun _ => Run.steady_setEngine _

theorem nextRound_yields (task : Task) : (nextRound (n := n) task).Yields := by
  refine .bind (steady_barrier task) fun _ => .bind Run.preserves_engine fun e => ?_
  cases e.population.firstRunning? with
  | some first => exact turnTo_yields first
  | none => exact finish_yields task

theorem handler_tidy (task : Task) : (handler (n := n) task).Tidy where
  sample _ _ := .bind (Run.steady_draw _) fun _ => .pure rfl
  factor point resume := by
    refine .bind Run.preserves_engine fun _ => .bind (steady_setPopulation _) fun _ =>
      .bind Run.preserves_engine fun e => ?_
    dsimp only
    split
    · exact nextRound_yields task
    · exact turnTo_yields _
  exit store value := by
    refine .bind Run.preserves_engine fun _ => .bind Run.preserves_engine fun _ =>
      .bind (steady_setPopulation _) fun _ => .bind Run.preserves_engine fun e => ?_
    cases e.population.nextRunning? with
    | none => exact finish_yields task
    | some next =>
      dsimp only
      split
      · exact nextRound_yields task
      · exact turnTo_yields next

theorem run_steady (fuel : Nat) (config : FilterConfig) (program : Program) (address : Address)
    (store : Store) : (run fuel config program address store).Steady := by
  unfold run install
  split
  · simp only [bind_assoc, pure_bind]
    refine InContext.steady_install fun id => (Run.Clears.inContext ?_ _).bind fun _ => .pure _
    exact (handler_tidy ⟨id, config.strict⟩).drive fuel _
  · exact fun _ => rfl

end ParticleFilter

namespace Mover

theorem steady_onChain {α : Type} (move : Move α) : (onChain move).Steady :=
  Run.steady_within _ _ move

theorem steady_conclude (task : Task) (ending : Ending Outcome) :
    (conclude task ending).Steady := by
  cases ending with
  | finished outcome =>
    refine .bind (steady_onChain _) fun accepted => ?_
    cases accepted with
    | false => exact Run.steady_modifyEngine _
    | true => exact .bind (Run.steady_modifyEngine _) fun _ => Run.steady_modifyEngine _
  | unchanged => exact .bind (Run.steady_modifyEngine _) fun _ => Run.steady_modifyEngine _

theorem steady_advance (task : Task) (left : Nat) : (advance task left).Steady := by
  induction left with
  | zero => exact .pure _
  | succ left ih =>
    refine .bind (Run.steady_modifyEngine _) fun _ => .bind (steady_onChain _) fun progress => ?_
    cases progress with
    | resume next => exact .pure _
    | halted => exact .bind (steady_conclude task _) fun _ => ih
    | unchanged => exact .bind (steady_conclude task _) fun _ => ih

theorem settle_yields (task : Task) (ending : Ending Outcome) : (settle task ending).Yields := by
  refine .bind (steady_conclude task ending) fun _ => .bind Run.preserves_engine fun _ =>
    .bind (steady_advance task _) fun pause => ?_
  cases pause with
  | some next => exact .pure rfl
  | none => exact (Run.leaves_restore task.id).result fun _ => rfl

theorem handler_tidy (task : Task) : (handler task).Tidy where
  sample choice deliver := by
    refine .bind (steady_onChain _) fun progress => ?_
    cases progress with
    | resume next => exact .pure rfl
    | halted => exact settle_yields task _
    | unchanged => exact settle_yields task _
  factor point resume := by
    refine .bind (Run.steady_modifyEngine _) fun _ => .bind Run.preserves_engine fun e => ?_
    dsimp only
    split
    · exact settle_yields task _
    · split
      · exact settle_yields task _
      · exact .pure rfl
  exit store value := by
    dsimp only [handler]
    split
    · exact .bind (Run.steady_modifyEngine _) fun _ => settle_yields task _
    · exact .bind Run.preserves_engine fun e => settle_yields task _

/-- However the steps end, the mover has left the stack. -/
theorem take_clears (task : Task) (fuel steps : Nat) : (take task fuel steps).Clears task.id := by
  intro s active
  unfold take
  cases ha : advance task steps s with
  | error stop t =>
    have hs := Run.stack_guarding active ha ((steady_advance task steps).of_error ha)
    rw [Run.guarding_error ha] at hs
    rw [bind_error (Run.guarding_error ha)]
    exact hs
  | ok pause t =>
    have same : t.context.stack = s.context.stack := (steady_advance task steps).of_ok ha
    have still : t.context.active?.map (·.id) = some task.id := by
      rwa [Context.active?, same]
    rw [bind_ok (Run.guarding_eq_ok.mpr ha), ← same]
    cases pause with
    | some next => exact (handler_tidy task).drive fuel next t still
    | none =>
      dsimp only
      rw [Run.restore_of_active still]
      rfl

end Mover

theorem rejuvenate_steady (fuel : Nat) (particle : Particle) (limit : Option Nat) (steps : Nat)
    (histogram : Option Histogram) :
    (rejuvenate fuel particle limit steps histogram).Steady := by
  unfold rejuvenate
  split
  · exact .pure _
  · refine InContext.steady_install fun id =>
      ((Mover.take_clears ⟨id, _, limit⟩ fuel steps).inContext _).bind fun _ => ?_
    exact .bind (InContext.steady_ofExcept _) fun _ => .pure _

namespace RejuvenatingFilter

variable {n : Nat}

theorem steady_setPopulation (p : Population n) : (setPopulation p).Steady :=
  Run.steady_modifyEngine _

theorem turnTo_yields (i : Fin n) : (turnTo i).Yields :=
  .bind Run.preserves_engine fun _ => .bind (steady_setPopulation _) fun _ => .pure rfl

theorem steady_move (task : Task) (particle : Particle) (limit : Option Nat)
    (histogram : Option Histogram) : (move (n := n) task particle limit histogram).Steady :=
  .bind (Run.steady_onContext (InContext.steady_ensureActive task.id)) fun _ =>
    .bind (Run.steady_onContext (rejuvenate_steady _ _ _ _ _)) fun _ =>
      .bind (Run.steady_modifyEngine _) fun _ => .pure _

theorem steady_moveRunning (task : Task) (i : Fin n) : (moveRunning task i).Steady := by
  refine .bind Run.preserves_engine fun e => ?_
  dsimp only
  split
  · exact .bind (steady_move _ _ _ _) fun _ => .bind Run.preserves_engine fun _ => steady_setPopulation _
  · exact .pure _

theorem steady_moveExited (task : Task) (histogram : Option Histogram) (i : Fin n) :
    (moveExited task histogram i).Steady :=
  .bind Run.preserves_engine fun _ => .bind (steady_move _ _ _ _) fun _ =>
    .bind Run.preserves_engine fun _ => .bind (steady_setPopulation _) fun _ => .pure _

theorem finish_yields (task : Task) : (finish (n := n) task).Yields :=
  .bind (.foldlM (steady_moveExited task) _ _) fun _ => .bind Run.preserves_engine fun _ =>
    .bind (Run.steady_ofExcept _) fun _ => (Run.leaves_restore task.id).result fun _ => rfl

theorem steady_barrier (task : Task) : (barrier (n := n) task).Steady :=
  .bind Run.preserves_engine fun _ => .bind (Run.steady_draw _) fun _ =>
    .bind (Run.steady_setEngine _) fun _ => .forM (steady_moveRunning task) _

theorem nextRound_yields (task : Task) : (nextRound (n := n) task).Yields := by
  refine .bind (steady_barrier task) fun _ => .bind Run.preserves_engine fun e => ?_
  cases e.population.firstRunning? with
  | some first => exact turnTo_yields first
  | none => exact finish_yields task

theorem handler_tidy (task : Task) : (handler (n := n) task).Tidy where
  sample _ _ := .bind (Run.steady_draw _) fun _ => .bind (Run.steady_ofExcept _) fun _ =>
    .bind (Run.steady_ofExcept _) fun _ => .bind Run.preserves_engine fun _ =>
      .bind (Run.steady_ofExcept _) fun _ => .bind (steady_setPopulation _) fun _ => .pure rfl
  factor point resume := by
    refine .bind Run.preserves_engine fun _ => .bind (steady_setPopulation _) fun _ =>
      .bind Run.preserves_engine fun e => ?_
    dsimp only
    split
    · exact nextRound_yields task
    · exact turnTo_yields _
  exit store value := by
    refine .bind Run.preserves_engine fun _ => .bind Run.preserves_engine fun _ =>
      .bind (steady_setPopulation _) fun _ => .bind Run.preserves_engine fun e => ?_
    cases e.population.nextRunning? with
    | none => exact finish_yields task
    | some next =>
      dsimp only
      split
      · exact nextRound_yields task
      · exact turnTo_yields next

theorem run_steady (fuel : Nat) (config : RejuvenationConfig) (program : Program)
    (address : Address) (store : Store) : (run fuel config program address store).Steady := by
  unfold run install
  split
  · simp only [bind_assoc, pure_bind]
    refine InContext.steady_install fun id => (Run.Clears.inContext ?_ _).bind fun _ => .pure _
    exact (handler_tidy ⟨id, config.steps, config.restricted, config.collectAll, fuel⟩).drive fuel _
  · exact fun _ => rfl

end RejuvenatingFilter

namespace AsyncSmc

/-- How many particles have exited, and how many are to. -/
def account (e : AsyncSmc) : Nat × Nat := (e.exited.length, e.target)

/-- What only exits and a raised budget change, and the stack. -/
def ledger (s : Session AsyncSmc) : (Nat × Nat) × List Installed := (s.engine.account, s.context.stack)

theorem preserves_launch : Preserves ledger launch := by
  intro s
  obtain ⟨next, t, h⟩ := launch_ok s
  rw [h]
  obtain ⟨p, e, g, picks, _, rfl⟩ := launch_eq_ok h
  unfold countLaunch
  cases picks <;> split <;> rfl

theorem preserves_activate (p : AsyncParticle) : Preserves ledger (activate p) :=
  .bind (fun _ => rfl) fun _ => .pure _

theorem preserves_takeActive : Preserves ledger takeActive := by
  intro s
  unfold takeActive
  rw [Run.engine_bind]
  cases s.engine.active <;> rfl

theorem preserves_drop : Preserves ledger drop := .bind (fun _ => rfl) fun _ => preserves_launch

theorem preserves_send (p : AsyncParticle) (full : Bool) : Preserves ledger (send p full) := by
  unfold send
  split
  · exact preserves_activate _
  · exact .bind (fun _ => rfl) fun _ => preserves_launch

theorem preserves_draw {α : Type} (d : Draw α) : Preserves ledger (Run.draw d) := by
  intro s
  unfold Run.draw Run.onContext InContext.draw
  cases d s.context.rng <;> rfl

theorem preserves_arrival (p : AsyncParticle) (index : Nat) : Preserves ledger (arrival p index) := by
  unfold arrival
  split
  · exact preserves_drop
  · refine .bind Run.preserves_engine fun e => ?_
    dsimp only
    cases e.stats.get? index with
    | none => exact .bind (fun _ => rfl) fun _ => preserves_send _ _
    | some stats =>
      refine .bind (preserves_draw _) fun o => .bind (fun _ => rfl) fun _ => ?_
      split
      · exact preserves_drop
      · exact preserves_send _ _

/-- Work that keeps the ledger leaves the stack alone. -/
theorem steady_of_preserves {α : Type} {work : Work α} (h : Preserves ledger work) : work.Steady :=
  fun s => congrArg Prod.snd (h s)

theorem conclude_leaves : conclude.Leaves :=
  .bind Run.preserves_engine fun e => .bind (Run.steady_ofExcept _) fun _ =>
    (Run.leaves_restore e.id).result fun _ => rfl

theorem handler_tidy (id : HandlerId) : (handler id).Tidy where
  sample _ _ := .bind (Run.steady_draw _) fun _ => .pure rfl
  factor _ _ := .bind (steady_of_preserves preserves_takeActive) fun _ =>
    .bind (steady_of_preserves (preserves_arrival _ _)) fun _ => .pure rfl
  exit store value := by
    refine .bind (steady_of_preserves preserves_takeActive) fun _ => .bind (Run.steady_modifyEngine _)
      fun _ => .bind Run.preserves_engine fun e => ?_
    split
    · exact .bind (steady_of_preserves preserves_launch) fun _ => .pure rfl
    · exact conclude_leaves.result fun _ => rfl

/-- A run whose budget is not used up takes its handler off the stack, however it ends. -/
theorem stack_drive {fuel : Nat} {s : Session AsyncSmc}
    (left : s.engine.exited.length < s.engine.target)
    (active : s.context.active?.map (·.id) = some s.engine.id) :
    (finalState (drive fuel s)).context.stack = s.context.stack.tail := by
  obtain ⟨next, t, hl⟩ := launch_ok s
  have same : t.context.stack = s.context.stack := (steady_of_preserves preserves_launch).of_ok hl
  rw [drive_eq left hl, ← same]
  refine (handler_tidy s.engine.id).drive fuel next t ?_
  rwa [Context.active?, same]

theorem run_steady (fuel : Nat) (config : AsyncConfig) (program : Program) (address : Address)
    (store : Store) : (run fuel config program address store).Steady := by
  intro c
  unfold run
  cases valid : config.validate with
  | error cause =>
    have refused : install config program address store c = .error (.failed cause) c := by
      unfold install
      rw [valid]
      rfl
    rw [bind_error refused]
    rfl
  | ok u =>
    have ready : install config program address store c = .ok _ _ :=
      install_eq_ok.mpr ⟨valid, rfl, rfl⟩
    rw [bind_ok ready]
    refine (Preserves.after (fun _ => .pure _) _ _).trans ((Run.stack_inContext _ _ _).trans ?_)
    exact stack_drive (AsyncConfig.validate_eq_ok_iff.mp valid).1 rfl

/-- The engines that are about: as installed, and as they are left when they have run, been resumed
or started, or met an effect, in whatever context and however that ended. An engine whose budget has
exited has left its stack, so no effect reaches it. -/
inductive Used (config : AsyncConfig) (program : Program) (address : Address) (store : Store) :
    AsyncSmc → Prop where
  | installed {e : AsyncSmc} {c c' : Context}
      (ready : install config program address store c = .ok e c') :
      Used config program address store e
  | ran {e : AsyncSmc} (before : Used config program address store e) (fuel : Nat) (c : Context) :
      Used config program address store (finalState (drive fuel ⟨e, c⟩)).engine
  | resumed {e : AsyncSmc} (before : Used config program address store e) (fuel extra : Nat)
      (c : Context) :
      Used config program address store (finalState (resume fuel extra ⟨e, c⟩)).engine
  | started {e : AsyncSmc} (before : Used config program address store e) (c : Context) :
      Used config program address store (finalState (launch ⟨e, c⟩)).engine
  | met {e : AsyncSmc} (before : Used config program address store e)
      (left : e.exited.length < e.target) (effect : Step) (c : Context) :
      Used config program address store
        (finalState ((handler e.id).answer effect ⟨e, c⟩)).engine

/-- No more particles have exited than were to. -/
def OnBudget (e : AsyncSmc) : Prop := e.exited.length ≤ e.target

theorem OnBudget.of_account {e e' : AsyncSmc} (h : e.OnBudget) (same : e'.account = e.account) :
    e'.OnBudget := by
  unfold OnBudget
  rw [show e'.exited.length = e.exited.length from congrArg Prod.fst same,
    show e'.target = e.target from congrArg Prod.snd same]
  exact h

theorem left_of_account {e e' : AsyncSmc} (left : e.exited.length < e.target)
    (same : e'.account = e.account) : e'.exited.length < e'.target := by
  rw [show e'.exited.length = e.exited.length from congrArg Prod.fst same,
    show e'.target = e.target from congrArg Prod.snd same]
  exact left

/-- What an outcome says of the budget: while the run goes on some of it is left. -/
def Spends : EStateM.Result Stop (Session AsyncSmc) (Control Empirical) → Prop
  | .ok (.resume _) t => t.engine.exited.length < t.engine.target
  | .ok (.done _) t => t.engine.OnBudget
  | .error _ t => t.engine.OnBudget

theorem preserves_conclude : Preserves (·.engine) conclude := by
  refine .bind Run.preserves_engine fun _ => .bind (Run.preserves_onContext _) fun _ =>
    .bind (Run.preserves_onContext _) fun _ => .pure _

theorem spends_of_account {outcome : EStateM.Result Stop (Session AsyncSmc) (Control Empirical)}
    {e : AsyncSmc} (left : e.exited.length < e.target)
    (same : (finalState outcome).engine.account = e.account) : Spends outcome := by
  cases outcome with
  | error stop t => exact OnBudget.of_account (Nat.le_of_lt left) same
  | ok control t =>
    cases control with
    | resume next => exact left_of_account left same
    | done result => exact OnBudget.of_account (Nat.le_of_lt left) same

theorem exit_spends (id : HandlerId) (store : Store) (value : Value) {s : Session AsyncSmc}
    (left : s.engine.exited.length < s.engine.target) :
    Spends ((handler id).onExit store value s) := by
  change Spends ((handler id).method (.exit store value) s)
  cases ha : s.engine.active with
  | none =>
    rw [exit_of_idle ha]
    exact Nat.le_of_lt left
  | some p =>
    have more := exitWith_exited store value p s
    rw [exit_of_active ha]
    split
    · rename_i some
      refine spends_of_account (e := (exitWith store value p s).engine) (more ▸ some) ?_
      exact congrArg Prod.fst ((Preserves.bind preserves_launch fun _ => .pure _) _)
    · have within : (exitWith store value p s).engine.OnBudget := by
        unfold OnBudget
        rw [more]
        exact left
      cases hc : conclude (exitWith store value p s) with
      | ok result t =>
        rw [bind_ok hc]
        exact within.of_account (congrArg account (preserves_conclude.of_ok hc))
      | error stop t =>
        rw [bind_error hc]
        exact within.of_account (congrArg account (preserves_conclude.of_error hc))

theorem answer_spends (id : HandlerId) (effect : Step) {s : Session AsyncSmc}
    (left : s.engine.exited.length < s.engine.target) :
    Spends ((handler id).answer effect s) := by
  rcases Handler.met id (some "async-smc") effect s.context with
    ⟨cause, refused⟩ | ⟨active, point, resume, rfl, nan⟩ | guarded
  · rw [Handler.answer_of_refused (h := handler id) refused]
    exact Nat.le_of_lt left
  · rw [Handler.answer_of_nan (h := handler id) active nan]
    exact Nat.le_of_lt left
  · rw [Handler.answer_of_guarded (h := handler id) guarded]
    cases effect with
    | sample choice deliver =>
      have kept : Preserves ledger ((handler id).onSample choice deliver) :=
        .bind (preserves_draw _) fun _ => .pure _
      exact spends_of_account left (congrArg Prod.fst (kept s))
    | factor point resume =>
      have kept : Preserves ledger ((handler id).onFactor point resume) :=
        .bind preserves_takeActive fun _ => .bind (preserves_arrival _ _) fun _ => .pure _
      exact spends_of_account left (congrArg Prod.fst (kept s))
    | exit store value => exact exit_spends id store value left

theorem drive_onBudget (fuel : Nat) {s : Session AsyncSmc} (h : s.engine.OnBudget) :
    (finalState (drive fuel s)).engine.OnBudget := by
  by_cases left : s.engine.exited.length < s.engine.target
  · obtain ⟨next, t, hl⟩ := launch_ok s
    have same : t.engine.account = s.engine.account := congrArg Prod.fst (preserves_launch.of_ok hl)
    rw [drive_eq left hl, Run.engine_guarding]
    refine Handler.dispatch_outcome
      (P := fun _ (r : Session AsyncSmc) => r.engine.exited.length < r.engine.target)
      (Q := fun outcome => OnBudget (finalState outcome).engine)
      (fun _ _ => Nat.le_of_lt) ?_ fuel (left_of_account left same)
    intro next r left
    have hs := answer_spends s.engine.id next.invoke left
    generalize (handler s.engine.id).answer next.invoke r = outcome at hs
    cases outcome with
    | error stop t => exact hs
    | ok control t => cases control <;> exact hs
  · have spent : drive fuel s = conclude s := by
      unfold drive
      rw [Run.engine_bind, if_pos (Nat.not_lt.mp left)]
    rw [spent]
    exact h.of_account (congrArg account (preserves_conclude s))

theorem resume_zero (fuel : Nat) (s : Session AsyncSmc) :
    resume fuel 0 s = .error (.failed (.zeroCount "extra" (some "async-smc"))) s := rfl

theorem Used.onBudget {config : AsyncConfig} {program : Program} {address : Address}
    {store : Store} {e : AsyncSmc} (h : Used config program address store e) : e.OnBudget := by
  induction h with
  | installed ready =>
    obtain ⟨_, _, rfl⟩ := install_eq_ok.mp ready
    exact Nat.zero_le _
  | ran before fuel c ih => exact drive_onBudget fuel ih
  | @resumed e before fuel extra c ih =>
    rcases Nat.eq_zero_or_pos extra with rfl | more
    · exact ih
    · rw [resume_eq more]
      exact drive_onBudget fuel (Nat.le_trans ih (Nat.le_add_right ..))
  | @started e before c ih => exact ih.of_account (congrArg Prod.fst (preserves_launch ⟨e, c⟩))
  | @met e before left effect c ih =>
    have hs := answer_spends e.id effect (s := ⟨e, c⟩) left
    generalize (handler e.id).answer effect ⟨e, c⟩ = outcome at hs
    cases outcome with
    | error stop t => exact hs
    | ok control t =>
      cases control with
      | resume next => exact Nat.le_of_lt hs
      | done result => exact hs

/-- A resumed run takes its handler off the stack again, however it ends. -/
theorem stack_resume {e : AsyncSmc} (within : e.OnBudget) (fuel extra : Nat) (c : Context) :
    (finalState (resume fuel extra ⟨e, c⟩)).context.stack = c.stack := by
  rcases Nat.eq_zero_or_pos extra with rfl | more
  · rfl
  · rw [resume_eq more]
    exact stack_drive (Nat.lt_of_le_of_lt within (Nat.lt_add_of_pos_right more)) rfl

end AsyncSmc

theorem Algorithm.runWith_steady (a : Algorithm) (fuel : Nat) (program : Program)
    (address : Address) (store : Store) : (a.runWith fuel program address store).Steady := by
  refine .bind (InContext.steady_ofExcept _) fun _ => ?_
  cases a with
  | metropolis config => exact MetropolisHastings.run_steady fuel config program address store
  | filter config => exact ParticleFilter.run_steady fuel config program address store
  | rejuvenation config => exact RejuvenatingFilter.run_steady fuel config program address store
  | async config => exact AsyncSmc.run_steady fuel config program address store

/-- However a run ends, with a result or short of one, the stack of its context is what it was when
the run was started, whatever was installed then. This holds of forward runs, of every engine, with
parameters in order or not, of moves of one particle, and of runs that are resumed. So moves inside
the filter, if they stop short, take off the mover alone, and the filter that stops with them takes
off itself and nothing below. Sizes and budgets are natural numbers: a buffer size or a raised budget
that does not fit in a machine word is not meant. -/
theorem stack_restored (fuel : Nat) (program : Program) (address : Address) (store : Store) :
    (Forward.run fuel program address store).Steady ∧
      (∀ config, (MetropolisHastings.run fuel config program address store).Steady) ∧
      (∀ config, (ParticleFilter.run fuel config program address store).Steady) ∧
      (∀ config, (RejuvenatingFilter.run fuel config program address store).Steady) ∧
      (∀ config, (AsyncSmc.run fuel config program address store).Steady) ∧
      (∀ algorithm : Algorithm, (algorithm.runWith fuel program address store).Steady) ∧
      (∀ particle limit steps histogram,
        (rejuvenate fuel particle limit steps histogram).Steady) ∧
      (∀ config engine extra context, AsyncSmc.Used config program address store engine →
        (finalState (AsyncSmc.resume fuel extra ⟨engine, context⟩)).context.stack =
          context.stack) ∧
      (∀ frozen limit steps mover context,
        let (id, inner) := Context.install context "rejuvenator"
        (finalState (Mover.take ⟨id, frozen, limit⟩ fuel steps ⟨mover, inner⟩)).context.stack =
          context.stack) ∧
      ∀ (n : Nat) (task : RejuvenatingFilter.Task) (filter : RejuvenatingFilter n) next context,
        let (id, inner) := Context.install context "rejuvenation"
        (finalState ((RejuvenatingFilter.handler { task with id }).drive fuel next
          ⟨filter, inner⟩)).context.stack = context.stack := by
  refine ⟨Forward.run_steady fuel program address store,
    fun config => MetropolisHastings.run_steady fuel config program address store,
    fun config => ParticleFilter.run_steady fuel config program address store,
    fun config => RejuvenatingFilter.run_steady fuel config program address store,
    fun config => AsyncSmc.run_steady fuel config program address store,
    fun algorithm => algorithm.runWith_steady fuel program address store,
    rejuvenate_steady fuel, ?_, ?_, ?_⟩
  · intro config engine extra context used
    exact AsyncSmc.stack_resume used.onBudget fuel extra context
  · intro frozen limit steps mover context
    exact Mover.take_clears ⟨_, frozen, limit⟩ fuel steps ⟨mover, _⟩ rfl
  · intro n task filter next context
    exact (RejuvenatingFilter.handler_tidy { task with id := _ }).drive fuel next ⟨filter, _⟩ rfl

/-- An engine whose first run is cut short after one effect is resumed in another context. -/
theorem headsWeighed_restored :
    let engine := AsyncSmc.initial {} (headsWeighed.entry .root) default ⟨1⟩
    let used := (finalState (AsyncSmc.drive 1 ⟨engine, quietContext "async-smc"⟩)).engine
    AsyncSmc.Used {} headsWeighed .root default used ∧
      (finalState (AsyncSmc.resume 9 1 ⟨used, quietContext "forward"⟩)).context.stack =
        (quietContext "forward").stack := by
  intro engine used
  have ready : AsyncSmc.install {} headsWeighed .root default
      { quietContext "async-smc" with stack := [], next := 1 } =
        .ok engine (quietContext "async-smc") := rfl
  have known : AsyncSmc.Used {} headsWeighed .root default used := .ran (.installed ready) 1 _
  obtain ⟨_, _, _, _, _, _, _, resumes, _⟩ := stack_restored 9 headsWeighed .root default
  exact ⟨known, resumes {} used 1 (quietContext "forward") known⟩

end Posterior
