import Posterior.Proofs.WellFormed

/-!
Sample accounting. A result is made of exactly as many observations as were asked for: one for each
step of a chain, for each particle of a filter, for each step of a final pass whose steps are
collected, and for each particle of the budget of an asynchronous engine, whatever has become of its
runs before. The counters of proposals agree with the steps that they count.
-/

namespace Posterior

open Numeric

namespace Histogram

/-- The histogram of rows, each of them a value with its mass. -/
def gather (rows : List (Value × Float)) : Histogram :=
  rows.foldl (fun h row => h.add row.1 row.2) .empty

theorem gather_concat (rows : List (Value × Float)) (row : Value × Float) :
    gather (rows ++ [row]) = (gather rows).add row.1 row.2 := by
  unfold gather
  rw [List.foldl_append]
  rfl

theorem observations_gather (rows : List (Value × Float)) :
    (gather rows).observations = rows.length := by
  induction rows using List.reverseRecOn with
  | nil => rfl
  | append_singleton rows row ih =>
    rw [gather_concat, observations_add, ih, List.length_append]
    rfl

theorem observeAll_eq_gather (values : List Value) :
    Histogram.empty.observeAll values = gather (values.map (·, 1)) := by
  unfold gather
  rw [List.foldl_map]
  rfl

end Histogram

namespace Empirical

/-- The distribution is made of the rows, and they are all of its samples. -/
structure MadeOf (d : Empirical) (rows : List (Value × Float)) : Prop where
  support : ∃ base, ofHistogram (.gather rows) = .ok base ∧ d.support = base.support
  samples : d.samples = rows.length

/-- The distribution is made of `n` values, each of them observed once. -/
def Counts (d : Empirical) (n : Nat) : Prop :=
  ∃ values : List Value, values.length = n ∧ d.MadeOf (values.map (·, 1))

variable {base d : Empirical} {rows : List (Value × Float)} {values : List Value}

theorem madeOf_ofHistogram (made : ofHistogram (.gather rows) = .ok base)
    (support : d.support = base.support) (samples : d.samples = base.samples) : d.MadeOf rows :=
  ⟨⟨base, made, support⟩, by rw [samples, ofHistogram_samples made, Histogram.observations_gather]⟩

theorem counts_ofHistogram {n : Nat} (length : values.length = n)
    (made : ofHistogram (Histogram.empty.observeAll values) = .ok base)
    (support : d.support = base.support) (samples : d.samples = base.samples) : d.Counts n := by
  rw [Histogram.observeAll_eq_gather] at made
  exact ⟨values, length, madeOf_ofHistogram made support samples⟩

end Empirical

namespace MetropolisHastings

/-- Every step on record is one proposal. At most as many were accepted, and the first one was. -/
structure Metered (e : MetropolisHastings) : Prop where
  proposals : e.metrics.proposals = e.steps
  accepted : e.metrics.accepted ≤ e.steps
  first : 0 < e.steps → 0 < e.metrics.accepted

variable {task : Task} {context : Context} {origin : Option Chain} {moment : Moment}
  {s t : Session MetropolisHastings} {accepted : Bool}
  {ending : Ending (Option Value)}

theorem Metered.records (h : s.engine.Metered) (records : Records ending accepted s t)
    (first : s.engine.steps = 0 → accepted = true) : t.engine.Metered := by
  have one := accepted.toNat_le
  refine ⟨?_, ?_, fun _ => ?_⟩
  · rw [records.proposals, records.steps, h.proposals]
  · rw [records.accepted, records.steps]
    exact Nat.add_le_add h.accepted one
  · rw [records.accepted]
    rcases Nat.eq_zero_or_pos s.engine.steps with none | some
    · rw [first none]
      exact Nat.succ_pos _
    · exact Nat.add_pos_left (h.first some) _

/-- A proposal is made out of a step on record. -/
theorem Reaches.steps_pos {old : Chain} (h : Reaches task context (some old) moment s) :
    0 < s.engine.steps := by
  generalize ho : some old = origin at h
  induction h generalizing old with
  | start began => cases ho
  | sample before effect site ih =>
    rw [onChain_steps site]
    exact ih ho
  | factor before effect number passed ih =>
    subst passed
    exact ih ho
  | exit before effect ih => exact ih ho
  | restart before impossible began ih => cases ho
  | conclude before settled concluded ih =>
    rw [conclude_steps concluded]
    exact Nat.succ_pos _
  | propose before left proposed ih =>
    rw [onChain_steps proposed]
    exact recorded_steps_pos before

/-- The first step on record is accepted: nothing is there that its execution could yield to. -/
theorem Reaches.first_accepted {after : Chain × Rng}
    (h : Reaches task context origin (.ended ending) s) (settled : ¬ Impossible s.engine ending)
    (decides : Chain.Decides 0 id (s.engine.chain, s.context.rng) ending accepted after)
    (first : s.engine.steps = 0) : accepted = true := by
  cases decides with
  | unchanged => rfl
  | @finished value _ _ decided =>
    cases origin with
    | some old => exact absurd first h.steps_pos.ne'
    | none =>
      cases value with
      | none => exact absurd ⟨first, h.impossible⟩ settled
      | some value =>
        obtain ⟨_, standing⟩ := h.holds
        exact (Chain.decide_first standing.2.1 decided).1

theorem start_metered {next : Resume} (h : s.engine.Metered)
    (began : MetropolisHastings.start task s = .ok next t) : t.engine.Metered := by
  unfold MetropolisHastings.start at began
  simp only [bind_eq_ok, Run.modifyEngine_eq_ok, pure_eq_ok] at began
  obtain ⟨_, _, rfl, _, rfl⟩ := began
  exact { h with }

theorem onChain_metered {α : Type} {move : Move α} {a : α} (h : s.engine.Metered)
    (moved : onChain move s = .ok a t) : t.engine.Metered := by
  obtain ⟨c, g, _, rfl⟩ := onChain_eq_ok.mp moved
  exact { h with }

theorem Reaches.metered (h : Reaches task context origin moment s) : s.engine.Metered := by
  induction h with
  | start began => exact start_metered ⟨rfl, Nat.le_refl 0, fun pos => pos⟩ began
  | sample before effect site ih => exact onChain_metered ih site
  | factor before effect number passed ih =>
    subst passed
    exact { ih with }
  | exit before effect ih => exact ih
  | restart before impossible began ih => exact start_metered ih began
  | conclude before settled concluded ih =>
    obtain ⟨accepted, recorded⟩ := conclude_records concluded
    exact ih.records recorded (before.first_accepted settled recorded.decided)
  | propose before left proposed ih => exact onChain_metered ih proposed

/-- What a chain comes to that was asked for so many steps. -/
structure Accounts (iterations : Nat) (inference : Inference) : Prop where
  samples : inference.distribution.Counts iterations
  proposals : inference.metrics.proposals = iterations
  accepted_pos : 1 ≤ inference.metrics.accepted
  accepted_le : inference.metrics.accepted ≤ iterations
  ratio : inference.distribution.acceptanceRatio =
    some (ofCount inference.metrics.accepted / ofCount iterations)

theorem run_accounts {fuel : Nat} {config : MetropolisConfig} {program : Program}
    {address : Address} {store : Store} {c c' : Context} {inference : Inference}
    (h : run fuel config program address store c = .ok inference c') :
    Accounts config.iterations inference := by
  unfold run at h
  simp only [bind_eq_ok, pure_eq_ok] at h
  obtain ⟨task, context, installed, ⟨result, e⟩, _, worked, rfl, rfl⟩ := h
  obtain ⟨next, r, began, ran⟩ := bind_eq_ok.mp (Run.inContext_eq_ok.mp worked)
  unfold install at installed
  simp only [bind_eq_ok, InContext.ofExcept_eq_ok, InContext.install_eq_ok, pure_eq_ok] at installed
  obtain ⟨_, _, ⟨valid, rfl⟩, _, _, ⟨rfl, rfl⟩, rfl, rfl⟩ := installed
  have pos : 0 < config.iterations := requirePositive_eq_ok_iff.mp valid
  obtain ⟨origin, s, reached, enough, finished⟩ := drive_leads (.start began) ran
  obtain ⟨values, histogram, length⟩ := reached.tallied.observed
  have metered := reached.metered
  have all : s.engine.steps = config.iterations := Nat.le_antisymm (reached.counted pos) enough
  unfold finish at finished
  simp only [bind_eq_ok, Run.engine_eq_ok, Run.ofExcept_eq_ok, pure_eq_ok] at finished
  obtain ⟨_, _, ⟨rfl, rfl⟩, d, _, ⟨made, rfl⟩, _, _, left, same, rfl⟩ := finished
  cases same
  have kept : e = s.engine := Run.restore_engine left
  subst kept
  rw [histogram] at made
  refine ⟨?_, metered.proposals.trans all, metered.first (all ▸ pos), all ▸ metered.accepted, rfl⟩
  exact Empirical.counts_ofHistogram (length.symm.trans all) made rfl rfl

end MetropolisHastings

section
variable {fuel : Nat} {program : Program} {address : Address} {store : Store} {c c' : Context}
  {inference : Inference}

/-- A filter observes each of its particles once. -/
theorem ParticleFilter.run_counts {config : FilterConfig}
    (h : run fuel config program address store c = .ok inference c') :
    inference.distribution.Counts config.particles := by
  unfold run install at h
  split at h
  · rename_i pos
    simp only [bind_eq_ok, pure_eq_ok, InContext.install_eq_ok] at h
    obtain ⟨_, _, ⟨_, _, ⟨rfl, rfl⟩, rfl, rfl⟩, ⟨result, e⟩, _, worked, rfl, rfl⟩ := h
    obtain ⟨s, reached, _, d, made, rfl⟩ := drive_leads (Run.inContext_eq_ok.mp worked)
    have final : s.engine.population.Final s.engine.metrics.barriers :=
      reached.inStep (start_opened pos (program.entry address) store)
        (Population.start_acting pos (program.entry address) store)
    exact Empirical.counts_ofHistogram (Population.length_values final.value) made rfl rfl
  · cases h

/-- A filter with rejuvenation observes each of its particles once, or each step of the final pass. -/
theorem RejuvenatingFilter.run_counts {config : RejuvenationConfig}
    (h : run fuel config program address store c = .ok inference c') :
    inference.distribution.Counts (observations config.collectAll config.steps config.particles) := by
  unfold run install at h
  split at h
  · rename_i pos
    simp only [bind_eq_ok, pure_eq_ok, InContext.install_eq_ok] at h
    obtain ⟨_, _, ⟨_, _, ⟨rfl, rfl⟩, rfl, rfl⟩, ⟨result, e⟩, _, worked, rfl, rfl⟩ := h
    obtain ⟨histogram, s, reached, _, d, made, rfl⟩ := drive_leads (Run.inContext_eq_ok.mp worked)
    have h₀ := start_holds pos (program.entry address) store
    obtain ⟨r, exited, passed⟩ := reached.passed
    obtain ⟨values, length, same⟩ := pass_tallied (exited.holds h₀) passed
    rw [same] at made
    exact Empirical.counts_ofHistogram length made rfl rfl
  · cases h

end

namespace Handler

variable {σ α β : Type} {h : Handler σ α} {view : σ → β}

/-- A handler whose methods leave what is seen of the engine as it was. -/
structure Spares (h : Handler σ α) (view : σ → β) : Prop where
  sample : ∀ choice deliver, Preserves (fun s => view s.engine) (h.onSample choice deliver)
  factor : ∀ point resume, Preserves (fun s => view s.engine) (h.onFactor point resume)
  exit : ∀ store value, Preserves (fun s => view s.engine) (h.onExit store value)

theorem Spares.answer (spares : h.Spares view) (effect : Step) :
    Preserves (fun s => view s.engine) (h.answer effect) := by
  refine .bind .get fun s => .bind (fun s => congrArg view (Run.preserves_onContext _ s)) fun _ => ?_
  cases effect with
  | sample choice deliver => exact spares.sample choice deliver
  | factor point resume =>
    dsimp only
    split
    · exact .throw _
    · exact spares.factor point resume
  | exit store value => exact spares.exit store value

theorem Spares.dispatch (spares : h.Spares view) (fuel : Nat) (next : Resume) :
    Preserves (fun s => view s.engine) (h.dispatch fuel next) := by
  induction fuel generalizing next with
  | zero => exact .throw _
  | succ fuel ih =>
    refine .bind (spares.answer _) fun control => ?_
    cases control with
    | resume next' => exact ih next'
    | done result => exact .pure _

theorem Spares.drive (spares : h.Spares view) (fuel : Nat) (next : Resume) :
    Preserves (fun s => view s.engine) (h.drive fuel next) := fun s =>
  (congrArg view (Run.engine_guarding ..)).trans (spares.dispatch fuel next s)

end Handler

namespace AsyncSmc

/-- The values that have exited, each with its mass against the greatest of the weights. -/
def rows (e : AsyncSmc) : List (Value × Float) :=
  e.exited.filterMap fun p =>
    p.value.map fun value => (value, exp (p.weight - greatest (e.exited.map (·.weight))))

theorem histogram_eq_gather (e : AsyncSmc) : e.histogram = .gather e.rows := by
  unfold histogram Histogram.gather rows
  rw [List.foldl_filterMap]
  refine congrArg (List.foldl · Histogram.empty e.exited) ?_
  funext h p
  cases p.value <;> rfl

theorem length_rows {e : AsyncSmc} (valued : ∀ p ∈ e.exited, p.value.isSome = true) :
    e.rows.length = e.exited.length := by
  refine List.filterMap_length_eq_length.mpr fun p hp => ?_
  rw [Option.isSome_map]
  exact valued p hp

/-- What an engine with a budget comes to: as many particles as the budget have exited, all of them
with a value, and the distribution is made of these. -/
structure Accounts (budget : Nat) (e : AsyncSmc) (d : Empirical) : Prop where
  target : e.target = budget
  exited : e.exited.length = budget
  valued : ∀ p ∈ e.exited, p.value.isSome = true
  made : d.MadeOf e.rows
  samples : d.samples = budget

theorem target_of_ledger {α : Type} {work : Work α} (h : Preserves ledger work) :
    Preserves (fun s => s.engine.target) work := fun s => congrArg (·.1.2) (h s)

theorem target_of_engine {α : Type} {work : Work α} (h : Preserves (·.engine) work) :
    Preserves (fun s => s.engine.target) work := fun s => congrArg target (h s)

/-- No effect changes the budget. -/
theorem handler_spares (id : HandlerId) : (handler id).Spares target where
  sample _ _ := .bind (target_of_engine (Run.preserves_onContext _)) fun _ => .pure _
  factor _ _ := .bind (target_of_ledger preserves_takeActive) fun _ =>
    .bind (target_of_ledger (preserves_arrival _ _)) fun _ => .pure _
  exit _ _ := by
    refine .bind (target_of_ledger preserves_takeActive) fun _ => .bind (fun _ => rfl) fun _ =>
      .bind Run.preserves_engine fun e => ?_
    split
    · exact .bind (target_of_ledger preserves_launch) fun _ => .pure _
    · exact .bind (target_of_engine preserves_conclude) fun _ => .pure _

theorem preserves_drive (fuel : Nat) : Preserves (fun s => s.engine.target) (drive fuel) := by
  refine .bind Run.preserves_engine fun e => ?_
  split
  · exact target_of_engine preserves_conclude
  · exact .bind (target_of_ledger preserves_launch) fun next => (handler_spares e.id).drive fuel next

/-- The engines with the budgets that they have come to: as installed, and as they are left by a run
or by a resumption with extra particles, in whatever context and however that ended. -/
inductive Budgeted (config : AsyncConfig) (program : Program) (address : Address) (store : Store) :
    Nat → AsyncSmc → Prop where
  | installed {e : AsyncSmc} {c c' : Context}
      (ready : install config program address store c = .ok e c') :
      Budgeted config program address store config.particles e
  | ran {budget : Nat} {e : AsyncSmc} (before : Budgeted config program address store budget e)
      (fuel : Nat) (c : Context) :
      Budgeted config program address store budget (finalState (drive fuel ⟨e, c⟩)).engine
  | resumed {budget : Nat} {e : AsyncSmc} (before : Budgeted config program address store budget e)
      (fuel extra : Nat) (c : Context) :
      Budgeted config program address store (budget + extra)
        (finalState (resume fuel extra ⟨e, c⟩)).engine

section
variable {config : AsyncConfig} {program : Program} {address : Address} {store : Store}
  {budget fuel extra : Nat} {e : AsyncSmc} {s t : Session AsyncSmc} {c c' : Context}
  {result : Empirical} {inference : Inference}

theorem Budgeted.reachable (h : Budgeted config program address store budget e) :
    Reachable config program address store e := by
  induction h with
  | installed ready => exact .installed ready
  | ran before fuel c ih => exact ih.drive fuel c
  | resumed before fuel extra c ih => exact ih.resume fuel extra c

theorem Budgeted.target (h : Budgeted config program address store budget e) :
    e.target = budget := by
  induction h with
  | installed ready =>
    obtain ⟨_, _, rfl⟩ := install_eq_ok.mp ready
    rfl
  | @ran budget e before fuel c ih => exact (preserves_drive fuel ⟨e, c⟩).trans ih
  | @resumed budget e before fuel extra c ih =>
    rcases Nat.eq_zero_or_pos extra with rfl | more
    · exact ih
    · rw [resume_eq more]
      exact (preserves_drive fuel _).trans (congrArg (· + extra) ih)

/-- A run that comes to a result has used up the budget, no more and no less. -/
theorem drive_accounts (reachable : Reachable config program address store s.engine)
    (ran : drive fuel s = .ok result t) : Accounts s.engine.target t.engine result := by
  have later : Reachable config program address store t.engine := by
    have := reachable.drive fuel s.context
    rwa [ran] at this
  have target : t.engine.target = s.engine.target := (preserves_drive fuel).of_ok ran
  obtain ⟨k, formed⟩ := later.formed
  obtain ⟨log, r, _, spent, same, distribution⟩ := drive_leads ran
  rw [← same] at spent distribution
  have exited : t.engine.exited.length = s.engine.target :=
    (Nat.le_antisymm later.onBudget spent).trans target
  have valued : ∀ p ∈ t.engine.exited, p.value.isSome = true := fun p hp => (formed.exited p hp).1
  obtain ⟨base, made, whole⟩ := except_bind_eq_ok.mp distribution
  cases whole
  rw [histogram_eq_gather] at made
  have rows : (base.withLogNormalizer t.engine.logNormalizer).MadeOf t.engine.rows :=
    Empirical.madeOf_ofHistogram made rfl rfl
  exact ⟨target, exited, valued, rows, (rows.samples.trans (length_rows valued)).trans exited⟩

theorem Budgeted.resume_accounts (h : Budgeted config program address store budget e)
    (ran : resume fuel extra ⟨e, c⟩ = .ok result t) :
    Accounts (budget + extra) t.engine result := by
  rcases Nat.eq_zero_or_pos extra with rfl | more
  · rw [resume_zero] at ran
    cases ran
  · rw [resume_eq more] at ran
    rw [← h.target]
    exact drive_accounts (h.reachable.raised extra c) ran

theorem run_accounts (h : run fuel config program address store c = .ok inference c') :
    ∃ e, Budgeted config program address store config.particles e ∧
      inference.metrics = e.metrics ∧ Accounts config.particles e inference.distribution := by
  unfold run at h
  simp only [bind_eq_ok, pure_eq_ok] at h
  obtain ⟨engine, context, ready, ⟨result, e⟩, _, worked, rfl, rfl⟩ := h
  have ran := Run.inContext_eq_ok.mp worked
  have start := Budgeted.installed ready
  have accounts := drive_accounts start.reachable ran
  rw [start.target] at accounts
  refine ⟨e, ?_, rfl, accounts⟩
  have left := start.ran fuel context
  rwa [ran] at left

end

end AsyncSmc

/-- A run admits no histogram that cannot be shared out, unless the program raises the failure. -/
theorem Step.Meets.raises {root : Step} {cause : Failure} (h : root.Meets cause)
    (empty : cause.code = "empty-histogram") : root.Raises cause := by
  rcases h with raises | ordinary
  · exact raises
  · unfold Failure.Ordinary at ordinary
    rw [empty] at ordinary
    exact absurd ordinary (by decide)

theorem Admissible.raises {root : Step} {α : Type} {outcome : EStateM.Result Stop Context α}
    {cause : Failure} {c : Context} (h : Admissible root outcome)
    (failed : outcome = .error (.failed cause) c) (empty : cause.code = "empty-histogram") :
    root.Raises cause := by
  have admitted : root.Meets cause := h.error failed
  exact admitted.raises empty

theorem Distribution.Refusal.code_ne {cause : Failure} (h : Refusal cause) :
    cause.code ≠ "empty-histogram" := by
  cases h with
  | parameters name fault arity =>
    change "bad-params" ≠ "empty-histogram"
    decide
  | support =>
    change "empty-support" ≠ "empty-histogram"
    decide

/-- A run that comes to a result has made it of as many observations as its parameters ask for: a
chain of one for each iteration, a particle filter of one for each particle, a filter with
rejuvenation of one for each particle or for each step of its final pass, an asynchronous engine of
one for each particle of the budget that it has come to, however often it was resumed before and
however that ended; budgets and counts are natural numbers here, and what is said of them is said of
machine words as long as they fit. A chain has made one proposal for each iteration, has accepted at
least the first and reports the share that it has accepted. Moving a particle proposes all of its steps
or none and accepts no more than it proposes. No chain and no filter fails for want of observations,
unless a distribution of the program has raised that failure; and those of the library do not raise
it. -/
theorem samples_accounted (program : Program) (address : Address) (store : Store) :
    let root := program store address
    (∀ fuel context inference context',
      (∀ config, MetropolisHastings.run fuel config program address store context =
        .ok inference context' → MetropolisHastings.Accounts config.iterations inference) ∧
      (∀ config, ParticleFilter.run fuel config program address store context =
        .ok inference context' → inference.distribution.Counts config.particles) ∧
      (∀ config, RejuvenatingFilter.run fuel config program address store context =
        .ok inference context' → inference.distribution.Counts
          (if config.collectAll && config.steps != 0 then config.particles * config.steps
            else config.particles)) ∧
      ∀ config, AsyncSmc.run fuel config program address store context = .ok inference context' →
        ∃ e, AsyncSmc.Budgeted config program address store config.particles e ∧
          inference.metrics = e.metrics ∧
          AsyncSmc.Accounts config.particles e inference.distribution) ∧
    (∀ config budget e, AsyncSmc.Budgeted config program address store budget e →
      ∀ fuel extra context result t, AsyncSmc.resume fuel extra ⟨e, context⟩ = .ok result t →
        AsyncSmc.Budgeted config program address store (budget + extra) t.engine ∧
          AsyncSmc.Accounts (budget + extra) t.engine result) ∧
    (∀ fuel particle limit steps histogram context r context',
      rejuvenate fuel particle limit steps histogram context = .ok r context' →
        (r.proposals = 0 ∨ r.proposals = steps) ∧ r.accepted ≤ r.proposals) ∧
    (∀ fuel context cause context', cause.code = "empty-histogram" →
      (∀ config, MetropolisHastings.run fuel config program address store context =
        .error (.failed cause) context' → root.Raises cause) ∧
      (∀ config, ParticleFilter.run fuel config program address store context =
        .error (.failed cause) context' → root.Raises cause) ∧
      ∀ config, RejuvenatingFilter.run fuel config program address store context =
        .error (.failed cause) context' → root.Raises cause) ∧
    (root.DrawsStandard → ∀ cause : Failure, cause.code = "empty-histogram" →
      ¬ root.Raises cause) := by
  intro root
  refine ⟨?_, ?_, ?_, ?_, fun standard cause empty raises =>
    (standard.refusal raises).code_ne empty⟩
  · intro fuel context inference context'
    exact ⟨fun config => MetropolisHastings.run_accounts,
      fun config => ParticleFilter.run_counts,
      fun config => RejuvenatingFilter.run_counts,
      fun config => AsyncSmc.run_accounts⟩
  · intro config budget e budgeted fuel extra context result t ran
    have left := budgeted.resumed fuel extra context
    rw [ran] at left
    exact ⟨left, budgeted.resume_accounts ran⟩
  · intro fuel particle limit steps histogram context r context' ran
    have tallied := rejuvenate_tallied ran
    exact ⟨tallied.proposals, tallied.accepted⟩
  · intro fuel context cause context' empty
    exact ⟨fun config failed => (MetropolisHastings.run_admissible ..).raises failed empty,
      fun config failed => (ParticleFilter.run_admissible ..).raises failed empty,
      fun config failed => (RejuvenatingFilter.run_admissible ..).raises failed empty⟩

/-- A coin that has been tossed and has shown heads. -/
def tossed : Particle where
  resume := default
  store := default
  score := -1
  trace := ⟨[⟨⟨default, .root, coin, []⟩, exit, .bool true, -1, 0, 0, false⟩], by simp⟩
  completed := true
  value := some (.bool true)

/-- A distribution that raises the failure of a histogram. -/
def hollow : Distribution where
  name := "hollow"
  draw _ := throw (.emptyHistogram 0 0)
  score _ _ := .ok 0

def hollowDraw : Program := fun store address => sample store address hollow [] exit

/-- Each engine is run, the asynchronous one resumed with two more particles, and a tossed coin moved
by two steps. A filter fails with what a distribution has raised, and the fair coin raises no such
thing. -/
theorem coinFlip_accounted :
    let context : Context := { rng := steadyRng 0 }
    (∃ inference c, MetropolisHastings.run 9 ⟨2⟩ coinFlip .root default context =
      .ok inference c ∧ MetropolisHastings.Accounts 2 inference) ∧
    (∃ inference c, ParticleFilter.run 9 { particles := 2 } coinFlip .root default context =
      .ok inference c ∧ inference.distribution.Counts 2) ∧
    (∃ inference c, RejuvenatingFilter.run 9 { particles := 2, steps := 2, collectAll := true }
      coinFlip .root default context = .ok inference c ∧ inference.distribution.Counts 4) ∧
    (∃ inference c e, AsyncSmc.run 9 { particles := 2, bufferSize := 1 } coinFlip .root default
      context = .ok inference c ∧ AsyncSmc.Accounts 2 e inference.distribution) ∧
    (∃ e result t, AsyncSmc.Budgeted { particles := 1, bufferSize := 1 } twoCoins .root default 1 e ∧
      AsyncSmc.resume 9 2 ⟨e, context⟩ = .ok result t ∧ AsyncSmc.Accounts 3 t.engine result) ∧
    (∃ r c, rejuvenate 9 tossed none 2 none (quietContext "rejuvenation") = .ok r c ∧
      (r.proposals = 0 ∨ r.proposals = 2) ∧ r.accepted ≤ r.proposals) ∧
    (∃ c, ParticleFilter.run 9 { particles := 1 } hollowDraw .root default context =
      .error (.failed (.emptyHistogram 0 0)) c ∧
      (hollowDraw default .root).Raises (.emptyHistogram 0 0)) ∧
    ¬ (fairCoin default .root).Raises (.emptyHistogram 0 0) := by
  intro context
  obtain ⟨runs, _, moves, _⟩ := samples_accounted coinFlip .root default
  obtain ⟨_, resumes, _⟩ := samples_accounted twoCoins .root default
  obtain ⟨_, _, _, fails, _⟩ := samples_accounted hollowDraw .root default
  obtain ⟨_, _, _, _, standard⟩ := samples_accounted fairCoin .root default
  have empty : (Failure.emptyHistogram 0 0).code = "empty-histogram" := rfl
  refine ⟨?_, ?_, ?_, ?_, ?_, ?_, ?_, standard (fairCoin_standard _ _) _ empty⟩
  · have ran : succeeds (MetropolisHastings.run 9 ⟨2⟩ coinFlip .root default context) = true := by
      decide +kernel
    obtain ⟨inference, c, ran⟩ := exists_of_succeeds ran
    exact ⟨inference, c, ran, (runs 9 context inference c).1 _ ran⟩
  · have ran : succeeds (ParticleFilter.run 9 { particles := 2 } coinFlip .root default context) =
        true := by
      decide +kernel
    obtain ⟨inference, c, ran⟩ := exists_of_succeeds ran
    exact ⟨inference, c, ran, (runs 9 context inference c).2.1 _ ran⟩
  · have ran : succeeds (RejuvenatingFilter.run 9 { particles := 2, steps := 2, collectAll := true }
        coinFlip .root default context) = true := by
      decide +kernel
    obtain ⟨inference, c, ran⟩ := exists_of_succeeds ran
    exact ⟨inference, c, ran, (runs 9 context inference c).2.2.1 _ ran⟩
  · have ran : succeeds (AsyncSmc.run 9 { particles := 2, bufferSize := 1 } coinFlip .root default
        context) = true := by
      decide +kernel
    obtain ⟨inference, c, ran⟩ := exists_of_succeeds ran
    obtain ⟨e, _, _, accounts⟩ := (runs 9 context inference c).2.2.2 _ ran
    exact ⟨inference, c, e, ran, accounts⟩
  · let e : AsyncSmc := .initial { particles := 1, bufferSize := 1 } (twoCoins.entry .root) default ⟨1⟩
    have budgeted : AsyncSmc.Budgeted { particles := 1, bufferSize := 1 } twoCoins .root default 1
        (finalState (AsyncSmc.drive 9 ⟨e, quietContext "async-smc"⟩)).engine :=
      .ran (.installed (c := context) rfl) 9 _
    have ran : succeeds (AsyncSmc.resume 9 2
        ⟨(finalState (AsyncSmc.drive 9 ⟨e, quietContext "async-smc"⟩)).engine, context⟩) = true := by
      decide +kernel
    obtain ⟨result, t, ran⟩ := exists_of_succeeds ran
    exact ⟨_, result, t, budgeted, ran, (resumes _ _ _ budgeted 9 2 context result t ran).2⟩
  · have ran : succeeds (rejuvenate 9 tossed none 2 none (quietContext "rejuvenation")) = true := by
      decide +kernel
    obtain ⟨r, c, ran⟩ := exists_of_succeeds ran
    exact ⟨r, c, ran, moves _ _ _ _ _ _ r c ran⟩
  · have failed : ∃ c, ParticleFilter.run 9 { particles := 1 } hollowDraw .root default context =
        .error (.failed (.emptyHistogram 0 0)) c := ⟨_, rfl⟩
    obtain ⟨c, failed⟩ := failed
    exact ⟨c, failed, (fails 9 context _ c empty).2.1 _ failed⟩

end Posterior
