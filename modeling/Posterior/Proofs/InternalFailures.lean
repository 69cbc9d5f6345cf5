import Posterior.Proofs.Conservation
import Posterior.Proofs.DistributionFailures
import Posterior.Proofs.PopulationFailures
import Posterior.Proofs.Ranges
import Posterior.Runner

/-!
Internal failures are unreachable. No run of an engine, and no resumption of an asynchronous one,
fails with a failure by which an engine reports on itself, unless a distribution of the program has
raised it; and the distributions of the library do not raise any.
-/

namespace Posterior

open Numeric

namespace AsyncSmc

variable {root : Step} {s t : Session AsyncSmc} {log : List Event} {id : HandlerId}

theorem launch_blameless (s : Session AsyncSmc) : Blameless root (launch s) := by
  obtain ⟨next, t, launched⟩ := launch_ok s
  exact .of_ok launched

theorem drop_ok (s : Session AsyncSmc) : ∃ next t, drop s = .ok next t :=
  launch_ok { s with engine := s.engine.countDrop }

theorem send_ok (p : AsyncParticle) (full : Bool) (s : Session AsyncSmc) :
    ∃ next t, send p full s = .ok next t := by
  cases full with
  | true => exact ⟨_, _, rfl⟩
  | false => exact launch_ok { s with engine :=
      { s.engine with buffer := s.engine.buffer ++ [p.settleWeight] } }

/-- What a particle gets at a factor cannot fail to be drawn. -/
theorem offspring_ok (e : AsyncSmc) (stats : FactorStats) (weight multiplicity : Float) (g : Rng) :
    ∃ o g', e.offspring stats weight multiplicity g = .ok o g' := by
  unfold offspring
  dsimp only
  split
  · rw [bind_ok (Draw.uniform_eq_ok.mpr ⟨rfl, rfl⟩)]
    split <;> exact ⟨_, _, rfl⟩
  · exact ⟨_, _, rfl⟩

/-- An arrival does not fail. -/
theorem arrival_ok (p : AsyncParticle) (index : Nat) (s : Session AsyncSmc) :
    ∃ next t, arrival p index s = .ok next t := by
  unfold arrival
  split
  · exact drop_ok s
  · rw [Run.engine_bind]
    cases s.engine.stats.get? index with
    | none => exact send_ok _ _ _
    | some stats =>
      obtain ⟨o, g, drawn⟩ := offspring_ok s.engine stats p.weight p.multiplicity s.context.rng
      change ∃ next t, (Run.draw _ >>= _ : Work Resume) s = .ok next t
      rw [bind_ok (Run.draw_ok drawn)]
      change ∃ next t, (if o.children = 0 then drop else send _ _ : Work Resume) _ = .ok next t
      split
      · exact drop_ok _
      · exact send_ok _ _ _

theorem arrival_blameless (p : AsyncParticle) (index : Nat) (s : Session AsyncSmc) :
    Blameless root (arrival p index s) := by
  obtain ⟨next, t, arrived⟩ := arrival_ok p index s
  exact .of_ok arrived

/-- Weights that cannot be shared out are no internal failure. -/
theorem excuses_ofHistogram {h : Histogram} {cause : Failure}
    (failed : Empirical.ofHistogram h = .error cause) : root.Excuses cause := by
  unfold Empirical.ofHistogram at failed
  split at failed
  · cases failed
  · cases failed
    refine fun internal => absurd internal ?_
    change "empty-histogram" ∉ Failure.internalCodes
    decide

theorem conclude_blameless (active : s.context.active?.map (·.id) = some s.engine.id) :
    Blameless root (conclude s) := by
  unfold conclude
  rw [Run.engine_bind]
  refine .leave active fun cause failed => ?_
  rcases except_bind_eq_error.mp failed with failed | ⟨_, _, failed⟩
  · exact excuses_ofHistogram failed
  · cases failed

/-- At every effect a particle is on the processor, so that it can take what comes of the effect. -/
theorem answer_blameless {next : Resume} (processor : OnProcessor root (.awaiting next) s.engine)
    (same : s.engine.id = id) (active : s.context.active?.map (·.id) = some id) :
    Blameless root ((handler id).answer next.invoke s) := by
  subst same
  obtain ⟨p, running, course⟩ := processor
  refine .answer active (fun _ _ => Step.meets_factorNaN.excuses) ?_
  cases effect : next.invoke with
  | sample choice deliver =>
    rw [effect] at course
    exact .bind (StopsOnly.choice course.unfolds).blameless fun _ _ _ => trivial
  | factor point resume =>
    intro _
    refine .bind ?_ fun q t _ => .bind (arrival_blameless _ _ t) fun _ _ _ => trivial
    unfold takeActive
    rw [Run.engine_bind, running]
    trivial
  | exit store value =>
    change Blameless root ((handler s.engine.id).method (.exit store value) s)
    rw [exit_of_active running]
    split
    · exact .bind (launch_blameless _) fun _ _ _ => trivial
    · exact .bind (conclude_blameless active) fun _ _ _ => trivial

/-- A session that is still where it was is still active. -/
theorem active_of_place (stays : place t = place s)
    (active : s.context.active?.map (·.id) = some s.engine.id) :
    t.context.active?.map (·.id) = some s.engine.id := by
  rw [Context.active?, show t.context.stack = s.context.stack from congrArg Place.stack stays]
  exact active

theorem drive_blameless (fuel : Nat) (accounted : Accounted root log .free s.engine)
    (active : s.context.active?.map (·.id) = some s.engine.id) :
    Blameless root (drive fuel s) := by
  by_cases left : s.engine.exited.length < s.engine.target
  · obtain ⟨next, t, launched⟩ := launch_ok s
    rw [drive_eq left launched]
    refine .drive trivial
      (P := fun next t => (∃ log, Reaches s log (.awaiting next) t) ∧ place t = place s) ?_ ?_
      ⟨⟨[], Reaches.start.launch left launched⟩, launch_place launched⟩
    · rintro next t next' t' ⟨⟨log, reached⟩, stays⟩ answered
      exact ⟨answer_leads reached answered, (resume_place answered).trans stays⟩
    · rintro next t ⟨⟨log, reached⟩, stays⟩
      exact answer_blameless (reached.accounted accounted).processor (congrArg Place.id stays)
        (active_of_place stays active)
  · unfold drive
    rw [Run.engine_bind, if_pos (Nat.not_lt.mp left)]
    exact conclude_blameless active

/-- The engines that have come to a result, in a first run or in a resumption after it. -/
inductive Resumable (config : AsyncConfig) (program : Program) (address : Address) (store : Store) :
    AsyncSmc → Prop where
  | ran {e : AsyncSmc} {c c' : Context} {fuel : Nat} {result : Empirical} {t : Session AsyncSmc}
      (ready : install config program address store c = .ok e c')
      (ran : drive fuel ⟨e, c'⟩ = .ok result t) : Resumable config program address store t.engine
  | resumed {e : AsyncSmc} {c : Context} {fuel extra : Nat} {result : Empirical}
      {t : Session AsyncSmc} (before : Resumable config program address store e)
      (ran : resume fuel extra ⟨e, c⟩ = .ok result t) :
      Resumable config program address store t.engine

theorem drive_accounted {fuel : Nat} {result : Empirical}
    (accounted : Accounted root log .free s.engine) (ran : drive fuel s = .ok result t) :
    ∃ log, Accounted root log .free t.engine := by
  obtain ⟨log', r, reached, _, same, _⟩ := drive_leads ran
  exact ⟨_, same ▸ reached.accounted accounted⟩

theorem Resumable.accounted {config : AsyncConfig} {program : Program} {address : Address}
    {store : Store} {e : AsyncSmc} (h : Resumable config program address store e) :
    ∃ log, Accounted (program store address) log .free e := by
  induction h with
  | ran ready ran => exact drive_accounted (install_accounted ready) ran
  | @resumed e c fuel extra result t before ran ih =>
    obtain ⟨log, accounted⟩ := ih
    cases extra with
    | zero =>
      rw [resume_zero] at ran
      cases ran
    | succ extra =>
      rw [resume_eq extra.succ_pos] at ran
      exact drive_accounted (accounted.raised _ _) ran

theorem resume_blameless (fuel extra : Nat) {e : AsyncSmc} (c : Context)
    (accounted : Accounted root log .free e) : Blameless root (resume fuel extra ⟨e, c⟩) := by
  cases extra with
  | zero =>
    rw [resume_zero]
    exact meets_zeroCount.excuses
  | succ extra =>
    rw [resume_eq extra.succ_pos]
    exact drive_blameless fuel (accounted.raised _ _) rfl

theorem validate_excuses {config : AsyncConfig} {cause : Failure}
    (failed : config.validate = .error cause) : root.Excuses cause := by
  rcases except_bind_eq_error.mp failed with failed | ⟨_, _, failed⟩
  · exact (meets_requirePositive failed).excuses
  · exact (meets_requirePositive failed).excuses

theorem run_blameless (fuel : Nat) (config : AsyncConfig) (program : Program) (address : Address)
    (store : Store) (c : Context) :
    Blameless (program store address) (run fuel config program address store c) := by
  refine .bind ?_ fun engine r installed => ?_
  · exact .bind (.inContext_ofExcept fun cause failed => validate_excuses failed)
      fun _ _ _ => .bind trivial fun _ _ _ => trivial
  · have accounted := install_accounted installed
    obtain ⟨_, rfl, rfl⟩ := install_eq_ok.mp installed
    exact .bind (.inContext (drive_blameless fuel accounted rfl)) fun _ _ _ => trivial

end AsyncSmc

theorem Algorithm.runWith_blameless (a : Algorithm) (fuel : Nat) (program : Program)
    (address : Address) (store : Store) (c : Context) :
    Blameless (program store address) (a.runWith fuel program address store c) := by
  refine .bind (.inContext_ofExcept fun cause failed => ?_) fun _ r _ => ?_
  · cases a with
    | metropolis config => exact (meets_requirePositive failed).excuses
    | filter config => exact (meets_requirePositive failed).excuses
    | rejuvenation config => exact (meets_requirePositive failed).excuses
    | async config => exact AsyncSmc.validate_excuses failed
  · cases a with
    | metropolis config => exact MetropolisHastings.run_blameless fuel config program address store r
    | filter config => exact ParticleFilter.run_blameless fuel config program address store r
    | rejuvenation config =>
      exact RejuvenatingFilter.run_blameless fuel config program address store r
    | async config => exact AsyncSmc.run_blameless fuel config program address store r

/-- No run of the program by an engine, with whatever parameters and in whatever context, and no
resumption of an engine that has come to a result, fails with an internal failure, unless one of the
program's own distributions has raised it; and those of the library raise none. Whatever is drawn by
index is drawn over a range that is not empty, and is found: the entry that a proposal makes anew,
the item of a list, the parent of a particle, the particle that is launched. No more copies of
particles are kept than there are places. At every effect it is the turn of a particle that is there
and still running. No chain records more steps than it was asked for, and whenever a step of a move
is settled there is one to be taken off those that are left. -/
theorem internal_failures_unreachable (program : Program) (address : Address) (store : Store) :
    let root := program store address
    (∀ fuel context,
      (∀ config, Blameless root
        (MetropolisHastings.run fuel config program address store context)) ∧
      (∀ config, Blameless root (ParticleFilter.run fuel config program address store context)) ∧
      (∀ config, Blameless root
        (RejuvenatingFilter.run fuel config program address store context)) ∧
      (∀ config, Blameless root (AsyncSmc.run fuel config program address store context)) ∧
      (∀ algorithm : Algorithm,
        Blameless root (algorithm.runWith fuel program address store context)) ∧
      ∀ config e, AsyncSmc.Resumable config program address store e →
        ∀ extra, Blameless root (AsyncSmc.resume fuel extra ⟨e, context⟩)) ∧
    (root.DrawsStandard → ∀ cause : Failure, cause.Internal → ¬ root.Raises cause) ∧
    (∀ g, (∀ c : Chain, c.Regenerates g) ∧ (∀ params, Distribution.PicksItem params g) ∧
      ∀ (n : Nat) (weights : Vector Float n) pos, Resampling.Draws weights pos g) ∧
    (∀ s, AsyncSmc.Launches s) ∧
    (∀ (n : Nat) mean (weights : Vector Float n), (Resampling.kept mean weights).length ≤ n) ∧
    (∀ (n : Nat) (pos : 0 < n) (context : Context),
      (∀ task next r,
        let s₀ : Session (ParticleFilter n) := ⟨.start pos (program.entry address) store, context⟩
        (ParticleFilter.handler task).Passes s₀.engine.population.resumeCurrent s₀ next r →
          r.engine.population.HasTurn) ∧
      ∀ task next r,
        let s₀ : Session (RejuvenatingFilter n) :=
          ⟨.start pos (program.entry address) store, context⟩
        (RejuvenatingFilter.handler task).Passes s₀.engine.population.resumeCurrent s₀ next r →
          r.engine.population.HasTurn) ∧
    (∀ id iterations context, 0 < iterations →
      let task : MetropolisHastings.Task :=
        { id, entry := program.entry address, store, iterations }
      (∀ first r next s, MetropolisHastings.start task ⟨{}, context⟩ = .ok first r →
        (MetropolisHastings.handler task).Passes first r next s →
        ∃ origin, MetropolisHastings.Reaches task context origin (.awaiting next) s) ∧
      ∀ origin moment s, MetropolisHastings.Reaches task context origin moment s →
        MetropolisHastings.Counted iterations moment s.engine) ∧
    ∀ task steps (s₀ : Session Mover), s₀.engine.proposals = 0 →
      (∀ first r next s, Mover.advance task steps s₀ = .ok (some first) r →
        (Mover.handler task).Passes first r next s →
        ∃ origin, Mover.Reaches task steps s₀ (.awaiting origin next) s) ∧
      (∀ moment s, Mover.Reaches task steps s₀ moment s → Mover.Counted steps moment s.engine) ∧
      ∀ fuel t, Mover.take task fuel steps s₀ = .ok () t → t.engine.proposals = steps := by
  intro root
  refine ⟨?_, ?_, ?_, AsyncSmc.launches, ?_, ?_, ?_, ?_⟩
  · intro fuel context
    refine ⟨fun config => MetropolisHastings.run_blameless fuel config program address store context,
      fun config => ParticleFilter.run_blameless fuel config program address store context,
      fun config => RejuvenatingFilter.run_blameless fuel config program address store context,
      fun config => AsyncSmc.run_blameless fuel config program address store context,
      fun algorithm => algorithm.runWith_blameless fuel program address store context, ?_⟩
    intro config e resumable extra
    obtain ⟨log, accounted⟩ := resumable.accounted
    exact AsyncSmc.resume_blameless fuel extra context accounted
  · exact fun standard cause internal => standard.not_raises internal
  · exact fun g => ⟨fun c => c.regenerates g, fun params => Distribution.picksItem params g,
      fun n weights pos => Resampling.draws weights pos g⟩
  · exact fun n mean weights => Resampling.length_kept_le mean weights
  · intro n pos context
    refine ⟨fun task next r => ?_, fun task next r => ?_⟩
    · intro s₀ passes
      exact (ParticleFilter.passes_leads passes).hasTurn
        (ParticleFilter.start_opened pos (program.entry address) store)
        (Population.start_acting pos (program.entry address) store)
    · intro s₀ passes
      exact (RejuvenatingFilter.passes_leads passes).hasTurn
        (RejuvenatingFilter.start_holds pos (program.entry address) store)
  · intro id iterations context pos task
    exact ⟨fun first r next s began passes => MetropolisHastings.passes_leads began passes,
      fun origin moment s reached => reached.counted pos⟩
  · intro task steps s₀ fresh
    exact ⟨fun first r next s began passes => Mover.passes_leads began passes,
      fun moment s reached => reached.counted fresh,
      fun fuel t taken => Mover.take_proposals fresh taken⟩

/-- Flips a fair coin of the library and weighs the outcome. -/
def fairCoin : Program := fun store address =>
  sample store address .bernoulli [.real 0.5] fun store value =>
    factor store address (-2) fun store => exit store value

theorem fairCoin_standard (store : Store) (address : Address) :
    (fairCoin store address).DrawsStandard := by
  have course {step : Step} (h : (fairCoin store address).Unfolds step) :
      step = fairCoin store address ∨
        (∃ store value, step = factor store address (-2) fun store => exit store value) ∨
        ∃ store value, step = exit store value := by
    induction h with
    | here => exact .inl rfl
    | choose before value ih =>
      obtain same | ⟨_, _, same⟩ | ⟨_, _, same⟩ := ih <;> cases same
      exact .inr (.inl ⟨_, _, rfl⟩)
    | pass before ih =>
      obtain same | ⟨_, _, same⟩ | ⟨_, _, same⟩ := ih <;> cases same
      exact .inr (.inr ⟨_, _, rfl⟩)
  intro choice deliver there
  obtain same | ⟨_, _, same⟩ | ⟨_, _, same⟩ := course there <;> cases same
  exact .bernoulli

/-- The fair coin is flipped by an asynchronous engine with one particle, which comes to a result and
can be resumed; however that ends, it is not with an internal failure. The first particle of either
filter has its turn, a first step of a chain is about to be recorded, and two steps that find nothing
to move are both taken. -/
theorem fairCoin_blameless :
    (∃ e c result t,
      AsyncSmc.install { particles := 1, bufferSize := 1 } fairCoin .root default
        { rng := steadyRng 0 } = .ok e c ∧
      AsyncSmc.drive 9 ⟨e, c⟩ = .ok result t ∧
      ∀ fuel extra context cause r,
        AsyncSmc.resume fuel extra ⟨t.engine, context⟩ = .error (.failed cause) r →
          ¬ cause.Internal) ∧
    (Population.start Nat.one_pos (fairCoin.entry .root) default).HasTurn ∧
    (∃ next s, MetropolisHastings.start
        { id := ⟨1⟩, entry := fairCoin.entry .root, store := default, iterations := 1 }
        ⟨{}, quietContext "mh"⟩ = .ok next s ∧
      MetropolisHastings.Counted 1 (.awaiting next) s.engine) ∧
    ∃ t, Mover.take ⟨⟨1⟩, 0, none⟩ 9 2 ⟨default, quietContext "rejuvenator"⟩ = .ok () t ∧
      t.engine.proposals = 2 := by
  obtain ⟨blameless, raises, _, _, _, turns, chains, moves⟩ :=
    internal_failures_unreachable fairCoin .root default
  refine ⟨?_, ?_, ?_, ?_⟩
  · let e : AsyncSmc := .initial { particles := 1, bufferSize := 1 } (fairCoin.entry .root) default ⟨1⟩
    have ready : AsyncSmc.install { particles := 1, bufferSize := 1 } fairCoin .root default
        { rng := steadyRng 0 } = .ok e (quietContext "async-smc") := rfl
    have ran : succeeds (AsyncSmc.drive 9 ⟨e, quietContext "async-smc"⟩) = true := by
      decide +kernel
    obtain ⟨result, t, ran⟩ := exists_of_succeeds ran
    refine ⟨e, _, result, t, ready, ran, fun fuel extra context cause r failed internal => ?_⟩
    obtain ⟨_, _, _, _, _, resumed⟩ := blameless fuel context
    exact raises (fairCoin_standard default .root) cause internal
      ((resumed _ t.engine (.ran ready ran) extra).error failed internal)
  · exact (turns 1 Nat.one_pos (quietContext "particle-filter")).1 ⟨⟨1⟩, true⟩ _ _ .start
  · exact ⟨_, _, rfl, (chains ⟨1⟩ 1 (quietContext "mh") Nat.one_pos).2 none _ _ (.start rfl)⟩
  · have taken : succeeds (Mover.take ⟨⟨1⟩, 0, none⟩ 9 2
        ⟨default, quietContext "rejuvenator"⟩) = true := by
      decide +kernel
    obtain ⟨_, t, taken⟩ := exists_of_succeeds taken
    exact ⟨t, taken, (moves _ 2 _ rfl).2.2 9 t taken⟩

end Posterior
