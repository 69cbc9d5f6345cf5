import Posterior.Proofs.Blame
import Posterior.Proofs.ChainEquivalence
import Posterior.Proofs.Restoration
import Posterior.Proofs.Rounding

/-!
Failures of chains. A proposal finds the entry that it picks, the engine of a chain is active at
every effect, and whenever a step is recorded the chain holds a value; what is left to fail is what
the distributions of the program raise, addresses that come up twice, and chances that are NaN.
-/

namespace Posterior

open Numeric

section
variable {root : Step} {cause : Failure} {choice : Choice} {deliver : Delivery} {value : Value}

/-- A score that is NaN is an ordinary failure. -/
theorem meets_ensureScore {x : Float}
    (failed : ensureNumber "score-nan" "choice score" x = .error cause) : root.Meets cause := by
  unfold ensureNumber at failed
  split at failed
  · cases failed
    refine .inr ?_
    change "score-nan" ∈ Failure.ordinaryCodes
    decide
  · cases failed

theorem Step.Unfolds.meets_score (h : root.Unfolds (.sample choice deliver))
    (failed : (choice.dist.score choice.params value >>= ensureNumber "score-nan" "choice score") =
      .error cause) : root.Meets cause := by
  cases hs : choice.dist.score choice.params value with
  | error raised =>
    rw [hs] at failed
    cases failed
    exact .inl (h.raises (.score hs))
  | ok x =>
    rw [hs] at failed
    exact meets_ensureScore failed

theorem meets_zeroCount {field : String} {algorithm : Option String} :
    root.Meets (.zeroCount field algorithm) := by
  refine .inr ?_
  cases algorithm <;> change "zero-count" ∈ Failure.ordinaryCodes <;> decide

theorem meets_requirePositive {field : String} {count : Nat}
    (failed : requirePositive field count = .error cause) : root.Meets cause := by
  unfold requirePositive at failed
  split at failed
  · cases failed
    exact meets_zeroCount
  · cases failed

theorem meets_push {t : Trace} {e : Entry} (failed : t.push e = .error cause) :
    root.Meets cause := by
  unfold Trace.push at failed
  split at failed
  · cases failed
  · cases failed
    refine .inr ?_
    change "duplicate-address" ∈ Failure.ordinaryCodes
    decide

theorem meets_splice {t tail : Trace} {n : Nat} (failed : t.splice n tail = .error cause) :
    root.Meets cause := by
  unfold Trace.splice at failed
  generalize t.take n = u at failed
  generalize tail.entries = es at failed
  induction es generalizing u with
  | nil => cases failed
  | cons e es ih =>
    rw [List.foldlM_cons] at failed
    cases hp : u.push e with
    | ok v =>
      rw [hp] at failed
      exact ih v failed
    | error raised =>
      rw [hp] at failed
      cases failed
      exact meets_push hp

end

namespace Chain

variable {α : Type} {root : Step} {c : Chain} {g : Rng} {s : Chain × Rng} {choice : Choice}
  {deliver : Delivery}

theorem draw_stops {d : Draw α}
    (h : ∀ cause g, d s.2 = .error cause g → root.Meets cause) :
    StopsOnly root.Meets (draw d s) := by
  unfold draw
  cases hd : d s.2 with
  | ok a g => trivial
  | error cause g => exact h cause g hd

theorem ofExcept_stops {result : Except Failure α}
    (h : ∀ cause, result = .error cause → root.Meets cause) :
    StopsOnly root.Meets (ofExcept result s) := by
  cases result with
  | ok a => trivial
  | error cause => exact h cause rfl

theorem record_stops {value : Value} {previous : Option Entry} {forced : Bool}
    (there : root.Unfolds (.sample choice deliver)) :
    StopsOnly root.Meets (record choice deliver value previous forced s) := by
  refine .bind trivial fun c _ _ => .bind ?_ fun x _ _ => .bind ?_ fun t _ _ => ?_
  · exact ofExcept_stops fun cause failed => there.meets_score failed
  · exact ofExcept_stops fun cause failed => meets_push failed
  · refine .bind trivial fun _ _ _ => ?_
    split <;> trivial

/-- A choice fails as its distribution does, or at an address that has come up before. -/
theorem site_stops {forced : Bool} (there : root.Unfolds (.sample choice deliver)) :
    StopsOnly root.Meets (site choice deliver forced s) := by
  have drawn (r : Chain × Rng) :
      StopsOnly root.Meets (draw (choice.dist.draw choice.params) r) :=
    draw_stops fun cause g failed => .inl (there.raises (.draw failed))
  refine .bind trivial fun c _ _ => ?_
  cases c.previous? choice.address with
  | none => exact .bind (drawn _) fun value _ _ => record_stops there
  | some old =>
    cases forced with
    | false => exact record_stops there
    | true =>
      refine .bind (drawn _) fun value _ _ => ?_
      split
      · exact .bind trivial fun _ _ _ => .bind trivial fun _ _ _ => trivial
      · exact record_stops there

/-- A proposal finds the entry that it picks; it fails as the choice of the entry does. -/
theorem propose_stops
    (there : ∀ e ∈ c.trace.entries, root.Unfolds (.sample e.choice e.deliver)) :
    StopsOnly root.Meets (propose (c, g)) := by
  by_cases pos : 0 < c.trace.entries.length
  · obtain ⟨i, g₁, hd⟩ := Draw.below_ok pos g
    rw [propose_pick hd (List.getElem?_eq_getElem i.isLt)]
    exact site_stops (there _ (List.getElem_mem i.isLt))
  · rw [propose_nothing pos]
    trivial

/-- A decision fails only if its chance is NaN. -/
theorem decide_stops {frozen : Nat} {value : Option Value} :
    StopsOnly root.Meets (decide frozen value s) := by
  refine .bind trivial fun c _ _ => .bind (ofExcept_stops fun cause failed => ?_) fun chance _ _ =>
    .bind (draw_stops fun cause g failed => nomatch failed) fun u _ _ => ?_
  · refine .inr ?_
    unfold Chain.chance at failed
    split at failed
    · cases failed
    · unfold acceptProb at failed
      dsimp only at failed
      split at failed
      · cases failed
      · split at failed
        · cases failed
        · split at failed
          · cases failed
            change "acceptance-nan" ∈ Failure.ordinaryCodes
            decide
          · cases failed
  · by_cases hu : u < chance
    · rw [if_pos hu]
      exact .bind trivial fun _ _ _ => .bind trivial fun _ _ _ => trivial
    · rw [if_neg hu]
      exact .bind trivial fun _ _ _ => .bind trivial fun _ _ _ => trivial

/-- Without a previous execution the new one is always kept. -/
theorem decide_first {frozen : Nat} {value : Option Value} {accepted : Bool} {c' : Chain} {g' : Rng}
    (first : c.proposal = none) (h : decide frozen value (c, g) = .ok accepted (c', g')) :
    accepted = true ∧ c'.value = value := by
  obtain ⟨_, chance, hc, ⟨_, kept, rfl⟩ | ⟨hu, _, _⟩⟩ := decide_eq_ok h
  · exact ⟨kept, rfl⟩
  · unfold Chain.chance at hc
    rw [first] at hc
    cases hc
    exact absurd (uniform_lt_one g) hu

end Chain

namespace MetropolisHastings

variable {task : Task} {context : Context} {origin : Option Chain} {moment : Moment}
  {s : Session MetropolisHastings} {ending : Ending (Option Value)}

/-- Until a step is recorded or a proposal made, no step has been recorded. -/
theorem Reaches.unrecorded (h : Reaches task context none moment s) (before : moment ≠ .recorded) :
    s.engine.steps = 0 := by
  generalize ho : (none : Option Chain) = origin at h
  induction h with
  | start began => exact start_steps began
  | sample before effect site ih =>
    rw [onChain_steps site]
    exact ih nofun ho
  | factor before effect number passed ih =>
    subst passed
    exact ih nofun ho
  | exit before effect ih => exact ih nofun ho
  | @restart _ ending _ _ _ before impossible began ih =>
    rw [start_steps began]
    cases ending with
    | finished value => exact impossible.1
    | unchanged => exact impossible.elim
  | conclude before settled concluded ih => exact absurd rfl ‹_›
  | propose before left proposed ih => cases ho

/-- An execution that ends without a value has become impossible. -/
theorem Reaches.impossible (h : Reaches task context origin (.ended (.finished none)) s) :
    (s.engine.chain.score == negInf) = true := by
  generalize hm : Moment.ended (.finished none) = m at h
  cases h with
  | start began => cases hm
  | @sample _ _ _ _ _ _ progress before effect site =>
    obtain ⟨c, g, hs, rfl⟩ := onChain_eq_ok.mp site
    cases progress with
    | halted =>
      obtain ⟨_, _, hz⟩ := Chain.site_halted hs
      exact hz
    | resume next => cases hm
    | unchanged => cases hm
  | factor before effect number passed =>
    unfold Moment.afterFactor at hm
    split at hm
    · assumption
    · cases hm
  | exit before effect => cases hm
  | restart before impossible began => cases hm
  | conclude before settled concluded => cases hm
  | @propose _ progress _ _ before left proposed =>
    obtain ⟨c, g, hp, rfl⟩ := onChain_eq_ok.mp proposed
    rcases Chain.propose_outcome none hp with
      ⟨_, _, _, rfl, _⟩ | ⟨rfl, _, _, _, _, hz⟩ | ⟨rfl, _⟩
    · cases hm
    · exact hz
    · cases hm

/-- Whatever is decided about an execution that is settled, the chain holds a value afterwards. -/
theorem Reaches.decided {value : Option Value} {accepted : Bool} {c : Chain} {g : Rng}
    (h : Reaches task context origin (.ended (.finished value)) s)
    (settled : ¬ Impossible s.engine (.finished value))
    (decided : Chain.decide 0 value (s.engine.chain, s.context.rng) = .ok accepted (c, g)) :
    ∃ kept, c.value = some kept := by
  have holds := h.holds
  cases value with
  | none =>
    cases origin with
    -- A first execution that is impossible starts again and is not settled.
    | none => exact absurd ⟨h.unrecorded nofun, h.impossible⟩ settled
    -- An impossible proposal is turned down, and the chain goes back to what it held.
    | some old =>
      obtain ⟨sound, i, g₀, picks, proposes⟩ := holds
      have valued := sound.valued
      obtain ⟨_, rfl⟩ := proposes.decide_impossible picks.lt valued.possible h.impossible decided
      obtain ⟨_, _, hv, _⟩ := proposes.rollBack
      rw [hv]
      exact valued.value
  | some value =>
    obtain ⟨store, standing⟩ := holds
    cases origin with
    -- A first execution is kept, since every number drawn is below its chance of one.
    | none => exact ⟨value, (Chain.decide_first standing.2.1 decided).2⟩
    | some old =>
      obtain ⟨sound, i, g₀, _, regenerating⟩ := standing
      have made : Chain.Regenerated none old i g₀ _ (some value) ⟨default, store⟩ :=
        .exit default regenerating rfl
      rcases made.decide decided with ⟨_, _, _, hv⟩ | ⟨_, _, _, hv⟩
      · exact ⟨value, hv⟩
      · rw [hv]
        exact sound.valued.value

theorem observe_admissible {root : Step} (valued : ∃ value, s.engine.chain.value = some value) :
    Admissible root (observe s) := by
  obtain ⟨value, hv⟩ := valued
  unfold observe
  rw [Run.engine_bind, hv]
  trivial

/-- Whenever a step is recorded the chain holds a value. -/
theorem conclude_admissible {root : Step} (h : Reaches task context origin (.ended ending) s)
    (settled : ¬ Impossible s.engine ending) : Admissible root (conclude ending s) := by
  cases ending with
  | unchanged =>
    have sound : Sound _ s.engine.chain := h.holds
    refine .modifyEngine (.modifyEngine ?_)
    exact observe_admissible sound.valued.value
  | finished value =>
    refine .bind (.within Chain.decide_stops) fun accepted t ran => ?_
    obtain ⟨c, g, decided, rfl⟩ := onChain_eq_ok.mp ran
    have valued := h.decided settled decided
    cases accepted with
    | false =>
      refine .modifyEngine ?_
      exact observe_admissible valued
    | true =>
      refine .modifyEngine ?_
      refine .modifyEngine ?_
      exact observe_admissible valued

theorem Standing.unfolds {root step : Step} {r : Chain × Rng} (h : Standing root origin r step) :
    root.Unfolds step :=
  h.replay.unfolds

theorem Sound.unfolds {root : Step} {c : Chain} (h : Sound root c) {e : Entry}
    (he : e ∈ c.trace.entries) : root.Unfolds (.sample e.choice e.deliver) := by
  obtain ⟨_, _, replay, _⟩ := h
  exact replay.unfolds_entry he

/-- A recorded step has been observed, so that there is a distribution of the steps so far. -/
theorem Reaches.distribution (h : Reaches task context origin .recorded s) :
    ∃ d, Empirical.ofHistogram s.engine.histogram = .ok d := by
  obtain ⟨values, histogram, length⟩ := h.tallied.observed
  have pos : 0 < values.length := length ▸ recorded_steps_pos h
  rw [histogram]
  exact Empirical.ofHistogram_observeAll (List.ne_nil_of_length_pos pos)

/-- A run that has recorded a step can make its result. -/
theorem finish_admissible {root : Step} (h : Reaches task context origin .recorded s)
    (active : s.context.active?.map (·.id) = some task.id) : Admissible root (finish task s) := by
  obtain ⟨d, made⟩ := h.distribution
  unfold finish
  rw [Run.engine_bind]
  exact .leave_with active made

section
variable (active : context.active?.map (·.id) = some task.id)
include active

theorem advance_admissible {left : Nat} (h : Reaches task context origin .recorded s)
    (hl : left = task.iterations - s.engine.steps) :
    Admissible (task.entry task.store) (advance task left s) := by
  induction left generalizing s origin with
  | zero => exact finish_admissible h (h.still active)
  | succ left ih =>
    have sound : Sound _ s.engine.chain := h.holds
    refine .bind (.within (Chain.propose_stops fun e he => sound.unfolds he))
      fun progress t ran => ?_
    have hm := h.propose (by omega) ran
    have steps := onChain_steps ran
    have pos := recorded_steps_pos h
    have goesOn {ending : Ending (Option Value)}
        (hm : Reaches task context (some s.engine.chain) (.ended ending) t) :
        Admissible (task.entry task.store) ((do conclude ending; advance task left) t) := by
      -- A step has been recorded, so no execution starts again any more.
      have settled : ¬ Impossible t.engine ending := fun impossible => by
        cases ending with
        | finished value =>
          have := impossible.1
          omega
        | unchanged => exact impossible
      refine .bind (conclude_admissible hm settled) fun _ r concluded => ?_
      have := conclude_steps concluded
      exact ih (hm.conclude settled concluded) (by omega)
    cases progress with
    | resume next => trivial
    | halted => exact goesOn hm
    | unchanged => exact goesOn hm

theorem settle_admissible (h : Reaches task context origin (.ended ending) s) :
    Admissible (task.entry task.store) (settle task ending s) := by
  by_cases hi : Impossible s.engine ending
  · cases ending with
    | unchanged => exact hi.elim
    | finished value =>
      have hz : (decide (s.engine.steps = 0) && s.engine.chain.score == negInf) = true := by
        simpa [Impossible] using hi
      unfold settle
      rw [Run.engine_bind]
      simp only [hz, ↓reduceIte]
      exact .bind trivial fun _ _ _ => trivial
  · rw [settle_eq hi]
    refine .bind (conclude_admissible h hi) fun _ t concluded => ?_
    exact advance_admissible active (h.conclude hi concluded) rfl

/-- No effect of the program leads to a failure that is not admitted. -/
theorem answer_admissible {next : Resume} (h : Reaches task context origin (.awaiting next) s) :
    Admissible (task.entry task.store) ((handler task).answer next.invoke s) := by
  have there : (task.entry task.store).Unfolds next.invoke := Standing.unfolds h.holds
  refine .answer (h.still active) (fun _ _ => Step.meets_factorNaN) ?_
  cases effect : next.invoke with
  | sample choice deliver =>
    rw [effect] at there
    refine .bind (.within (Chain.site_stops there)) fun progress t ran => ?_
    have hm := h.sample effect ran
    cases progress with
    | resume next => trivial
    | halted => exact settle_admissible active hm
    | unchanged => exact settle_admissible active hm
  | factor point resume =>
    intro number
    have hm := h.factor effect number rfl
    unfold Moment.afterFactor at hm
    refine .modifyEngine ?_
    rw [Run.engine_bind]
    split at hm <;> rename_i hz
    · rw [if_pos hz]
      exact settle_admissible active hm
    · rw [if_neg hz]
      trivial
  | exit store value => exact settle_admissible active (h.exit effect)

end

theorem run_admissible (fuel : Nat) (config : MetropolisConfig) (program : Program)
    (address : Address) (store : Store) (c : Context) :
    Admissible (program store address) (run fuel config program address store c) := by
  unfold run
  refine .bind ?_ fun task r installed => ?_
  · exact .bind (.inContext_ofExcept fun cause failed =>
      meets_requirePositive failed) fun _ _ _ => trivial
  · unfold install at installed
    simp only [bind_eq_ok, InContext.ofExcept_eq_ok, InContext.install_eq_ok, pure_eq_ok] at installed
    obtain ⟨_, _, _, _, _, ⟨rfl, rfl⟩, rfl, rfl⟩ := installed
    refine .bind (.inContext (.bind trivial fun next t began => ?_)) fun _ _ _ => trivial
    refine .drive trivial
      (P := fun next t => ∃ origin, Reaches _ _ origin (.awaiting next) t) ?_ ?_ ⟨none, .start began⟩
    · rintro next t next' t' ⟨origin, reached⟩ answered
      exact answer_leads reached answered
    · rintro next t ⟨origin, reached⟩
      exact answer_admissible rfl reached

theorem run_blameless (fuel : Nat) (config : MetropolisConfig) (program : Program)
    (address : Address) (store : Store) (c : Context) :
    Blameless (program store address) (run fuel config program address store c) :=
  (run_admissible fuel config program address store c).blameless

end MetropolisHastings

namespace Mover

variable {root : Step} {task : Task} {steps : Nat} {s₀ s : Session Mover} {moment : Moment}
  {b : Point}

theorem Reaches.stack (h : Reaches task steps s₀ moment s) : s.context.stack = s₀.context.stack := by
  induction h with
  | start => rfl
  | propose before proposed ih => exact ((steady_onChain _).of_ok proposed).trans ih
  | sample before effect site ih => exact ((steady_onChain _).of_ok site).trans ih
  | factor before effect number passed ih =>
    subst passed
    exact ih
  | exit before effect ih => exact ih
  | conclude before concluded ih => exact ((steady_conclude task _).of_ok concluded).trans ih

theorem Sound.unfolds {limit : Option Nat} {c : Chain} {frontier : Frontier}
    (h : Sound b limit c frontier) (there : root.Unfolds b.step) {e : Entry}
    (he : e ∈ c.trace.entries) : root.Unfolds (.sample e.choice e.deliver) := by
  obtain ⟨_, replay, _⟩ := h.complete
  exact there.trans (replay.unfolds_entry he)

theorem conclude_admissible (task : Task) (ending : Ending Outcome) (s : Session Mover) :
    Admissible root (conclude task ending s) := by
  cases ending with
  | unchanged => exact .bind trivial fun _ _ _ => trivial
  | finished outcome =>
    refine .bind (.within Chain.decide_stops) fun accepted t _ => ?_
    cases accepted with
    | false => trivial
    | true => exact .bind trivial fun _ _ _ => trivial

section
variable (sound : Sound b task.limit s₀.engine.chain s₀.engine.frontier)
  (there : root.Unfolds b.step)
include sound there

theorem advance_admissible {left : Nat} (h : Reaches task steps s₀ (.settled left) s) :
    Admissible root (advance task left s) := by
  induction left generalizing s with
  | zero => trivial
  | succ left ih =>
    have held : Sound b task.limit s.engine.chain s.engine.frontier := h.holds sound
    refine .modifyEngine ?_
    refine .bind (.within (Chain.propose_stops fun e he => held.unfolds there he))
      fun progress t ran => ?_
    have hm := h.propose ran
    have hk : t.engine.remaining = left := by
      obtain ⟨c, g, _, rfl⟩ := onChain_eq_ok.mp ran
      rfl
    cases progress with
    | resume next => trivial
    | halted => exact .bind (conclude_admissible ..) fun _ r concluded => ih (hk ▸ hm.conclude concluded)
    | unchanged =>
      exact .bind (conclude_admissible ..) fun _ r concluded => ih (hk ▸ hm.conclude concluded)

variable (active : s₀.context.active?.map (·.id) = some task.id)
include active

theorem settle_admissible {origin : Chain} {ending : Ending Outcome}
    (h : Reaches task steps s₀ (.ended origin ending) s) :
    Admissible root (settle task ending s) := by
  refine .bind (conclude_admissible ..) fun _ r concluded => ?_
  rw [Run.engine_bind]
  have hm := h.conclude concluded
  obtain ⟨_, recorded⟩ := conclude_records concluded
  rw [← recorded.remaining] at hm
  refine .bind (advance_admissible sound there hm) fun pause t ran => ?_
  cases pause with
  | some next => trivial
  | none =>
    refine .bind (.restore ?_) fun _ _ _ => trivial
    rw [Context.active?, (steady_advance task _).of_ok ran, hm.stack]
    exact active

/-- No effect of the program leads to a failure that is not admitted. -/
theorem answer_admissible {origin : Chain} {next : Resume}
    (h : Reaches task steps s₀ (.awaiting origin next) s) :
    Admissible root ((handler task).answer next.invoke s) := by
  have still : s.context.active?.map (·.id) = some task.id := by
    rw [Context.active?, h.stack]
    exact active
  obtain ⟨⟨⟨_, replay, _⟩, _⟩, _, _, _, regenerating⟩ := h.holds sound
  have at_effect := there.trans (regenerating.replay (fun _ _ => rfl) replay).unfolds
  refine .answer still (fun _ _ => Step.meets_factorNaN) ?_
  cases effect : next.invoke with
  | sample choice deliver =>
    rw [effect] at at_effect
    refine .bind (.within (Chain.site_stops at_effect)) fun progress t ran => ?_
    have hm := h.sample effect ran
    cases progress with
    | resume next => trivial
    | halted => exact settle_admissible sound there active hm
    | unchanged => exact settle_admissible sound there active hm
  | factor point resume =>
    intro number
    have hm := h.factor effect number rfl
    unfold Moment.afterFactor at hm
    refine .modifyEngine ?_
    rw [Run.engine_bind]
    split at hm <;> rename_i hz
    · rw [if_pos hz]
      exact settle_admissible sound there active hm
    · rw [if_neg hz]
      split at hm <;> rename_i hl
      · rw [if_pos hl]
        exact settle_admissible sound there active hm
      · rw [if_neg hl]
        trivial
  | exit store value =>
    have hm := h.exit effect
    unfold Moment.afterExit leave at hm
    change Admissible root ((if task.limit.isSome then _ else _ : Run Mover _) s)
    by_cases hl : task.limit.isSome
    · rw [if_pos hl]
      rw [if_pos hl, if_pos hl] at hm
      refine .modifyEngine ?_
      exact settle_admissible sound there active hm
    · rw [if_neg hl]
      rw [if_neg hl, if_neg hl] at hm
      exact settle_admissible sound there active hm

theorem take_admissible (fuel : Nat) : Admissible root (take task fuel steps s₀) := by
  refine .bind (.guarding (advance_admissible sound there .start)) fun pause t ran => ?_
  have ran := Run.guarding_eq_ok.mp ran
  have hp := advance_pauses .start ran
  cases pause with
  | none =>
    refine .restore ?_
    rw [Context.active?, hp.stack]
    exact active
  | some next =>
    refine .drive trivial
      (P := fun next t => ∃ origin, Reaches task steps s₀ (.awaiting origin next) t) ?_ ?_ hp
    · rintro next t next' t' ⟨origin, reached⟩ answered
      exact answer_leads reached answered
    · rintro next t ⟨origin, reached⟩
      exact answer_admissible sound there active reached

end

end Mover

theorem rejuvenate_admissible {root : Step} {p : Particle} (h : p.Describes root)
    (fuel steps : Nat) (histogram : Option Histogram) (c : Context) :
    Admissible root (rejuvenate fuel p p.limit steps histogram c) := by
  unfold rejuvenate
  by_cases hm : p.movable steps = true
  · rw [if_neg (by simp [hm])]
    refine .bind trivial fun id r installed => ?_
    obtain ⟨rfl, rfl⟩ := InContext.install_eq_ok.mp installed
    obtain ⟨b, hb, sound⟩ := h.base hm
    refine .bind (.inContext ?_) fun _ _ _ => ?_
    · exact Mover.take_admissible sound hb.unfolds rfl fuel
    · exact .bind (.inContext_ofExcept fun cause failed => meets_splice failed)
        fun _ _ _ => trivial
  · rw [if_pos (by simp [hm])]
    trivial

end Posterior
