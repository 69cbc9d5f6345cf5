import Posterior.Proofs.Conservation
import Posterior.Proofs.MetropolisRuns
import Posterior.Proofs.MoverRuns
import Posterior.Proofs.WeightsInFlight

/-!
Where NaN gets through. The score of a chain becomes NaN only once an infinite score has been
reached, and then stops every decision that depends on it. Asynchronous particles may come to weights
that are not numbers once infinity has arrived at a factor, but none of them is among those a result is
made of.
-/

namespace Posterior

open Numeric

namespace Chain

/-- A score that has not come to positive infinity, and the choices before it, each of which was met
at a finite score. -/
structure Tame (score : Float) (trace : Trace) : Prop where
  number : score.isNaN = false
  bounded : (score == posInf) = false
  entries : ∀ e ∈ trace.entries, e.scoreBefore.isFinite = true

/-- Neither the execution of the chain nor the one that it may replace has come to positive
infinity. -/
structure Clean (c : Chain) : Prop where
  current : Tame c.score c.trace
  previous : ∀ p, c.proposal = some p → Tame p.score p.trace

variable {c c' : Chain} {g g' : Rng}

theorem Clean.rollBack (h : c.Clean) : c.rollBack.Clean := by
  unfold Chain.rollBack
  split
  · rename_i p hp
    exact ⟨h.previous p hp, fun _ hq => nomatch hq⟩
  · exact h

/-- What an execution goes on with: a clean chain whose score is finite. -/
structure Running (c : Chain) : Prop extends c.Clean where
  finite : c.score.isFinite = true

/-- A clean chain, whose score is finite if the execution goes on. -/
structure Bounded (goesOn : Prop) (c : Chain) : Prop where
  clean : c.Clean
  running : goesOn → c.Running

/-- Unless its score has come to positive infinity, the chain is bounded. -/
def Checked (goesOn : Prop) (c : Chain) : Prop := (c.score == posInf) = true ∨ c.Bounded goesOn

theorem Bounded.imp {goesOn goesOn' : Prop} (h : c.Bounded goesOn) (on : goesOn' → goesOn) :
    c.Bounded goesOn' :=
  ⟨h.clean, fun h' => h.running (on h')⟩

theorem Clean.halted {goesOn : Prop} (h : c.Clean) (halted : ¬ goesOn) : c.Bounded goesOn :=
  ⟨h, fun on => absurd on halted⟩

/-- A number that is added to a finite score leaves it a number. -/
theorem checked_of_add {goesOn : Prop} {score x : Float} (hs : score.isFinite = true)
    (hx : x.isNaN = false) (sum : c.score = score + x)
    (entries : ∀ e ∈ c.trace.entries, e.scoreBefore.isFinite = true)
    (previous : ∀ p, c.proposal = some p → Tame p.score p.trace)
    (on : goesOn → (c.score == negInf) = false) : c.Checked goesOn := by
  have number : c.score.isNaN = false := by
    rw [sum]
    exact finite_add hs hx
  cases hp : c.score == posInf with
  | true => exact .inl hp
  | false =>
    have clean : c.Clean := ⟨⟨number, hp, entries⟩, previous⟩
    exact .inr ⟨clean, fun h => ⟨clean, finite_of_number number hp (on h)⟩⟩

theorem Proposal.count_execution (p : Proposal) (x : Float) (previous : Option Entry)
    (forced : Bool) :
    (p.count x previous forced).score = p.score ∧ (p.count x previous forced).trace = p.trace := by
  unfold Proposal.count
  split <;> exact ⟨rfl, rfl⟩

theorem Running.extends {goesOn : Prop} {e : Entry} {forced : Bool} (h : c.Running)
    (extended : c.Extends e forced c') (on : goesOn → (c'.score == negInf) = false) :
    c'.Checked goesOn := by
  refine checked_of_add h.finite extended.number extended.score_eq ?_ ?_ on
  · intro e' he
    rw [extended.entries] at he
    rcases List.mem_append.mp he with he | he
    · exact h.current.entries e' he
    · obtain rfl := List.mem_singleton.mp he
      rw [extended.scoreBefore]
      exact h.finite
  · intro p hp
    rw [extended.proposal_eq, Option.map_eq_some_iff] at hp
    obtain ⟨q, hq, rfl⟩ := hp
    obtain ⟨score, trace⟩ := Proposal.count_execution q e.choiceScore (c.previous? e.address) forced
    rw [score, trace]
    exact h.previous q hq

/-- Whether the execution goes on from a choice. -/
def Resumes (progress : Progress) : Prop := ∃ next, progress = .resume next

theorem Running.site {choice : Choice} {deliver : Delivery} {forced : Bool} {progress : Progress}
    (h : c.Running) (met : site choice deliver forced (c, g) = .ok progress (c', g')) :
    c'.Checked (Resumes progress) := by
  rcases site_eq_ok.mp met with ⟨e, _, _, _, extended, rfl⟩ | ⟨_, rfl, rfl, _⟩
  · refine h.extends extended ?_
    rintro ⟨next, hn⟩
    unfold onward at hn
    split at hn
    · cases hn
    · rename_i hz
      exact eq_false_of_ne_true hz
  · exact .inr (h.toClean.rollBack.halted nofun)

theorem Running.factor {x : Float} (h : c.Running) (number : x.isNaN = false) :
    (c.factor x).Checked (((c.factor x).score == negInf) = false) :=
  checked_of_add h.finite number rfl h.current.entries h.previous fun on => on

/-- A proposal goes back to a score that was finite. -/
theorem Clean.propose {progress : Progress} (h : c.Clean)
    (proposed : propose (c, g) = .ok progress (c', g')) : c'.Checked (Resumes progress) := by
  rcases propose_eq_ok proposed with ⟨_, rfl, he⟩ | ⟨_, i, g₁, e, _, hi, met⟩
  · cases he
    exact .inr (h.halted nofun)
  · have finite := h.current.entries e (List.mem_of_getElem? hi)
    have entries : ∀ e' ∈ (c.trace.take i).entries, e'.scoreBefore.isFinite = true :=
      fun e' he => h.current.entries e' (List.mem_of_mem_take he)
    have rewound : (c.rewind i e).Running := by
      refine ⟨⟨⟨number_of_finite finite, ?_, entries⟩, ?_⟩, finite⟩
      · exact posInf_ne_of_finite finite
      · intro p hp
        obtain rfl := Option.some.inj hp
        exact h.current
    exact rewound.site met

theorem Clean.decide {frozen : Nat} {value : Option Value} {accepted : Bool} (h : c.Clean)
    (decided : decide frozen value (c, g) = .ok accepted (c', g')) : c'.Clean := by
  obtain ⟨_, _, _, ⟨_, _, rfl⟩ | ⟨_, _, rfl⟩⟩ := decide_eq_ok decided
  · exact ⟨h.current, fun _ hq => nomatch hq⟩
  · exact h.rollBack

theorem Clean.decides {α : Type} {frozen : Nat} {value : α → Option Value} {ending : Ending α}
    {accepted : Bool} (h : c.Clean)
    (decides : Decides frozen value (c, g) ending accepted (c', g')) : c'.Clean := by
  cases decides with
  | finished decided => exact h.decide decided
  | unchanged => exact h

/-- No decision is taken between executions of which one has a score that is NaN, unless it does not
depend on the scores. -/
theorem chance_nan {p : Proposal} {frozen : Nat} (proposal : c.proposal = some p)
    (nan : c.score.isNaN = true ∨ p.score.isNaN = true)
    (possible : (c.score == negInf) = false) (previous : (p.score == negInf) = false)
    (choices : p.trace.length + frozen ≠ 0) :
    ∃ forward backward,
      c.chance frozen = .error (.acceptanceNaN c.score p.score forward backward) := by
  have lost : (c.score - p.score).isNaN = true := by
    rcases nan with hn | hn
    · exact nan_sub hn _
    · exact sub_nan _ hn
  have none' : (p.trace.length + frozen == 0) = false := by simpa using choices
  unfold chance
  simp only [proposal]
  unfold acceptProb
  simp only [possible, previous, none', Bool.or_self, Bool.false_eq_true, ↓reduceIte]
  rw [if_pos (exp_nan_iff.mpr (nan_sub (nan_add lost _) _))]
  exact ⟨_, _, rfl⟩

end Chain

namespace MetropolisHastings

variable {task : Task} {context : Context} {origin : Option Chain} {moment : Moment}
  {s : Session MetropolisHastings}

/-- Some score of the run comes to positive infinity. -/
def Unbounded (task : Task) (context : Context) : Prop :=
  ∃ origin moment s, Reaches task context origin moment s ∧ (s.engine.chain.score == posInf) = true

/-- Whether an effect of the program is awaited. -/
def Awaits (moment : Moment) : Prop := ∃ next, moment = .awaiting next

theorem Reaches.checked {goesOn : Prop} (h : Reaches task context origin moment s)
    (checked : s.engine.chain.Checked goesOn) (on : Awaits moment → goesOn) :
    Unbounded task context ∨ s.engine.chain.Bounded (Awaits moment) := by
  rcases checked with hp | bounded
  · exact .inl ⟨_, _, _, h, hp⟩
  · exact .inr (bounded.imp on)

theorem resumes_of_awaits {progress : Progress} (h : Awaits (.after progress)) :
    Chain.Resumes progress := by
  obtain ⟨next, hn⟩ := h
  cases progress with
  | resume next => exact ⟨next, rfl⟩
  | halted => cases hn
  | unchanged => cases hn

theorem start_bounded {t : Session MetropolisHastings} {next : Resume}
    (began : MetropolisHastings.start task s = .ok next t) :
    t.engine.chain.Bounded (Awaits (.awaiting next)) := by
  rw [(start_eq_ok began).2]
  have clean : ({} : Chain).Clean :=
    ⟨⟨by decide, by decide, fun _ he => nomatch he⟩, fun _ hp => nomatch hp⟩
  exact ⟨clean, fun _ => ⟨clean, by decide⟩⟩

/-- As long as no score has come to positive infinity, all are numbers. -/
theorem Reaches.bounded (h : Reaches task context origin moment s) :
    Unbounded task context ∨ s.engine.chain.Bounded (Awaits moment) := by
  have reached := h
  induction h with
  | start began => exact .inr (start_bounded began)
  | sample before effect site ih =>
    rcases ih before with unbounded | bounded
    · exact .inl unbounded
    · obtain ⟨c, g, met, rfl⟩ := onChain_eq_ok.mp site
      exact reached.checked ((bounded.running ⟨_, rfl⟩).site met) resumes_of_awaits
  | factor before effect number passed ih =>
    rcases ih before with unbounded | bounded
    · exact .inl unbounded
    · subst passed
      refine reached.checked ((bounded.running ⟨_, rfl⟩).factor number) fun ⟨next, hn⟩ => ?_
      unfold Moment.afterFactor at hn
      split at hn
      · cases hn
      · rename_i hz
        exact eq_false_of_ne_true hz
  | exit before effect ih =>
    rcases ih before with unbounded | bounded
    · exact .inl unbounded
    · exact .inr (bounded.clean.halted nofun)
  | restart before impossible began ih => exact .inr (start_bounded began)
  | @conclude origin ending s t before settled concluded ih =>
    rcases ih before with unbounded | bounded
    · exact .inl unbounded
    · obtain ⟨_, recorded⟩ := conclude_records concluded
      exact .inr ((bounded.clean.decides recorded.decided).halted nofun)
  | propose before left proposed ih =>
    rcases ih before with unbounded | bounded
    · exact .inl unbounded
    · obtain ⟨c, g, hp, rfl⟩ := onChain_eq_ok.mp proposed
      exact reached.checked (bounded.clean.propose hp) resumes_of_awaits

/-- The score of a chain is NaN only in runs in which some score comes to positive infinity. -/
theorem Reaches.unbounded_of_nan (h : Reaches task context origin moment s)
    (nan : s.engine.chain.score.isNaN = true) : Unbounded task context := by
  rcases h.bounded with unbounded | bounded
  · exact unbounded
  · rw [bounded.clean.current.number] at nan
    cases nan

theorem finish_numbers {t : Session MetropolisHastings} {result : Empirical}
    (h : finish task s = .ok (.done result) t) : result.Numbers := by
  unfold finish at h
  simp only [bind_eq_ok, Run.engine_eq_ok, Run.ofExcept_eq_ok, pure_eq_ok] at h
  obtain ⟨_, _, ⟨_, rfl⟩, d, _, ⟨hd, rfl⟩, _, _, _, hr, rfl⟩ := h
  cases hr
  obtain ⟨numbers, _⟩ := Empirical.finite_of_ofHistogram hd
  exact ⟨numbers.probabilities, numbers.normalizer⟩

end MetropolisHastings

namespace Mover

variable {task : Task} {steps : Nat} {s₀ s : Session Mover} {moment : Moment}

/-- Some score on the way comes to positive infinity. -/
def Unbounded (task : Task) (steps : Nat) (s₀ : Session Mover) : Prop :=
  ∃ moment s, Reaches task steps s₀ moment s ∧ (s.engine.chain.score == posInf) = true

/-- Whether an effect of the program is awaited. -/
def Awaits (moment : Moment) : Prop := ∃ origin next, moment = .awaiting origin next

theorem Reaches.checked {goesOn : Prop} (h : Reaches task steps s₀ moment s)
    (checked : s.engine.chain.Checked goesOn) (on : Awaits moment → goesOn) :
    Unbounded task steps s₀ ∨ s.engine.chain.Bounded (Awaits moment) := by
  rcases checked with hp | bounded
  · exact .inl ⟨_, _, h, hp⟩
  · exact .inr (bounded.imp on)

theorem resumes_of_awaits {origin : Chain} {progress : Progress}
    (h : Awaits (.after origin progress)) : Chain.Resumes progress := by
  obtain ⟨_, next, hn⟩ := h
  cases progress with
  | resume next => exact ⟨next, rfl⟩
  | halted => cases hn
  | unchanged => cases hn

/-- A chain that leaves its execution too early becomes impossible, which is a number. -/
theorem leave_clean {limit : Option Nat} {e : Mover} (h : e.chain.Clean) :
    (leave limit e).chain.Clean := by
  unfold leave
  split
  · exact ⟨⟨by change negInf.isNaN = false; decide, by change (negInf == posInf) = false; decide,
      h.current.entries⟩, h.previous⟩
  · exact h

/-- As long as no score has come to positive infinity, all are numbers. -/
theorem Reaches.bounded (h₀ : s₀.engine.chain.Clean) (h : Reaches task steps s₀ moment s) :
    Unbounded task steps s₀ ∨ s.engine.chain.Bounded (Awaits moment) := by
  have reached := h
  induction h with
  | start => exact .inr (h₀.halted nofun)
  | propose before proposed ih =>
    rcases ih before with unbounded | bounded
    · exact .inl unbounded
    · obtain ⟨c, g, hp, rfl⟩ := onChain_eq_ok.mp proposed
      exact reached.checked (bounded.clean.propose hp) resumes_of_awaits
  | sample before effect site ih =>
    rcases ih before with unbounded | bounded
    · exact .inl unbounded
    · obtain ⟨c, g, met, rfl⟩ := onChain_eq_ok.mp site
      exact reached.checked ((bounded.running ⟨_, _, rfl⟩).site met) resumes_of_awaits
  | factor before effect number passed ih =>
    rcases ih before with unbounded | bounded
    · exact .inl unbounded
    · subst passed
      refine reached.checked ((bounded.running ⟨_, _, rfl⟩).factor number) fun ⟨_, next, hn⟩ => ?_
      unfold Moment.afterFactor at hn
      split at hn
      · cases hn
      · rename_i hz
        exact eq_false_of_ne_true hz
  | exit before effect ih =>
    rcases ih before with unbounded | bounded
    · exact .inl unbounded
    · refine .inr ((leave_clean bounded.clean).halted ?_)
      rintro ⟨_, next, hn⟩
      unfold Moment.afterExit at hn
      split at hn <;> cases hn
  | @conclude origin ending s t before concluded ih =>
    rcases ih before with unbounded | bounded
    · exact .inl unbounded
    · obtain ⟨_, recorded⟩ := conclude_records concluded
      exact .inr ((bounded.clean.decides recorded.decided).halted nofun)

/-- The score of a chain is NaN only if some score on the way comes to positive infinity. -/
theorem Reaches.unbounded_of_nan (h₀ : s₀.engine.chain.Clean) (h : Reaches task steps s₀ moment s)
    (nan : s.engine.chain.score.isNaN = true) : Unbounded task steps s₀ := by
  rcases h.bounded h₀ with unbounded | bounded
  · exact unbounded
  · rw [bounded.clean.current.number] at nan
    cases nan

end Mover

/-- If all masses are finite, so is every mass that was added. -/
theorem Histogram.finite_of_addMass {value : Value} {mass : Float} {buckets : List (Value × Float)}
    (h : ∀ b ∈ addMass value mass buckets, b.2.isFinite = true) :
    mass.isFinite = true ∧ ∀ b ∈ buckets, b.2.isFinite = true := by
  induction buckets with
  | nil =>
    have first : (0 + mass).isFinite = true := h (value, 0 + mass) (List.mem_singleton.mpr rfl)
    exact ⟨(finite_of_add first).2, fun _ hb => nomatch hb⟩
  | cons bucket rest ih =>
    obtain ⟨v, m⟩ := bucket
    unfold addMass at h
    split at h <;> obtain ⟨first, others⟩ := List.forall_mem_cons.mp h
    · obtain ⟨hm, added⟩ := finite_of_add first
      exact ⟨added, List.forall_mem_cons.mpr ⟨hm, others⟩⟩
    · obtain ⟨added, others⟩ := ih others
      exact ⟨added, List.forall_mem_cons.mpr ⟨first, others⟩⟩

namespace AsyncSmc

variable {e : AsyncSmc} {s₀ s : Session AsyncSmc} {log : List Event} {moment : Moment}

theorem finite_of_histogram {top : Float} {exited : List AsyncParticle} {h : Histogram}
    (finite : ∀ b ∈ (exited.foldl (fun h p =>
      match p.value with
      | some value => h.add value (exp (p.weight - top))
      | none => h) h).buckets, b.2.isFinite = true) :
    (∀ b ∈ h.buckets, b.2.isFinite = true) ∧
      ∀ p ∈ exited, p.value.isSome = true → (exp (p.weight - top)).isFinite = true := by
  induction exited generalizing h with
  | nil => exact ⟨finite, fun _ hp => nomatch hp⟩
  | cons p rest ih =>
    obtain ⟨before, others⟩ := ih finite
    cases hv : p.value with
    | none =>
      simp only [hv] at before
      exact ⟨before, List.forall_mem_cons.mpr ⟨fun h => absurd (hv ▸ h) nofun, others⟩⟩
    | some value =>
      simp only [hv] at before
      obtain ⟨added, before⟩ := Histogram.finite_of_addMass before
      exact ⟨before, List.forall_mem_cons.mpr ⟨fun _ => added, others⟩⟩

/-- Only weights below positive infinity have a mass against the greatest of them. -/
theorem weight_of_finite_mass {ws : List Float} {w : Float} (hw : w ∈ ws)
    (finite : (exp (w - greatest ws)).isFinite = true) :
    w.isNaN = false ∧ (w == posInf) = false := by
  have number : (w - greatest ws).isNaN ≠ true := by
    intro hn
    have mass := exp_nan_iff.mpr hn
    rw [number_of_finite finite] at mass
    cases mass
  refine ⟨eq_false_of_ne_true fun hn => number (nan_sub hn _), eq_false_of_ne_true fun hp => ?_⟩
  have hu := unpack_of_posInf hp
  have top : Infinite .positive (greatest ws).toModel.unpack := foldl_larger (.inr ⟨w, hw, hu⟩)
  have along : Infinite .positive (w - greatest ws).toModel.unpack :=
    (Infinite.sub (.inl hu) _).stored
  have against : Infinite .negative (w - greatest ws).toModel.unpack :=
    (Infinite.sub_left top _).stored
  refine number (isNaN_eq_true_iff.mpr (nan_of_infinite fun s => ?_))
  cases s with
  | positive => exact along
  | negative => exact against

/-- Every particle that has exited has brought a value. -/
def Valued (e : AsyncSmc) : Prop := ∀ p ∈ e.exited, p.value.isSome = true

theorem Valued.of_exited {e' : AsyncSmc} (h : e.Valued) (same : e'.exited = e.exited) :
    e'.Valued := by
  unfold Valued
  rw [same]
  exact h

theorem Picks.exited {p : AsyncParticle} {e' : AsyncSmc} (h : Picks e p e') :
    e'.exited = e.exited := by
  cases h <;> rfl

theorem Reaches.valued (h₀ : s₀.engine.Valued) (h : Reaches s₀ log moment s) :
    s.engine.Valued := by
  induction h with
  | start => exact h₀
  | launch before left launched ih =>
    obtain ⟨p, e, g, picks, rfl, rfl⟩ := launch_eq_ok launched
    refine ih.of_exited ?_
    unfold countLaunch
    split <;> exact picks.exited
  | sample before effect drawn ih => exact ih
  | factor before effect number active arrives ih => exact ih.of_exited arrives.exited.1
  | exit before effect active ih =>
    intro q hq
    rcases List.mem_append.mp hq with hq | hq
    · exact ih q hq
    · obtain rfl := List.mem_singleton.mp hq
      rfl

theorem Resumes.valued (h₀ : s₀.engine.Valued) (h : Resumes s₀ log s) : s.engine.Valued := by
  induction h with
  | first => exact h₀
  | again before ran spent more ih => exact (ran.valued ih).of_exited rfl

/-- The weights that a result is made of. -/
def Weighable (e : AsyncSmc) : Prop :=
  ∀ p ∈ e.exited, p.weight.isNaN = false ∧ (p.weight == posInf) = false

theorem weighable_of_distribution {result : Empirical} (valued : e.Valued)
    (h : e.distribution = .ok result) :
    e.Weighable ∧ (∀ row ∈ result.support, row.2.isNaN = false) ∧
      result.logNormalizer = e.logNormalizer := by
  obtain ⟨d, hd, hr⟩ := except_bind_eq_ok.mp h
  cases hr
  obtain ⟨numbers, masses⟩ := Empirical.finite_of_ofHistogram hd
  refine ⟨fun p hp => ?_, numbers.probabilities, rfl⟩
  have finite := (finite_of_histogram masses).2 p hp (valued p hp)
  exact weight_of_finite_mass (List.mem_map_of_mem hp) finite

/-- An estimate of the normalizer out of final weights that are numbers is one. -/
theorem Weighable.logNormalizer (h : e.Weighable) (final : e.normalization = .finalWeights)
    (small : e.launched < UInt64.size) : e.logNormalizer.isNaN = false := by
  unfold AsyncSmc.logNormalizer
  rw [final]
  refine sub_finite (logSumExp_number fun w hw => ?_) (ln_count_finite (by omega) ?_)
  · obtain ⟨p, hp, rfl⟩ := List.mem_map.mp hw
    exact (h p hp).1
  · have : 1 < UInt64.size := by decide
    omega

end AsyncSmc

/-- Where NaN comes from and where it is stopped. A filter that comes to its result has met no weight
that is not a number between any two effects, for a barrier fails on such a weight. What the result
says is then numbers, and every barrier on record has measured the weights with which the run closed a
round there: their log-mean is a number, and their effective sample size is NaN if, and only if, they
are out of range, as they are if one of them is infinite. The score of a chain is NaN only once some
score has come to positive infinity, and then no decision that depends on it is taken. The weights of
an asynchronous run that are in flight, its means and the weights that have exited are numbers as long
as no arrival has brought a weight or a multiplicity of positive infinity, however often the run was
resumed; and whatever came before, it comes to a result only if all weights that this is made of are
numbers below positive infinity. -/
theorem nan_only_from_infinities (program : Program) (address : Address) (store : Store) :
    (∀ (n : Nat) (pos : 0 < n) (context : Context), n < UInt64.size →
      (∀ (task : ParticleFilter.Task) fuel result t,
        let s₀ : Session (ParticleFilter n) := ⟨.start pos (program.entry address) store, context⟩
        let first := s₀.engine.population.resumeCurrent
        (ParticleFilter.handler task).drive fuel first s₀ = .ok result t →
        result.Numbers ∧ ParticleFilter.Measured task s₀ t.engine.metrics.barriers ∧
          ∀ next r, (ParticleFilter.handler task).Passes first s₀ next r →
            r.engine.population.Numbers) ∧
      ∀ (task : RejuvenatingFilter.Task) fuel result t,
        let s₀ : Session (RejuvenatingFilter n) :=
          ⟨.start pos (program.entry address) store, context⟩
        let first := s₀.engine.population.resumeCurrent
        (RejuvenatingFilter.handler task).drive fuel first s₀ = .ok result t →
        result.Numbers ∧ RejuvenatingFilter.Measured task s₀ t.engine.metrics.barriers ∧
          ∀ next r, (RejuvenatingFilter.handler task).Passes first s₀ next r →
            r.engine.population.Numbers) ∧
    (∀ (n : Nat) (p : Population n) strict algorithm index g, ¬ p.Numbers →
      ∃ i, p.resample strict algorithm index g = .error (.weightNaN i) g) ∧
    (∀ (n : Nat) (b : Barrier) (ws : Vector Float n), b.Measures ws →
      (b.effectiveSampleSize.isNaN = true ↔ OutOfRange ws.toList) ∧
        ((∃ i, (ws.get i == posInf) = true) → OutOfRange ws.toList)) ∧
    (∀ id iterations context,
      let task : MetropolisHastings.Task :=
        { id, entry := program.entry address, store, iterations }
      (∀ fuel next result s t, MetropolisHastings.start task ⟨{}, context⟩ = .ok next s →
        (MetropolisHastings.handler task).drive fuel next s = .ok result t → result.Numbers) ∧
      ∀ origin moment s, MetropolisHastings.Reaches task context origin moment s →
        s.engine.chain.score.isNaN = true → MetropolisHastings.Unbounded task context) ∧
    (∀ task steps s₀ moment s, s₀.engine.chain.Clean → Mover.Reaches task steps s₀ moment s →
      s.engine.chain.score.isNaN = true → Mover.Unbounded task steps s₀) ∧
    (∀ (c : Chain) p frozen, c.proposal = some p →
      c.score.isNaN = true ∨ p.score.isNaN = true → (c.score == negInf) = false →
      (p.score == negInf) = false → p.trace.length + frozen ≠ 0 →
      ∃ forward backward,
        c.chance frozen = .error (.acceptanceNaN c.score p.score forward backward)) ∧
    ∀ config context context' engine,
      AsyncSmc.install config program address store context = .ok engine context' →
      (∀ seen moment s, AsyncSmc.Sees ⟨engine, context'⟩ seen moment s →
        (∀ a ∈ seen, a.Bounded) → s.engine.InRange) ∧
      ∀ log s, AsyncSmc.Resumes ⟨engine, context'⟩ log s →
        ∀ fuel result t, AsyncSmc.drive fuel s = .ok result t →
          t.engine.Weighable ∧ (∀ row ∈ result.support, row.2.isNaN = false) ∧
            (t.engine.normalization = .finalWeights → t.engine.launched < UInt64.size →
              result.logNormalizer.isNaN = false) ∧
            (t.engine.normalization = .lastFactorMean → t.engine.InRange →
              result.logNormalizer.isNaN = false) ∧
            ∃ seen r, AsyncSmc.Sees ⟨engine, context'⟩ seen .free r ∧ t.engine = r.engine := by
  refine ⟨?_, ?_, ?_, ?_, ?_, ?_, ?_⟩
  · intro n pos context small
    have pending := Population.start_pending pos (program.entry address) store
    refine ⟨fun task fuel result t => ?_, fun task fuel result t => ?_⟩
    · intro s₀ first ran
      obtain ⟨numbers, between⟩ := Handler.drive_numbers ParticleFilter.population
        (ParticleFilter.answer_keeps small) pending ran
      obtain ⟨s, exited, same, _⟩ := ParticleFilter.drive_leads ran
      rw [same]
      exact ⟨numbers, exited.measured small rfl, between⟩
    · intro s₀ first ran
      obtain ⟨numbers, between⟩ := Handler.drive_numbers RejuvenatingFilter.population
        (RejuvenatingFilter.answer_keeps small) pending ran
      obtain ⟨_, s, done, same, _⟩ := RejuvenatingFilter.drive_leads ran
      rw [same]
      exact ⟨numbers, done.measured small rfl, between⟩
  · intro n p strict algorithm index g h
    exact Population.resample_nan h strict algorithm index g
  · intro n b ws h
    refine ⟨h.nan_iff, fun ⟨i, hi⟩ => ?_⟩
    exact outOfRange_of_infinite h.toList_numbers ⟨_, mem_toList_iff.mpr ⟨i, rfl⟩, hi⟩
  · intro id iterations context task
    refine ⟨fun fuel next result s t began ran => ?_, fun origin moment s h nan => ?_⟩
    · obtain ⟨_, _, _, _, finished⟩ := MetropolisHastings.drive_leads (.start began) ran
      exact MetropolisHastings.finish_numbers finished
    · exact h.unbounded_of_nan nan
  · intro task steps s₀ moment s clean h nan
    exact h.unbounded_of_nan clean nan
  · intro c p frozen proposal nan possible previous choices
    exact Chain.chance_nan proposal nan possible previous choices
  · intro config context context' engine installed
    have fresh : engine.Valued ∧ engine.InRange := by
      obtain ⟨_, _, rfl⟩ := AsyncSmc.install_eq_ok.mp installed
      exact ⟨(fun _ hp => nomatch hp), AsyncSmc.initial_inRange ..⟩
    obtain ⟨valued, inRange⟩ := fresh
    refine ⟨fun seen moment s sees bounded => sees.inRange inRange bounded, ?_⟩
    intro log s resumed fuel result t ran
    obtain ⟨log', r, reached, _, he, made⟩ := AsyncSmc.drive_leads ran
    obtain ⟨seen, sees, _⟩ := resumed.sees
    obtain ⟨seen', sees, _⟩ := reached.sees sees
    obtain ⟨weighable, probabilities, normalizer⟩ :=
      AsyncSmc.weighable_of_distribution (reached.valued (resumed.valued valued)) made
    rw [he, normalizer]
    exact ⟨weighable, probabilities, fun final small => weighable.logNormalizer final small,
      fun mean inRange => inRange.logNormalizer mean, _, r, sees, rfl⟩

/-- Weighs its execution so heavily that twice the weight is out of range. -/
def heavy : Program := fun store address =>
  factor store address (Float.ofBits 0x7FE1CCF385EBC8A0) fun store => exit store (.bool true)

/-- What `opposed` does with its coin: two infinite weights of opposite signs. -/
def weighBothWays : Delivery := fun store value =>
  factor store (Address.root.child "up") posInf fun store =>
    factor store (Address.root.child "down") negInf fun store => exit store value

def opposed : Program := fun store address => sample store address coin [] weighBothWays

/-- An execution of `opposed` that showed tails and was held to be impossible. -/
def opposedTails : Chain where
  trace := ⟨[⟨⟨default, .root, coin, []⟩, weighBothWays, .bool false, -1, 0, 0, false⟩], by simp⟩
  score := negInf
  value := some (.bool false)

/-- Opposed weights take the place of an execution with a score of zero. -/
def opposedProposal : Chain :=
  { opposedTails with
    score := nan
    proposal := some { trace := opposedTails.trace, score := 0, value := none, site := 0 } }

/-- An asynchronous run of two heavy particles, with a buffer that holds one. -/
def heavyStart : Session AsyncSmc :=
  ⟨AsyncSmc.initial { particles := 2, bufferSize := 1, normalization := .lastFactorMean }
    (heavy.entry .root) default ⟨1⟩, quietContext "async-smc"⟩

theorem heavy_install : AsyncSmc.install
    { particles := 2, bufferSize := 1, normalization := .lastFactorMean } heavy .root default
    { rng := steadyRng 0 } = .ok heavyStart.engine heavyStart.context := rfl

/-- Both particles come to their factor, and neither brings an infinity. -/
theorem heavy_sees : ∃ seen s, AsyncSmc.Sees heavyStart seen .free s ∧ seen.length = 2 ∧
    ∀ a ∈ seen, a.Bounded := by
  have opening : AsyncSmc.Sees heavyStart [] .free heavyStart := .start
  have launched := opening.launch (by decide) rfl
  have first := launched.factor rfl (by decide +kernel) rfl
    (.parked (by decide +kernel) (.first rfl) rfl)
  have launched := ((first.launch (by decide) rfl).exit rfl rfl).launch (by decide) rfl
  have second := launched.factor rfl (by decide +kernel) rfl (.parked (by decide +kernel)
    (.later rfl (AsyncSmc.offspring_above (by decide +kernel)) (by decide +kernel)) rfl)
  exact ⟨_, _, second, rfl, by decide +kernel⟩

/-- Two heavy particles bring either filter to a result, with a barrier out of range, and so they do
the asynchronous engine, where all weights in flight are numbers. Opposed weights bring a chain to NaN,
as a first execution and as a move, and leave it no chance against another execution. -/
theorem heavy_measured :
    let s₀ : Session (ParticleFilter 2) :=
      ⟨.start Nat.two_pos (heavy.entry .root) default, quietContext "particle-filter"⟩
    let r₀ : Session (RejuvenatingFilter 2) :=
      ⟨.start Nat.two_pos (heavy.entry .root) default, quietContext "rejuvenation"⟩
    let filter : ParticleFilter.Task := ⟨⟨1⟩, true⟩
    let rejuvenating : RejuvenatingFilter.Task := ⟨⟨1⟩, 1, false, false, 9⟩
    let task : MetropolisHastings.Task :=
      { id := ⟨1⟩, entry := opposed.entry .root, store := default, iterations := 1 }
    let m₀ : Session Mover :=
      ⟨{ chain := opposedTails, frontier := default }, quietContext "rejuvenator"⟩
    (∃ result t, (ParticleFilter.handler filter).drive 9 s₀.engine.population.resumeCurrent s₀ =
        .ok result t ∧ result.Numbers ∧ ∃ noted r, t.engine.metrics.barriers[0]? = some noted ∧
      ParticleFilter.Reaches filter s₀ (.turned true) r ∧
      OutOfRange r.engine.population.weights.toList) ∧
    (∃ result t, (RejuvenatingFilter.handler rejuvenating).drive 9
        r₀.engine.population.resumeCurrent r₀ = .ok result t ∧ result.Numbers) ∧
    (∃ result t, AsyncSmc.drive 9 heavyStart = .ok result t ∧ t.engine.Weighable) ∧
    (∃ seen s, AsyncSmc.Sees heavyStart seen .free s ∧ seen.length = 2 ∧ s.engine.InRange) ∧
    (∃ origin moment s, MetropolisHastings.Reaches task (quietContext "mh") origin moment s ∧
      s.engine.chain.score.isNaN = true ∧
      MetropolisHastings.Unbounded task (quietContext "mh")) ∧
    (∃ moment s, Mover.Reaches ⟨⟨1⟩, 0, none⟩ 1 m₀ moment s ∧
      s.engine.chain.score.isNaN = true ∧ Mover.Unbounded ⟨⟨1⟩, 0, none⟩ 1 m₀) ∧
    ∃ forward backward, opposedProposal.chance 0 =
      .error (.acceptanceNaN opposedProposal.score 0 forward backward) := by
  intro s₀ r₀ filter rejuvenating task m₀
  have small : 2 < UInt64.size := by decide
  obtain ⟨filters, _, ranges, _, _, chances, asyncs⟩ :=
    nan_only_from_infinities heavy .root default
  obtain ⟨_, _, _, chains, moves, _⟩ := nan_only_from_infinities opposed .root default
  obtain ⟨inRange, results⟩ := asyncs _ _ _ _ heavy_install
  refine ⟨?_, ?_, ?_, ?_, ?_, ?_, ?_⟩
  · have ran : succeedsWith
        (fun _ t => (t.engine.metrics.barriers[0]?).any (·.effectiveSampleSize.isNaN))
        ((ParticleFilter.handler filter).drive 9 s₀.engine.population.resumeCurrent s₀) = true := by
      decide +kernel
    obtain ⟨result, t, h, ran⟩ := exists_of_succeedsWith ran
    simp only [Option.any_eq_true] at ran
    obtain ⟨noted, recorded, nan⟩ := ran
    obtain ⟨numbers, measured, _⟩ := (filters 2 Nat.two_pos s₀.context small).1 filter 9 result t h
    obtain ⟨r, reached, _, measures⟩ := measured 0 noted recorded
    exact ⟨result, t, h, numbers, noted, r, recorded, reached,
      (ranges 2 noted _ measures).1.mp nan⟩
  · have ran : succeeds ((RejuvenatingFilter.handler rejuvenating).drive 9
        r₀.engine.population.resumeCurrent r₀) = true := by
      decide +kernel
    obtain ⟨result, t, h⟩ := exists_of_succeeds ran
    exact ⟨result, t, h, ((filters 2 Nat.two_pos r₀.context small).2 rejuvenating 9 result t h).1⟩
  · have ran : succeeds (AsyncSmc.drive 9 heavyStart) = true := by
      decide +kernel
    obtain ⟨result, t, h⟩ := exists_of_succeeds ran
    exact ⟨result, t, h, (results _ _ .first 9 result t h).1⟩
  · obtain ⟨seen, s, sees, two, bounded⟩ := heavy_sees
    exact ⟨seen, s, sees, two, inRange seen .free s sees bounded⟩
  · have ran : succeedsWith
        (fun next s => succeedsWith (fun _ t => t.engine.chain.score.isNaN)
          ((MetropolisHastings.handler task).drive 9 next s))
        (MetropolisHastings.start task ⟨{}, quietContext "mh"⟩) = true := by
      decide +kernel
    obtain ⟨next, s, began, ran⟩ := exists_of_succeedsWith ran
    obtain ⟨result, t, h, ran⟩ := exists_of_succeedsWith ran
    obtain ⟨origin, r, reached, _, finished⟩ := MetropolisHastings.drive_leads (.start began) h
    rw [MetropolisHastings.finish_engine finished] at ran
    exact ⟨_, _, r, reached, ran, (chains _ _ _).2 _ _ r reached ran⟩
  · have clean : opposedTails.Clean := by
      refine ⟨⟨by decide, by decide, fun e he => ?_⟩, fun _ hp => nomatch hp⟩
      obtain rfl := List.mem_singleton.mp he
      decide
    have ran : succeedsWith (fun _ t => t.engine.chain.score.isNaN)
        (Mover.take ⟨⟨1⟩, 0, none⟩ 9 1 m₀) = true := by
      decide +kernel
    obtain ⟨_, t, h, ran⟩ := exists_of_succeedsWith ran
    obtain ⟨r, reached, he⟩ := Mover.take_settled h
    rw [he] at ran
    exact ⟨_, r, reached, ran, moves _ _ _ _ r clean reached ran⟩
  · have nan : opposedProposal.score.isNaN = true := by decide
    exact chances opposedProposal _ 0 rfl (.inl nan) (by decide) (by decide) (by decide)

end Posterior
