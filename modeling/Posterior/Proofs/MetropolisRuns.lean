import Posterior.MetropolisHastings
import Posterior.Proofs.Regeneration
import Posterior.Proofs.Verdicts

/-!
The moments of a Metropolis-Hastings run. A run awaits an effect of the program, stands at the end
of an execution, or has just recorded a step; every run that comes to a result passes through these
moments only.
-/

namespace Posterior.MetropolisHastings

open Numeric

inductive Moment where
  /-- The program is about to be resumed. -/
  | awaiting (next : Resume)
  /-- An execution is over and not settled yet. -/
  | ended (ending : Ending (Option Value))
  /-- A step has just been recorded. -/
  | recorded

/-- The moment after a choice. -/
def Moment.after : Progress → Moment
  | .resume next => .awaiting next
  | .halted => .ended (.finished none)
  | .unchanged => .ended .unchanged

/-- The moment after a factor. -/
def Moment.afterFactor (c : Chain) (next : Resume) : Moment :=
  if c.score == negInf then .ended (.finished none) else .awaiting next

/-- The first execution has come out impossible and is started again. -/
def Impossible (e : MetropolisHastings) : Ending (Option Value) → Prop
  | .finished _ => e.steps = 0 ∧ (e.chain.score == negInf) = true
  | .unchanged => False

/-- The moments that a run of the task in a context passes through, each with the chain out of
which the proposal under way was made, if one is. -/
inductive Reaches (task : Task) (context : Context) :
    Option Chain → Moment → Session MetropolisHastings → Prop where
  | start {next : Resume} {s : Session MetropolisHastings}
      (began : MetropolisHastings.start task ⟨{}, context⟩ = .ok next s) :
      Reaches task context none (.awaiting next) s
  | sample {origin : Option Chain} {next : Resume} {s t : Session MetropolisHastings}
      {choice : Choice} {deliver : Delivery} {progress : Progress}
      (before : Reaches task context origin (.awaiting next) s)
      (effect : next.invoke = .sample choice deliver)
      (site : onChain (Chain.site choice deliver false) s = .ok progress t) :
      Reaches task context origin (.after progress) t
  | factor {origin : Option Chain} {next : Resume} {s t : Session MetropolisHastings}
      {point : Factor} {resume : Continuation}
      (before : Reaches task context origin (.awaiting next) s)
      (effect : next.invoke = .factor point resume)
      (number : point.logWeight.isNaN = false)
      (passed : t =
        { s with engine := { s.engine with chain := s.engine.chain.factor point.logWeight } }) :
      Reaches task context origin
        (.afterFactor t.engine.chain (.carryOn resume point.store)) t
  | exit {origin : Option Chain} {next : Resume} {s : Session MetropolisHastings}
      {store : Store} {value : Value}
      (before : Reaches task context origin (.awaiting next) s)
      (effect : next.invoke = .exit store value) :
      Reaches task context origin (.ended (.finished (some value))) s
  | restart {origin : Option Chain} {ending : Ending (Option Value)} {next : Resume}
      {s t : Session MetropolisHastings}
      (before : Reaches task context origin (.ended ending) s)
      (impossible : Impossible s.engine ending)
      (began : MetropolisHastings.start task s = .ok next t) :
      Reaches task context none (.awaiting next) t
  | conclude {origin : Option Chain} {ending : Ending (Option Value)}
      {s t : Session MetropolisHastings}
      (before : Reaches task context origin (.ended ending) s)
      (settled : ¬ Impossible s.engine ending)
      (concluded : MetropolisHastings.conclude ending s = .ok () t) :
      Reaches task context origin .recorded t
  | propose {origin : Option Chain} {progress : Progress} {s t : Session MetropolisHastings}
      (before : Reaches task context origin .recorded s)
      (left : s.engine.steps < task.iterations)
      (proposed : onChain Chain.propose s = .ok progress t) :
      Reaches task context (some s.engine.chain) (.after progress) t

theorem onChain_eq_ok {α : Type} {move : Move α} {s t : Session MetropolisHastings} {a : α} :
    onChain move s = .ok a t ↔ ∃ c g, move (s.engine.chain, s.context.rng) = .ok a (c, g) ∧
      t = ⟨{ s.engine with chain := c }, { s.context with rng := g }⟩ :=
  Chain.within_eq_ok

theorem onChain_steps {α : Type} {move : Move α} {s t : Session MetropolisHastings} {a : α}
    (h : onChain move s = .ok a t) : t.engine.steps = s.engine.steps := by
  obtain ⟨c, g, _, rfl⟩ := onChain_eq_ok.mp h
  rfl

theorem start_eq_ok {task : Task} {s t : Session MetropolisHastings} {next : Resume}
    (h : MetropolisHastings.start task s = .ok next t) :
    next = .carryOn task.entry task.store ∧ t.engine.chain = {} := by
  unfold MetropolisHastings.start at h
  simp only [bind_eq_ok, Run.modifyEngine_eq_ok, pure_eq_ok] at h
  obtain ⟨_, _, rfl, rfl, rfl⟩ := h
  exact ⟨rfl, rfl⟩

theorem start_steps {task : Task} {s t : Session MetropolisHastings} {next : Resume}
    (h : MetropolisHastings.start task s = .ok next t) : t.engine.steps = s.engine.steps := by
  unfold MetropolisHastings.start at h
  simp only [bind_eq_ok, Run.modifyEngine_eq_ok, pure_eq_ok] at h
  obtain ⟨_, _, rfl, _, rfl⟩ := h
  rfl

theorem observe_eq_ok {s t : Session MetropolisHastings} (h : observe s = .ok () t) :
    ∃ value, s.engine.chain.value = some value ∧
      t = { s with engine := { s.engine with
        histogram := s.engine.histogram.observe value, steps := s.engine.steps + 1 } } := by
  unfold observe at h
  rw [Run.engine_bind] at h
  cases held : s.engine.chain.value with
  | none =>
    simp only [held] at h
    exact absurd h Run.fail_ne_ok
  | some value =>
    simp only [held] at h
    exact ⟨value, rfl, (Run.setEngine_eq_ok.mp h).symm⟩

/-- One more step is on record, and `accepted` says whether its execution was kept. -/
structure Records (ending : Ending (Option Value)) (accepted : Bool)
    (s t : Session MetropolisHastings) : Prop where
  decided : Chain.Decides 0 id (s.engine.chain, s.context.rng) ending accepted
    (t.engine.chain, t.context.rng)
  observed : ∃ value, t.engine.chain.value = some value ∧
    t.engine.histogram = s.engine.histogram.observe value
  steps : t.engine.steps = s.engine.steps + 1
  proposals : t.engine.metrics.proposals = s.engine.metrics.proposals + 1
  accepted : t.engine.metrics.accepted = s.engine.metrics.accepted + accepted.toNat
  stack : t.context.stack = s.context.stack

/-- Recording a step puts exactly one step on record, whatever has become of the execution. -/
theorem conclude_records {ending : Ending (Option Value)} {s t : Session MetropolisHastings}
    (h : conclude ending s = .ok () t) : ∃ accepted, Records ending accepted s t := by
  cases ending with
  | unchanged =>
    simp only [conclude, countAccepted, bind_eq_ok, Run.modifyEngine_eq_ok] at h
    obtain ⟨_, _, rfl, _, _, rfl, h⟩ := h
    obtain ⟨value, valued, rfl⟩ := observe_eq_ok h
    exact ⟨true, .unchanged, ⟨value, valued, rfl⟩, rfl, rfl, rfl, rfl⟩
  | finished result =>
    simp only [conclude, countAccepted, bind_eq_ok, onChain_eq_ok] at h
    obtain ⟨accepted, _, ⟨c, g, decided, rfl⟩, h⟩ := h
    cases accepted <;>
      simp only [↓reduceIte, Bool.false_eq_true, bind_eq_ok, Run.modifyEngine_eq_ok] at h
    · obtain ⟨_, _, rfl, h⟩ := h
      obtain ⟨value, valued, rfl⟩ := observe_eq_ok h
      exact ⟨false, .finished decided, ⟨value, valued, rfl⟩, rfl, rfl, rfl, rfl⟩
    · obtain ⟨_, _, rfl, _, _, rfl, h⟩ := h
      obtain ⟨value, valued, rfl⟩ := observe_eq_ok h
      exact ⟨true, .finished decided, ⟨value, valued, rfl⟩, rfl, rfl, rfl, rfl⟩

theorem conclude_steps {ending : Ending (Option Value)} {s t : Session MetropolisHastings}
    (h : conclude ending s = .ok () t) : t.engine.steps = s.engine.steps + 1 := by
  obtain ⟨_, recorded⟩ := conclude_records h
  exact recorded.steps

/-- What an answer of the engine leads to: another effect is awaited, or all steps are recorded and
the result is made of them. -/
def Leads (task : Task) (context : Context) (control : Control Empirical)
    (t : Session MetropolisHastings) : Prop :=
  match control with
  | .resume next => ∃ origin, Reaches task context origin (.awaiting next) t
  | .done result => ∃ origin s, Reaches task context origin .recorded s ∧
      task.iterations ≤ s.engine.steps ∧ finish task s = .ok (.done result) t

variable {task : Task} {context : Context} {origin : Option Chain}

/-- A step is recorded by settling an execution that is over. -/
theorem recorded_concludes {s : Session MetropolisHastings}
    (h : Reaches task context origin .recorded s) :
    ∃ ending r, Reaches task context origin (.ended ending) r ∧ ¬ Impossible r.engine ending ∧
      conclude ending r = .ok () s := by
  generalize hm : Moment.recorded = m at h
  cases h with
  | conclude before settled concluded => exact ⟨_, _, before, settled, concluded⟩
  | factor before effect number passed =>
    unfold Moment.afterFactor at hm
    split at hm <;> cases hm
  | @sample _ _ _ _ _ _ progress before effect site => cases progress <;> cases hm
  | @propose _ progress _ _ before left proposed => cases progress <;> cases hm
  | start began => cases hm
  | exit before effect => cases hm
  | restart before impossible began => cases hm

/-- A run that has recorded a step does not start again. -/
theorem recorded_steps_pos {s : Session MetropolisHastings}
    (h : Reaches task context origin .recorded s) : 0 < s.engine.steps := by
  obtain ⟨_, _, _, _, hc⟩ := recorded_concludes h
  have := conclude_steps hc
  omega

/-- What finishes a run is made of the observations and the counters; the engine stays as it is. -/
theorem finish_engine {s t : Session MetropolisHastings} {control : Control Empirical}
    (h : finish task s = .ok control t) : t.engine = s.engine := by
  unfold finish at h
  simp only [bind_eq_ok, Run.engine_eq_ok, Run.ofExcept_eq_ok, pure_eq_ok] at h
  obtain ⟨_, _, ⟨_, rfl⟩, _, _, ⟨_, rfl⟩, _, _, restored, _, rfl⟩ := h
  exact Run.restore_engine restored

theorem finish_leads {s t : Session MetropolisHastings} {control : Control Empirical}
    (hr : Reaches task context origin .recorded s) (hs : task.iterations ≤ s.engine.steps)
    (h : finish task s = .ok control t) : Leads task context control t := by
  have hd := h
  unfold finish at hd
  simp only [bind_eq_ok, pure_eq_ok] at hd
  obtain ⟨_, _, _, _, _, _, _, _, _, rfl, _⟩ := hd
  exact ⟨origin, s, hr, hs, h⟩

/-- From a recorded step on, `advance` passes through the moments of the run. -/
theorem advance_leads {left : Nat} {s t : Session MetropolisHastings}
    {control : Control Empirical} (hr : Reaches task context origin .recorded s)
    (hl : left = task.iterations - s.engine.steps)
    (h : advance task left s = .ok control t) : Leads task context control t := by
  induction left generalizing s origin with
  | zero => exact finish_leads hr (by omega) h
  | succ left ih =>
    simp only [advance, bind_eq_ok] at h
    obtain ⟨progress, r, hp, h⟩ := h
    have hn : s.engine.steps < task.iterations := by omega
    have hm := hr.propose hn hp
    have hk := onChain_steps hp
    have hs := recorded_steps_pos hr
    cases progress with
    | resume next =>
      obtain ⟨rfl, rfl⟩ := pure_eq_ok.mp h
      exact ⟨_, hm⟩
    | halted =>
      simp only [bind_eq_ok] at h
      obtain ⟨_, r', hc, h⟩ := h
      have hk' := conclude_steps hc
      exact ih (hm.conclude (fun hi => by have := hi.1; omega) hc) (by omega) h
    | unchanged =>
      simp only [bind_eq_ok] at h
      obtain ⟨_, r', hc, h⟩ := h
      have hk' := conclude_steps hc
      exact ih (hm.conclude id hc) (by omega) h

/-- Unless a first execution is started again, a step is recorded and the next ones are taken. -/
theorem settle_eq {ending : Ending (Option Value)} {s : Session MetropolisHastings}
    (settled : ¬ Impossible s.engine ending) :
    settle task ending s = (do
      conclude ending
      advance task (task.iterations - (← Run.engine).steps)) s := by
  unfold settle
  rw [Run.engine_bind]
  cases ending with
  | finished value =>
    have hz : (decide (s.engine.steps = 0) && s.engine.chain.score == negInf) = false := by
      simpa [Impossible] using settled
    simp only [hz, Bool.false_eq_true, ↓reduceIte]
  | unchanged => rfl

/-- From the end of an execution on, `settle` passes through the moments of the run. -/
theorem settle_leads {ending : Ending (Option Value)} {s t : Session MetropolisHastings}
    {control : Control Empirical} (hr : Reaches task context origin (.ended ending) s)
    (h : settle task ending s = .ok control t) : Leads task context control t := by
  by_cases hi : Impossible s.engine ending
  · cases ending with
    | unchanged => exact hi.elim
    | finished value =>
      have hz : (decide (s.engine.steps = 0) && s.engine.chain.score == negInf) = true := by
        simpa [Impossible] using hi
      unfold settle at h
      rw [Run.engine_bind] at h
      simp only [hz, ↓reduceIte, bind_eq_ok, pure_eq_ok] at h
      obtain ⟨next, r, hb, rfl, rfl⟩ := h
      exact ⟨none, hr.restart hi hb⟩
  · rw [settle_eq hi] at h
    simp only [bind_eq_ok, Run.engine_eq_ok] at h
    obtain ⟨_, r, hc, _, _, ⟨rfl, rfl⟩, h⟩ := h
    exact advance_leads (hr.conclude hi hc) rfl h

theorem answer_leads {next : Resume} {s t : Session MetropolisHastings}
    {control : Control Empirical} (hr : Reaches task context origin (.awaiting next) s)
    (h : (handler task).answer next.invoke s = .ok control t) : Leads task context control t := by
  cases hi : next.invoke with
  | sample choice deliver =>
    rw [hi] at h
    have ha := Handler.answer_sample h
    simp only [handler, bind_eq_ok] at ha
    obtain ⟨progress, r, hs, ha⟩ := ha
    have hm := hr.sample hi hs
    cases progress with
    | resume next =>
      obtain ⟨rfl, rfl⟩ := pure_eq_ok.mp ha
      exact ⟨origin, hm⟩
    | halted => exact settle_leads hm ha
    | unchanged => exact settle_leads hm ha
  | factor point resume =>
    rw [hi] at h
    obtain ⟨hn, ha⟩ := Handler.answer_factor h
    simp only [handler, bind_eq_ok, Run.modifyEngine_eq_ok, Run.engine_eq_ok] at ha
    obtain ⟨_, _, rfl, _, _, ⟨rfl, rfl⟩, ha⟩ := ha
    have hm := hr.factor hi hn rfl
    unfold Moment.afterFactor at hm
    split at ha <;> rename_i hz <;> simp only [hz, ↓reduceIte, Bool.false_eq_true] at hm
    · exact settle_leads hm ha
    · obtain ⟨rfl, rfl⟩ := pure_eq_ok.mp ha
      exact ⟨origin, hm⟩
  | exit store value =>
    rw [hi] at h
    exact settle_leads (hr.exit hi) (Handler.answer_exit h)

/-- Every moment between two effects of a run is one of its moments. -/
theorem passes_leads {first next : Resume} {r s : Session MetropolisHastings}
    (began : MetropolisHastings.start task ⟨{}, context⟩ = .ok first r)
    (h : (handler task).Passes first r next s) :
    ∃ origin, Reaches task context origin (.awaiting next) s :=
  h.induction (P := fun next s => ∃ origin, Reaches task context origin (.awaiting next) s)
    ⟨none, .start began⟩ fun _ _ _ _ ⟨_, reached⟩ answered => answer_leads reached answered

/-- A run that comes to a result made it of the state in which it recorded its last step. -/
theorem drive_leads {fuel : Nat} {next : Resume} {s t : Session MetropolisHastings}
    {result : Empirical} (hr : Reaches task context origin (.awaiting next) s)
    (h : (handler task).drive fuel next s = .ok result t) :
    Leads task context (.done result) t := by
  refine Handler.dispatch_induction
    (P := fun next s => Leads task context (.resume next) s)
    (Q := fun result s => Leads task context (.done result) s)
    ?_ ⟨origin, hr⟩ (Run.guarding_eq_ok.mp h)
  rintro next s control t ⟨origin, hr⟩ ha
  have hl := answer_leads hr ha
  cases control <;> exact hl

end Posterior.MetropolisHastings
