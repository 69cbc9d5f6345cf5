import Posterior.Proofs.Regeneration

/-!
The moments at which a particle is being moved: an effect of the program is awaited, an execution
has ended, or a step is settled. Moves that come to their end pass through these moments only.
-/

namespace Posterior.Mover

open Numeric

/-- A moment while a particle is moved; `origin` is the chain out of which the proposal under way
was made. -/
inductive Moment where
  /-- The program is about to be resumed. -/
  | awaiting (origin : Chain) (next : Resume)
  /-- An execution is over and not settled yet. -/
  | ended (origin : Chain) (ending : Ending Outcome)
  /-- The steps so far are settled and some are left. -/
  | settled (left : Nat)

/-- The moment after a choice. -/
def Moment.after (origin : Chain) : Progress → Moment
  | .resume next => .awaiting origin next
  | .halted => .ended origin (.finished .impossible)
  | .unchanged => .ended origin .unchanged

/-- The moment after a factor: executions are cut off when they reach the limit. -/
def Moment.afterFactor (origin : Chain) (limit : Option Nat) (c : Chain) (frontier : Frontier) :
    Moment :=
  if c.score == negInf then .ended origin (.finished .impossible)
  else if limit = some c.factors then .ended origin (.finished ⟨c.value, some frontier⟩)
  else .awaiting origin (.carryOn frontier.resume frontier.store)

/-- The moment after an exit: with a limit, the exit comes too early. -/
def Moment.afterExit (origin : Chain) (limit : Option Nat) (e : Mover) (store : Store)
    (value : Value) : Moment :=
  if limit.isSome then .ended origin (.finished .impossible)
  else .ended origin (.finished ⟨some value, some ⟨e.frontier.resume, store⟩⟩)

/-- A chain whose execution exits before the limit becomes impossible. -/
def leave (limit : Option Nat) (e : Mover) : Mover :=
  if limit.isSome then { e with chain := { e.chain with score := negInf } } else e

/-- One more step is begun. -/
def begin (e : Mover) (left : Nat) : Mover :=
  { e with proposals := e.proposals + 1, remaining := left }

/-- The moments that a number of steps pass through, from the session `s₀` on. -/
inductive Reaches (task : Task) (steps : Nat) (s₀ : Session Mover) :
    Moment → Session Mover → Prop where
  | start : Reaches task steps s₀ (.settled steps) s₀
  | propose {left : Nat} {progress : Progress} {s t : Session Mover}
      (before : Reaches task steps s₀ (.settled (left + 1)) s)
      (proposed : onChain Chain.propose { s with engine := s.engine.begin left } =
        .ok progress t) :
      Reaches task steps s₀ (.after s.engine.chain progress) t
  | sample {origin : Chain} {next : Resume} {s t : Session Mover} {choice : Choice}
      {deliver : Delivery} {progress : Progress}
      (before : Reaches task steps s₀ (.awaiting origin next) s)
      (effect : next.invoke = .sample choice deliver)
      (site : onChain (Chain.site choice deliver false) s = .ok progress t) :
      Reaches task steps s₀ (.after origin progress) t
  | factor {origin : Chain} {next : Resume} {s t : Session Mover} {point : Factor}
      {resume : Continuation} (before : Reaches task steps s₀ (.awaiting origin next) s)
      (effect : next.invoke = .factor point resume)
      (number : point.logWeight.isNaN = false)
      (passed : t =
        { s with engine := { s.engine with chain := s.engine.chain.factor point.logWeight } }) :
      Reaches task steps s₀
        (.afterFactor origin task.limit t.engine.chain ⟨resume, point.store⟩) t
  | exit {origin : Chain} {next : Resume} {s : Session Mover} {store : Store} {value : Value}
      (before : Reaches task steps s₀ (.awaiting origin next) s)
      (effect : next.invoke = .exit store value) :
      Reaches task steps s₀ (.afterExit origin task.limit s.engine store value)
        { s with engine := s.engine.leave task.limit }
  | conclude {origin : Chain} {ending : Ending Outcome} {s t : Session Mover}
      (before : Reaches task steps s₀ (.ended origin ending) s)
      (concluded : Mover.conclude task ending s = .ok () t) :
      Reaches task steps s₀ (.settled s.engine.remaining) t

theorem onChain_eq_ok {α : Type} {move : Move α} {s t : Session Mover} {a : α} :
    onChain move s = .ok a t ↔ ∃ c g, move (s.engine.chain, s.context.rng) = .ok a (c, g) ∧
      t = ⟨{ s.engine with chain := c }, { s.context with rng := g }⟩ :=
  Chain.within_eq_ok

/-- Observing the value of the chain changes the histogram alone. -/
theorem observe_eq (e : Mover) : e.observe =
    { e with histogram := e.histogram.map fun h => e.chain.value.elim h h.observe } := by
  obtain ⟨chain, frontier, remaining, histogram, proposals, accepted⟩ := e
  cases histogram with
  | none => rfl
  | some histogram =>
    unfold observe
    cases chain.value <;> rfl

theorem observe_remaining (e : Mover) : e.observe.remaining = e.remaining := by
  rw [observe_eq]

/-- The frontier that an execution has come to, if it is another one. -/
def frontier? : Ending Outcome → Option Frontier
  | .finished outcome => outcome.frontier
  | .unchanged => none

/-- One more step is settled, and `accepted` says whether its execution was kept. If it was, so is
the frontier that it came to. -/
structure Records (task : Task) (ending : Ending Outcome) (accepted : Bool)
    (s t : Session Mover) : Prop where
  decided : Chain.Decides task.frozen Outcome.value (s.engine.chain, s.context.rng) ending accepted
    (t.engine.chain, t.context.rng)
  frontier : t.engine.frontier =
    if accepted then (frontier? ending).getD s.engine.frontier else s.engine.frontier
  remaining : t.engine.remaining = s.engine.remaining
  observed : t.engine.histogram =
    s.engine.histogram.map fun h => t.engine.chain.value.elim h h.observe
  proposals : t.engine.proposals = s.engine.proposals
  accepted : t.engine.accepted = s.engine.accepted + accepted.toNat

theorem conclude_records {task : Task} {ending : Ending Outcome} {s t : Session Mover}
    (h : conclude task ending s = .ok () t) : ∃ accepted, Records task ending accepted s t := by
  cases ending with
  | unchanged =>
    simp only [conclude, bind_eq_ok, Run.modifyEngine_eq_ok, observe_eq] at h
    obtain ⟨_, _, rfl, rfl⟩ := h
    exact ⟨true, .unchanged, rfl, rfl, rfl, rfl, rfl⟩
  | finished outcome =>
    simp only [conclude, bind_eq_ok, onChain_eq_ok] at h
    obtain ⟨accepted, _, ⟨c, g, decided, rfl⟩, h⟩ := h
    cases accepted <;>
      simp only [↓reduceIte, Bool.false_eq_true, bind_eq_ok, Run.modifyEngine_eq_ok,
        observe_eq] at h
    · subst h
      exact ⟨false, .finished decided, rfl, rfl, rfl, rfl, rfl⟩
    · obtain ⟨_, _, rfl, rfl⟩ := h
      exact ⟨true, .finished decided, rfl, rfl, rfl, rfl, rfl⟩

variable {task : Task} {steps : Nat} {s₀ : Session Mover}

/-- Without a histogram no step is observed. -/
theorem Reaches.unobserved {moment : Moment} {s : Session Mover}
    (h₀ : s₀.engine.histogram = none) (h : Reaches task steps s₀ moment s) :
    s.engine.histogram = none := by
  induction h with
  | start => exact h₀
  | propose before proposed ih =>
    obtain ⟨c, g, _, rfl⟩ := onChain_eq_ok.mp proposed
    exact ih
  | sample before effect site ih =>
    obtain ⟨c, g, _, rfl⟩ := onChain_eq_ok.mp site
    exact ih
  | factor before effect number passed ih =>
    subst passed
    exact ih
  | exit before effect ih =>
    unfold leave
    split <;> exact ih
  | conclude before concluded ih =>
    obtain ⟨_, recorded⟩ := conclude_records concluded
    rw [recorded.observed, ih]
    rfl

/-- What proposing leads to: another effect is awaited, or no step is left. -/
def Pauses (task : Task) (steps : Nat) (s₀ : Session Mover) (pause : Option Resume)
    (t : Session Mover) : Prop :=
  match pause with
  | some next => ∃ origin, Reaches task steps s₀ (.awaiting origin next) t
  | none => Reaches task steps s₀ (.settled 0) t

/-- What an answer leads to. The last one leaves the handler stack as well. -/
def Leads (task : Task) (steps : Nat) (s₀ : Session Mover) (control : Control Unit)
    (t : Session Mover) : Prop :=
  match control with
  | .resume next => ∃ origin, Reaches task steps s₀ (.awaiting origin next) t
  | .done _ => ∃ s, Reaches task steps s₀ (.settled 0) s ∧ t.engine = s.engine

/-- From a settled step on, `advance` passes through the moments of the moves. -/
theorem advance_pauses {left : Nat} {s t : Session Mover} {pause : Option Resume}
    (hr : Reaches task steps s₀ (.settled left) s) (h : advance task left s = .ok pause t) :
    Pauses task steps s₀ pause t := by
  induction left generalizing s with
  | zero =>
    obtain ⟨rfl, rfl⟩ := pure_eq_ok.mp h
    exact hr
  | succ left ih =>
    simp only [advance, bind_eq_ok, Run.modifyEngine_eq_ok] at h
    obtain ⟨_, _, rfl, progress, r, hp, h⟩ := h
    have hm := hr.propose hp
    have hk : r.engine.remaining = left := by
      obtain ⟨c, g, _, rfl⟩ := onChain_eq_ok.mp hp
      rfl
    cases progress with
    | resume next =>
      obtain ⟨rfl, rfl⟩ := pure_eq_ok.mp h
      exact ⟨_, hm⟩
    | halted =>
      simp only [bind_eq_ok] at h
      obtain ⟨_, r', hc, h⟩ := h
      exact ih (hk ▸ hm.conclude hc) h
    | unchanged =>
      simp only [bind_eq_ok] at h
      obtain ⟨_, r', hc, h⟩ := h
      exact ih (hk ▸ hm.conclude hc) h

/-- From the end of an execution on, `settle` passes through the moments of the moves. -/
theorem settle_leads {origin : Chain} {ending : Ending Outcome} {s t : Session Mover}
    {control : Control Unit} (hr : Reaches task steps s₀ (.ended origin ending) s)
    (h : settle task ending s = .ok control t) : Leads task steps s₀ control t := by
  simp only [settle, bind_eq_ok, Run.engine_eq_ok] at h
  obtain ⟨_, r, hc, _, _, ⟨rfl, rfl⟩, pause, r', ha, h⟩ := h
  have hm := hr.conclude hc
  obtain ⟨_, recorded⟩ := conclude_records hc
  rw [← recorded.remaining] at hm
  have hp := advance_pauses hm ha
  cases pause with
  | some next =>
    obtain ⟨rfl, rfl⟩ := pure_eq_ok.mp h
    exact hp
  | none =>
    simp only [bind_eq_ok, pure_eq_ok] at h
    obtain ⟨_, _, hres, rfl, rfl⟩ := h
    exact ⟨r', hp, Run.restore_engine hres⟩

theorem answer_leads {origin : Chain} {next : Resume} {s t : Session Mover}
    {control : Control Unit} (hr : Reaches task steps s₀ (.awaiting origin next) s)
    (h : (handler task).answer next.invoke s = .ok control t) :
    Leads task steps s₀ control t := by
  cases hi : next.invoke with
  | sample choice deliver =>
    rw [hi] at h
    have ha := Handler.answer_sample h
    simp only [handler, bind_eq_ok] at ha
    obtain ⟨progress, r, hs, ha⟩ := ha
    have hm := hr.sample hi hs
    cases progress with
    | resume next =>
      obtain ⟨rfl, rfl⟩ := pure_eq_ok.mp ha
      exact ⟨origin, hm⟩
    | halted => exact settle_leads hm ha
    | unchanged => exact settle_leads hm ha
  | factor point resume =>
    rw [hi] at h
    obtain ⟨hn, ha⟩ := Handler.answer_factor h
    simp only [handler, bind_eq_ok, Run.modifyEngine_eq_ok, Run.engine_eq_ok] at ha
    obtain ⟨_, _, rfl, _, _, ⟨rfl, rfl⟩, ha⟩ := ha
    have hm := hr.factor hi hn rfl
    unfold Moment.afterFactor at hm
    split at ha <;> rename_i hz <;> simp only [hz, ↓reduceIte, Bool.false_eq_true] at hm
    · exact settle_leads hm ha
    · split at ha <;> rename_i hl <;> simp only [hl, ↓reduceIte] at hm
      · exact settle_leads hm ha
      · obtain ⟨rfl, rfl⟩ := pure_eq_ok.mp ha
        exact ⟨origin, hm⟩
  | exit store value =>
    rw [hi] at h
    have ha := Handler.answer_exit h
    have hm := hr.exit hi
    unfold Moment.afterExit leave at hm
    simp only [handler] at ha
    split at ha <;> rename_i hl <;>
      simp only [hl, ↓reduceIte, Bool.false_eq_true, bind_eq_ok, Run.modifyEngine_eq_ok,
        Run.engine_eq_ok] at ha hm
    · obtain ⟨_, _, rfl, ha⟩ := ha
      exact settle_leads hm ha
    · obtain ⟨_, _, ⟨rfl, rfl⟩, ha⟩ := ha
      exact settle_leads hm ha

/-- Every moment between two effects of the moves is one of their moments. -/
theorem passes_leads {first next : Resume} {r s : Session Mover}
    (began : advance task steps s₀ = .ok (some first) r)
    (h : (handler task).Passes first r next s) :
    ∃ origin, Reaches task steps s₀ (.awaiting origin next) s :=
  h.induction (P := fun next s => ∃ origin, Reaches task steps s₀ (.awaiting origin next) s)
    (advance_pauses .start began) fun _ _ _ _ ⟨_, reached⟩ answered =>
      answer_leads reached answered

/-- Steps that are all taken have been settled one after the other. -/
theorem take_settled {fuel : Nat} {t : Session Mover}
    (h : take task fuel steps s₀ = .ok () t) :
    ∃ s, Reaches task steps s₀ (.settled 0) s ∧ t.engine = s.engine := by
  unfold take at h
  simp only [Run.guarding_eq_ok, bind_eq_ok] at h
  obtain ⟨pause, r, ha, h⟩ := h
  have hp := advance_pauses .start ha
  cases pause with
  | none => exact ⟨r, hp, Run.restore_engine h⟩
  | some next =>
    refine Handler.dispatch_induction
      (P := fun next s => Leads task steps s₀ (.resume next) s)
      (Q := fun _ s => Leads task steps s₀ (.done ()) s)
      ?_ hp (Run.guarding_eq_ok.mp h)
    rintro next s control t ⟨origin, hr⟩ hs
    have hl := answer_leads hr hs
    cases control <;> exact hl

end Posterior.Mover
