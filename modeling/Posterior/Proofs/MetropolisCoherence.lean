import Posterior.Proofs.MetropolisRuns

/-!
Coherence of the Metropolis-Hastings chain: whatever has been proposed, kept, undone or started
again, the chain that a step is recorded of holds one possible execution of the program.
-/

namespace Posterior.MetropolisHastings

open Numeric

/-- The chain holds a possible execution of the program, from its start to its exit. -/
def Sound (root : Step) (c : Chain) : Prop :=
  ∃ frontier, Complete isPossible none (.start root) c.trace c.score c.value frontier

/-- The execution under way stands at the step: a first execution by itself, a later one as the
regeneration of an entry of a sound chain. -/
def Standing (root : Step) (origin : Option Chain) (s : Chain × Rng) (step : Step) : Prop :=
  match origin with
  | none => Replay isPossible (.start root) s.1.trace.entries ⟨step, s.1.score, s.1.factors⟩ ∧
      s.1.proposal = none ∧ s.1.value = none
  | some old => Sound root old ∧ ∃ i g₀, Chain.PicksAmong old.trace.length i g₀ ∧
      Chain.Regenerating none old i g₀ s step

/-- The execution that was under way is given up; only what it was to replace matters. -/
def Abandoned (root : Step) (origin : Option Chain) (c : Chain) : Prop :=
  match origin with
  | none => c.proposal = none ∧ c.value = none
  | some old => Sound root old ∧ ∃ i g₀, Chain.PicksAmong old.trace.length i g₀ ∧ c.Proposes old i

/-- What holds of the chain and the generator at each moment of a run. -/
def Holds (root : Step) (origin : Option Chain) : Moment → Chain × Rng → Prop
  | .awaiting next, s => Standing root origin s next.invoke
  | .ended (.finished (some value)), s => ∃ store, Standing root origin s (.exit store value)
  | .ended (.finished none), s => Abandoned root origin s.1
  | .ended .unchanged, s => Sound root s.1
  | .recorded, s => Sound root s.1

variable {root : Step} {origin : Option Chain} {c c' : Chain} {g : Rng} {s s' : Chain × Rng}

theorem Sound.of_eq (h : Sound root c) (ht : c'.trace = c.trace) (hs : c'.score = c.score)
    (hv : c'.value = c.value) : Sound root c' := by
  unfold Sound
  rw [ht, hs, hv]
  exact h

/-- The choices on the trace lead the program to where the execution stands. -/
theorem Standing.replay {step : Step} (h : Standing root origin s step) :
    Replay isPossible (.start root) s.1.trace.entries ⟨step, s.1.score, s.1.factors⟩ := by
  cases origin with
  | none => exact h.1
  | some old =>
    obtain ⟨⟨_, _, replay, _⟩, _, _, _, regenerating⟩ := h
    exact regenerating.replay (fun _ => id) replay

theorem Standing.abandoned {step : Step} (h : Standing root origin s step) :
    Abandoned root origin s.1 := by
  cases origin with
  | none => exact h.2
  | some old =>
    obtain ⟨ho, i, g₀, hpick, hr⟩ := h
    exact ⟨ho, i, g₀, hpick, hr.proposes⟩

theorem Standing.site {choice : Choice} {deliver : Delivery} {progress : Progress}
    (h : Standing root origin s (.sample choice deliver))
    (hs : Chain.site choice deliver false s = .ok progress s') :
    Holds root origin (.after progress) s' := by
  cases origin with
  | none =>
    obtain ⟨hr, hp, hv⟩ := h
    cases progress with
    | resume next =>
      obtain ⟨e, _, _, _, hx, _⟩ := Chain.site_resume hs
      exact ⟨Chain.site_replay (fun _ => id) hr hs, by rw [hx.proposal_eq, hp]; rfl,
        hx.value_eq.trans hv⟩
    | halted =>
      obtain ⟨e, hx, _⟩ := Chain.site_halted hs
      exact ⟨by rw [hx.proposal_eq, hp]; rfl, hx.value_eq.trans hv⟩
    | unchanged => cases (Chain.site_unchanged hs).1
  | some old =>
    obtain ⟨ho, i, g₀, hpick, hr⟩ := h
    rcases hr.site hs with ⟨next, rfl, hr'⟩ | ⟨rfl, hp, _⟩
    · exact ⟨ho, i, g₀, hpick, hr'⟩
    · exact ⟨ho, i, g₀, hpick, hp⟩

theorem Standing.factor {point : Factor} {resume : Continuation}
    (h : Standing root origin (c, g) (.factor point resume))
    (hn : point.logWeight.isNaN = false) :
    Holds root origin
      (.afterFactor (c.factor point.logWeight) (.carryOn resume point.store))
      (c.factor point.logWeight, g) := by
  unfold Moment.afterFactor
  split
  · exact h.abandoned
  · rename_i hz
    have hp := isPossible_iff.mpr (eq_false_of_ne_true hz)
    cases origin with
    | none => exact ⟨Chain.factor_replay (fun _ => id) h.1 hn hp, h.2⟩
    | some old =>
      obtain ⟨ho, i, g₀, hpick, hr⟩ := h
      exact ⟨ho, i, g₀, hpick, hr.factor hn hp (by simp)⟩

/-- What a rejected execution leaves behind is sound as soon as it holds a value. -/
theorem Abandoned.rollBack {value : Value} (h : Abandoned root origin c)
    (hv : c.rollBack.value = some value) : Sound root c.rollBack := by
  cases origin with
  | none =>
    obtain ⟨hp, hn⟩ := h
    simp [Chain.rollBack, hp, hn] at hv
  | some old =>
    obtain ⟨ho, i, _, _, hp⟩ := h
    obtain ⟨ht, hs, hv, _⟩ := hp.rollBack
    exact ho.of_eq ht hs hv

/-- An execution that has come to its exit is sound once its value is kept. -/
theorem Standing.exit {store : Store} {value : Value}
    (h : Standing root origin s (.exit store value)) :
    Sound root { s.1 with value := some value, proposal := none } := by
  exact ⟨⟨default, store⟩, _, h.replay, .exit ..⟩

theorem Holds.conclude {ending : Ending (Option Value)} {s t : Session MetropolisHastings}
    (h : Holds root origin (.ended ending) (s.engine.chain, s.context.rng))
    (hc : MetropolisHastings.conclude ending s = .ok () t) : Sound root t.engine.chain := by
  obtain ⟨accepted, recorded⟩ := conclude_records hc
  obtain ⟨held, hv, _⟩ := recorded.observed
  have hd := recorded.decided
  generalize t.engine.chain = c at hv hd ⊢
  generalize t.context.rng = g at hd
  cases hd with
  | unchanged => exact h
  | @finished value _ _ hd =>
    obtain ⟨_, _, _, ⟨_, _, hc⟩ | ⟨_, _, hc⟩⟩ := Chain.decide_eq_ok hd
    · rw [hc] at hv ⊢
      cases value with
      | none => cases hv
      | some value =>
        obtain ⟨store, h⟩ := h
        exact h.exit
    · have ha : Abandoned root origin s.engine.chain := by
        cases value with
        | none => exact h
        | some value =>
          obtain ⟨store, h⟩ := h
          exact h.abandoned
      rw [hc] at hv ⊢
      exact ha.rollBack hv

/-- Each moment of a run keeps the chain in order. -/
theorem Reaches.holds {task : Task} {context : Context} {moment : Moment}
    {s : Session MetropolisHastings} (h : Reaches task context origin moment s) :
    Holds (task.entry task.store) origin moment (s.engine.chain, s.context.rng) := by
  induction h with
  | start began =>
    obtain ⟨rfl, hc⟩ := start_eq_ok began
    rw [hc]
    exact ⟨.rest _, rfl, rfl⟩
  | sample before effect site ih =>
    obtain ⟨c, g, hs, rfl⟩ := onChain_eq_ok.mp site
    simp only [Holds, effect] at ih
    exact ih.site hs
  | factor before effect number passed ih =>
    subst passed
    simp only [Holds, effect] at ih
    exact ih.factor number
  | exit before effect ih =>
    simp only [Holds, effect] at ih
    exact ⟨_, ih⟩
  | restart before impossible began ih =>
    obtain ⟨rfl, hc⟩ := start_eq_ok began
    rw [hc]
    exact ⟨.rest _, rfl, rfl⟩
  | conclude before settled concluded ih => exact ih.conclude concluded
  | propose before left proposed ih =>
    obtain ⟨c, g, hp, rfl⟩ := onChain_eq_ok.mp proposed
    rcases Chain.propose_outcome none hp with
      ⟨next, i, g₀, rfl, hpick, hr⟩ | ⟨rfl, i, g₀, hpick, hr, _⟩ | ⟨rfl, ht, hs, hv⟩
    · exact ⟨ih, i, g₀, hpick, hr⟩
    · exact ⟨ih, i, g₀, hpick, hr⟩
    · exact Sound.of_eq ih ht hs hv

end Posterior.MetropolisHastings
