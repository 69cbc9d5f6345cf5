import Posterior.Proofs.ChainSteps

/-!
Regenerations: the executions by which a chain tries to replace the one it holds. A regeneration
redraws one entry, then takes values over or draws them as the program asks, and is again an
execution of the program.
-/

namespace Posterior

open Numeric

/-- The proposal remembers the chain out of which it was made and the entry it regenerates. -/
structure Proposal.Replaces (p : Proposal) (old : Chain) (i : Nat) : Prop where
  trace : p.trace = old.trace
  score : p.score = old.score
  value : p.value = old.value
  site : p.site = i

theorem Proposal.Replaces.count {p : Proposal} {old : Chain} {i : Nat} (h : p.Replaces old i)
    (x : Float) (previous : Option Entry) (forced : Bool) :
    (p.count x previous forced).Replaces old i := by
  unfold Proposal.count
  split <;> exact ⟨h.trace, h.score, h.value, h.site⟩

namespace Chain

/-- The index was drawn uniformly among `m`, which left the generator at `g₀`. -/
def PicksAmong (m i : Nat) (g₀ : Rng) : Prop :=
  ∃ (g : Rng) (pos : 0 < m) (k : Fin m), Draw.below m pos g = .ok k g₀ ∧ k.val = i

theorem PicksAmong.lt {m i : Nat} {g₀ : Rng} (h : PicksAmong m i g₀) : i < m := by
  obtain ⟨_, _, k, _, rfl⟩ := h
  exact k.isLt

/-- The chain holds a proposal that would replace `old`. -/
def Proposes (c old : Chain) (i : Nat) : Prop := ∃ p, c.proposal = some p ∧ p.Replaces old i

theorem Proposes.extends {c c' old : Chain} {i : Nat} {e : Entry} {forced : Bool}
    (h : c.Proposes old i) (hx : c.Extends e forced c') : c'.Proposes old i := by
  obtain ⟨p, hp, hr⟩ := h
  exact ⟨_, by rw [hx.proposal_eq, hp]; rfl, hr.count _ _ _⟩

theorem rewind_proposes (old : Chain) (i : Nat) (e : Entry) : (old.rewind i e).Proposes old i :=
  ⟨_, rfl, rfl, rfl, rfl, rfl⟩

/-- Taking the chain back restores trace, score and value, and closes the proposal. -/
theorem Proposes.rollBack {c old : Chain} {i : Nat} (h : c.Proposes old i) :
    c.rollBack.trace = old.trace ∧ c.rollBack.score = old.score ∧
      c.rollBack.value = old.value ∧ c.rollBack.proposal = none := by
  obtain ⟨p, hp, hr⟩ := h
  unfold Chain.rollBack
  rw [hp]
  exact ⟨hr.trace, hr.score, hr.value, rfl⟩

/-- An impossible execution has no chance against one that is possible and has choices. -/
theorem Proposes.chance_impossible {c old : Chain} {i frozen : Nat} (h : c.Proposes old i)
    (hi : i < old.trace.length) (ho : isPossible old.score = true)
    (hz : (c.score == negInf) = true) : c.chance frozen = .ok 0 := by
  obtain ⟨p, hp, hr⟩ := h
  have hs := isPossible_iff.mp ho
  have hl : (old.trace.length + frozen == 0) = false := by
    rw [beq_eq_false_iff_ne]
    omega
  simp only [chance, hp, acceptProb, hr.score, hr.trace, hs, hl, hz, Bool.or_false,
    Bool.false_eq_true, ↓reduceIte]

/-- An impossible execution is always rejected. -/
theorem Proposes.decide_impossible {c c' old : Chain} {g g' : Rng} {i frozen : Nat}
    {value : Option Value} {accepted : Bool} (h : c.Proposes old i) (hi : i < old.trace.length)
    (ho : isPossible old.score = true) (hz : (c.score == negInf) = true)
    (hd : Chain.decide frozen value (c, g) = .ok accepted (c', g')) :
    accepted = false ∧ c' = c.rollBack := by
  obtain ⟨_, chance, hc, ⟨hu, _, _⟩ | ⟨_, ha, hc'⟩⟩ := decide_eq_ok hd
  · rw [h.chance_impossible hi ho hz] at hc
    cases hc
    exact absurd hu (uniform_not_lt_zero g)
  · exact ⟨ha, hc'⟩

/-- An execution that regenerates entry `i` of `old`, drawing from the generator `g₀` on, stands at
the step. -/
inductive Regenerating (limit : Option Nat) (old : Chain) (i : Nat) (g₀ : Rng) :
    Chain × Rng → Step → Prop where
  | redraw {e : Entry} {s : Chain × Rng} {next : Resume}
      (entry : old.trace.entries[i]? = some e)
      (site : Chain.site e.choice e.deliver true (old.rewind i e, g₀) = .ok (.resume next) s) :
      Regenerating limit old i g₀ s next.invoke
  | choice {s s' : Chain × Rng} {choice : Choice} {deliver : Delivery} {next : Resume}
      (before : Regenerating limit old i g₀ s (.sample choice deliver))
      (site : Chain.site choice deliver false s = .ok (.resume next) s') :
      Regenerating limit old i g₀ s' next.invoke
  | factor {c : Chain} {g : Rng} {point : Factor} {resume : Continuation}
      (before : Regenerating limit old i g₀ (c, g) (.factor point resume))
      (number : point.logWeight.isNaN = false)
      (possible : isPossible (c.factor point.logWeight).score = true)
      (short : limit ≠ some (c.factors + 1)) :
      Regenerating limit old i g₀ (c.factor point.logWeight, g) (resume point.store)

/-- A regeneration has ended: at the exit of the program, or cut off at the factor that brings the
count to the limit. -/
inductive Regenerated (limit : Option Nat) (old : Chain) (i : Nat) (g₀ : Rng) :
    Chain × Rng → Option Value → Frontier → Prop where
  | exit {s : Chain × Rng} {store : Store} {value : Value} (resume : Continuation)
      (before : Regenerating limit old i g₀ s (.exit store value)) (free : limit = none) :
      Regenerated limit old i g₀ s (some value) ⟨resume, store⟩
  | factor {c : Chain} {g : Rng} {point : Factor} {resume : Continuation}
      (before : Regenerating limit old i g₀ (c, g) (.factor point resume))
      (number : point.logWeight.isNaN = false)
      (possible : isPossible (c.factor point.logWeight).score = true)
      (cut : limit = some (c.factors + 1)) :
      Regenerated limit old i g₀ (c.factor point.logWeight, g) c.value ⟨resume, point.store⟩

/-- A choice that goes on prolongs a replay by its entry. -/
theorem site_replay {goesOn : Float → Bool} (hg : ∀ x, isPossible x = true → goesOn x = true)
    {b : Point} {c : Chain} {g : Rng} {s : Chain × Rng} {choice : Choice} {deliver : Delivery}
    {forced : Bool} {next : Resume}
    (hr : Replay goesOn b c.trace.entries ⟨.sample choice deliver, c.score, c.factors⟩)
    (hs : site choice deliver forced (c, g) = .ok (.resume next) s) :
    Replay goesOn b s.1.trace.entries ⟨next.invoke, s.1.score, s.1.factors⟩ := by
  obtain ⟨e, rfl, rfl, _, hx, hp, rfl⟩ := site_resume hs
  have hm : Point.Meets ⟨.sample e.choice e.deliver, c.score, c.factors⟩ e :=
    ⟨rfl, hx.scoreBefore, hx.factorsBefore, hx.score, hx.number⟩
  rw [hx.entries, hx.score_eq, hx.factors_eq]
  rw [hx.score_eq] at hp
  exact hr.snoc_choice hm (hg _ hp)

/-- A factor that goes on prolongs a replay. -/
theorem factor_replay {goesOn : Float → Bool} (hg : ∀ x, isPossible x = true → goesOn x = true)
    {b : Point} {c : Chain} {point : Factor} {resume : Continuation}
    (hr : Replay goesOn b c.trace.entries ⟨.factor point resume, c.score, c.factors⟩)
    (hn : point.logWeight.isNaN = false)
    (hp : isPossible (c.factor point.logWeight).score = true) :
    Replay goesOn b (c.factor point.logWeight).trace.entries
      ⟨resume point.store, (c.factor point.logWeight).score, (c.factor point.logWeight).factors⟩ :=
  hr.snoc_factor rfl hn (hg _ hp)

namespace Regenerating

variable {limit : Option Nat} {old : Chain} {i : Nat} {g₀ : Rng} {s s' : Chain × Rng} {step : Step}

theorem proposes (h : Regenerating limit old i g₀ s step) : s.1.Proposes old i := by
  induction h with
  | redraw entry site =>
    obtain ⟨e, _, _, _, hx, _⟩ := site_resume site
    exact (rewind_proposes old i _).extends hx
  | choice before site ih =>
    obtain ⟨e, _, _, _, hx, _⟩ := site_resume site
    exact ih.extends hx
  | factor before number possible short ih => exact ih

/-- The value of the chain stands until a decision. -/
theorem value_eq (h : Regenerating limit old i g₀ s step) : s.1.value = old.value := by
  induction h with
  | redraw entry site =>
    obtain ⟨e, _, _, _, hx, _⟩ := site_resume site
    exact hx.value_eq
  | choice before site ih =>
    obtain ⟨e, _, _, _, hx, _⟩ := site_resume site
    exact hx.value_eq.trans ih
  | factor before number possible short ih => exact ih

theorem possible (h : Regenerating limit old i g₀ s step) : isPossible s.1.score = true := by
  cases h with
  | redraw entry site => exact (site_resume site).choose_spec.2.2.2.2.1
  | choice before site => exact (site_resume site).choose_spec.2.2.2.2.1
  | factor before number possible short => exact possible

/-- A choice met on the way goes on or halts; it cannot come out as unchanged. -/
theorem site {choice : Choice} {deliver : Delivery} {progress : Progress}
    (h : Regenerating limit old i g₀ s (.sample choice deliver))
    (hs : Chain.site choice deliver false s = .ok progress s') :
    (∃ next, progress = .resume next ∧ Regenerating limit old i g₀ s' next.invoke) ∨
      (progress = .halted ∧ s'.1.Proposes old i ∧ (s'.1.score == negInf) = true) := by
  cases progress with
  | resume next => exact .inl ⟨next, rfl, .choice h hs⟩
  | halted =>
    obtain ⟨e, hx, hz⟩ := site_halted hs
    exact .inr ⟨rfl, h.proposes.extends hx, hz⟩
  | unchanged => cases (site_unchanged hs).1

/-- If the entries of `old` are met in a replay, so are those of its regeneration: the prefix is
kept, and each further entry is what the program asks for next. -/
theorem replay {goesOn : Float → Bool} (hg : ∀ x, isPossible x = true → goesOn x = true)
    {b q : Point} (hr : Replay goesOn b old.trace.entries q)
    (h : Regenerating limit old i g₀ s step) :
    Replay goesOn b s.1.trace.entries ⟨step, s.1.score, s.1.factors⟩ := by
  induction h with
  | @redraw e s next entry site =>
    obtain ⟨hi, he⟩ := List.getElem?_eq_some_iff.mp entry
    have hsplit : old.trace.entries =
        old.trace.entries.take i ++ e :: old.trace.entries.drop (i + 1) := by
      rw [← he, List.getElem_cons_drop, List.take_append_drop]
    rw [hsplit] at hr
    obtain ⟨q', hq, hm, _, _⟩ := hr.at_entry
    have hq' : q' = ⟨.sample e.choice e.deliver, e.scoreBefore, e.factorsBefore⟩ := by
      rw [hm.scoreBefore, hm.factorsBefore, ← hm.step]
    exact site_replay hg (c := old.rewind i e) (hq' ▸ hq) site
  | choice before site ih => exact site_replay hg ih site
  | factor before number possible short ih => exact factor_replay hg ih number possible

end Regenerating

namespace Regenerated

variable {limit : Option Nat} {old : Chain} {i : Nat} {g₀ : Rng} {s s' : Chain × Rng}
  {value : Option Value} {frontier : Frontier}

theorem proposes (h : Regenerated limit old i g₀ s value frontier) : s.1.Proposes old i := by
  cases h with
  | exit resume before free => exact before.proposes
  | factor before number possible cut => exact before.proposes

theorem possible (h : Regenerated limit old i g₀ s value frontier) :
    isPossible s.1.score = true := by
  cases h with
  | exit resume before free => exact before.possible
  | factor before number possible cut => exact possible

/-- Behind a replay of the old entries a regeneration makes a complete execution, whether the old one
was complete or not. -/
theorem complete_of_replay {goesOn : Float → Bool}
    (hg : ∀ x, isPossible x = true → goesOn x = true) {b q : Point}
    (hr : Replay goesOn b old.trace.entries q)
    (h : Regenerated limit old i g₀ s value frontier) :
    Complete goesOn limit b s.1.trace s.1.score value frontier := by
  cases h with
  | exit resume before free =>
    subst free
    exact ⟨_, before.replay hg hr, .exit ..⟩
  | factor before number possible cut =>
    subst cut
    have hb := before.replay hg hr
    exact ⟨_, hb, .factor _ _ _ _ _ number⟩

/-- Out of a complete execution a regeneration makes a complete execution. -/
theorem complete {goesOn : Float → Bool} (hg : ∀ x, isPossible x = true → goesOn x = true)
    {b : Point} {frontier' : Frontier}
    (ho : Complete goesOn limit b old.trace old.score old.value frontier')
    (h : Regenerated limit old i g₀ s value frontier) :
    Complete goesOn limit b s.1.trace s.1.score value frontier := by
  obtain ⟨q, hr, _⟩ := ho
  exact h.complete_of_replay hg hr

/-- A decision keeps the whole new execution or brings back the whole old one. -/
theorem decide {frozen : Nat} {accepted : Bool} (h : Regenerated limit old i g₀ s value frontier)
    (hd : Chain.decide frozen value s = .ok accepted s') :
    (accepted = true ∧ s'.1.trace = s.1.trace ∧ s'.1.score = s.1.score ∧ s'.1.value = value) ∨
      (accepted = false ∧ s'.1.trace = old.trace ∧ s'.1.score = old.score ∧
        s'.1.value = old.value) := by
  obtain ⟨_, _, _, ⟨_, ha, hc⟩ | ⟨_, ha, hc⟩⟩ := decide_eq_ok hd
  · rw [hc]
    exact .inl ⟨ha, rfl, rfl, rfl⟩
  · obtain ⟨h₁, h₂, h₃, _⟩ := h.proposes.rollBack
    rw [hc]
    exact .inr ⟨ha, h₁, h₂, h₃⟩

end Regenerated

/-- A proposal picks an entry and starts to regenerate it, or its first choice halts, or the chain
is left as it was. -/
theorem propose_outcome (limit : Option Nat) {c c' : Chain} {g g' : Rng} {progress : Progress}
    (h : propose (c, g) = .ok progress (c', g')) :
    (∃ next i g₀, progress = .resume next ∧ PicksAmong c.trace.length i g₀ ∧
        Regenerating limit c i g₀ (c', g') next.invoke) ∨
      (progress = .halted ∧ ∃ i g₀, PicksAmong c.trace.length i g₀ ∧ c'.Proposes c i ∧
        (c'.score == negInf) = true) ∨
      (progress = .unchanged ∧ c'.trace = c.trace ∧ c'.score = c.score ∧ c'.value = c.value) := by
  rcases propose_eq_ok h with ⟨_, rfl, ht⟩ | ⟨pos, i, g₁, e, hd, he, hs⟩
  · cases ht
    exact .inr (.inr ⟨rfl, rfl, rfl, rfl⟩)
  · have hr := rewind_proposes c i e
    have hp : PicksAmong c.trace.length i g₁ := ⟨g, pos, i, hd, rfl⟩
    cases progress with
    | resume next =>
      exact .inl ⟨next, i, g₁, rfl, hp, .redraw he hs⟩
    | halted =>
      obtain ⟨e, hx, hz⟩ := site_halted hs
      exact .inr (.inl ⟨rfl, i, g₁, hp, hr.extends hx, hz⟩)
    | unchanged =>
      obtain ⟨_, rfl⟩ := site_unchanged hs
      obtain ⟨h₁, h₂, h₃, _⟩ := hr.rollBack
      exact .inr (.inr ⟨rfl, h₁, h₂, h₃⟩)

end Chain

end Posterior
