import Mathlib.Logic.Relation
import Posterior.Proofs.Regeneration

/-!
Regenerations are determinate: the entry that is regenerated and the generator fix every step of
the way and so the end of it.
-/

namespace Posterior.Chain

open Relation Numeric

/-- One step of a regeneration, behind the regenerated entry. -/
inductive Advances (limit : Option Nat) : (Chain × Rng) × Step → (Chain × Rng) × Step → Prop where
  | choice {s s' : Chain × Rng} {choice : Choice} {deliver : Delivery} {next : Resume}
      (site : Chain.site choice deliver false s = .ok (.resume next) s') :
      Advances limit (s, .sample choice deliver) (s', next.invoke)
  | factor {c : Chain} {g : Rng} {point : Factor} {resume : Continuation}
      (short : limit ≠ some (c.factors + 1)) :
      Advances limit ((c, g), .factor point resume)
        ((c.factor point.logWeight, g), resume point.store)

theorem advances_rightUnique (limit : Option Nat) : Relator.RightUnique (Advances limit) := by
  intro x y z hy hz
  cases hy with
  | choice site =>
    cases hz with
    | choice site' =>
      rw [site] at site'
      cases site'
      rfl
  | factor short =>
    cases hz with
    | factor short' => rfl

variable {limit : Option Nat} {old : Chain} {i : Nat} {g₀ : Rng} {s s' : Chain × Rng}
  {step : Step} {value value' : Option Value} {frontier frontier' : Frontier}

/-- A regeneration starts with the regenerated entry and advances from there. -/
theorem Regenerating.advances (h : Regenerating limit old i g₀ s step) :
    ∃ e s₁ next, old.trace.entries[i]? = some e ∧
      Chain.site e.choice e.deliver true (old.rewind i e, g₀) = .ok (.resume next) s₁ ∧
      ReflTransGen (Advances limit) (s₁, next.invoke) (s, step) := by
  induction h with
  | @redraw e s next entry site => exact ⟨e, s, next, entry, site, .refl⟩
  | choice before site ih =>
    obtain ⟨e, s₁, next, he, hs, hr⟩ := ih
    exact ⟨e, s₁, next, he, hs, hr.tail (.choice site)⟩
  | factor before number possible short ih =>
    obtain ⟨e, s₁, next, he, hs, hr⟩ := ih
    exact ⟨e, s₁, next, he, hs, hr.tail (.factor short)⟩

/-- Of two moments of one regeneration one leads to the other. -/
theorem Regenerating.comparable {step' : Step} (h : Regenerating limit old i g₀ s step)
    (h' : Regenerating limit old i g₀ s' step') :
    ReflTransGen (Advances limit) (s, step) (s', step') ∨
      ReflTransGen (Advances limit) (s', step') (s, step) := by
  obtain ⟨e, s₁, next, he, hs, hr⟩ := h.advances
  obtain ⟨e', s₁', next', he', hs', hr'⟩ := h'.advances
  rw [he] at he'
  cases he'
  rw [hs] at hs'
  cases hs'
  exact hr.total_of_right_unique (advances_rightUnique limit) hr'

/-- What a regeneration that stands at its last step has come to. -/
def outcome : (Chain × Rng) × Step → (Chain × Rng) × Option Value
  | (s, .exit _ value) => (s, some value)
  | ((c, g), .factor point _) => ((c.factor point.logWeight, g), c.value)
  | (s, .sample _ _) => (s, s.1.value)

/-- At its end a regeneration does not advance. -/
theorem Regenerated.last (h : Regenerated limit old i g₀ s value frontier) :
    ∃ x, Regenerating limit old i g₀ x.1 x.2 ∧ (∀ y, ¬ Advances limit x y) ∧
      outcome x = (s, value) := by
  cases h with
  | exit resume before free =>
    refine ⟨(s, .exit _ _), before, ?_, rfl⟩
    intro y hy
    cases hy
  | factor before number possible cut =>
    refine ⟨((_, _), .factor _ _), before, ?_, rfl⟩
    intro y hy
    cases hy with
    | factor short => exact short cut

/-- A regeneration has one end. -/
theorem Regenerated.unique (h : Regenerated limit old i g₀ s value frontier)
    (h' : Regenerated limit old i g₀ s' value' frontier') : s = s' ∧ value = value' := by
  obtain ⟨x, hx, hstuck, ho⟩ := h.last
  obtain ⟨y, hy, hstuck', ho'⟩ := h'.last
  have hxy : x = y := by
    rcases hx.comparable hy with hr | hr
    · rcases hr.cases_head with he | ⟨z, hz, _⟩
      · exact he
      · exact absurd hz (hstuck z)
    · rcases hr.cases_head with he | ⟨z, hz, _⟩
      · exact he.symm
      · exact absurd hz (hstuck' z)
  rw [← hxy, ho] at ho'
  cases ho'
  exact ⟨rfl, rfl⟩

end Posterior.Chain
