import Posterior.Proofs.MetropolisCoherence
import Posterior.Proofs.MoverRuns
import Posterior.Proofs.Reversal

/-!
The selection of the entry that a proposal regenerates, and the counts by which a decision weighs
it. A proposal picks among the entries of its chain; a decision counts the frozen choices as well,
so the two agree exactly where nothing is frozen.
-/

namespace Posterior

open Numeric

namespace Chain

/-- A proposal out of the chain picks the entry to regenerate uniformly among the first `m` of its
trace; among none there is nothing to propose. -/
def ProposesAmong (c : Chain) (m : Nat) : Prop :=
  if pos : 0 < m then
    ∀ g, ∃ (i : Fin m) (g₁ : Rng) (e : Entry), Draw.below m pos g = .ok i g₁ ∧
      c.trace.entries[i.val]? = some e ∧
      propose (c, g) = site e.choice e.deliver true (c.rewind i e, g₁)
  else ∀ g, propose (c, g) = .ok .unchanged (c, g)

theorem proposesAmong_length (c : Chain) : c.ProposesAmong c.trace.length := by
  change c.ProposesAmong c.trace.entries.length
  unfold ProposesAmong
  split
  · rename_i pos
    intro g
    obtain ⟨i, g₁, hd⟩ := Draw.below_ok pos g
    have he := List.getElem?_eq_getElem i.isLt
    exact ⟨i, g₁, _, hd, he, propose_pick hd he⟩
  · rename_i hz
    exact propose_nothing hz

/-- The proposal under way regenerates an entry that was picked among those of `old`. -/
def Picked (old c : Chain) : Prop :=
  ∃ i g₀, PicksAmong old.trace.length i g₀ ∧ c.Proposes old i

/-- How a decision about `c`, which was proposed out of `old`, counts. The regenerated entry was
picked among `m` entries of `old`, and once `c` is accepted the next one is picked among `m'`; the
acceptance probability is taken with `frozen` more on either side. -/
structure Weighed (frozen : Nat) (old c : Chain) (m m' : Nat) : Prop where
  picked : ∃ i g₀ p, PicksAmong m i g₀ ∧ c.proposal = some p ∧ p.Replaces old i ∧
    c.chance frozen = acceptProb c.score old.score (m' + frozen) (m + frozen)
      (if c.score == negInf then p.backward else p.wayBack c.trace) p.forward
  there : old.ProposesAmong m
  back : ∀ value g c' g', Chain.decide frozen value (c, g) = .ok true (c', g') →
    c'.ProposesAmong m'

theorem Picked.weighed {old c : Chain} (h : Picked old c) (frozen : Nat) :
    Weighed frozen old c old.trace.length c.trace.length := by
  obtain ⟨i, g₀, hpick, p, hp, hr⟩ := h
  refine ⟨⟨i, g₀, p, hpick, hp, hr, ?_⟩, old.proposesAmong_length, ?_⟩
  · simp only [chance, hp, hr.score, hr.trace]
  · intro value g c' g' hd
    obtain ⟨_, _, _, ⟨_, _, rfl⟩ | ⟨_, ha, _⟩⟩ := decide_eq_ok hd
    · exact proposesAmong_length _
    · cases ha

theorem Picked.site {old c c' : Chain} {g g' : Rng} {choice : Choice} {deliver : Delivery}
    {progress : Progress} (h : Picked old c)
    (hs : Chain.site choice deliver false (c, g) = .ok progress (c', g')) : Picked old c' := by
  obtain ⟨i, g₀, hpick, hp⟩ := h
  rcases site_eq_ok.mp hs with ⟨e, _, _, _, hx, _⟩ | ⟨hf, _⟩
  · exact ⟨i, g₀, hpick, hp.extends hx⟩
  · cases hf

end Chain

/-- An execution that is under way or over came out of a pick among the entries of the chain that it
may replace. -/
def Mover.Moment.Picked : Mover.Moment → Chain → Prop
  | .awaiting old _, c => Chain.Picked old c
  | .ended old (.finished _), c => Chain.Picked old c
  | .ended _ .unchanged, _ => True
  | .settled _, _ => True

/-- Whatever the floor and the limit, a particle is moved by executions that came out of picks. -/
theorem Mover.Reaches.picked {task : Task} {steps : Nat} {s₀ s : Session Mover} {moment : Moment}
    (h : Reaches task steps s₀ moment s) : moment.Picked s.engine.chain := by
  induction h with
  | start => trivial
  | propose before proposed ih =>
    obtain ⟨c, g, hp, rfl⟩ := onChain_eq_ok.mp proposed
    rcases Chain.propose_outcome none hp with
      ⟨next, i, g₀, rfl, hpick, hr⟩ | ⟨rfl, i, g₀, hpick, hr, _⟩ | ⟨rfl, _⟩
    · exact ⟨i, g₀, hpick, hr.proposes⟩
    · exact ⟨i, g₀, hpick, hr⟩
    · trivial
  | @sample origin next s t choice deliver progress before effect site ih =>
    obtain ⟨c, g, hs, rfl⟩ := onChain_eq_ok.mp site
    cases progress with
    | resume next => exact ih.site hs
    | halted => exact ih.site hs
    | unchanged => trivial
  | factor before effect number passed ih =>
    subst passed
    unfold Moment.afterFactor
    split
    · exact ih
    · split <;> exact ih
  | exit before effect ih =>
    unfold Moment.afterExit leave
    split <;> exact ih
  | conclude before concluded ih => trivial

theorem MetropolisHastings.Reaches.picked {task : Task} {context : Context} {old : Chain}
    {value : Option Value} {s : Session MetropolisHastings}
    (h : Reaches task context (some old) (.ended (.finished value)) s) :
    Chain.Picked old s.engine.chain := by
  have hh := h.holds
  cases value with
  | none => exact hh.2
  | some value =>
    obtain ⟨store, hs⟩ := hh
    exact hs.abandoned.2

/-- A particle that can be moved has choices from its floor on, so all choices below are there. -/
theorem Particle.frozen_eq_floor {p : Particle} {steps : Nat} (h : p.movable steps = true) :
    p.frozen = p.regenFloor := by
  unfold Particle.movable at h
  simp only [Bool.and_eq_true, Bool.not_eq_true', Trace.isEmpty, Trace.entries_drop,
    List.isEmpty_eq_false_iff, ne_eq, List.drop_eq_nil_iff] at h
  unfold Particle.frozen Trace.length
  omega

/-- A decision that follows a proposal is at hand: one about `c`, which was proposed out of `old`, with
a number of choices frozen below a floor. Metropolis-Hastings has no floor. -/
inductive Deciding : (floor frozen : Nat) → (old c : Chain) → Prop where
  | metropolis {task : MetropolisHastings.Task} {context : Context} {old : Chain}
      {value : Option Value} {s : Session MetropolisHastings}
      (ended : MetropolisHastings.Reaches task context (some old) (.ended (.finished value)) s) :
      Deciding 0 0 old s.engine.chain
  | particle {p : Particle} {id : HandlerId} {limit : Option Nat} {steps : Nat}
      {s₀ s : Session Mover} {old : Chain} {outcome : Mover.Outcome}
      (movable : p.movable steps = true)
      (ended : Mover.Reaches { id, frozen := p.frozen, limit } steps s₀
        (.ended old (.finished outcome)) s) :
      Deciding p.regenFloor p.frozen old s.engine.chain

theorem Deciding.picked {floor frozen : Nat} {old c : Chain} (h : Deciding floor frozen old c) :
    Chain.Picked old c := by
  cases h with
  | metropolis ended => exact ended.picked
  | particle movable ended => exact Mover.Reaches.picked ended

theorem Deciding.frozen_eq {floor frozen : Nat} {old c : Chain} (h : Deciding floor frozen old c) :
    frozen = floor := by
  cases h with
  | metropolis ended => rfl
  | particle movable ended => exact Particle.frozen_eq_floor movable

/-- Counting some more on both sides leaves the quotient of the counts as it is exactly if there are
none more, or if the counts are the same. -/
theorem quotient_frozen (m m' frozen : Nat) :
    (m + frozen) * m' = m * (m' + frozen) ↔ frozen = 0 ∨ m = m' := by
  rw [Nat.add_mul, Nat.mul_add, Nat.add_left_cancel_iff, Nat.mul_comm m frozen]
  rcases Nat.eq_zero_or_pos frozen with rfl | hf
  · simp
  · rw [Nat.mul_right_inj (Nat.ne_of_gt hf)]
    omega

/-- A decision counts the entries that its proposal and the next one pick among, and the frozen
choices on top. So its counts are those of the picks exactly if the floor is zero, as it always is in
Metropolis-Hastings; above a floor their quotient is that of the picks exactly if the new execution
has as many entries as the old one. -/
theorem decisions_count_frozen {floor frozen : Nat} {old c : Chain}
    (h : Deciding floor frozen old c) :
    let m := old.trace.length
    let m' := c.trace.length
    Chain.Weighed frozen old c m m' ∧
      (m + frozen = m ∧ m' + frozen = m' ↔ floor = 0) ∧
      ((m + frozen) * m' = m * (m' + frozen) ↔ floor = 0 ∨ m = m') := by
  refine ⟨h.picked.weighed frozen, ?_, ?_⟩
  · rw [h.frozen_eq]
    omega
  · rw [quotient_frozen, h.frozen_eq]

/-- A coin that is flipped before those of `twoCoins`. -/
def frozenFlip : Entry :=
  { firstFlip true with choice := ⟨default, Address.root.child "frozen", coin, []⟩ }

/-- A particle with one choice below its floor and one from it on. -/
def halfFrozen : Particle where
  resume := default
  store := default
  score := -2
  trace := ⟨[frozenFlip, { firstFlip false with scoreBefore := -1 }], by decide⟩
  regenFloor := 1
  completed := true
  value := some (.bool false)

/-- The free choice of the particle turns to heads, which adds another one: picked among one entry
on the way there and among two on the way back, but counted as two and three. -/
theorem halfFrozen_counts : ∃ old c, Deciding 1 1 old c ∧ Chain.Weighed 1 old c 1 2 ∧
    ¬ (1 + 1 = 1 ∧ 2 + 1 = 2) ∧ ¬ (1 + 1) * 2 = 1 * (2 + 1) := by
  have h₀ : Mover.Reaches ⟨⟨1⟩, halfFrozen.frozen, none⟩ 1
      ⟨{ chain := { trace := halfFrozen.trace.drop 1, score := -2, value := some (.bool false) }
         frontier := ⟨halfFrozen.resume, halfFrozen.store⟩ }, quietContext "rejuvenator"⟩
      (.settled 1) _ := .start
  have h₁ := h₀.propose rfl
  have h₂ := h₁.sample rfl rfl
  have h₃ := h₂.exit rfl
  have hd := Deciding.particle (by decide) h₃
  obtain ⟨hw, hcounts, hquotient⟩ := decisions_count_frozen hd
  exact ⟨_, _, hd, hw, mt hcounts.mp (by decide), mt hquotient.mp (by decide)⟩

end Posterior
