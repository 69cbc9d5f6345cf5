import Posterior.Distribution.Elementary
import Posterior.Proofs.Lockstep
import Posterior.Proofs.MetropolisRuns
import Posterior.Proofs.MoverRuns
import Posterior.Proofs.Resampling
import Posterior.Proofs.Resumption

/-!
Ranges and counters. Where an engine draws an index, the range is not empty; where it looks an index
up, there is something to be found; where it takes one off a count, there is one to take. Each
operation is set against its form with a lookup that can come to nothing.
-/

namespace Posterior

open Numeric

/-- An index drawn below a bound is a uniform index, and the range is not empty. -/
theorem Draw.index?_of_below {n : Nat} {pos : 0 < n} {g g' : Rng} {i : Fin n}
    (h : Draw.below n pos g = .ok i g') : g.index? n = some (i.val, g') := by
  unfold Draw.below at h
  unfold Rng.index?
  rw [dif_pos pos]
  generalize g.below n pos = drawn at h ⊢
  cases h
  rfl

/-- An item is drawn by an index over the list of them, unless the list is empty. -/
def Distribution.PicksItem (params : List Value) (g : Rng) : Prop :=
  ∀ items, listParam "uniform-draw" params 0 = .ok items →
    (items = [] ∧ uniformDraw.draw params g =
      .error (.badParameters "uniform-draw" .noItems params.length) g) ∨
    ∃ i g' item, g.index? items.length = some (i, g') ∧ items[i]? = some item ∧
      uniformDraw.draw params g = .ok item g'

theorem Distribution.picksItem (params : List Value) (g : Rng) : PicksItem params g := by
  intro items listed
  have start : uniformDraw.draw params g = (if pos : 0 < items.length then do
      return items[← Draw.below items.length pos]
    else throw (.badParameters "uniform-draw" .noItems params.length) : Draw Value) g := by
    change ((do
      let items ← Draw.ofExcept (listParam "uniform-draw" params 0)
      if pos : 0 < items.length then
        return items[← Draw.below items.length pos]
      else throw (.badParameters "uniform-draw" .noItems params.length) : Draw Value)) g = _
    rw [listed]
    rfl
  rw [start]
  by_cases pos : 0 < items.length
  · obtain ⟨i, g', drawn⟩ := Draw.below_ok pos g
    refine .inr ⟨i, g', items[i], Draw.index?_of_below drawn, List.getElem?_eq_getElem i.isLt, ?_⟩
    rw [dif_pos pos, bind_ok drawn]
    rfl
  · refine .inl ⟨List.eq_nil_of_length_eq_zero (by omega), ?_⟩
    rw [dif_neg pos]
    rfl

namespace Chain

/-- A proposal draws an index over the trace, unless there is nothing to draw from, and finds the
entry with that index. -/
def Regenerates (c : Chain) (g : Rng) : Prop :=
  (c.trace.isEmpty = true ∧ propose (c, g) = .ok .unchanged (c, g)) ∨
    ∃ i g' e, g.index? c.trace.length = some (i, g') ∧ c.trace.entry? i = some e ∧
      propose (c, g) = site e.choice e.deliver true (c.rewind i e, g')

theorem regenerates (c : Chain) (g : Rng) : c.Regenerates g := by
  by_cases pos : 0 < c.trace.entries.length
  · obtain ⟨i, g', hd⟩ := Draw.below_ok pos g
    have found := List.getElem?_eq_getElem i.isLt
    exact .inr ⟨i, g', _, Draw.index?_of_below hd, found, propose_pick hd found⟩
  · refine .inl ⟨?_, propose_nothing pos g⟩
    unfold Trace.isEmpty
    rw [List.isEmpty_iff_length_eq_zero]
    omega

end Chain

namespace AsyncSmc

/-- The particle with the index, and the buffer without the execution that it now runs: one that
owes several is left with one fewer, any other is taken out. -/
def releaseAt (p : AsyncParticle) (i : Nat) (buffer : List AsyncParticle) :
    AsyncParticle × List AsyncParticle :=
  if 1 < p.children then (p.child, buffer.set i { p with children := p.children - 1 })
  else (p, buffer.eraseIdx i)

/-- The particle that a draw stands for, looked up by index; the index behind the last one stands
for a fresh particle. -/
def pickAt? (e : AsyncSmc) (i : Nat) : Option (AsyncParticle × AsyncSmc) :=
  if i = e.buffer.length then some (e.fresh, { e with
    metrics.executions := e.metrics.executions + 1
    metrics.particlesSpawned := e.metrics.particlesSpawned + 1 })
  else e.buffer[i]?.map fun p =>
    ((releaseAt p i e.buffer).1, { e with buffer := (releaseAt p i e.buffer).2 })

theorem release_length (buffer : List AsyncParticle) : release buffer.length buffer = none := by
  induction buffer with
  | nil => simp only [release]
  | cons p buffer ih => simp only [List.length_cons, release, ih, Option.map_none]

theorem release_eq_releaseAt {i : Nat} {buffer : List AsyncParticle} {p : AsyncParticle}
    (h : buffer[i]? = some p) : release i buffer = some (releaseAt p i buffer) := by
  induction buffer generalizing i with
  | nil => cases h
  | cons q buffer ih =>
    cases i with
    | zero =>
      obtain rfl : q = p := by simpa using h
      simp only [release, releaseAt, List.set_cons_zero, List.eraseIdx_zero, List.tail_cons]
      split <;> rfl
    | succ i =>
      rw [List.getElem?_cons_succ] at h
      simp only [release, ih h, releaseAt, List.set_cons_succ, List.eraseIdx_cons_succ,
        Option.map_some]
      split <;> rfl

/-- Every index up to the length of the buffer stands for a particle. -/
theorem pickAt?_eq {e : AsyncSmc} {i : Nat} (h : i ≤ e.buffer.length) :
    e.pickAt? i = some (e.pick i) := by
  unfold pickAt? pick
  rcases Nat.lt_or_eq_of_le h with lt | rfl
  · have found := List.getElem?_eq_getElem lt
    rw [if_neg (Nat.ne_of_lt lt), release_eq_releaseAt found, found]
    rfl
  · rw [if_pos rfl, release_length]

/-- A launch draws an index over the buffer and one more, and finds the particle that the index
stands for. -/
def Launches (s : Session AsyncSmc) : Prop :=
  ∃ i g p e, s.context.rng.index? (s.engine.buffer.length + 1) = some (i, g) ∧
    s.engine.pickAt? i = some (p, e) ∧
    launch s = .ok (.carryOn p.resume p.store)
      ⟨{ countLaunch p e with active := some p }, { s.context with rng := g }⟩

theorem launches (s : Session AsyncSmc) : Launches s := by
  obtain ⟨i, g, hd⟩ := Draw.below_ok (Nat.succ_pos s.engine.buffer.length) s.context.rng
  have within : i.val ≤ s.engine.buffer.length := Nat.le_of_lt_succ i.isLt
  exact ⟨i, g, _, _, Draw.index?_of_below hd, pickAt?_eq within, launch_of_below hd⟩

end AsyncSmc

namespace Resampling

/-- A draw in proportion to weights, looked up by index: a mark past the end falls on the last
weight above zero, or on the last one of all. -/
def multinomialAt? (weights : List Float) (g : Rng) : Option (Nat × Rng) :=
  if 0 < total weights then
    match Random.indexAt? (g.uniform.1 * total weights) weights with
    | some i => some (i, g.uniform.2)
    | none =>
      match weights.length with
      | 0 => none
      | last + 1 => some ((Random.lastPositive? weights).getD last, g.uniform.2)
  else g.index? weights.length

/-- An index is drawn in proportion to the weights, and there is a weight with that index. -/
def Draws {n : Nat} (weights : Vector Float n) (pos : 0 < n) (g : Rng) : Prop :=
  ∃ i g', multinomialAt? weights.toList g = some (i.val, g') ∧
    multinomial weights pos g = .ok i g'

theorem indexAt_val {n : Nat} (mark : Float) (weights : Vector Float n) (pos : 0 < n) :
    (indexAt mark weights pos).val = (Random.indexAt? mark weights.toList).getD
      ((Random.lastPositive? weights.toList).getD (n - 1)) := by
  unfold indexAt
  split
  · rename_i i found
    change i = _
    rw [found]
    rfl
  · rename_i passed
    rw [passed]
    split
    · rename_i i found
      change i = _
      rw [found]
      rfl
    · rename_i none
      rw [none]
      rfl

theorem draws {n : Nat} (weights : Vector Float n) (pos : 0 < n) (g : Rng) :
    Draws weights pos g := by
  have length : weights.toList.length = n := by simp
  by_cases positive : 0 < total weights.toList
  · refine ⟨indexAt (g.uniform.1 * total weights.toList) weights pos, g.uniform.2, ?_, ?_⟩
    · unfold multinomialAt?
      rw [if_pos positive, indexAt_val, length]
      cases n with
      | zero => cases pos
      | succ last =>
        cases Random.indexAt? (g.uniform.1 * total weights.toList) weights.toList <;> rfl
    · unfold multinomial
      rw [if_pos positive]
      rfl
  · obtain ⟨i, g', hd⟩ := Draw.below_ok pos g
    refine ⟨i, g', ?_, ?_⟩
    · unfold multinomialAt?
      rw [if_neg positive, length]
      exact Draw.index?_of_below hd
    · unfold multinomial
      rw [if_neg positive]
      exact hd

end Resampling

namespace MetropolisHastings

/-- While an execution is under way there is a step left to record, and no step too many is ever
recorded. -/
def Counted (iterations : Nat) : Moment → MetropolisHastings → Prop
  | .recorded, e => e.steps ≤ iterations
  | .awaiting _, e | .ended _, e => e.steps < iterations

variable {task : Task} {context : Context} {origin : Option Chain} {moment : Moment}
  {s : Session MetropolisHastings} {iterations : Nat} {e : MetropolisHastings}

theorem counted_after (h : e.steps < iterations) (progress : Progress) :
    Counted iterations (.after progress) e := by
  cases progress <;> exact h

theorem Reaches.counted (pos : 0 < task.iterations) (h : Reaches task context origin moment s) :
    Counted task.iterations moment s.engine := by
  induction h with
  | start began =>
    change _ < task.iterations
    rw [start_steps began]
    exact pos
  | sample before effect site ih => exact counted_after (onChain_steps site ▸ ih) _
  | factor before effect number passed ih =>
    subst passed
    unfold Moment.afterFactor
    split <;> exact ih
  | exit before effect ih => exact ih
  | restart before impossible began ih =>
    change _ < task.iterations
    rw [start_steps began]
    exact ih
  | conclude before settled concluded ih =>
    change _ ≤ task.iterations
    rw [conclude_steps concluded]
    exact ih
  | propose before left proposed ih => exact counted_after (onChain_steps proposed ▸ left) _

end MetropolisHastings

namespace Mover

/-- The steps that are not settled yet are those of which no proposal has been made and the one that
is under way, if one is. So whenever a step is settled there is one to be taken off their number. -/
def Counted (steps : Nat) : Moment → Mover → Prop
  | .settled left, e => left + e.proposals = steps
  | .awaiting .., e | .ended .., e => 0 < e.proposals ∧ e.remaining + e.proposals = steps

variable {task : Task} {steps : Nat} {s₀ s t : Session Mover} {moment : Moment} {e : Mover}
  {origin : Chain}

theorem counted_after (h : 0 < e.proposals ∧ e.remaining + e.proposals = steps)
    (progress : Progress) : Counted steps (.after origin progress) e := by
  cases progress <;> exact h

theorem onChain_counts {α : Type} {move : Move α} {a : α} (h : onChain move s = .ok a t) :
    t.engine.proposals = s.engine.proposals ∧ t.engine.remaining = s.engine.remaining := by
  obtain ⟨c, g, _, rfl⟩ := onChain_eq_ok.mp h
  exact ⟨rfl, rfl⟩

theorem Reaches.counted (fresh : s₀.engine.proposals = 0) (h : Reaches task steps s₀ moment s) :
    Counted steps moment s.engine := by
  induction h with
  | start =>
    change steps + s₀.engine.proposals = steps
    rw [fresh]
    rfl
  | @propose left progress s t before proposed ih =>
    obtain ⟨made, remaining⟩ := onChain_counts proposed
    refine counted_after ?_ progress
    rw [made, remaining]
    change 0 < s.engine.proposals + 1 ∧ left + (s.engine.proposals + 1) = steps
    have : left + 1 + s.engine.proposals = steps := ih
    omega
  | sample before effect site ih =>
    obtain ⟨made, remaining⟩ := onChain_counts site
    refine counted_after ?_ _
    rw [made, remaining]
    exact ih
  | factor before effect number passed ih =>
    subst passed
    unfold Moment.afterFactor
    split
    · exact ih
    · split <;> exact ih
  | exit before effect ih =>
    unfold Moment.afterExit leave
    split <;> exact ih
  | conclude before concluded ih =>
    obtain ⟨_, recorded⟩ := conclude_records concluded
    change _ + _ = steps
    rw [recorded.proposals]
    exact ih.2

/-- Steps that are all taken have been begun, each of them once. -/
theorem take_proposals {fuel : Nat} (fresh : s₀.engine.proposals = 0)
    (taken : take task fuel steps s₀ = .ok () t) : t.engine.proposals = steps := by
  obtain ⟨s, reached, he⟩ := take_settled taken
  have counted : 0 + s.engine.proposals = steps := reached.counted fresh
  rw [he]
  omega

end Mover

/-- It is the turn of a particle that the population has and that is running. -/
def Population.HasTurn {n : Nat} (p : Population n) : Prop :=
  ∃ particle, p.particles.toList[p.active.val]? = some particle ∧ particle.running = true

theorem Population.hasTurn {n : Nat} {p : Population n} (h : p.isRunning p.active = true) :
    p.HasTurn := by
  refine ⟨_, List.getElem?_eq_getElem (by simp), ?_⟩
  exact h

theorem ParticleFilter.Reaches.hasTurn {n : Nat} {root : Step} {task : Task}
    {s₀ s : Session (ParticleFilter n)} {next : Resume} (h₀ : Opened root s₀.engine)
    (ha : s₀.engine.population.Acting s₀.engine.population
      s₀.engine.population.resumeCurrent.invoke)
    (h : Reaches task s₀ (.awaiting next) s) : s.engine.population.HasTurn := by
  obtain ⟨_, _, _, _, acting⟩ := h.inStep h₀ ha
  exact Population.hasTurn acting.isRunning_active

theorem RejuvenatingFilter.Reaches.hasTurn {n : Nat} {root : Step} {task : Task}
    {s₀ s : Session (RejuvenatingFilter n)} {next : Resume}
    (h₀ : Holds root (.awaiting s₀.engine.population.resumeCurrent) s₀.engine)
    (h : Reaches task s₀ (.awaiting next) s) : s.engine.population.HasTurn :=
  Population.hasTurn (h.holds h₀).1.active

end Posterior
