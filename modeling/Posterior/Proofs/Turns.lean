import Posterior.Proofs.Rounds

/-!
Turns within a round. Set against the population at its start, a round gives every running particle
one turn: the particle makes its choices up to its next factor and is parked there, or it exits.
Those that have exited before are passed over.
-/

namespace Posterior

/-- The value is one that the distribution of the choice can yield. -/
def Choice.Draws (choice : Choice) (value : Value) : Prop :=
  ∃ g g', choice.dist.draw choice.params g = .ok value g'

/-- From `first` on the program comes to a step, by values that can be drawn and with this many
factors passed on the way. -/
inductive Step.ComesTo (first : Step) : Nat → Step → Prop where
  | rest : ComesTo first 0 first
  | choice {k : Nat} {choice : Choice} {deliver : Delivery} {value : Value}
      (before : ComesTo first k (.sample choice deliver)) (drawn : choice.Draws value) :
      ComesTo first k (deliver choice.store value)
  | factor {k : Nat} {point : Factor} {resume : Continuation}
      (before : ComesTo first k (.factor point resume)) :
      ComesTo first (k + 1) (resume point.store)

theorem Step.ComesTo.trans {first second third : Step} {k l : Nat} (h : first.ComesTo k second)
    (h' : second.ComesTo l third) : first.ComesTo (k + l) third := by
  induction h' with
  | rest => exact h
  | choice before drawn ih => exact .choice ih drawn
  | factor before ih => exact .factor ih

namespace Particle

variable {p q r : Particle} {point : Factor} {resume : Continuation} {store : Store} {value : Value}

/-- The same particle, except that its choices and their score may have been recorded. -/
def Alike (p q : Particle) : Prop := q = { p with trace := q.trace, score := q.score }

theorem Alike.refl (p : Particle) : p.Alike p := rfl

theorem Alike.trans (h : p.Alike q) (h' : q.Alike r) : p.Alike r := by
  unfold Alike at *
  rw [h', h]

theorem Alike.park (h : p.Alike q) (point : Factor) (resume : Continuation) :
    (p.park point resume).Alike (q.park point resume) := by
  unfold Alike at *
  rw [h]
  rfl

theorem Alike.complete (h : p.Alike q) (store : Store) (value : Value) :
    (p.complete store value).Alike (q.complete store value) := by
  unfold Alike at *
  rw [h]
  rfl

/-- What a round makes of a particle. A running one passes its next factor and is parked right after
it, or exits before it comes to one; any other particle stays as it is. -/
inductive TookTurn (p : Particle) : Particle → Prop where
  | idle (exited : p.running = false) : TookTurn p p
  | passed {q : Particle} {point : Factor} {resume : Continuation} (running : p.running = true)
      (course : (p.resume p.store).ComesTo 0 (.factor point resume))
      (parked : (p.park point resume).Alike q) : TookTurn p q
  | left {q : Particle} {store : Store} {value : Value} (running : p.running = true)
      (course : (p.resume p.store).ComesTo 0 (.exit store value))
      (completed : (p.complete store value).Alike q) : TookTurn p q

/-- A particle that is still running after its turn was running before and has passed its next
factor, neither more nor less. -/
theorem TookTurn.passed_of_running (h : p.TookTurn q) (hr : q.running = true) :
    p.running = true ∧ ∃ point resume, (p.resume p.store).ComesTo 0 (.factor point resume) ∧
      q.factorCount = p.factorCount + 1 ∧ q.resume = resume ∧ q.store = point.store := by
  cases h with
  | idle exited =>
    rw [exited] at hr
    cases hr
  | passed running course parked =>
    unfold Alike at parked
    refine ⟨running, _, _, course, ?_⟩
    rw [parked]
    exact ⟨rfl, rfl, rfl⟩
  | left running course completed =>
    unfold Alike at completed
    rw [completed] at hr
    cases hr

/-- An exit brings a value and leaves the weight alone. -/
theorem TookTurn.exited (h : p.TookTurn q) (hr : q.running = false) :
    q.weight = p.weight ∧ (p.running = false ∧ q.value = p.value ∨ q.value.isSome = true) := by
  cases h with
  | idle exited => exact ⟨rfl, .inl ⟨exited, rfl⟩⟩
  | passed running course parked =>
    unfold Alike at parked
    rw [parked] at hr
    change p.running = false at hr
    rw [running] at hr
    cases hr
  | left running course completed =>
    unfold Alike at completed
    rw [completed]
    exact ⟨rfl, .inr rfl⟩

end Particle

namespace Population

variable {n : Nat} {o p : Population n} {i j : Fin n} {step : Step}

/-- A round that started from `o` is under way: the particles before the active one have taken their
turns, those after it have not, and the active one has come to `step` on its turn. -/
structure Acting (o p : Population n) (step : Step) : Prop where
  before : ∀ i, i < p.active → (o.particles.get i).TookTurn (p.particles.get i)
  running : (o.particles.get p.active).running = true
  current : (o.particles.get p.active).Alike p.current
  course : ((o.particles.get p.active).resume (o.particles.get p.active).store).ComesTo 0 step
  after : ∀ i, p.active < i → p.particles.get i = o.particles.get i

/-- The active particle has taken its turn as well. -/
structure Acted (o p : Population n) : Prop where
  before : ∀ i, i ≤ p.active → (o.particles.get i).TookTurn (p.particles.get i)
  after : ∀ i, p.active < i → p.particles.get i = o.particles.get i

theorem Acting.isRunning_active (h : Acting o p step) : p.isRunning p.active = true := by
  have hc := h.current
  unfold Particle.Alike at hc
  have hr : p.current.running = (o.particles.get p.active).running := by
    rw [hc]
    rfl
  exact hr.trans h.running

theorem Acting.choose {choice : Choice} {deliver : Delivery} {value : Value}
    (h : Acting o p (.sample choice deliver)) (drawn : choice.Draws value) :
    Acting o p (deliver choice.store value) :=
  { h with course := .choice h.course drawn }

/-- The record of a choice is no turn. -/
theorem Acting.record {x : Particle} (h : Acting o p step) (hx : p.current.Alike x) :
    Acting o (p.setParticle p.active x) step := by
  refine ⟨?_, h.running, ?_, h.course, ?_⟩
  · intro i hi
    rw [active_setParticle] at hi
    rw [get_setParticle, if_neg (by omega)]
    exact h.before i hi
  · unfold Population.current
    rw [active_setParticle, get_setParticle, if_pos rfl]
    exact h.current.trans hx
  · intro i hi
    rw [active_setParticle] at hi
    rw [get_setParticle, if_neg (by omega)]
    exact h.after i hi

/-- The active particle takes its turn. -/
theorem Acting.turn {f : Particle → Particle} (h : Acting o p step)
    (hf : (o.particles.get p.active).TookTurn (f p.current)) : Acted o (p.updateCurrent f) := by
  refine ⟨?_, ?_⟩
  · intro i hi
    change i ≤ p.active at hi
    unfold updateCurrent
    rw [get_setParticle]
    split
    · rename_i ha
      rw [← ha]
      exact hf
    · exact h.before i (by omega)
  · intro i hi
    change p.active < i at hi
    unfold updateCurrent
    rw [get_setParticle, if_neg (by omega)]
    exact h.after i hi

/-- At a factor the active particle is parked, and may close the round. -/
theorem Acting.factor {point : Factor} {resume : Continuation} {f : Particle → Particle}
    (h : Acting o p (.factor point resume))
    (hf : (p.current.park point resume).Alike (f p.current)) :
    Acted o (p.updateCurrent f) ∧
      (p.updateCurrent f).Closing (p.updateCurrent f).atBarrier := by
  refine ⟨h.turn (.passed h.running h.course ((h.current.park point resume).trans hf)), ?_⟩
  refine closing_atBarrier ?_
  have hr : (f p.current).running = p.current.running := by
    unfold Particle.Alike at hf
    rw [hf]
    rfl
  unfold updateCurrent
  rw [active_setParticle, isRunning_setParticle, if_pos rfl, hr]
  exact h.isRunning_active

/-- An exit closes the round if the particle was the last one running. -/
theorem Acting.exit {store : Store} {value : Value} (h : Acting o p (.exit store value)) :
    Acted o (p.updateCurrent (·.complete store value)) ∧
      (p.updateCurrent (·.complete store value)).Closing p.atBarrier :=
  ⟨h.turn (.left h.running h.course (h.current.complete store value)),
    (closing_atBarrier h.isRunning_active).update _⟩

/-- The turn goes to the next running particle; those it passes over have exited before. -/
theorem Acted.next (h : Acted o p) (hj : p.active < j) (hr : p.isRunning j = true)
    (hk : ∀ k, p.active < k → k < j → p.isRunning k = false) :
    Acting o (p.activate j) ((p.activate j).resumeCurrent.invoke) := by
  have hget : p.particles.get j = o.particles.get j := h.after j hj
  refine ⟨?_, ?_, ?_, ?_, ?_⟩
  · intro i hi
    change i < j at hi
    by_cases hle : i ≤ p.active
    · exact h.before i hle
    · have hi' := hk i (by omega) hi
      unfold isRunning at hi'
      rw [h.after i (by omega)] at hi'
      rw [get_activate, h.after i (by omega)]
      exact .idle hi'
  · unfold isRunning at hr
    rw [hget] at hr
    exact hr
  · change (o.particles.get j).Alike (p.particles.get j)
    rw [hget]
    exact .refl _
  · change ((o.particles.get j).resume (o.particles.get j).store).ComesTo 0
      ((p.particles.get j).resume (p.particles.get j).store)
    rw [hget]
    exact .rest
  · intro i hi
    exact h.after i (by change j < i at hi; omega)

/-- At the end of a round everyone has taken exactly one turn. -/
theorem Acted.turns (h : Acted o p) (hn : ∀ j, p.active < j → p.isRunning j = false) (i : Fin n) :
    (o.particles.get i).TookTurn (p.particles.get i) := by
  by_cases hle : i ≤ p.active
  · exact h.before i hle
  · have hi := hn i (by omega)
    unfold isRunning at hi
    rw [h.after i (by omega)] at hi ⊢
    exact .idle hi

/-- A round starts with the first particle that is running. -/
theorem acting_first (hi : p.firstRunning? = some i) :
    Acting p (p.activate i) ((p.activate i).resumeCurrent.invoke) := by
  obtain ⟨hr, hf⟩ := firstRunning?_eq_some hi
  exact ⟨fun j hj => .idle (hf j hj), hr, .refl _, .rest, fun _ _ => rfl⟩

end Population

end Posterior
