import Posterior.Proofs.MetropolisCoherence
import Posterior.Proofs.MoverCoherence
import Posterior.Proofs.Observations
import Posterior.Proofs.Traces
import Posterior.Proofs.Verdicts

/-!
The chain by which a particle is moved is that of Metropolis-Hastings. Set off from the same
execution and the same generator, the two engines make the same proposals, come to the same endings
and take the same decisions, each with its own bookkeeping.
-/

namespace Posterior

open Numeric

namespace Chain

variable {c c' : Chain} {g g' : Rng}

/-- The chain holds an execution that is possible and has come to a value. -/
structure Valued (c : Chain) : Prop where
  possible : isPossible c.score = true
  value : ∃ value, c.value = some value

/-- The chain holds a proposal against such an execution. -/
def Challenges (c : Chain) : Prop := ∃ old i, c.Proposes old i ∧ i < old.trace.length ∧ old.Valued

/-- Two chains that differ in nothing that the next proposal looks at. -/
structure Interchangeable (c c' : Chain) : Prop where
  trace : c.trace = c'.trace
  score : c.score = c'.score
  value : c.value = c'.value
  ready : c = c' ∨ 0 < c'.trace.entries.length

theorem Interchangeable.refl (c : Chain) : c.Interchangeable c := ⟨rfl, rfl, rfl, .inl rfl⟩

theorem Valued.of_eq (h : c.Valued) (hs : c'.score = c.score) (hv : c'.value = c.value) :
    c'.Valued :=
  ⟨hs ▸ h.possible, hv ▸ h.value⟩

/-- A proposal starts from the trace, the score and the value alone. -/
theorem Interchangeable.propose (h : c.Interchangeable c') (g : Rng) :
    Chain.propose (c, g) = Chain.propose (c', g) := by
  obtain ⟨ht, hs, hv, rfl | nonempty⟩ := h
  · rfl
  · obtain ⟨trace, score, value, factors, proposal⟩ := c
    obtain ⟨_, _, _, factors', proposal'⟩ := c'
    dsimp only at ht hs hv nonempty
    subst ht hs hv
    obtain ⟨i, g₁, hd⟩ := Draw.below_ok nonempty g
    have he := List.getElem?_eq_getElem i.isLt
    exact (propose_pick (c := ⟨trace, score, value, factors, proposal⟩) hd he).trans
      (propose_pick (c := ⟨trace, score, value, factors', proposal'⟩) hd he).symm

theorem Challenges.rollBack (h : c.Challenges) : c.rollBack.Valued := by
  obtain ⟨old, i, hp, _, ho⟩ := h
  obtain ⟨_, hs, hv, _⟩ := hp.rollBack
  exact ho.of_eq hs hv

/-- What a chain is like after a choice of a proposed execution. -/
def Progressed (c : Chain) : Progress → Prop
  | .resume _ => c.Challenges ∧ isPossible c.score = true
  | .halted => c.Challenges ∧ (c.score == negInf) = true
  | .unchanged => c.Valued

theorem Valued.propose {progress : Progress} (h : c.Valued)
    (hp : Chain.propose (c, g) = .ok progress (c', g')) : c'.Progressed progress := by
  rcases propose_outcome none hp with
    ⟨next, i, g₀, rfl, hpick, hr⟩ | ⟨rfl, i, g₀, hpick, hr, hz⟩ | ⟨rfl, _, hs, hv⟩
  · exact ⟨⟨c, i, hr.proposes, hpick.lt, h⟩, hr.possible⟩
  · exact ⟨⟨c, i, hr, hpick.lt, h⟩, hz⟩
  · exact h.of_eq hs hv

theorem Challenges.site {choice : Choice} {deliver : Delivery} {progress : Progress}
    (h : c.Challenges) (hs : Chain.site choice deliver false (c, g) = .ok progress (c', g')) :
    c'.Progressed progress := by
  obtain ⟨old, i, hp, hi, ho⟩ := h
  cases progress with
  | resume next =>
    obtain ⟨e, _, _, _, hx, hpos, _⟩ := site_resume hs
    exact ⟨⟨old, i, hp.extends hx, hi, ho⟩, hpos⟩
  | halted =>
    obtain ⟨e, hx, hz⟩ := site_halted hs
    exact ⟨⟨old, i, hp.extends hx, hi, ho⟩, hz⟩
  | unchanged => cases (site_unchanged hs).1

/-- Whichever way it is decided, the chain holds a value: an impossible execution is not kept. -/
theorem Challenges.decide {value : Option Value} {accepted : Bool} (h : c.Challenges)
    (ended : if value.isSome then isPossible c.score = true else (c.score == negInf) = true)
    (hd : Chain.decide 0 value (c, g) = .ok accepted (c', g')) : c'.Valued := by
  cases value with
  | none =>
    obtain ⟨old, i, hp, hi, ho⟩ := h
    obtain ⟨_, rfl⟩ := hp.decide_impossible hi ho.possible ended hd
    exact Challenges.rollBack ⟨old, i, hp, hi, ho⟩
  | some value =>
    obtain ⟨_, _, _, ⟨_, _, rfl⟩ | ⟨_, _, rfl⟩⟩ := decide_eq_ok hd
    · exact ⟨ended, value, rfl⟩
    · exact h.rollBack

end Chain

theorem Mover.observe_of_value {e : Mover} {value : Value} (h : e.chain.value = some value) :
    e.observe = { e with histogram := e.histogram.map (·.observe value) } := by
  rw [observe_eq, h]
  rfl

theorem MetropolisHastings.observe_of_value {s : Session MetropolisHastings} {value : Value}
    (h : s.engine.chain.value = some value) :
    observe s = .ok () { s with engine := { s.engine with
      histogram := s.engine.histogram.observe value
      steps := s.engine.steps + 1 } } := by
  unfold observe
  rw [Run.engine_bind, h]
  rfl

namespace MetropolisHastings

variable {task : Task} {s t : Session MetropolisHastings} {ending : Ending (Option Value)}

/-- Carries on from a recorded step until no step is left. -/
def proceed (task : Task) (fuel left : Nat) : Run MetropolisHastings Empirical := do
  match ← advance task left with
  | .resume next => (handler task).dispatch fuel next
  | .done result => return result

/-- This is how a run goes on once it has recorded a step. -/
theorem settle_proceeds (settled : ¬ Impossible s.engine ending)
    (concluded : conclude ending s = .ok () t) (fuel : Nat) :
    (do
      match ← settle task ending with
      | .resume next => (handler task).dispatch fuel next
      | .done result => return result) s =
      proceed task fuel (task.iterations - t.engine.steps) t := by
  have hs : settle task ending s = advance task (task.iterations - t.engine.steps) t := by
    rw [settle_eq settled, bind_ok concluded, Run.engine_bind]
  unfold proceed
  cases ha : advance task (task.iterations - t.engine.steps) t with
  | ok control r => rw [bind_ok (hs.trans ha), bind_ok ha]
  | error stop r => rw [bind_error (hs.trans ha), bind_error ha]

end MetropolisHastings

/-- A particle that is about to be moved along the whole of its execution, and a Metropolis-Hastings
engine that has recorded its first step. -/
structure Pairing where
  mover : Mover.Task
  task : MetropolisHastings.Task
  particle : Session Mover
  engine : Session MetropolisHastings
  whole : mover.frozen = 0
  free : mover.limit = none
  begun : 0 < engine.engine.steps
  tallied : ∃ values, engine.engine.histogram = Histogram.empty.observeAll values ∧
    engine.engine.steps = values.length

namespace Pairing

/-- As far as both have come, they agree in the draws made, in the executions kept and in the values
observed. -/
structure Even (p : Pairing) (m : Session Mover) (t : Session MetropolisHastings) : Prop where
  rng : m.context.rng = t.context.rng
  accepted : t.engine.metrics.accepted + p.particle.engine.accepted =
    p.engine.engine.metrics.accepted + m.engine.accepted
  observed : ∃ values, m.engine.histogram = p.particle.engine.histogram.map (·.observeAll values) ∧
    t.engine.histogram = p.engine.engine.histogram.observeAll values ∧
    t.engine.steps = p.engine.engine.steps + values.length

/-- Each of them is the active one in its context. -/
structure InTune (p : Pairing) (m : Session Mover) (t : Session MetropolisHastings) : Prop
    extends p.Even m t where
  moves : m.context.active?.map (·.id) = some p.mover.id
  records : t.context.active?.map (·.id) = some p.task.id

/-- So many steps are left, and none is under way. -/
structure Settled (p : Pairing) (left : Nat) (m : Session Mover) (t : Session MetropolisHastings) :
    Prop extends p.InTune m t where
  chain : m.engine.chain.Interchangeable t.engine.chain
  valued : t.engine.chain.Valued
  left : t.engine.steps + left = p.task.iterations

/-- Both execute the same proposal. -/
structure Underway (p : Pairing) (m : Session Mover) (t : Session MetropolisHastings) : Prop
    extends p.InTune m t where
  chain : m.engine.chain = t.engine.chain
  challenges : t.engine.chain.Challenges
  left : t.engine.steps + (m.engine.remaining + 1) = p.task.iterations

/-- The execution has come to the same end in both. -/
inductive Over (p : Pairing) (m : Session Mover) (t : Session MetropolisHastings) :
    Ending Mover.Outcome → Ending (Option Value) → Prop where
  | finished {outcome : Mover.Outcome} (underway : p.Underway m t)
      (ended : if outcome.value.isSome then isPossible t.engine.chain.score = true
        else (t.engine.chain.score == negInf) = true) :
      Over p m t (.finished outcome) (.finished outcome.value)
  | unchanged (settled : p.Settled (m.engine.remaining + 1) m t) : Over p m t .unchanged .unchanged

variable {p : Pairing} {m : Session Mover} {t : Session MetropolisHastings}

theorem Over.inTune {ending : Ending Mover.Outcome} {ending' : Ending (Option Value)}
    (h : p.Over m t ending ending') : p.InTune m t := by
  cases h with
  | finished underway ended => exact underway.toInTune
  | unchanged settled => exact settled.toInTune

/-- The value of the chain is observed once by each. -/
theorem Settled.observe {left : Nat} (h : p.Settled (left + 1) m t) :
    ∃ t', MetropolisHastings.observe t = .ok () t' ∧
      p.Settled left { m with engine := m.engine.observe } t' := by
  obtain ⟨value, hv⟩ := h.valued.value
  have hm : m.engine.chain.value = some value := h.chain.value.trans hv
  obtain ⟨values, hp, ht, hs⟩ := h.observed
  refine ⟨_, MetropolisHastings.observe_of_value hv, ?_⟩
  rw [Mover.observe_of_value hm]
  have hobserved : ∃ values,
      m.engine.histogram.map (·.observe value) =
          p.particle.engine.histogram.map (·.observeAll values) ∧
        t.engine.histogram.observe value = p.engine.engine.histogram.observeAll values ∧
        t.engine.steps + 1 = p.engine.engine.steps + values.length := by
    refine ⟨values ++ [value], ?_, ?_, by rw [hs, List.length_append]; rfl⟩
    · rw [hp, Option.map_map]
      congr 1
      funext tally
      exact (Histogram.observeAll_concat ..).symm
    · rw [ht, Histogram.observeAll_concat]
  exact ⟨⟨⟨h.rng, h.accepted, hobserved⟩, h.moves, h.records⟩, h.chain, h.valued,
    (Nat.succ_add_eq_add_succ ..).trans h.left⟩

/-- The step is counted as accepted by each. -/
theorem Settled.accept {left : Nat} (h : p.Settled left m t) (frontier : Option Frontier) :
    p.Settled left { m with engine := m.engine.accept frontier }
      { t with engine := { t.engine with metrics.accepted := t.engine.metrics.accepted + 1 } } := by
  refine ⟨⟨⟨h.rng, ?_, h.observed⟩, h.moves, h.records⟩, h.chain, h.valued, h.left⟩
  have := h.accepted
  change t.engine.metrics.accepted + 1 + p.particle.engine.accepted =
    p.engine.engine.metrics.accepted + (m.engine.accepted + 1)
  omega

/-- The step is over for each. -/
theorem Settled.record {left : Nat} (h : p.Settled (left + 1) m t) :
    ∃ t', (do
        Run.modifyEngine fun e => { e with metrics.proposals := e.metrics.proposals + 1 }
        MetropolisHastings.observe : Run MetropolisHastings Unit) t = .ok () t' ∧
      p.Settled left { m with engine := m.engine.observe } t' := by
  rw [Run.modifyEngine_bind]
  exact Settled.observe
    (t := { t with engine :=
      { t.engine with metrics.proposals := t.engine.metrics.proposals + 1 } })
    ⟨⟨⟨h.rng, h.accepted, h.observed⟩, h.moves, h.records⟩, h.chain, h.valued, h.left⟩

/-- The chains of both make moves that come to the same. -/
theorem matched_onChain {α : Type} {move move' : Move α}
    (same : move (m.engine.chain, m.context.rng) = move' (t.engine.chain, t.context.rng)) :
    Matched (fun a m' b t' => a = b ∧
        ∃ c g, move' (t.engine.chain, t.context.rng) = .ok a (c, g) ∧
          m' = ⟨{ m.engine with chain := c }, { m.context with rng := g }⟩ ∧
          t' = ⟨{ t.engine with chain := c }, { t.context with rng := g }⟩)
      (Mover.onChain move m) (MetropolisHastings.onChain move' t) := by
  unfold Mover.onChain MetropolisHastings.onChain Chain.within
  rw [same]
  cases hm : move' (t.engine.chain, t.context.rng) with
  | ok a s => exact .ok ⟨rfl, s.1, s.2, rfl, rfl, rfl⟩
  | error e s => exact .error

/-- What a step comes to once it is concluded. -/
def Concluded (p : Pairing) (remaining : Nat) (_ : Unit) (m : Session Mover) (_ : Unit)
    (t : Session MetropolisHastings) : Prop :=
  m.engine.remaining = remaining ∧ p.Settled remaining m t

theorem Over.conclude {ending : Ending Mover.Outcome} {ending' : Ending (Option Value)}
    (h : p.Over m t ending ending') :
    Matched (p.Concluded m.engine.remaining) (Mover.conclude p.mover ending m)
      (MetropolisHastings.conclude ending' t) := by
  unfold Mover.conclude MetropolisHastings.conclude MetropolisHastings.countAccepted
  cases h with
  | unchanged settled =>
    obtain ⟨t', ht, hs⟩ := (settled.accept none).record
    dsimp only
    rw [Run.modifyEngine_bind, Run.modifyEngine_bind, ht]
    exact .ok ⟨Mover.observe_remaining _, hs⟩
  | @finished outcome underway ended =>
    have hd : Chain.decide p.mover.frozen outcome.value (m.engine.chain, m.context.rng) =
        Chain.decide 0 outcome.value (t.engine.chain, t.context.rng) := by
      rw [p.whole, underway.chain, underway.rng]
    refine (matched_onChain hd).bind ?_
    rintro accepted _ _ _ ⟨rfl, c, g, hd, rfl, rfl⟩
    have hs : p.Settled (m.engine.remaining + 1)
        ⟨{ m.engine with chain := c }, { m.context with rng := g }⟩
        ⟨{ t.engine with chain := c }, { t.context with rng := g }⟩ :=
      ⟨⟨⟨rfl, underway.accepted, underway.observed⟩, underway.moves, underway.records⟩, .refl c,
        underway.challenges.decide ended hd, underway.left⟩
    cases accepted with
    | true =>
      obtain ⟨t', ht, hs⟩ := (hs.accept outcome.frontier).record
      simp only [↓reduceIte]
      rw [Run.modifyEngine_bind, Run.modifyEngine_bind, ht]
      exact .ok ⟨Mover.observe_remaining _, hs⟩
    | false =>
      obtain ⟨t', ht, hs⟩ := hs.record
      simp only [Bool.false_eq_true, ↓reduceIte]
      rw [ht]
      exact .ok ⟨Mover.observe_remaining _, hs⟩

/-- Both await the next effect of the same execution, which is possible so far. -/
structure Awaiting (p : Pairing) (m : Session Mover) (t : Session MetropolisHastings) : Prop
    extends p.Underway m t where
  possible : isPossible t.engine.chain.score = true

/-- Where both stand after a choice. -/
def After (p : Pairing) (m : Session Mover) (t : Session MetropolisHastings) : Progress → Prop
  | .resume _ => p.Awaiting m t
  | .halted => p.Over m t (.finished .impossible) (.finished none)
  | .unchanged => p.Over m t .unchanged .unchanged

/-- Both have taken all their steps. -/
structure Done (p : Pairing) (m : Session Mover) (t : Session MetropolisHastings) : Prop
    extends p.Even m t where
  chain : m.engine.chain.Interchangeable t.engine.chain
  steps : t.engine.steps = p.task.iterations

/-- What proposing comes to in both. The particle has yet to leave its handler when it is done. -/
def Paused (p : Pairing) : Option Resume → Session Mover → Control Empirical →
    Session MetropolisHastings → Prop
  | some next, m, .resume next', t => next = next' ∧ p.Awaiting m t
  | none, m, .done _, t => m.context.active?.map (·.id) = some p.mover.id ∧ p.Done m t
  | _, _, _, _ => False

/-- What an answer comes to in both. -/
def Answered (p : Pairing) : Control Unit → Session Mover → Control Empirical →
    Session MetropolisHastings → Prop
  | .resume next, m, .resume next', t => next = next' ∧ p.Awaiting m t
  | .done _, m, .done _, t => p.Done m t
  | _, _, _, _ => False

/-- Whatever has been observed, the engine can make a distribution of it. -/
theorem Settled.finish (h : p.Settled 0 m t) :
    ∃ result t', MetropolisHastings.finish p.task t = .ok (.done result) t' ∧ p.Done m t' := by
  obtain ⟨before, hb, hlen⟩ := p.tallied
  obtain ⟨values, _, ht, _⟩ := h.observed
  have hne : before ++ values ≠ [] := by
    have := p.begun
    refine List.ne_nil_of_length_pos ?_
    rw [List.length_append]
    omega
  obtain ⟨d, hd⟩ := Empirical.ofHistogram_observeAll hne
  rw [Histogram.observeAll_append, ← hb, ← ht] at hd
  unfold MetropolisHastings.finish
  rw [Run.engine_bind, bind_ok (Run.ofExcept_eq_ok.mpr ⟨hd, rfl⟩),
    bind_ok (Run.restore_of_active h.records)]
  exact ⟨_, _, rfl, ⟨h.rng, h.accepted, h.observed⟩, h.chain, h.left⟩

/-- The chain of both has met the same choice. -/
theorem InTune.after {c : Chain} {progress : Progress} (h : p.InTune m t) (g : Rng)
    (left : t.engine.steps + (m.engine.remaining + 1) = p.task.iterations)
    (progressed : c.Progressed progress) :
    p.After ⟨{ m.engine with chain := c }, { m.context with rng := g }⟩
      ⟨{ t.engine with chain := c }, { t.context with rng := g }⟩ progress := by
  have hx : p.InTune ⟨{ m.engine with chain := c }, { m.context with rng := g }⟩
      ⟨{ t.engine with chain := c }, { t.context with rng := g }⟩ :=
    ⟨⟨rfl, h.accepted, h.observed⟩, h.moves, h.records⟩
  cases progress with
  | resume next => exact ⟨⟨hx, rfl, progressed.1, left⟩, progressed.2⟩
  | halted => exact Over.finished ⟨hx, rfl, progressed.1, left⟩ progressed.2
  | unchanged => exact Over.unchanged ⟨hx, .refl c, progressed, left⟩

theorem Settled.begin {left : Nat} (h : p.Settled left m t) (remaining : Nat) :
    p.Settled left { m with engine := m.engine.begin remaining } t :=
  ⟨⟨⟨h.rng, h.accepted, h.observed⟩, h.moves, h.records⟩, h.chain, h.valued, h.left⟩

/-- Both make the same proposals until an execution is under way or no step is left. -/
theorem Settled.advance {left : Nat} (h : p.Settled left m t) :
    Matched p.Paused (Mover.advance p.mover left m) (MetropolisHastings.advance p.task left t) := by
  induction left generalizing m t with
  | zero =>
    obtain ⟨result, t', ht, hd⟩ := h.finish
    rw [MetropolisHastings.advance, ht]
    exact .ok ⟨h.moves, hd⟩
  | succ left ih =>
    have hb := h.begin left
    have hsame : Chain.propose ((m.engine.begin left).chain, m.context.rng) =
        Chain.propose (t.engine.chain, t.context.rng) := by
      rw [h.rng]
      exact h.chain.propose _
    rw [Mover.advance, MetropolisHastings.advance, Run.modifyEngine_bind]
    refine (matched_onChain (m := { m with engine := m.engine.begin left }) hsame).bind ?_
    rintro progress _ _ _ ⟨rfl, c, g, hp, rfl, rfl⟩
    have ha := hb.toInTune.after g h.left (h.valued.propose hp)
    cases progress with
    | resume next => exact .ok ⟨rfl, ha⟩
    -- The step is over without an effect, and the next proposal is made at once.
    | halted | unchanged =>
      refine (Over.conclude ha).bind ?_
      rintro _ m' _ t' ⟨hr, hs⟩
      exact ih hs

/-- A step has been recorded before, so that no execution is started again. -/
theorem InTune.settled (h : p.InTune m t) (ending : Ending (Option Value)) :
    ¬ MetropolisHastings.Impossible t.engine ending := by
  obtain ⟨_, _, _, hs⟩ := h.observed
  have := p.begun
  cases ending with
  | finished value => exact fun hi => absurd hi.1 (by omega)
  | unchanged => exact id

/-- Both settle a step and go on with the next one. -/
theorem Over.settle {ending : Ending Mover.Outcome} {ending' : Ending (Option Value)}
    (h : p.Over m t ending ending') :
    Matched p.Answered (Mover.settle p.mover ending m)
      (MetropolisHastings.settle p.task ending' t) := by
  rw [MetropolisHastings.settle_eq (h.inTune.settled ending')]
  unfold Mover.settle
  refine h.conclude.bind ?_
  rintro _ m' _ t' ⟨hr, hs⟩
  have hleft : p.task.iterations - t'.engine.steps = m'.engine.remaining := by
    have := hs.left
    omega
  rw [Run.engine_bind, Run.engine_bind, hleft]
  rw [← hr] at hs
  refine hs.advance.bind_left ?_
  intro pause m' control t' paused
  cases pause <;> cases control
  · cases paused
  · obtain ⟨active, done⟩ := paused
    dsimp only
    rw [bind_ok (Run.restore_of_active active)]
    exact .ok ⟨⟨done.rng, done.accepted, done.observed⟩, done.chain, done.steps⟩
  · exact .ok paused
  · cases paused

theorem Awaiting.answer (h : p.Awaiting m t) (step : Step) :
    Matched p.Answered ((Mover.handler p.mover).answer step m)
      ((MetropolisHastings.handler p.task).answer step t) := by
  rw [Handler.answer_of_active h.moves, Handler.answer_of_active h.records]
  unfold Handler.method
  cases step with
  | sample choice deliver =>
    have hsame : Chain.site choice deliver false (m.engine.chain, m.context.rng) =
        Chain.site choice deliver false (t.engine.chain, t.context.rng) := by
      rw [h.chain, h.rng]
    refine (matched_onChain hsame).bind ?_
    rintro progress _ _ _ ⟨rfl, c, g, hs, rfl, rfl⟩
    have ha := h.after g h.left (h.challenges.site hs)
    cases progress with
    | resume next => exact .ok ⟨rfl, ha⟩
    | halted | unchanged => exact Over.settle ha
  | factor point resume =>
    dsimp only
    split
    · exact .error
    · have hc : m.engine.chain.factor point.logWeight = t.engine.chain.factor point.logWeight := by
        rw [h.chain]
      have hu : p.Underway
          { m with engine := { m.engine with chain := t.engine.chain.factor point.logWeight } }
          { t with engine := { t.engine with chain := t.engine.chain.factor point.logWeight } } :=
        ⟨⟨⟨h.rng, h.accepted, h.observed⟩, h.moves, h.records⟩, rfl, h.challenges, h.left⟩
      simp only [Mover.handler, MetropolisHastings.handler]
      rw [Run.modifyEngine_bind, Run.modifyEngine_bind, Run.engine_bind, Run.engine_bind, hc]
      cases hz : (t.engine.chain.factor point.logWeight).score == negInf with
      | true =>
        have ho : p.Over _ _ (.finished .impossible) (.finished none) := .finished hu hz
        simp only [↓reduceIte]
        exact ho.settle
      | false =>
        simp only [Bool.false_eq_true, p.free, ↓reduceIte, reduceCtorEq]
        exact .ok ⟨rfl, hu, isPossible_iff.mpr hz⟩
  | exit store value =>
    have ho : p.Over _ _ (.finished ⟨some value, some ⟨m.engine.frontier.resume, store⟩⟩) _ :=
      .finished h.toUnderway h.possible
    simp only [Mover.handler, MetropolisHastings.handler, p.free, Option.isSome_none,
      Bool.false_eq_true, ↓reduceIte]
    rw [Run.engine_bind]
    exact ho.settle

theorem Awaiting.dispatch (h : p.Awaiting m t) (fuel : Nat) (next : Resume) :
    Matched (fun _ m _ t => p.Done m t) ((Mover.handler p.mover).dispatch fuel next m)
      ((MetropolisHastings.handler p.task).dispatch fuel next t) := by
  induction fuel generalizing m t next with
  | zero => exact .error
  | succ fuel ih =>
    rw [Handler.dispatch, Handler.dispatch]
    refine (h.answer next.invoke).bind ?_
    intro control m control' t answered
    cases control <;> cases control'
    · obtain ⟨rfl, hw⟩ := answered
      exact ih hw _
    · cases answered
    · cases answered
    · exact .ok answered

/-- The steps that are left are taken alike. -/
theorem Settled.take {left : Nat} (h : p.Settled left m t) (fuel : Nat) :
    Matched (fun _ m _ t => p.Done m t) (Mover.take p.mover fuel left m)
      (MetropolisHastings.proceed p.task fuel left t) := by
  unfold Mover.take MetropolisHastings.proceed
  refine (Matched.guarding h.advance).bind ?_
  intro pause m control t paused
  cases pause <;> cases control
  · cases paused
  · obtain ⟨active, done⟩ := paused
    dsimp only
    rw [Run.restore_of_active active]
    exact .ok ⟨⟨done.rng, done.accepted, done.observed⟩, done.chain, done.steps⟩
  · obtain ⟨rfl, hw⟩ := paused
    exact Matched.guarding (hw.dispatch fuel _)
  · cases paused

end Pairing

namespace MetropolisHastings

variable {task : Task} {context : Context} {origin : Option Chain} {root : Step} {c : Chain}
  {moment : Moment} {s t : Session MetropolisHastings}

theorem Sound.valued (h : Sound root c) : c.Valued := by
  obtain ⟨frontier, q, hr, ha⟩ := h
  have hp := hr.goesOn_last possible_zero
  generalize hv : c.value = value at ha
  generalize hs : c.score = score at ha
  cases ha with
  | exit exitStore value score factors resume => exact ⟨hs ▸ hp, value, hv⟩

/-- A run has observed a value for each of its steps, and it is still in its context. -/
structure Tallied (context : Context) (s : Session MetropolisHastings) : Prop where
  observed : ∃ values, s.engine.histogram = Histogram.empty.observeAll values ∧
    s.engine.steps = values.length
  stack : s.context.stack = context.stack

theorem Tallied.conclude {ending : Ending (Option Value)} (h : Tallied context s)
    (hc : conclude ending s = .ok () t) : Tallied context t := by
  obtain ⟨accepted, recorded⟩ := conclude_records hc
  obtain ⟨value, _, histogram⟩ := recorded.observed
  obtain ⟨values, hh, hs⟩ := h.observed
  refine ⟨⟨values ++ [value], ?_, ?_⟩, recorded.stack.trans h.stack⟩
  · rw [histogram, Histogram.observeAll_concat, ← hh]
  · rw [recorded.steps, List.length_append, ← hs]
    rfl

theorem Tallied.start {next : Resume} (h : Tallied context s)
    (hb : start task s = .ok next t) : Tallied context t := by
  unfold MetropolisHastings.start at hb
  simp only [bind_eq_ok, Run.modifyEngine_eq_ok, pure_eq_ok] at hb
  obtain ⟨_, _, rfl, rfl, rfl⟩ := hb
  exact ⟨h.observed, h.stack⟩

theorem Reaches.tallied (h : Reaches task context origin moment s) : Tallied context s := by
  induction h with
  | start began => exact Tallied.start ⟨⟨[], rfl, rfl⟩, rfl⟩ began
  | sample before effect site ih =>
    obtain ⟨c, g, _, rfl⟩ := onChain_eq_ok.mp site
    exact ⟨ih.observed, ih.stack⟩
  | factor before effect number passed ih =>
    subst passed
    exact ⟨ih.observed, ih.stack⟩
  | exit before effect ih => exact ih
  | restart before impossible began ih => exact ih.start began
  | conclude before settled concluded ih => exact ih.conclude concluded
  | propose before left proposed ih =>
    obtain ⟨c, g, _, rfl⟩ := onChain_eq_ok.mp proposed
    exact ⟨ih.observed, ih.stack⟩

/-- An engine that is active when it starts is active throughout its run. -/
theorem Reaches.still (h : Reaches task context origin moment s)
    (active : context.active?.map (·.id) = some task.id) :
    s.context.active?.map (·.id) = some task.id := by
  rw [Context.active?, h.tallied.stack]
  exact active

theorem Reaches.active {config : MetropolisConfig} {program : Program} {address : Address}
    {store : Store} {c₀ : Context}
    (installed : install config program address store c₀ = .ok task context)
    (h : Reaches task context origin moment s) :
    s.context.active?.map (·.id) = some task.id := by
  unfold install at installed
  simp only [bind_eq_ok, InContext.ofExcept_eq_ok, InContext.install_eq_ok, pure_eq_ok]
    at installed
  obtain ⟨_, _, _, _, _, ⟨rfl, rfl⟩, rfl, rfl⟩ := installed
  exact h.still rfl

end MetropolisHastings

/-- The particle holds the execution that a chain holds, and all of its choices may be moved. -/
structure Particle.Carries (p : Particle) (c : Chain) : Prop where
  trace : p.trace = c.trace
  score : p.score = c.score
  value : p.value = c.value
  floor : p.regenFloor = 0

/-- An exited particle with the execution that a chain holds. -/
def Chain.particle (c : Chain) : Particle where
  resume := default
  store := default
  score := c.score
  trace := c.trace
  completed := true
  value := c.value

theorem Chain.particle_carries (c : Chain) : c.particle.Carries c := ⟨rfl, rfl, rfl, rfl⟩

/-- The execution that such a particle holds is worth moving, as there is something to move. -/
theorem Particle.Carries.movable {p : Particle} {c : Chain} {steps : Nat} (h : p.Carries c)
    (valued : c.Valued) (choices : c.trace.isEmpty = false) (pos : 0 < steps) :
    p.movable steps = true := by
  have hd : (p.trace.drop p.regenFloor).isEmpty = false := by
    rw [h.floor, h.trace]
    exact choices
  have hp : (p.score != negInf) = true := by
    rw [h.score]
    exact valued.possible
  unfold Particle.movable
  simp [hd, hp, pos.ne']

/-- Moving a particle along the whole of its execution. -/
theorem rejuvenate_whole {p : Particle} {steps : Nat} (floor : p.regenFloor = 0)
    (movable : p.movable steps = true) (fuel : Nat) (histogram : Option Histogram) (c : Context) :
    rejuvenate fuel p none steps histogram c =
      match Mover.take ⟨⟨c.next⟩, 0, none⟩ fuel steps
        ⟨{ chain := { trace := p.trace, score := p.score, value := p.value }
           frontier := ⟨p.resume, p.store⟩
           histogram }, (c.install "rejuvenator").2⟩ with
      | .ok () m => .ok ⟨p.adopt m.engine m.engine.chain.trace, m.engine.proposals,
          m.engine.accepted, m.engine.histogram⟩ m.context
      | .error stop m => .error stop m.context := by
  have hz : p.frozen = 0 := by
    unfold Particle.frozen
    rw [floor, Nat.zero_min]
  have hd : p.trace.drop 0 = p.trace := rfl
  have hinstall : InContext.install "rejuvenator" c = .ok ⟨c.next⟩ (c.install "rejuvenator").2 :=
    InContext.install_eq_ok.mpr ⟨rfl, rfl⟩
  unfold rejuvenate
  simp only [movable, hz, hd, Bool.not_true, Bool.false_eq_true, ↓reduceIte]
  rw [bind_ok hinstall]
  cases hm : Mover.take ⟨⟨c.next⟩, 0, none⟩ fuel steps
      ⟨{ chain := { trace := p.trace, score := p.score, value := p.value }
         frontier := ⟨p.resume, p.store⟩
         histogram }, (c.install "rejuvenator").2⟩ with
  | ok u m =>
    rw [bind_ok (Run.inContext_eq_ok.mpr hm)]
    exact bind_ok (InContext.ofExcept_eq_ok.mpr ⟨Trace.splice_zero .., rfl⟩)
  | error stop m =>
    refine bind_error ?_
    unfold Run.inContext
    rw [hm]

/-- Moving a particle is taking steps of Metropolis-Hastings. -/
theorem moves_like_metropolis {config : MetropolisConfig} {program : Program} {address : Address}
    {store : Store} {c₀ context : Context} {task : MetropolisHastings.Task} {origin : Option Chain}
    {s : Session MetropolisHastings} {p : Particle} {c : Context} {steps : Nat}
    (installed : MetropolisHastings.install config program address store c₀ = .ok task context)
    (recorded : MetropolisHastings.Reaches task context origin .recorded s)
    (choices : s.engine.chain.trace.isEmpty = false) (carries : p.Carries s.engine.chain)
    (rng : c.rng = s.context.rng) (pos : 0 < steps) (fuel : Nat) (histogram : Histogram) :
    let further := { task with iterations := s.engine.steps + steps }
    ((∃ r c', rejuvenate fuel p none steps (some histogram) c = .ok r c') ↔
      ∃ result t, MetropolisHastings.proceed further fuel steps s = .ok result t) ∧
    ∀ r c' result t, rejuvenate fuel p none steps (some histogram) c = .ok r c' →
      MetropolisHastings.proceed further fuel steps s = .ok result t →
      r.particle.Carries t.engine.chain ∧ c'.rng = t.context.rng ∧
        t.engine.metrics.accepted = s.engine.metrics.accepted + r.accepted ∧
        ∃ values, values.length = steps ∧
          r.histogram = some (histogram.observeAll values) ∧
          t.engine.histogram = s.engine.histogram.observeAll values := by
  intro further
  have hsound := recorded.holds.valued
  have htallied := recorded.tallied
  have hentries : 0 < s.engine.chain.trace.entries.length := by
    unfold Trace.isEmpty at choices
    simpa [List.length_pos_iff] using choices
  have hactive := recorded.active installed
  -- What the engine has counted and observed so far stays behind both; the rest is compared.
  let pairing : Pairing :=
    { mover := ⟨⟨c.next⟩, 0, none⟩
      task := further
      particle := ⟨{ chain := { trace := p.trace, score := p.score, value := p.value }
                     frontier := ⟨p.resume, p.store⟩
                     histogram := some histogram }, (c.install "rejuvenator").2⟩
      engine := s
      whole := rfl
      free := rfl
      begun := MetropolisHastings.recorded_steps_pos recorded
      tallied := htallied.observed }
  have hsettled : pairing.Settled steps pairing.particle pairing.engine :=
    ⟨⟨⟨rng, rfl, [], rfl, rfl, rfl⟩, rfl, hactive⟩,
      ⟨carries.trace, carries.score, carries.value, .inr hentries⟩, hsound, rfl⟩
  have hmatched : Matched (fun r c' _ t => ∃ m, pairing.Done m t ∧ c' = m.context ∧
        r = ⟨p.adopt m.engine m.engine.chain.trace, m.engine.proposals, m.engine.accepted,
          m.engine.histogram⟩)
      (rejuvenate fuel p none steps (some histogram) c)
      (MetropolisHastings.proceed further fuel steps s) := by
    rw [rejuvenate_whole carries.floor (carries.movable hsound choices pos)]
    have hm := hsettled.take fuel
    generalize Mover.take ⟨⟨c.next⟩, 0, none⟩ fuel steps _ = outcome at hm ⊢
    generalize MetropolisHastings.proceed further fuel steps s = outcome' at hm ⊢
    cases hm with
    | ok done => exact .ok ⟨_, done, rfl, rfl⟩
    | error => exact .error
  refine ⟨hmatched.ok_iff, fun r c' result t hr ht => ?_⟩
  obtain ⟨m, done, rfl, rfl⟩ := hmatched.related hr ht
  obtain ⟨values, hh, hs, hlen⟩ := done.observed
  have hsteps : s.engine.steps + values.length = s.engine.steps + steps :=
    hlen.symm.trans done.steps
  exact ⟨⟨done.chain.trace, done.chain.score, done.chain.value, carries.floor⟩, done.rng,
    done.accepted, values, Nat.add_left_cancel hsteps, hh, hs⟩

/-- The coin flip, of which heads has been recorded and tails is proposed next. -/
theorem coinFlip_moves_alike :
    let task : MetropolisHastings.Task := ⟨⟨1⟩, coinFlip.entry .root, default, 1⟩
    let context : Context := (Context.install { rng := headsThenTails } "mh").2
    ∃ s, MetropolisHastings.Reaches task context none .recorded s ∧
      s.engine.chain.trace.isEmpty = false ∧
      s.engine.chain.particle.Carries s.engine.chain ∧
      ∃ r c' result t,
        rejuvenate 9 s.engine.chain.particle none 1 (some .empty) s.context = .ok r c' ∧
        MetropolisHastings.proceed { task with iterations := s.engine.steps + 1 } 9 1 s =
          .ok result t ∧
        r.particle.Carries t.engine.chain ∧ c'.rng = t.context.rng ∧
        t.engine.metrics.accepted = s.engine.metrics.accepted + r.accepted ∧
        ∃ values, values.length = 1 ∧ r.histogram = some (Histogram.empty.observeAll values) ∧
          t.engine.histogram = s.engine.histogram.observeAll values := by
  intro task context
  have hs : ∃ s, MetropolisHastings.Reaches ⟨⟨1⟩, coinFlip.entry .root, default, 1⟩
      (Context.install { rng := headsThenTails } "mh").2 none .recorded s ∧
      s.engine.chain.trace.isEmpty = false ∧
      succeeds (rejuvenate 9 s.engine.chain.particle none 1 (some .empty) s.context) = true := by
    have h : MetropolisHastings.Reaches ⟨⟨1⟩, coinFlip.entry .root, default, 1⟩
        (Context.install { rng := headsThenTails } "mh").2 none
        (.awaiting (.carryOn (coinFlip.entry .root) default)) _ := .start rfl
    have h := ((h.sample rfl rfl).factor rfl rfl rfl).exit rfl
    exact ⟨_, h.conclude (fun h => absurd h.2 (by decide)) rfl, rfl, by decide +kernel⟩
  obtain ⟨s, recorded, choices, hr⟩ := hs
  obtain ⟨r, c', hr⟩ := exists_of_succeeds hr
  have installed : MetropolisHastings.install ⟨1⟩ coinFlip .root default
      { rng := headsThenTails } = .ok task context := rfl
  have carries := s.engine.chain.particle_carries
  obtain ⟨both, alike⟩ :=
    moves_like_metropolis installed recorded choices carries rfl Nat.one_pos 9 .empty
  obtain ⟨result, t, ht⟩ := both.mp ⟨r, c', hr⟩
  exact ⟨s, recorded, choices, carries, r, c', result, t, hr, ht, alike r c' result t hr ht⟩

end Posterior
