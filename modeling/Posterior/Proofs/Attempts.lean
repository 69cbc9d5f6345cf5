import Posterior.Proofs.ChainEquivalence
import Posterior.Proofs.Reversal

/-!
Attempts: the moments of one step of a chain, from the proposal up to the end of its execution. The
entry that is picked is drawn anew; if it comes out differently, every moment that follows finds the
trace redone from that entry on.
-/

namespace Posterior

open Numeric

namespace Chain

variable {c c' old : Chain} {g g' g₁ : Rng} {i : Nat} {e : Entry} {progress : Progress}
  {s : Chain × Rng}

/-- A proposal out of the chain picks entry `i`, which is `e`, and leaves the generator at `g₁`. -/
def Picks (c : Chain) (g : Rng) (i : Nat) (e : Entry) (g₁ : Rng) : Prop :=
  c.trace.entry? i = some e ∧ ∃ (nonempty : 0 < c.trace.length) (k : Fin c.trace.length),
    Draw.below c.trace.length nonempty g = .ok k g₁ ∧ k.val = i

/-- The proposal draws the choice of entry `i` anew and comes to this value. -/
def Redraws (c : Chain) (g : Rng) (i : Nat) (e : Entry) (value : Value) (g' : Rng) : Prop :=
  ∃ g₁, c.Picks g i e g₁ ∧ e.choice.dist.draw e.choice.params g₁ = .ok value g'

theorem Picks.propose (h : c.Picks g i e g₁) :
    Chain.propose (c, g) = Chain.site e.choice e.deliver true (c.rewind i e, g₁) := by
  obtain ⟨entry, nonempty, k, drawn, rfl⟩ := h
  exact propose_pick drawn entry

theorem exists_picks (nonempty : 0 < c.trace.length) (g : Rng) : ∃ i e g₁, c.Picks g i e g₁ := by
  obtain ⟨k, g₁, drawn⟩ := Draw.below_ok nonempty g
  exact ⟨k, _, g₁, List.getElem?_eq_getElem k.isLt, nonempty, k, drawn, rfl⟩

/-- The chain that is proposed has an entry to compare the redraw with: the one that it replaces. -/
theorem Picks.previous? (h : c.Picks g i e g₁) : (c.rewind i e).previous? e.address = some e := by
  rw [(rewind_proposes c i e).previous?]
  exact Trace.get?_of_mem (List.mem_of_getElem? h.1)

/-- Nothing is proposed out of a chain without choices, nor where the redraw comes out as before; the
chain is then the same but for the count of factors. Everywhere else an execution is proposed. -/
theorem propose_unchanged_iff :
    propose (c, g) = .ok .unchanged s ↔
      (c.trace.length = 0 ∧ s = (c, g)) ∨
      ∃ i e value g', c.Redraws g i e value g' ∧ (e.value == value) = true ∧
        s = ((c.rewind i e).rollBack, g') := by
  constructor
  · intro h
    rcases Nat.eq_zero_or_pos c.trace.length with empty | nonempty
    · have hn : ¬ 0 < c.trace.entries.length := Nat.not_lt.mpr (Nat.le_of_eq empty)
      rw [propose_nothing hn] at h
      cases h
      exact .inl ⟨empty, rfl⟩
    · obtain ⟨i, e, g₁, picks⟩ := exists_picks nonempty g
      rw [picks.propose] at h
      rcases site_eq_ok.mp h with ⟨_, _, _, _, _, hp⟩ | ⟨_, _, hc, o, value, had, drawn, same⟩
      · unfold onward at hp
        split at hp <;> cases hp
      · cases picks.previous?.symm.trans had
        exact .inr ⟨i, e, value, s.2, ⟨g₁, picks, drawn⟩, same, Prod.ext hc rfl⟩
  · rintro (⟨empty, rfl⟩ | ⟨i, e, value, g', ⟨g₁, picks, drawn⟩, same, rfl⟩)
    · exact propose_nothing (Nat.not_lt.mpr (Nat.le_of_eq empty)) g
    · rw [picks.propose]
      exact site_eq_ok.mpr (.inr ⟨rfl, rfl, rfl, e, value, picks.previous?, drawn, same⟩)

/-- The chain has redone the trace of `old` from entry `i` on, and the scores on record are those of
the choices as they are now. -/
def Redoes (c old : Chain) (i : Nat) : Prop :=
  ∃ p e e' rest, c.proposal = some p ∧ Redone old i c.trace p e e' rest ∧
    ∀ r ∈ e' :: rest, r.choice.dist.score r.choice.params r.value = .ok r.choiceScore

theorem Redoes.proposes (h : c.Redoes old i) : c.Proposes old i := by
  obtain ⟨p, _, _, _, hp, redone, _⟩ := h
  exact ⟨p, hp, redone.replaces⟩

theorem Redoes.lt (h : c.Redoes old i) : i < old.trace.length := by
  obtain ⟨_, _, _, _, _, redone, _⟩ := h
  exact (List.getElem?_eq_some_iff.mp redone.entry).1

/-- A redraw that comes out differently is the first entry of the new part of the trace. -/
theorem Picks.redoes (picks : c.Picks g i e g₁)
    (h : site e.choice e.deliver true (c.rewind i e, g₁) = .ok progress (c', g'))
    (redrawn : progress ≠ .unchanged) : c'.Redoes c i := by
  rcases site_eq_ok.mp h with ⟨e', hc, hd, chosen, extends', _⟩ | ⟨_, hp, _⟩
  · have hprev : (c.rewind i e).previous? e'.address = some e := by
      rw [show e'.address = e.address from congrArg Choice.address hc]
      exact picks.previous?
    cases chosen with
    | drawn lacked draw =>
      rw [hprev] at lacked
      cases lacked
    | redrawn had draw differs =>
      rw [hprev] at had
      cases had
      refine ⟨_, e, e', [], by rw [extends'.proposal_eq, hprev]; rfl, ?_, ?_⟩
      · exact .start picks.1 hc hd extends'.scoreBefore extends'.factorsBefore
          (by simp [extends'.reused]) differs extends'.entries ⟨rfl, rfl, rfl, rfl⟩ rfl rfl
      · intro r hr
        rw [List.mem_singleton.mp hr]
        exact extends'.score
  · exact absurd hp redrawn

/-- Every choice that follows is one more entry of the new part. -/
theorem Redoes.site {choice : Choice} {deliver : Delivery} (h : c.Redoes old i)
    (hs : Chain.site choice deliver false (c, g) = .ok progress (c', g')) : c'.Redoes old i := by
  rcases site_eq_ok.mp hs with ⟨r, _, _, chosen, extends', _⟩ | ⟨forced, _⟩
  · have origin := Origin.of_chosen h.proposes chosen extends'
    have hprev := h.proposes.previous? r.address
    obtain ⟨p, e, e', rest, hp, redone, scores⟩ := h
    refine ⟨_, e, e', rest ++ [r], ?_, redone.snoc origin extends'.entries, ?_⟩
    · rw [extends'.proposal_eq, hp, hprev]
      rfl
    · intro x hx
      rw [← List.cons_append] at hx
      rcases List.mem_append.mp hx with hx | hx
      · exact scores x hx
      · rw [List.mem_singleton.mp hx]
        exact extends'.score
  · cases forced

/-- Passing a factor, or losing the score, leaves the trace as it has been redone. -/
theorem Redoes.of_eq (h : c.Redoes old i) (ht : c'.trace = c.trace)
    (hp : c'.proposal = c.proposal) : c'.Redoes old i := by
  unfold Redoes
  rw [ht, hp]
  exact h

/-- Which entry is picked is settled by the generator. -/
theorem Picks.unique {j : Nat} {d : Entry} {g₂ : Rng} (h : c.Picks g i e g₁)
    (h' : c.Picks g j d g₂) : i = j ∧ e = d ∧ g₁ = g₂ := by
  obtain ⟨entry, _, _, drawn, rfl⟩ := h
  obtain ⟨entry', _, _, drawn', rfl⟩ := h'
  cases drawn.symm.trans drawn'
  cases entry.symm.trans entry'
  exact ⟨rfl, rfl, rfl⟩

/-- What a proposal comes to: the chain is as it was, or its trace is being redone from the entry
that was picked on. -/
theorem propose_redoes (h : Chain.propose (c, g) = .ok progress (c', g'))
    (redrawn : progress ≠ .unchanged) : ∃ i e g₁, c.Picks g i e g₁ ∧ c'.Redoes c i := by
  have nonempty : 0 < c.trace.length := by
    refine Nat.pos_of_ne_zero fun empty => redrawn ?_
    rw [propose_nothing (Nat.not_lt.mpr (Nat.le_of_eq empty))] at h
    cases h
    rfl
  obtain ⟨i, e, g₁, picks⟩ := exists_picks nonempty g
  rw [picks.propose] at h
  exact ⟨i, e, g₁, picks, picks.redoes h redrawn⟩

end Chain

namespace MetropolisHastings

/-- The moments of one step, from the proposal that is made in `s` up to the end of its execution. -/
inductive Attempt (s : Session MetropolisHastings) :
    Moment → Session MetropolisHastings → Prop where
  | propose {progress : Progress} {t : Session MetropolisHastings}
      (proposed : onChain Chain.propose s = .ok progress t) : Attempt s (.after progress) t
  | sample {next : Resume} {r t : Session MetropolisHastings} {choice : Choice}
      {deliver : Delivery} {progress : Progress} (before : Attempt s (.awaiting next) r)
      (effect : next.invoke = .sample choice deliver)
      (site : onChain (Chain.site choice deliver false) r = .ok progress t) :
      Attempt s (.after progress) t
  | factor {next : Resume} {r t : Session MetropolisHastings} {point : Factor}
      {resume : Continuation} (before : Attempt s (.awaiting next) r)
      (effect : next.invoke = .factor point resume) (number : point.logWeight.isNaN = false)
      (passed : t =
        { r with engine := { r.engine with chain := r.engine.chain.factor point.logWeight } }) :
      Attempt s (.afterFactor t.engine.chain (.carryOn resume point.store)) t
  | exit {next : Resume} {r : Session MetropolisHastings} {store : Store} {value : Value}
      (before : Attempt s (.awaiting next) r) (effect : next.invoke = .exit store value) :
      Attempt s (.ended (.finished (some value))) r

variable {task : Task} {context : Context} {origin : Option Chain} {moment : Moment}
  {s r : Session MetropolisHastings}

/-- The moments of an attempt are moments of the run. -/
theorem Attempt.reaches (recorded : Reaches task context origin .recorded s)
    (left : s.engine.steps < task.iterations) (h : Attempt s moment r) :
    Reaches task context (some s.engine.chain) moment r := by
  induction h with
  | propose proposed => exact recorded.propose left proposed
  | sample before effect site ih => exact ih.sample effect site
  | factor before effect number passed ih => exact ih.factor effect number passed
  | exit before effect ih => exact ih.exit effect

/-- The moment at which nothing was executed because the choice came out as before. -/
def Moment.isUnchanged : Moment → Bool
  | .ended .unchanged => true
  | _ => false

theorem Moment.isUnchanged_afterFactor {c : Chain} {next : Resume} :
    (Moment.afterFactor c next).isUnchanged = false := by
  unfold Moment.afterFactor
  split <;> rfl

/-- Nothing is executed where the choice comes out as before; at every other moment the chain has
redone the trace from the entry that was picked on. -/
theorem Attempt.redoes (h : Attempt s moment r) :
    (moment.isUnchanged = true ∧ onChain Chain.propose s = .ok .unchanged r) ∨
      (moment.isUnchanged = false ∧ ∃ i e g₁,
        s.engine.chain.Picks s.context.rng i e g₁ ∧ r.engine.chain.Redoes s.engine.chain i) := by
  induction h with
  | @propose progress t proposed =>
    obtain ⟨c, g, hp, rfl⟩ := onChain_eq_ok.mp proposed
    cases progress with
    | unchanged => exact .inl ⟨rfl, proposed⟩
    | resume next => exact .inr ⟨rfl, Chain.propose_redoes hp (by simp)⟩
    | halted => exact .inr ⟨rfl, Chain.propose_redoes hp (by simp)⟩
  | @sample _ _ _ _ _ progress before effect site ih =>
    obtain ⟨c, g, hs, rfl⟩ := onChain_eq_ok.mp site
    obtain ⟨ended, _⟩ | ⟨_, i, e, g₁, picks, redoes⟩ := ih
    · cases ended
    refine .inr ⟨?_, i, e, g₁, picks, redoes.site hs⟩
    cases progress with
    | unchanged => cases (Chain.site_unchanged hs).1
    | resume next => rfl
    | halted => rfl
  | factor before effect number passed ih =>
    subst passed
    obtain ⟨ended, _⟩ | ⟨_, i, e, g₁, picks, redoes⟩ := ih
    · cases ended
    exact .inr ⟨Moment.isUnchanged_afterFactor, i, e, g₁, picks, redoes.of_eq rfl rfl⟩
  | exit before effect ih =>
    obtain ⟨ended, _⟩ | ⟨_, redoes⟩ := ih
    · cases ended
    exact .inr ⟨rfl, redoes⟩

/-- Nothing follows a choice that comes out as before. -/
theorem Attempt.of_unchanged {t : Session MetropolisHastings}
    (unchanged : onChain Chain.propose s = .ok .unchanged t) (h : Attempt s moment r) :
    moment = .ended .unchanged ∧ r = t := by
  induction h with
  | propose proposed =>
    cases unchanged.symm.trans proposed
    exact ⟨rfl, rfl⟩
  | sample before effect site ih => cases ih.1
  | factor before effect number passed ih => cases ih.1
  | exit before effect ih => cases ih.1

/-- Whatever a run executes after its first step is an attempt from a recorded step. -/
theorem Reaches.attempt {old : Chain} {t : Session MetropolisHastings}
    (h : Reaches task context (some old) moment t) : moment = .recorded ∨
      ∃ origin s, Reaches task context origin .recorded s ∧ s.engine.steps < task.iterations ∧
        s.engine.chain = old ∧ Attempt s moment t := by
  generalize ho : some old = origin at h
  induction h with
  | start began => cases ho
  | restart before impossible began ih => cases ho
  | conclude before settled concluded ih => exact .inl rfl
  | propose before left proposed ih =>
    cases ho
    exact .inr ⟨_, _, before, left, rfl, .propose proposed⟩
  | sample before effect site ih =>
    obtain recorded | ⟨origin, s, recorded, left, chain, attempt⟩ := ih ho
    · cases recorded
    exact .inr ⟨origin, s, recorded, left, chain, attempt.sample effect site⟩
  | factor before effect number passed ih =>
    obtain recorded | ⟨origin, s, recorded, left, chain, attempt⟩ := ih ho
    · cases recorded
    exact .inr ⟨origin, s, recorded, left, chain, attempt.factor effect number passed⟩
  | exit before effect ih =>
    obtain recorded | ⟨origin, s, recorded, left, chain, attempt⟩ := ih ho
    · cases recorded
    exact .inr ⟨origin, s, recorded, left, chain, attempt.exit effect⟩

/-- An execution that ends without a value has become impossible. -/
theorem Attempt.impossible (h : Attempt s (.ended (.finished none)) r) :
    (r.engine.chain.score == negInf) = true := by
  generalize hm : Moment.ended (.finished none) = moment at h
  cases h with
  | @propose progress t proposed =>
    obtain ⟨c, g, hp, rfl⟩ := onChain_eq_ok.mp proposed
    cases progress <;> cases hm
    rcases Chain.propose_outcome none hp with ⟨_, _, _, h, _⟩ | ⟨_, _, _, _, _, hz⟩ | ⟨h, _⟩
    · cases h
    · exact hz
    · cases h
  | @sample _ _ _ _ _ progress before effect site =>
    obtain ⟨c, g, hs, rfl⟩ := onChain_eq_ok.mp site
    cases progress <;> cases hm
    exact (Chain.site_halted hs).choose_spec.2
  | factor before effect number passed =>
    unfold Moment.afterFactor at hm
    split at hm
    · assumption
    · cases hm
  | exit before effect => cases hm

end MetropolisHastings

namespace Mover

/-- The moments of one step, from the proposal that is made in `s`, with `left` steps to follow, up to
the end of its execution. -/
inductive Attempt (task : Task) (left : Nat) (s : Session Mover) : Moment → Session Mover → Prop where
  | propose {progress : Progress} {t : Session Mover}
      (proposed : onChain Chain.propose { s with engine := s.engine.begin left } =
        .ok progress t) :
      Attempt task left s (.after s.engine.chain progress) t
  | sample {origin : Chain} {next : Resume} {r t : Session Mover} {choice : Choice}
      {deliver : Delivery} {progress : Progress}
      (before : Attempt task left s (.awaiting origin next) r)
      (effect : next.invoke = .sample choice deliver)
      (site : onChain (Chain.site choice deliver false) r = .ok progress t) :
      Attempt task left s (.after origin progress) t
  | factor {origin : Chain} {next : Resume} {r t : Session Mover} {point : Factor}
      {resume : Continuation} (before : Attempt task left s (.awaiting origin next) r)
      (effect : next.invoke = .factor point resume) (number : point.logWeight.isNaN = false)
      (passed : t =
        { r with engine := { r.engine with chain := r.engine.chain.factor point.logWeight } }) :
      Attempt task left s
        (.afterFactor origin task.limit t.engine.chain ⟨resume, point.store⟩) t
  | exit {origin : Chain} {next : Resume} {r : Session Mover} {store : Store} {value : Value}
      (before : Attempt task left s (.awaiting origin next) r)
      (effect : next.invoke = .exit store value) :
      Attempt task left s (.afterExit origin task.limit r.engine store value)
        { r with engine := r.engine.leave task.limit }

variable {task : Task} {steps left : Nat} {s₀ s r : Session Mover} {moment : Moment}

/-- The moments of an attempt are moments of the moves. -/
theorem Attempt.reaches (settled : Reaches task steps s₀ (.settled (left + 1)) s)
    (h : Attempt task left s moment r) : Reaches task steps s₀ moment r := by
  induction h with
  | propose proposed => exact settled.propose proposed
  | sample before effect site ih => exact ih.sample effect site
  | factor before effect number passed ih => exact ih.factor effect number passed
  | exit before effect ih => exact ih.exit effect

/-- The frontier stays where it is until a step is settled. -/
theorem Attempt.frontier_eq (h : Attempt task left s moment r) :
    r.engine.frontier = s.engine.frontier := by
  induction h with
  | propose proposed =>
    obtain ⟨c, g, _, rfl⟩ := onChain_eq_ok.mp proposed
    rfl
  | sample before effect site ih =>
    obtain ⟨c, g, _, rfl⟩ := onChain_eq_ok.mp site
    exact ih
  | factor before effect number passed ih =>
    subst passed
    exact ih
  | exit before effect ih =>
    unfold leave
    split <;> exact ih

/-- The moment at which nothing was executed because the choice came out as before. -/
def Moment.isUnchanged : Moment → Bool
  | .ended _ .unchanged => true
  | _ => false

theorem Moment.isUnchanged_afterFactor {origin c : Chain} {limit : Option Nat}
    {frontier : Frontier} : (Moment.afterFactor origin limit c frontier).isUnchanged = false := by
  unfold Moment.afterFactor
  split
  · rfl
  · split <;> rfl

theorem Moment.isUnchanged_afterExit {origin : Chain} {limit : Option Nat} {e : Mover}
    {store : Store} {value : Value} :
    (Moment.afterExit origin limit e store value).isUnchanged = false := by
  unfold Moment.afterExit
  split <;> rfl

theorem leave_trace (limit : Option Nat) (e : Mover) :
    (e.leave limit).chain.trace = e.chain.trace ∧
      (e.leave limit).chain.proposal = e.chain.proposal := by
  unfold leave
  split <;> exact ⟨rfl, rfl⟩

/-- Nothing is executed where the choice comes out as before; at every other moment the chain has
redone the trace from the entry that was picked on. -/
theorem Attempt.redoes (h : Attempt task left s moment r) :
    (moment.isUnchanged = true ∧
        onChain Chain.propose { s with engine := s.engine.begin left } = .ok .unchanged r) ∨
      (moment.isUnchanged = false ∧ ∃ i e g₁,
        s.engine.chain.Picks s.context.rng i e g₁ ∧ r.engine.chain.Redoes s.engine.chain i) := by
  induction h with
  | @propose progress t proposed =>
    obtain ⟨c, g, hp, rfl⟩ := onChain_eq_ok.mp proposed
    cases progress with
    | unchanged => exact .inl ⟨rfl, proposed⟩
    | resume next => exact .inr ⟨rfl, Chain.propose_redoes hp (by simp)⟩
    | halted => exact .inr ⟨rfl, Chain.propose_redoes hp (by simp)⟩
  | @sample _ _ _ _ _ _ progress before effect site ih =>
    obtain ⟨c, g, hs, rfl⟩ := onChain_eq_ok.mp site
    obtain ⟨ended, _⟩ | ⟨_, i, e, g₁, picks, redoes⟩ := ih
    · cases ended
    refine .inr ⟨?_, i, e, g₁, picks, redoes.site hs⟩
    cases progress with
    | unchanged => cases (Chain.site_unchanged hs).1
    | resume next => rfl
    | halted => rfl
  | factor before effect number passed ih =>
    subst passed
    obtain ⟨ended, _⟩ | ⟨_, i, e, g₁, picks, redoes⟩ := ih
    · cases ended
    exact .inr ⟨Moment.isUnchanged_afterFactor, i, e, g₁, picks, redoes.of_eq rfl rfl⟩
  | exit before effect ih =>
    obtain ⟨ended, _⟩ | ⟨_, i, e, g₁, picks, redoes⟩ := ih
    · cases ended
    obtain ⟨ht, hp⟩ := leave_trace task.limit _
    exact .inr ⟨Moment.isUnchanged_afterExit, i, e, g₁, picks, redoes.of_eq ht hp⟩

/-- Nothing follows a choice that comes out as before. -/
theorem Attempt.of_unchanged {t : Session Mover}
    (unchanged : onChain Chain.propose { s with engine := s.engine.begin left } = .ok .unchanged t)
    (h : Attempt task left s moment r) :
    moment = .ended s.engine.chain .unchanged ∧ r = t := by
  induction h with
  | propose proposed =>
    cases unchanged.symm.trans proposed
    exact ⟨rfl, rfl⟩
  | sample before effect site ih => cases ih.1
  | factor before effect number passed ih => cases ih.1
  | exit before effect ih => cases ih.1

/-- Whatever is executed while a particle is moved is an attempt from a settled step. -/
theorem Reaches.attempt {t : Session Mover} (h : Reaches task steps s₀ moment t) :
    (∃ left, moment = .settled left) ∨ ∃ left s,
      Reaches task steps s₀ (.settled (left + 1)) s ∧ Attempt task left s moment t := by
  induction h with
  | start => exact .inl ⟨_, rfl⟩
  | conclude before concluded ih => exact .inl ⟨_, rfl⟩
  | propose before proposed ih => exact .inr ⟨_, _, before, .propose proposed⟩
  | sample before effect site ih =>
    obtain ⟨_, settled⟩ | ⟨left, s, settled, attempt⟩ := ih
    · cases settled
    exact .inr ⟨left, s, settled, attempt.sample effect site⟩
  | factor before effect number passed ih =>
    obtain ⟨_, settled⟩ | ⟨left, s, settled, attempt⟩ := ih
    · cases settled
    exact .inr ⟨left, s, settled, attempt.factor effect number passed⟩
  | exit before effect ih =>
    obtain ⟨_, settled⟩ | ⟨left, s, settled, attempt⟩ := ih
    · cases settled
    exact .inr ⟨left, s, settled, attempt.exit effect⟩

/-- An execution that ends without a value and short of a frontier has become impossible. -/
theorem Attempt.impossible {origin : Chain}
    (h : Attempt task left s (.ended origin (.finished .impossible)) r) :
    (r.engine.chain.score == negInf) = true := by
  generalize hm : Moment.ended origin (.finished .impossible) = moment at h
  cases h with
  | @propose progress t proposed =>
    obtain ⟨c, g, hp, rfl⟩ := onChain_eq_ok.mp proposed
    cases progress <;> cases hm
    rcases Chain.propose_outcome none hp with ⟨_, _, _, h, _⟩ | ⟨_, _, _, _, _, hz⟩ | ⟨h, _⟩
    · cases h
    · exact hz
    · cases h
  | @sample _ _ _ _ _ _ progress before effect site =>
    obtain ⟨c, g, hs, rfl⟩ := onChain_eq_ok.mp site
    cases progress <;> cases hm
    exact (Chain.site_halted hs).choose_spec.2
  | factor before effect number passed =>
    unfold Moment.afterFactor at hm
    split at hm
    · assumption
    · split at hm <;> simp [Outcome.impossible] at hm
  | exit before effect =>
    unfold Moment.afterExit at hm
    split at hm <;> rename_i hl
    · simp only [leave, hl, ↓reduceIte]
      exact negInf_beq_self
    · cases hm

end Mover

end Posterior
