import Posterior.Proofs.Attempts

/-!
Steps that are not taken. A choice that comes out as before and an execution that is not kept both
bring the chain back to where the step began, with nothing left over for the next proposal.
-/

namespace Posterior

open Numeric

namespace Chain

variable {α : Type} {c c' old : Chain} {g g' : Rng} {i frozen : Nat} {s : Chain × Rng}

/-- The proposal comes to nothing: there is no choice, or the one that is picked comes out as
before. -/
def Repeats (c : Chain) (g : Rng) : Prop :=
  c.trace.length = 0 ∨ ∃ i e value g', c.Redraws g i e value g' ∧ (e.value == value) = true

theorem repeats_iff : c.Repeats g ↔ ∃ s, propose (c, g) = .ok .unchanged s := by
  constructor
  · rintro (empty | ⟨i, e, value, g', redraws, same⟩)
    · exact ⟨_, propose_unchanged_iff.mpr (.inl ⟨empty, rfl⟩)⟩
    · exact ⟨_, propose_unchanged_iff.mpr (.inr ⟨i, e, value, g', redraws, same, rfl⟩)⟩
  · rintro ⟨s, h⟩
    rcases propose_unchanged_iff.mp h with ⟨empty, _⟩ | ⟨i, e, value, g', redraws, same, _⟩
    · exact .inl empty
    · exact .inr ⟨i, e, value, g', redraws, same⟩

theorem Proposes.interchangeable (h : c.Proposes old i) (hi : i < old.trace.length) :
    c.rollBack.Interchangeable old := by
  obtain ⟨ht, hs, hv, _⟩ := h.rollBack
  exact ⟨ht, hs, hv, .inr (Nat.zero_lt_of_lt hi)⟩

theorem propose_unchanged (h : propose (c, g) = .ok .unchanged (c', g')) :
    c'.Interchangeable c := by
  rcases propose_unchanged_iff.mp h with ⟨_, hs⟩ | ⟨i, e, _, _, ⟨_, ⟨entry, _⟩, _⟩, _, hs⟩
  · cases hs
    exact .refl c
  · cases hs
    exact (rewind_proposes c i e).interchangeable (List.getElem?_eq_some_iff.mp entry).1

/-- Whatever an execution is put against, the decision against it brings that back. -/
theorem Decides.interchangeable {value : α → Option Value} {result : α}
    (h : Decides frozen value (c, g) (.finished result) false (c', g')) (hp : c.Proposes old i)
    (hi : i < old.trace.length) : c'.Interchangeable old := by
  cases h with
  | finished decided =>
    obtain ⟨_, _, _, ⟨_, accepted, _⟩ | ⟨_, _, rfl⟩⟩ := decide_eq_ok decided
    · cases accepted
    · exact hp.interchangeable hi

theorem Decides.of_unchanged {value : α → Option Value} {accepted : Bool} {before : Chain × Rng}
    (h : Decides frozen value before .unchanged accepted s) : accepted = true ∧ s = before := by
  cases h
  exact ⟨rfl, rfl⟩

theorem Decides.declines {value : α → Option Value} {result : α} {accepted : Bool}
    (h : Decides frozen value (c, g) (.finished result) accepted s) (hp : c.Proposes old i)
    (hi : i < old.trace.length) (ho : isPossible old.score = true)
    (hz : (c.score == negInf) = true) : accepted = false := by
  cases h with
  | finished decided => exact (hp.decide_impossible hi ho hz decided).1

/-- The decision about an impossible execution can always be taken, and it is to bring the old one
back. -/
theorem Proposes.decide_declines (h : c.Proposes old i) (hi : i < old.trace.length)
    (ho : isPossible old.score = true) (hz : (c.score == negInf) = true) (value : Option Value) :
    Chain.decide frozen value (c, g) = .ok false (c.rollBack, g.uniform.2) := by
  have hu := uniform_not_lt_zero g
  unfold Chain.decide
  rw [bind_ok (get_eq_ok.mpr ⟨rfl, rfl⟩),
    bind_ok (ofExcept_eq_ok.mpr ⟨h.chance_impossible hi ho hz, rfl⟩),
    bind_ok (draw_eq_ok.mpr ⟨_, Draw.uniform_eq_ok.mpr ⟨rfl, rfl⟩, rfl⟩)]
  simp only [hu, decide_false, ↓reduceIte]
  rfl

end Chain

namespace MetropolisHastings

variable {task : Task} {context : Context} {origin : Option Chain} {ending : Ending (Option Value)}
  {s r t : Session MetropolisHastings}

/-- What has become of a step that was begun in `s`, came to its end in `r` and is on record in `t`. A
step that is not taken restores trace, score and value. -/
structure Closes (s r t : Session MetropolisHastings) (ending : Ending (Option Value))
    (accepted : Bool) : Prop where
  recorded : Records ending accepted r t
  repeats : ending = .unchanged ↔ s.engine.chain.Repeats s.context.rng
  /-- A choice that comes out as before counts as accepted, and the program is never resumed. -/
  unchanged : ending = .unchanged → accepted = true ∧ ∀ next u, ¬ Attempt s (.awaiting next) u
  impossible : ending = .finished none → accepted = false
  restored : ending = .unchanged ∨ accepted = false →
    t.engine.chain.Interchangeable s.engine.chain

theorem Attempt.repeats_iff (attempt : Attempt s (.ended ending) r) :
    ending = .unchanged ↔ s.engine.chain.Repeats s.context.rng := by
  rw [Chain.repeats_iff]
  constructor
  · rintro rfl
    obtain ⟨_, unchanged⟩ | ⟨redone, _⟩ := attempt.redoes
    · obtain ⟨c, g, hp, _⟩ := onChain_eq_ok.mp unchanged
      exact ⟨_, hp⟩
    · cases redone
  · rintro ⟨⟨c, g⟩, hp⟩
    have ended := (attempt.of_unchanged (onChain_eq_ok.mpr ⟨c, g, hp, rfl⟩)).1
    cases ended
    rfl

/-- Before it is settled, a step that comes to nothing has changed neither trace nor score nor
value. -/
theorem Attempt.unchanged (attempt : Attempt s (.ended .unchanged) r) :
    r.engine.chain.Interchangeable s.engine.chain ∧ ∀ next u, ¬ Attempt s (.awaiting next) u := by
  obtain ⟨_, unchanged⟩ | ⟨redone, _⟩ := attempt.redoes
  · obtain ⟨c, g, hp, rfl⟩ := onChain_eq_ok.mp unchanged
    refine ⟨Chain.propose_unchanged hp, fun next u other => ?_⟩
    cases (other.of_unchanged unchanged).1
  · cases redone

/-- An execution that ends stands against the chain of which it was proposed. -/
theorem Attempt.proposes {value : Option Value}
    (attempt : Attempt s (.ended (.finished value)) r) :
    ∃ i, r.engine.chain.Proposes s.engine.chain i ∧ i < s.engine.chain.trace.length := by
  obtain ⟨unchanged, _⟩ | ⟨_, i, _, _, _, redoes⟩ := attempt.redoes
  · cases unchanged
  · exact ⟨i, redoes.proposes, redoes.lt⟩

theorem Attempt.closes (recorded : Reaches task context origin .recorded s)
    (attempt : Attempt s (.ended ending) r) (concluded : conclude ending r = .ok () t) :
    ∃ accepted, Closes s r t ending accepted := by
  obtain ⟨accepted, records⟩ := conclude_records concluded
  have hd := records.decided
  refine ⟨accepted, records, attempt.repeats_iff, ?_, ?_, ?_⟩
  · rintro rfl
    exact ⟨hd.of_unchanged.1, attempt.unchanged.2⟩
  · rintro rfl
    obtain ⟨i, proposes, hi⟩ := attempt.proposes
    exact hd.declines proposes hi recorded.holds.valued.possible attempt.impossible
  · intro declined
    cases ending with
    | unchanged =>
      have chain : t.engine.chain = r.engine.chain := congrArg Prod.fst hd.of_unchanged.2
      rw [chain]
      exact attempt.unchanged.1
    | finished value =>
      obtain ⟨i, proposes, hi⟩ := attempt.proposes
      obtain ended | rfl := declined
      · cases ended
      · exact hd.interchangeable proposes hi

/-- A step that comes to nothing or to an impossible execution can always be recorded. -/
theorem Attempt.concludes (recorded : Reaches task context origin .recorded s)
    (attempt : Attempt s (.ended ending) r)
    (declined : ending = .unchanged ∨ ending = .finished none) :
    ∃ t, conclude ending r = .ok () t := by
  obtain ⟨possible, value, valued⟩ := recorded.holds.valued
  obtain rfl | rfl := declined
  · have held : r.engine.chain.value = some value := attempt.unchanged.1.value.trans valued
    exact ⟨_, observe_of_value held⟩
  · obtain ⟨i, proposes, hi⟩ := attempt.proposes
    have held : r.engine.chain.rollBack.value = some value :=
      (proposes.interchangeable hi).value.trans valued
    have kept : onChain (Chain.decide 0 none) r = .ok false ⟨{ r.engine with
        chain := r.engine.chain.rollBack }, { r.context with rng := r.context.rng.uniform.2 }⟩ :=
      onChain_eq_ok.mpr
        ⟨_, _, proposes.decide_declines hi possible attempt.impossible none, rfl⟩
    simp only [conclude]
    rw [bind_ok kept]
    exact ⟨_, observe_of_value held⟩

end MetropolisHastings

/-- A particle that is about to be moved. -/
def Particle.mover (p : Particle) (histogram : Option Histogram) : Mover where
  chain := { trace := p.trace.drop p.frozen, score := p.score, value := p.value }
  frontier := ⟨p.resume, p.store⟩
  histogram := histogram

namespace Mover

variable {task : Task} {steps left : Nat} {origin : Chain} {ending : Ending Outcome}
  {moment : Moment} {s₀ s r t : Session Mover}

/-- What has become of a step that was begun in `s`, with `left` steps to follow, came to its end in `r`
and is settled in `t`. A step that is not taken restores trace, score, value and frontier. -/
structure Closes (task : Task) (left : Nat) (s r t : Session Mover) (ending : Ending Outcome)
    (accepted : Bool) : Prop where
  recorded : Records task ending accepted r t
  repeats : ending = .unchanged ↔ s.engine.chain.Repeats s.context.rng
  /-- A choice that comes out as before counts as accepted, and the program is never resumed. -/
  unchanged : ending = .unchanged →
    accepted = true ∧ ∀ origin next u, ¬ Attempt task left s (.awaiting origin next) u
  impossible : ending = .finished .impossible → accepted = false
  restored : ending = .unchanged ∨ accepted = false →
    t.engine.chain.Interchangeable s.engine.chain ∧ t.engine.frontier = s.engine.frontier

/-- The chain is possible wherever no step is under way, and what is under way is put against a
possible one. -/
def Possible : Moment → Chain → Prop
  | .settled _, c => isPossible c.score = true
  | .ended _ .unchanged, c => isPossible c.score = true
  | .awaiting old _, c => isPossible old.score = true ∧
      ∃ i, c.Proposes old i ∧ i < old.trace.length
  | .ended old (.finished _), c => isPossible old.score = true ∧
      ∃ i, c.Proposes old i ∧ i < old.trace.length

theorem Reaches.possible (h : Reaches task steps s₀ moment s)
    (h₀ : isPossible s₀.engine.chain.score = true) : Possible moment s.engine.chain := by
  induction h with
  | start => exact h₀
  | propose before proposed ih =>
    obtain ⟨c, g, hp, rfl⟩ := onChain_eq_ok.mp proposed
    rcases Chain.propose_outcome none hp with
      ⟨next, i, g₀, rfl, hpick, hr⟩ | ⟨rfl, i, g₀, hpick, hr, _⟩ | ⟨rfl, _, hs, _⟩
    · exact ⟨ih, i, hr.proposes, hpick.lt⟩
    · exact ⟨ih, i, hr, hpick.lt⟩
    · change isPossible c.score = true
      rw [hs]
      exact ih
  | @sample _ _ _ _ _ _ progress before effect site ih =>
    obtain ⟨c, g, hs, rfl⟩ := onChain_eq_ok.mp site
    obtain ⟨possible, i, proposes, hi⟩ := ih
    cases progress with
    | unchanged => cases (Chain.site_unchanged hs).1
    | resume next =>
      obtain ⟨_, _, _, _, extends', _⟩ := Chain.site_resume hs
      exact ⟨possible, i, proposes.extends extends', hi⟩
    | halted =>
      obtain ⟨_, extends', _⟩ := Chain.site_halted hs
      exact ⟨possible, i, proposes.extends extends', hi⟩
  | factor before effect number passed ih =>
    subst passed
    unfold Moment.afterFactor
    split
    · exact ih
    · split <;> exact ih
  | exit before effect ih =>
    unfold Moment.afterExit leave
    split <;> exact ih
  | @conclude origin ending s t before concluded ih =>
    obtain ⟨accepted, records⟩ := conclude_records concluded
    have hd := records.decided
    generalize t.engine.chain = c at hd ⊢
    generalize t.context.rng = g at hd
    cases hd with
    | unchanged => exact ih
    | finished decided =>
      obtain ⟨possible, i, proposes, hi⟩ := ih
      have undone : isPossible s.engine.chain.rollBack.score = true := by
        rw [(proposes.interchangeable hi).score]
        exact possible
      by_cases hz : (s.engine.chain.score == negInf) = true
      · obtain ⟨_, rfl⟩ := proposes.decide_impossible hi possible hz decided
        exact undone
      · obtain ⟨_, _, _, ⟨_, _, rfl⟩ | ⟨_, _, rfl⟩⟩ := Chain.decide_eq_ok decided
        · exact isPossible_iff.mpr (eq_false_of_ne_true hz)
        · exact undone

theorem Attempt.repeats_iff (attempt : Attempt task left s (.ended origin ending) r) :
    ending = .unchanged ↔ s.engine.chain.Repeats s.context.rng := by
  rw [Chain.repeats_iff]
  constructor
  · rintro rfl
    obtain ⟨_, unchanged⟩ | ⟨redone, _⟩ := attempt.redoes
    · obtain ⟨c, g, hp, _⟩ := onChain_eq_ok.mp unchanged
      exact ⟨_, hp⟩
    · cases redone
  · rintro ⟨⟨c, g⟩, hp⟩
    have ended := (attempt.of_unchanged (onChain_eq_ok.mpr ⟨c, g, hp, rfl⟩)).1
    cases ended
    rfl

/-- Before it is settled, a step that comes to nothing has changed neither trace nor score nor
value. -/
theorem Attempt.unchanged (attempt : Attempt task left s (.ended origin .unchanged) r) :
    r.engine.chain.Interchangeable s.engine.chain ∧
      ∀ origin next u, ¬ Attempt task left s (.awaiting origin next) u := by
  obtain ⟨_, unchanged⟩ | ⟨redone, _⟩ := attempt.redoes
  · obtain ⟨c, g, hp, rfl⟩ := onChain_eq_ok.mp unchanged
    refine ⟨Chain.propose_unchanged hp, fun origin next u other => ?_⟩
    cases (other.of_unchanged unchanged).1
  · cases redone

/-- An execution that ends stands against the chain of which it was proposed. -/
theorem Attempt.proposes {outcome : Outcome}
    (attempt : Attempt task left s (.ended origin (.finished outcome)) r) :
    ∃ i, r.engine.chain.Proposes s.engine.chain i ∧ i < s.engine.chain.trace.length := by
  obtain ⟨unchanged, _⟩ | ⟨_, i, _, _, _, redoes⟩ := attempt.redoes
  · cases unchanged
  · exact ⟨i, redoes.proposes, redoes.lt⟩

theorem Attempt.closes (possible : isPossible s.engine.chain.score = true)
    (attempt : Attempt task left s (.ended origin ending) r)
    (concluded : conclude task ending r = .ok () t) :
    ∃ accepted, Closes task left s r t ending accepted := by
  obtain ⟨accepted, records⟩ := conclude_records concluded
  have hd := records.decided
  have hf := records.frontier
  refine ⟨accepted, records, attempt.repeats_iff, ?_, ?_, ?_⟩
  · rintro rfl
    exact ⟨hd.of_unchanged.1, attempt.unchanged.2⟩
  · rintro rfl
    obtain ⟨i, proposes, hi⟩ := attempt.proposes
    exact hd.declines proposes hi possible attempt.impossible
  · intro declined
    cases ending with
    | unchanged =>
      have chain : t.engine.chain = r.engine.chain := congrArg Prod.fst hd.of_unchanged.2
      rw [chain, hf, hd.of_unchanged.1]
      exact ⟨attempt.unchanged.1, attempt.frontier_eq⟩
    | finished outcome =>
      obtain ⟨i, proposes, hi⟩ := attempt.proposes
      obtain ended | rfl := declined
      · cases ended
      · rw [hf]
        exact ⟨hd.interchangeable proposes hi, attempt.frontier_eq⟩

/-- A step that comes to nothing or to an impossible execution can always be settled. -/
theorem Attempt.concludes (possible : isPossible s.engine.chain.score = true)
    (attempt : Attempt task left s (.ended origin ending) r)
    (declined : ending = .unchanged ∨ ending = .finished .impossible) :
    ∃ t, conclude task ending r = .ok () t := by
  obtain rfl | rfl := declined
  · exact ⟨_, rfl⟩
  · obtain ⟨i, proposes, hi⟩ := attempt.proposes
    have kept : onChain (Chain.decide task.frozen none) r = .ok false ⟨{ r.engine with
        chain := r.engine.chain.rollBack }, { r.context with rng := r.context.rng.uniform.2 }⟩ :=
      onChain_eq_ok.mpr
        ⟨_, _, proposes.decide_declines hi possible attempt.impossible none, rfl⟩
    simp only [conclude, Outcome.impossible]
    rw [bind_ok kept]
    exact ⟨_, rfl⟩

end Mover

/-- A step that is not taken leaves no mark, whether the choice that is drawn anew comes out as before
or the new execution is not kept: at whichever choice, factor or exit it becomes impossible, it is given
up, and trace, score, value and frontier are those from which the step began. -/
theorem declined_step_leaves_no_mark :
    (∀ (task : MetropolisHastings.Task) (context : Context) (origin : Option Chain)
        (s r : Session MetropolisHastings) (ending : Ending (Option Value)),
      MetropolisHastings.Reaches task context origin .recorded s →
        MetropolisHastings.Attempt s (.ended ending) r →
        (ending = .unchanged ∨ ending = .finished none →
          ∃ t, MetropolisHastings.conclude ending r = .ok () t) ∧
        ∀ t, MetropolisHastings.conclude ending r = .ok () t →
          ∃ accepted, MetropolisHastings.Closes s r t ending accepted) ∧
    ∀ (task : Mover.Task) (p : Particle) (histogram : Option Histogram) (context : Context)
        (steps left : Nat) (s r : Session Mover) (origin : Chain) (ending : Ending Mover.Outcome),
      p.movable steps = true →
        Mover.Reaches task steps ⟨p.mover histogram, context⟩ (.settled (left + 1)) s →
        Mover.Attempt task left s (.ended origin ending) r →
        (ending = .unchanged ∨ ending = .finished .impossible →
          ∃ t, Mover.conclude task ending r = .ok () t) ∧
        ∀ t, Mover.conclude task ending r = .ok () t →
          ∃ accepted, Mover.Closes task left s r t ending accepted := by
  constructor
  · intro task context origin s r ending recorded attempt
    exact ⟨attempt.concludes recorded, fun t => attempt.closes recorded⟩
  · intro task p histogram context steps left s r origin ending movable reached attempt
    have possible : isPossible s.engine.chain.score = true :=
      reached.possible (Particle.movable_possible movable)
    exact ⟨attempt.concludes possible, fun t => attempt.closes possible⟩

/-- A particle of `headsWeighed` that shows heads and is parked at the factor. -/
def weighedHeads : Particle where
  resume store := exit store (.bool true)
  store := default
  score := -1
  trace := ⟨[{ firstFlip true with
    choice := ⟨default, .root, coin, []⟩
    deliver := fun store value =>
      if value == .bool true then factor store .root 0 fun store => exit store value
      else exit store value }], by decide⟩
  factorCount := 1

/-- A coin that comes up heads again is left as it is. One that turns to tails leaves the program
before the factor at which its particle is parked, and is turned back. -/
theorem coinFlip_declines :
    (∃ s r t, MetropolisHastings.Closes s r t .unchanged true ∧
      t.engine.chain.Interchangeable s.engine.chain) ∧
    ∃ s r t, Mover.Closes ⟨⟨1⟩, 0, some 1⟩ 0 s r t (.finished .impossible) false ∧
      t.engine.chain.Interchangeable s.engine.chain ∧ t.engine.frontier = s.engine.frontier := by
  constructor
  · have h : MetropolisHastings.Reaches ⟨⟨1⟩, coinFlip.entry .root, default, 2⟩
        (quietContext "mh") none (.awaiting (.carryOn (coinFlip.entry .root) default)) _ :=
      .start rfl
    have h := ((h.sample rfl rfl).factor rfl rfl rfl).exit rfl
    have begun : ∃ s, MetropolisHastings.Reaches ⟨⟨1⟩, coinFlip.entry .root, default, 2⟩
        (quietContext "mh") none .recorded s ∧
        ∃ r, MetropolisHastings.Attempt s (.after .unchanged) r :=
      ⟨_, h.conclude (fun h => absurd h.2 (by decide)) rfl, _, .propose rfl⟩
    obtain ⟨s, recorded, r, attempt⟩ := begun
    obtain ⟨concludes, closes⟩ := declined_step_leaves_no_mark.1 _ _ _ _ _ _ recorded attempt
    obtain ⟨t, concluded⟩ := concludes (.inl rfl)
    obtain ⟨accepted, closes⟩ := closes t concluded
    obtain ⟨rfl, _⟩ := closes.unchanged rfl
    exact ⟨s, r, t, closes, closes.restored (.inl rfl)⟩
  · have attempt : Mover.Attempt ⟨⟨1⟩, 0, some 1⟩ 0
        ⟨weighedHeads.mover none, { rng := firstToTails }⟩
        (.after _ (.resume (.deliver _ default (.bool false)))) _ := .propose rfl
    have attempt := attempt.exit rfl
    obtain ⟨concludes, closes⟩ :=
      declined_step_leaves_no_mark.2 _ weighedHeads none _ 1 0 _ _ _ _ (by decide) .start attempt
    obtain ⟨t, concluded⟩ := concludes (.inr rfl)
    obtain ⟨accepted, closes⟩ := closes t concluded
    obtain rfl := closes.impossible rfl
    exact ⟨_, _, t, closes, closes.restored (.inr rfl)⟩

end Posterior
