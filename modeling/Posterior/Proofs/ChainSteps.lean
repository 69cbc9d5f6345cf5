import Posterior.Proofs.Replay
import Posterior.Proofs.Verdicts

/-!
What one call of a chain does. A choice either extends the chain by an entry or, if it was forced
and came out as before, takes the chain back; a proposal rewinds it; a decision keeps or undoes it.
-/

namespace Posterior.Chain

open Numeric

/-- The entry that a chain puts on record for a choice. -/
def newEntry (c : Chain) (choice : Choice) (deliver : Delivery) (value : Value)
    (choiceScore : Float) (forced : Bool) : Entry where
  choice := choice
  deliver := deliver
  value := value
  choiceScore := choiceScore
  scoreBefore := c.score
  factorsBefore := c.factors
  reused := (c.previous? choice.address).isSome && !forced

/-- The chain `c'` is `c` with the entry put on record. -/
structure Extends (c : Chain) (e : Entry) (forced : Bool) (c' : Chain) : Prop where
  entry : e = c.newEntry e.choice e.deliver e.value e.choiceScore forced
  score : e.choice.dist.score e.choice.params e.value = .ok e.choiceScore
  number : e.choiceScore.isNaN = false
  push : c.trace.push e = .ok c'.trace
  chain : c' = { c with
    trace := c'.trace
    score := c.score + e.choiceScore
    proposal := c.proposal.map (·.count e.choiceScore (c.previous? e.address) forced) }

namespace Extends

variable {c c' : Chain} {e : Entry} {forced : Bool}

theorem scoreBefore (h : c.Extends e forced c') : e.scoreBefore = c.score :=
  congrArg Entry.scoreBefore h.entry

theorem factorsBefore (h : c.Extends e forced c') : e.factorsBefore = c.factors :=
  congrArg Entry.factorsBefore h.entry

theorem reused (h : c.Extends e forced c') :
    e.reused = ((c.previous? e.address).isSome && !forced) :=
  congrArg Entry.reused h.entry

theorem entries (h : c.Extends e forced c') : c'.trace.entries = c.trace.entries ++ [e] :=
  Trace.entries_push h.push

theorem score_eq (h : c.Extends e forced c') : c'.score = c.score + e.choiceScore := by
  rw [h.chain]

theorem factors_eq (h : c.Extends e forced c') : c'.factors = c.factors := by
  rw [h.chain]

theorem value_eq (h : c.Extends e forced c') : c'.value = c.value := by
  rw [h.chain]

theorem proposal_eq (h : c.Extends e forced c') : c'.proposal =
    c.proposal.map (·.count e.choiceScore (c.previous? e.address) forced) := by
  rw [h.chain]

end Extends

/-- Where the value of a new entry comes from: the previous execution or the generator. A value
that replaces a previous one differs from it. -/
inductive Chosen (c : Chain) (e : Entry) : Bool → Rng → Rng → Prop where
  | reused {old : Entry} {g : Rng} (had : c.previous? e.address = some old)
      (kept : e.value = old.value) : Chosen c e false g g
  | drawn {forced : Bool} {g g' : Rng} (lacked : c.previous? e.address = none)
      (draw : e.choice.dist.draw e.choice.params g = .ok e.value g') : Chosen c e forced g g'
  | redrawn {old : Entry} {g g' : Rng} (had : c.previous? e.address = some old)
      (draw : e.choice.dist.draw e.choice.params g = .ok e.value g')
      (differs : (old.value == e.value) = false) : Chosen c e true g g'

/-- Once its value is chosen, a choice is put on record. -/
theorem Chosen.site_eq {c : Chain} {e : Entry} {forced : Bool} {g g' : Rng}
    (h : c.Chosen e forced g g') : site e.choice e.deliver forced (c, g) =
      record e.choice e.deliver e.value (c.previous? e.choice.address) forced (c, g') := by
  unfold site
  rw [bind_ok (get_eq_ok.mpr ⟨rfl, rfl⟩)]
  cases h with
  | reused had kept =>
    rw [Entry.address] at had
    simp only [had, kept]
  | drawn lacked drew =>
    rw [Entry.address] at lacked
    simp only [lacked]
    exact bind_ok (draw_eq_ok.mpr ⟨_, drew, rfl⟩)
  | redrawn had drew differs =>
    rw [Entry.address] at had
    simp only [had]
    rw [bind_ok (draw_eq_ok.mpr ⟨_, drew, rfl⟩)]
    simp only [differs, Bool.false_eq_true, ↓reduceIte]

/-- How an execution goes on from a new entry. -/
def onward (c : Chain) (e : Entry) : Progress :=
  if c.score == negInf then .halted else .resume (.deliver e.deliver e.choice.store e.value)

theorem record_eq_ok {c c' : Chain} {g g' : Rng} {choice : Choice} {deliver : Delivery}
    {value : Value} {forced : Bool} {progress : Progress} :
    record choice deliver value (c.previous? choice.address) forced (c, g) =
        .ok progress (c', g') ↔
      ∃ e : Entry, e.choice = choice ∧ e.deliver = deliver ∧ e.value = value ∧
        c.Extends e forced c' ∧ progress = c'.onward e ∧ g = g' := by
  unfold record
  simp only [bind_eq_ok, get_eq_ok, put_eq_ok, ofExcept_eq_ok, except_bind_eq_ok,
    ensureNumber_eq_ok]
  constructor
  · rintro ⟨_, _, ⟨rfl, rfl⟩, _, _, ⟨⟨x, hs, rfl, hn⟩, rfl⟩, t, _, ⟨hp, rfl⟩, _, _, rfl, h⟩
    refine ⟨c.newEntry choice deliver value x forced, rfl, rfl, rfl, ?_⟩
    split at h <;> rename_i hz <;> obtain ⟨rfl, hc⟩ := pure_eq_ok.mp h <;> cases hc
    all_goals exact ⟨⟨rfl, hs, hn, hp, rfl⟩, by simp [onward, hz, newEntry], rfl⟩
  · rintro ⟨e, rfl, rfl, rfl, hx, rfl, rfl⟩
    refine ⟨_, _, ⟨rfl, rfl⟩, e.choiceScore, _, ⟨⟨_, hx.score, rfl, hx.number⟩, rfl⟩,
      c'.trace, _, ⟨?_, rfl⟩, (), _, rfl, ?_⟩
    · calc c.trace.push (c.newEntry e.choice e.deliver e.value e.choiceScore forced)
          = c.trace.push e := by rw [← hx.entry]
        _ = .ok c'.trace := hx.push
    · rw [onward, hx.score_eq]
      have hc := hx.chain
      split <;> exact pure_eq_ok.mpr ⟨rfl, by rw [hc]; rfl⟩

/-- Every way in which a choice can be met. -/
theorem site_eq_ok {c c' : Chain} {g g' : Rng} {choice : Choice} {deliver : Delivery}
    {forced : Bool} {progress : Progress} :
    site choice deliver forced (c, g) = .ok progress (c', g') ↔
      (∃ e : Entry, e.choice = choice ∧ e.deliver = deliver ∧ c.Chosen e forced g g' ∧
        c.Extends e forced c' ∧ progress = c'.onward e) ∨
      (forced = true ∧ progress = .unchanged ∧ c' = c.rollBack ∧
        ∃ old value, c.previous? choice.address = some old ∧
          choice.dist.draw choice.params g = .ok value g' ∧ (old.value == value) = true) := by
  constructor
  · intro h
    unfold site at h
    obtain ⟨_, _, got, h⟩ := bind_eq_ok.mp h
    obtain ⟨rfl, rfl⟩ := get_eq_ok.mp got
    cases hp : c.previous? choice.address with
    | none =>
      simp only [hp, bind_eq_ok, draw_eq_ok] at h
      obtain ⟨v, _, ⟨g₁, hd, rfl⟩, h⟩ := h
      rw [← hp] at h
      obtain ⟨e, rfl, rfl, rfl, hx, hpr, rfl⟩ := record_eq_ok.mp h
      exact .inl ⟨e, rfl, rfl, .drawn hp hd, hx, hpr⟩
    | some old =>
      cases forced with
      | false =>
        simp only [hp] at h
        rw [← hp] at h
        obtain ⟨e, rfl, rfl, hv, hx, hpr, rfl⟩ := record_eq_ok.mp h
        exact .inl ⟨e, rfl, rfl, .reused hp hv, hx, hpr⟩
      | true =>
        simp only [hp, bind_eq_ok, draw_eq_ok] at h
        obtain ⟨v, _, ⟨g₁, hd, rfl⟩, h⟩ := h
        split at h
        · rename_i he
          simp only [bind_eq_ok, get_eq_ok, put_eq_ok, pure_eq_ok] at h
          obtain ⟨_, _, ⟨rfl, rfl⟩, _, _, rfl, rfl, ht⟩ := h
          cases ht
          exact .inr ⟨rfl, rfl, rfl, old, v, rfl, hd, he⟩
        · rename_i he
          rw [← hp] at h
          obtain ⟨e, rfl, rfl, rfl, hx, hpr, rfl⟩ := record_eq_ok.mp h
          exact .inl ⟨e, rfl, rfl, .redrawn hp hd (by simpa using he), hx, hpr⟩
  · rintro (⟨e, rfl, rfl, chosen, extends', onward⟩ | ⟨rfl, rfl, rfl, old, v, hp, hd, he⟩)
    · rw [chosen.site_eq]
      exact record_eq_ok.mpr ⟨e, rfl, rfl, rfl, extends', onward, rfl⟩
    · unfold site
      rw [bind_ok (get_eq_ok.mpr ⟨rfl, rfl⟩)]
      simp only [hp]
      rw [bind_ok (draw_eq_ok.mpr ⟨_, hd, rfl⟩)]
      simp only [he, ↓reduceIte]
      rfl

/-- An execution goes on from a choice at a score that is possible. -/
theorem site_resume {c c' : Chain} {g g' : Rng} {choice : Choice} {deliver : Delivery}
    {forced : Bool} {next : Resume}
    (h : site choice deliver forced (c, g) = .ok (.resume next) (c', g')) :
    ∃ e : Entry, e.choice = choice ∧ e.deliver = deliver ∧ c.Chosen e forced g g' ∧
      c.Extends e forced c' ∧ isPossible c'.score = true ∧
      next = .deliver e.deliver e.choice.store e.value := by
  rcases site_eq_ok.mp h with ⟨e, hc, hd, hch, hx, hp⟩ | ⟨_, hp, _⟩
  · unfold onward at hp
    split at hp
    · cases hp
    · rename_i hz
      cases hp
      exact ⟨e, hc, hd, hch, hx, isPossible_iff.mpr (eq_false_of_ne_true hz), rfl⟩
  · cases hp

/-- An execution halts at a choice because it has become impossible. -/
theorem site_halted {c c' : Chain} {g g' : Rng} {choice : Choice} {deliver : Delivery}
    {forced : Bool} (h : site choice deliver forced (c, g) = .ok .halted (c', g')) :
    ∃ e : Entry, c.Extends e forced c' ∧ (c'.score == negInf) = true := by
  rcases site_eq_ok.mp h with ⟨e, _, _, _, hx, hp⟩ | ⟨_, hp, _⟩
  · unfold onward at hp
    split at hp
    · rename_i hz
      exact ⟨e, hx, hz⟩
    · cases hp
  · cases hp

/-- Only a forced choice can come out as before, and then the chain is taken back. -/
theorem site_unchanged {c c' : Chain} {g g' : Rng} {choice : Choice} {deliver : Delivery}
    {forced : Bool} (h : site choice deliver forced (c, g) = .ok .unchanged (c', g')) :
    forced = true ∧ c' = c.rollBack := by
  rcases site_eq_ok.mp h with ⟨e, _, _, _, _, hp⟩ | ⟨hf, _, hc, _⟩
  · unfold onward at hp
    split at hp <;> cases hp
  · exact ⟨hf, hc⟩

/-- The entry that is picked is there, and its choice is met anew. -/
theorem propose_pick {c : Chain} {g g₁ : Rng} {pos : 0 < c.trace.entries.length}
    {i : Fin c.trace.entries.length} {e : Entry}
    (h : Draw.below c.trace.entries.length pos g = .ok i g₁)
    (he : c.trace.entries[i.val]? = some e) :
    propose (c, g) = site e.choice e.deliver true (c.rewind i e, g₁) := by
  change (if pos : 0 < c.trace.entries.length then _ else _ : Move Progress) (c, g) = _
  rw [dif_pos pos]
  change EStateM.bind (draw _) _ (c, g) = _
  simp only [EStateM.bind, draw, h, Trace.entry?, he]
  rfl

theorem propose_nothing {c : Chain} (h : ¬ 0 < c.trace.entries.length) (g : Rng) :
    propose (c, g) = .ok .unchanged (c, g) := by
  change (if pos : 0 < c.trace.entries.length then _ else _ : Move Progress) (c, g) = _
  rw [dif_neg h]
  rfl

/-- A proposal regenerates an entry that was picked among all entries of the trace, if there are
any. -/
theorem propose_eq_ok {c : Chain} {g : Rng} {progress : Progress} {t : Chain × Rng}
    (h : propose (c, g) = .ok progress t) :
    (c.trace.entries = [] ∧ progress = .unchanged ∧ t = (c, g)) ∨
      ∃ (nonempty : 0 < c.trace.entries.length) (i : Fin c.trace.entries.length) (g₁ : Rng)
        (e : Entry), Draw.below c.trace.entries.length nonempty g = .ok i g₁ ∧
        c.trace.entries[i.val]? = some e ∧
        site e.choice e.deliver true (c.rewind i e, g₁) = .ok progress t := by
  by_cases nonempty : 0 < c.trace.entries.length
  · obtain ⟨i, g₁, hd⟩ := Draw.below_ok nonempty g
    have he := List.getElem?_eq_getElem i.isLt
    exact .inr ⟨nonempty, i, g₁, _, hd, he, propose_pick hd he ▸ h⟩
  · rw [propose_nothing nonempty] at h
    cases h
    exact .inl ⟨List.length_eq_zero_iff.mp (by omega), rfl, rfl⟩

/-- A decision draws one number; the execution is kept if the number is below its chance. -/
theorem decide_eq_ok {c c' : Chain} {g g' : Rng} {frozen : Nat} {value : Option Value}
    {accepted : Bool} (h : decide frozen value (c, g) = .ok accepted (c', g')) :
    g' = g.uniform.2 ∧ ∃ chance, c.chance frozen = .ok chance ∧
      ((g.uniform.1 < chance ∧ accepted = true ∧
          c' = { c with value := value, proposal := none }) ∨
        (¬ g.uniform.1 < chance ∧ accepted = false ∧ c' = c.rollBack)) := by
  unfold decide at h
  simp only [bind_eq_ok, get_eq_ok, draw_eq_ok, ofExcept_eq_ok] at h
  obtain ⟨_, _, ⟨rfl, rfl⟩, chance, _, ⟨hc, rfl⟩, u, _, ⟨g₁, hu, rfl⟩, h⟩ := h
  obtain ⟨rfl, rfl⟩ := Draw.uniform_eq_ok.mp hu
  split at h <;> rename_i hlt <;>
    simp only [bind_eq_ok, get_eq_ok, put_eq_ok, pure_eq_ok] at h <;>
    obtain ⟨_, _, ⟨rfl, rfl⟩, _, _, rfl, rfl, ht⟩ := h <;> cases ht
  · exact ⟨rfl, chance, hc, .inl ⟨hlt, by simpa using hlt, rfl⟩⟩
  · exact ⟨rfl, chance, hc, .inr ⟨hlt, by simpa using hlt, rfl⟩⟩

/-- What becomes of an execution that is over: the chain decides about one that has finished, and
one that came out as before is kept. -/
inductive Decides {α : Type} (frozen : Nat) (value : α → Option Value) (before : Chain × Rng) :
    Ending α → Bool → Chain × Rng → Prop where
  | finished {result : α} {accepted : Bool} {after : Chain × Rng}
      (decided : decide frozen (value result) before = .ok accepted after) :
      Decides frozen value before (.finished result) accepted after
  | unchanged : Decides frozen value before .unchanged true before

end Posterior.Chain
