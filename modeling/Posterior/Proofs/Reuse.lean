import Posterior.Proofs.Attempts

/-!
What a proposed execution takes over. Before the entry that is drawn anew nothing changes; after it a
choice keeps its value exactly if the previous execution made it too, and every score is that of the
value under the parameters with which the choice is asked for now.
-/

namespace Posterior

namespace Chain

/-- The trace of `new` is that of `old` executed anew from entry `i` on. -/
structure Reuses (old : Chain) (i : Nat) (new : Chain) : Prop where
  before : new.trace.entries.take i = old.trace.entries.take i
  site : ∃ e e', old.trace.entry? i = some e ∧ new.trace.entry? i = some e' ∧
    e'.choice = e.choice ∧ e'.deliver = e.deliver ∧ e'.scoreBefore = e.scoreBefore ∧
    e'.factorsBefore = e.factorsBefore ∧ (e.value == e'.value) = false ∧ e'.reused = false
  /-- A later choice is marked exactly if the old execution made it, and then it was made after
  entry `i` and keeps the value that it had. -/
  later : ∀ j r, i < j → new.trace.entry? j = some r →
    (r.reused = true ↔ r.address ∈ old.trace.addresses) ∧
      ∀ k o, old.trace.entry? k = some o → o.address = r.address → i < k ∧ r.value = o.value
  scores : ∀ j r, i ≤ j → new.trace.entry? j = some r →
    r.choice.dist.score r.choice.params r.value = .ok r.choiceScore

variable {c old : Chain} {i : Nat} {p : Proposal} {t : Trace} {e e' : Entry} {rest : List Entry}

theorem Origin.reused_iff {r : Entry} (h : Origin old r) :
    r.reused = true ↔ r.address ∈ old.trace.addresses := by
  cases h with
  | kept had value mark =>
    obtain ⟨hm, ha⟩ := Trace.get?_eq_some had
    simpa [mark] using ha ▸ List.mem_map_of_mem hm
  | drawn lacked mark => simpa [mark] using Trace.get?_eq_none_iff.mp lacked

/-- There is only one value to take over: an address has one entry. -/
theorem Origin.value_eq {r o : Entry} (h : Origin old r) (ho : o ∈ old.trace.entries)
    (ha : o.address = r.address) : r.value = o.value := by
  have hg := Trace.get?_of_mem ho
  rw [ha] at hg
  cases h with
  | kept had value mark =>
    rw [value, Option.some.inj (had.symm.trans hg)]
  | drawn lacked mark => cases lacked.symm.trans hg

namespace Redone

theorem entry?_site (h : Redone old i t p e e' rest) : t.entry? i = some e' := by
  rw [Trace.entry?, h.entries, List.getElem?_append_right (Nat.le_of_eq h.length_take),
    h.length_take, Nat.sub_self]
  rfl

theorem mem_rest {j : Nat} {r : Entry} (h : Redone old i t p e e' rest) (hj : i < j)
    (hr : t.entry? j = some r) : r ∈ rest := by
  obtain ⟨k, rfl⟩ := Nat.exists_eq_add_of_lt hj
  rw [Trace.entry?, h.entries, List.getElem?_append_right (by rw [h.length_take]; omega),
    h.length_take, show i + k + 1 - i = k + 1 by omega, List.getElem?_cons_succ] at hr
  exact List.mem_of_getElem? hr

theorem mem_of_le {j : Nat} {r : Entry} (h : Redone old i t p e e' rest) (hj : i ≤ j)
    (hr : t.entry? j = some r) : r ∈ e' :: rest := by
  rcases Nat.eq_or_lt_of_le hj with rfl | hj
  · cases h.entry?_site.symm.trans hr
    exact List.mem_cons_self
  · exact List.mem_cons_of_mem _ (h.mem_rest hj hr)

/-- An address of the old trace that comes up again after the regenerated entry stood after it: those
up to it are in the new trace already. -/
theorem lt_of_address {k : Nat} {r o : Entry} (h : Redone old i t p e e' rest) (hr : r ∈ rest)
    (ho : old.trace.entry? k = some o) (ha : o.address = r.address) : i < k := by
  have distinct := t.distinct
  rw [h.entries, List.map_append, List.nodup_append, List.map_cons, List.nodup_cons] at distinct
  obtain ⟨_, ⟨site, _⟩, apart⟩ := distinct
  rcases Nat.lt_trichotomy k i with hk | rfl | hk
  · have hmem : o ∈ old.trace.entries.take i := by
      refine List.mem_of_getElem? (i := k) ?_
      rw [List.getElem?_take_of_lt hk]
      exact ho
    exact absurd ha (apart _ (List.mem_map_of_mem hmem) _
      (List.mem_cons_of_mem _ (List.mem_map_of_mem hr)))
  · cases h.entry.symm.trans ho
    rw [h.address, ha] at site
    exact absurd (List.mem_map_of_mem hr) site
  · exact hk

end Redone

theorem Redoes.reuses (h : c.Redoes old i) : old.Reuses i c := by
  obtain ⟨p, e, e', rest, _, redone, scores⟩ := h
  refine ⟨?_, ⟨e, e', redone.entry, redone.entry?_site, redone.choice, redone.deliver,
    redone.scoreBefore, redone.factorsBefore, redone.differs, redone.mark⟩, ?_, ?_⟩
  · rw [redone.entries, List.take_left' redone.length_take]
  · intro j r hj hr
    have hm := redone.mem_rest hj hr
    have origin := redone.origin r hm
    refine ⟨origin.reused_iff, fun k o ho ha => ⟨redone.lt_of_address hm ho ha, ?_⟩⟩
    exact origin.value_eq (List.mem_of_getElem? ho) ha
  · exact fun j r hj hr => scores r (redone.mem_of_le hj hr)

/-- A choice that is drawn anew and comes out differently is not the choice that leaves the chain as it
was. -/
theorem Redraws.propose_ne_unchanged {g g' : Rng} {value : Value} {s : Chain × Rng}
    (h : c.Redraws g i e value g') (differs : (e.value == value) = false) :
    Chain.propose (c, g) ≠ .ok .unchanged s := by
  intro unchanged
  obtain ⟨g₁, picks, drawn⟩ := h
  rcases propose_unchanged_iff.mp unchanged with ⟨empty, _⟩ | ⟨j, d, other, _, h', same, _⟩
  · obtain ⟨_, nonempty, _⟩ := picks
    omega
  · obtain ⟨g₂, picks', drawn'⟩ := h'
    obtain ⟨rfl, rfl, rfl⟩ := picks.unique picks'
    cases drawn.symm.trans drawn'
    rw [differs] at same
    cases same

end Chain

/-- An entry whose choice is drawn anew and comes out differently: at every later moment of the step,
and so where its execution ends, the trace is the old one up to that entry, the entry itself but for its
value, and then the choices of the new execution, which keep their values exactly where the old
execution made them too. -/
theorem redrawn_entry_reuses_later_choices :
    (∀ (s r : Session MetropolisHastings) (i : Nat) (e : Entry) (value : Value) (g : Rng)
        (moment : MetropolisHastings.Moment),
      s.engine.chain.Redraws s.context.rng i e value g → (e.value == value) = false →
        MetropolisHastings.Attempt s moment r → s.engine.chain.Reuses i r.engine.chain) ∧
    ∀ (task : Mover.Task) (left : Nat) (s r : Session Mover) (i : Nat) (e : Entry) (value : Value)
        (g : Rng) (moment : Mover.Moment),
      s.engine.chain.Redraws s.context.rng i e value g → (e.value == value) = false →
        Mover.Attempt task left s moment r → s.engine.chain.Reuses i r.engine.chain := by
  constructor
  · intro s r i e value g moment redraws differs attempt
    obtain ⟨_, unchanged⟩ | ⟨_, j, d, g₂, picks', redoes⟩ := attempt.redoes
    · obtain ⟨_, _, hp, _⟩ := MetropolisHastings.onChain_eq_ok.mp unchanged
      exact absurd hp (redraws.propose_ne_unchanged differs)
    · obtain ⟨g₁, picks, _⟩ := redraws
      obtain ⟨rfl, rfl, rfl⟩ := picks.unique picks'
      exact redoes.reuses
  · intro task left s r i e value g moment redraws differs attempt
    obtain ⟨_, unchanged⟩ | ⟨_, j, d, g₂, picks', redoes⟩ := attempt.redoes
    · obtain ⟨_, _, hp, _⟩ := Mover.onChain_eq_ok.mp unchanged
      exact absurd hp (redraws.propose_ne_unchanged differs)
    · obtain ⟨g₁, picks, _⟩ := redraws
      obtain ⟨rfl, rfl, rfl⟩ := picks.unique picks'
      exact redoes.reuses

/-- A coin on record that is followed by another one, which the program returns. -/
def firstOfPair : Entry where
  choice := ⟨default, Address.root.child "first", coin, []⟩
  deliver store _ := sample store (Address.root.child "second") coin [] exit
  value := .bool true
  choiceScore := -1
  scoreBefore := 0
  factorsBefore := 0
  reused := false

/-- Both coins show heads. -/
def headsPair : Chain where
  trace := ⟨[firstOfPair, secondFlip], by decide⟩
  score := -2
  value := some (.bool true)

/-- The first of two heads turns to tails, and the second is taken over. -/
theorem headsPair_reuses :
    (∃ value r, MetropolisHastings.Attempt ⟨{ chain := headsPair }, { rng := firstToTails }⟩
      (.ended (.finished value)) r ∧ headsPair.Reuses 0 r.engine.chain) ∧
    ∃ ending r, Mover.Attempt ⟨⟨1⟩, 0, none⟩ 0
      ⟨{ chain := headsPair, frontier := default }, { rng := firstToTails }⟩
      (.ended headsPair ending) r ∧ headsPair.Reuses 0 r.engine.chain := by
  have redraws : headsPair.Redraws firstToTails 0 firstOfPair (.bool false) _ :=
    ⟨_, ⟨rfl, by decide, ⟨0, by decide⟩, rfl, rfl⟩, rfl⟩
  constructor
  · have h₁ : MetropolisHastings.Attempt
        ⟨{ chain := headsPair }, { rng := firstToTails }⟩
        (.after (.resume (.deliver firstOfPair.deliver default (.bool false)))) _ := .propose rfl
    have h₂ : MetropolisHastings.Attempt _
        (.after (.resume (.deliver exit default (.bool true)))) _ := h₁.sample rfl rfl
    have h₃ := h₂.exit rfl
    exact ⟨_, _, h₃,
      redrawn_entry_reuses_later_choices.1 _ _ 0 firstOfPair _ _ _ redraws rfl h₃⟩
  · have h₁ : Mover.Attempt ⟨⟨1⟩, 0, none⟩ 0
        ⟨{ chain := headsPair, frontier := default }, { rng := firstToTails }⟩
        (.after headsPair (.resume (.deliver firstOfPair.deliver default (.bool false)))) _ :=
      .propose rfl
    have h₂ : Mover.Attempt _ _ _
        (.after headsPair (.resume (.deliver exit default (.bool true)))) _ := h₁.sample rfl rfl
    have h₃ := h₂.exit rfl
    exact ⟨_, _, h₃,
      redrawn_entry_reuses_later_choices.2 _ _ _ _ 0 firstOfPair _ _ _ redraws rfl h₃⟩

end Posterior
