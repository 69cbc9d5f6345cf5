import Posterior.Proofs.Determinacy
import Posterior.Proofs.Traces

/-!
Reversal of proposals. The way back from a proposed execution regenerates the same entry, and what
counts as drawn on one way counts as given up on the other.
-/

namespace Posterior

open Numeric

/-- The generator yields the values of the entries, one after the other. -/
inductive Yields : Rng → List Entry → Rng → Prop where
  | nil (g : Rng) : Yields g [] g
  | cons {g g' g'' : Rng} {e : Entry} {es : List Entry}
      (draw : e.choice.dist.draw e.choice.params g = .ok e.value g') (rest : Yields g' es g'') :
      Yields g (e :: es) g''

/-- A sum of scores, each added to those before it. -/
def scoreSum (scores : List Float) : Float := scores.foldl (· + ·) 0

theorem scoreSum_snoc (scores : List Float) (x : Float) :
    scoreSum (scores ++ [x]) = scoreSum scores + x := by
  simp [scoreSum]

namespace Chain

/-- The choices that an execution drew: the regenerated one and those after it that it did not take
over. -/
def drawn (c : Chain) (i : Nat) : List Entry :=
  (c.trace.entries.drop i).filter fun e => !e.reused

/-- The choices of the old execution that a new one gives up: the regenerated one, and those after
it whose addresses the new execution lacks. -/
def givenUp (old c : Chain) (i : Nat) : List Entry :=
  (old.trace.entries.drop i).take 1 ++
    (old.trace.entries.drop i).filter fun e => !c.trace.contains e.address

def drawnScores (c : Chain) (i : Nat) : List Float := (c.drawn i).map Entry.choiceScore

def givenUpScores (old c : Chain) (i : Nat) : List Float :=
  (old.givenUp c i).map Entry.choiceScore

/-- Where an entry after the regenerated one comes from. -/
inductive Origin (old : Chain) (r : Entry) : Prop where
  | kept {o : Entry} (had : old.trace.get? r.address = some o) (value : r.value = o.value)
      (mark : r.reused = true) : Origin old r
  | drawn (lacked : old.trace.get? r.address = none) (mark : r.reused = false) : Origin old r

/-- The trace of an execution that regenerates entry `i` of `old`, and what its proposal has counted
so far. The entry `e` has become `e'`, and the entries `rest` have followed. -/
structure Redone (old : Chain) (i : Nat) (t : Trace) (p : Proposal) (e e' : Entry)
    (rest : List Entry) : Prop where
  entry : old.trace.entries[i]? = some e
  entries : t.entries = old.trace.entries.take i ++ e' :: rest
  choice : e'.choice = e.choice
  deliver : e'.deliver = e.deliver
  scoreBefore : e'.scoreBefore = e.scoreBefore
  factorsBefore : e'.factorsBefore = e.factorsBefore
  mark : e'.reused = false
  differs : (e.value == e'.value) = false
  origin : ∀ r ∈ rest, Origin old r
  replaces : p.Replaces old i
  forward : p.forward =
    scoreSum ((e' :: rest.filter fun r => !r.reused).map Entry.choiceScore)
  backward : p.backward = 0 + e.choiceScore

theorem Proposes.previous? {c old : Chain} {i : Nat} (h : c.Proposes old i) (a : Address) :
    c.previous? a = old.trace.get? a := by
  obtain ⟨p, hp, hr⟩ := h
  unfold Chain.previous?
  rw [hp, ← hr.trace]
  rfl

theorem Origin.of_chosen {c c' old : Chain} {i : Nat} {r : Entry} {g g' : Rng}
    (hp : c.Proposes old i) (hch : c.Chosen r false g g') (hx : c.Extends r false c') :
    Origin old r := by
  have hmark := hx.reused
  rw [hp.previous?] at hmark
  cases hch with
  | reused had kept =>
    rw [hp.previous?] at had
    exact .kept had kept (by rw [hmark, had]; rfl)
  | drawn lacked draw =>
    rw [hp.previous?] at lacked
    exact .drawn lacked (by rw [hmark, lacked]; rfl)

/-- A choice after the regenerated one counts as drawn exactly if it is not marked as taken over. -/
theorem Origin.count {old : Chain} {r : Entry} (h : Origin old r) (p : Proposal) :
    (p.count r.choiceScore (old.trace.get? r.address) false).forward =
        (if r.reused then p.forward else p.forward + r.choiceScore) ∧
      (p.count r.choiceScore (old.trace.get? r.address) false).backward = p.backward := by
  cases h with
  | kept had value mark =>
    rw [had, mark]
    exact ⟨rfl, rfl⟩
  | drawn lacked mark =>
    rw [lacked, mark]
    exact ⟨rfl, rfl⟩

namespace Redone

variable {old : Chain} {i : Nat} {t : Trace} {p : Proposal} {e e' r : Entry} {rest : List Entry}

theorem mem (h : Redone old i t p e e' rest) : e ∈ old.trace.entries :=
  List.mem_of_getElem? h.entry

theorem old_entries (h : Redone old i t p e e' rest) :
    old.trace.entries = old.trace.entries.take i ++ e :: old.trace.entries.drop (i + 1) := by
  obtain ⟨hi, he⟩ := List.getElem?_eq_some_iff.mp h.entry
  rw [← he, List.getElem_cons_drop, List.take_append_drop]

theorem length_take (h : Redone old i t p e e' rest) : (old.trace.entries.take i).length = i := by
  obtain ⟨hi, _⟩ := List.getElem?_eq_some_iff.mp h.entry
  rw [List.length_take]
  omega

theorem address (h : Redone old i t p e e' rest) : e'.address = e.address :=
  congrArg Choice.address h.choice

/-- One more choice goes on record. -/
theorem snoc {u : Trace} (h : Redone old i t p e e' rest) (ho : Origin old r)
    (hu : u.entries = t.entries ++ [r]) :
    Redone old i u (p.count r.choiceScore (old.trace.get? r.address) false) e e'
      (rest ++ [r]) := by
  obtain ⟨hf, hb⟩ := ho.count p
  refine { h with entries := ?_, origin := ?_, replaces := ?_, forward := ?_, backward := ?_ }
  · rw [hu, h.entries]
    simp
  · intro r' hr'
    rcases List.mem_append.mp hr' with hr' | hr'
    · exact h.origin r' hr'
    · rw [List.mem_singleton.mp hr']
      exact ho
  · exact h.replaces.count _ _ _
  · rw [hf, h.forward]
    cases hm : r.reused with
    | true => simp [hm]
    | false =>
      have hl : (e' :: (rest ++ [r]).filter fun r => !r.reused).map Entry.choiceScore =
          (e' :: rest.filter fun r => !r.reused).map Entry.choiceScore ++ [r.choiceScore] := by
        simp [hm]
      rw [hl, scoreSum_snoc]
      rfl
  · rw [hb, h.backward]

/-- The entry that is regenerated counts once on the way there, with its new score, and once on the
way back, with its old one. -/
theorem start {u : Trace} (he : old.trace.entries[i]? = some e) (hc : e'.choice = e.choice)
    (hd : e'.deliver = e.deliver) (hs : e'.scoreBefore = e.scoreBefore)
    (hf : e'.factorsBefore = e.factorsBefore) (hm : e'.reused = false)
    (hv : (e.value == e'.value) = false) (hu : u.entries = old.trace.entries.take i ++ [e'])
    (hr : p.Replaces old i) (hfw : p.forward = 0) (hbw : p.backward = 0) :
    Redone old i u (p.count e'.choiceScore (some e) true) e e' [] where
  entry := he
  entries := hu
  choice := hc
  deliver := hd
  scoreBefore := hs
  factorsBefore := hf
  mark := hm
  differs := hv
  origin := by simp
  replaces := hr.count _ _ _
  forward := by simp [Proposal.count, hfw, scoreSum]
  backward := by simp [Proposal.count, hbw]

end Redone

theorem Regenerating.redone {limit : Option Nat} {old : Chain} {i : Nat} {g₀ : Rng}
    {s : Chain × Rng} {step : Step} (h : Regenerating limit old i g₀ s step) :
    ∃ p e e' rest, s.1.proposal = some p ∧ Redone old i s.1.trace p e e' rest := by
  induction h with
  | @redraw e s next entry site =>
    obtain ⟨e', hc, hd, hch, hx, _⟩ := site_resume site
    have hprev : (old.rewind i e).previous? e'.address = some e := by
      rw [(rewind_proposes old i e).previous?, show e'.address = e.address from
        congrArg Choice.address hc]
      exact Trace.get?_of_mem (List.mem_of_getElem? entry)
    cases hch with
    | drawn lacked draw =>
      rw [hprev] at lacked
      cases lacked
    | redrawn had draw differs =>
      rw [hprev] at had
      cases had
      refine ⟨_, e, e', [], by rw [hx.proposal_eq, hprev]; rfl, ?_⟩
      exact .start entry hc hd hx.scoreBefore hx.factorsBefore (by simp [hx.reused]) differs
        hx.entries ⟨rfl, rfl, rfl, rfl⟩ rfl rfl
  | choice before site ih =>
    obtain ⟨p, e, e', rest, hp, hr⟩ := ih
    obtain ⟨r, _, _, hch, hx, _⟩ := site_resume site
    have ho := Origin.of_chosen before.proposes hch hx
    refine ⟨_, e, e', rest ++ [r], ?_, hr.snoc ho hx.entries⟩
    rw [hx.proposal_eq, hp, before.proposes.previous?]
    rfl
  | factor before number possible short ih => exact ih

theorem Regenerated.redone {limit : Option Nat} {old : Chain} {i : Nat} {g₀ : Rng}
    {s : Chain × Rng} {value : Option Value} {frontier : Frontier}
    (h : Regenerated limit old i g₀ s value frontier) :
    ∃ p e e' rest, s.1.proposal = some p ∧ Redone old i s.1.trace p e e' rest := by
  cases h with
  | exit resume before free => exact before.redone
  | factor before number possible cut => exact before.redone

/-- A choice can be made again: asked for at the same score, with its value to be had again, it
extends the chain by the same entry. -/
theorem site_again {c : Chain} {e : Entry} {forced : Bool} {g g' : Rng}
    (hm : Point.Meets ⟨.sample e.choice e.deliver, c.score, c.factors⟩ e)
    (hnew : e.address ∉ c.trace.addresses) (hch : c.Chosen e forced g g')
    (on : isPossible (c.score + e.choiceScore) = true) :
    ∃ c', site e.choice e.deliver forced (c, g) =
        .ok (.resume (.deliver e.deliver e.choice.store e.value)) (c', g') ∧
      c'.score = c.score + e.choiceScore ∧ c'.factors = c.factors ∧
      c'.trace.entries.map Entry.unmarked = (c.trace.entries ++ [e]).map Entry.unmarked := by
  obtain ⟨e', he'⟩ : ∃ e', e' = c.newEntry e.choice e.deliver e.value e.choiceScore forced :=
    ⟨_, rfl⟩
  have hscore : e.scoreBefore = c.score := hm.scoreBefore
  have hfactors : e.factorsBefore = c.factors := hm.factorsBefore
  have hmark : e'.unmarked = e.unmarked := by
    simp only [he', newEntry, Entry.unmarked, hscore, hfactors]
  obtain ⟨u, hu⟩ : ∃ u, c.trace.push e' = .ok u := Trace.push_of_new (by rw [he']; exact hnew)
  have hx : c.Extends e' forced
      { c with
        trace := u
        score := c.score + e.choiceScore
        proposal := c.proposal.map (·.count e.choiceScore (c.previous? e.address) forced) } := by
    subst he'
    exact ⟨rfl, hm.score, hm.number, hu, rfl⟩
  have hch' : c.Chosen e' forced g g' := by
    subst he'
    cases hch with
    | reused had kept => exact .reused had kept
    | drawn lacked draw => exact .drawn lacked draw
    | redrawn had draw differs => exact .redrawn had draw differs
  have hz := isPossible_iff.mp on
  have hnext : Progress.resume (.deliver e.deliver e.choice.store e.value) = onward
      { c with
        trace := u
        score := c.score + e.choiceScore
        proposal := c.proposal.map (·.count e.choiceScore (c.previous? e.address) forced) } e' := by
    subst he'
    simp only [onward, hz, Bool.false_eq_true, ↓reduceIte]
    rfl
  have hsite := site_eq_ok.mpr (.inl ⟨e', congrArg Entry.choice he', congrArg Entry.deliver he', hch',
    hx, hnext⟩)
  refine ⟨_, hsite, rfl, rfl, ?_⟩
  rw [hx.entries]
  simp [hmark]

/-- The next choice comes out as recorded: taken over if the old execution had its address, and drawn
from a generator that yields the values of the others if not. -/
theorem Proposes.chosen_again {old c : Chain} {i : Nat} {e : Entry} {es : List Entry} {g g' : Rng}
    (h : c.Proposes old i) (hold : ∀ o, old.trace.get? e.address = some o → e.value = o.value)
    (hd : Yields g ((e :: es).filter fun e => !old.trace.contains e.address) g') :
    ∃ g₁, c.Chosen e false g g₁ ∧
      Yields g₁ (es.filter fun e => !old.trace.contains e.address) g' := by
  have hprev := h.previous? e.address
  cases ho : old.trace.get? e.address with
  | some o =>
    refine ⟨g, .reused (hprev.trans ho) (hold o ho), ?_⟩
    simpa [Trace.contains, ho] using hd
  | none =>
    have hl : (e :: es).filter (fun e => !old.trace.contains e.address) =
        e :: es.filter fun e => !old.trace.contains e.address := by
      simp [Trace.contains, ho]
    rw [hl] at hd
    cases hd with
    | cons draw rest => exact ⟨_, .drawn (hprev.trans ho) draw, rest⟩

/-- A regeneration that stands where a replay starts can follow it to its end: choices whose
addresses come up again come out as in the replay, the others are drawn as in the replay, and no
factor on the way is the one at which executions are cut off. -/
theorem Regenerating.follow {limit : Option Nat} {old c : Chain} {i : Nat} {g₀ g g' : Rng}
    {p q : Point} {es : List Entry} (hr : Replay isPossible p es q)
    (h : Regenerating limit old i g₀ (c, g) p.step) (hs : c.score = p.score)
    (hf : c.factors = p.factors) (hlim : ∀ m, limit = some m → q.factors < m)
    (hnew : (c.trace.addresses ++ es.map Entry.address).Nodup)
    (hold : ∀ e ∈ es, ∀ o, old.trace.get? e.address = some o → e.value = o.value)
    (hd : Yields g (es.filter fun e => !old.trace.contains e.address) g') :
    ∃ c', Regenerating limit old i g₀ (c', g') q.step ∧ c'.score = q.score ∧
      c'.factors = q.factors ∧
      c'.trace.entries.map Entry.unmarked = (c.trace.entries ++ es).map Entry.unmarked := by
  induction hr generalizing c g with
  | rest p =>
    cases hd
    exact ⟨c, h, hs, hf, by simp⟩
  | @choice p q e es meets on tail ih =>
    obtain ⟨g₁, hch, hd'⟩ := h.proposes.chosen_again (hold e List.mem_cons_self) hd
    have hmeets : Point.Meets ⟨.sample e.choice e.deliver, c.score, c.factors⟩ e :=
      ⟨rfl, meets.scoreBefore.trans hs.symm, meets.factorsBefore.trans hf.symm, meets.score,
        meets.number⟩
    have hfresh : e.address ∉ c.trace.addresses := by
      intro hm
      have := (List.nodup_append.mp hnew).2.2 _ hm _ (List.mem_map_of_mem List.mem_cons_self)
      exact this rfl
    obtain ⟨c₁, hsite, hs₁, hf₁, ht₁⟩ := site_again hmeets hfresh hch (by rw [hs]; exact on)
    rw [meets.step] at h
    have ha := Trace.addresses_of_unmarked ht₁
    obtain ⟨c', hreg, hs', hf', ht'⟩ := ih (h.choice hsite) (by rw [hs₁, hs]; rfl)
      (by rw [hf₁, hf]; rfl) hlim
      (by rw [ha]; simpa [Trace.addresses, List.append_assoc] using hnew)
      (fun r hr => hold r (List.mem_cons_of_mem _ hr)) hd'
    refine ⟨c', hreg, hs', hf', ?_⟩
    rw [ht', List.map_append, ht₁, ← List.map_append]
    simp
  | @factor p q es point resume stands number on tail ih =>
    rw [stands] at h
    have hpos : isPossible (c.factor point.logWeight).score = true := by
      simp only [Chain.factor, hs]
      exact on
    have hshort : limit ≠ some (c.factors + 1) := by
      intro hl
      have h₁ := hlim _ hl
      have h₂ : p.factors + 1 ≤ q.factors := tail.factors_le
      omega
    refine ih (c := c.factor point.logWeight) (h.factor number hpos hshort) ?_ ?_ hlim hnew hold hd
    · simp only [Chain.factor, hs, Point.pass]
    · simp only [Chain.factor, hf, Point.pass]

/-- The scores given up depend neither on marks nor on more of the new execution than which
addresses it has. -/
theorem givenUpScores_congr {x y c d : Chain} {i : Nat}
    (hx : x.trace.entries.map Entry.unmarked = y.trace.entries.map Entry.unmarked)
    (hc : ∀ a, c.trace.contains a = d.trace.contains a) :
    x.givenUpScores c i = y.givenUpScores d i := by
  have unmark : ∀ (x c : Chain), x.givenUpScores c i =
      (((x.trace.entries.map Entry.unmarked).drop i).take 1 ++
        ((x.trace.entries.map Entry.unmarked).drop i).filter
          fun e => !c.trace.contains e.address).map Entry.choiceScore := by
    intro x c
    rw [← List.map_drop, ← List.map_take, List.filter_map, ← List.map_append, List.map_map]
    rfl
  rw [unmark, unmark, hx]
  simp only [hc]

namespace Redone

variable {old c : Chain} {i : Nat} {p : Proposal} {e e' : Entry} {rest : List Entry}

theorem drop_eq (h : Redone old i c.trace p e e' rest) :
    c.trace.entries.drop i = e' :: rest := by
  rw [h.entries]
  exact List.drop_left' h.length_take

theorem drop_old (h : Redone old i c.trace p e e' rest) :
    old.trace.entries.drop i = e :: old.trace.entries.drop (i + 1) := by
  conv_lhs => rw [h.old_entries]
  exact List.drop_left' h.length_take

theorem contains_site (h : Redone old i c.trace p e e' rest) :
    c.trace.contains e.address = true := by
  rw [Trace.contains_iff, ← h.address]
  refine List.mem_map_of_mem ?_
  rw [h.entries]
  simp

theorem drawn_eq (h : Redone old i c.trace p e e' rest) :
    c.drawn i = e' :: rest.filter fun r => !r.reused := by
  unfold drawn
  rw [h.drop_eq]
  simp [h.mark]

theorem givenUp_eq (h : Redone old i c.trace p e e' rest) : old.givenUp c i =
    e :: (old.trace.entries.drop (i + 1)).filter fun r => !c.trace.contains r.address := by
  unfold givenUp
  rw [h.drop_old]
  simp [h.contains_site]

/-- What counts as drawn is what the old execution would give up if it were the new one. -/
theorem drawnScores_eq (h : Redone old i c.trace p e e' rest) :
    c.drawnScores i = c.givenUpScores old i := by
  have hsite : old.trace.contains e'.address = true := by
    rw [Trace.contains_iff, h.address]
    exact List.mem_map_of_mem h.mem
  have hrest : rest.filter (fun r => !r.reused) =
      rest.filter fun r => !old.trace.contains r.address := by
    refine List.filter_congr fun r hr => ?_
    cases h.origin r hr with
    | kept had value mark => simp [Trace.contains, had, mark]
    | drawn lacked mark => simp [Trace.contains, lacked, mark]
  unfold drawnScores givenUpScores givenUp
  rw [h.drawn_eq, h.drop_eq, hrest]
  simp [hsite]

/-- The sum on the way there adds up the scores drawn. -/
theorem forward_eq (h : Redone old i c.trace p e e' rest) :
    p.forward = scoreSum (c.drawnScores i) := by
  unfold drawnScores
  rw [h.drawn_eq, h.forward]

/-- The sum on the way back adds up the scores given up. -/
theorem wayBack_eq (h : Redone old i c.trace p e e' rest) :
    p.wayBack c.trace = scoreSum (old.givenUpScores c i) := by
  unfold Proposal.wayBack Proposal.dropped givenUpScores scoreSum
  rw [h.givenUp_eq, h.replaces.trace, h.replaces.site, h.drop_old, h.backward]
  simp [h.contains_site, List.foldl_map]

end Redone

/-- The chance of a regenerated execution in terms of the scores drawn and given up. -/
theorem Regenerated.chance_eq {limit : Option Nat} {old : Chain} {i : Nat} {g₀ : Rng}
    {s : Chain × Rng} {value : Option Value} {frontier : Frontier}
    (h : Regenerated limit old i g₀ s value frontier) (frozen : Nat) :
    s.1.chance frozen = acceptProb s.1.score old.score (s.1.trace.length + frozen)
      (old.trace.length + frozen) (scoreSum (old.givenUpScores s.1 i))
      (scoreSum (s.1.drawnScores i)) := by
  obtain ⟨p, e, e', rest, hp, hr⟩ := h.redone
  have hz := isPossible_iff.mp h.possible
  simp only [chance, hp, hz, Bool.false_eq_true, ↓reduceIte, hr.wayBack_eq, hr.forward_eq,
    hr.replaces.score, hr.replaces.trace]

/-- A regeneration that is cut off leaves the value of the chain as it was. -/
theorem Regenerated.value_of_cut {n i : Nat} {old : Chain} {g₀ : Rng} {s : Chain × Rng}
    {value : Option Value} {frontier : Frontier}
    (h : Regenerated (some n) old i g₀ s value frontier) : value = old.value := by
  cases h with
  | exit resume before free => cases free
  | factor before number possible cut => exact before.value_eq

/-- What an entry behind the regenerated one has in common with the new execution, if its address
comes up there again: the value. -/
theorem Redone.value_again {old c : Chain} {i : Nat} {p : Proposal} {e e' r o : Entry}
    {rest : List Entry} (h : Redone old i c.trace p e e' rest)
    (hr : r ∈ old.trace.entries.drop (i + 1)) (ho : c.trace.get? r.address = some o) :
    r.value = o.value := by
  obtain ⟨hm, ha⟩ := Trace.get?_eq_some ho
  have hd := old.trace.distinct
  rw [h.old_entries, List.map_append, List.map_cons] at hd
  obtain ⟨_, hbehind, hbefore⟩ := List.nodup_append.mp hd
  have hr' : r.address ∈ (old.trace.entries.drop (i + 1)).map Entry.address :=
    List.mem_map_of_mem hr
  rw [h.entries] at hm
  rcases List.mem_append.mp hm with hm | hm
  · exact absurd ha (hbefore _ (List.mem_map_of_mem hm) _ (List.mem_cons_of_mem _ hr'))
  · rcases List.mem_cons.mp hm with rfl | hm
    · rw [h.address] at ha
      exact absurd (ha ▸ hr') (List.nodup_cons.mp hbehind).1
    · have hget := Trace.get?_of_mem (List.mem_of_mem_drop hr)
      cases h.origin o hm with
      | kept had value mark =>
        rw [ha, hget] at had
        cases had
        exact value.symm
      | drawn lacked mark =>
        rw [ha, hget] at lacked
        cases lacked

/-- The first step back: the regenerated entry is drawn anew and comes out as it was at first. -/
theorem Redone.redraw_back {q : Point} {old c : Chain} {i : Nat} {p : Proposal} {e e' : Entry}
    {rest : List Entry} {back back₁ : Rng} (h : Redone old i c.trace p e e' rest)
    (limit : Option Nat) (hm : q.Meets e)
    (on : isPossible (q.choose e).score = true)
    (draw : e.choice.dist.draw e.choice.params back = .ok e.value back₁) :
    ∃ c₁, Regenerating limit c i back (c₁, back₁) (q.choose e).step ∧
      c₁.score = (q.choose e).score ∧ c₁.factors = (q.choose e).factors ∧
      c₁.trace.entries.map Entry.unmarked =
        (old.trace.entries.take i ++ [e]).map Entry.unmarked := by
  have hentry : c.trace.entries[i]? = some e' := by
    rw [h.entries, List.getElem?_append_right (Nat.le_of_eq h.length_take), h.length_take]
    simp
  have htake : (c.trace.take i).entries = old.trace.entries.take i := by
    rw [Trace.entries_take, h.entries]
    exact List.take_left' h.length_take
  have hscore : e'.scoreBefore = q.score := h.scoreBefore.trans hm.scoreBefore
  have hmeets : Point.Meets ⟨.sample e.choice e.deliver, (c.rewind i e').score,
      (c.rewind i e').factors⟩ e :=
    ⟨rfl, h.scoreBefore.symm, h.factorsBefore.symm, hm.score, hm.number⟩
  have hnew : e.address ∉ (c.rewind i e').trace.addresses := by
    have hd := old.trace.distinct
    rw [h.old_entries, List.map_append, List.map_cons] at hd
    intro hmem
    have hmem' : e.address ∈ (old.trace.entries.take i).map Entry.address := by
      rw [← htake]
      exact hmem
    exact (List.nodup_append.mp hd).2.2 _ hmem' _ List.mem_cons_self rfl
  have hprev : (c.rewind i e').previous? e.address = some e' := by
    rw [(rewind_proposes c i e').previous?, ← h.address]
    exact Trace.get?_of_mem (List.mem_of_getElem? hentry)
  have hdiffers : (e'.value == e.value) = false := by
    rw [Value.beq_comm]
    exact h.differs
  have hon : isPossible ((c.rewind i e').score + e.choiceScore) = true := by
    change isPossible (e'.scoreBefore + e.choiceScore) = true
    rw [hscore]
    exact on
  obtain ⟨c₁, hsite, hs₁, hf₁, ht₁⟩ :=
    site_again hmeets hnew (.redrawn hprev draw hdiffers) hon
  refine ⟨c₁, .redraw hentry (by rw [h.choice, h.deliver]; exact hsite), ?_, ?_, ?_⟩
  · rw [hs₁]
    exact congrArg (· + e.choiceScore) hscore
  · rw [hf₁]
    exact h.factorsBefore.trans hm.factorsBefore
  · rw [ht₁]
    exact congrArg (fun l => (l ++ [e]).map Entry.unmarked) htake

/-- The steps after it: the way back follows the old execution up to where it ends. -/
theorem Redone.way_back {limit : Option Nat} {b q : Point} {old c : Chain} {i : Nat}
    {p : Proposal} {e e' : Entry} {rest : List Entry} {back back' : Rng} {frontier : Frontier}
    (h : Redone old i c.trace p e e' rest) (hrep : Replay isPossible b old.trace.entries q)
    (harr : Arrives limit q old.score old.value frontier)
    (draws : Yields back (old.givenUp c i) back') :
    ∃ c', Regenerating limit c i back (c', back') q.step ∧ c'.score = q.score ∧
      c'.factors = q.factors ∧
      c'.trace.entries.map Entry.unmarked = old.trace.entries.map Entry.unmarked := by
  rw [h.old_entries] at hrep
  obtain ⟨q₁, _, hm, on, htail⟩ := hrep.at_entry
  rw [h.givenUp_eq] at draws
  cases draws with
  | cons draw draws =>
    obtain ⟨c₁, hreg, hs₁, hf₁, ht₁⟩ := h.redraw_back limit hm on draw
    have hlim : ∀ m, limit = some m → q.factors < m := by
      rintro m rfl
      obtain ⟨_, _, _, _, _, hpass⟩ := harr.cut
      have hm : q.factors + 1 = m := congrArg Point.factors hpass
      omega
    have hall : old.trace.entries.take i ++ [e] ++ old.trace.entries.drop (i + 1) =
        old.trace.entries := by
      rw [List.append_assoc, List.singleton_append, ← h.old_entries]
    have hnew : (c₁.trace.addresses ++
        (old.trace.entries.drop (i + 1)).map Entry.address).Nodup := by
      rw [Trace.addresses_of_unmarked ht₁, ← List.map_append, hall]
      exact old.trace.distinct
    obtain ⟨c', hreg', hs, hf, ht⟩ := Regenerating.follow htail hreg hs₁ hf₁ hlim hnew
      (fun r hr o ho => h.value_again hr ho) draws
    refine ⟨c', hreg', hs, hf, ?_⟩
    rw [ht, List.map_append, ht₁, ← List.map_append, hall]

/-- A regeneration that stands where an execution ends comes to the same end. -/
theorem Regenerating.arrives {limit : Option Nat} {q : Point} {old c : Chain} {i : Nat}
    {g₀ g : Rng} {score : Float} {value : Option Value} {frontier : Frontier}
    (h : Regenerating limit old i g₀ (c, g) q.step) (hs : c.score = q.score)
    (hf : c.factors = q.factors) (ha : Arrives limit q score value frontier)
    (possible : isPossible score = true) (hv : ∀ n, limit = some n → c.value = value) :
    ∃ c', Regenerated limit old i g₀ (c', g) value frontier ∧ c'.trace = c.trace ∧
      c'.score = score := by
  cases limit with
  | none =>
    obtain ⟨v, hstep, rfl, hq⟩ := ha.left
    rw [hstep] at h
    exact ⟨c, .exit frontier.resume h rfl, rfl, hs.trans hq⟩
  | some n =>
    obtain ⟨point, resume, hstep, hn, rfl, hpass⟩ := ha.cut
    rw [hstep] at h
    have hsum : (c.factor point.logWeight).score = score := by
      simp only [Chain.factor, hs]
      exact congrArg Point.score hpass
    have hcount : c.factors + 1 = n := by
      rw [hf]
      exact congrArg Point.factors hpass
    have hend := Regenerated.factor h hn (by rw [hsum]; exact possible) (by rw [hcount])
    rw [hv n rfl] at hend
    exact ⟨_, hend, rfl, hsum⟩

/-- Let the regeneration of entry `i` lead from a complete execution `old` to another one, `s'`.
Then the regeneration of entry `i` of `s'` that draws the old values, at `i` and at the addresses
that `s'` lacks, leads back to `old` and nowhere else, in all but the marks of how its values were
come by. The chances on both ways are made of sums of scores, and the scores that one way adds up as
drawn are exactly those that the other adds up as given up. -/
theorem regeneration_reverses {limit : Option Nat} {b : Point} {old s' : Chain} {i : Nat}
    {g₀ back back' : Rng} {s : Chain × Rng} {value : Option Value}
    {frontier frontier' : Frontier}
    (complete : Complete isPossible limit b old.trace old.score old.value frontier)
    (possible : isPossible old.score = true)
    (made : Regenerated limit old i g₀ s value frontier')
    (trace : s'.trace = s.1.trace) (score : s'.score = s.1.score) (held : s'.value = value)
    (draws : Yields back (old.givenUp s' i) back') :
    ∃ c, Regenerated limit s' i back (c, back') old.value frontier ∧
      (∀ t v f, Regenerated limit s' i back t v f → t = (c, back') ∧ v = old.value) ∧
      c.trace.entries.map Entry.unmarked = old.trace.entries.map Entry.unmarked ∧
      c.score = old.score ∧
      (∀ frozen, s.1.chance frozen = acceptProb s'.score old.score (s'.trace.length + frozen)
        (old.trace.length + frozen) (scoreSum (old.givenUpScores s' i))
        (scoreSum (s'.drawnScores i))) ∧
      (∀ frozen, c.chance frozen = acceptProb old.score s'.score (c.trace.length + frozen)
        (s'.trace.length + frozen) (scoreSum (s'.givenUpScores c i))
        (scoreSum (c.drawnScores i))) ∧
      s'.drawnScores i = s'.givenUpScores c i ∧ c.drawnScores i = old.givenUpScores s' i := by
  obtain ⟨p, e, e', rest, hp, h⟩ := made.redone
  rw [← trace] at h
  obtain ⟨q, hrep, harr⟩ := complete
  obtain ⟨c, hreg, hs, hf, ht⟩ := h.way_back hrep harr draws
  have hvalue : ∀ n, limit = some n → c.value = old.value := by
    rintro n rfl
    rw [hreg.value_eq, held, made.value_of_cut]
  obtain ⟨c', hend, htrace, hscore⟩ := hreg.arrives hs hf harr possible hvalue
  have ht' : c'.trace.entries.map Entry.unmarked = old.trace.entries.map Entry.unmarked := by
    rw [htrace]
    exact ht
  obtain ⟨p', d, d', rest', _, h'⟩ := hend.redone
  refine ⟨c', hend, fun t v f hother => hother.unique hend, ht', hscore, ?_, ?_, ?_, ?_⟩
  · intro frozen
    have hchance := made.chance_eq frozen
    simp only [givenUpScores, drawnScores, givenUp, drawn, ← trace, ← score] at hchance ⊢
    exact hchance
  · intro frozen
    have hchance := hend.chance_eq frozen
    rw [hscore] at hchance
    exact hchance
  · exact h.drawnScores_eq.trans
      (givenUpScores_congr rfl fun a => (Trace.contains_congr ht').symm)
  · exact h'.drawnScores_eq.trans (givenUpScores_congr ht' fun a => rfl)

def bothHeads : Chain where
  trace := ⟨[firstFlip true, secondFlip], by decide⟩
  score := -2
  value := some (.bool true)

def firstTails : Chain where
  trace := ⟨[firstFlip false], by decide⟩
  score := -1
  value := some (.bool false)

/-- The first of two heads turns to tails, which gives up the second coin. On the way back both are
drawn again. -/
theorem bothHeads_reverses : ∃ c back',
    Regenerated none firstTails 0 (steadyRng 0) (c, back') (some (.bool true))
      ⟨default, default⟩ ∧
    c.trace.entries.map Entry.unmarked = bothHeads.trace.entries.map Entry.unmarked ∧
    firstTails.drawnScores 0 = firstTails.givenUpScores c 0 ∧
    c.drawnScores 0 = bothHeads.givenUpScores firstTails 0 := by
  have hc : Complete isPossible none (.start (twoCoins default .root)) bothHeads.trace
      bothHeads.score bothHeads.value ⟨default, default⟩ :=
    ⟨_, .choice ⟨rfl, rfl, rfl, rfl, rfl⟩ rfl (.choice ⟨rfl, rfl, rfl, rfl, rfl⟩ rfl (.rest _)),
      .exit ..⟩
  have hfirst : Regenerating none bothHeads 0 (steadyRng (-1)) _
      (Resume.invoke (.deliver (firstFlip true).deliver default (.bool false))) :=
    .redraw rfl rfl
  have hm := Regenerated.exit default hfirst rfl
  have hd : Yields (steadyRng 0) [firstFlip true, secondFlip] _ := .cons rfl (.cons rfl (.nil _))
  obtain ⟨c, hr, _, ht, _, _, _, hf, hb⟩ :=
    regeneration_reverses hc (by decide) hm (show firstTails.trace = _ from rfl) rfl rfl hd
  exact ⟨c, _, hr, ht, hf, hb⟩

end Chain

end Posterior
