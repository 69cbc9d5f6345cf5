import Posterior.Interchange.Writing
import Posterior.Proofs.Documents
import Posterior.Proofs.Magnitudes

/-!
What is read where a value, a distribution or a summary was written. Values come back whole or not at
all: not at all if a real in them is infinite or undefined, or if they take more levels than the
reader has left. Of the numbers of a summary the log weights come back even when there is no text
for them, but then as the impossible one.
-/

namespace Posterior

open Json

variable {depth : Nat}

mutual

/-- The levels of a document that a value takes. -/
def Value.levels : Value → Nat
  | .list items => 2 + Value.itemLevels items
  | _ => 2

/-- The levels inside a list; an empty one has to be entered too. -/
def Value.itemLevels : List Value → Nat
  | [] => 1
  | v :: vs => max v.levels (Value.itemLevels vs)

end

/-- Whether every real in the value is a finite number. -/
def Value.Finite (v : Value) : Prop := ∀ x ∈ v.document.reals, x.isFinite = true

instance (v : Value) : Decidable v.Finite := inferInstanceAs (Decidable (∀ x ∈ v.document.reals, _))

/-- Whether the finite numbers of a document have texts that stand for them. -/
def Json.Document.Legible (d : Document) : Prop := ∀ x ∈ d.reals, x.isFinite = true → Json.Legible x

instance (d : Document) : Decidable d.Legible := inferInstanceAs (Decidable (∀ x ∈ d.reals, _))

theorem Json.Document.itemJsons_eq (ds : List Document) : itemJsons ds = ds.map json := by
  induction ds with
  | nil => rfl
  | cons d ds ih => rw [itemJsons, ih, List.map_cons]

theorem Json.Document.mem_itemReals {x : Float} {ds : List Document} :
    x ∈ itemReals ds ↔ ∃ d ∈ ds, x ∈ d.reals := by
  induction ds with
  | nil => simp [itemReals]
  | cons d ds ih => simp [itemReals, ih]

/-- A list is read if each of its items is. -/
theorem mapM_eq_of_read {α β γ : Type} {read : β → Option γ} {json : α → β} {back : α → γ}
    {P : α → Prop} [DecidablePred P] {as : List α}
    (h : ∀ a ∈ as, read (json a) = if P a then some (back a) else none) :
    (as.map json).mapM read = if ∀ a ∈ as, P a then some (as.map back) else none := by
  induction as with
  | nil => rfl
  | cons a as ih =>
    rw [List.map_cons, List.mapM_cons, h a List.mem_cons_self,
      ih fun b hb => h b (List.mem_cons_of_mem _ hb)]
    simp only [List.forall_mem_cons]
    by_cases first : P a
    · by_cases others : ∀ b ∈ as, P b
      · rw [if_pos first, if_pos others, if_pos ⟨first, others⟩]
        rfl
      · rw [if_pos first, if_neg others, if_neg (mt And.right others)]
        rfl
    · rw [if_neg first, if_neg (mt (And.left (b := ∀ b ∈ as, P b)) first)]
      rfl

namespace Value

theorem documents_eq (vs : List Value) : documents vs = vs.map document := by
  induction vs with
  | nil => rfl
  | cons v vs ih => rw [documents, ih, List.map_cons]

theorem levels_pos (v : Value) : 2 ≤ v.levels := by
  cases v <;> simp [levels]

theorem itemLevels_le_iff {vs : List Value} :
    itemLevels vs ≤ depth ↔ 1 ≤ depth ∧ ∀ v ∈ vs, v.levels ≤ depth := by
  induction vs with
  | nil => simp [itemLevels]
  | cons v vs ih =>
    simp only [itemLevels, Nat.max_le, ih, List.forall_mem_cons]
    tauto

theorem finite_list {vs : List Value} : Finite (.list vs) ↔ ∀ v ∈ vs, v.Finite := by
  simp only [Finite, document, Document.reals, Document.fieldReals, documents_eq, List.append_nil,
    List.nil_append, Document.mem_itemReals, List.mem_map]
  constructor
  · intro h v hv x hx
    exact h x ⟨_, ⟨v, hv, rfl⟩, hx⟩
  · rintro h x ⟨_, ⟨v, hv, rfl⟩, hx⟩
    exact h v hv x hx

theorem legible_list {vs : List Value} (h : (document (.list vs)).Legible) :
    ∀ v ∈ vs, v.document.Legible := by
  intro v hv x hx
  refine h x ?_
  simp only [document, Document.reals, Document.fieldReals, documents_eq, List.append_nil,
    List.nil_append, Document.mem_itemReals, List.mem_map]
  exact ⟨_, ⟨v, hv, rfl⟩, hx⟩

/-- A record with a tag and then the content. -/
theorem tagged_content (tag : String) (json : Json) (kept : Bool) :
    toTagged? "kind" "value" tags kept (depth + 2)
      (.record [(some "kind", .str (some tag)), (some "value", json)]) =
        some ⟨tag, json, depth + 1, kept⟩ := by
  simp [toTagged?, enter, keyed?, toTag?, column?]

theorem decode?_shallow (kept : Bool) (json : Json) (h : depth < 2) :
    decode? kept depth json = none := by
  match depth, h with
  | 0, _ | 1, _ => rfl

theorem decode?_real (kept : Bool) {x : Float} (h : x.isFinite = true → Json.Legible x) :
    decode? kept (depth + 2) (document (.real x)).json =
      if x.isFinite then some (.real x) else none := by
  simp only [document, Document.json, Document.fieldJsons]
  rw [decode?, tagged_content]
  simp only [toReal?_realJson h, Option.bind_eq_bind, Option.bind_some, Option.pure_def]
  split <;> rfl

/-- Lists leave two levels less to their items. -/
theorem decode?_list (kept : Bool) (vs : List Value) (h : 1 ≤ depth) :
    decode? kept (depth + 2) (document (.list vs)).json =
      ((vs.map fun v => v.document.json).mapM (decode? kept depth)).map .list := by
  obtain ⟨depth, rfl⟩ := Nat.exists_eq_add_of_le' h
  simp only [document, Document.json, Document.fieldJsons, Document.itemJsons_eq, documents_eq,
    List.map_map]
  rw [decode?, tagged_content]
  simp only [enter, Option.bind_eq_bind, Option.bind_some, Option.pure_def]
  exact Option.map_eq_bind.symm

mutual

/-- A value is read as it was written if its reals are finite and it nests no deeper than the reader
goes; else it is not read. -/
theorem decode?_document : ∀ (v : Value) (kept : Bool) (depth : Nat), v.document.Legible →
    decode? kept depth v.document.json = if v.Finite ∧ v.levels ≤ depth then some v else none
  | v, kept, 0, _ | v, kept, 1, _ => by
    have := v.levels_pos
    rw [decode?_shallow kept _ (by decide), if_neg (by omega)]
  | .unit, kept, depth + 2, _ => by
    rw [if_pos ⟨nofun, Nat.le_add_left 2 depth⟩]
    rfl
  | .bool b, kept, depth + 2, _ => by
    rw [if_pos ⟨nofun, Nat.le_add_left 2 depth⟩]
    rfl
  | .int i, kept, depth + 2, _ => by
    rw [if_pos ⟨nofun, Nat.le_add_left 2 depth⟩]
    simp only [document, Document.json, Document.fieldJsons]
    rw [decode?, tagged_content]
    simp [toInt?_ofInt]
  | .real x, kept, depth + 2, h => by
    rw [decode?_real kept (h x (by simp [document, Document.reals, Document.fieldReals]))]
    simp [Finite, document, Document.reals, Document.fieldReals, levels]
  | .str s, kept, depth + 2, _ => by
    rw [if_pos ⟨nofun, Nat.le_add_left 2 depth⟩]
    rfl
  | .list vs, kept, 2, _ => by
    rw [if_neg fun deep => by
      have := (itemLevels_le_iff.mp (Nat.le_of_add_le_add_left (c := 0) deep.2)).1
      omega]
    rfl
  | .list vs, kept, depth + 3, h => by
    have read := decode?_documents vs kept (depth + 1) (legible_list h)
    have enough : levels (.list vs) ≤ depth + 3 ↔ ∀ v ∈ vs, v.levels ≤ depth + 1 := by
      rw [levels, Nat.add_comm 2, Nat.add_le_add_iff_right (n := 2), itemLevels_le_iff]
      simp
    rw [decode?_list kept vs (Nat.le_add_left 1 depth), mapM_eq_of_read read]
    simp only [finite_list, enough, forall_and, List.map_id']
    split <;> rfl

theorem decode?_documents : ∀ (vs : List Value) (kept : Bool) (depth : Nat),
    (∀ v ∈ vs, v.document.Legible) → ∀ v ∈ vs,
      decode? kept depth v.document.json = if v.Finite ∧ v.levels ≤ depth then some v else none
  | [], _, _, _ => nofun
  | v :: vs, kept, depth, h => List.forall_mem_cons.mpr
    ⟨decode?_document v kept depth (h v List.mem_cons_self),
      decode?_documents vs kept depth fun w hw => h w (List.mem_cons_of_mem _ hw)⟩

end

end Value

theorem keyed?_fieldJsons (fields : List (String × Document)) :
    keyed? (Document.fieldJsons fields) = some (fields.map fun field => (field.1, field.2.json)) := by
  induction fields with
  | nil => rfl
  | cons field fields ih =>
    unfold keyed? at ih ⊢
    rw [Document.fieldJsons, List.mapM_cons, ih]
    rfl

theorem toColumns?_record (columns : List (String × Presence)) (fields : List (String × Document)) :
    toColumns? columns (depth + 2) (Document.record fields).json =
      (columns.mapM fun column =>
        column? column.1 column.2 (fields.map fun field => (field.1, field.2.json))).map
        (depth + 1, ·) := by
  rw [Document.json, toColumns?, keyed?_fieldJsons]
  simp only [enter, Option.bind_eq_bind, Option.bind_some, Option.pure_def]
  exact Option.map_eq_bind.symm

/-- What is read where a log weight was written. -/
def rereadWeight (w : Float) : Float := if w.isFinite then w else Numeric.negInf

theorem toLogWeight?_document {w : Float} (h : (logWeightDocument w).Legible) :
    toLogWeight? depth (logWeightDocument w).json = some (rereadWeight w) := by
  unfold logWeightDocument at h ⊢
  split
  · rename_i impossible
    have infinite : w.isFinite = false := by
      rw [← Bool.not_eq_true]
      intro finite
      simp [Numeric.negInf_ne_of_finite finite] at impossible
    rw [rereadWeight, if_neg (by simp [infinite])]
    rfl
  · rename_i possible
    rw [if_neg possible] at h
    rw [Document.json, toLogWeight?, toOption?_realJson (h w List.mem_cons_self), rereadWeight]
    split <;> rfl

theorem Json.Document.json_real (x : Float) : (Document.real x).json = realJson x := by
  rw [Document.json]

theorem toCount?_document {n : Nat} (h : n ≤ Number.maxWord) :
    toCount? depth (Document.count n).json = some n := toCount?_ofInt h

namespace Barrier

def counts (b : Barrier) : List Nat := [b.index, b.distinctAncestors]

def reread (b : Barrier) : Barrier := { b with logMeanWeight := rereadWeight b.logMeanWeight }

/-- An effective sample size without a text leaves nothing of its barrier. -/
theorem ofJson?_document {b : Barrier} (legible : b.document.Legible)
    (fits : ∀ k ∈ b.counts, k ≤ Number.maxWord) :
    Barrier.ofJson? (depth + 2) b.document.json =
      if b.effectiveSampleSize.isFinite then some b.reread else none := by
  have weight : (logWeightDocument b.logMeanWeight).Legible := fun x hx => legible x (by
    simp [document, Document.reals, Document.fieldReals, hx])
  have size : b.effectiveSampleSize.isFinite = true → Json.Legible b.effectiveSampleSize :=
    legible _ (by simp [document, Document.reals, Document.fieldReals])
  unfold Barrier.ofJson? Barrier.document
  rw [toColumns?_record]
  simp only [counts, List.forall_mem_cons] at fits
  obtain ⟨index, ancestors, -⟩ := fits
  simp [column?, required?, toCount?_document index, toCount?_document ancestors,
    toLogWeight?_document weight, Document.json_real, toReal?_realJson size]
  split <;> rfl

end Barrier

namespace Metrics

/-- The counts that metrics hold. -/
def counts (m : Metrics) : List Nat :=
  [m.executions, m.proposals, m.accepted, m.rejuvenationMoves, m.rejuvenationAccepted,
    m.particlesSpawned, m.particlesDropped] ++ m.barriers.flatMap Barrier.counts

def reread (m : Metrics) : Metrics := { m with barriers := m.barriers.map Barrier.reread }

theorem ofJson?_document {m : Metrics} (legible : m.document.Legible)
    (fits : ∀ k ∈ m.counts, k ≤ Number.maxWord) :
    Metrics.ofJson? (depth + 4) m.document.json =
      if ∀ b ∈ m.barriers, b.effectiveSampleSize.isFinite = true then some m.reread else none := by
  have barriers : ∀ b ∈ m.barriers, b.document.Legible := by
    refine fun b hb x hx => legible x ?_
    simp only [document, Document.reals, Document.fieldReals, Document.mem_itemReals, List.mem_append,
      List.mem_map]
    simp [Document.reals, Document.count]
    exact ⟨b, hb, hx⟩
  obtain ⟨executions, proposals, accepted, moves, movesAccepted, spawned, dropped, noted⟩ : _ ∧ _ ∧
      _ ∧ _ ∧ _ ∧ _ ∧ _ ∧ ∀ k ∈ m.barriers.flatMap Barrier.counts, k ≤ Number.maxWord := by
    simpa only [counts, List.cons_append, List.nil_append, List.forall_mem_cons] using fits
  have read : toList? Barrier.ofJson? (depth + 3)
      (Document.list (m.barriers.map Barrier.document)).json =
      if ∀ b ∈ m.barriers, b.effectiveSampleSize.isFinite = true
      then some (m.barriers.map Barrier.reread) else none := by
    rw [Document.json, Document.itemJsons_eq, List.map_map, toList?, ← mapM_eq_of_read fun b hb =>
      Barrier.ofJson?_document (barriers b hb) fun k hk => noted k (List.mem_flatMap.mpr ⟨b, hb, hk⟩)]
    rfl
  unfold Metrics.ofJson? Metrics.document
  rw [toColumns?_record]
  simp [column?, required?, toCount?_document, executions, proposals, accepted, moves, movesAccepted,
    spawned, dropped, read]
  split <;> rfl

end Metrics

namespace Empirical

/-- Whether the values and their probabilities are read as they were written. -/
def Whole (d : Empirical) (depth : Nat) : Prop :=
  ∀ row ∈ d.support, row.1.Finite ∧ row.1.levels ≤ depth ∧ row.2.isFinite = true

instance (d : Empirical) : Decidable (d.Whole depth) :=
  inferInstanceAs (Decidable (∀ row ∈ d.support, _))

def reread (d : Empirical) : Empirical := { d with
  logNormalizer := rereadWeight d.logNormalizer
  acceptanceRatio := d.acceptanceRatio.filter Float.isFinite }

def rowDocument (row : Value × Float) : Document := .list [row.1.document, .real row.2]

theorem supportRow?_document (depth : Nat) {row : Value × Float}
    (legible : (rowDocument row).Legible) :
    supportRow? (depth + 2) (rowDocument row).json =
      if row.1.Finite ∧ row.1.levels ≤ depth + 1 ∧ row.2.isFinite = true then some row else none := by
  have value : row.1.document.Legible := fun x hx => legible x (by
    simp [rowDocument, Document.reals, Document.itemReals, hx])
  have share : row.2.isFinite = true → Json.Legible row.2 :=
    legible _ (by simp [rowDocument, Document.reals, Document.itemReals])
  have read : supportRow? (depth + 2) (rowDocument row).json =
      (Value.ofJson? (depth + 1) row.1.document.json).bind fun value =>
        (toReal? (depth + 1) (Document.real row.2).json).bind fun share => some (value, share) := by
    simp [rowDocument, Document.json, Document.itemJsons, supportRow?, enter]
  rw [read, Document.json_real, toReal?_realJson share, Value.ofJson?,
    Value.decode?_document row.1 false (depth + 1) value]
  simp only [← and_assoc]
  by_cases first : row.1.Finite ∧ row.1.levels ≤ depth + 1
  · rw [if_pos first, Option.bind_some]
    simp only [first, true_and]
    split <;> rfl
  · rw [if_neg first, if_neg (mt And.left first), Option.bind_none]

theorem ofJson?_document {d : Empirical} (legible : d.document.Legible)
    (fits : d.samples ≤ Number.maxWord) :
    Empirical.ofJson? (depth + 4) d.document.json =
      if d.Whole (depth + 1) then some d.reread else none := by
  have rows : ∀ row ∈ d.support, (rowDocument row).Legible := by
    refine fun row hrow x hx => legible x ?_
    simp only [document, Document.reals, Document.fieldReals, List.cons_append, List.nil_append,
      Document.mem_itemReals, List.mem_append, List.mem_map]
    exact .inl ⟨_, ⟨row, hrow, rfl⟩, hx⟩
  have weight : (logWeightDocument d.logNormalizer).Legible := fun x hx => legible x (by
    simp [document, Document.reals, Document.fieldReals, hx])
  have support : toList? supportRow? (depth + 3) (Document.list (d.support.map rowDocument)).json =
      if d.Whole (depth + 1) then some d.support else none := by
    rw [Document.json, Document.itemJsons_eq, List.map_map, toList?]
    have read := mapM_eq_of_read fun row hrow =>
      supportRow?_document depth (rows row hrow)
    rw [List.map_id'] at read
    exact read
  have written : d.support.map (fun row => Document.list [row.1.document, .real row.2]) =
      d.support.map rowDocument := rfl
  unfold Empirical.ofJson? Empirical.document
  rw [toColumns?_record, written]
  cases ratio : d.acceptanceRatio with
  | none =>
    simp [column?, required?, columnOr, toCount?_document fits, toLogWeight?_document weight, support]
    split
    · simp [reread, ratio]
    · rfl
  | some r =>
    have share : r.isFinite = true → Json.Legible r :=
      legible r (by simp [document, Document.reals, Document.fieldReals, ratio])
    simp [column?, required?, columnOr, toCount?_document fits, toLogWeight?_document weight, support,
      Document.json_real, toOption?_realJson share]
    split
    · simp [reread, ratio, Option.filter]
    · rfl

end Empirical

namespace Summary

def counts (s : Summary) : List Nat := s.distribution.samples :: s.metrics.counts

/-- The levels that are left for a value inside a summary, its distribution, the support and a
row of it. -/
def valueLevels : Nat := maxDepth - 4

/-- Whether a summary can be read at all. -/
def Whole (s : Summary) : Prop :=
  s.distribution.Whole valueLevels ∧ ∀ b ∈ s.metrics.barriers, b.effectiveSampleSize.isFinite = true

instance (s : Summary) : Decidable s.Whole := inferInstanceAs (Decidable (_ ∧ _))

def reread (s : Summary) : Summary :=
  { s with distribution := s.distribution.reread, metrics := s.metrics.reread }

theorem ofJson?_document {s : Summary} (legible : s.document.Legible)
    (fits : ∀ k ∈ s.counts, k ≤ Number.maxWord) :
    Summary.ofJson? maxDepth s.document.json = if s.Whole then some s.reread else none := by
  have distribution : s.distribution.document.Legible := fun x hx => legible x (by
    simp [document, Document.reals, Document.fieldReals, hx])
  have metrics : s.metrics.document.Legible := fun x hx => legible x (by
    simp [document, Document.reals, Document.fieldReals, hx])
  obtain ⟨samples, noted⟩ := List.forall_mem_cons.mp fits
  have seed : s.seed.toNat ≤ Number.maxWord := Nat.le_sub_one_of_lt s.seed.toNat_lt
  have inner : maxDepth = 126 + 2 := rfl
  have read : Empirical.ofJson? (126 + 1) s.distribution.document.json =
      if s.distribution.Whole valueLevels then some s.distribution.reread else none :=
    Empirical.ofJson?_document distribution samples
  have read' : Metrics.ofJson? (126 + 1) s.metrics.document.json = _ :=
    Metrics.ofJson?_document metrics noted
  unfold Summary.ofJson? Summary.document
  rw [inner, toColumns?_record]
  simp only [Nat.reduceAdd] at read read'
  simp [column?, required?, toCount?_document seed, read, read']
  by_cases values : s.distribution.Whole valueLevels
  · by_cases sizes : ∀ b ∈ s.metrics.barriers, b.effectiveSampleSize.isFinite = true
    · rw [if_pos values, if_pos sizes, if_pos ⟨values, sizes⟩]
      rfl
    · rw [if_pos values, if_neg sizes, if_neg fun whole : s.Whole => sizes whole.2]
      rfl
  · rw [if_neg values, if_neg fun whole : s.Whole => values whole.1]
    rfl

/-- Reading the text of a summary gives the summary with every log weight that has no text of its
own made impossible, or nothing at all. -/
theorem read?_indentedText {s : Summary} (legible : s.document.Legible)
    (fits : ∀ k ∈ s.counts, k ≤ Number.maxWord) :
    read? Summary.ofJson? s.indentedText = if s.Whole then some s.reread else none := by
  have text := Document.ofText?_of_reads (Document.reads_indented 0 s.document legible)
  unfold read? indentedText
  rw [text]
  exact ofJson?_document legible fits

end Summary

end Posterior
