import Posterior.Proofs.Rereading

/-!
The documents of values, stores and reports are faithful: what is read where one was written is the
same again or nothing, and nothing only if a real in it has no text or the document goes deeper than
the reader. Reports hold no reals and have a fixed depth, so they always come back.
-/

namespace Posterior

open Json

variable {depth : Nat}

namespace Json.Document

mutual

/-- How many lists and records of a document lie inside one another. -/
def nesting : Document → Nat
  | .list items => itemNesting items + 1
  | .record fields => fieldNesting fields + 1
  | _ => 0

def itemNesting : List Document → Nat
  | [] => 0
  | d :: ds => max d.nesting (itemNesting ds)

def fieldNesting : List (String × Document) → Nat
  | [] => 0
  | (_, d) :: fields => max d.nesting (fieldNesting fields)

end

theorem fieldNesting_lt_iff {fields : List (String × Document)} (pos : 0 < depth) :
    fieldNesting fields < depth ↔ ∀ field ∈ fields, field.2.nesting < depth := by
  induction fields with
  | nil => simp [fieldNesting, pos]
  | cons field fields ih => simp [fieldNesting, ih]

theorem mem_fieldReals {x : Float} {fields : List (String × Document)} :
    x ∈ fieldReals fields ↔ ∃ field ∈ fields, x ∈ field.2.reals := by
  induction fields with
  | nil => simp [fieldReals]
  | cons field fields ih => simp [fieldReals, ih]

theorem read?_text {α : Type} (decode : Decoder α) {d : Document} (legible : d.Legible) :
    read? decode d.text = decode maxDepth d.json := by
  unfold read?
  rw [ofText?_of_reads (reads_text d legible)]
  rfl

end Json.Document

mutual

/-- A value takes the levels of its document and the last one, which cannot be entered. -/
theorem Value.levels_eq : ∀ v : Value, v.levels = v.document.nesting + 1
  | .unit | .bool _ | .int _ | .real _ | .str _ => rfl
  | .list vs => by
    rw [levels, itemLevels_eq]
    simp only [document, Document.nesting, Document.fieldNesting]
    omega

theorem Value.itemLevels_eq : ∀ vs : List Value,
    Value.itemLevels vs = Document.itemNesting (Value.documents vs) + 1
  | [] => rfl
  | v :: vs => by
    rw [itemLevels, documents, Document.itemNesting, levels_eq v, itemLevels_eq vs]
    omega

end

section Tables

variable {κ α : Type} [Ord κ]

/-- A key above all others takes the last place. -/
theorem Rows.insert_of_greatest {k : κ} {a : α} {rows : List (κ × α)}
    (h : ∀ row ∈ rows, compare k row.1 = .gt) : Rows.insert k a rows = rows ++ [(k, a)] := by
  induction rows with
  | nil => rfl
  | cons row rows ih =>
    rw [Rows.insert, h row List.mem_cons_self, ih fun r hr => h r (List.mem_cons_of_mem _ hr)]
    rfl

variable [Std.TransOrd κ] [Std.LawfulEqOrd κ]

theorem Table.foldl_insert (rows : List (κ × α)) (t : Table κ α)
    (sorted : Rows.Sorted (t.rows ++ rows)) :
    (rows.foldl (fun t row => t.insert row.1 row.2) t).rows = t.rows ++ rows := by
  induction rows generalizing t with
  | nil => simp
  | cons row rows ih =>
    have greatest : ∀ r ∈ t.rows, compare row.1 r.1 = .gt := fun r hr =>
      Std.OrientedCmp.gt_of_lt ((List.pairwise_append.mp sorted).2.2 r hr row List.mem_cons_self)
    have inserted : (t.insert row.1 row.2).rows = t.rows ++ [row] :=
      Rows.insert_of_greatest greatest
    rw [List.foldl_cons, ih _ (by simpa [inserted] using sorted), inserted, List.append_assoc,
      List.singleton_append]

/-- The rows of a table, entered one by one, make the table again. -/
theorem Table.ofList_rows (t : Table κ α) : Table.ofList t.rows = t :=
  Table.ext (Table.foldl_insert t.rows .empty t.sorted)

end Tables

/-- A table is read if each of its rows is. -/
theorem toTable?_document {α : Type} {decode : Decoder α} (document : α → Document)
    (P : α → Prop) [DecidablePred P] {t : Table String α}
    (h : ∀ row ∈ t.rows, decode (depth + 1) (document row.2).json =
      if P row.2 then some row.2 else none) :
    toTable? decode (depth + 2)
        (Document.record (t.rows.map fun row => (row.1, document row.2))).json =
      if ∀ row ∈ t.rows, P row.2 then some t else none := by
  have rows : (t.rows.map fun row => (row.1, (document row.2).json)).mapM
      (fun row => (decode (depth + 1) row.2).bind fun a => some (row.1, a)) =
      if ∀ row ∈ t.rows, P row.2 then some (t.rows.map id) else none := by
    refine mapM_eq_of_read (P := fun row : String × α => P row.2) fun row hrow => ?_
    rw [h row hrow]
    split <;> rfl
  rw [List.map_id] at rows
  rw [Document.json, toTable?, keyed?_fieldJsons, List.map_map]
  simp only [enter, Option.bind_eq_bind, Option.bind_some, Option.pure_def, Function.comp_def, rows]
  split
  · rw [Option.bind_some, Table.ofList_rows]
  · rfl

namespace Store

/-- Whether every real in the store is a finite number. -/
def Finite (s : Store) : Prop := ∀ row ∈ s.rows, row.2.Finite

instance (s : Store) : Decidable s.Finite := inferInstanceAs (Decidable (∀ row ∈ s.rows, _))

/-- A store takes two levels more than its values. -/
theorem nesting_document_lt_iff {s : Store} :
    s.document.nesting < depth + 3 ↔ ∀ row ∈ s.rows, row.2.levels ≤ depth + 1 := by
  have rows : s.document.nesting =
      Document.fieldNesting (s.rows.map fun row => (row.1, row.2.document)) + 2 := by
    simp [document, Document.nesting, Document.fieldNesting]
  rw [rows, show depth + 3 = depth + 1 + 2 from rfl, Nat.add_lt_add_iff_right,
    Document.fieldNesting_lt_iff depth.succ_pos, List.forall_mem_map]
  simp only [Value.levels_eq, Nat.succ_eq_add_one, Nat.add_le_add_iff_right, Nat.lt_succ_iff]

theorem ofJson?_document {s : Store} (legible : s.document.Legible) :
    Store.ofJson? (depth + 3) s.document.json =
      if s.Finite ∧ s.document.nesting < depth + 3 then some s else none := by
  have values : ∀ row ∈ s.rows, row.2.document.Legible := by
    refine fun row hrow x hx => legible x ?_
    simp only [document, Document.reals, Document.fieldReals, List.append_nil,
      Document.mem_fieldReals, List.mem_map]
    exact ⟨_, ⟨row, hrow, rfl⟩, hx⟩
  have read : toTable? Value.ofJson? (depth + 2)
      (Document.record (s.rows.map fun row => (row.1, row.2.document))).json =
      if ∀ row ∈ s.rows, row.2.Finite ∧ row.2.levels ≤ depth + 1 then some s else none :=
    toTable?_document Value.document (fun v => v.Finite ∧ v.levels ≤ depth + 1) fun row hrow =>
      Value.decode?_document row.2 false (depth + 1) (values row hrow)
  simp only [nesting_document_lt_iff, Finite, ← forall_and]
  unfold Store.ofJson? Store.document
  rw [toColumns?_record]
  simp [column?, required?, read]

end Store

namespace Detail

theorem ofJson?_document (d : Detail) : Detail.ofJson? (depth + 3) d.document.json = some d := by
  have context : toTable? toString? (depth + 2)
      (Document.record (d.context.rows.map fun row => (row.1, .str row.2))).json =
      if ∀ row ∈ d.context.rows, True then some d.context else none :=
    toTable?_document .str (fun _ => True) fun _ _ => rfl
  rw [if_pos fun _ _ => trivial] at context
  have read (text : String) : toString? (depth + 2) (Document.str text).json = some text := rfl
  have given (text : String) : toOption? toString? (depth + 2) (Document.str text).json =
      some (some text) := rfl
  unfold Detail.ofJson? Detail.document
  rw [toColumns?_record]
  cases hint : d.hint with
  | none => simp [column?, required?, columnOr, context, read, ← hint]
  | some text => simp [column?, required?, columnOr, context, read, given, ← hint]

end Detail

namespace Report

theorem reals_document (r : Report) : r.document.reals = [] := by
  have context : Document.fieldReals
      (r.detail.context.rows.map fun row => (row.1, .str row.2)) = [] := by
    simp [List.eq_nil_iff_forall_not_mem, Document.mem_fieldReals, Document.reals]
  cases hint : r.detail.hint <;>
    simp [document, Detail.document, hint, Document.reals, Document.fieldReals, context]

theorem ofJson?_document (r : Report) : Report.ofJson? (depth + 4) r.document.json = some r := by
  have detail : Detail.ofJson? (depth + 3) r.detail.document.json = some r.detail :=
    r.detail.ofJson?_document
  unfold Report.ofJson? Report.document
  simp [Document.json, Document.fieldJsons, toTagged?, enter, keyed?, toTag?, column?, required?,
    Family.ofName?_name, detail]

end Report

/-- Reading back the text of a value or a store gives the same again, or nothing if a real in it is
not finite or the text goes deeper than the reader; a report always comes back. -/
theorem documents_faithful :
    (∀ v : Value, v.document.Legible →
      read? Value.ofJson? v.document.text =
        if v.Finite ∧ v.document.nesting < maxDepth then some v else none) ∧
    (∀ s : Store, s.document.Legible →
      read? Store.ofJson? s.document.text =
        if s.Finite ∧ s.document.nesting < maxDepth then some s else none) ∧
    ∀ r : Report, read? Report.ofJson? r.document.text = some r := by
  refine ⟨fun v legible => ?_, fun s legible => ?_, fun r => ?_⟩
  · rw [Document.read?_text _ legible, Value.ofJson?, Value.decode?_document v false _ legible,
      v.levels_eq]
    rfl
  · rw [Document.read?_text _ legible]
    exact Store.ofJson?_document legible
  · rw [Document.read?_text _ (by simp [Document.Legible, r.reals_document])]
    exact r.ofJson?_document

/-- A real and an integer of one amount, a string full of escapes, an infinite real, and lists down
to the last level and one below it. -/
theorem numbers_and_depths_read_back :
    let mixed : Value := .list [.real 1, .int 1, .str "\"\\\n\x00"]
    let nested (n : Nat) : Value := n.repeat (fun v => .list [v]) .unit
    read? Value.ofJson? mixed.document.text = some mixed ∧
    read? Value.ofJson? (Value.list [.real Numeric.negInf]).document.text = none ∧
    read? Value.ofJson? (nested 63).document.text = some (nested 63) ∧
    read? Value.ofJson? (nested 64).document.text = none ∧
    read? Store.ofJson? (Store.document (.ofList [("x", nested 62)])).text =
      some (.ofList [("x", nested 62)]) ∧
    read? Store.ofJson? (Store.document (.ofList [("x", nested 63)])).text = none := by
  refine ⟨?_, ?_, ?_, ?_, ?_, ?_⟩
  · exact (documents_faithful.1 _ (by decide +kernel)).trans (if_pos (by decide +kernel))
  · exact (documents_faithful.1 _ (by decide +kernel)).trans (if_neg (by decide +kernel))
  · exact (documents_faithful.1 _ (by decide +kernel)).trans (if_pos (by decide +kernel))
  · exact (documents_faithful.1 _ (by decide +kernel)).trans (if_neg (by decide +kernel))
  · exact (documents_faithful.2.1 _ (by decide +kernel)).trans (if_pos (by decide +kernel))
  · exact (documents_faithful.2.1 _ (by decide +kernel)).trans (if_neg (by decide +kernel))

end Posterior
