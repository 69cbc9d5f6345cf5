/-!
Tables: finite maps whose rows are kept in the order of their keys, so that two tables with the
same content are the same table.
-/

namespace Posterior

namespace Rows

variable {κ α : Type} [Ord κ]

def lookup (k : κ) : List (κ × α) → Option α
  | [] => none
  | (j, a) :: rest =>
    match compare k j with
    | .lt => none
    | .eq => some a
    | .gt => lookup k rest

def insert (k : κ) (a : α) : List (κ × α) → List (κ × α)
  | [] => [(k, a)]
  | (j, b) :: rest =>
    match compare k j with
    | .lt => (k, a) :: (j, b) :: rest
    | .eq => (k, a) :: rest
    | .gt => (j, b) :: insert k a rest

def Sorted (rows : List (κ × α)) : Prop :=
  rows.Pairwise (fun a b => compare a.1 b.1 = .lt)

theorem mem_insert {k : κ} {a : α} {rows : List (κ × α)} {row : κ × α}
    (h : row ∈ insert k a rows) : row = (k, a) ∨ row ∈ rows := by
  induction rows with
  | nil => simp [insert] at h; simp [h]
  | cons head rest ih =>
    obtain ⟨j, b⟩ := head
    simp only [insert] at h
    split at h <;> grind

theorem mem_of_lookup {k : κ} {a : α} {rows : List (κ × α)} (h : lookup k rows = some a) :
    ∃ j, (j, a) ∈ rows := by
  induction rows with
  | nil => cases h
  | cons head rest ih =>
    obtain ⟨j, b⟩ := head
    simp only [lookup] at h
    split at h
    · cases h
    · obtain rfl := Option.some.inj h
      exact ⟨j, List.mem_cons_self ..⟩
    · obtain ⟨i, later⟩ := ih h
      exact ⟨i, List.mem_cons_of_mem _ later⟩

variable [Std.TransOrd κ] [Std.LawfulEqOrd κ]

theorem Sorted.insert {k : κ} {a : α} {rows : List (κ × α)} (h : Sorted rows) :
    Sorted (insert k a rows) := by
  induction rows with
  | nil => simp [Rows.insert, Sorted]
  | cons head rest ih =>
    obtain ⟨j, b⟩ := head
    simp only [Sorted, List.pairwise_cons] at h ⊢
    simp only [Rows.insert]
    split
    · rename_i hlt
      simp only [List.pairwise_cons, List.mem_cons]
      refine ⟨?_, h⟩
      rintro row (rfl | hrow)
      · exact hlt
      · exact Std.TransCmp.lt_trans hlt (h.1 row hrow)
    · rename_i heq
      rw [Std.LawfulEqOrd.eq_of_compare heq]
      exact List.pairwise_cons.mpr h
    · rename_i hgt
      refine List.pairwise_cons.mpr ⟨?_, ih h.2⟩
      intro row hrow
      rcases mem_insert hrow with rfl | hrow
      · exact Std.OrientedCmp.lt_of_gt hgt
      · exact h.1 row hrow

theorem lookup_insert [DecidableEq κ] (k i : κ) (a : α) (rows : List (κ × α)) :
    lookup i (insert k a rows) = if i = k then some a else lookup i rows := by
  induction rows with
  | nil =>
    simp only [Rows.insert, lookup]
    split <;> rename_i h
    · have : i ≠ k := by rintro rfl; simp [Std.ReflCmp.compare_self] at h
      simp [this]
    · simp [Std.LawfulEqOrd.eq_of_compare h]
    · have : i ≠ k := by rintro rfl; simp [Std.ReflCmp.compare_self] at h
      simp [this]
  | cons head rest ih =>
    obtain ⟨j, b⟩ := head
    simp only [Rows.insert]
    split <;> rename_i h
    · simp only [lookup]
      by_cases hik : i = k
      · simp [hik, Std.ReflCmp.compare_self]
      · simp only [hik, if_false]
        split <;> rename_i hc
        · rw [Std.TransCmp.lt_trans hc h]
        · exact absurd (Std.LawfulEqOrd.eq_of_compare hc) hik
        · rfl
    · have hkj := Std.LawfulEqOrd.eq_of_compare h
      subst hkj
      by_cases hik : i = k
      · simp [lookup, hik, Std.ReflCmp.compare_self]
      · simp only [lookup, hik, if_false]
        split <;> rename_i hc
        · rfl
        · exact absurd (Std.LawfulEqOrd.eq_of_compare hc) hik
        · rfl
    · simp only [lookup]
      by_cases hik : i = k
      · subst hik
        simp [h, ih]
      · split <;> simp_all

end Rows

structure Table (κ α : Type) [Ord κ] where
  rows : List (κ × α)
  sorted : Rows.Sorted rows

namespace Table

variable {κ α : Type} [Ord κ]

def empty : Table κ α := ⟨[], List.Pairwise.nil⟩

instance : Inhabited (Table κ α) := ⟨empty⟩

def get? (t : Table κ α) (k : κ) : Option α := Rows.lookup k t.rows

def size (t : Table κ α) : Nat := t.rows.length

def isEmpty (t : Table κ α) : Bool := t.rows.isEmpty

def erase (t : Table κ α) (k : κ) : Table κ α :=
  ⟨t.rows.filter fun row => compare k row.1 != .eq, t.sorted.filter _⟩

variable [Std.TransOrd κ] [Std.LawfulEqOrd κ]

def insert (t : Table κ α) (k : κ) (a : α) : Table κ α := ⟨Rows.insert k a t.rows, t.sorted.insert⟩

def ofList (rows : List (κ × α)) : Table κ α :=
  rows.foldl (fun t row => t.insert row.1 row.2) empty

/-- The row with the greatest key. -/
def last? (t : Table κ α) : Option (κ × α) := t.rows.getLast?

omit [Std.TransOrd κ] [Std.LawfulEqOrd κ] in
@[ext] theorem ext {t u : Table κ α} (h : t.rows = u.rows) : t = u := by
  cases t; cases u; cases h; rfl

omit [Std.TransOrd κ] [Std.LawfulEqOrd κ] in
@[simp] theorem get?_empty (k : κ) : (empty : Table κ α).get? k = none := rfl

theorem get?_insert [DecidableEq κ] (t : Table κ α) (k i : κ) (a : α) :
    (t.insert k a).get? i = if i = k then some a else t.get? i :=
  Rows.lookup_insert k i a t.rows

end Table

end Posterior
