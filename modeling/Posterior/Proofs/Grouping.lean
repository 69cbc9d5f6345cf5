import Posterior.Proofs.SampleAccounts
import Posterior.Proofs.Sameness

/-!
How a histogram groups what it is given. It has one bucket for each class of equal values, in the
order in which the classes were first met; a bucket keeps the first value of its class and the sum of
all masses of the class. A distribution made of it tells the share of each class and of nothing else.
-/

namespace Posterior

section
variable {α : Type} [BEq α] {a b : α} {as : List α}

/-- Induction along the classes of a list: the first element goes with all that are equal to it. -/
theorem eraseDups_induction {P : List α → Prop} (nil : P [])
    (cons : ∀ a as, P (as.filter fun b => !b == a) → P (a :: as)) : ∀ as, P as
  | [] => nil
  | a :: as => cons a as (eraseDups_induction nil cons _)
termination_by as => as.length
decreasing_by exact Nat.lt_succ_of_le (List.length_filter_le _ _)

theorem eraseDups_sublist (as : List α) : as.eraseDups.Sublist as := by
  induction as using eraseDups_induction with
  | nil => exact .slnil
  | cons a as ih =>
    rw [List.eraseDups_cons]
    exact (ih.trans List.filter_sublist).cons_cons a

variable [EquivBEq α]

theorem beq_eq_false_comm (h : (a == b) = false) : (b == a) = false := by
  rw [BEq.comm]
  exact h

/-- No two of the elements that are kept are equal. -/
theorem pairwise_eraseDups (as : List α) :
    as.eraseDups.Pairwise fun a b => (a == b) = false := by
  induction as using eraseDups_induction with
  | nil => exact .nil
  | cons a as ih =>
    rw [List.eraseDups_cons]
    refine .cons (fun b hb => ?_) ih
    have kept := (List.mem_filter.mp ((eraseDups_sublist _).mem hb)).2
    exact beq_eq_false_comm (Bool.not_eq_true' _ ▸ kept)

/-- What is equal to an element of one class is in no other. -/
theorem other_class (other : (b == a) = false) (c : α) : (!c == a && c == b) = (c == b) := by
  cases h : c == b with
  | false => exact Bool.and_false _
  | true =>
    rw [BEq.congr_left h, other]
    rfl

/-- An element that is kept is the first of its class. -/
theorem find?_of_mem_eraseDups (h : b ∈ as.eraseDups) : as.find? (· == b) = some b := by
  induction as using eraseDups_induction with
  | nil => cases h
  | cons a as ih =>
    rw [List.eraseDups_cons, List.mem_cons] at h
    rcases h with rfl | h
    · exact List.find?_cons_of_pos BEq.rfl
    · have kept := (List.mem_filter.mp ((eraseDups_sublist _).mem h)).2
      rw [Bool.not_eq_true'] at kept
      have first := ih h
      simp only [List.find?_filter, Bool.decide_and, Bool.decide_eq_true, other_class kept] at first
      rw [List.find?_cons_of_neg (by simp [beq_eq_false_comm kept]), first]

theorem any_eraseDups (b : α) (as : List α) : as.eraseDups.any (· == b) = as.any (· == b) := by
  induction as using eraseDups_induction with
  | nil => rfl
  | cons a as ih =>
    rw [List.eraseDups_cons, List.any_cons, List.any_cons, ih, List.any_filter]
    cases h : a == b with
    | true => rfl
    | false => simp only [other_class (beq_eq_false_comm h)]

end

namespace Histogram

section
variable {value : Value} {rows : List (Value × Float)}

/-- The masses of the values equal to one, added up in order. -/
def massOf (rows : List (Value × Float)) (value : Value) : Float :=
  ((rows.filter (·.1 == value)).map (·.2)).foldl (· + ·) 0

theorem massOf_congr {v : Value} (h : (v == value) = true) : massOf rows v = massOf rows value := by
  have same : (fun row : Value × Float => row.1 == v) = fun row => row.1 == value :=
    funext fun _ => BEq.congr_right h
  rw [massOf, massOf, same]

theorem massOf_unseen (h : rows.any (·.1 == value) = false) : massOf rows value = 0 := by
  rw [massOf, List.filter_eq_nil_iff.mpr fun row hrow => by simpa using List.any_eq_false.mp h row hrow]
  rfl

/-- The rows of other classes leave a mass as it is. -/
theorem massOf_filter {v : Value} (other : (value == v) = false) :
    massOf (rows.filter fun row => !row.1 == v) value = massOf rows value := by
  rw [massOf, massOf, List.filter_filter]
  congr 3
  funext row
  rw [Bool.and_comm]
  exact other_class other row.1

/-- Of what is added to a bucket and others its own class goes to it, the rest past it. -/
theorem foldl_addMass (v : Value) (m : Float) (others rows : List (Value × Float)) :
    rows.foldl (fun buckets row => addMass row.1 row.2 buckets) ((v, m) :: others) =
      (v, ((rows.filter (·.1 == v)).map (·.2)).foldl (· + ·) m) ::
        (rows.filter fun row => !row.1 == v).foldl (fun buckets row => addMass row.1 row.2 buckets)
          others := by
  induction rows generalizing m others with
  | nil => rfl
  | cons row rows ih =>
    rw [List.foldl_cons, addMass, BEq.comm]
    cases h : row.1 == v with
    | true => simp [h, ih]
    | false => simp [h, ih]

theorem buckets_foldl (h : Histogram) (rows : List (Value × Float)) :
    (rows.foldl (fun h row => h.add row.1 row.2) h).buckets =
      rows.foldl (fun buckets row => addMass row.1 row.2 buckets) h.buckets := by
  induction rows generalizing h with
  | nil => rfl
  | cons row rows ih => exact ih _

theorem massOf_cons_self (v : Value) (m : Float) (rows : List (Value × Float)) :
    massOf ((v, m) :: rows) v = ((rows.filter (·.1 == v)).map (·.2)).foldl (· + ·) (0 + m) := by
  have first : ((v, m) :: rows).filter (·.1 == v) = (v, m) :: rows.filter (·.1 == v) :=
    List.filter_cons_of_pos BEq.rfl
  rw [massOf, first]
  rfl

theorem massOf_cons_other {v : Value} (other : (value == v) = false) (m : Float)
    (rows : List (Value × Float)) :
    massOf ((v, m) :: rows) value = massOf (rows.filter fun row => !row.1 == v) value := by
  have others : ((v, m) :: rows).filter (·.1 == value) = rows.filter (·.1 == value) :=
    List.filter_cons_of_neg (by simp [beq_eq_false_comm other])
  rw [massOf_filter other, massOf, massOf, others]

/-- The buckets of a histogram are the classes of its rows with their masses. -/
theorem buckets_gather (rows : List (Value × Float)) :
    (gather rows).buckets = (rows.map (·.1)).eraseDups.map fun v => (v, massOf rows v) := by
  match rows with
  | [] => rfl
  | (v, m) :: rows =>
    have others := buckets_gather (rows.filter fun row => !row.1 == v)
    have values : (rows.filter fun row => !row.1 == v).map (·.1) =
        (rows.map (·.1)).filter fun u => !u == v := by
      rw [List.filter_map]
      rfl
    rw [gather, buckets_foldl, values] at others
    have opened : (Histogram.empty.add v m).buckets = [(v, 0 + m)] := rfl
    rw [gather, List.foldl_cons, buckets_foldl, opened, foldl_addMass, ← massOf_cons_self,
      List.map_cons, List.eraseDups_cons, List.map_cons]
    refine congrArg _ (others.trans (List.map_congr_left fun u hu => ?_))
    have kept := (List.mem_filter.mp ((eraseDups_sublist _).mem hu)).2
    rw [Bool.not_eq_true'] at kept
    rw [massOf_cons_other kept]
termination_by rows.length
decreasing_by exact Nat.lt_succ_of_le (List.length_filter_le _ _)

/-- What is looked up among the classes is what belongs to the class of the value. -/
theorem find?_classes {β : Type} (f : Value → β) (values : List Value) (value : Value) :
    (values.eraseDups.map fun v => (v, f v)).find? (·.1 == value) =
      (values.eraseDups.find? (· == value)).map fun v => (v, f v) :=
  List.find?_map ..

/-- A number that is the same for equal values is found in the row of the class. -/
theorem lookup_classes {f : Value → Float} (congr : ∀ {u v : Value}, (u == v) = true → f u = f v)
    (values : List Value) (value : Value) :
    lookup value (values.eraseDups.map fun v => (v, f v)) =
      if values.any (· == value) then f value else 0 := by
  rw [lookup, find?_classes, ← any_eraseDups]
  cases found : values.eraseDups.find? (· == value) with
  | none =>
    rw [List.any_eq_false.mpr (List.find?_eq_none.mp found)]
    rfl
  | some v =>
    have same : (v == value) = true := by simpa using List.find?_some found
    rw [List.any_eq_true.mpr ⟨v, List.mem_of_find?_eq_some found, same⟩]
    exact congr same

theorem mass_gather (rows : List (Value × Float)) (value : Value) :
    (gather rows).mass value = massOf rows value := by
  rw [mass, buckets_gather, lookup_classes massOf_congr, List.any_map]
  split
  · rfl
  · rename_i unseen
    exact (massOf_unseen (Bool.eq_false_of_not_eq_true unseen)).symm

end

/-- A call by which a histogram grows. -/
inductive Addition where
  | add (value : Value) (mass : Float)
  | observe (value : Value)

/-- The value that is added, and its mass. -/
def Addition.row : Addition → Value × Float
  | add value mass => (value, mass)
  | observe value => (value, 1)

def Addition.value (a : Addition) : Value := a.row.1

def put (h : Histogram) : Addition → Histogram
  | .add value mass => h.add value mass
  | .observe value => h.observe value

/-- The histogram after calls on an empty one. -/
def after (calls : List Addition) : Histogram := calls.foldl put .empty

theorem after_eq_gather (calls : List Addition) : after calls = gather (calls.map Addition.row) := by
  have same : put = fun h c => h.add c.row.1 c.row.2 := by
    funext h c
    cases c <;> rfl
  rw [after, gather, List.foldl_map, same]

theorem buckets_after (calls : List Addition) : (after calls).buckets =
    (calls.map Addition.value).eraseDups.map fun v => (v, massOf (calls.map Addition.row) v) := by
  rw [after_eq_gather, buckets_gather, List.map_map]
  rfl

theorem keys_after (calls : List Addition) :
    (after calls).buckets.map (·.1) = (calls.map Addition.value).eraseDups := by
  rw [buckets_after, List.map_map]
  exact List.map_id _

end Histogram

namespace Empirical

variable {h : Histogram} {d : Empirical}

/-- There is no mass without buckets. -/
theorem buckets_ne_nil (pos : 0 < h.total) : h.buckets ≠ [] := by
  intro none
  rw [Histogram.total, none] at pos
  exact absurd pos (by decide)

/-- A mass can be shared out exactly if it is finite and above zero. -/
theorem canNormalize_iff : canNormalize h = true ↔ 0 < h.total ∧ h.total.isFinite = true := by
  simp only [canNormalize, Bool.and_eq_true, Bool.not_eq_true', decide_eq_true_eq, and_assoc]
  refine and_iff_right_of_imp fun normal => ?_
  rw [← Bool.not_eq_true, List.isEmpty_iff]
  exact buckets_ne_nil normal.1

theorem ofHistogram_eq_ok : ofHistogram h = .ok d ↔ (0 < h.total ∧ h.total.isFinite = true) ∧
    d = ⟨h.buckets.map fun b => (b.1, b.2 / h.total), 0, none, h.observations⟩ := by
  rw [ofHistogram, ← canNormalize_iff]
  split
  · rename_i normal
    simp [normal, eq_comm]
  · rename_i faulty
    simp [faulty]

open Histogram in
/-- The probability of a value is the share of its class. -/
theorem probability_after {calls : List Addition} (made : ofHistogram (after calls) = .ok d)
    (value : Value) : d.probability value = if calls.any (·.value == value) then
      massOf (calls.map Addition.row) value / (after calls).total else 0 := by
  obtain ⟨_, rfl⟩ := ofHistogram_eq_ok.mp made
  rw [probability, buckets_after, List.map_map]
  refine (lookup_classes (fun same => ?_) _ value).trans ?_
  · exact congrArg (· / _) (massOf_congr same)
  · rw [List.any_map]
    rfl

end Empirical

open Histogram in
/-- What is made of calls on an empty histogram. Its buckets are the classes of equal values in the
order in which they were first seen. No two of them are equal, each is the first value that was added
of its class, and the mass of any value is the sum, from zero and in order, of the masses added for
values equal to it. It has as many observations as there were calls. It can be normalised exactly if
its total is finite and above zero. Then the distribution has the same values in the same order, each
with its share of the total; this is what is looked up and scored, and a value that equals none that
was added has probability zero and is impossible. -/
theorem histogram_groups (calls : List Addition) :
    (after calls).buckets =
      ((calls.map Addition.value).eraseDups.map fun v => (v, massOf (calls.map Addition.row) v)) ∧
    ((after calls).buckets.map (·.1)).Pairwise (fun u v => (u == v) = false) ∧
    (∀ b ∈ (after calls).buckets, (calls.map Addition.value).find? (· == b.1) = some b.1) ∧
    (∀ value, (after calls).mass value = massOf (calls.map Addition.row) value) ∧
    (after calls).observations = calls.length ∧
    ((∃ d, Empirical.ofHistogram (after calls) = .ok d) ↔
      0 < (after calls).total ∧ (after calls).total.isFinite = true) ∧
    ∀ d, Empirical.ofHistogram (after calls) = .ok d →
      d.support = ((after calls).buckets.map fun b => (b.1, b.2 / (after calls).total)) ∧
      ∀ value params,
        d.probability value = (if calls.any (·.value == value) then
          massOf (calls.map Addition.row) value / (after calls).total else 0) ∧
        d.distribution.score params value = .ok (Numeric.ln (d.probability value)) ∧
        (calls.any (·.value == value) = false → d.probability value = 0 ∧
          d.distribution.score params value = .ok Numeric.negInf) := by
  refine ⟨buckets_after calls, keys_after calls ▸ pairwise_eraseDups _, fun b hb => ?_,
    fun value => ?_, ?_, ?_, fun d made => ⟨?_, fun value params => ?_⟩⟩
  · exact find?_of_mem_eraseDups (keys_after calls ▸ List.mem_map_of_mem hb)
  · rw [after_eq_gather, mass_gather]
  · rw [after_eq_gather, observations_gather, List.length_map]
  · simp only [Empirical.ofHistogram_eq_ok, exists_and_left, exists_eq, and_true]
  · obtain ⟨_, rfl⟩ := Empirical.ofHistogram_eq_ok.mp made
    rfl
  · have share := Empirical.probability_after made value
    refine ⟨share, rfl, fun unseen => ?_⟩
    rw [unseen, if_neg Bool.false_ne_true] at share
    refine ⟨share, ?_⟩
    change Except.ok (Numeric.ln _) = _
    rw [share]
    rfl

/-- A zero, a list with a NaN, the other zero, and the list again. -/
def zerosApart : List Histogram.Addition :=
  [.observe (.real (-0.0)), .add (.list [.real Numeric.nan]) 0.5, .add (.real 0) 1,
    .add (.list [.real Numeric.nan]) 1.5]

/-- The zeros make one class and so do the lists, each of them half of the mass; an integer zero is in
neither. -/
theorem zeros_grouped :
    (Histogram.after zerosApart).buckets.map (·.1) = [.real (-0.0), .list [.real Numeric.nan]] ∧
    ∃ d, Empirical.ofHistogram (Histogram.after zerosApart) = .ok d ∧
      d.probability (.real 0) = 0.5 ∧ d.probability (.list [.real Numeric.nan]) = 0.5 ∧
      d.distribution.score [] (.int 0) = .ok Numeric.negInf := by
  obtain ⟨_, _, _, _, _, normal, made⟩ := histogram_groups zerosApart
  obtain ⟨d, hd⟩ := normal.mpr (by decide +kernel)
  obtain ⟨_, told⟩ := made d hd
  refine ⟨rfl, d, hd, (told _ []).1.trans ?_, (told _ []).1.trans ?_, ((told _ []).2.2 rfl).2⟩
  · decide +kernel
  · decide +kernel

end Posterior
