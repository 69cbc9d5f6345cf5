import Mathlib.Tactic.Tauto
import Posterior.Proofs.Numbers

/-!
The equality of values. Every real stands for a class of reals, the zeros of both signs or all NaNs;
two values are equal when they are the same once each real in them, however deep, is replaced by the
representative of its class. So equality is an equivalence, and what a hasher is fed tells two values
apart exactly if they differ.
-/

namespace Posterior

namespace Value

/-- The representative of a real among those equal to it. -/
def canonicalReal (x : Float) : Float :=
  if x.isNaN then Numeric.nan else if x == 0 then 0 else x

mutual

/-- The value with its reals, at any depth, replaced. -/
def mapReals (f : Float → Float) : Value → Value
  | .unit => .unit
  | .bool b => .bool b
  | .int i => .int i
  | .real x => .real (f x)
  | .str s => .str s
  | .list items => .list (mapItemReals f items)

def mapItemReals (f : Float → Float) : List Value → List Value
  | [] => []
  | v :: vs => mapReals f v :: mapItemReals f vs

end

/-- The value with the representatives of its reals. -/
def canonical (v : Value) : Value := mapReals canonicalReal v

theorem realBits_eq (x : Float) : realBits x = (canonicalReal x).toBits := by
  unfold realBits canonicalReal
  split
  · rfl
  · split <;> rfl

theorem realBits_inj {x y : Float} : realBits x = realBits y ↔ canonicalReal x = canonicalReal y := by
  rw [realBits_eq, realBits_eq, Numeric.toBits_inj]

theorem beq_zero_of_isNaN {x : Float} (h : x.isNaN = true) : (x == 0) = false := by
  change x.toModel.unpack.beq _ = false
  rw [Numeric.isNaN_eq_true_iff.mp h]
  rfl

theorem isNaN_canonicalReal (x : Float) : (canonicalReal x).isNaN = x.isNaN := by
  unfold canonicalReal
  split
  · rename_i undefined
    rw [undefined]
    decide
  · rename_i number
    split
    · rw [Bool.eq_false_of_not_eq_true number]
      decide
    · rfl

theorem canonicalReal_beq_zero (x : Float) : (canonicalReal x == 0) = (x == 0) := by
  unfold canonicalReal
  split
  · rename_i undefined
    rw [beq_zero_of_isNaN undefined]
    decide
  · split
    · rename_i zero
      rw [zero]
      decide
    · rfl

/-- Two reals have one representative if both are NaN, both are zero or they are the same. -/
theorem canonicalReal_eq_iff {x y : Float} : canonicalReal x = canonicalReal y ↔
    (x.isNaN = true ∧ y.isNaN = true) ∨ ((x == 0) = true ∧ (y == 0) = true) ∨ x = y := by
  have other {z : Float} (number : ¬ z.isNaN = true) (nonzero : ¬ (z == 0) = true) :
      canonicalReal z = z := by
    rw [canonicalReal, if_neg number, if_neg nonzero]
  constructor
  · intro same
    have nans : x.isNaN = y.isNaN := by
      rw [← isNaN_canonicalReal, same, isNaN_canonicalReal]
    have zeros : (x == 0) = (y == 0) := by
      rw [← canonicalReal_beq_zero, same, canonicalReal_beq_zero]
    by_cases undefined : x.isNaN = true
    · exact .inl ⟨undefined, nans ▸ undefined⟩
    · by_cases zero : (x == 0) = true
      · exact .inr (.inl ⟨zero, zeros ▸ zero⟩)
      · rw [other undefined zero, other (nans ▸ undefined) (zeros ▸ zero)] at same
        exact .inr (.inr same)
  · rintro (⟨hx, hy⟩ | ⟨hx, hy⟩ | rfl)
    · rw [canonicalReal, canonicalReal, if_pos hx, if_pos hy]
    · have number {z : Float} (zero : (z == 0) = true) : ¬ z.isNaN = true := fun undefined => by
        rw [beq_zero_of_isNaN undefined] at zero
        cases zero
      rw [canonicalReal, canonicalReal, if_neg (number hx), if_neg (number hy), if_pos hx, if_pos hy]
    · rfl

mutual

/-- Values are equal when the representatives of their reals make them the same. -/
theorem same_iff : ∀ a b : Value, same a b = true ↔ a.mapReals canonicalReal = b.mapReals canonicalReal
  | .unit, b => by cases b <;> simp [same, mapReals]
  | .bool a, b => by cases b <;> simp [same, mapReals]
  | .int i, b => by cases b <;> simp [same, mapReals]
  | .real x, b => by cases b <;> simp [same, mapReals, realBits_inj]
  | .str s, b => by cases b <;> simp [same, mapReals]
  | .list as, b => by
    cases b with
    | list bs => simp [same, mapReals, sameItems_iff as bs]
    | _ => simp [same, mapReals]

theorem sameItems_iff : ∀ as bs : List Value, sameItems as bs = true ↔
    mapItemReals canonicalReal as = mapItemReals canonicalReal bs
  | [], bs => by cases bs <;> simp [sameItems, mapItemReals]
  | a :: as, bs => by
    cases bs with
    | nil => simp [sameItems, mapItemReals]
    | cons b bs => simp [sameItems, mapItemReals, same_iff a b, sameItems_iff as bs]

end

theorem beq_iff {a b : Value} : (a == b) = true ↔ a.canonical = b.canonical := same_iff a b

instance : EquivBEq Value where
  symm h := beq_iff.mpr (beq_iff.mp h).symm
  trans h h' := beq_iff.mpr ((beq_iff.mp h).trans (beq_iff.mp h'))
  rfl := beq_iff.mpr rfl

theorem word_inj {i j : Int64} : i.toUInt64 = j.toUInt64 ↔ i = j := by
  refine ⟨fun h => ?_, fun h => h ▸ rfl⟩
  cases i
  cases j
  cases h
  rfl

mutual

/-- What follows the writes of a value is not taken for a part of them. -/
theorem pieces_append_iff : ∀ (a b : Value) (rest rest' : List Piece),
    a.pieces ++ rest = b.pieces ++ rest' ↔ same a b = true ∧ rest = rest'
  | .unit, b, rest, rest' => by cases b <;> simp [pieces, same]
  | .bool a, b, rest, rest' => by cases b <;> simp [pieces, same]
  | .int i, b, rest, rest' => by cases b <;> simp [pieces, same, word_inj]
  | .real x, b, rest, rest' => by cases b <;> simp [pieces, same]
  | .str s, b, rest, rest' => by cases b <;> simp [pieces, same]
  | .list as, b, rest, rest' => by
    cases b with
    | list bs => simp [pieces, same, itemPieces_append_iff as bs]
    | _ => simp [pieces, same]

theorem itemPieces_append_iff : ∀ (as bs : List Value) (rest rest' : List Piece),
    as.length = bs.length ∧ itemPieces as ++ rest = itemPieces bs ++ rest' ↔
      sameItems as bs = true ∧ rest = rest'
  | [], bs, rest, rest' => by cases bs <;> simp [itemPieces, sameItems]
  | a :: as, bs, rest, rest' => by
    cases bs with
    | nil => simp [itemPieces, sameItems]
    | cons b bs =>
      have := itemPieces_append_iff as bs rest rest'
      simp [itemPieces, sameItems, pieces_append_iff a b]
      tauto

end

theorem pieces_eq_iff {a b : Value} : a.pieces = b.pieces ↔ (a == b) = true := by
  have ended := pieces_append_iff a b [] []
  simp only [List.append_nil, and_true] at ended
  exact ended

theorem real_ne_int (x : Float) (i : Int64) : (real x == int i) = false := rfl

/-- Values are fit to be keys. Equality is reflexive, symmetric and transitive. Two values are equal
exactly if they are the same up to the representatives of their reals at all depths, where both zeros
have one representative and all NaNs have one; a real never equals an integer. Whatever a hasher makes
of what is written to it, equal values write the same to it, and no others do. -/
theorem values_are_keys :
    (∀ a : Value, (a == a) = true) ∧
    (∀ a b : Value, (a == b) = true → (b == a) = true) ∧
    (∀ a b c : Value, (a == b) = true → (b == c) = true → (a == c) = true) ∧
    (∀ a b : Value, (a == b) = true ↔ a.canonical = b.canonical) ∧
    (∀ x y : Float, canonicalReal x = canonicalReal y ↔
      (x.isNaN = true ∧ y.isNaN = true) ∨ ((x == 0) = true ∧ (y == 0) = true) ∨ x = y) ∧
    (∀ (x : Float) (i : Int64), (real x == int i) = false) ∧
    ∀ a b : Value, a.pieces = b.pieces ↔ (a == b) = true :=
  ⟨fun _ => BEq.rfl, fun _ _ => BEq.symm, fun _ _ _ => BEq.trans, fun _ _ => beq_iff,
    fun _ _ => canonicalReal_eq_iff, real_ne_int, fun _ _ => pieces_eq_iff⟩

/-- A zero of either sign beside a NaN in an inner list. -/
def signedZero (zero : Float) : Value := .list [.real zero, .list [.real Numeric.nan, .int 0]]

/-- The sign of an inner zero makes no difference to equality, in either direction and by way of a
third value, nor to a hasher. -/
theorem signed_zeros_equal :
    (signedZero (-0.0) == signedZero 0) = true ∧ (signedZero 0 == signedZero (-0.0)) = true ∧
      (signedZero (-0.0) == signedZero (0.0 - 0.0)) = true ∧
      (signedZero (-0.0)).pieces = (signedZero 0).pieces :=
  have first : (signedZero (-0.0) == signedZero 0) = true := by decide
  have second : (signedZero 0 == signedZero (0.0 - 0.0)) = true := by decide
  ⟨first, values_are_keys.2.1 _ _ first, values_are_keys.2.2.1 _ _ _ first second,
    (values_are_keys.2.2.2.2.2.2 _ _).mpr first⟩

end Value

end Posterior
