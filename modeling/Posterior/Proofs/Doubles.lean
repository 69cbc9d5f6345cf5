import Posterior.Proofs.Outcomes

/-!
What is known of sums, differences and products of doubles. Products of doubles without a minus sign
carry none, so the number that a decision draws is never below zero and a chance of zero is no
chance; a sum that has come to negative infinity is never a score again, and one that has come to
an infinity never becomes finite again.
-/

namespace Posterior.Numeric

open Float.Model Float.Model.UnpackedFloat

/-- NaN apart, everything bears the sign, zeros included. -/
def Signed (s : Sign) : UnpackedFloat → Prop
  | .infinity sign => sign = s
  | .notANumber => True
  | .zero sign => sign = s
  | .finite sign _ _ _ => sign = s

/-- No minus sign, not even on a zero. -/
def Unsigned : UnpackedFloat → Prop
  | .infinity sign => sign = .positive
  | .notANumber => True
  | .zero sign => sign = .positive
  | .finite sign _ _ _ => sign = .positive

theorem unsigned_iff {x : UnpackedFloat} : Unsigned x ↔ Signed .positive x := by
  cases x <;> exact Iff.rfl

section
variable {s : Sign} {x : UnpackedFloat}

theorem signed_ite {p : Prop} [Decidable p] {x y : UnpackedFloat} (hx : Signed s x)
    (hy : Signed s y) : Signed s (if p then x else y) := by
  split
  · exact hx
  · exact hy

theorem signed_dite {p : Prop} [Decidable p] {x : p → UnpackedFloat} {y : ¬p → UnpackedFloat}
    (hx : ∀ h, Signed s (x h)) (hy : ∀ h, Signed s (y h)) : Signed s (dite p x y) := by
  split
  · exact hx _
  · exact hy _

theorem signed_round (format : Format) (s : Sign) (m : Nat) (e : Int) (a : Accuracy) :
    Signed s (roundWithAccuracy format s m e a) := by
  unfold roundWithAccuracy
  split
  extract_lets rounded
  split
  exact signed_dite (fun _ => rfl) fun _ => rfl

theorem unpackSign_packComponents (format : Format) (s : Sign)
    (exponent : BitVec format.exponentBits)
    (mantissa : BitVec format.mantissaBitsWithoutImplicit) :
    unpackSign (packComponents format s exponent mantissa) = s.toBitVec := by
  ext i
  obtain rfl : i = 0 := by omega
  delta unpackSign packComponents
  cases s <;> simp [BitVec.getLsbD_append, BitVec.getElem_append, Sign.toBitVec]

theorem ofBitVec_toBitVec (s : Sign) : Sign.ofBitVec s.toBitVec = s := by
  cases s <;> rfl

/-- The sign of a number is written as its sign bit. -/
theorem Signed.pack (format : Format) (h : Signed s x) :
    x = .notANumber ∨ ∃ exponent mantissa,
      UnpackedFloat.pack format x = packComponents format s exponent mantissa := by
  cases x with
  | infinity sign => exact .inr ⟨_, _, by rw [show sign = s from h]; rfl⟩
  | notANumber => exact .inl rfl
  | zero sign => exact .inr ⟨_, _, by rw [show sign = s from h]; rfl⟩
  | finite sign m e pos =>
    obtain rfl : sign = s := h
    right
    delta UnpackedFloat.pack
    dsimp only
    split
    · exact ⟨_, _, rfl⟩
    · split <;> exact ⟨_, _, rfl⟩

theorem signed_unpack {format : Format} {exponent : BitVec format.exponentBits}
    {mantissa : BitVec format.mantissaBitsWithoutImplicit} :
    Signed s (UnpackedFloat.unpack format (packComponents format s exponent mantissa)) := by
  delta UnpackedFloat.unpack
  dsimp only
  rw [unpackSign_packComponents, ofBitVec_toBitVec]
  exact signed_ite (signed_ite rfl trivial)
    (signed_ite (signed_dite (fun _ => rfl) fun _ => rfl) rfl)

/-- Storing a double does not change its sign. -/
theorem Signed.stored (h : Signed s x) : Signed s (Float.Model.pack x).unpack := by
  change Signed s (UnpackedFloat.unpack .binary64 (UnpackedFloat.pack .binary64 x))
  rcases h.pack .binary64 with rfl | ⟨exponent, mantissa, hp⟩
  · trivial
  · rw [hp]
    exact signed_unpack

end

theorem Unsigned.stored {x : UnpackedFloat} (h : Unsigned x) :
    Unsigned (Float.Model.pack x).unpack :=
  unsigned_iff.mpr (unsigned_iff.mp h).stored

theorem unsigned_ofNat (format : Format) (n : Nat) : Unsigned (UnpackedFloat.ofNat format n) := by
  unfold UnpackedFloat.ofNat UnpackedFloat.ofInt UnpackedFloat.normalize
  split
  · rename_i h
    rw [Int.compare_eq_lt] at h
    omega
  · rfl
  · exact unsigned_iff.mpr (signed_round ..)

theorem Unsigned.mul {format : Format} {x y : UnpackedFloat} (hx : Unsigned x) (hy : Unsigned y) :
    Unsigned (UnpackedFloat.mul format x y) := by
  cases x <;> cases hx <;> cases y <;> cases hy <;>
    first | trivial | rfl | exact unsigned_iff.mpr (signed_round ..)

theorem Unsigned.not_lt_zero {x : UnpackedFloat} (h : Unsigned x) (sign : Sign) :
    x.lt (.zero sign) = false := by
  cases x <;> cases h <;> rfl

theorem unpack_zero : (0 : Float).toModel.unpack = .zero .positive := by rfl

theorem not_lt_zero {x : Float} (h : Unsigned x.toModel.unpack) : ¬ x < 0 := by
  intro hl
  have hm : x.toModel.lt (0 : Float).toModel = true := of_decide_eq_true hl
  unfold Float.Model.lt at hm
  rw [unpack_zero, h.not_lt_zero] at hm
  cases hm

theorem unsigned_toFloat (n : UInt64) : Unsigned n.toFloat.toModel.unpack :=
  (unsigned_ofNat .binary64 n.toNat).stored

theorem unsigned_mul {x y : Float} (hx : Unsigned x.toModel.unpack)
    (hy : Unsigned y.toModel.unpack) : Unsigned (x * y).toModel.unpack :=
  (hx.mul hy).stored

/-- The distance of two neighbours among the numbers that a generator draws. -/
theorem unsigned_ulp : Unsigned (Float.ofBits 0x3CA0000000000000).toModel.unpack := by
  rfl

theorem unsigned_uniform (g : Rng) : Unsigned g.uniform.1.toModel.unpack :=
  unsigned_mul (unsigned_toFloat _) unsigned_ulp

theorem uniform_not_lt_zero (g : Rng) : ¬ g.uniform.1 < 0 :=
  not_lt_zero (unsigned_uniform g)

/-- A double is the number that its bits spell. -/
theorem toBits_inj {x y : Float} : x.toBits = y.toBits ↔ x = y := by
  refine ⟨fun h => ?_, fun h => h ▸ rfl⟩
  obtain ⟨⟨a, valid⟩⟩ := x
  obtain ⟨⟨b, valid'⟩⟩ := y
  cases h
  rfl

theorem isPossible_iff {x : Float} : isPossible x = true ↔ (x == negInf) = false := by
  simp [isPossible, bne]

/-- Negative infinity or NaN: no sum that has come to it becomes a score again. -/
def Lost (x : Float) : Prop :=
  x.toModel.unpack = .infinity .negative ∨ x.toModel.unpack = .notANumber

theorem unpack_of_negInf {x : Float} (h : (x == negInf) = true) :
    x.toModel.unpack = .infinity .negative := by
  change x.toModel.unpack.beq (.infinity .negative) = true at h
  rcases hu : x.toModel.unpack with ⟨_ | _⟩ | _ | _ | ⟨_ | _⟩ <;> rw [hu] at h <;>
    first | rfl | cases h

theorem lost_of_negInf {x : Float} (h : (x == negInf) = true) : Lost x := .inl (unpack_of_negInf h)

theorem Lost.score {x : Float} (h : Lost x) : (x == negInf) = true ∨ x.isNaN = true := by
  rcases h with h | h
  · left
    change x.toModel.unpack.beq (.infinity .negative) = true
    rw [h]
    rfl
  · right
    change x.toModel.unpack.isNaN = true
    rw [h]
    rfl

/-- The infinity of the sign, or NaN: an infinite number absorbs whatever is added to it. -/
def Infinite (s : Sign) (x : UnpackedFloat) : Prop := x = .infinity s ∨ x = .notANumber

section
variable {s : Sign} {x : UnpackedFloat} {format : Format}

theorem Infinite.stored (h : Infinite s x) : Infinite s (Float.Model.pack x).unpack := by
  rcases h with rfl | rfl
  · left
    cases s <;> rfl
  · exact .inr rfl

theorem infinite_ite {p : Prop} [Decidable p] :
    Infinite s (if p then .infinity s else .notANumber) := by
  split
  · exact .inl rfl
  · exact .inr rfl

theorem infinite_same (s t : Sign) : Infinite s (if t == s then .infinity t else .notANumber) := by
  cases s <;> cases t
  · exact .inl rfl
  · exact .inr rfl
  · exact .inr rfl
  · exact .inl rfl

theorem Infinite.add (h : Infinite s x) (y : UnpackedFloat) :
    Infinite s (UnpackedFloat.add format x y) := by
  rcases h with rfl | rfl
  · cases y with
    | infinity t => exact infinite_ite
    | notANumber => exact .inr rfl
    | _ => exact .inl rfl
  · cases y <;> exact .inr rfl

theorem Infinite.add_left (h : Infinite s x) (y : UnpackedFloat) :
    Infinite s (UnpackedFloat.add format y x) := by
  rcases h with rfl | rfl
  · cases y with
    | infinity t => exact infinite_same s t
    | notANumber => exact .inr rfl
    | _ => exact .inl rfl
  · cases y <;> exact .inr rfl

theorem Infinite.sub (h : Infinite s x) (y : UnpackedFloat) :
    Infinite s (UnpackedFloat.sub format x y) := by
  rcases h with rfl | rfl
  · cases y with
    | infinity t => exact infinite_ite
    | notANumber => exact .inr rfl
    | _ => exact .inl rfl
  · cases y <;> exact .inr rfl

theorem Infinite.sub_left (h : Infinite s x) (y : UnpackedFloat) :
    Infinite (-s) (UnpackedFloat.sub format y x) := by
  rcases h with rfl | rfl
  · cases y with
    | infinity t => exact infinite_same (-s) t
    | notANumber => exact .inr rfl
    | _ => exact .inl rfl
  · cases y <;> exact .inr rfl

end

theorem Lost.add {x : Float} (h : Lost x) (y : Float) : Lost (x + y) :=
  (Infinite.add h y.toModel.unpack).stored

theorem Lost.add_left {y : Float} (h : Lost y) (x : Float) : Lost (x + y) :=
  (Infinite.add_left h x.toModel.unpack).stored

theorem Lost.sub {x : Float} (h : Lost x) (y : Float) : Lost (x - y) :=
  (Infinite.sub h y.toModel.unpack).stored

/-- Nothing is left of a number once positive infinity is taken off it. -/
theorem lost_sub {y : Float} (h : Infinite .positive y.toModel.unpack) (x : Float) : Lost (x - y) :=
  (Infinite.sub_left h x.toModel.unpack).stored

theorem exp_lost {x : Float} (h : Lost x) : exp x = nan ∨ exp x = 0 := by
  unfold exp
  cases hn : x.isNaN with
  | true => exact .inl (if_pos rfl)
  | false =>
    have hz : (x == negInf) = true := h.score.resolve_right (by
      rw [hn]
      exact Bool.false_ne_true)
    rw [hz]
    exact .inr rfl

theorem unpack_of_posInf {x : Float} (h : (x == posInf) = true) :
    x.toModel.unpack = .infinity .positive := by
  change x.toModel.unpack.beq (.infinity .positive) = true at h
  rcases hu : x.toModel.unpack with ⟨_ | _⟩ | _ | _ | ⟨_ | _⟩ <;> rw [hu] at h <;>
    first | rfl | cases h

theorem beq_negInf_eq_false {x : Float} (h : Infinite .positive x.toModel.unpack) :
    (x == negInf) = false := by
  change x.toModel.unpack.beq (.infinity .negative) = false
  rcases h with h | h <;> rw [h] <;> rfl

theorem sub_self {x : Float} (h : x.isFinite = true) : x - x = 0 := by
  have hz : UnpackedFloat.sub .binary64 x.toModel.unpack x.toModel.unpack = .zero .positive := by
    change x.toModel.unpack.isFinite = true at h
    cases hu : x.toModel.unpack with
    | infinity s =>
      rw [hu] at h
      cases h
    | notANumber =>
      rw [hu] at h
      cases h
    | zero s => cases s <;> rfl
    | finite s m e pos =>
      change UnpackedFloat.normalize .binary64 (_ - _) _ .positive = _
      rw [Int.sub_self]
      rfl
  change Float.ofModel (Float.Model.pack (UnpackedFloat.sub .binary64 x.toModel.unpack
    x.toModel.unpack)) = 0
  rw [hz]
  rfl

theorem exp_zero : exp 0 = 1 := by
  rfl

end Posterior.Numeric
