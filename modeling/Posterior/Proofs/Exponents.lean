import Posterior.Proofs.SignedUnits

/-!
Magnitudes of doubles by powers of two. A product, a quotient or a root of numbers below powers of
two is below the power that the exponents make, but for the one digit that rounding may add; so the
logarithm, the cosine and what is made of them in a few steps stay small.
-/

namespace Posterior.Numeric

open Float.Model Float.Model.UnpackedFloat

/-- Zero, or finite and less than `2 ^ k` away from it. -/
def Under (k : Int) : UnpackedFloat → Prop
  | .zero _ => True
  | .finite _ m e _ => (m.log2 : Int) + e < k
  | _ => False

instance (k : Int) : (x : UnpackedFloat) → Decidable (Under k x)
  | .zero _ => isTrue trivial
  | .finite _ m e _ => inferInstanceAs (Decidable ((m.log2 : Int) + e < k))
  | .infinity _ => isFalse id
  | .notANumber => isFalse id

section
variable {s t : Sign} {m n : Nat} {e f j k : Int} {x y : UnpackedFloat}

theorem Under.mono (h : Under j x) (more : j ≤ k) : Under k x := by
  cases x with
  | finite s m e pos => exact Int.lt_of_lt_of_le h more
  | zero s => trivial
  | _ => exact h.elim

theorem Under.isFinite (h : Under k x) : x.isFinite = true := by
  cases x with
  | infinity s => exact h.elim
  | notANumber => exact h.elim
  | _ => rfl

theorem under_zero (s : Sign) : Under k (Float.Model.pack (.zero s)).unpack := by
  cases s <;> trivial

theorem mantissa_shift (a : Accuracy) (k : Nat) :
    (ExtendedMantissa.ofMantissaAndAccuracy m a >>> k).mantissa = m / 2 ^ k := by
  induction k with
  | zero =>
    rw [Nat.pow_zero, Nat.div_one]
    rcases a with _ | _ | _ | _ <;> rfl
  | succ k ih =>
    change (ExtendedMantissa.ofMantissaAndAccuracy m a >>> k).mantissa / 2 = _
    rw [ih, Nat.div_div_eq_div_mul, Nat.pow_succ]

theorem roundedMantissa_le (em : ExtendedMantissa) : em.roundedMantissa ≤ em.mantissa + 1 := by
  unfold ExtendedMantissa.roundedMantissa Accuracy.roundToNearestEven
  split <;> omega

/-- Rounding up does not add more than one digit. -/
theorem log2_succ_le (m : Nat) : (m + 1).log2 ≤ m.log2 + 1 := by
  refine Nat.le_of_lt_succ ((Nat.log2_lt m.succ_ne_zero).mpr ?_)
  have : m < 2 ^ (m.log2 + 1) := Nat.lt_log2_self
  rw [Nat.pow_succ]
  omega

/-- Cutting digits off takes as many from the length of a number, as far as it has them. -/
theorem log2_div_add_le {k : Nat} (h : 0 < m / 2 ^ k) : (m / 2 ^ k).log2 + k ≤ m.log2 := by
  have pos : 0 < m := Nat.pos_of_div_pos h
  refine (Nat.le_log2 pos.ne').mpr ?_
  rw [Nat.pow_add]
  exact (Nat.mul_le_mul_right _ (Nat.log2_self_le h.ne')).trans (Nat.div_mul_le_self ..)

theorem le_roundedMantissa (em : ExtendedMantissa) : em.mantissa ≤ em.roundedMantissa := by
  unfold ExtendedMantissa.roundedMantissa Accuracy.roundToNearestEven
  split <;> omega

theorem target_eq_max (m : Nat) (e : Int) :
    Format.binary64.targetExponent (totalExponent m e) = max ((m.log2 : Int) + e - 52) (-1074) := by
  change max ((m.log2 : Int) + 1 + e - 53) (-1074) = _
  omega

/-- A significand with enough digits is rounded to a double in its form, whose exponent is no greater
than before by more than one; what is rounded to zero is less than any double. -/
theorem roundWithAccuracy_cases (a : Accuracy) (s : Sign)
    (digits : e ≤ Format.binary64.targetExponent (totalExponent m e)) :
    (roundWithAccuracy .binary64 s m e a = .zero s ∧ (m = 0 ∨ (m.log2 : Int) + e < -1074)) ∨
    ∃ n f pos, roundWithAccuracy .binary64 s m e a = .finite s n f pos ∧
      Canonical (.finite s n f pos) ∧ (n.log2 : Int) + f ≤ max ((m.log2 : Int) + e + 1) (-1074) := by
  obtain ⟨k, hk⟩ : ∃ k, (Format.binary64.targetExponent (totalExponent m e) - e).toNat = k := ⟨_, rfl⟩
  have first : shiftToTargetExponent .binary64 m e a =
      (ExtendedMantissa.ofMantissaAndAccuracy m a >>> k, e + k) := by
    simp only [shiftToTargetExponent, shiftToExponent, hk]
  have least := le_roundedMantissa (ExtendedMantissa.ofMantissaAndAccuracy m a >>> k)
  have most := roundedMantissa_le (ExtendedMantissa.ofMantissaAndAccuracy m a >>> k)
  rw [mantissa_shift] at least most
  generalize hn : (ExtendedMantissa.ofMantissaAndAccuracy m a >>> k).roundedMantissa = n at least most
  rw [target_eq_max] at digits hk
  have low : -1074 ≤ e + k := by omega
  have short : m / 2 ^ k < 2 ^ 53 := by
    rw [Nat.div_lt_iff_lt_mul (Nat.two_pow_pos k), ← Nat.pow_add]
    exact Nat.lt_log2_self.trans_le (Nat.pow_le_pow_right (by omega) (by omega))
  have cut : m / 2 ^ k = 0 → m = 0 ∨ (m.log2 : Int) + e < -1074 := by
    intro none
    rcases Nat.eq_zero_or_pos m with zero | pos
    · exact .inl zero
    · have := (Nat.log2_lt pos.ne').mpr ((Nat.div_eq_zero_iff_lt (Nat.two_pow_pos k)).mp none)
      omega
  have size : (n.log2 : Int) + (e + k) ≤ max ((m.log2 : Int) + e + 1) (-1074) := by
    have grown := (log2_mono most).trans (log2_succ_le _)
    rcases Nat.eq_zero_or_pos (m / 2 ^ k) with none | some
    · rw [none] at most
      have one := log2_mono most
      have zero : (0 + 1).log2 = 0 := rfl
      rcases cut none with rfl | small
      · have zero : (0 : Nat).log2 = 0 := rfl
        omega
      · omega
    · have := log2_div_add_le some
      omega
  rcases Nat.eq_zero_or_pos n with rfl | pos
  · refine .inl ⟨?_, cut (Nat.le_zero.mp least)⟩
    unfold roundWithAccuracy
    rw [first]
    dsimp only
    rw [hn, dif_pos]
    exact (mantissa_shift .exact _).trans (Nat.zero_div _)
  refine .inr ?_
  rcases Nat.lt_or_ge n (2 ^ 53) with fits | carried
  · have normal : e + k = -1074 ∨ 2 ^ 52 ≤ n := by
      rw [or_iff_not_imp_left]
      intro above
      have hm : m ≠ 0 := by
        rintro rfl
        have zero : (0 : Nat).log2 = 0 := rfl
        omega
      refine least.trans' ((Nat.le_div_iff_mul_le (Nat.two_pow_pos k)).mpr ?_)
      rw [← Nat.pow_add]
      exact (Nat.pow_le_pow_right (by omega) (by omega)).trans (Nat.log2_self_le hm)
    exact ⟨n, e + k, pos, roundWithAccuracy_eq (first ▸ hn) (first ▸ rfl)
      (shift_canonical pos low fits) pos, ⟨fits, low, normal⟩, size⟩
  · obtain rfl : n = 2 ^ 53 := by omega
    have digit : (2 ^ 53 : Nat).log2 = 53 ∧ (2 ^ 52 : Nat).log2 = 52 :=
      ⟨Nat.log2_two_pow, Nat.log2_two_pow⟩
    refine ⟨2 ^ 52, e + k + 1, by decide, roundWithAccuracy_eq (first ▸ hn) (first ▸ rfl)
      (shift_overflow low) (by decide), ⟨by decide, by omega, .inr (by decide)⟩, ?_⟩
    omega

/-- What is rounded to a double is stored, or too large to be. -/
theorem under_roundWithAccuracy (a : Accuracy) (s : Sign)
    (digits : e ≤ Format.binary64.targetExponent (totalExponent m e)) (size : (m.log2 : Int) + e < k)
    (low : -1074 ≤ k) :
    Under (k + 1) (Float.Model.pack (roundWithAccuracy .binary64 s m e a)).unpack ∨
      1023 ≤ k ∧ (Float.Model.pack (roundWithAccuracy .binary64 s m e a)).unpack = .infinity s := by
  rcases roundWithAccuracy_cases a s digits with ⟨zero, _⟩ | ⟨n, f, pos, finite, canonical, exponent⟩
  · rw [zero]
    exact .inl (under_zero s)
  rw [finite]
  have counts : Counts s (units n f) (.finite s n f pos) := ⟨n, f, pos, rfl, canonical, rfl⟩
  rcases counts.stored_or_infinite with stored | infinite
  · left
    rw [stored]
    change (n.log2 : Int) + f < k + 1
    omega
  · refine .inr ⟨Int.not_lt.mp fun small => ?_, infinite⟩
    have fits : f ≤ 971 := by
      obtain ⟨_, _, least | normal⟩ := canonical
      · omega
      · have : 52 ≤ n.log2 := (Nat.le_log2 pos.ne').mpr normal
        omega
    rw [stored_of_canonical canonical fits] at infinite
    cases infinite

/-- The product of two significands has enough digits. -/
theorem digits_mul {a b : Nat} {d : Int} {pa : 0 < a} {pb : 0 < b}
    (hx : Canonical (.finite s a d pa)) (hy : Canonical (.finite t b e pb)) :
    d + e ≤ Format.binary64.targetExponent (totalExponent (a * b) (d + e)) := by
  rw [target_eq_max]
  have long (h : 2 ^ 52 ≤ a * b) : 52 ≤ (a * b).log2 := (Nat.le_log2 (Nat.mul_pos pa pb).ne').mpr h
  obtain ⟨_, _, least | normal⟩ := hx
  · obtain ⟨_, _, least' | normal⟩ := hy
    · omega
    · have := long (normal.trans (Nat.le_mul_of_pos_left b pa))
      omega
  · have := long (normal.trans (Nat.le_mul_of_pos_right a pb))
    omega

theorem log2_mul_le {a b : Nat} (pa : 0 < a) (pb : 0 < b) : (a * b).log2 ≤ a.log2 + b.log2 + 1 := by
  refine Nat.le_of_lt_succ ((Nat.log2_lt (Nat.mul_pos pa pb).ne').mpr ?_)
  calc a * b < 2 ^ (a.log2 + 1) * 2 ^ (b.log2 + 1) := Nat.mul_lt_mul'' Nat.lt_log2_self Nat.lt_log2_self
    _ = 2 ^ (a.log2 + b.log2 + 1).succ := by
      rw [Nat.succ_eq_add_one]
      ring

/-- The quotient of two significands has enough digits, and begins where the exponents say or one
place later. -/
theorem divCore_cases {a b : Nat} {d : Int} (pa : 0 < a) (pb : 0 < b) :
    ∃ q f accuracy, divCore .binary64 a d b e = (q, f, accuracy) ∧
      f ≤ Format.binary64.targetExponent (totalExponent q f) ∧
      (q.log2 : Int) + f ≤ max ((a.log2 : Int) + d - (b.log2 + e)) (-1074) ∧
      (-1021 ≤ (a.log2 : Int) + d - (b.log2 + e) →
        0 < q ∧ (a.log2 : Int) + d - (b.log2 + e) - 1 ≤ q.log2 + f) := by
  obtain ⟨f, hf⟩ : ∃ f, min (d - e) (Format.binary64.targetExponent
      (totalExponent a d - totalExponent b e)) = f := ⟨_, rfl⟩
  obtain ⟨r, hr⟩ : ∃ r, (d - e - f).toNat = r := ⟨_, rfl⟩
  obtain ⟨q, hq⟩ : ∃ q, a <<< r / b = q := ⟨_, rfl⟩
  have core : divCore .binary64 a d b e = (q, f, accuracyOfFraction (a <<< r % b) b) := by
    unfold divCore
    dsimp only
    rw [hf, hr, hq]
  change min (d - e) (max ((a.log2 : Int) + 1 + d - (b.log2 + 1 + e) - 53) (-1074)) = f at hf
  rw [Nat.shiftLeft_eq] at hq
  have shifted : (a * 2 ^ r).log2 = a.log2 + r := by
    refine log2_eq ?_ ?_
    · rw [Nat.pow_add]
      exact Nat.mul_le_mul_right _ (Nat.log2_self_le pa.ne')
    · rw [Nat.add_right_comm, Nat.pow_add]
      exact Nat.mul_lt_mul_of_pos_right Nat.lt_log2_self (Nat.two_pow_pos r)
  have most (some : 0 < q) : q.log2 + b.log2 ≤ a.log2 + r := by
    rw [← shifted]
    refine (Nat.le_log2 (Nat.mul_pos pa (Nat.two_pow_pos r)).ne').mpr ?_
    rw [Nat.pow_add]
    refine (Nat.mul_le_mul (Nat.log2_self_le some.ne') (Nat.log2_self_le pb.ne')).trans ?_
    rw [← hq]
    exact Nat.div_mul_le_self ..
  have least {k : Nat} (h : k + b.log2 + 1 ≤ a.log2 + r) : 2 ^ k ≤ q := by
    rw [← hq, Nat.le_div_iff_mul_le pb]
    calc 2 ^ k * b ≤ 2 ^ k * 2 ^ (b.log2 + 1) := Nat.mul_le_mul_left _ Nat.lt_log2_self.le
      _ = 2 ^ (k + b.log2 + 1) := by rw [← Nat.pow_add, Nat.add_assoc]
      _ ≤ 2 ^ (a.log2 + r) := Nat.pow_le_pow_right Nat.two_pos h
      _ ≤ a * 2 ^ r := by
        rw [← shifted]
        exact Nat.log2_self_le (Nat.mul_pos pa (Nat.two_pow_pos r)).ne'
  refine ⟨q, f, _, core, ?_, ?_, fun large => ?_⟩
  · rw [target_eq_max]
    by_cases deep : f ≤ -1074
    · omega
    · have long := least (k := 52) (by omega)
      have := (Nat.le_log2 (Nat.two_pow_pos _ |>.trans_le long).ne').mpr long
      omega
  · rcases Nat.eq_zero_or_pos q with none | some
    · have zero : (0 : Nat).log2 = 0 := rfl
      rw [none]
      omega
    · have := most some
      omega
  · obtain ⟨k, hk⟩ : ∃ k : Nat, (k : Int) = a.log2 + r - b.log2 - 1 :=
      ⟨(a.log2 + r - b.log2 - 1 : Int).toNat, by omega⟩
    have long := least (k := k) (by omega)
    have some := (Nat.two_pow_pos k).trans_le long
    have := (Nat.le_log2 some.ne').mpr long
    exact ⟨some, by omega⟩

theorem div_of_core {a b q : Nat} {d : Int} {pa : 0 < a} {pb : 0 < b} {accuracy : Accuracy}
    (core : divCore .binary64 a d b e = (q, f, accuracy)) :
    UnpackedFloat.div .binary64 (.finite s a d pa) (.finite t b e pb) =
      roundWithAccuracy .binary64 (s / t) q f accuracy := by
  change roundWithAccuracy .binary64 (s / t) (divCore .binary64 a d b e).1
    (divCore .binary64 a d b e).2.1 (divCore .binary64 a d b e).2.2 = _
  rw [core]

/-- The root of a significand has enough digits and half the exponent. -/
theorem sqrtCore_cases {a : Nat} {d : Int} (pa : 0 < a) (h : (a.log2 : Int) + d < 2 * k) :
    ∃ r f accuracy, sqrtCore .binary64 a d = (r, f, accuracy) ∧
      f ≤ Format.binary64.targetExponent (totalExponent r f) ∧ (r.log2 : Int) + f < k := by
  obtain ⟨f, hf⟩ : ∃ f, min (d.ediv 2) (Format.binary64.targetExponent
      ((totalExponent a d + 1).ediv 2)) = f := ⟨_, rfl⟩
  obtain ⟨i, hi⟩ : ∃ i, (d - 2 * f).toNat = i := ⟨_, rfl⟩
  obtain ⟨r, hr⟩ : ∃ r, Nat.sqrt (a * 2 ^ i) = r := ⟨_, rfl⟩
  have core : ∃ accuracy, sqrtCore .binary64 a d = (r, f, accuracy) := by
    unfold sqrtCore
    dsimp only
    rw [hf, hi, Nat.shiftLeft_eq, hr]
    exact ⟨_, rfl⟩
  obtain ⟨accuracy, core⟩ := core
  change min (d / 2) (max (((a.log2 : Int) + 1 + d + 1) / 2 - 53) (-1074)) = f at hf
  have pos : 0 < a * 2 ^ i := Nat.mul_pos pa (Nat.two_pow_pos i)
  have some : r ≠ 0 := by
    rw [← hr]
    exact (Nat.sqrt_pos.mpr pos).ne'
  refine ⟨r, f, accuracy, core, ?_, ?_⟩
  · rw [target_eq_max]
    by_cases deep : f ≤ -1074
    · omega
    · have long : 2 ^ 52 ≤ r := by
        rw [← hr, Nat.le_sqrt, ← Nat.pow_add]
        calc 2 ^ (52 + 52) ≤ 2 ^ (a.log2 + i) := Nat.pow_le_pow_right Nat.two_pos (by omega)
          _ = 2 ^ a.log2 * 2 ^ i := Nat.pow_add ..
          _ ≤ a * 2 ^ i := Nat.mul_le_mul_right _ (Nat.log2_self_le pa.ne')
      have := (Nat.le_log2 some).mpr long
      omega
  · obtain ⟨c, hc⟩ : ∃ c : Nat, (c : Int) = k - f := ⟨(k - f).toNat, by omega⟩
    have short : r < 2 ^ c := by
      rw [← hr, Nat.sqrt_lt, ← Nat.pow_add]
      calc a * 2 ^ i < 2 ^ (a.log2 + 1) * 2 ^ i :=
            Nat.mul_lt_mul_of_pos_right Nat.lt_log2_self (Nat.two_pow_pos i)
        _ = 2 ^ (a.log2 + 1 + i) := (Nat.pow_add ..).symm
        _ ≤ 2 ^ (c + c) := Nat.pow_le_pow_right Nat.two_pos (by omega)
    have := (Nat.log2_lt some).mpr short
    omega

end

/-- A double less than `2 ^ k` away from zero. -/
def Below (k : Int) (x : Float) : Prop := Under k x.toModel.unpack

instance (k : Int) (x : Float) : Decidable (Below k x) :=
  inferInstanceAs (Decidable (Under k x.toModel.unpack))

section
variable {x y : Float} {j k : Int}

theorem Below.mono (h : Below j x) (more : j ≤ k) : Below k x := Under.mono h more

theorem Below.isFinite (h : Below k x) : x.isFinite = true := Under.isFinite h

theorem Below.mul (hx : Below j x) (hy : Below k y) (low : -1074 ≤ j + k)
    (h : j + k < 1023 ∨ (x * y).isFinite = true) : Below (j + k + 1) (x * y) := by
  have canonical := canonical_unpack x
  have canonical' := canonical_unpack y
  unfold Below at hx hy
  change _ ∨ (Float.Model.pack (.mul .binary64 x.toModel.unpack y.toModel.unpack)).unpack.isFinite =
    true at h
  change Under (j + k + 1) (Float.Model.pack (.mul .binary64 x.toModel.unpack y.toModel.unpack)).unpack
  rcases hu : x.toModel.unpack with s | _ | s | ⟨s, a, d, pa⟩ <;> rw [hu] at hx canonical h
  · exact hx.elim
  · exact hx.elim
  · rcases hv : y.toModel.unpack with t | _ | t | ⟨t, b, e, pb⟩ <;> rw [hv] at hy
    · exact hy.elim
    · exact hy.elim
    · exact under_zero (s * t)
    · exact under_zero (s * t)
  · rcases hv : y.toModel.unpack with t | _ | t | ⟨t, b, e, pb⟩ <;> rw [hv] at hy canonical' h
    · exact hy.elim
    · exact hy.elim
    · exact under_zero (s * t)
    · have size : ((a * b).log2 : Int) + (d + e) < j + k := by
        have := log2_mul_le pa pb
        change (a.log2 : Int) + d < j at hx
        change (b.log2 : Int) + e < k at hy
        omega
      rcases under_roundWithAccuracy .exact (s * t) (digits_mul canonical canonical') size low with
        small | ⟨large, infinite⟩
      · exact small
      · change _ ∨ (Float.Model.pack (roundWithAccuracy .binary64 (s * t) (a * b) (d + e)
          .exact)).unpack.isFinite = true at h
        rw [infinite] at h
        rcases h with h | h
        · omega
        · cases h

theorem Below.div {t : Sign} {b : Nat} {e : Int} {pb : 0 < b} (hx : Below (j + k) x)
    (hy : y.toModel.unpack = .finite t b e pb) (large : j ≤ b.log2 + e) (low : -1074 < k)
    (small : k < 1023) : Below (k + 1) (x / y) := by
  unfold Below at hx
  change Under (k + 1) (Float.Model.pack (.div .binary64 x.toModel.unpack y.toModel.unpack)).unpack
  rw [hy]
  rcases hu : x.toModel.unpack with s | _ | s | ⟨s, a, d, pa⟩ <;> rw [hu] at hx
  · exact hx.elim
  · exact hx.elim
  · exact under_zero (s / t)
  · obtain ⟨q, f, accuracy, core, digits, size, -⟩ := divCore_cases (d := d) (e := e) pa pb
    change (a.log2 : Int) + d < j + k at hx
    rw [div_of_core core]
    refine (under_roundWithAccuracy accuracy (s / t) digits (by omega) (by omega)).resolve_right ?_
    exact fun overflow => Int.not_lt.mpr overflow.1 small

/-- A quotient that is not too small is above zero. -/
theorem div_pos {a b : Nat} {d e : Int} {pa : 0 < a} {pb : 0 < b}
    (hx : x.toModel.unpack = .finite .positive a d pa)
    (hy : y.toModel.unpack = .finite .positive b e pb)
    (h : -1021 ≤ (a.log2 : Int) + d - (b.log2 + e)) : 0 < x / y := by
  obtain ⟨q, f, accuracy, core, digits, -, least⟩ := divCore_cases (d := d) (e := e) pa pb
  obtain ⟨some, long⟩ := least h
  have quotient : (x / y).toModel.unpack =
      (Float.Model.pack (roundWithAccuracy .binary64 .positive q f accuracy)).unpack := by
    change (Float.Model.pack (.div .binary64 x.toModel.unpack y.toModel.unpack)).unpack = _
    rw [hx, hy, div_of_core core]
    rfl
  rw [lt_iff, unpack_zero, quotient]
  rcases roundWithAccuracy_cases accuracy .positive digits with
    ⟨_, none | tiny⟩ | ⟨n, g, pos, finite, canonical, _⟩
  · omega
  · omega
  · have counts : Counts .positive (units n g) (.finite .positive n g pos) :=
      ⟨n, g, pos, rfl, canonical, rfl⟩
    rw [finite]
    rcases counts.stored_or_infinite with stored | infinite
    · rw [stored]
      rfl
    · rw [infinite]
      rfl

theorem Below.sqrt (hx : Below (2 * k) x) (sign : ¬ x < 0) (low : -1074 ≤ k) (small : k < 1023) :
    Below (k + 1) x.sqrt := by
  unfold Below at hx
  rw [not_lt_zero_iff] at sign
  change Under (k + 1) (Float.Model.pack (.sqrt .binary64 x.toModel.unpack)).unpack
  rcases hu : x.toModel.unpack with s | _ | s | ⟨s, a, d, pa⟩ <;> rw [hu] at hx sign
  · exact hx.elim
  · exact hx.elim
  · exact under_zero s
  · obtain rfl : s = .positive := sign
    obtain ⟨r, f, accuracy, core, digits, size⟩ := sqrtCore_cases pa hx
    have root : UnpackedFloat.sqrt .binary64 (.finite .positive a d pa) =
        roundWithAccuracy .binary64 .positive r f accuracy := by
      change roundWithAccuracy .binary64 .positive (sqrtCore .binary64 a d).1
        (sqrtCore .binary64 a d).2.1 (sqrtCore .binary64 a d).2.2 = _
      rw [core]
    rw [root]
    refine (under_roundWithAccuracy accuracy .positive digits size low).resolve_right ?_
    exact fun overflow => Int.not_lt.mpr overflow.1 small

theorem below_iff_unitsOf (finite : x.isFinite = true) (low : -1074 ≤ k) :
    Below k x ↔ (unitsOf x).natAbs < 2 ^ (k + 1074).toNat := by
  have kept := kept_unpack finite
  unfold Below unitsOf
  rcases hu : x.toModel.unpack with s | _ | s | ⟨s, m, e, pos⟩ <;> rw [hu] at kept
  · exact kept.elim
  · exact kept.elim
  · exact iff_of_true trivial (Nat.two_pow_pos _)
  · have digits := log2_units pos kept.1.2.1
    rw [natAbs_signedUnits, ← Nat.log2_lt (units_pos pos).ne']
    change (m.log2 : Int) + e < k ↔ _
    omega

theorem below_of_between {lo hi : Float} (hlo : Below k lo) (hhi : Below k hi) (low : -1074 ≤ k)
    (h : lo ≤ x) (h' : x ≤ hi) : Below k x := by
  have finite := finite_of_le hlo.isFinite hhi.isFinite h h'
  have least := mt (lt_iff_unitsOf finite hlo.isFinite).mpr (not_lt_of_le h)
  have most := mt (lt_iff_unitsOf hhi.isFinite finite).mpr (not_lt_of_le h')
  rw [below_iff_unitsOf hlo.isFinite low] at hlo
  rw [below_iff_unitsOf hhi.isFinite low] at hhi
  rw [below_iff_unitsOf finite low]
  omega

theorem within_below {lo hi : Float} (hlo : Below k lo) (hhi : Below k hi) (low : -1074 ≤ k) :
    Below k (within lo hi x) := by
  unfold within
  split
  · rename_i between
    exact below_of_between hlo hhi low between.1 between.2
  · exact hlo

theorem cos_below (finite : x.isFinite = true) : Below 1 (cos x) := by
  unfold cos
  rw [if_pos finite]
  exact within_below (by decide) (by decide) (by decide)

theorem ln_below (pos : 0 < x) (finite : x.isFinite = true) : Below 10 (ln x) := by
  rw [ln_of_pos pos finite]
  split
  · trivial
  · split
    · decide
    · split <;> exact within_below (by decide) (by decide) (by decide)

theorem Below.slight (h : Below k x) (low : -1074 ≤ k) (small : k ≤ 970) :
    Slight x.toModel.unpack := by
  have few := (below_iff_unitsOf h.isFinite low).mp h
  have kept := kept_unpack h.isFinite
  unfold unitsOf at few
  rcases hu : x.toModel.unpack with s | _ | s | ⟨s, m, e, pos⟩ <;> rw [hu] at kept few
  · exact kept.elim
  · exact kept.elim
  · trivial
  · rw [natAbs_signedUnits] at few
    calc 2 * units m e < 2 * 2 ^ (k + 1074).toNat := Nat.mul_lt_mul_of_pos_left few Nat.two_pos
      _ = 2 ^ ((k + 1074).toNat + 1) := (Nat.pow_succ').symm
      _ ≤ 2 ^ lastDigit := Nat.pow_le_pow_right Nat.two_pos (by unfold lastDigit; omega)

/-- What is left of a sum when its first number is taken off again is not much more than the second
one. -/
theorem Below.add_sub (hy : Below k y) (low : -1074 ≤ k) (finite : (x + y - x).isFinite = true) :
    Below (k + 2) (x + y - x) := by
  have rest := unitsOf_add_sub finite
  rw [below_iff_unitsOf hy.isFinite low] at hy
  rw [below_iff_unitsOf finite (by omega)]
  have twice : rounded (2 * (unitsOf y).natAbs) ≤ 2 ^ ((k + 1074).toNat + 1) :=
    rounded_le (by rw [Nat.pow_succ]; omega)
  calc (unitsOf (x + y - x)).natAbs ≤ 2 ^ ((k + 1074).toNat + 1) := rest.trans twice
    _ < 2 ^ (k + 2 + 1074).toNat := Nat.pow_lt_pow_right Nat.one_lt_two (by omega)

/-- Logarithms are finite for finite numbers above zero and no others. -/
theorem ln_finite_iff : (ln x).isFinite = true ↔ 0 < x ∧ x.isFinite = true := by
  refine ⟨fun h => ?_, fun h => ln_finite h.1 h.2⟩
  have ordered : ¬ (x.isNaN || x < 0) = true := by
    intro faulty
    rw [ln, if_pos faulty] at h
    revert h
    decide
  have nonzero : ¬ (x == 0) = true := by
    intro zero
    rw [ln, if_neg ordered, if_pos zero] at h
    revert h
    decide
  have bounded : ¬ (x == posInf) = true := by
    intro infinite
    rw [ln, if_neg ordered, if_neg nonzero, if_pos infinite] at h
    revert h
    decide
  simp only [Bool.or_eq_true, decide_eq_true_eq, not_or] at ordered
  obtain ⟨number, sign⟩ := ordered
  change ¬ x.toModel.unpack.isNaN = true at number
  change ¬ x.toModel.unpack.beq (.zero .positive) = true at nonzero
  change ¬ x.toModel.unpack.beq (.infinity .positive) = true at bounded
  rw [not_lt_zero_iff] at sign
  rw [lt_iff, unpack_zero]
  change _ ∧ x.toModel.unpack.isFinite = true
  rcases hu : x.toModel.unpack with s | _ | s | ⟨s, m, e, pos⟩ <;>
    rw [hu] at number nonzero bounded sign
  · obtain rfl : s = .positive := sign
    exact absurd rfl bounded
  · exact absurd rfl number
  · exact absurd rfl nonzero
  · obtain rfl : s = .positive := sign
    exact ⟨rfl, rfl⟩

theorem one_sub_finite_iff : (1 - x).isFinite = true ↔ x.isFinite = true := by
  refine ⟨fun h => (finite_of_sub h).2, fun h => ?_⟩
  have opposite : (-x).toModel.unpack = x.toModel.unpack.neg := (kept_unpack h).neg.stored
  have finite : (-x).isFinite = true := by
    change (-x).toModel.unpack.isFinite = true
    change x.toModel.unpack.isFinite = true at h
    rw [opposite]
    rcases hu : x.toModel.unpack with s | _ | s | ⟨s, m, e, pos⟩ <;> rw [hu] at h <;>
      first | rfl | cases h
  have sum := (finite_of_slight finite (y := 1)
    (Below.slight (k := 1) (by decide) (by decide) (by decide))).1
  have difference : (1 - x).toModel.unpack = (1 + -x).toModel.unpack := by
    change (Float.Model.pack (.sub .binary64 (1 : Float).toModel.unpack x.toModel.unpack)).unpack =
      (Float.Model.pack (.add .binary64 (1 : Float).toModel.unpack (-x).toModel.unpack)).unpack
    rw [sub_eq_add_neg, opposite]
  change (1 - x).toModel.unpack.isFinite = true
  rw [difference]
  exact sum

theorem uniform_finite (g : Rng) : g.uniform.1.isFinite = true := by
  have below := uniform_lt_one g
  have sign := not_lt_zero_iff.mp (uniform_not_lt_zero g)
  rw [lt_iff] at below
  change g.uniform.1.toModel.unpack.isFinite = true
  rcases hu : g.uniform.1.toModel.unpack with s | _ | s | _ <;> rw [hu] at below sign
  · obtain rfl : s = .positive := sign
    cases below
  · cases below
  · rfl
  · rfl

theorem uniform_below (g : Rng) : Below 1 g.uniform.1 := by
  have finite := uniform_finite g
  have below := uniform_lt_one g
  have number := number_of_finite finite
  have most : ¬ 1 < g.uniform.1 := by
    rw [lt_iff_unitsOf finite (by decide)] at below
    rw [lt_iff_unitsOf (by decide) finite]
    omega
  have zero : Below 1 (0 : Float) := by decide
  have one : Below 1 (1 : Float) := by decide
  exact below_of_between zero one (by decide)
    (le_of_not_lt (by decide) number (uniform_not_lt_zero g)) (le_of_not_lt number (by decide) most)

end

section
variable {format : Format} {s : Sign} {x : UnpackedFloat}

/-- No product of two numbers that are not above zero is below it. -/
theorem leans_mul {y : UnpackedFloat} (hx : Leans .negative x) (hy : Leans .negative y) :
    Leans .positive (UnpackedFloat.mul format x y) := by
  rcases x with s | _ | s | ⟨s, a, d, pa⟩ <;> rcases y with t | _ | t | ⟨t, b, e, pb⟩ <;> try trivial
  all_goals
    obtain rfl : s = .negative := hx
    obtain rfl : t = .negative := hy
  · rfl
  · rfl
  · rfl
  · exact (signed_round ..).leans

/-- No quotient of two numbers that are not below zero is below it. -/
theorem leans_div {y : UnpackedFloat} (hx : Leans .positive x) (hy : Unsigned y) :
    Leans .positive (UnpackedFloat.div format x y) := by
  rcases x with s | _ | s | ⟨s, a, d, pa⟩ <;> rcases y with t | _ | t | ⟨t, b, e, pb⟩ <;> try trivial
  all_goals
    obtain rfl : s = .positive := hx
    obtain rfl : t = .positive := hy
  · rfl
  · rfl
  · rfl
  · exact (signed_round ..).leans

theorem Infinite.mul (h : Infinite s x) (y : UnpackedFloat) :
    ∃ t, Infinite t (UnpackedFloat.mul .binary64 x y) := by
  rcases h with rfl | rfl
  · cases y with
    | infinity t => exact ⟨s * t, .inl rfl⟩
    | finite t _ _ _ => exact ⟨s * t, .inl rfl⟩
    | _ => exact ⟨s, .inr rfl⟩
  · cases y <;> exact ⟨s, .inr rfl⟩

theorem Infinite.mul_left (h : Infinite s x) (y : UnpackedFloat) :
    ∃ t, Infinite t (UnpackedFloat.mul .binary64 y x) := by
  rcases h with rfl | rfl
  · cases y with
    | infinity t => exact ⟨t * s, .inl rfl⟩
    | finite t _ _ _ => exact ⟨t * s, .inl rfl⟩
    | _ => exact ⟨s, .inr rfl⟩
  · cases y <;> exact ⟨s, .inr rfl⟩

theorem Infinite.div (h : Infinite s x) (y : UnpackedFloat) :
    ∃ t, Infinite t (UnpackedFloat.div .binary64 x y) := by
  rcases h with rfl | rfl
  · cases y with
    | finite t _ _ _ => exact ⟨s / t, .inl rfl⟩
    | zero t => exact ⟨s / t, .inl rfl⟩
    | _ => exact ⟨s, .inr rfl⟩
  · cases y <;> exact ⟨s, .inr rfl⟩

end

section
variable {x y : Float}

theorem finite_of_mul (h : (x * y).isFinite = true) : x.isFinite = true ∧ y.isFinite = true :=
  ⟨finite_of_result (fun _ hs => (hs.mul y.toModel.unpack).imp fun _ => Infinite.stored) h,
    finite_of_result (fun _ hs => (hs.mul_left x.toModel.unpack).imp fun _ => Infinite.stored) h⟩

theorem finite_of_div (h : (x / y).isFinite = true) : x.isFinite = true :=
  finite_of_result (fun _ hs => (hs.div y.toModel.unpack).imp fun _ => Infinite.stored) h

/-- Counts have small exponents. -/
theorem exponent_ofCount {n : Nat} (pos : 0 < n) (small : n < UInt64.size) :
    ∃ m e some, (ofCount n).toModel.unpack = .finite .positive m e some ∧
      0 ≤ (m.log2 : Int) + e ∧ (m.log2 : Int) + e ≤ 64 := by
  rcases amount_ofCount small with ⟨none, _⟩ | ⟨m, e, some, counted, canonical, size⟩
  · exact absurd none (rounded_pos (units_pos pos)).ne'
  obtain ⟨k, hk⟩ : ∃ k, ((0 : Int) + 1074).toNat = k := ⟨_, rfl⟩
  have whole : units n 0 = n * 2 ^ k := by rw [units, hk]
  have least : 2 ^ k ≤ units m e := by
    rw [size, whole]
    exact (rounded_two_pow k).ge.trans (rounded_mono (Nat.le_mul_of_pos_left _ pos))
  have most : units m e ≤ 2 ^ (64 + k) := by
    rw [size, whole]
    refine rounded_le ?_
    rw [Nat.pow_add]
    exact Nat.mul_le_mul_right _ small.le
  rw [counted] at canonical
  have digits := log2_units some canonical.2.1
  have low := log2_mono least
  have high := log2_mono most
  rw [Nat.log2_two_pow] at low high
  exact ⟨m, e, some, counted, by omega, by omega⟩

/-- A count above zero has a logarithm of its share of another one. -/
theorem ln_ofCount_finite {m n : Nat} (pos : 0 < m) (le : m ≤ n) (small : n < UInt64.size) :
    (ln (ofCount m / ofCount n)).isFinite = true := by
  obtain ⟨_, _, _, first, least, most⟩ := exponent_ofCount pos (le.trans_lt small)
  obtain ⟨_, _, _, second, low, high⟩ := exponent_ofCount (pos.trans_le le) small
  have below : Below (0 + 65) (ofCount m) := by
    unfold Below
    rw [first]
    exact Int.lt_add_one_iff.mpr most
  exact ln_finite (div_pos first second (by omega))
    (below.div second low (by decide) (by decide)).isFinite

/-- What is divided by neither a positive nor a negative number comes to no finite one. -/
theorem div_not_finite (hy : ¬ 0 < y) (hy' : ¬ y < 0) : (x / y).isFinite = false := by
  rw [not_zero_lt_iff] at hy
  rw [not_lt_zero_iff] at hy'
  obtain ⟨t, quotient⟩ : ∃ t, Infinite t (.div .binary64 x.toModel.unpack y.toModel.unpack) := by
    rcases hv : y.toModel.unpack with t | _ | t | ⟨t, b, e, pb⟩ <;> rw [hv] at hy hy'
    · cases t
      · cases hy'
      · cases hy
    · rcases x.toModel.unpack with s | _ | s | _ <;> exact ⟨.positive, .inr rfl⟩
    · rcases x.toModel.unpack with s | _ | s | ⟨s, _⟩
      · exact ⟨s / t, .inl rfl⟩
      · exact ⟨t, .inr rfl⟩
      · exact ⟨t, .inr rfl⟩
      · exact ⟨s / t, .inl rfl⟩
    · cases t
      · cases hy'
      · cases hy
  exact not_finite_of_infinite (x := x / y) quotient.stored

/-- A finite number is no part of an infinite one. -/
theorem not_pos_div_infinite (hx : x.isFinite = true) (pos : 0 < y) (hy : y.isFinite = false) :
    ¬ 0 < x / y := by
  obtain ⟨s, infinite | none⟩ := infinite_of_not_finite hy
  · change x.toModel.unpack.isFinite = true at hx
    rw [not_zero_lt_iff]
    refine Leans.stored ?_
    rw [infinite]
    rcases hu : x.toModel.unpack with t | _ | t | ⟨t, _⟩ <;> rw [hu] at hx
    · cases hx
    · cases hx
    · trivial
    · trivial
  · rw [lt_iff, none] at pos
    cases pos

/-- Adding a zero makes no difference, unless it is to the sign of a zero. -/
theorem add_zero_cases {t : Sign} (hy : y.toModel.unpack = .zero t) :
    (x + y).toModel.unpack = x.toModel.unpack ∨
      ∃ s s', x.toModel.unpack = .zero s ∧ (x + y).toModel.unpack = .zero s' := by
  have canonical := canonical_unpack x
  have sum : (x + y).toModel.unpack =
      (Float.Model.pack (.add .binary64 x.toModel.unpack (.zero t))).unpack := by
    rw [← hy]
    rfl
  rw [sum]
  rcases hu : x.toModel.unpack with s | _ | s | ⟨s, a, d, pa⟩ <;> rw [hu] at canonical
  · cases s <;> cases t <;> exact .inl rfl
  · cases t <;> exact .inl rfl
  · cases s <;> cases t <;> exact .inr ⟨_, _, rfl, rfl⟩
  · exact .inl (stored_of_canonical canonical (exponent_le hu))

/-- What lifts a sum above a mark is above zero, if it is not below. -/
theorem pos_of_lt_add {mark : Float} (finite : y.isFinite = true) (sign : ¬ y < 0)
    (h : mark < x + y) (h' : ¬ mark < x) : 0 < y := by
  refine Classical.byContradiction fun nothing => ?_
  rw [not_lt_zero_iff] at sign
  rw [not_zero_lt_iff] at nothing
  rw [lt_iff] at h
  rw [not_lt_iff] at h'
  change y.toModel.unpack.isFinite = true at finite
  rcases hy : y.toModel.unpack with t | _ | t | ⟨t, b, e, pb⟩ <;> rw [hy] at finite sign nothing
  · cases finite
  · cases finite
  · rcases add_zero_cases (x := x) hy with same | ⟨s, s', zero, zero'⟩
    · rw [same, h'] at h
      cases h
    · rw [zero, lt_zero_eq_false_iff] at h'
      rw [zero', lt_zero_eq_false_iff.mpr h'] at h
      cases h
  · cases t
    · cases sign
    · cases nothing

/-- A finite number above zero in its parts. -/
theorem exists_finite_of_pos (pos : 0 < x) (finite : x.isFinite = true) :
    ∃ m e some, x.toModel.unpack = .finite .positive m e some ∧
      Canonical (.finite .positive m e some) := by
  have canonical := canonical_unpack x
  rw [lt_iff, unpack_zero] at pos
  change x.toModel.unpack.isFinite = true at finite
  rcases hu : x.toModel.unpack with s | _ | s | ⟨_ | _, m, e, some⟩ <;> rw [hu] at pos finite canonical
  · cases finite
  · cases finite
  · cases pos
  · cases pos
  · exact ⟨m, e, some, rfl, canonical⟩

/-- What is neither below one nor above it is one. -/
theorem beq_one (finite : x.isFinite = true) (h : ¬ x < 1) (h' : ¬ 1 < x) : (x == 1) = true := by
  have one : (1 : Float).isFinite = true := by decide
  have zero : (0 : Float) < 1 := by decide
  rw [lt_iff_unitsOf finite one] at h
  rw [lt_iff_unitsOf one finite] at h'
  rw [lt_iff_unitsOf (by decide) one] at zero
  have pos : 0 < x := (lt_iff_unitsOf (by decide) finite).mpr (by omega)
  obtain ⟨m, e, some, hx, canonical⟩ := exists_finite_of_pos pos finite
  obtain ⟨n, f, some', unit, canonical'⟩ := exists_finite_of_pos (x := 1) (by decide) one
  have same : units m e = units n f := by
    unfold unitsOf at h h'
    rw [hx, unit] at h h'
    change ¬ (units m e : Int) < units n f at h
    change ¬ (units n f : Int) < units m e at h'
    omega
  have parts := Counts.unique ⟨m, e, some, rfl, canonical, rfl⟩
    ⟨n, f, some', rfl, canonical', same.symm⟩
  change x.toModel.unpack.beq (1 : Float).toModel.unpack = true
  rw [hx, parts, ← unit]
  decide

theorem not_lt_of_beq {y : Float} (h : (x == y) = true) : ¬ x < y := by
  rw [not_lt_iff]
  change (x.toModel.unpack.compare y.toModel.unpack == some .eq) = true at h
  change (x.toModel.unpack.compare y.toModel.unpack == some .lt) = false
  rw [eq_of_beq h]
  rfl

theorem ln_not_pos (pos : 0 < x) (finite : x.isFinite = true) (h : ¬ 1 < x) : ¬ 0 < ln x := by
  rw [ln_of_pos pos finite]
  split
  · decide
  · rename_i other
    split
    · rename_i two
      have least : ¬ unitsOf x < unitsOf 2 :=
        mt (lt_iff_unitsOf finite (by decide)).mpr (not_lt_of_beq two)
      rw [lt_iff_unitsOf (by decide) finite] at h
      have : unitsOf 1 < unitsOf 2 := (lt_iff_unitsOf (by decide) (by decide)).mp (by decide)
      omega
    · split
      · unfold within
        split
        · rename_i between
          exact not_lt_of_le between.2
        · decide
      · rename_i above
        exact absurd (beq_one finite above h) other

theorem div_sign (hx : ¬ x < 0) (pos : 0 < y) : ¬ x / y < 0 :=
  not_lt_zero_iff.mpr (leans_div (not_lt_zero_iff.mp hx) (unsigned_of_pos pos)).stored

theorem mul_not_neg (hx : ¬ 0 < x) (hy : ¬ 0 < y) : ¬ x * y < 0 :=
  not_lt_zero_iff.mpr (leans_mul (not_zero_lt_iff.mp hx) (not_zero_lt_iff.mp hy)).stored

end

end Posterior.Numeric
