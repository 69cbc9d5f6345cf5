import Mathlib.Tactic.Ring
import Posterior.Proofs.DoubleOrder

/-!
Rounding. Every finite double is a whole number of units, the least double above zero being one
unit. Sums and counts are rounded to the nearest whole number that a double can hold; rounding keeps
the order, and it absorbs what is too small to matter.
-/

namespace Posterior.Numeric

open Float.Model Float.Model.UnpackedFloat

/-- The quotient by a power of two to the nearest whole number, in a tie to the even one. -/
def nearest (k n : Nat) : Nat :=
  if 2 * (n % 2 ^ k) < 2 ^ k then n / 2 ^ k
  else if 2 * (n % 2 ^ k) = 2 ^ k then n / 2 ^ k + n / 2 ^ k % 2
  else n / 2 ^ k + 1

/-- How many binary digits of a number are beyond those that a double can hold. -/
def excess (n : Nat) : Nat := n.log2 - 52

/-- The nearest number that a double can hold. -/
def rounded (n : Nat) : Nat := nearest (excess n) n * 2 ^ excess n

theorem div_le_nearest (k n : Nat) : n / 2 ^ k ≤ nearest k n := by
  unfold nearest
  split
  · exact Nat.le_refl _
  · split <;> omega

theorem nearest_le (k n : Nat) : nearest k n ≤ n / 2 ^ k + 1 := by
  unfold nearest
  split
  · omega
  · split <;> omega

theorem nearest_mono {k m n : Nat} (h : m ≤ n) : nearest k m ≤ nearest k n := by
  have hq : m / 2 ^ k ≤ n / 2 ^ k := Nat.div_le_div_right h
  rcases Nat.lt_or_eq_of_le hq with hq | hq
  · exact (nearest_le k m).trans (hq.trans_le (div_le_nearest k n))
  · have hr : m % 2 ^ k ≤ n % 2 ^ k := by
      have hm := Nat.div_add_mod m (2 ^ k)
      have hn := Nat.div_add_mod n (2 ^ k)
      rw [hq] at hm
      omega
    unfold nearest
    rw [hq]
    split <;> split <;> (try split) <;> (try split) <;> omega

theorem nearest_mul (k m j : Nat) : nearest (k + j) (m * 2 ^ j) = nearest k m := by
  have hp : 0 < 2 ^ j := Nat.two_pow_pos j
  have hd : m * 2 ^ j / 2 ^ (k + j) = m / 2 ^ k := by
    rw [Nat.pow_add, Nat.mul_div_mul_right _ _ hp]
  have hr : m * 2 ^ j % 2 ^ (k + j) = m % 2 ^ k * 2 ^ j := by
    rw [Nat.pow_add, Nat.mul_mod_mul_right]
  unfold nearest
  rw [hd, hr, Nat.pow_add, ← Nat.mul_assoc]
  simp only [Nat.mul_lt_mul_right hp, Nat.mul_left_inj hp.ne']

theorem nearest_zero (n : Nat) : nearest 0 n = n := by
  unfold nearest
  simp [Nat.mod_one]

theorem log2_eq {n k : Nat} (h : 2 ^ k ≤ n) (h' : n < 2 ^ (k + 1)) : n.log2 = k :=
  (Nat.log2_eq_iff (Nat.two_pow_pos k |>.trans_le h).ne').mpr ⟨h, h'⟩

theorem log2_mono {m n : Nat} (h : m ≤ n) : m.log2 ≤ n.log2 := by
  rcases Nat.eq_zero_or_pos m with rfl | hm
  · simp
  · exact (Nat.le_log2 (by omega)).mpr ((Nat.log2_self_le hm.ne').trans h)

/-- A quotient has as many binary digits as a double can hold, or fewer. -/
theorem quotient_lt (n : Nat) : n / 2 ^ excess n < 2 ^ 53 := by
  rw [Nat.div_lt_iff_lt_mul (Nat.two_pow_pos _), ← Nat.pow_add]
  refine Nat.lt_log2_self.trans_le (Nat.pow_le_pow_right (by omega) ?_)
  unfold excess
  omega

theorem le_quotient {n : Nat} (h : 0 < excess n) : 2 ^ 52 ≤ n / 2 ^ excess n := by
  have hn : n ≠ 0 := by
    rintro rfl
    simp [excess] at h
  rw [Nat.le_div_iff_mul_le (Nat.two_pow_pos _), ← Nat.pow_add]
  have he : 52 + excess n = n.log2 := by
    unfold excess at *
    omega
  rw [he]
  exact Nat.log2_self_le hn

theorem nearest_excess_le (n : Nat) : nearest (excess n) n ≤ 2 ^ 53 :=
  (nearest_le _ n).trans (quotient_lt n)

theorem nearest_excess_pos {n : Nat} (h : 0 < n) : 0 < nearest (excess n) n := by
  rcases Nat.eq_zero_or_pos (excess n) with he | he
  · rwa [he, nearest_zero]
  · exact (Nat.two_pow_pos 52).trans_le ((le_quotient he).trans (div_le_nearest _ n))

theorem rounded_pos {n : Nat} (h : 0 < n) : 0 < rounded n :=
  Nat.mul_pos (nearest_excess_pos h) (Nat.two_pow_pos _)

/-- Rounding keeps the order. -/
theorem rounded_mono {m n : Nat} (h : m ≤ n) : rounded m ≤ rounded n := by
  have hlog := log2_mono h
  have he : excess m ≤ excess n := by
    unfold excess
    omega
  rcases Nat.lt_or_eq_of_le he with he | he
  · obtain ⟨j, hj⟩ : ∃ j, excess n = excess m + 1 + j := ⟨excess n - excess m - 1, by omega⟩
    calc rounded m ≤ 2 ^ 53 * 2 ^ excess m := Nat.mul_le_mul_right _ (nearest_excess_le m)
      _ = 2 ^ 52 * 2 ^ (excess m + 1) := by ring
      _ ≤ 2 ^ 52 * 2 ^ excess n :=
        Nat.mul_le_mul_left _ (Nat.pow_le_pow_right (by omega) (by omega))
      _ ≤ rounded n :=
        Nat.mul_le_mul_right _ ((le_quotient (by omega)).trans (div_le_nearest _ n))
  · unfold rounded
    rw [he]
    exact Nat.mul_le_mul_right _ (nearest_mono h)

/-- A number of the form that a double has is not rounded. -/
theorem rounded_of_fits {m j : Nat} (hm : m < 2 ^ 53) (hj : j = 0 ∨ 2 ^ 52 ≤ m) :
    rounded (m * 2 ^ j) = m * 2 ^ j := by
  have he : excess (m * 2 ^ j) = j := by
    rcases hj with rfl | hj
    · have : (m * 2 ^ 0).log2 ≤ 52 := by
        rcases Nat.eq_zero_or_pos m with rfl | hp
        · simp
        · have : (m * 2 ^ 0).log2 < 53 := (Nat.log2_lt (by omega)).mpr (by omega)
          omega
      unfold excess
      omega
    · have : (m * 2 ^ j).log2 = 52 + j := by
        refine log2_eq ?_ ?_
        · rw [Nat.pow_add]
          exact Nat.mul_le_mul_right _ hj
        · rw [show 52 + j + 1 = 53 + j by omega, Nat.pow_add]
          exact Nat.mul_lt_mul_of_pos_right hm (Nat.two_pow_pos j)
      unfold excess
      omega
  have hn : nearest j (m * 2 ^ j) = m := by
    have := nearest_mul 0 m j
    rwa [Nat.zero_add, nearest_zero] at this
  unfold rounded
  rw [he, hn]

theorem rounded_two_pow (k : Nat) : rounded (2 ^ k) = 2 ^ k := by
  rcases Nat.lt_or_ge k 53 with hk | hk
  · have := rounded_of_fits (m := 2 ^ k) (j := 0) (Nat.pow_lt_pow_right (by omega) hk) (.inl rfl)
    simpa using this
  · have := rounded_of_fits (m := 2 ^ 52) (j := k - 52) (by omega) (.inr (Nat.le_refl _))
    rwa [← Nat.pow_add, show 52 + (k - 52) = k by omega] at this

theorem rounded_le {n k : Nat} (h : n ≤ 2 ^ k) : rounded n ≤ 2 ^ k :=
  (rounded_mono h).trans (Nat.le_of_eq (rounded_two_pow k))

/-- A bound that is a power of two stays one when something small is added. -/
theorem rounded_absorbs {m n j k : Nat} (hm : m ≤ 2 ^ k) (hn : n ≤ 2 ^ j) (hk : j + 54 ≤ k) :
    rounded (m + n) ≤ 2 ^ k := by
  -- From `2 ^ k` on the numbers that are kept are `2 ^ (k - 52)` apart.
  have hsmall : 2 * 2 ^ j < 2 ^ (k - 52) := by
    rw [← Nat.pow_succ']
    exact Nat.pow_lt_pow_right (by omega) (by omega)
  have hsplit : 2 ^ k = 2 ^ 52 * 2 ^ (k - 52) := by
    rw [← Nat.pow_add]
    congr 1
    omega
  have hlog : (2 ^ k + 2 ^ j).log2 = k := by
    refine log2_eq (by omega) ?_
    rw [Nat.pow_succ]
    have : 2 ^ j < 2 ^ k := Nat.pow_lt_pow_right (by omega) (by omega)
    omega
  have hd : (2 ^ k + 2 ^ j) / 2 ^ (k - 52) = 2 ^ 52 := by
    rw [hsplit, Nat.add_comm, Nat.add_mul_div_right _ _ (Nat.two_pow_pos _),
      Nat.div_eq_of_lt (by omega), Nat.zero_add]
  have hr : (2 ^ k + 2 ^ j) % 2 ^ (k - 52) = 2 ^ j := by
    rw [hsplit, Nat.add_comm, Nat.add_mul_mod_self_right, Nat.mod_eq_of_lt (by omega)]
  calc rounded (m + n) ≤ rounded (2 ^ k + 2 ^ j) := rounded_mono (Nat.add_le_add hm hn)
    _ = 2 ^ 52 * 2 ^ (k - 52) := by
      unfold rounded excess
      rw [hlog]
      unfold nearest
      rw [hr, if_pos hsmall, hd]
    _ = 2 ^ k := hsplit.symm

/-- What is left of a significand when digits are cut off, and what is known of those digits. -/
theorem shift_eq (m k : Nat) :
    let em := ExtendedMantissa.ofMantissaAndAccuracy m .exact >>> k
    em.mantissa = m / 2 ^ k ∧ (em.roundBit = true ↔ 2 ^ k ≤ 2 * (m % 2 ^ k)) ∧
      (em.stickyBit = true ↔ 2 * (m % 2 ^ k) ≠ 0 ∧ 2 * (m % 2 ^ k) ≠ 2 ^ k) := by
  intro em
  induction k with
  | zero =>
    refine ⟨(Nat.div_one m).symm, ?_, ?_⟩
    · simp [em, HShiftRight.hShiftRight, Nat.repeat, ExtendedMantissa.ofMantissaAndAccuracy,
        Nat.mod_one]
    · simp [em, HShiftRight.hShiftRight, Nat.repeat, ExtendedMantissa.ofMantissaAndAccuracy,
        Nat.mod_one]
  | succ k ih =>
    obtain ⟨hm, hr, hs⟩ := ih
    have hstep : em = (ExtendedMantissa.ofMantissaAndAccuracy m .exact >>> k).shiftRightOne := rfl
    have hp := Nat.two_pow_pos k
    have hlt := Nat.mod_lt m hp
    have hsplit : m % (2 ^ k * 2) = m % 2 ^ k + 2 ^ k * (m / 2 ^ k % 2) := Nat.mod_mul
    have hbit := Nat.mod_two_eq_zero_or_one (m / 2 ^ k)
    rw [hstep, Nat.pow_succ]
    unfold ExtendedMantissa.shiftRightOne
    refine ⟨?_, ?_, ?_⟩
    · change (ExtendedMantissa.ofMantissaAndAccuracy m .exact >>> k).mantissa / 2 = _
      rw [hm, Nat.div_div_eq_div_mul]
    · simp only [hm, bne_iff_ne, ne_eq, hsplit]
      rcases hbit with hb | hb <;> rw [hb] <;> omega
    · simp only [Bool.or_eq_true, hr, hs, hsplit]
      rcases hbit with hb | hb <;> rw [hb] <;> omega

theorem roundedMantissa_shift (m k : Nat) :
    (ExtendedMantissa.ofMantissaAndAccuracy m .exact >>> k).roundedMantissa = nearest k m := by
  obtain ⟨hm, hr, hs⟩ := shift_eq m k
  have hlt := Nat.mod_lt m (Nat.two_pow_pos k)
  generalize ExtendedMantissa.ofMantissaAndAccuracy m .exact >>> k = em at *
  obtain ⟨q, roundBit, stickyBit⟩ := em
  dsimp only at hm hr hs
  unfold nearest
  cases roundBit <;> cases stickyBit <;>
    simp only [ExtendedMantissa.roundedMantissa, ExtendedMantissa.accuracy,
      Accuracy.roundToNearestEven, Bool.false_eq_true, false_iff, true_iff] at * <;>
    subst hm <;> split <;> (try split) <;> omega

/-- How many units there are in a number with this significand and exponent. -/
def units (m : Nat) (e : Int) : Nat := m * 2 ^ (e + 1074).toNat

theorem units_pos {m : Nat} {e : Int} (h : 0 < m) : 0 < units m e :=
  Nat.mul_pos h (Nat.two_pow_pos _)

theorem log2_units {m : Nat} {e : Int} (h : 0 < m) (he : -1074 ≤ e) :
    ((units m e).log2 : Int) = m.log2 + e + 1074 := by
  have hl : (units m e).log2 = m.log2 + (e + 1074).toNat := by
    refine log2_eq ?_ ?_
    · rw [Nat.pow_add]
      exact Nat.mul_le_mul_right _ (Nat.log2_self_le h.ne')
    · rw [Nat.add_right_comm, Nat.pow_add]
      exact Nat.mul_lt_mul_of_pos_right Nat.lt_log2_self (Nat.two_pow_pos _)
  omega

theorem target_eq {m : Nat} {e : Int} (h : 0 < m) (he : -1074 ≤ e) :
    Format.binary64.targetExponent (totalExponent m e) = excess (units m e) - 1074 := by
  have hl := log2_units h he
  change max ((m.log2 : Int) + 1 + e - 53) (-1074) = _
  unfold excess
  omega

theorem shift_to_target {m : Nat} {e : Int} (h : 0 < m) (he : -1074 ≤ e)
    (hle : e ≤ excess (units m e) - 1074) :
    (shiftToTargetExponent .binary64 m e .exact).1.roundedMantissa =
        nearest (excess (units m e)) (units m e) ∧
      (shiftToTargetExponent .binary64 m e .exact).2 = excess (units m e) - 1074 := by
  have hk : ∃ k : Nat, excess (units m e) = k + (e + 1074).toNat ∧
      ((excess (units m e) : Int) - 1074 - e).toNat = k :=
    ⟨_, by omega, rfl⟩
  obtain ⟨k, hk, hk'⟩ := hk
  simp only [shiftToTargetExponent, shiftToExponent, target_eq h he, hk', roundedMantissa_shift]
  refine ⟨?_, by omega⟩
  rw [hk]
  exact (nearest_mul k m _).symm

/-- A number that needs no rounding is left as it is. -/
theorem shift_canonical {m : Nat} {e : Int} (h : 0 < m) (he : -1074 ≤ e) (hm : m < 2 ^ 53) :
    shiftToTargetExponent .binary64 m e .exact = (⟨m, false, false⟩, e) := by
  have hl : m.log2 < 53 := (Nat.log2_lt h.ne').mpr hm
  have ht : (Format.binary64.targetExponent (totalExponent m e) - e).toNat = 0 := by
    change (max ((m.log2 : Int) + 1 + e - 53) (-1074) - e).toNat = 0
    omega
  simp only [shiftToTargetExponent, shiftToExponent, ht]
  exact Prod.ext rfl (Int.add_zero e)

/-- A significand that rounding has made too long is cut by its last digit, a zero. -/
theorem shift_overflow {e : Int} (he : -1074 ≤ e) :
    shiftToTargetExponent .binary64 (2 ^ 53) e .exact = (⟨2 ^ 52, false, false⟩, e + 1) := by
  have ht : (Format.binary64.targetExponent (totalExponent (2 ^ 53) e) - e).toNat = 1 := by
    change (max ((((2 ^ 53 : Nat)).log2 : Int) + 1 + e - 53) (-1074) - e).toNat = 1
    rw [Nat.log2_two_pow]
    omega
  simp only [shiftToTargetExponent, shiftToExponent, ht]
  rfl

/-- A positive double that is this many units. -/
def Counts (s : Sign) (n : Nat) (x : UnpackedFloat) : Prop :=
  ∃ m e pos, x = .finite s m e pos ∧ Canonical x ∧ units m e = n

/-- A rounded significand is brought into form once more. -/
theorem roundWithAccuracy_eq {format : Format} {s : Sign} {m n k : Nat} {e f g : Int}
    {accuracy : Accuracy} (hn : (shiftToTargetExponent format m e accuracy).1.roundedMantissa = n)
    (hf : (shiftToTargetExponent format m e accuracy).2 = f)
    (h : shiftToTargetExponent format n f .exact = (⟨k, false, false⟩, g)) (pos : 0 < k) :
    roundWithAccuracy format s m e accuracy = .finite s k g pos := by
  subst hn hf
  exact (congrArg (fun p : ExtendedMantissa × Int => if h : p.1.mantissa = 0 then zero s
    else finite s p.1.mantissa p.2 (Nat.pos_of_ne_zero h)) h).trans (dif_neg pos.ne')

theorem counts_roundWithAccuracy {s : Sign} {m : Nat} {e : Int} (h : 0 < m) (he : -1074 ≤ e)
    (hle : e ≤ excess (units m e) - 1074) :
    Counts s (rounded (units m e)) (roundWithAccuracy .binary64 s m e .exact) := by
  obtain ⟨hr, ht⟩ := shift_to_target h he hle
  have hpos := nearest_excess_pos (units_pos (e := e) h)
  have hlt := nearest_excess_le (units m e)
  have hq := le_quotient (n := units m e)
  have hd := div_le_nearest (excess (units m e)) (units m e)
  generalize hn : units m e = n at *
  have htn : ((excess n : Int) - 1074 + 1074).toNat = excess n := by omega
  rcases Nat.lt_or_eq_of_le hlt with hlt | heq
  · rw [roundWithAccuracy_eq hr ht (shift_canonical hpos (by omega) hlt) hpos]
    refine ⟨_, _, _, rfl, ⟨hlt, by omega, ?_⟩, ?_⟩
    · rcases Nat.eq_zero_or_pos (excess n) with hz | hz
      · exact .inl (by omega)
      · exact .inr ((hq hz).trans hd)
    · unfold units rounded
      rw [htn]
  -- The significand has been rounded up to one digit more.
  · have hover := shift_overflow (e := excess n - 1074) (by omega)
    rw [← heq] at hover
    rw [roundWithAccuracy_eq hr ht hover (Nat.two_pow_pos 52)]
    refine ⟨_, _, _, rfl, ⟨by omega, by omega, .inr (by omega)⟩, ?_⟩
    unfold units rounded
    rw [heq, show ((excess n : Int) - 1074 + 1 + 1074).toNat = excess n + 1 by omega, Nat.pow_succ]
    omega

theorem counts_round {s : Sign} {m : Nat} {e : Int} (h : 0 < m) (he : -1074 ≤ e) :
    Counts s (rounded (units m e)) (UnpackedFloat.round .binary64 s m e) := by
  unfold UnpackedFloat.round
  simp only [target_eq h he, decreaseExponent]
  generalize ha : (e - (excess (units m e) - 1074)).toNat = a
  have hu : units (m <<< a) (e - a) = units m e := by
    unfold units
    rw [Nat.shiftLeft_eq, Nat.mul_assoc, ← Nat.pow_add]
    congr 2
    omega
  rw [← hu]
  refine counts_roundWithAccuracy ?_ (by omega) ?_
  · rw [Nat.shiftLeft_eq]
    exact Nat.mul_pos h (Nat.two_pow_pos a)
  · rw [hu]
    omega

/-- What a stored double reads back as, by its parts. -/
theorem unpack_eq {b : BitVec Format.binary64.numBits} {s : Sign} {exponent : BitVec 11}
    {mantissa : BitVec 52} (hs : unpackSign b = s.toBitVec) (hx : unpackExponent b = exponent)
    (hm : unpackMantissa b = mantissa) :
    UnpackedFloat.unpack .binary64 b =
      if exponent = -1#11 then if mantissa = 0#52 then .infinity s else .notANumber
      else if exponent = 0#11 then
        if h : mantissa = 0#52 then .zero s
        else .finite s mantissa.toNat (exponent.toNat - 1075 + 1)
          (Nat.pos_of_ne_zero fun hz => h (BitVec.eq_of_toNat_eq hz))
      else .finite s (1#1 ++ mantissa).toNat (exponent.toNat - 1075) (by
        rw [BitVec.toNat_append]
        exact Nat.lt_of_lt_of_le (by decide) Nat.left_le_or) := by
  obtain rfl : Sign.ofBitVec (unpackSign b) = s := by rw [hs, ofBitVec_toBitVec]
  subst hx hm
  rfl

/-- What the stored form of a number below the least normal one reads back as. -/
theorem unpack_subnormal {s : Sign} {mantissa : BitVec 52} (h : mantissa ≠ 0#52) :
    ∃ pos, UnpackedFloat.unpack .binary64 (packComponents .binary64 s 0#11 mantissa) =
      .finite s mantissa.toNat (-1074) pos := by
  rw [unpack_eq (unpackSign_packComponents ..) (unpackExponent_packComponents ..)
    (unpackMantissa_packComponents ..), if_neg (by decide), if_pos rfl, dif_neg h]
  exact ⟨_, rfl⟩

theorem unpack_normal {s : Sign} {exponent : BitVec 11} {mantissa : BitVec 52}
    (hx : exponent ≠ -1#11) (h : exponent ≠ 0#11) :
    UnpackedFloat.unpack .binary64 (packComponents .binary64 s exponent mantissa) =
      .finite s (2 ^ 52 + mantissa.toNat) (exponent.toNat - 1075) (by omega) := by
  rw [unpack_eq (unpackSign_packComponents ..) (unpackExponent_packComponents ..)
    (unpackMantissa_packComponents ..), if_neg hx, if_neg h]
  congr 1
  rw [BitVec.toNat_append]
  exact (Nat.shiftLeft_add_eq_or_of_lt (i := 52) mantissa.isLt 1).symm

/-- A finite double that is not too large is stored as it is. -/
theorem stored_of_canonical {s : Sign} {m : Nat} {e : Int} {pos : 0 < m}
    (h : Canonical (.finite s m e pos)) (he : e ≤ 971) :
    (Float.Model.pack (.finite s m e pos)).unpack = .finite s m e pos := by
  obtain ⟨hm, hmin, hc⟩ := h
  change UnpackedFloat.unpack .binary64 (UnpackedFloat.pack .binary64 (.finite s m e pos)) = _
  delta UnpackedFloat.pack
  dsimp only
  have hb : (e + (Format.binary64.exponentBias : Int) + (52 : Nat)).toNat = (e + 1075).toNat := by
    change (e + 1023 + 52).toNat = _
    omega
  rw [hb, if_neg (show ¬ 2 ^ 11 ≤ (e + 1075).toNat + 1 by omega)]
  by_cases hn : 2 ^ 52 ≤ m
  · have hl : m.log2 + 1 = Format.binary64.mantissaBits := by
      rw [log2_eq hn hm]
      rfl
    have hx : (BitVec.ofNat 11 (e + 1075).toNat).toNat = (e + 1075).toNat := by
      rw [BitVec.toNat_ofNat, Nat.mod_eq_of_lt (by omega)]
    have hv : (BitVec.ofNat 52 m).toNat = m - 2 ^ 52 := by
      rw [BitVec.toNat_ofNat]
      omega
    rw [if_pos hl, unpack_normal]
    · congr 1 <;> omega
    · intro hz
      have := congrArg BitVec.toNat hz
      rw [hx] at this
      change _ = 2047 at this
      omega
    · intro hz
      have := congrArg BitVec.toNat hz
      rw [hx] at this
      change _ = 0 at this
      omega
  · have hl : m.log2 + 1 ≠ Format.binary64.mantissaBits := by
      have := (Nat.log2_lt (Nat.pos_iff_ne_zero.mp pos)).mpr (Nat.not_le.mp hn)
      change _ ≠ 53
      omega
    have hv : (BitVec.ofNat 52 m).toNat = m := by
      rw [BitVec.toNat_ofNat, Nat.mod_eq_of_lt (Nat.not_le.mp hn)]
    have hz : BitVec.ofNat 52 m ≠ 0#52 := by
      intro hz
      rw [hz] at hv
      change 0 = m at hv
      omega
    obtain ⟨_, hu⟩ := unpack_subnormal (s := s) hz
    rw [if_neg hl, hu]
    congr 1
    omega

/-- Doubles of no more units than the greatest one are stored as they are. -/
theorem Counts.stored {s : Sign} {n k : Nat} {x : UnpackedFloat} (h : Counts s n x)
    (hn : n < 2 ^ k) (hk : k ≤ 2098) : (Float.Model.pack x).unpack = x := by
  obtain ⟨m, e, pos, rfl, hc, rfl⟩ := h
  refine stored_of_canonical hc (Classical.byContradiction fun he => ?_)
  have hm : 2 ^ 52 ≤ m := by
    rcases hc.2.2 with h | h
    · omega
    · exact h
  have hle : 2 ^ k ≤ units m e := by
    calc 2 ^ k ≤ 2 ^ (52 + (e + 1074).toNat) := Nat.pow_le_pow_right (by omega) (by omega)
      _ = 2 ^ 52 * 2 ^ (e + 1074).toNat := Nat.pow_add ..
      _ ≤ units m e := Nat.mul_le_mul_right _ hm
  omega

/-- A double that is not below zero, in units. -/
def Amount (n : Nat) (x : Float) : Prop :=
  (n = 0 ∧ ∃ s, x.toModel.unpack = .zero s) ∨ Counts .positive n x.toModel.unpack

section
variable {m n k : Nat} {x y : Float}

theorem Counts.pos {s : Sign} {x : UnpackedFloat} (h : Counts s n x) : 0 < n := by
  obtain ⟨m, e, pos, rfl, _, rfl⟩ := h
  exact units_pos pos

theorem Counts.exact {s : Sign} {x : UnpackedFloat} (h : Counts s n x) : rounded n = n := by
  obtain ⟨m, e, pos, rfl, ⟨hm, he, hc⟩, rfl⟩ := h
  refine rounded_of_fits hm ?_
  omega

theorem Amount.exact (h : Amount n x) : rounded n = n := by
  rcases h with ⟨rfl, _⟩ | h
  · rfl
  · exact h.exact

theorem Amount.isFinite (h : Amount n x) : x.isFinite = true := by
  change x.toModel.unpack.isFinite = true
  rcases h with ⟨_, s, h⟩ | ⟨m, e, pos, h, _, _⟩ <;> rw [h] <;> rfl

theorem Amount.pos (h : Amount n x) (hn : 0 < n) : 0 < x := by
  rcases h with ⟨rfl, _⟩ | ⟨m, e, pos, h, _, _⟩
  · cases hn
  · rw [lt_iff, h]
    rfl

theorem units_lt {a b : Nat} {d e : Int} {pa : 0 < a} {pb : 0 < b}
    (hx : Canonical (.finite .positive a d pa)) (hy : Canonical (.finite .positive b e pb))
    (h : UnpackedFloat.lt (.finite .positive a d pa) (.finite .positive b e pb) = true) :
    units a d < units b e := by
  obtain ⟨ha, hd, _⟩ := hx
  obtain ⟨_, he, hb⟩ := hy
  have ho : (compare d e).then (compare a b) = .lt := by
    change (some ((compare d e).then (compare a b)) == some .lt) = true at h
    simpa using h
  rw [Ordering.then_eq_lt, Int.compare_eq_lt, Int.compare_eq_eq, Nat.compare_eq_lt] at ho
  rcases ho with ho | ⟨rfl, ho⟩
  · have hb : 2 ^ 52 ≤ b := by omega
    calc units a d < 2 ^ 53 * 2 ^ (d + 1074).toNat :=
          Nat.mul_lt_mul_of_pos_right ha (Nat.two_pow_pos _)
      _ = 2 ^ 52 * 2 ^ ((d + 1074).toNat + 1) := by ring
      _ ≤ 2 ^ 52 * 2 ^ (e + 1074).toNat :=
          Nat.mul_le_mul_left _ (Nat.pow_le_pow_right (by omega) (by omega))
      _ ≤ units b e := Nat.mul_le_mul_right _ hb
  · exact Nat.mul_lt_mul_of_pos_right ho (Nat.two_pow_pos _)

/-- The order of doubles is that of their units. -/
theorem Amount.not_lt (hx : Amount m x) (hy : Amount n y) (h : n ≤ m) : ¬ x < y := by
  rw [not_lt_iff]
  rcases hx with ⟨rfl, s, hx⟩ | ⟨a, d, pa, hx, hc, rfl⟩ <;>
    rcases hy with ⟨rfl, t, hy⟩ | hy
  · rw [hx, hy]
    rfl
  · have := hy.pos
    omega
  · rw [hx, hy]
    rfl
  · obtain ⟨b, e, pb, hy, hc', rfl⟩ := hy
    rw [hx] at hc ⊢
    rw [hy] at hc' ⊢
    exact Bool.eq_false_iff.mpr fun hl => Nat.not_lt.mpr h (units_lt hc hc' hl)

theorem units_shift {m : Nat} {e c : Int} (hc : -1074 ≤ c) (h : c ≤ e) :
    units (m <<< (e - c).toNat) c = units m e := by
  unfold units
  rw [Nat.shiftLeft_eq, Nat.mul_assoc, ← Nat.pow_add]
  congr 2
  omega

theorem counts_normalize {a : Nat} {c : Int} (h : 0 < a) (hc : -1074 ≤ c) :
    Counts .positive (rounded (units a c))
      (UnpackedFloat.normalize .binary64 (a : Int) c .positive) := by
  have hgt : compare (a : Int) 0 = .gt := Int.compare_eq_gt.mpr (by omega)
  unfold UnpackedFloat.normalize
  rw [hgt]
  exact counts_round h hc

/-- Sums are rounded. -/
theorem Counts.add {x y : UnpackedFloat} (hx : Counts .positive m x) (hy : Counts .positive n y) :
    Counts .positive (rounded (m + n)) (UnpackedFloat.add .binary64 x y) := by
  obtain ⟨a, d, pa, rfl, ⟨_, hd, _⟩, rfl⟩ := hx
  obtain ⟨b, e, pb, rfl, ⟨_, he, _⟩, rfl⟩ := hy
  have hc : -1074 ≤ min d e := by omega
  have hsum : units (a <<< (d - min d e).toNat + b <<< (e - min d e).toNat) (min d e) =
      units a d + units b e := by
    have ha : units (a <<< (d - min d e).toNat) (min d e) = units a d :=
      units_shift hc (by omega)
    have hb : units (b <<< (e - min d e).toNat) (min d e) = units b e :=
      units_shift hc (by omega)
    rw [← ha, ← hb]
    exact Nat.add_mul ..
  rw [← hsum]
  refine counts_normalize ?_ hc
  rw [Nat.shiftLeft_eq]
  exact Nat.add_pos_left (Nat.mul_pos pa (Nat.two_pow_pos _)) _

theorem Amount.add (hx : Amount m x) (hy : Amount n y) (hk : rounded (m + n) < 2 ^ k)
    (hmax : k ≤ 2098) : Amount (rounded (m + n)) (x + y) := by
  have hsum : (x + y).toModel.unpack =
      (Float.Model.pack (UnpackedFloat.add .binary64 x.toModel.unpack y.toModel.unpack)).unpack :=
    rfl
  rcases hx with ⟨rfl, s, hx⟩ | hx <;> rcases hy with ⟨rfl, t, hy⟩ | hy
  · refine .inl ⟨rfl, ?_⟩
    rw [hsum, hx, hy]
    cases s <;> cases t <;> exact ⟨_, rfl⟩
  · right
    rw [Nat.zero_add, hy.exact] at *
    have hadd : UnpackedFloat.add .binary64 x.toModel.unpack y.toModel.unpack =
        y.toModel.unpack := by
      obtain ⟨b, e, pb, hy', _⟩ := hy
      rw [hx, hy']
      rfl
    rw [hsum, hadd, hy.stored hk hmax]
    exact hy
  · right
    rw [Nat.add_zero, hx.exact] at *
    have hadd : UnpackedFloat.add .binary64 x.toModel.unpack y.toModel.unpack =
        x.toModel.unpack := by
      obtain ⟨a, d, pa, hx', _⟩ := hx
      rw [hx', hy]
      rfl
    rw [hsum, hadd, hx.stored hk hmax]
    exact hx
  · right
    have h := hx.add hy
    rw [hsum, h.stored hk hmax]
    exact h

/-- A count is rounded. -/
theorem amount_ofCount (hn : n < UInt64.size) : Amount (rounded (units n 0)) (ofCount n) := by
  have hu : n.toUInt64.toNat = n := Nat.mod_eq_of_lt hn
  have hcount : (ofCount n).toModel.unpack =
      (Float.Model.pack (UnpackedFloat.normalize .binary64 (n.toUInt64.toNat : Int) 0
        .positive)).unpack := rfl
  rw [hu] at hcount
  rcases Nat.eq_zero_or_pos n with rfl | hpos
  · have hz : units 0 0 = 0 := Nat.zero_mul _
    rw [hz]
    exact .inl ⟨rfl, .positive, by rw [hcount]; rfl⟩
  · right
    have h := counts_normalize (c := 0) hpos (by omega)
    have hle : units n 0 ≤ 2 ^ (64 + ((0 : Int) + 1074).toNat) := by
      unfold units
      generalize ((0 : Int) + 1074).toNat = j
      rw [Nat.pow_add]
      exact Nat.mul_le_mul_right _ (Nat.le_of_lt hn)
    have hlt := (rounded_le hle).trans_lt (Nat.pow_lt_pow_right Nat.one_lt_two (Nat.lt_add_one _))
    rw [hcount, h.stored hlt (by decide)]
    exact h

/-- A greater count is not a smaller double. -/
theorem ofCount_not_lt {j : Nat} (hk : k < UInt64.size) (h : j ≤ k) : ¬ ofCount k < ofCount j :=
  (amount_ofCount hk).not_lt (amount_ofCount (h.trans_lt hk))
    (rounded_mono (Nat.mul_le_mul_right _ h))

/-- The order of positive doubles is that of the exponents first and the significands second. -/
theorem finite_lt_eq_false_iff {a b : Nat} {d e : Int} {pa : 0 < a} {pb : 0 < b} :
    UnpackedFloat.lt (.finite .positive a d pa) (.finite .positive b e pb) = false ↔
      e < d ∨ d = e ∧ b ≤ a := by
  refine ⟨finite_lt_eq_false, fun h => ?_⟩
  change (some ((compare d e).then (compare a b)) == some .lt) = false
  have hne : (compare d e).then (compare a b) ≠ .lt := by
    rw [ne_eq, Ordering.then_eq_lt, Int.compare_eq_lt, Int.compare_eq_eq, Nat.compare_eq_lt]
    omega
  generalize (compare d e).then (compare a b) = o at hne
  cases o <;> first | rfl | exact absurd rfl hne

/-- What is not below a number that is not below another one is not below that one. -/
theorem Amount.not_lt_trans {z : Float} (hy : Amount n y) (h : ¬ x < y) (h' : ¬ y < z) :
    ¬ x < z := by
  rw [not_lt_iff] at *
  rcases hy with ⟨_, t, hy⟩ | ⟨b, e, pb, hy, _⟩
  · rw [hy] at h h'
    exact (lt_zero_eq_false_iff.mp h).lt_eq_false (zero_lt_eq_false_iff.mp h')
  · rw [hy] at h h'
    have hx : Leans .positive x.toModel.unpack := by
      rcases hx : x.toModel.unpack with ⟨_ | _⟩ | _ | _ | ⟨_ | _⟩ <;> rw [hx] at h <;>
        first | exact rfl | trivial
    by_cases hz : Leans .negative z.toModel.unpack
    · exact hx.lt_eq_false hz
    · rcases hz' : z.toModel.unpack with ⟨_ | _⟩ | _ | _ | ⟨_ | _, c, f, pc⟩ <;>
        rw [hz'] at h' hz <;> first | exact absurd rfl hz | exact absurd trivial hz | skip
      · cases h'
      · rcases hx' : x.toModel.unpack with ⟨_ | _⟩ | _ | _ | ⟨_ | _, a, d, pa⟩ <;>
          rw [hx'] at h <;> first | rfl | cases h | skip
        rw [finite_lt_eq_false_iff] at *
        omega

end

/-- A number times the distance of two neighbours below one, if that takes no rounding. -/
theorem counts_mul_ulp {a : Nat} {d : Int} (pa : 0 < a) (ha : a < 2 ^ 53) (hc : 2 ^ 52 ≤ a)
    (hd : -52 ≤ d) :
    Counts .positive (units a (d - 53)) (UnpackedFloat.mul .binary64
      (.finite .positive a d pa) (Float.ofBits 0x3CA0000000000000).toModel.unpack) := by
  have hu : units (a * 2 ^ 52) (d - 105) = units a (d - 53) := by
    unfold units
    rw [Nat.mul_assoc, ← Nat.pow_add]
    congr 2
    omega
  have hlog : (units a (d - 53)).log2 = 52 + (d - 53 + 1074).toNat := by
    unfold units
    refine log2_eq ?_ ?_
    · rw [Nat.pow_add]
      exact Nat.mul_le_mul_right _ hc
    · rw [Nat.add_right_comm, Nat.pow_add]
      exact Nat.mul_lt_mul_of_pos_right ha (Nat.two_pow_pos _)
  have exact : rounded (units a (d - 53)) = units a (d - 53) := rounded_of_fits ha (.inr hc)
  have small : d - 105 ≤ excess (units (a * 2 ^ 52) (d - 105)) - 1074 := by
    rw [hu]
    unfold excess
    rw [hlog]
    omega
  have product := counts_roundWithAccuracy (s := .positive) (Nat.mul_pos pa (Nat.two_pow_pos 52))
    (by omega) small
  rwa [hu, exact] at product

/-- Less than one, in units. -/
theorem Amount.lt_one {n : Nat} {x : Float} (h : Amount n x) (hn : n < units 1 0) : x < 1 := by
  have one : (1 : Float).toModel.unpack = .finite .positive (2 ^ 52) (-52) (by decide) := rfl
  rw [lt_iff, one]
  rcases h with ⟨_, s, hx⟩ | ⟨a, d, pa, hx, hc, rfl⟩
  · rw [hx]
    rfl
  · rw [hx] at hc ⊢
    obtain ⟨_, hd, hc⟩ := hc
    refine Bool.eq_true_of_not_eq_false fun hl => Nat.not_le.mpr hn ?_
    have hge := finite_lt_eq_false_iff.mp hl
    have ha : 2 ^ 52 ≤ a := by omega
    have hj : ((0 : Int) + 1074).toNat ≤ 52 + (d + 1074).toNat := by omega
    calc units 1 0 ≤ 2 ^ (52 + (d + 1074).toNat) := by
          unfold units
          rw [Nat.one_mul]
          exact Nat.pow_le_pow_right (by omega) hj
      _ = 2 ^ 52 * 2 ^ (d + 1074).toNat := Nat.pow_add ..
      _ ≤ units a d := Nat.mul_le_mul_right _ ha

/-- Fewer than `2 ^ 53` of the distances between neighbours below one make less than one. -/
theorem ulps_lt_one {n : Nat} (hn : n < 2 ^ 53) :
    ofCount n * Float.ofBits 0x3CA0000000000000 < 1 := by
  have hmul : (ofCount n * Float.ofBits 0x3CA0000000000000).toModel.unpack =
      (Float.Model.pack (UnpackedFloat.mul .binary64 (ofCount n).toModel.unpack
        (Float.ofBits 0x3CA0000000000000).toModel.unpack)).unpack := rfl
  rcases Nat.eq_zero_or_pos n with rfl | pos
  · rfl
  · have hlt : rounded (units n 0) < units (2 ^ 53) 0 := by
      calc rounded (units n 0) ≤ rounded (units (2 ^ 53 - 1) 0) :=
            rounded_mono (Nat.mul_le_mul_right _ (by omega))
        _ = units (2 ^ 53 - 1) 0 := rounded_of_fits (by omega) (.inr (by omega))
        _ < units (2 ^ 53) 0 := Nat.mul_lt_mul_of_pos_right (by omega) (Nat.two_pow_pos _)
    have hge : units 1 0 ≤ rounded (units n 0) := by
      calc units 1 0 = rounded (units 1 0) := by
            unfold units
            rw [Nat.one_mul, rounded_two_pow]
        _ ≤ rounded (units n 0) := rounded_mono (Nat.mul_le_mul_right _ pos)
    rcases amount_ofCount (n := n) (hn.trans (by decide)) with ⟨hz, _⟩ | ⟨a, d, pa, hx, hc, hu⟩
    · rw [hz] at hge
      exact absurd hge (Nat.not_le.mpr (units_pos Nat.one_pos))
    · rw [hx] at hc hmul
      obtain ⟨ha, hd, hc⟩ := hc
      rw [← hu] at hge hlt
      have hd' : -52 ≤ d := by
        refine Classical.byContradiction fun low => Nat.not_lt.mpr hge ?_
        have hj : 53 + (d + 1074).toNat ≤ ((0 : Int) + 1074).toNat := by omega
        calc units a d < 2 ^ 53 * 2 ^ (d + 1074).toNat :=
              Nat.mul_lt_mul_of_pos_right ha (Nat.two_pow_pos _)
          _ = 2 ^ (53 + (d + 1074).toNat) := (Nat.pow_add ..).symm
          _ ≤ units 1 0 := by
              unfold units
              rw [Nat.one_mul]
              exact Nat.pow_le_pow_right (by omega) hj
      have product := counts_mul_ulp pa ha (by omega) hd'
      have hshift : units a (d - 53) * 2 ^ 53 = units a d := by
        unfold units
        rw [Nat.mul_assoc, ← Nat.pow_add]
        congr 2
        omega
      have below : units a (d - 53) < units 1 0 := by
        have whole : units (2 ^ 53) 0 = units 1 0 * 2 ^ 53 := by
          unfold units
          rw [Nat.one_mul, Nat.mul_comm]
        rw [← hshift, whole] at hlt
        exact Nat.lt_of_mul_lt_mul_right hlt
      have stays := below
      unfold units at stays
      rw [Nat.one_mul] at stays
      generalize hk : ((0 : Int) + 1074).toNat = k at stays
      refine Amount.lt_one (.inr ?_) below
      rw [hmul, product.stored stays (by omega)]
      exact product

/-- The numbers that a generator draws are less than one. -/
theorem uniform_lt_one (g : Rng) : g.uniform.1 < 1 := by
  change (g.doubleWord.1 >>> 11).toFloat * Float.ofBits 0x3CA0000000000000 < 1
  generalize g.doubleWord.1 = w
  have whole : ofCount (w >>> 11).toNat = (w >>> 11).toFloat :=
    congrArg UInt64.toFloat (UInt64.ofNat_toNat ..)
  rw [← whole]
  refine ulps_lt_one ?_
  rw [UInt64.toNat_shiftRight]
  change w.toNat >>> 11 < 2 ^ 53
  rw [Nat.shiftRight_eq_div_pow, Nat.div_lt_iff_lt_mul (Nat.two_pow_pos 11), ← Nat.pow_add]
  exact w.toNat_lt_size

end Posterior.Numeric
