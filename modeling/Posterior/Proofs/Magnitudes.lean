import Posterior.Proofs.ExactSums

/-!
Sizes of doubles. A finite double stays finite when something is added that is small beside the
greatest one, as every finite logarithm is; products of numbers from one on are from one on; and a
bounded number, read as a count, is a count within the bounds.
-/

namespace Posterior.Numeric

open Float.Model Float.Model.UnpackedFloat

section
variable {n : Nat} {s : Sign} {x y : UnpackedFloat}

/-- Where the last binary digit of the greatest finite double stands, counted in units. -/
def lastDigit : Nat := 2045

/-- Finite, and less than half a last digit of the greatest finite double. -/
def Slight : UnpackedFloat → Prop
  | .zero _ => True
  | .finite _ m e _ => 2 * units m e < 2 ^ lastDigit
  | _ => False

/-- What is less than half a last digit is rounded off. -/
theorem rounded_off {m j r : Nat} (hm : 2 ^ 52 ≤ m) (hm' : m < 2 ^ 53) (hr : 2 * r < 2 ^ j) :
    rounded (m * 2 ^ j + r) = m * 2 ^ j := by
  have hj : r < 2 ^ j := by omega
  have hlog : (m * 2 ^ j + r).log2 = 52 + j := by
    refine log2_eq ?_ ?_
    · rw [Nat.pow_add]
      exact (Nat.mul_le_mul_right _ hm).trans (Nat.le_add_right ..)
    · calc m * 2 ^ j + r < (m + 1) * 2 ^ j := by rw [Nat.add_mul]; omega
        _ ≤ 2 ^ 53 * 2 ^ j := Nat.mul_le_mul_right _ hm'
        _ = 2 ^ (52 + j + 1) := by ring
  have hd : (m * 2 ^ j + r) / 2 ^ j = m := by
    rw [Nat.add_comm, Nat.add_mul_div_right _ _ (Nat.two_pow_pos _), Nat.div_eq_of_lt hj,
      Nat.zero_add]
  have hmod : (m * 2 ^ j + r) % 2 ^ j = r := by
    rw [Nat.add_comm, Nat.add_mul_mod_self_right, Nat.mod_eq_of_lt hj]
  unfold rounded excess
  rw [hlog, Nat.add_sub_cancel_left]
  unfold nearest
  rw [hmod, if_pos hr, hd]

theorem rounded_slight {j k : Nat} (hn : n ≤ (2 ^ 53 - 1) * 2 ^ j) (hk : 2 * k < 2 ^ j) :
    rounded (n + k) < 2 ^ (53 + j) :=
  calc rounded (n + k) ≤ rounded ((2 ^ 53 - 1) * 2 ^ j + k) :=
        rounded_mono (Nat.add_le_add_right hn k)
    _ = (2 ^ 53 - 1) * 2 ^ j := rounded_off (by omega) (by omega) hk
    _ < 2 ^ 53 * 2 ^ j := Nat.mul_lt_mul_of_pos_right (by omega) (Nat.two_pow_pos _)
    _ = 2 ^ (53 + j) := (Nat.pow_add ..).symm

theorem units_le {m : Nat} {e : Int} (hm : m < 2 ^ 53) (he : e ≤ 971) :
    units m e ≤ (2 ^ 53 - 1) * 2 ^ lastDigit :=
  Nat.mul_le_mul (by omega) (Nat.pow_le_pow_right (by omega) (by unfold lastDigit; omega))

theorem Counts.isFinite_stored (h : Counts s n x) (hn : n < 2 ^ (53 + lastDigit)) :
    (Float.Model.pack x).unpack.isFinite = true := by
  rw [h.stored hn (by decide)]
  obtain ⟨m, e, pos, rfl, _⟩ := h
  rfl

theorem isFinite_normalize {a : Int} {c : Int} (hc : -1074 ≤ c)
    (h : rounded (units a.natAbs c) < 2 ^ (53 + lastDigit)) :
    (Float.Model.pack (UnpackedFloat.normalize .binary64 a c .positive)).unpack.isFinite = true := by
  unfold UnpackedFloat.normalize
  split
  · rename_i hl
    rw [Int.compare_eq_lt] at hl
    rw [show a.natAbs = (-a).toNat by omega] at h
    exact (counts_round (by omega) hc).isFinite_stored h
  · rfl
  · rename_i hl
    rw [Int.compare_eq_gt] at hl
    rw [show a.natAbs = a.toNat by omega] at h
    exact (counts_round (by omega) hc).isFinite_stored h

theorem natAbs_add_apply (s t : Sign) (a b : Nat) :
    (s.apply (a : Int) + t.apply (b : Int)).natAbs ≤ a + b ∧
      (s.apply (a : Int) - t.apply (b : Int)).natAbs ≤ a + b := by
  cases s <;> cases t <;> simp only [Sign.apply] <;> omega

/-- In units of the smaller exponent, what is brought to it is no more than the two together. -/
theorem units_aligned {a b c : Nat} {d e : Int} (hd : -1074 ≤ d) (he : -1074 ≤ e)
    (h : c ≤ a <<< (d - min d e).toNat + b <<< (e - min d e).toNat) :
    units c (min d e) ≤ units a d + units b e := by
  have ha : units (a <<< (d - min d e).toNat) (min d e) = units a d :=
    units_shift (by omega) (by omega)
  have hb : units (b <<< (e - min d e).toNat) (min d e) = units b e :=
    units_shift (by omega) (by omega)
  rw [← ha, ← hb]
  exact (Nat.mul_le_mul_right _ h).trans (Nat.le_of_eq (Nat.add_mul ..))

end

section
variable {x y : Float}

theorem isFinite_stored {s : Sign} {m : Nat} {e : Int} {pos : 0 < m}
    (h : x.toModel.unpack = .finite s m e pos) (t : Sign) :
    (Float.Model.pack (.finite t m e pos)).unpack.isFinite = true := by
  have canonical := canonical_unpack x
  rw [h] at canonical
  rw [stored_of_canonical (s := t) canonical (exponent_le h)]
  rfl

/-- The sum and the difference of a finite double and a slight one are finite. -/
theorem finite_of_slight (hx : x.isFinite = true) (hy : Slight y.toModel.unpack) :
    (y + x).isFinite = true ∧ (x - y).isFinite = true := by
  change (Float.Model.pack (.add .binary64 y.toModel.unpack x.toModel.unpack)).unpack.isFinite =
      true ∧
    (Float.Model.pack (.sub .binary64 x.toModel.unpack y.toModel.unpack)).unpack.isFinite = true
  change x.toModel.unpack.isFinite = true at hx
  have canonical := canonical_unpack x
  have canonical' := canonical_unpack y
  cases hu : x.toModel.unpack with
  | infinity s => rw [hu] at hx; cases hx
  | notANumber => rw [hu] at hx; cases hx
  | zero s =>
    cases hv : y.toModel.unpack with
    | infinity t => rw [hv] at hy; exact hy.elim
    | notANumber => rw [hv] at hy; exact hy.elim
    | zero t => cases s <;> cases t <;> exact ⟨rfl, rfl⟩
    | finite t b e pb => exact ⟨isFinite_stored hv t, isFinite_stored hv (-t)⟩
  | finite s a d pa =>
    cases hv : y.toModel.unpack with
    | infinity t => rw [hv] at hy; exact hy.elim
    | notANumber => rw [hv] at hy; exact hy.elim
    | zero t => exact ⟨isFinite_stored hu s, isFinite_stored hu s⟩
    | finite t b e pb =>
      rw [hu] at canonical
      rw [hv] at canonical' hy
      have bound {c : Nat} (h : c ≤ a <<< (d - min d e).toNat + b <<< (e - min d e).toNat) :
          rounded (units c (min d e)) < 2 ^ (53 + lastDigit) :=
        (rounded_mono (units_aligned canonical.2.1 canonical'.2.1 h)).trans_lt
          (rounded_slight (units_le canonical.1 (exponent_le hu)) hy)
      have hc : -1074 ≤ min d e := le_min canonical.2.1 canonical'.2.1
      refine ⟨?_, isFinite_normalize hc (bound (natAbs_add_apply ..).2)⟩
      have sum := (natAbs_add_apply t s (b <<< (e - min d e).toNat) (a <<< (d - min d e).toNat)).1
      rw [Nat.add_comm] at sum
      have hm : min e d = min d e := min_comm e d
      change (Float.Model.pack (UnpackedFloat.normalize .binary64
        (t.apply (b <<< (e - min e d).toNat : Nat) + s.apply (a <<< (d - min e d).toNat : Nat))
        (min e d) .positive)).unpack.isFinite = true
      rw [hm]
      exact isFinite_normalize hc (bound sum)

theorem le_iff : x ≤ y ↔ x.toModel.unpack.le y.toModel.unpack = true := decide_eq_true_iff

/-- Numbers can be compared, and the other way round the answer is the opposite one. -/
theorem compare_swap {x y : UnpackedFloat} (hx : x ≠ .notANumber) (hy : y ≠ .notANumber) :
    ∃ o, x.compare y = some o ∧ y.compare x = some o.swap := by
  rcases x with ⟨_ | _⟩ | _ | _ | ⟨_ | _, a, d, pa⟩ <;>
    rcases y with ⟨_ | _⟩ | _ | _ | ⟨_ | _, b, e, pb⟩ <;>
    first
    | exact absurd rfl hx
    | exact absurd rfl hy
    | exact ⟨_, rfl, rfl⟩
    | skip
  · refine ⟨_, rfl, ?_⟩
    change some ((compare e d).then (compare b a)).swap = _
    rw [Ordering.swap_then, ← Std.OrientedOrd.eq_swap, ← Std.OrientedOrd.eq_swap, Ordering.swap_swap]
  · refine ⟨_, rfl, ?_⟩
    change some ((compare e d).then (compare b a)) = _
    rw [Ordering.swap_then, ← Std.OrientedOrd.eq_swap, ← Std.OrientedOrd.eq_swap]

theorem le_of_not_lt (hx : x.isNaN = false) (hy : y.isNaN = false) (h : ¬ y < x) : x ≤ y := by
  obtain ⟨o, hc, hs⟩ := compare_swap (isNaN_eq_false_iff.mp hx) (isNaN_eq_false_iff.mp hy)
  rw [not_lt_iff] at h
  change (y.toModel.unpack.compare x.toModel.unpack == some .lt) = false at h
  rw [le_iff]
  change (x.toModel.unpack.compare y.toModel.unpack).any (·.isLE) = true
  rw [hs] at h
  rw [hc]
  cases o <;> first | rfl | cases h

theorem not_lt_of_le (h : x ≤ y) : ¬ y < x := by
  obtain ⟨hx, hy⟩ := not_nan_of_le h
  obtain ⟨o, hc, hs⟩ := compare_swap (isNaN_eq_false_iff.mp hx) (isNaN_eq_false_iff.mp hy)
  rw [le_iff] at h
  change (x.toModel.unpack.compare y.toModel.unpack).any (·.isLE) = true at h
  rw [not_lt_iff]
  change (y.toModel.unpack.compare x.toModel.unpack == some .lt) = false
  rw [hc] at h
  rw [hs]
  cases o <;> first | rfl | cases h

/-- From one on: infinite, or at least as many units as there are in one. -/
theorem one_le_iff : 1 ≤ x ↔ x.toModel.unpack = .infinity .positive ∨
    ∃ n, Counts .positive n x.toModel.unpack ∧ units 1 0 ≤ n := by
  have one : Amount (units 1 0) 1 := by
    have := amount_ofCount (n := 1) (by decide)
    rwa [units, Nat.one_mul, rounded_two_pow, ← Nat.one_mul (2 ^ _)] at this
  constructor
  · intro h
    have above := not_lt_iff.mp (not_lt_of_le h)
    have canonical := canonical_unpack x
    have unit : (1 : Float).toModel.unpack = .finite .positive (2 ^ 52) (-52) (by decide) := rfl
    rw [le_iff, unit] at h
    rw [unit] at above
    rcases hu : x.toModel.unpack with ⟨_ | _⟩ | _ | _ | ⟨_ | _, a, d, pa⟩ <;>
      rw [hu] at h above canonical <;> first | cases h | skip
    · exact .inl rfl
    · have order := finite_lt_eq_false above
      obtain ⟨_, _, normal⟩ := id canonical
      refine .inr ⟨units a d, ⟨a, d, pa, rfl, canonical, rfl⟩, ?_⟩
      calc units 1 0 ≤ 2 ^ (52 + (d + 1074).toNat) := by
            rw [units, Nat.one_mul]
            exact Nat.pow_le_pow_right (by omega) (by omega)
        _ = 2 ^ 52 * 2 ^ (d + 1074).toNat := Nat.pow_add ..
        _ ≤ units a d := Nat.mul_le_mul_right _ (by omega)
  · rintro (infinite | ⟨n, counts, large⟩)
    · rw [le_iff, infinite]
      rfl
    · have amount : Amount n x := .inr counts
      exact le_of_not_lt (by decide) (number_of_finite amount.isFinite) (amount.not_lt one large)

/-- A number as large as one has its exponent from one on, in units. -/
theorem exponent_of_one_le {a : Nat} {d : Int} (ha : a < 2 ^ 53) (hd : -1074 ≤ d)
    (hc : d = -1074 ∨ 2 ^ 52 ≤ a) (h : units 1 0 ≤ units a d) : -52 ≤ d ∧ 2 ^ 52 ≤ a := by
  have hd : -52 ≤ d := by
    refine Int.not_lt.mp fun hl => Nat.not_lt.mpr h ?_
    calc units a d < 2 ^ 53 * 2 ^ (d + 1074).toNat :=
          Nat.mul_lt_mul_of_pos_right ha (Nat.two_pow_pos _)
      _ = 2 ^ (53 + (d + 1074).toNat) := (Nat.pow_add ..).symm
      _ ≤ units 1 0 := by
        rw [units, Nat.one_mul]
        exact Nat.pow_le_pow_right (by omega) (by omega)
  exact ⟨hd, by omega⟩

/-- A finite double is stored as it is or, if it is too large, as an infinity. -/
theorem Counts.stored_or_infinite {s : Sign} {n : Nat} {x : UnpackedFloat} (h : Counts s n x) :
    (Float.Model.pack x).unpack = x ∨ (Float.Model.pack x).unpack = .infinity s := by
  obtain ⟨m, e, pos, rfl, canonical, rfl⟩ := h
  by_cases he : e ≤ 971
  · exact .inl (stored_of_canonical canonical he)
  · right
    change UnpackedFloat.unpack .binary64 (UnpackedFloat.pack .binary64 (.finite s m e pos)) = _
    delta UnpackedFloat.pack
    dsimp only
    have hb : (e + (Format.binary64.exponentBias : Int) + (52 : Nat)).toNat = (e + 1075).toNat := by
      change (e + 1023 + 52).toNat = _
      omega
    rw [hb, if_pos (show 2 ^ 11 ≤ (e + 1075).toNat + 1 by omega)]
    cases s <;> rfl

/-- Products of numbers from one on are from one on. -/
theorem one_le_mul (hx : 1 ≤ x) (hy : 1 ≤ y) : 1 ≤ x * y := by
  have product : (x * y).toModel.unpack =
      (Float.Model.pack (.mul .binary64 x.toModel.unpack y.toModel.unpack)).unpack := rfl
  rw [one_le_iff] at hx hy ⊢
  rw [product]
  have infinite (h : UnpackedFloat.mul .binary64 x.toModel.unpack y.toModel.unpack =
      .infinity .positive) : (Float.Model.pack (.mul .binary64 x.toModel.unpack
        y.toModel.unpack)).unpack = .infinity .positive := by
    rw [h]
    rfl
  rcases hx with hx | ⟨_, ⟨a, d, pa, hx, canonical, rfl⟩, hm⟩
  · refine .inl (infinite ?_)
    rw [hx]
    rcases hy with hy | ⟨_, ⟨b, e, pb, hy, _⟩, _⟩ <;> rw [hy] <;> rfl
  · rcases hy with hy | ⟨_, ⟨b, e, pb, hy, canonical', rfl⟩, hn⟩
    · refine .inl (infinite ?_)
      rw [hx, hy]
      rfl
    · rw [hx] at canonical
      rw [hy] at canonical'
      obtain ⟨hd, ha⟩ := exponent_of_one_le canonical.1 canonical.2.1 canonical.2.2 hm
      obtain ⟨he, hb⟩ := exponent_of_one_le canonical'.1 canonical'.2.1 canonical'.2.2 hn
      have large : 2 ^ (52 + 52 + (d + e + 1074).toNat) ≤ units (a * b) (d + e) := by
        rw [Nat.pow_add, Nat.pow_add]
        exact Nat.mul_le_mul_right _ (Nat.mul_le_mul ha hb)
      have digits : 52 + 52 + (d + e + 1074).toNat ≤ (units (a * b) (d + e)).log2 :=
        (Nat.le_log2 (Nat.two_pow_pos _ |>.trans_le large).ne').mpr large
      have counts := counts_roundWithAccuracy (s := .positive) (Nat.mul_pos pa pb)
        (show -1074 ≤ d + e by omega) (by unfold excess; omega)
      have one : units 1 0 ≤ rounded (units (a * b) (d + e)) := by
        rw [units, Nat.one_mul, ← rounded_two_pow]
        exact rounded_mono ((Nat.pow_le_pow_right (by omega) (by omega)).trans large)
      have rounds : UnpackedFloat.mul .binary64 x.toModel.unpack y.toModel.unpack =
          roundWithAccuracy .binary64 .positive (a * b) (d + e) .exact := by
        rw [hx, hy]
        rfl
      rw [rounds]
      rcases counts.stored_or_infinite with stored | overflow
      · rw [stored]
        exact .inr ⟨_, counts, one⟩
      · exact .inl overflow

/-- Rounding down to a whole number, in units of which one is `2 ^ 1074`. -/
theorem roundToInt_positive {m : Nat} {e : Int} (he : -1074 ≤ e) :
    roundToInt .positive m e = (units m e / units 1 0 : Nat) := by
  have cut : roundToInt .positive m e =
      (m <<< e.toNat / 2 ^ (0 - (e - (e.toNat : Int))).toNat : Nat) := by
    change ((ExtendedMantissa.ofMantissaAndAccuracy (m <<< (e - 0).toNat) .exact >>>
      (0 - (e - ((e - 0).toNat : Int))).toNat).mantissa : Int) = _
    rw [(shift_eq _ _).1, Int.sub_zero]
  rw [cut, units, units, Nat.one_mul, Nat.shiftLeft_eq]
  congr 1
  rcases Int.le_total 0 e with h | h
  · rw [show (0 - (e - (e.toNat : Int))).toNat = 0 by omega,
      show (e + 1074).toNat = e.toNat + ((0 : Int) + 1074).toNat by omega, Nat.pow_add,
      ← Nat.mul_assoc, Nat.mul_div_cancel _ (Nat.two_pow_pos _), Nat.pow_zero, Nat.div_one]
  · have hk : ((0 : Int) + 1074).toNat = (e + 1074).toNat + (0 - (e - (e.toNat : Int))).toNat := by
      omega
    rw [show e.toNat = 0 by omega] at hk ⊢
    rw [hk, Nat.pow_add, Nat.pow_zero, Nat.mul_one, Nat.mul_comm m,
      Nat.mul_div_mul_left _ _ (Nat.two_pow_pos _)]

theorem toCount_eq : toCount x =
    min (x.toModel.unpack.toInt 0 (UInt64.size - 1)).toNat (UInt64.size - 1) := by
  change (UInt64.ofNatClamp (x.toModel.unpack.toInt 0 (UInt64.size - 1)).toNat).toNat = _
  generalize (x.toModel.unpack.toInt 0 (UInt64.size - 1)).toNat = n
  unfold UInt64.ofNatClamp
  split
  · rw [UInt64.toNat_ofNatLT]
    omega
  · rw [UInt64.toNat_ofNatLT]
    omega

/-- What a double counts to: the ones in it, as far as the counter goes. -/
theorem Amount.toCount {n : Nat} (h : Amount n x) :
    toCount x = min (n / units 1 0) (UInt64.size - 1) := by
  rw [toCount_eq]
  rcases h with ⟨rfl, s, h⟩ | ⟨m, e, pos, h, canonical, rfl⟩
  · rw [h, Nat.zero_div]
    rfl
  · rw [h] at canonical ⊢
    change min (roundToInt .positive m e).toNat _ = _
    rw [roundToInt_positive canonical.2.1]
    rfl

theorem one_le_of_toCount (h : toCount x ≠ 0) : 1 ≤ x := by
  rw [one_le_iff]
  have canonical := canonical_unpack x
  have amount : ∀ n, Amount n x → n / units 1 0 ≠ 0 := by
    intro n hn hz
    rw [hn.toCount, hz] at h
    exact h (Nat.zero_min _)
  rw [toCount_eq] at h
  rcases hu : x.toModel.unpack with ⟨_ | _⟩ | _ | _ | ⟨_ | _, a, d, pa⟩ <;>
    rw [hu] at h canonical
  · exact absurd rfl h
  · exact .inl rfl
  · exact absurd rfl h
  · exact absurd rfl h
  · have below : (roundToInt .negative a d).toNat = 0 :=
      Int.toNat_of_nonpos (Int.neg_nonpos_of_nonneg (Int.natCast_nonneg _))
    change min (roundToInt .negative a d).toNat _ ≠ 0 at h
    rw [below] at h
    exact absurd (Nat.zero_min _) h
  · have counts : Counts .positive (units a d) x.toModel.unpack := by
      rw [hu]
      exact ⟨a, d, pa, rfl, canonical, rfl⟩
    refine .inr ⟨units a d, hu ▸ counts, ?_⟩
    exact Nat.not_lt.mp fun hl => amount _ (.inr counts) (Nat.div_eq_of_lt hl)

theorem units_of_not_lt {m n : Nat} (hx : Amount m x) (hy : Amount n y) (h : ¬ x < y) : n ≤ m := by
  rcases hy with ⟨rfl, _⟩ | ⟨b, e, pb, hy, canonical', rfl⟩
  · exact Nat.zero_le m
  · rw [not_lt_iff, hy] at h
    rw [hy] at canonical'
    rcases hx with ⟨_, s, hx⟩ | ⟨a, d, pa, hx, canonical, rfl⟩
    · rw [hx] at h
      cases h
    · rw [hx] at h canonical
      rcases finite_lt_eq_false h with hl | ⟨rfl, hl⟩
      · exact (units_lt_of_exponent canonical'.1 canonical'.2.1 canonical.2.2 hl).le
      · exact Nat.mul_le_mul_right _ hl

/-- A smaller double does not count to more. -/
theorem toCount_le {n : Nat} (hx : 1 ≤ x) (hy : Amount n y) (h : ¬ y < x) :
    toCount x ≤ toCount y := by
  rcases one_le_iff.mp hx with infinite | ⟨m, counts, _⟩
  · refine absurd ?_ h
    rw [lt_iff, infinite]
    rcases hy with ⟨_, s, hy⟩ | ⟨b, e, pb, hy, _⟩ <;> rw [hy] <;> rfl
  · have amount : Amount m x := .inr counts
    rw [amount.toCount, hy.toCount]
    have := Nat.div_le_div_right (c := units 1 0) (units_of_not_lt hy amount h)
    omega

theorem ofCount_mod (n : Nat) : ofCount (n % UInt64.size) = ofCount n := by
  unfold ofCount
  congr 1
  exact UInt64.ofNat_mod_size

theorem ofCount_finite (n : Nat) : (ofCount n).isFinite = true := by
  rw [← ofCount_mod]
  exact (amount_ofCount (Nat.mod_lt n (by decide))).isFinite

theorem one_le_ofCount {n : Nat} (pos : 1 ≤ n) (small : n < UInt64.size) : 1 ≤ ofCount n := by
  have one : ofCount 1 = 1 := rfl
  rw [← one]
  exact le_of_not_lt (by decide) (number_of_finite (ofCount_finite n)) (ofCount_not_lt small pos)

theorem toCount_lt (x : Float) : toCount x < UInt64.size := x.toUInt64.toNat_lt

/-- Counts that need no rounding are read back. -/
theorem toCount_ofCount {n : Nat} (h : n ≤ 2 ^ 53) : toCount (ofCount n) = n := by
  have small : n < UInt64.size := h.trans_lt (by decide)
  have exact : rounded (units n 0) = units n 0 := by rw [units, rounded_of_short h]
  rw [(amount_ofCount small).toCount, exact]
  have whole : units n 0 / units 1 0 = n := by
    rw [units, units, Nat.one_mul, Nat.mul_div_cancel _ (Nat.two_pow_pos _)]
  rw [whole, Nat.min_eq_left (Nat.le_sub_one_of_lt small)]

/-- A double that is bounded from above by a finite number counts to no more, and is finite if it
counts to anything. -/
theorem bounded_counts {n : Nat} {r : Float} (some : toCount (bounded 1 (ofCount n) r) ≠ 0) :
    1 ≤ bounded 1 (ofCount n) r ∧ (bounded 1 (ofCount n) r).isFinite = true ∧
      (1 ≤ n → n < UInt64.size → toCount (bounded 1 (ofCount n) r) ≤ toCount (ofCount n)) := by
  have one := one_le_of_toCount some
  revert one
  unfold bounded at some ⊢
  split
  · exact fun one => ⟨one, by decide, fun pos small =>
      toCount_le one (amount_ofCount small) (not_lt_of_le (one_le_ofCount pos small))⟩
  · split
    · exact fun one => ⟨one, ofCount_finite n, fun _ _ => Nat.le_refl _⟩
    · rename_i above
      refine fun one => ⟨one, ?_, fun _ small => toCount_le one (amount_ofCount small) above⟩
      exact finite_of_le (by decide) (ofCount_finite n) one
        (le_of_not_lt (not_nan_of_le one).2 (number_of_finite (ofCount_finite n)) above)

theorem slight_of_le (h : 0 ≤ x) (h' : x ≤ 710) : Slight x.toModel.unpack := by
  have above := not_lt_iff.mp (not_lt_of_le h')
  have canonical := canonical_unpack x
  have bound : (710 : Float).toModel.unpack =
      .finite .positive 6245226045767680 (-43) (by decide) := rfl
  rw [le_iff] at h h'
  rw [bound] at h' above
  rcases hu : x.toModel.unpack with ⟨_ | _⟩ | _ | _ | ⟨_ | _, a, d, pa⟩ <;>
    rw [hu] at h h' above canonical
  · cases h
  · cases h'
  · cases h
  · trivial
  · cases h
  have exponent : d ≤ -43 := by
    rcases finite_lt_eq_false above with hl | ⟨hl, _⟩ <;> omega
  calc 2 * units a d < 2 * (2 ^ 53 * 2 ^ (d + 1074).toNat) :=
        Nat.mul_lt_mul_of_pos_left (Nat.mul_lt_mul_of_pos_right canonical.1 (Nat.two_pow_pos _))
          Nat.two_pos
    _ = 2 ^ (54 + (d + 1074).toNat) := by ring
    _ ≤ 2 ^ lastDigit := Nat.pow_le_pow_right Nat.two_pos (by unfold lastDigit; omega)

/-- The logarithm of a number from one on is slight, unless the number is infinite. -/
theorem ln_slight (h : 1 ≤ x) :
    (x.isFinite = false ∧ ln x = posInf) ∨ Slight (ln x).toModel.unpack := by
  have number := (not_nan_of_le h).2
  have sign : ¬ x < 0 := not_lt_zero (by
    rcases one_le_iff.mp h with hu | ⟨_, ⟨_, _, _, hu, _⟩, _⟩ <;> rw [hu] <;> rfl)
  have nonzero : (x == 0) = false := by
    change x.toModel.unpack.beq (.zero .positive) = false
    rcases one_le_iff.mp h with hu | ⟨_, ⟨_, _, _, hu, _⟩, _⟩ <;> rw [hu] <;> rfl
  unfold ln
  simp only [number, eq_false sign, nonzero, eq_false (not_lt_of_le h), decide_false, Bool.or_false,
    Bool.false_eq_true, ↓reduceIte]
  split
  · rename_i infinite
    exact .inl ⟨not_finite_of_infinite (.inl (unpack_of_posInf infinite)), rfl⟩
  · right
    split
    · trivial
    · split
      · exact slight_of_le (x := lnTwo) (by decide) (by decide)
      · unfold within
        split
        · rename_i between
          exact slight_of_le between.1 between.2
        · trivial

end

theorem negInf_ne_of_finite {x : Float} (h : x.isFinite = true) : (x == negInf) = false := by
  change x.toModel.unpack.isFinite = true at h
  change x.toModel.unpack.beq (.infinity .negative) = false
  rcases hu : x.toModel.unpack with _ | _ | _ | ⟨_ | _⟩ <;> rw [hu] at h <;> trivial

/-- What is possible is finite, positive infinity or not a number. -/
theorem finite_or_infinite {w : Float} (h : (w == negInf) = false) :
    w.isFinite = true ∨ Infinite .positive w.toModel.unpack := by
  change w.toModel.unpack.beq (.infinity .negative) = false at h
  change w.toModel.unpack.isFinite = true ∨ _
  rcases hu : w.toModel.unpack with ⟨_ | _⟩ | _ | _ | _ <;> rw [hu] at h
  · cases h
  · exact .inr (.inl rfl)
  · exact .inr (.inr rfl)
  · exact .inl rfl
  · exact .inl rfl

/-- A possible weight stays possible when the logarithm of a multiplicity is added. -/
theorem ln_add_possible {m w : Float} (hm : 1 ≤ m) (hw : (w == negInf) = false) :
    (ln m + w == negInf) = false := by
  rcases finite_or_infinite hw with finite | infinite
  · rcases ln_slight hm with ⟨_, infinite⟩ | slight
    · rw [infinite]
      exact beq_negInf_eq_false (Infinite.add (.inl rfl) _).stored
    · exact negInf_ne_of_finite (finite_of_slight finite slight).1
  · exact beq_negInf_eq_false (infinite.add_left _).stored

/-- A possible weight stays possible when it is shared out. -/
theorem sub_ln_possible {c w : Float} (hc : 1 ≤ c) (finite : c.isFinite = true)
    (hw : (w == negInf) = false) : (w - ln c == negInf) = false := by
  have slight : Slight (ln c).toModel.unpack := by
    rcases ln_slight hc with ⟨infinite, _⟩ | slight
    · rw [finite] at infinite
      cases infinite
    · exact slight
  rcases finite_or_infinite hw with finite | infinite
  · exact negInf_ne_of_finite (finite_of_slight finite slight).2
  · exact beq_negInf_eq_false (infinite.sub _).stored

/-- A weight below the mean shows that the mean is possible. -/
theorem mean_possible {w mean : Float} (h : w - mean < 0) : (mean == negInf) = false := by
  refine Bool.eq_false_iff.mpr fun lost => not_lt_of_infinite ?_ h
  have infinite : Infinite .negative mean.toModel.unpack := lost_of_negInf lost
  exact (infinite.sub_left w.toModel.unpack).stored

end Posterior.Numeric
