import Posterior.Proofs.Magnitudes

/-!
Doubles as integers: how many units of the least one they are, with their signs. On finite doubles
the order is that of the integers, and a sum or a difference is the nearest one that there is to the
exact one; so it is no further from it than either of its numbers, and no difference of two different
numbers is lost.
-/

namespace Posterior.Numeric

open Float.Model Float.Model.UnpackedFloat

/-- The units of a finite double, below zero if it has a minus sign. -/
def signedUnits : UnpackedFloat → Int
  | .finite s m e _ => s.apply (units m e)
  | _ => 0

theorem natAbs_signedUnits {s : Sign} {m : Nat} {e : Int} {pos : 0 < m} :
    (signedUnits (.finite s m e pos)).natAbs = units m e := by
  cases s
  · exact Int.natAbs_neg _
  · rfl

/-- The integer nearest to one among those that a double can hold. -/
def roundedInt (z : Int) : Int := z.sign * rounded z.natAbs

section
variable {s : Sign} {n : Nat} {x : UnpackedFloat} {a c : Int}

theorem roundedInt_apply (s : Sign) (n : Nat) :
    roundedInt (s.apply (n : Int)) = s.apply (rounded n : Int) := by
  rcases Nat.eq_zero_or_pos n with rfl | pos
  · cases s <;> rfl
  · cases s with
    | negative =>
      simp [Sign.apply, roundedInt, Int.sign_eq_neg_one_of_neg (show -(n : Int) < 0 by omega)]
    | positive => simp [Sign.apply, roundedInt, Int.sign_eq_one_of_pos (show (0 : Int) < n by omega)]

theorem Counts.signedUnits_eq (h : Counts s n x) : signedUnits x = s.apply (n : Int) := by
  obtain ⟨m, e, pos, rfl, _, rfl⟩ := h
  rfl

theorem apply_mul (s : Sign) (a b : Int) : s.apply a * b = s.apply (a * b) := by
  cases s
  · exact Int.neg_mul ..
  · rfl

theorem signedUnits_normalize (hc : -1074 ≤ c) :
    signedUnits (UnpackedFloat.normalize .binary64 a c .positive) =
      roundedInt (a * 2 ^ (c + 1074).toNat) := by
  unfold UnpackedFloat.normalize
  split
  · rename_i below
    rw [Int.compare_eq_lt] at below
    have exact : a * 2 ^ (c + 1074).toNat = Sign.negative.apply (units (-a).toNat c : Int) := by
      have magnitude : ((-a).toNat : Int) = -a := Int.toNat_of_nonneg (by omega)
      simp [units, Sign.apply, magnitude]
    rw [(counts_round (by omega) hc).signedUnits_eq, exact, roundedInt_apply]
  · rename_i nothing
    rw [Int.compare_eq_eq] at nothing
    rw [nothing, Int.zero_mul]
    rfl
  · rename_i above
    rw [Int.compare_eq_gt] at above
    have exact : a * 2 ^ (c + 1074).toNat = Sign.positive.apply (units a.toNat c : Int) := by
      have magnitude : (a.toNat : Int) = a := Int.toNat_of_nonneg (by omega)
      simp [units, Sign.apply, magnitude]
    rw [(counts_round (by omega) hc).signedUnits_eq, exact, roundedInt_apply]

/-- What is normalised is stored as it is, unless it is too large. -/
theorem stored_normalize (hc : -1074 ≤ c)
    (finite : (Float.Model.pack (UnpackedFloat.normalize .binary64 a c .positive)).unpack.isFinite =
      true) :
    (Float.Model.pack (UnpackedFloat.normalize .binary64 a c .positive)).unpack =
      UnpackedFloat.normalize .binary64 a c .positive := by
  have keep {t : Sign} {m : Nat} (pos : 0 < m)
      (finite : (Float.Model.pack (UnpackedFloat.round .binary64 t m c)).unpack.isFinite = true) :
      (Float.Model.pack (UnpackedFloat.round .binary64 t m c)).unpack =
        UnpackedFloat.round .binary64 t m c := by
    rcases (counts_round (s := t) pos hc).stored_or_infinite with stored | infinite
    · exact stored
    · rw [infinite] at finite
      cases finite
  revert finite
  unfold UnpackedFloat.normalize
  split
  · rename_i below
    rw [Int.compare_eq_lt] at below
    exact keep (by omega)
  · exact fun _ => rfl
  · rename_i above
    rw [Int.compare_eq_gt] at above
    exact keep (by omega)

end

/-- Finite, as a double is stored. -/
def Kept : UnpackedFloat → Prop
  | .zero _ => True
  | .finite s m e pos => Canonical (.finite s m e pos) ∧ e ≤ 971
  | _ => False

section
variable {x y : UnpackedFloat}

theorem Kept.stored (h : Kept x) : (Float.Model.pack x).unpack = x := by
  cases x with
  | zero s => cases s <;> rfl
  | finite s m e pos => exact stored_of_canonical h.1 h.2
  | _ => exact h.elim

theorem Kept.neg (h : Kept x) : Kept x.neg := by
  cases x with
  | zero s => trivial
  | finite s m e pos => exact h
  | _ => exact h.elim

theorem Kept.exact (h : Kept x) : roundedInt (signedUnits x) = signedUnits x := by
  cases x with
  | finite s m e pos =>
    have counts : Counts s (units m e) (.finite s m e pos) := ⟨m, e, pos, rfl, h.1, rfl⟩
    rw [counts.signedUnits_eq, roundedInt_apply, counts.exact]
  | _ => exact Int.zero_mul _

theorem signedUnits_neg (x : UnpackedFloat) : signedUnits x.neg = -signedUnits x := by
  cases x with
  | finite s m e pos =>
    cases s
    · exact (Int.neg_neg _).symm
    · rfl
  | _ => rfl

/-- Brought to a smaller exponent, a significand stands for as many units as before. -/
theorem apply_aligned (s : Sign) {m : Nat} {e c : Int} (hc : -1074 ≤ c) (h : c ≤ e) :
    s.apply ((m <<< (e - c).toNat : Nat) : Int) * 2 ^ (c + 1074).toNat =
      s.apply (units m e : Int) := by
  rw [apply_mul, ← units_shift hc h]
  simp [units]

theorem signedUnits_add (hx : Kept x) (hy : Kept y)
    (finite : (Float.Model.pack (.add .binary64 x y)).unpack.isFinite = true) :
    signedUnits (Float.Model.pack (.add .binary64 x y)).unpack =
      roundedInt (signedUnits x + signedUnits y) := by
  cases x with
  | infinity s => exact hx.elim
  | notANumber => exact hx.elim
  | zero s =>
    cases y with
    | infinity t => exact hy.elim
    | notANumber => exact hy.elim
    | zero t => cases s <;> cases t <;> exact (Int.zero_mul _).symm
    | finite t b e pb =>
      change signedUnits (Float.Model.pack (.finite t b e pb)).unpack = roundedInt (0 + signedUnits _)
      rw [hy.stored, Int.zero_add, hy.exact]
  | finite s a d pa =>
    cases y with
    | infinity t => exact hy.elim
    | notANumber => exact hy.elim
    | zero t =>
      change signedUnits (Float.Model.pack (.finite s a d pa)).unpack = roundedInt (signedUnits _ + 0)
      rw [hx.stored, Int.add_zero, hx.exact]
    | finite t b e pb =>
      have hc : -1074 ≤ min d e := le_min hx.1.2.1 hy.1.2.1
      change signedUnits (Float.Model.pack (UnpackedFloat.normalize .binary64
        (s.apply (a <<< (d - min d e).toNat : Nat) + t.apply (b <<< (e - min d e).toNat : Nat))
        (min d e) .positive)).unpack = _
      rw [stored_normalize hc finite, signedUnits_normalize hc, Int.add_mul,
        apply_aligned s hc (min_le_left d e), apply_aligned t hc (min_le_right d e)]
      rfl

theorem sub_eq_add_neg (format : Format) (x y : UnpackedFloat) :
    UnpackedFloat.sub format x y = UnpackedFloat.add format x y.neg := by
  rcases x with s | _ | s | ⟨s, a, d, pa⟩ <;> rcases y with t | _ | t | ⟨t, b, e, pb⟩ <;> try rfl
  have difference (z w : Int) : z - t.apply w = z + (-t).apply w := by
    cases t
    · exact Int.sub_neg z w
    · exact Int.sub_eq_add_neg
  exact congrArg (UnpackedFloat.normalize format · _ _) (difference _ _)

theorem finite_lt_iff {a b : Nat} {d e : Int} {pa : 0 < a} {pb : 0 < b}
    (hx : Canonical (.finite .positive a d pa)) (hy : Canonical (.finite .positive b e pb)) :
    UnpackedFloat.lt (.finite .positive a d pa) (.finite .positive b e pb) = true ↔
      units a d < units b e := by
  refine ⟨units_lt hx hy, fun less => eq_true_of_ne_false fun h => Nat.not_le.mpr less ?_⟩
  rcases finite_lt_eq_false h with exponent | ⟨rfl, significand⟩
  · exact (units_lt_of_exponent hy.1 hy.2.1 hx.2.2 exponent).le
  · exact Nat.mul_le_mul_right _ significand

theorem lt_iff_signedUnits (hx : Kept x) (hy : Kept y) :
    x.lt y = true ↔ signedUnits x < signedUnits y := by
  have signs {a b : Nat} (pa : 0 < a) (pb : 0 < b) : -(a : Int) < b ∧ -(a : Int) < 0 ∧ 0 < (b : Int) := by
    omega
  rcases x with s | _ | s | ⟨s, a, d, pa⟩
  · exact hx.elim
  · exact hx.elim
  · rcases y with t | _ | t | ⟨t, b, e, pb⟩
    · exact hy.elim
    · exact hy.elim
    · cases s <;> cases t <;> exact iff_of_false Bool.false_ne_true (Int.lt_irrefl 0)
    · obtain ⟨-, below, above⟩ := signs (units_pos (e := e) pb) (units_pos (e := e) pb)
      cases t
      · exact iff_of_false Bool.false_ne_true (Int.not_lt.mpr below.le)
      · exact iff_of_true rfl above
  · rcases y with t | _ | t | ⟨t, b, e, pb⟩
    · exact hy.elim
    · exact hy.elim
    · obtain ⟨-, below, above⟩ := signs (units_pos (e := d) pa) (units_pos (e := d) pa)
      cases s
      · exact iff_of_true rfl below
      · exact iff_of_false Bool.false_ne_true (Int.not_lt.mpr above.le)
    · obtain ⟨apart, -, -⟩ := signs (units_pos (e := d) pa) (units_pos (e := e) pb)
      obtain ⟨apart', -, -⟩ := signs (units_pos (e := e) pb) (units_pos (e := d) pa)
      cases s <;> cases t
      · rw [negative_lt, finite_lt_iff hy.1 hx.1]
        exact Int.ofNat_lt.symm.trans Int.neg_lt_neg_iff.symm
      · exact iff_of_true rfl apart
      · exact iff_of_false Bool.false_ne_true (Int.not_lt.mpr apart'.le)
      · rw [finite_lt_iff hx.1 hy.1]
        exact Int.ofNat_lt.symm

end

def unitsOf (x : Float) : Int := signedUnits x.toModel.unpack

section
variable {x y : Float}

theorem kept_unpack (h : x.isFinite = true) : Kept x.toModel.unpack := by
  have canonical := canonical_unpack x
  change x.toModel.unpack.isFinite = true at h
  cases hu : x.toModel.unpack with
  | infinity s => rw [hu] at h; cases h
  | notANumber => rw [hu] at h; cases h
  | zero s => trivial
  | finite s m e pos => exact ⟨hu ▸ canonical, exponent_le hu⟩

theorem roundedInt_unitsOf (h : x.isFinite = true) : roundedInt (unitsOf x) = unitsOf x :=
  (kept_unpack h).exact

theorem finite_of_sub (h : (x - y).isFinite = true) : x.isFinite = true ∧ y.isFinite = true :=
  ⟨finite_of_result (fun s hs => ⟨s, (Infinite.sub hs y.toModel.unpack).stored⟩) h,
    finite_of_result (fun s hs => ⟨-s, (Infinite.sub_left hs x.toModel.unpack).stored⟩) h⟩

theorem unitsOf_add (h : (x + y).isFinite = true) :
    unitsOf (x + y) = roundedInt (unitsOf x + unitsOf y) := by
  obtain ⟨hx, hy⟩ := finite_of_add h
  exact signedUnits_add (kept_unpack hx) (kept_unpack hy) h

theorem unitsOf_sub (h : (x - y).isFinite = true) :
    unitsOf (x - y) = roundedInt (unitsOf x - unitsOf y) := by
  obtain ⟨hx, hy⟩ := finite_of_sub h
  have opposite := sub_eq_add_neg .binary64 x.toModel.unpack y.toModel.unpack
  have difference : (x - y).toModel.unpack =
      (Float.Model.pack (.sub .binary64 x.toModel.unpack y.toModel.unpack)).unpack := rfl
  change (x - y).toModel.unpack.isFinite = true at h
  rw [difference, opposite] at h
  rw [unitsOf, difference, opposite, signedUnits_add (kept_unpack hx) (kept_unpack hy).neg h,
    signedUnits_neg, ← Int.sub_eq_add_neg]
  rfl

theorem lt_iff_unitsOf (hx : x.isFinite = true) (hy : y.isFinite = true) :
    x < y ↔ unitsOf x < unitsOf y :=
  lt_iff.trans (lt_iff_signedUnits (kept_unpack hx) (kept_unpack hy))

theorem roundedInt_pos {z : Int} : 0 < roundedInt z ↔ 0 < z := by
  constructor
  · refine fun h => Int.not_le.mp fun nonpos => ?_
    have sign : z.sign ≤ 0 := by rcases Int.lt_or_eq_of_le nonpos with h | rfl <;> simp [*]
    exact Int.not_lt.mpr (Int.mul_nonpos_of_nonpos_of_nonneg sign (Int.natCast_nonneg _)) h
  · intro h
    have some := rounded_pos (Int.natAbs_pos.mpr h.ne')
    rw [roundedInt, Int.sign_eq_one_of_pos h, Int.one_mul]
    omega

/-- The difference of two numbers is above zero if the second one is the smaller, however close they
are. -/
theorem sub_pos_iff (h : (x - y).isFinite = true) : 0 < x - y ↔ y < x := by
  obtain ⟨hx, hy⟩ := finite_of_sub h
  rw [lt_iff_unitsOf (by decide) h, lt_iff_unitsOf hy hx, unitsOf_sub h]
  exact roundedInt_pos.trans Int.sub_pos

theorem roundedInt_natCast (n : Nat) : roundedInt n = rounded n := roundedInt_apply .positive n

theorem roundedInt_neg (z : Int) : roundedInt (-z) = -roundedInt z := by
  simp [roundedInt]

theorem natAbs_roundedInt (z : Int) : (roundedInt z).natAbs = rounded z.natAbs := by
  obtain ⟨n, rfl | rfl⟩ := z.eq_nat_or_neg
  · rw [roundedInt_natCast]
    rfl
  · rw [roundedInt_neg, roundedInt_natCast, Int.natAbs_neg, Int.natAbs_neg]
    rfl

theorem roundedInt_mono {z w : Int} (h : z ≤ w) : roundedInt z ≤ roundedInt w := by
  obtain ⟨m, rfl | rfl⟩ := z.eq_nat_or_neg <;> obtain ⟨n, rfl | rfl⟩ := w.eq_nat_or_neg
  · rw [roundedInt_natCast, roundedInt_natCast]
    exact Int.ofNat_le.mpr (rounded_mono (Int.ofNat_le.mp h))
  · obtain ⟨rfl, rfl⟩ : m = 0 ∧ n = 0 := by omega
    exact Int.le_refl _
  · rw [roundedInt_neg, roundedInt_natCast, roundedInt_natCast]
    omega
  · rw [roundedInt_neg, roundedInt_neg, roundedInt_natCast, roundedInt_natCast]
    exact Int.neg_le_neg (Int.ofNat_le.mpr (rounded_mono (by omega)))

/-- A difference is not above its first number if the second one is not below zero. -/
theorem not_lt_sub (h : (x - y).isFinite = true) (sign : ¬ y < 0) : ¬ x < x - y := by
  obtain ⟨hx, hy⟩ := finite_of_sub h
  rw [lt_iff_unitsOf hy (by decide)] at sign
  have zero : unitsOf 0 = 0 := rfl
  have less := roundedInt_mono (show unitsOf x - unitsOf y ≤ unitsOf x by omega)
  rw [lt_iff_unitsOf hx h, unitsOf_sub h, Int.not_lt]
  exact less.trans (roundedInt_unitsOf hx).le

/-- What a double can hold beyond the digits of another number is a multiple of its last digit. -/
theorem dvd_of_fits {m n : Nat} (fits : rounded m = m) (h : n / 2 ^ excess n * 2 ^ excess n < m) :
    2 ^ excess n ∣ m := by
  rcases Nat.eq_zero_or_pos (excess n) with none | some
  · simp [none]
  have large : 2 ^ (52 + excess n) ≤ m :=
    calc 2 ^ (52 + excess n) = 2 ^ 52 * 2 ^ excess n := Nat.pow_add ..
      _ ≤ n / 2 ^ excess n * 2 ^ excess n := Nat.mul_le_mul_right _ (le_quotient some)
      _ ≤ m := h.le
  have digits : excess n ≤ excess m := by
    have := (Nat.le_log2 (Nat.two_pow_pos _ |>.trans_le large).ne').mpr large
    change excess n ≤ m.log2 - 52
    omega
  rw [← fits]
  exact (Nat.pow_dvd_pow 2 digits).trans (Nat.dvd_mul_left ..)

/-- Rounding moves a number no further than to any number that a double can hold. -/
theorem rounded_near {m n : Nat} (fits : rounded m = m) :
    ((rounded n : Int) - n).natAbs ≤ ((m : Int) - n).natAbs := by
  obtain ⟨p, hp⟩ : ∃ p, 2 ^ excess n = p := ⟨_, rfl⟩
  have parts := Nat.div_add_mod' n p
  have rest := Nat.mod_lt n (hp ▸ Nat.two_pow_pos (excess n))
  have next : (n / p + 1) * p = n / p * p + p := Nat.succ_mul ..
  -- The two neighbours of `n` among the multiples; the nearer one is taken.
  have nearer : rounded n = n / p * p ∧ 2 * (n % p) ≤ p ∨
      rounded n = n / p * p + p ∧ p ≤ 2 * (n % p) := by
    rw [rounded, nearest, hp]
    split
    · exact .inl ⟨rfl, by omega⟩
    · split
      · rcases Nat.mod_two_eq_zero_or_one (n / p) with even | odd
        · exact .inl ⟨by rw [even, Nat.add_zero], by omega⟩
        · exact .inr ⟨by rw [odd, next], by omega⟩
      · exact .inr ⟨next, by omega⟩
  have outside : m ≤ n / p * p ∨ n / p * p + p ≤ m := by
    rcases Nat.lt_or_ge (n / p * p) m with above | below
    · obtain ⟨c, rfl⟩ := hp ▸ dvd_of_fits fits (hp.symm ▸ above)
      rw [Nat.mul_comm p c] at above ⊢
      rw [← next]
      exact .inr (Nat.mul_le_mul_right p (Nat.lt_of_mul_lt_mul_right above))
    · exact .inl below
  omega

theorem roundedInt_near {z w : Int} (fits : roundedInt w = w) :
    (roundedInt z - z).natAbs ≤ (w - z).natAbs := by
  have above {n : Nat} {w : Int} (fits : roundedInt w = w) :
      (roundedInt n - n).natAbs ≤ (w - n).natAbs := by
    rw [roundedInt_natCast]
    obtain ⟨m, rfl | rfl⟩ := w.eq_nat_or_neg
    · rw [roundedInt_natCast] at fits
      exact rounded_near (Int.ofNat.inj fits)
    · -- Zero lies between.
      have zero := rounded_near (m := 0) (n := n) rfl
      omega
  obtain ⟨n, rfl | rfl⟩ := z.eq_nat_or_neg
  · exact above fits
  · have mirrored := above (n := n) (w := -w) (by rw [roundedInt_neg, fits])
    rw [roundedInt_neg]
    omega

/-- What is left of a sum when its first number is taken off again is at most twice the second. -/
theorem unitsOf_add_sub (h : (x + y - x).isFinite = true) :
    (unitsOf (x + y - x)).natAbs ≤ rounded (2 * (unitsOf y).natAbs) := by
  have near := roundedInt_near (z := unitsOf x + unitsOf y) (roundedInt_unitsOf (finite_of_sub h).2)
  rw [unitsOf_sub h, natAbs_roundedInt, unitsOf_add (finite_of_sub h).1]
  exact rounded_mono (by omega)

end

end Posterior.Numeric
