import Posterior.Proofs.Numbers

/-!
Sums that need no rounding. Whole doubles up to `2 ^ 53` are counted exactly, so that as many ones
add up to their count, and the log-mean of as many zeros is zero.
-/

namespace Posterior.Numeric

open Float.Model Float.Model.UnpackedFloat

/-- A number whose digits fit into a significand is not rounded, whatever its scale. -/
theorem rounded_of_short {m j : Nat} (hm : m ≤ 2 ^ 53) : rounded (m * 2 ^ j) = m * 2 ^ j := by
  rcases Nat.lt_or_eq_of_le hm with hm | rfl
  · have he : excess (m * 2 ^ j) ≤ j := by
      rcases Nat.eq_zero_or_pos m with rfl | pos
      · simp [excess]
      · have : (m * 2 ^ j).log2 < 53 + j := by
          refine (Nat.log2_lt (Nat.mul_pos pos (Nat.two_pow_pos j)).ne').mpr ?_
          rw [Nat.pow_add]
          exact Nat.mul_lt_mul_of_pos_right hm (Nat.two_pow_pos j)
        unfold excess
        omega
    unfold rounded
    generalize excess (m * 2 ^ j) = k at he
    obtain ⟨i, rfl⟩ := Nat.exists_eq_add_of_le he
    rw [Nat.pow_add, Nat.mul_comm (2 ^ k), ← Nat.mul_assoc]
    have := nearest_mul 0 (m * 2 ^ i) k
    rw [Nat.zero_add, nearest_zero] at this
    rw [this]
  · rw [← Nat.pow_add]
    exact rounded_two_pow _

/-- A double with a smaller exponent has fewer units. -/
theorem units_lt_of_exponent {a b : Nat} {d e : Int} (ha : a < 2 ^ 53) (hd : -1074 ≤ d)
    (hb : e = -1074 ∨ 2 ^ 52 ≤ b) (h : d < e) : units a d < units b e := by
  have hb : 2 ^ 52 ≤ b := by omega
  calc units a d < 2 ^ 53 * 2 ^ (d + 1074).toNat :=
        Nat.mul_lt_mul_of_pos_right ha (Nat.two_pow_pos _)
    _ = 2 ^ 52 * 2 ^ ((d + 1074).toNat + 1) := by ring
    _ ≤ 2 ^ 52 * 2 ^ (e + 1074).toNat :=
        Nat.mul_le_mul_left _ (Nat.pow_le_pow_right (by omega) (by omega))
    _ ≤ units b e := Nat.mul_le_mul_right _ hb

/-- Two doubles of the same number of units are the same. -/
theorem Counts.unique {n : Nat} {s : Sign} {x y : UnpackedFloat} (hx : Counts s n x)
    (hy : Counts s n y) : x = y := by
  obtain ⟨a, d, pa, rfl, ⟨ha, hd, ha'⟩, hn⟩ := hx
  obtain ⟨b, e, pb, rfl, ⟨hb, he, hb'⟩, hn'⟩ := hy
  have same : units a d = units b e := hn.trans hn'.symm
  obtain rfl : d = e := by
    rcases Int.lt_trichotomy d e with h | h | h
    · exact absurd same (units_lt_of_exponent ha hd hb' h).ne
    · exact h
    · exact absurd same (units_lt_of_exponent hb he ha' h).ne'
  obtain rfl : a = b := Nat.eq_of_mul_eq_mul_right (Nat.two_pow_pos _) same
  rfl

theorem counts_count {n : Nat} (pos : 0 < n) (h : n ≤ 2 ^ 53) :
    Counts .positive (units n 0) (UnpackedFloat.normalize .binary64 (n : Int) 0 .positive) ∧
      ofCount n =
        Float.ofModel (.pack (UnpackedFloat.normalize .binary64 (n : Int) 0 .positive)) := by
  have hu : n.toUInt64.toNat = n := Nat.mod_eq_of_lt (by omega)
  refine ⟨?_, ?_⟩
  · have := counts_normalize (c := 0) pos (by omega)
    rwa [units, rounded_of_short h] at this
  · change Float.ofModel (.pack (UnpackedFloat.normalize .binary64 (n.toUInt64.toNat : Int) 0
      .positive)) = _
    rw [hu]

theorem unpack_count {n : Nat} (pos : 0 < n) (h : n ≤ 2 ^ 53) :
    Counts .positive (units n 0) (ofCount n).toModel.unpack := by
  obtain ⟨counts, eq⟩ := counts_count pos h
  have small : units n 0 < 2 ^ (54 + ((0 : Int) + 1074).toNat) := by
    unfold units
    generalize ((0 : Int) + 1074).toNat = j
    calc n * 2 ^ j ≤ 2 ^ 53 * 2 ^ j := Nat.mul_le_mul_right _ h
      _ = 2 ^ (53 + j) := (Nat.pow_add ..).symm
      _ < 2 ^ (54 + j) := Nat.pow_lt_pow_right (by omega) (by omega)
  rw [eq]
  change Counts _ _ (Float.Model.pack _).unpack
  rwa [counts.stored small (by decide)]

/-- Up to `2 ^ 53` counting by ones is exact. -/
theorem ofCount_succ {n : Nat} (pos : 0 < n) (h : n < 2 ^ 53) : ofCount n + 1 = ofCount (n + 1) := by
  obtain ⟨counts, eq⟩ := counts_count n.succ_pos h
  have sum := (unpack_count pos (Nat.le_of_lt h)).add (unpack_count Nat.one_pos (by decide))
  have hsum : units n 0 + units 1 0 = units (n + 1) 0 := (Nat.add_mul ..).symm
  rw [hsum, units, rounded_of_short h] at sum
  rw [eq, ← sum.unique counts]
  rfl

theorem total_ones {n : Nat} (pos : 0 < n) (h : n ≤ 2 ^ 53) :
    total (List.replicate n 1) = ofCount n := by
  obtain ⟨k, rfl⟩ : ∃ k, n = k + 1 := ⟨n - 1, by omega⟩
  clear pos
  induction k with
  | zero => rfl
  | succ k ih =>
    rw [List.replicate_succ', total_append, ih (by omega)]
    exact ofCount_succ k.succ_pos h

/-- The exponent of a finite double is that of the greatest one at most. -/
theorem exponent_le {b : BitVec Format.binary64.numBits} {s : Sign} {m : Nat} {e : Int}
    {pos : 0 < m} (h : UnpackedFloat.unpack .binary64 b = .finite s m e pos) : e ≤ 971 := by
  delta UnpackedFloat.unpack at h
  dsimp only at h
  by_cases hinf : unpackExponent b = -1#11
  · rw [if_pos hinf] at h
    by_cases hz : unpackMantissa b = 0#52
    · rw [if_pos hz] at h
      cases h
    · rw [if_neg hz] at h
      cases h
  rw [if_neg hinf] at h
  by_cases hz : unpackExponent b = 0#11
  · rw [if_pos hz] at h
    by_cases hm : unpackMantissa b = 0#52
    · rw [dif_pos hm] at h
      cases h
    · rw [dif_neg hm] at h
      injection h with _ _ he
      rw [hz] at he
      change (0 : Int) - (1023 + 52) + 1 = e at he
      omega
  · rw [if_neg hz] at h
    injection h with _ _ he
    change ((unpackExponent b).toNat : Int) - (1023 + 52) = e at he
    have hlt := (unpackExponent b).isLt
    have hne : (unpackExponent b).toNat ≠ 2047 := fun h => hinf (BitVec.eq_of_toNat_eq h)
    change _ < 2048 at hlt
    omega

/-- What a finite double is read as is stored as that double again. -/
theorem stored_unpack {x : Float} (h : x.isFinite = true) :
    (Float.Model.pack x.toModel.unpack).unpack = x.toModel.unpack := by
  have canonical := canonical_unpack x
  change x.toModel.unpack.isFinite = true at h
  cases hu : x.toModel.unpack with
  | infinity s => rw [hu] at h; cases h
  | notANumber => rw [hu] at h; cases h
  | zero s => cases s <;> rfl
  | finite s m e pos =>
    rw [hu] at canonical
    exact stored_of_canonical canonical (exponent_le hu)

/-- What is added to zero can be taken off again. -/
theorem zero_add_sub_self {x : Float} (h : x.isFinite = true) : 0 + x - x = 0 := by
  have hs : 0 + x - x = Float.ofModel (.pack (.sub .binary64
      (Float.Model.pack (.add .binary64 (.zero .positive) x.toModel.unpack)).unpack
      x.toModel.unpack)) := rfl
  have finite := h
  change x.toModel.unpack.isFinite = true at h
  cases hu : x.toModel.unpack with
  | infinity s => rw [hu] at h; cases h
  | notANumber => rw [hu] at h; cases h
  | zero s =>
    rw [hs, hu]
    cases s <;> rfl
  | finite s m e pos =>
    have added : UnpackedFloat.add .binary64 (.zero .positive) x.toModel.unpack =
        x.toModel.unpack := by
      rw [hu]
      rfl
    rw [hs, added, stored_unpack finite]
    exact sub_self finite

/-- The mean of as many ones is one. -/
theorem logMeanExp_zeros {n : Nat} (pos : 0 < n) (h : n ≤ 2 ^ 53) :
    logMeanExp (List.replicate n 0) = 0 := by
  have hp : possible (List.replicate n 0) = List.replicate n 0 :=
    List.filter_eq_self.mpr fun w hw => by
      rw [List.eq_of_mem_replicate hw]
      decide
  have hg : greatest (List.replicate n 0) = 0 := greatest_replicate pos (by decide)
  have hm : (List.replicate n (0 : Float)).map (fun w => exp (w - 0)) = List.replicate n 1 := by
    rw [List.map_replicate]
    rfl
  have hl : logSumExp (List.replicate n 0) = 0 + ln (ofCount n) := by
    unfold logSumExp
    dsimp only
    rw [hp, hg, hm, total_ones pos h]
    rfl
  obtain ⟨k, rfl⟩ : ∃ k, n = k + 1 := ⟨n - 1, by omega⟩
  change logSumExp (List.replicate (k + 1) 0) - ln (ofCount (0 :: List.replicate k 0).length) = 0
  rw [hl, List.length_cons, List.length_replicate]
  exact zero_add_sub_self (ln_count_finite pos (h.trans_lt (by decide)))

end Posterior.Numeric
