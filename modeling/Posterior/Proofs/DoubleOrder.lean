import Posterior.Proofs.Doubles

/-!
The order of doubles. Sums of doubles that are not above zero are not above zero, and a
difference is not below zero unless its first number is the smaller one: rounding carries no number
across zero. The log-sum of weights is not finite once one of them is positive infinity, and the
greatest of equal weights is any of them.
-/

namespace Posterior.Numeric

open Float.Model Float.Model.UnpackedFloat

variable {s : Sign} {x y : UnpackedFloat}

/-- The significand and the exponent of a finite double: one below the least normal significand has
the least exponent. -/
theorem unpack_finite {b : BitVec Format.binary64.numBits} {m : Nat} {e : Int} {pos : 0 < m}
    (h : UnpackedFloat.unpack .binary64 b = .finite s m e pos) :
    m < 9007199254740992 ∧ -1074 ≤ e ∧ (e = -1074 ∨ 4503599627370496 ≤ m) := by
  delta UnpackedFloat.unpack at h
  dsimp only at h
  have hm : (unpackMantissa b).toNat < 4503599627370496 := (unpackMantissa b).isLt
  by_cases hinf : unpackExponent b = -1#11
  · rw [if_pos hinf] at h
    by_cases hz : unpackMantissa b = 0#52
    · rw [if_pos hz] at h
      cases h
    · rw [if_neg hz] at h
      cases h
  rw [if_neg hinf] at h
  by_cases hz : unpackExponent b = 0#11
  · rw [if_pos hz] at h
    by_cases hm0 : unpackMantissa b = 0#52
    · rw [dif_pos hm0] at h
      cases h
    · rw [dif_neg hm0] at h
      injection h with _ hm' he'
      rw [hz] at he'
      change (0 : Int) - (1023 + 52) + 1 = e at he'
      omega
  · rw [if_neg hz] at h
    injection h with _ hm' he'
    have hp : (unpackExponent b).toNat ≠ 0 := by
      intro h0
      exact hz (BitVec.eq_of_toNat_eq (by simpa using h0))
    change ((unpackExponent b).toNat : Int) - (1023 + 52) = e at he'
    have hv : 4503599627370496 + (unpackMantissa b).toNat = m := by
      rw [← hm', BitVec.toNat_append]
      exact Nat.shiftLeft_add_eq_or_of_lt (i := 52) hm 1
    omega

/-- No number on the other side of zero. -/
def Leans (s : Sign) : UnpackedFloat → Prop
  | .infinity sign => sign = s
  | .notANumber => True
  | .zero _ => True
  | .finite sign _ _ _ => sign = s

theorem Signed.leans (h : Signed s x) : Leans s x := by
  cases x <;> trivial

theorem Leans.stored (h : Leans s x) : Leans s (Float.Model.pack x).unpack := by
  cases x with
  | infinity sign => exact (Signed.stored (x := .infinity sign) h).leans
  | notANumber => trivial
  | zero sign => cases sign <;> trivial
  | finite sign m e pos => exact (Signed.stored (x := .finite sign m e pos) h).leans

theorem lt_zero_eq_false_iff {t : Sign} : x.lt (.zero t) = false ↔ Leans .positive x := by
  rcases x with ⟨_ | _⟩ | _ | _ | ⟨_ | _⟩ <;>
    first
    | exact iff_of_true rfl rfl
    | exact iff_of_true rfl trivial
    | exact iff_of_false (nomatch ·) (nomatch ·)

theorem zero_lt_eq_false_iff {t : Sign} :
    UnpackedFloat.lt (.zero t) x = false ↔ Leans .negative x := by
  rcases x with ⟨_ | _⟩ | _ | _ | ⟨_ | _⟩ <;>
    first
    | exact iff_of_true rfl rfl
    | exact iff_of_true rfl trivial
    | exact iff_of_false (nomatch ·) (nomatch ·)

theorem lt_iff {x y : Float} : x < y ↔ x.toModel.unpack.lt y.toModel.unpack = true :=
  decide_eq_true_iff

theorem not_lt_iff {x y : Float} : ¬ x < y ↔ x.toModel.unpack.lt y.toModel.unpack = false := by
  rw [← Bool.not_eq_true, lt_iff]

theorem not_lt_zero_iff {x : Float} : ¬ x < 0 ↔ Leans .positive x.toModel.unpack := by
  rw [not_lt_iff, unpack_zero, lt_zero_eq_false_iff]

theorem not_zero_lt_iff {x : Float} : ¬ 0 < x ↔ Leans .negative x.toModel.unpack := by
  rw [not_lt_iff, unpack_zero, zero_lt_eq_false_iff]

theorem leans_normalize {format : Format} {m e : Int} (h : 0 ≤ s.apply m) :
    Leans s (UnpackedFloat.normalize format m e .positive) := by
  unfold UnpackedFloat.normalize
  split
  · rename_i hm
    rw [Int.compare_eq_lt] at hm
    cases s with
    | negative => exact (signed_round ..).leans
    | positive =>
      change 0 ≤ m at h
      omega
  · trivial
  · rename_i hm
    rw [Int.compare_eq_gt] at hm
    cases s with
    | positive => exact (signed_round ..).leans
    | negative =>
      change 0 ≤ -m at h
      omega

theorem apply_add_nonneg (s : Sign) (a b : Nat) :
    0 ≤ s.apply (s.apply (a : Int) + s.apply (b : Int)) := by
  cases s <;> simp only [Sign.apply] <;> omega

theorem leans_add {format : Format} (hx : Leans s x) (hy : Leans s y) :
    Leans s (UnpackedFloat.add format x y) := by
  cases x with
  | notANumber => cases y <;> trivial
  | infinity sign =>
    obtain rfl : sign = s := hx
    cases y with
    | infinity sign' =>
      obtain rfl : sign' = sign := hy
      cases sign' <;> rfl
    | notANumber => trivial
    | zero sign' => rfl
    | finite sign' m e pos => rfl
  | zero sign =>
    cases y with
    | zero sign' => cases sign <;> cases sign' <;> trivial
    | infinity sign' => exact hy
    | notANumber => trivial
    | finite sign' m e pos => exact hy
  | finite sign m e pos =>
    obtain rfl : sign = s := hx
    cases y with
    | zero sign' => rfl
    | infinity sign' => exact hy
    | notANumber => trivial
    | finite sign' m' e' pos' =>
      obtain rfl : sign' = sign := hy
      exact leans_normalize (apply_add_nonneg sign' _ _)

theorem not_zero_lt_add {x y : Float} (hx : ¬ 0 < x) (hy : ¬ 0 < y) : ¬ 0 < x + y :=
  not_zero_lt_iff.mpr (leans_add (not_zero_lt_iff.mp hx) (not_zero_lt_iff.mp hy)).stored

theorem Leans.lt_eq_false (hx : Leans .positive x) (hy : Leans .negative y) : x.lt y = false := by
  cases y with
  | infinity s =>
    obtain rfl : s = .negative := hy
    rcases x with ⟨_ | _⟩ | _ | _ | ⟨_ | _⟩ <;> rfl
  | notANumber => cases x <;> rfl
  | zero s => exact lt_zero_eq_false_iff.mpr hx
  | finite s m e pos =>
    obtain rfl : s = .negative := hy
    cases x with
    | infinity s =>
      obtain rfl : s = .positive := hx
      rfl
    | notANumber => rfl
    | zero s => rfl
    | finite s m e pos =>
      obtain rfl : s = .positive := hx
      rfl

/-- What is above a number that is not below zero is above zero. -/
theorem pos_of_lt {x y : Float} (hx : ¬ x < 0) (h : x < y) : 0 < y :=
  Classical.byContradiction fun hy =>
    not_lt_iff.mpr ((not_lt_zero_iff.mp hx).lt_eq_false (not_zero_lt_iff.mp hy)) h

theorem unsigned_of_pos {x : Float} (h : 0 < x) : Unsigned x.toModel.unpack := by
  have hl : UnpackedFloat.lt (.zero .positive) x.toModel.unpack = true := lt_iff.mp h
  rcases hu : x.toModel.unpack with ⟨_ | _⟩ | _ | _ | ⟨_ | _⟩ <;> rw [hu] at hl <;>
    first | rfl | cases hl

theorem unpack_negInf : negInf.toModel.unpack = .infinity .negative := by rfl

/-- Every number that is possible is above negative infinity. -/
theorem negInf_lt {x : Float} (hn : x.isNaN = false) (hp : (x == negInf) = false) : negInf < x := by
  change x.toModel.unpack.isNaN = false at hn
  change x.toModel.unpack.beq (.infinity .negative) = false at hp
  rw [lt_iff, unpack_negInf]
  rcases hu : x.toModel.unpack with ⟨_ | _⟩ | _ | _ | ⟨_ | _⟩ <;> rw [hu] at hn hp
  · cases hp
  · rfl
  · cases hn
  · rfl
  · rfl
  · rfl

/-- A greater exponent outweighs any significand, if the smaller number is normal. -/
theorem shifted_le {m₁ m₂ : Nat} {e₁ e₂ : Int} (h : e₂ < e₁ ∨ e₁ = e₂ ∧ m₂ ≤ m₁)
    (hm : e₂ < e₁ → m₂ ≤ 2 * m₁) :
    m₂ <<< (e₂ - min e₁ e₂).toNat ≤ m₁ <<< (e₁ - min e₁ e₂).toNat := by
  rcases h with h | ⟨rfl, h⟩
  · rw [Int.min_eq_right (by omega), Int.sub_self]
    obtain ⟨k, hk⟩ : ∃ k, (e₁ - e₂).toNat = k + 1 := ⟨(e₁ - e₂).toNat - 1, by omega⟩
    rw [hk, Nat.shiftLeft_eq, Nat.shiftLeft_eq]
    calc m₂ * 2 ^ (0 : Int).toNat = m₂ := Nat.mul_one m₂
      _ ≤ m₁ * 2 := by rw [Nat.mul_comm]; exact hm h
      _ ≤ m₁ * 2 ^ (k + 1) := Nat.mul_le_mul_left m₁ (Nat.le_self_pow (by omega) 2)
  · rw [Int.min_self, Int.sub_self]
    exact h

/-- As it stands in a double: a significand below the least normal one has the least exponent. -/
def Canonical : UnpackedFloat → Prop
  | .finite _ m e _ =>
    m < 9007199254740992 ∧ -1074 ≤ e ∧ (e = -1074 ∨ 4503599627370496 ≤ m)
  | _ => True

theorem canonical_unpack (x : Float) : Canonical x.toModel.unpack := by
  cases hu : x.toModel.unpack with
  | finite s m e pos => exact unpack_finite hu
  | _ => trivial

theorem finite_lt_eq_false {m₁ m₂ : Nat} {e₁ e₂ : Int} {p₁ : 0 < m₁} {p₂ : 0 < m₂}
    (h : UnpackedFloat.lt (.finite .positive m₁ e₁ p₁) (.finite .positive m₂ e₂ p₂) = false) :
    e₂ < e₁ ∨ e₁ = e₂ ∧ m₂ ≤ m₁ := by
  change (some ((compare e₁ e₂).then (compare m₁ m₂)) == some .lt) = false at h
  have hne : (compare e₁ e₂).then (compare m₁ m₂) ≠ .lt := by
    intro hc
    rw [hc] at h
    cases h
  rw [ne_eq, Ordering.then_eq_lt, Int.compare_eq_lt, Int.compare_eq_eq, Nat.compare_eq_lt] at hne
  omega

theorem negative_lt {m₁ m₂ : Nat} {e₁ e₂ : Int} {p₁ : 0 < m₁} {p₂ : 0 < m₂} :
    UnpackedFloat.lt (.finite .negative m₁ e₁ p₁) (.finite .negative m₂ e₂ p₂) =
      UnpackedFloat.lt (.finite .positive m₂ e₂ p₂) (.finite .positive m₁ e₁ p₁) := by
  change (some ((compare e₁ e₂).then (compare m₁ m₂)).swap == some .lt) =
    (some ((compare e₂ e₁).then (compare m₂ m₁)) == some .lt)
  rw [Ordering.swap_then, ← Std.OrientedOrd.eq_swap, ← Std.OrientedOrd.eq_swap]

theorem shifted_le_of_canonical {s t : Sign} {m₁ m₂ : Nat} {e₁ e₂ : Int} {p₁ : 0 < m₁}
    {p₂ : 0 < m₂} (hx : Canonical (.finite s m₁ e₁ p₁)) (hy : Canonical (.finite t m₂ e₂ p₂))
    (h : UnpackedFloat.lt (.finite .positive m₁ e₁ p₁) (.finite .positive m₂ e₂ p₂) = false) :
    m₂ <<< (e₂ - min e₁ e₂).toNat ≤ m₁ <<< (e₁ - min e₁ e₂).toNat := by
  refine shifted_le (finite_lt_eq_false h) fun he => ?_
  have h₁ : e₁ = -1074 ∨ 4503599627370496 ≤ m₁ := hx.2.2
  have h₂ : m₂ < 9007199254740992 := hy.1
  have h₃ : -1074 ≤ e₂ := hy.2.1
  omega

/-- Brought to the smaller exponent, the significands are in the order of the numbers. -/
theorem aligned_le {a b : Nat} {d e : Int} {pa : 0 < a} {pb : 0 < b}
    (hx : Canonical (.finite s a d pa)) (hy : Canonical (.finite t b e pb))
    (h : UnpackedFloat.lt (.finite s a d pa) (.finite t b e pb) = false) :
    t.apply (b <<< (e - min d e).toNat : Nat) ≤ s.apply (a <<< (d - min d e).toNat : Nat) := by
  cases s <;> cases t
  · rw [negative_lt] at h
    have := shifted_le_of_canonical hy hx h
    rw [Int.min_comm] at this
    simp only [Sign.apply]
    omega
  · cases h
  · exact (show ∀ m n : Nat, -(m : Int) ≤ n by omega) _ _
  · have := shifted_le_of_canonical hx hy h
    simp only [Sign.apply]
    omega

/-- A difference whose first number is not the smaller one. -/
theorem leans_sub {format : Format} (hx : Canonical x) (hy : Canonical y)
    (h : x.lt y = false) : Leans .positive (UnpackedFloat.sub format x y) := by
  cases x with
  | notANumber => cases y <;> trivial
  | infinity sign =>
    cases sign <;> rcases y with ⟨_ | _⟩ | _ | _ | _ <;> trivial
  | zero sign =>
    rcases y with ⟨_ | _⟩ | _ | sign' | ⟨_ | _⟩
    · rfl
    · cases h
    · trivial
    · cases sign <;> cases sign' <;> trivial
    · rfl
    · cases h
  | finite sign m e pos =>
    rcases y with sign' | _ | sign' | ⟨sign', m', e', pos'⟩
    · cases sign <;> cases sign' <;> first | rfl | cases h
    · trivial
    · cases sign <;> first | rfl | cases h
    · have := aligned_le hx hy h
      refine leans_normalize ?_
      change 0 ≤ (_ - _ : Int)
      omega

/-- A difference whose first number is not the greater one. -/
theorem leans_sub_negative {format : Format} (hx : Canonical x) (hy : Canonical y)
    (h : y.lt x = false) : Leans .negative (UnpackedFloat.sub format x y) := by
  cases x with
  | notANumber => cases y <;> trivial
  | infinity sign =>
    cases sign <;> rcases y with ⟨_ | _⟩ | _ | _ | ⟨_ | _⟩ <;> trivial
  | zero sign =>
    rcases y with ⟨_ | _⟩ | _ | sign' | ⟨_ | _⟩
    · cases h
    · rfl
    · trivial
    · cases sign <;> cases sign' <;> trivial
    · cases h
    · rfl
  | finite sign m e pos =>
    rcases y with ⟨_ | _⟩ | _ | sign' | ⟨sign', m', e', pos'⟩
    · cases h
    · rfl
    · trivial
    · cases sign <;> first | rfl | cases h
    · have := aligned_le hy hx h
      rw [Int.min_comm] at this
      refine leans_normalize ?_
      change 0 ≤ -(_ - _ : Int)
      omega

theorem sub_not_lt_zero {x y : Float} (h : ¬ x < y) : ¬ x - y < 0 :=
  not_lt_zero_iff.mpr
    (leans_sub (canonical_unpack x) (canonical_unpack y) (not_lt_iff.mp h)).stored

theorem not_zero_lt_sub {x y : Float} (h : ¬ y < x) : ¬ 0 < x - y :=
  not_zero_lt_iff.mpr
    (leans_sub_negative (canonical_unpack x) (canonical_unpack y) (not_lt_iff.mp h)).stored

/-- A sum of numbers none of which is above zero is not above zero. -/
theorem not_zero_lt_total {ws : List Float} (h : ∀ w ∈ ws, ¬ 0 < w) : ¬ 0 < total ws := by
  have hfold : ∀ (ws : List Float) (x : Float), ¬ 0 < x → (∀ w ∈ ws, ¬ 0 < w) →
      ¬ 0 < ws.foldl (· + ·) x := by
    intro ws
    induction ws with
    | nil => exact fun x hx _ => hx
    | cons w ws ih =>
      intro x hx h
      obtain ⟨hw, hws⟩ := List.forall_mem_cons.mp h
      exact ih _ (not_zero_lt_add hx hw) hws
  exact hfold ws (-0.0) (by decide +kernel) h

theorem Lost.not_possible {x : Float} (h : Lost x) : ¬ negInf < x := by
  rw [not_lt_iff, unpack_negInf]
  rcases h with h | h <;> rw [h] <;> rfl

theorem not_lt_of_infinite {x y : Float} (h : Infinite .positive x.toModel.unpack) : ¬ x < y := by
  rw [not_lt_iff]
  rcases h with h | h <;> rw [h] <;> rcases y.toModel.unpack with ⟨_ | _⟩ | _ | _ | _ <;> rfl

theorem infinite_of_not_lt {x y : Float} (hy : y.toModel.unpack = .infinity .positive)
    (h : ¬ x < y) : Infinite .positive x.toModel.unpack := by
  rw [not_lt_iff, hy] at h
  rcases hu : x.toModel.unpack with ⟨_ | _⟩ | _ | _ | _ <;> rw [hu] at h <;>
    first | exact .inl rfl | exact .inr rfl | cases h

theorem infinite_larger {x y : Float} (h : Infinite .positive x.toModel.unpack ∨
    y.toModel.unpack = .infinity .positive) : Infinite .positive (larger x y).toModel.unpack := by
  unfold larger
  split <;> rename_i hl
  · exact h.elim (fun h => absurd hl (not_lt_of_infinite h)) .inl
  · exact h.elim id (infinite_of_not_lt · hl)

/-- Once positive infinity has been met, the greatest entry stays infinite. -/
theorem foldl_larger {ws : List Float} {x : Float} (h : Infinite .positive x.toModel.unpack ∨
    ∃ w ∈ ws, w.toModel.unpack = .infinity .positive) :
    Infinite .positive (ws.foldl larger x).toModel.unpack := by
  induction ws generalizing x with
  | nil =>
    rcases h with h | ⟨w, hw, _⟩
    · exact h
    · cases hw
  | cons w ws ih =>
    refine ih ?_
    rcases h with h | ⟨v, hv, h⟩
    · exact .inl (infinite_larger (.inl h))
    · rcases List.mem_cons.mp hv with rfl | hv
      · exact .inl (infinite_larger (.inr h))
      · exact .inr ⟨v, hv, h⟩

theorem logSumExp_infinite {ws : List Float} (h : ∃ w ∈ ws, (w == posInf) = true) :
    Infinite .positive (logSumExp ws).toModel.unpack := by
  obtain ⟨w, hw, hz⟩ := h
  have hu := unpack_of_posInf hz
  have hp : isPossible w = true := isPossible_iff.mpr (beq_negInf_eq_false (.inl hu))
  have htop : Infinite .positive (greatest (possible ws)).toModel.unpack :=
    foldl_larger (.inr ⟨w, List.mem_filter.mpr ⟨hw, hp⟩, hu⟩)
  unfold logSumExp
  simp only [beq_negInf_eq_false htop, Bool.false_eq_true, ↓reduceIte]
  split
  · exact .inl rfl
  · exact (Infinite.add htop _).stored

theorem negInf_lt_of_finite {x : Float} (h : x.isFinite = true) : negInf < x := by
  change x.toModel.unpack.isFinite = true at h
  rw [lt_iff, unpack_negInf]
  rcases hu : x.toModel.unpack with _ | _ | _ | ⟨_ | _⟩ <;> rw [hu] at h <;>
    first | rfl | cases h

theorem larger_self (x : Float) : larger x x = x := by
  unfold larger
  split <;> rfl

/-- The greatest of equal numbers is that number. -/
theorem greatest_replicate {n : Nat} {x : Float} (pos : 0 < n) (h : negInf < x) :
    greatest (List.replicate n x) = x := by
  have hfold : ∀ k, (List.replicate k x).foldl larger x = x := by
    intro k
    induction k with
    | zero => rfl
    | succ k ih =>
      rw [List.replicate_succ, List.foldl_cons, larger_self]
      exact ih
  obtain ⟨k, rfl⟩ : ∃ k, n = k + 1 := ⟨n - 1, by omega⟩
  unfold greatest
  rw [List.replicate_succ, List.foldl_cons, show larger negInf x = x from if_pos h]
  exact hfold k

end Posterior.Numeric
