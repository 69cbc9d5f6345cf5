import Posterior.Proofs.ImpossibleEntries

/-!
Log-sums of finite numbers are finite. Differences from the greatest entry are not above zero, so their
exponentials are small, and a sum of small numbers is finite, however many they are. The share of a
count in a whole is small as well, and leaves a finite number finite.
-/

namespace Posterior.Numeric

open Float.Model Float.Model.UnpackedFloat

section
variable {x y : Float} {k : Int} {n : Nat} {ws : List Float}

theorem Below.sub (hx : Below k x) (hy : Below k y) (low : -1074 ≤ k) (small : k ≤ 970) :
    Below (k + 2) (x - y) := by
  have finite := (finite_of_slight hx.isFinite (hy.slight low small)).2
  have difference := unitsOf_sub finite
  rw [below_iff_unitsOf hx.isFinite low] at hx
  rw [below_iff_unitsOf hy.isFinite low] at hy
  rw [below_iff_unitsOf finite (by omega), difference, natAbs_roundedInt]
  have both : (unitsOf x - unitsOf y).natAbs ≤ 2 ^ ((k + 1074).toNat + 1) := by
    rw [Nat.pow_succ]
    omega
  exact (rounded_le both).trans_lt (Nat.pow_lt_pow_right Nat.one_lt_two (by omega))

theorem zero_of_signs (number : x.isNaN = false) (above : ¬ x < 0) (below : ¬ 0 < x) :
    (x == 0) = true := by
  rw [not_lt_zero_iff] at above
  rw [not_zero_lt_iff] at below
  rw [isNaN_eq_false_iff] at number
  change x.toModel.unpack.beq (.zero .positive) = true
  rcases hu : x.toModel.unpack with ⟨_ | _⟩ | _ | _ | ⟨_ | _⟩ <;> rw [hu] at above below number
  · cases above
  · cases below
  · exact absurd rfl number
  · rfl
  · cases above
  · cases below

/-- The exponential of a number that is not above zero is small. -/
theorem exp_below (number : x.isNaN = false) (sign : ¬ 0 < x) : Below 2 (exp x) := by
  unfold exp
  rw [if_neg (ne_true_of_eq_false number)]
  split
  · trivial
  · split
    · rename_i infinite
      rw [not_zero_lt_iff, unpack_of_posInf infinite] at sign
      cases sign
    · split
      · decide
      · split
        · decide
        · split
          · trivial
          · split
            · exact within_below (by decide) (by decide) (by decide)
            · rename_i nonzero _ _ nonneg
              exact absurd (zero_of_signs number nonneg sign) nonzero

/-- A sum of slight numbers is finite, however many they are. -/
theorem total_finite (h : ∀ w ∈ ws, Slight w.toModel.unpack) : (total ws).isFinite = true := by
  refine List.foldlRecOn (motive := fun sum : Float => sum.isFinite = true) ws _ (by decide) ?_
  intro sum finite w hw
  rw [sum_comm]
  exact (finite_of_slight finite (h w hw)).1

theorem foldl_larger_finite (hx : x.isFinite = true) (h : ∀ w ∈ ws, w.isFinite = true) :
    (ws.foldl larger x).isFinite = true ∧ unitsOf x ≤ unitsOf (ws.foldl larger x) ∧
      ∀ w ∈ ws, unitsOf w ≤ unitsOf (ws.foldl larger x) := by
  induction ws generalizing x with
  | nil => exact ⟨hx, Int.le_refl _, nofun⟩
  | cons w ws ih =>
    obtain ⟨hw, hws⟩ := List.forall_mem_cons.mp h
    have larger : (larger x w).isFinite = true ∧ unitsOf x ≤ unitsOf (larger x w) ∧
        unitsOf w ≤ unitsOf (larger x w) := by
      unfold Numeric.larger
      split
      · rename_i less
        exact ⟨hw, ((lt_iff_unitsOf hx hw).mp less).le, Int.le_refl _⟩
      · rename_i less
        rw [lt_iff_unitsOf hx hw] at less
        exact ⟨hx, Int.le_refl _, Int.not_lt.mp less⟩
    obtain ⟨finite, first, second⟩ := larger
    obtain ⟨whole, top, others⟩ := ih finite hws
    exact ⟨whole, first.trans top, List.forall_mem_cons.mpr ⟨second.trans top, others⟩⟩

/-- No finite entry is above the greatest of finite ones. -/
theorem not_greatest_lt (h : ∀ w ∈ ws, w.isFinite = true) : ∀ w ∈ ws, ¬ greatest ws < w := by
  cases ws with
  | nil => exact nofun
  | cons v vs =>
    obtain ⟨first, others⟩ := List.forall_mem_cons.mp h
    obtain ⟨finite, top, rest⟩ := foldl_larger_finite first others
    have whole : greatest (v :: vs) = vs.foldl larger v := by
      rw [greatest, List.foldl_cons, larger, if_pos (negInf_lt_of_finite first)]
    intro w hw
    rw [whole, lt_iff_unitsOf finite (h w hw), Int.not_lt]
    exact (List.forall_mem_cons (p := fun w => unitsOf w ≤ _)).mpr ⟨top, rest⟩ w hw

/-- Entries that are impossible or finite. -/
def BelowInfinity (ws : List Float) : Prop := ∀ w ∈ ws, (w == negInf) = true ∨ w.isFinite = true

theorem BelowInfinity.possible (h : BelowInfinity ws) : ∀ w ∈ possible ws, w.isFinite = true := by
  intro w hw
  obtain ⟨hw, possible⟩ := List.mem_filter.mp hw
  refine (h w hw).resolve_left (ne_true_of_eq_false ?_)
  exact isPossible_iff.mp possible

theorem BelowInfinity.numbers (h : BelowInfinity ws) : ∀ w ∈ ws, w.isNaN = false := by
  intro w hw
  rcases h w hw with lost | finite
  · rw [isNaN_eq_false_iff, unpack_of_negInf lost]
    exact nofun
  · exact number_of_finite finite

/-- The log-sum of entries that are impossible or finite is finite as soon as one of them is. -/
theorem BelowInfinity.logSumExp (h : BelowInfinity ws) (some : ∃ w ∈ ws, w.isFinite = true) :
    (Numeric.logSumExp ws).isFinite = true := by
  obtain ⟨v, hv, finite⟩ := some
  have some : negInf < greatest ws := negInf_lt_greatest.mpr ⟨v, hv, negInf_lt_of_finite finite⟩
  have top : (greatest ws).isFinite = true := by
    refine (h _ (greatest_mem some)).resolve_left fun lost => ?_
    exact (negInf_lt_iff.mp some).2 (beq_negInf_iff.mp lost)
  have least := not_greatest_lt h.possible
  rw [greatest_possible] at least
  have one := one_le_exponentials h.numbers some top
  have sum : (total ((Numeric.possible ws).map fun w => exp (w - greatest ws))).isFinite = true := by
    refine total_finite (List.forall_mem_map.mpr fun w hw => ?_)
    have number := sub_finite (number_of_finite (h.possible w hw)) top
    exact (exp_below number (not_zero_lt_sub (least w hw))).slight (by decide) (by decide)
  have slight := (ln_slight one).resolve_left fun infinite => ne_true_of_eq_false infinite.1 sum
  rw [logSumExp_eq, if_neg (ne_true_of_eq_false (negInf_ne_of_finite top)),
    if_neg (ne_true_of_eq_false (posInf_ne_of_finite top)), sum_comm]
  exact (finite_of_slight top slight).1

theorem pos_of_one_le (h : 1 ≤ x) : 0 < x := by
  rcases one_le_iff.mp h with infinite | ⟨n, counts, _⟩
  · rw [lt_iff, infinite]
    rfl
  · exact Amount.pos (.inr counts) counts.pos

theorem finite_of_one_le (h : 1 ≤ x) (bounded : (x == posInf) = false) : x.isFinite = true := by
  refine finite_of_number (not_nan_of_le h).2 bounded (Bool.eq_false_iff.mpr fun lost => ?_)
  exact (lost_of_negInf lost).not_possible (negInf_lt_of_lt (pos_of_one_le h))

theorem exists_amount_ofCount (n : Nat) :
    ∃ m, Amount (rounded (units m 0)) (ofCount n) ∧ m < 2 ^ 64 := by
  have small : n % UInt64.size < UInt64.size := Nat.mod_lt n (by decide)
  exact ⟨_, ofCount_mod n ▸ amount_ofCount small, small⟩

theorem ofCount_slight (n : Nat) : Slight (ofCount n).toModel.unpack := by
  obtain ⟨m, amount, small⟩ := exists_amount_ofCount n
  have few : 2 * rounded (units m 0) < 2 ^ lastDigit := by
    have limit : 64 + ((0 : Int) + 1074).toNat + 1 < lastDigit := by decide
    unfold units
    generalize ((0 : Int) + 1074).toNat = j at limit ⊢
    have most : m * 2 ^ j ≤ 2 ^ (64 + j) := by
      rw [Nat.pow_add]
      exact Nat.mul_le_mul_right _ small.le
    calc 2 * rounded (m * 2 ^ j) ≤ 2 * 2 ^ (64 + j) := Nat.mul_le_mul_left 2 (rounded_le most)
      _ = 2 ^ (64 + j + 1) := (Nat.pow_succ').symm
      _ < 2 ^ lastDigit := Nat.pow_lt_pow_right Nat.one_lt_two limit
  rcases amount with ⟨_, s, zero⟩ | ⟨a, e, pos, finite, _, same⟩
  · rw [zero]
    trivial
  · rw [finite]
    rwa [← same] at few

/-- A count and a finite number from one on have a finite sum from one on. -/
theorem ofCount_add (one : 1 ≤ x) (finite : x.isFinite = true) (n : Nat) :
    (ofCount n + x).isFinite = true ∧ 1 ≤ ofCount n + x := by
  have sum := (finite_of_slight finite (ofCount_slight n)).1
  refine ⟨sum, ?_⟩
  obtain ⟨m, amount, more⟩ : ∃ m, Amount m x ∧ units 1 0 ≤ m := by
    rcases one_le_iff.mp one with infinite | ⟨m, counts, more⟩
    · exact absurd finite (ne_true_of_eq_false (not_finite_of_infinite (.inl infinite)))
    · exact ⟨m, .inr counts, more⟩
  obtain ⟨k, count, _⟩ := exists_amount_ofCount n
  have unit : Amount (rounded (units 1 0)) 1 := amount_ofCount (n := 1) (by decide)
  have whole := (count.add_finite amount sum).not_lt unit (rounded_mono (Nat.le_add_left_of_le more))
  exact le_of_not_lt (by decide) (number_of_finite sum) whole

theorem ln_zero {s : Sign} (h : x.toModel.unpack = .zero s) : ln x = negInf := by
  have number : x.isNaN = false := by
    rw [isNaN_eq_false_iff, h]
    exact nofun
  have sign : ¬ x < 0 := by
    rw [not_lt_zero_iff, h]
    trivial
  have zero : (x == 0) = true := by
    change x.toModel.unpack.beq (.zero .positive) = true
    rw [h]
    rfl
  unfold ln
  simp only [number, eq_false sign, zero, decide_false, Bool.or_false, Bool.false_eq_true, ↓reduceIte]

/-- The logarithm of a count is not far from zero, unless it is impossible. -/
theorem ln_ofCount (n : Nat) : ln (ofCount n) = negInf ∨ Below 10 (ln (ofCount n)) := by
  obtain ⟨m, amount, _⟩ := exists_amount_ofCount n
  rcases amount with ⟨_, s, zero⟩ | counts
  · exact .inl (ln_zero zero)
  · exact .inr (ln_below (Amount.pos (.inr counts) counts.pos) (ofCount_finite n))

/-- What is impossible stays so when finite numbers are taken off and added. -/
theorem negInf_sub_add (hx : x.isFinite = true) (hy : y.isFinite = true) :
    (negInf - x + y == negInf) = true := by
  have difference : Lost (negInf - x) := (Infinite.sub (.inl rfl) _).stored
  have lost : Lost (negInf - x + y) := (Infinite.add difference _).stored
  have number : (negInf - x + y).isNaN = false := by
    rw [sum_comm]
    exact finite_add hy (sub_finite (by decide) hx)
  exact lost.score.resolve_right (ne_true_of_eq_false number)

end

end Posterior.Numeric
