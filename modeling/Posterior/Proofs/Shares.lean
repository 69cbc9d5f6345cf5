import Posterior.Proofs.Exponents
import Posterior.Proofs.SampleAccounts

/-!
Shares of a whole. A number that is no greater than another one above zero has a finite quotient by
it, and no term of a finite sum of numbers that are not below zero is greater than the sum; so the
probabilities of a distribution that could be normalised are finite, whatever the masses were.
-/

namespace Posterior

open Numeric

namespace Numeric

open Float.Model Float.Model.UnpackedFloat

section
variable {m n : Nat} {x y : Float} {xs : List Float}

theorem Amount.div_finite (hx : Amount m x) (hy : Amount n y) (pos : 0 < n) (h : m ≤ n) :
    (x / y).isFinite = true := by
  rcases hy with ⟨rfl, _⟩ | ⟨b, e, pb, hy, canonical', rfl⟩
  · cases pos
  rw [hy] at canonical'
  have below : Below (b.log2 + e + 1) x := by
    unfold Below
    rcases hx with ⟨_, s, hx⟩ | ⟨a, d, pa, hx, canonical, rfl⟩
    · rw [hx]
      trivial
    · rw [hx] at canonical ⊢
      have := log2_units pa canonical.2.1
      have := log2_units pb canonical'.2.1
      have := log2_mono h
      change (a.log2 : Int) + d < b.log2 + e + 1
      omega
  exact (below.div hy (Int.le_refl _) (by decide) (by decide)).isFinite

/-- A finite number that is not below zero is so many units. -/
theorem exists_amount (finite : x.isFinite = true) (sign : ¬ x < 0) : ∃ n, Amount n x := by
  rw [not_lt_zero_iff] at sign
  have canonical := canonical_unpack x
  change x.toModel.unpack.isFinite = true at finite
  cases hu : x.toModel.unpack with
  | infinity s => rw [hu] at finite; cases finite
  | notANumber => rw [hu] at finite; cases finite
  | zero s => exact ⟨0, .inl ⟨rfl, s, hu⟩⟩
  | finite s m e pos =>
    rw [hu] at sign canonical
    obtain rfl : s = .positive := sign
    exact ⟨units m e, .inr ⟨m, e, pos, hu, hu ▸ canonical, rfl⟩⟩

theorem Amount.lt_limit (h : Amount n x) : n < 2 ^ (53 + lastDigit) := by
  have below (k : Nat) : (2 ^ 53 - 1) * 2 ^ k < 2 ^ (53 + k) := by
    rw [Nat.pow_add]
    exact Nat.mul_lt_mul_of_pos_right (by omega) (Nat.two_pow_pos k)
  rcases h with ⟨rfl, _⟩ | ⟨m, e, pos, hx, canonical, rfl⟩
  · exact Nat.two_pow_pos _
  · rw [hx] at canonical
    exact (units_le canonical.1 (exponent_le hx)).trans_lt (below lastDigit)

/-- A sum that is finite is the rounded one. -/
theorem Amount.add_finite (hx : Amount m x) (hy : Amount n y) (finite : (x + y).isFinite = true) :
    Amount (rounded (m + n)) (x + y) := by
  have limit : 53 + lastDigit ≤ 2098 := by decide
  rcases hx with ⟨rfl, hx⟩ | hx
  · have small : rounded (0 + n) < 2 ^ (53 + lastDigit) := by
      rw [Nat.zero_add, hy.exact]
      exact hy.lt_limit
    exact Amount.add (.inl ⟨rfl, hx⟩) hy small limit
  rcases hy with ⟨rfl, hy⟩ | hy
  · have small : rounded (m + 0) < 2 ^ (53 + lastDigit) := by
      rw [Nat.add_zero, hx.exact]
      exact Amount.lt_limit (.inr hx)
    exact Amount.add (.inr hx) (.inl ⟨rfl, hy⟩) small limit
  · have sum := hx.add hy
    refine .inr ?_
    change (Float.Model.pack (.add .binary64 x.toModel.unpack y.toModel.unpack)).unpack.isFinite =
      true at finite
    change Numeric.Counts _ _ (Float.Model.pack (.add .binary64 x.toModel.unpack
      y.toModel.unpack)).unpack
    rcases sum.stored_or_infinite with stored | infinite
    · rw [stored]
      exact sum
    · rw [infinite] at finite
      cases finite

/-- No term of a finite sum of numbers that are not below zero is greater than the sum. -/
theorem Amount.foldl_finite (hx : Amount m x) (signs : ∀ v ∈ xs, ¬ v < 0)
    (finite : (xs.foldl (· + ·) x).isFinite = true) :
    ∃ k, Amount k (xs.foldl (· + ·) x) ∧ m ≤ k ∧ ∀ v ∈ xs, ∃ n, Amount n v ∧ n ≤ k := by
  induction xs generalizing m x with
  | nil => exact ⟨m, hx, Nat.le_refl m, nofun⟩
  | cons v vs ih =>
    obtain ⟨sign, signs⟩ := List.forall_mem_cons.mp signs
    change (vs.foldl (· + ·) (x + v)).isFinite = true at finite
    have whole : (x + v).isFinite = true := (finite_of_foldl finite).1
    obtain ⟨n, hv⟩ := exists_amount (finite_of_add whole).2 sign
    obtain ⟨k, sum, more, others⟩ := ih (hx.add_finite hv whole) signs finite
    have first : rounded m ≤ rounded (m + n) := rounded_mono (Nat.le_add_right m n)
    have second : rounded n ≤ rounded (m + n) := rounded_mono (Nat.le_add_left n m)
    rw [hx.exact] at first
    rw [hv.exact] at second
    exact ⟨k, sum, first.trans more, List.forall_mem_cons.mpr ⟨⟨n, hv, second.trans more⟩, others⟩⟩

/-- A share of a finite sum above zero is finite. -/
theorem share_finite (signs : ∀ v ∈ xs, ¬ v < 0) (pos : 0 < total xs)
    (finite : (total xs).isFinite = true) : ∀ v ∈ xs, (v / total xs).isFinite = true := by
  intro v hv
  have start : Amount 0 (-0.0) := .inl ⟨rfl, .negative, rfl⟩
  obtain ⟨k, sum, -, terms⟩ := start.foldl_finite signs finite
  obtain ⟨n, amount, part⟩ := terms v hv
  refine amount.div_finite sum (Nat.pos_of_ne_zero fun none => ?_) part
  subst none
  have nothing : Amount 0 (0 : Float) := .inl ⟨rfl, .positive, rfl⟩
  exact nothing.not_lt sum (Nat.le_refl 0) pos

theorem add_sign (hx : ¬ x < 0) (hy : ¬ y < 0) : ¬ x + y < 0 :=
  not_lt_zero_iff.mpr (leans_add (not_lt_zero_iff.mp hx) (not_lt_zero_iff.mp hy)).stored

theorem total_sign (signs : ∀ v ∈ xs, ¬ v < 0) : ¬ total xs < 0 :=
  List.foldlRecOn (motive := fun sum => ¬ sum < 0) xs _ (by decide)
    fun _ sum v hv => add_sign sum (signs v hv)

theorem exp_sign (x : Float) : ¬ exp x < 0 := by
  cases h : x.isNaN with
  | true =>
    unfold exp
    rw [if_pos h]
    decide
  | false => exact (exp_above h).sign

end

end Numeric

namespace Histogram

theorem addMass_signs {value : Value} {mass : Float} {buckets : List (Value × Float)}
    (added : ¬ mass < 0) (h : ∀ b ∈ buckets, ¬ b.2 < 0) :
    ∀ b ∈ addMass value mass buckets, ¬ b.2 < 0 := by
  induction buckets with
  | nil => exact List.forall_mem_singleton.mpr (add_sign (by decide) added)
  | cons bucket rest ih =>
    obtain ⟨first, others⟩ := List.forall_mem_cons.mp h
    unfold addMass
    split
    · exact List.forall_mem_cons.mpr ⟨add_sign first added, others⟩
    · exact List.forall_mem_cons.mpr ⟨first, ih others⟩

theorem gather_signs {rows : List (Value × Float)} (h : ∀ row ∈ rows, ¬ row.2 < 0) :
    ∀ b ∈ (gather rows).buckets, ¬ b.2 < 0 := by
  induction rows using List.reverseRecOn with
  | nil => exact nofun
  | append_singleton rows row ih =>
    obtain ⟨before, last⟩ := List.forall_mem_append.mp h
    rw [gather_concat]
    exact addMass_signs (last row List.mem_cons_self) (ih before)

end Histogram

/-- What is made of masses that are not below zero has finite probabilities. -/
theorem Empirical.MadeOf.shares_finite {d : Empirical} {rows : List (Value × Float)}
    (h : d.MadeOf rows) (signs : ∀ row ∈ rows, ¬ row.2 < 0) :
    ∀ row ∈ d.support, row.2.isFinite = true := by
  obtain ⟨base, made, support⟩ := h.support
  unfold ofHistogram at made
  split at made
  · rename_i normal
    cases made
    simp only [canNormalize, Bool.and_eq_true, decide_eq_true_eq] at normal
    obtain ⟨⟨_, pos⟩, finite⟩ := normal
    have masses : ∀ v ∈ (Histogram.gather rows).buckets.map (·.2), ¬ v < 0 :=
      List.forall_mem_map.mpr (Histogram.gather_signs signs)
    rw [support]
    refine List.forall_mem_map.mpr fun b hb => ?_
    exact share_finite masses pos finite _ (List.mem_map_of_mem hb)
  · cases made

end Posterior
