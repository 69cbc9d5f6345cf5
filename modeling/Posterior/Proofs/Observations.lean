import Mathlib.Data.List.Basic
import Mathlib.Data.List.Induction
import Posterior.Distribution.Empirical
import Posterior.Proofs.Rounding

/-!
Histograms of values that have been observed one by one. Their masses are counts, rounded once they
are too large to be counted exactly, so that however much is observed the masses can be shared out.
-/

namespace Posterior

open Numeric

namespace Numeric

/-- One is so many units; a sum of rounded counts stays among the finite doubles. -/
theorem amount_one : ∃ j, j + 109 ≤ 2098 ∧ Amount (2 ^ j) 1 := by
  have h : Amount (rounded (units 1 0)) 1 := amount_ofCount (n := 1) (by decide)
  have hu : units 1 0 = 2 ^ ((0 : Int) + 1074).toNat := Nat.one_mul _
  rw [hu, rounded_two_pow] at h
  exact ⟨_, by decide, h⟩

variable {j m n : Nat} {x y : Float}

/-- A mass that has grown by ones, in units of which one is `2 ^ j`. -/
def Tallied (j : Nat) (x : Float) : Prop := ∃ n, Amount n x ∧ 2 ^ j ≤ n ∧ n ≤ 2 ^ (j + 54)

theorem Amount.grow (hj : j + 109 ≤ 2098) (one : Amount (2 ^ j) 1) (h : Amount n x)
    (hn : n ≤ 2 ^ (j + 54)) : Tallied j (x + 1) := by
  have hle : rounded (n + 2 ^ j) ≤ 2 ^ (j + 54) :=
    rounded_absorbs hn (Nat.le_refl _) (Nat.le_refl _)
  refine ⟨rounded (n + 2 ^ j), h.add (k := j + 55) one ?_ (by omega), ?_, hle⟩
  · exact hle.trans_lt (Nat.pow_lt_pow_right (by omega) (by omega))
  · calc 2 ^ j = rounded (2 ^ j) := one.exact.symm
      _ ≤ rounded (n + 2 ^ j) := rounded_mono (Nat.le_add_left ..)

/-- The sum of tallied masses is finite, and above zero unless there are none. -/
theorem total_tallied (hj : j + 109 ≤ 2098) {xs : List Float} (h : ∀ x ∈ xs, Tallied j x) :
    ∃ n, Amount n (total xs) ∧ n ≤ 2 ^ (j + 108) ∧ (xs ≠ [] → 0 < n) := by
  -- A total within the bound absorbs the next mass, so the bound is kept however many there are.
  induction xs using List.reverseRecOn with
  | nil => exact ⟨0, .inl ⟨rfl, .negative, by rfl⟩, Nat.zero_le _, fun h => absurd rfl h⟩
  | append_singleton xs x ih =>
    obtain ⟨m, hm, hle, _⟩ := ih fun y hy => h y (List.mem_append_left _ hy)
    obtain ⟨n, hn, hpos, hbound⟩ := h x (by simp)
    have hsum : rounded (m + n) ≤ 2 ^ (j + 108) := rounded_absorbs hle hbound (by omega)
    refine ⟨rounded (m + n), ?_, hsum, fun _ => ?_⟩
    · rw [total_append]
      exact hm.add (k := j + 109) hn
        (hsum.trans_lt (Nat.pow_lt_pow_right (by omega) (by omega))) hj
    · have := Nat.two_pow_pos j
      exact rounded_pos (by omega)

end Numeric

namespace Histogram

variable {j : Nat}

theorem addMass_tallied (hj : j + 109 ≤ 2098) (one : Amount (2 ^ j) 1) (value : Value)
    {buckets : List (Value × Float)} (h : ∀ b ∈ buckets, Tallied j b.2) :
    ∀ b ∈ addMass value 1 buckets, Tallied j b.2 := by
  induction buckets with
  | nil =>
    intro b hb
    obtain rfl := List.mem_singleton.mp hb
    exact Amount.grow hj one (.inl ⟨rfl, .positive, by rfl⟩) (Nat.zero_le _)
  | cons bucket rest ih =>
    obtain ⟨v, m⟩ := bucket
    have hrest : ∀ b ∈ rest, Tallied j b.2 := fun b hb => h b (List.mem_cons_of_mem _ hb)
    obtain ⟨n, hm, _, hn⟩ := h (v, m) (List.mem_cons_self ..)
    intro b hb
    unfold addMass at hb
    split at hb <;> rcases List.mem_cons.mp hb with rfl | hb
    · exact Amount.grow hj one hm hn
    · exact hrest b hb
    · exact h _ (List.mem_cons_self ..)
    · exact ih hrest b hb

theorem observeAll_append (h : Histogram) (values more : List Value) :
    h.observeAll (values ++ more) = (h.observeAll values).observeAll more :=
  List.foldl_append ..

theorem observeAll_concat (h : Histogram) (values : List Value) (value : Value) :
    h.observeAll (values ++ [value]) = (h.observeAll values).observe value :=
  observeAll_append h values [value]

theorem observeAll_tallied (hj : j + 109 ≤ 2098) (one : Amount (2 ^ j) 1) (values : List Value) :
    ∀ b ∈ (empty.observeAll values).buckets, Tallied j b.2 := by
  induction values using List.reverseRecOn with
  | nil => exact fun b hb => nomatch hb
  | append_singleton values value ih =>
    rw [observeAll_concat]
    exact addMass_tallied hj one value ih

theorem addMass_ne_nil (value : Value) (mass : Float) (buckets : List (Value × Float)) :
    addMass value mass buckets ≠ [] := by
  unfold addMass
  split
  · simp
  · split <;> simp

theorem buckets_observeAll {values : List Value} (h : values ≠ []) :
    (empty.observeAll values).buckets ≠ [] := by
  obtain ⟨before, value, rfl⟩ := (List.eq_nil_or_concat' values).resolve_left h
  rw [observeAll_concat]
  exact addMass_ne_nil value 1 _

theorem canNormalize_of_tallied (hj : j + 109 ≤ 2098) {h : Histogram}
    (tallied : ∀ b ∈ h.buckets, Tallied j b.2) (hne : h.buckets ≠ []) :
    Empirical.canNormalize h = true := by
  have hm : ∀ x ∈ h.buckets.map (·.2), Tallied j x := by
    intro x hx
    obtain ⟨b, hb, rfl⟩ := List.mem_map.mp hx
    exact tallied b hb
  obtain ⟨n, hn, _, hpos⟩ := total_tallied hj hm
  have hpos : 0 < n := hpos (by simpa using hne)
  have hempty : h.buckets.isEmpty = false := by simpa using hne
  unfold Empirical.canNormalize total
  rw [hempty, hn.isFinite, decide_eq_true (hn.pos hpos)]
  rfl

end Histogram

/-- Whatever has been observed, there is a distribution of it. -/
theorem Empirical.ofHistogram_observeAll {values : List Value} (h : values ≠ []) :
    ∃ d, ofHistogram (Histogram.empty.observeAll values) = .ok d := by
  obtain ⟨j, hj, one⟩ := amount_one
  have hc := Histogram.canNormalize_of_tallied hj (Histogram.observeAll_tallied hj one values)
    (Histogram.buckets_observeAll h)
  unfold ofHistogram
  rw [if_pos hc]
  exact ⟨_, rfl⟩

end Posterior
