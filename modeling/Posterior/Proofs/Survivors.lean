import Posterior.Proofs.DoubleOrder
import Posterior.Proofs.Resampling

/-!
Which particles survive resampling. An impossible particle has no certain copies and no fractional
part, so it is never drawn in proportion to the fractional parts. It can only be drawn where these
come to nothing although places are left over, for the places are then filled evenly.
-/

namespace Posterior

open Numeric

namespace Rng

/-- A double word is put together again from its halves. -/
theorem halves (w : UInt64) :
    w.toUInt32.toUInt64 ||| ((w >>> 32).toUInt32.toUInt64 <<< 32) = w := by
  have hw : w.toNat < 18446744073709551616 := w.toNat_lt
  have hlow : w.toNat % 4294967296 < 4294967296 := Nat.mod_lt _ (by decide)
  have hhigh : w.toNat / 4294967296 % 4294967296 = w.toNat / 4294967296 :=
    Nat.mod_eq_of_lt (by omega)
  have hshift : w.toNat / 4294967296 * 4294967296 % 18446744073709551616 =
      w.toNat / 4294967296 * 4294967296 := Nat.mod_eq_of_lt (by omega)
  apply UInt64.toNat_inj.mp
  rw [UInt64.toNat_or, UInt64.toNat_shiftLeft, UInt32.toNat_toUInt64, UInt32.toNat_toUInt64,
    UInt64.toNat_toUInt32, UInt64.toNat_toUInt32, UInt64.toNat_shiftRight]
  change w.toNat % 4294967296 |||
    (w.toNat >>> 32 % 4294967296) <<< 32 % 18446744073709551616 = w.toNat
  rw [Nat.shiftRight_eq_div_pow, hhigh, Nat.shiftLeft_eq, hshift, Nat.or_comm,
    ← Nat.shiftLeft_eq _ 32, ← Nat.shiftLeft_add_eq_or_of_lt (i := 32) hlow, Nat.shiftLeft_eq]
  omega

/-- Scaling a word of `size` values down to `n` indices reaches each index, and does so by a product
that is barely past a multiple of `size`. -/
theorem exists_scaled {n size i : Nat} (hn : n ≤ size) (hi : i < n) :
    ∃ w < size, w * n / size = i ∧ w * n % size < n := by
  have pos : 0 < n := by omega
  obtain ⟨w, hlow, hhigh⟩ : ∃ w, i * size ≤ w * n ∧ w * n < i * size + n := by
    have hlow := Nat.lt_div_mul_add pos (a := i * size + n - 1)
    have hhigh := Nat.div_mul_le_self (i * size + n - 1) n
    exact ⟨(i * size + n - 1) / n, by omega, by omega⟩
  have hw : w * n < size * n :=
    calc w * n < i * size + size := by omega
      _ = (i + 1) * size := (Nat.succ_mul i size).symm
      _ ≤ n * size := Nat.mul_le_mul_right size hi
      _ = size * n := Nat.mul_comm n size
  obtain ⟨d, hd⟩ : ∃ d, w * n = size * i + d := ⟨w * n - i * size, by rw [Nat.mul_comm size]; omega⟩
  have hdn : d < n := by
    rw [Nat.mul_comm i] at hhigh
    omega
  refine ⟨w, Nat.lt_of_mul_lt_mul_right hw, ?_, ?_⟩
  · rw [hd, Nat.mul_add_div (by omega), Nat.div_eq_of_lt (by omega), Nat.add_zero]
  · rw [hd, Nat.mul_add_mod, Nat.mod_eq_of_lt (by omega)]
    exact hdn

theorem le_acceptBound (n : Nat) : n - 1 ≤ acceptBound n := by
  unfold acceptBound
  rw [Nat.shiftLeft_eq]
  have := Nat.le_mul_of_pos_right n (Nat.two_pow_pos (63 - n.log2))
  omega

/-- The generator whose next double word is `w`. -/
def yielding (w : UInt64) : Rng where
  key := .replicate 8 0
  ahead := [w.toUInt32, (w >>> 32).toUInt32]

theorem doubleWord_yielding (w : UInt64) : (yielding w).doubleWord.1 = w :=
  halves w

/-- Every index can be drawn: some double word is scaled to it and accepted at once. -/
theorem exists_below {n : Nat} (pos : 0 < n) (hn : n ≤ UInt64.size) (i : Fin n) :
    ∃ g : Rng, (g.below n pos).1 = i := by
  obtain ⟨w, hw, hquot, hrem⟩ := exists_scaled hn i.isLt
  refine ⟨yielding (UInt64.ofNatLT w hw), ?_⟩
  have haccept : w * n % UInt64.size ≤ acceptBound n :=
    Nat.le_trans (by omega) (le_acceptBound n)
  unfold below belowWithin
  simp only [doubleWord_yielding, UInt64.toNat_ofNatLT, if_pos haccept]
  exact Fin.ext hquot
end Rng

namespace Random

/-- The index at which a mark falls bears a weight above zero, wherever the mark lies from zero
on. -/
theorem indexAt?_pos {mark : Float} {ws : List Float} {i : Nat} (hm : ¬ mark < 0)
    (h : indexAt? mark ws = some i) : ∃ w, ws[i]? = some w ∧ 0 < w := by
  induction ws generalizing mark i with
  | nil => cases h
  | cons w ws ih =>
    unfold indexAt? at h
    split at h
    · rename_i hw
      cases h
      exact ⟨w, rfl, pos_of_lt hm hw⟩
    · rename_i hw
      obtain ⟨j, hj, rfl⟩ := Option.map_eq_some_iff.mp h
      exact ih (sub_not_lt_zero hw) hj

theorem lastPositive?_pos {ws : List Float} {i : Nat} (h : lastPositive? ws = some i) :
    ∃ w, ws[i]? = some w ∧ 0 < w := by
  induction ws generalizing i with
  | nil => cases h
  | cons w ws ih =>
    unfold lastPositive? at h
    split at h
    · rename_i j hj
      cases h
      exact ih hj
    · split at h
      · rename_i hw
        cases h
        exact ⟨w, rfl, hw⟩
      · cases h

theorem lastPositive?_eq_none {ws : List Float} (h : lastPositive? ws = none) :
    ∀ w ∈ ws, ¬ 0 < w := by
  induction ws with
  | nil =>
    intro w hw
    cases hw
  | cons w ws ih =>
    unfold lastPositive? at h
    split at h
    · cases h
    · rename_i hn
      split at h
      · cases h
      · rename_i hw
        exact List.forall_mem_cons.mpr ⟨hw, ih hn⟩

end Random

namespace Resampling

variable {n : Nat} {weights : Vector Float n} {mean w : Float} {g g' : Rng}

theorem get_of_getElem? {weights : Vector Float n} {i : Fin n} {w : Float}
    (h : weights.toList[i.val]? = some w) : weights.get i = w := by
  simpa [Population.get_eq_getElem] using h

/-- A mark from zero on falls on a weight above zero, if there is one. -/
theorem indexAt_pos {mark : Float} {pos : 0 < n} (hm : ¬ mark < 0) (ht : 0 < total weights.toList) :
    0 < weights.get (indexAt mark weights pos) := by
  unfold indexAt
  split
  · rename_i i hi
    obtain ⟨w, hw, hpos⟩ := Random.indexAt?_pos hm hi
    rw [get_of_getElem? hw]
    exact hpos
  · split
    · rename_i i hi
      obtain ⟨w, hw, hpos⟩ := Random.lastPositive?_pos hi
      rw [get_of_getElem? hw]
      exact hpos
    · rename_i hnone
      exact absurd ht (not_zero_lt_total (Random.lastPositive?_eq_none hnone))

/-- A draw in proportion to weights falls on a weight above zero. -/
theorem multinomial_pos {pos : 0 < n} {i : Fin n} (ht : 0 < total weights.toList)
    (h : multinomial weights pos g = .ok i g') : 0 < weights.get i := by
  unfold multinomial at h
  rw [if_pos ht, bind_eq_ok] at h
  obtain ⟨u, g₁, hu, h⟩ := h
  obtain ⟨rfl, _⟩ := pure_eq_ok.mp h
  obtain ⟨rfl, _⟩ := Draw.uniform_eq_ok.mp hu
  exact indexAt_pos (not_lt_zero (unsigned_mul (unsigned_uniform g) (unsigned_of_pos ht))) ht

theorem multinomial_even (ht : ¬ 0 < total weights.toList) (pos : 0 < n) (g : Rng) :
    multinomial weights pos g = .ok (g.below n pos).1 (g.below n pos).2 := by
  unfold multinomial
  rw [if_neg ht]
  rfl

theorem first_mem_multinomials {pos : 0 < n} {k : Nat} {i : Fin n} {g₁ : Rng}
    {is : { is : List (Fin n) // is.length = k }} (hk : 0 < k)
    (hi : multinomial weights pos g = .ok i g₁) (h : multinomials weights pos k g = .ok is g') :
    i ∈ is.1 := by
  cases k with
  | zero => cases hk
  | succ k =>
    obtain ⟨j, _, rest, hj, _, hc⟩ := multinomials_succ.mp h
    cases hi.symm.trans hj
    rw [hc]
    exact List.mem_cons_self

theorem multinomials_pos {pos : 0 < n} {k : Nat} {is : { is : List (Fin n) // is.length = k }}
    (ht : 0 < total weights.toList) (h : multinomials weights pos k g = .ok is g') :
    ∀ i ∈ is.1, 0 < weights.get i := by
  induction k generalizing g with
  | zero =>
    intro i hi
    rw [List.eq_nil_of_length_eq_zero is.2] at hi
    cases hi
  | succ k ih =>
    obtain ⟨i, g₁, rest, hi, hr, hc⟩ := multinomials_succ.mp h
    rw [hc]
    exact List.forall_mem_cons.mpr ⟨multinomial_pos ht hi, ih hr⟩

/-- A particle whose weight is lost on the way to its expected copies earns none. -/
theorem earned_eq_zero {i : Fin n} (h : Lost (weights.get i - mean)) : earned mean weights i = 0 := by
  unfold earned
  rcases exp_lost h with h | h <;> rw [h] <;> decide +kernel

theorem remainder_not_pos (h : Lost (w - mean)) : ¬ 0 < remainder mean w := by
  unfold remainder expectedCopies
  rcases exp_lost h with h | h <;> rw [h] <;> decide +kernel

theorem get_remainders (weights : Vector Float n) (i : Fin n) :
    (remainders weights).get i = remainder (logMean weights) (weights.get i) := by
  simp [remainders, Population.get_eq_getElem]

/-- The certain copies leave places over, but there are no fractional parts to fill them by: the
places are filled evenly, whatever the weights. -/
def Even (weights : Vector Float n) : Prop :=
  certainCount (earned (logMean weights) weights) < n ∧ ¬ 0 < total (remainders weights).toList

theorem missing_eq_zero (h : n ≤ certainCount (earned (logMean weights) weights)) : missing weights = 0 := by
  unfold missing
  rw [length_kept]
  omega

theorem missing_pos (h : certainCount (earned (logMean weights) weights) < n) : 0 < missing weights := by
  unfold missing
  rw [length_kept]
  omega

/-- Unless the places are filled evenly, each parent has a certain copy or a fractional part. -/
theorem residual_parent {r : Resampled n} (h : residual weights g = .ok (some r) g')
    (he : ¬ Even weights) : ∀ i ∈ r.ancestors.toList,
      0 < earned (logMean weights) weights i ∨
        0 < remainder (logMean weights) (weights.get i) := by
  obtain ⟨_, _, pos, drawn, hd, rfl⟩ := residual_eq_some h
  intro i hi
  rw [ancestors_assemble] at hi
  rcases List.mem_append.mp hi with hi | hi
  · right
    by_cases hc : certainCount (earned (logMean weights) weights) < n
    · have ht : 0 < total (remainders weights).toList :=
        Classical.byContradiction fun ht => he ⟨hc, ht⟩
      rw [← get_remainders]
      exact multinomials_pos ht hd i hi
    · have hnil := List.eq_nil_of_length_eq_zero
        (drawn.2.trans (missing_eq_zero (Nat.not_lt.mp hc)))
      rw [hnil] at hi
      cases hi
  · left
    rw [kept_eq] at hi
    obtain ⟨j, _, hj⟩ := List.mem_flatMap.mp (List.mem_of_mem_take hi)
    obtain ⟨hne, rfl⟩ := List.mem_replicate.mp hj
    exact Nat.pos_of_ne_zero hne

theorem nanIndex?_eq_none (h : nanIndex? weights = none) (i : Fin n) :
    (weights.get i).isNaN = false := by
  exact List.findIdx?_eq_none_iff.mp h _ (by simp [Population.get_eq_getElem])

/-- Unless the places are filled evenly, every parent is possible. -/
theorem residual_possible {r : Resampled n} (h : residual weights g = .ok (some r) g')
    (he : ¬ Even weights) : ∀ i ∈ r.ancestors.toList, negInf < weights.get i := by
  intro i hi
  have hn := nanIndex?_eq_none (residual_eq_some h).1 i
  refine negInf_lt hn (eq_false_of_ne_true fun hz => ?_)
  have hl := (lost_of_negInf hz).sub (logMean weights)
  rcases residual_parent h he i hi with hc | hr
  · rw [earned_eq_zero hl] at hc
    cases hc
  · exact remainder_not_pos hl hr

/-- Where the places are filled evenly, no index is safe from being drawn. -/
theorem even_reaches (numbers : nanIndex? weights = none)
    (possible : (logMean weights == negInf) = false) (he : Even weights) (hn : n ≤ UInt64.size)
    (i : Fin n) : ∃ g r g', residual weights g = .ok (some r) g' ∧ i ∈ r.ancestors.toList := by
  have pos := pos_of_possible possible
  obtain ⟨g, hi⟩ := Rng.exists_below pos hn i
  obtain ⟨r, g', hr⟩ := residual_ok numbers possible g
  refine ⟨g, r, g', hr, ?_⟩
  obtain ⟨_, _, _, drawn, hd, rfl⟩ := residual_eq_some hr
  rw [ancestors_assemble]
  exact List.mem_append_left _
    (first_mem_multinomials (missing_pos he.1) (hi ▸ multinomial_even he.2 pos g) hd)

theorem logMean_infinite (h : ∃ i, (weights.get i == posInf) = true) :
    Infinite .positive (logMean weights).toModel.unpack := by
  obtain ⟨i, hi⟩ := h
  have hm : weights.get i ∈ weights.toList := by simp [Population.get_eq_getElem]
  unfold logMean
  cases hl : weights.toList with
  | nil =>
    rw [hl] at hm
    cases hm
  | cons w ws =>
    exact (Infinite.sub (logSumExp_infinite ⟨_, hl ▸ hm, hi⟩) _).stored

/-- Beside an infinite weight no copy is certain and no parent has a fractional part. -/
theorem even_of_infinite (h : ∃ i, (weights.get i == posInf) = true) : Even weights := by
  have hl : ∀ i, Lost (weights.get i - logMean weights) := fun i => lost_sub (logMean_infinite h) _
  refine ⟨?_, not_zero_lt_total ?_⟩
  · have hz : certainCount (earned (logMean weights) weights) = 0 := by
      rw [← length_certain, List.length_eq_zero_iff, certain, List.flatMap_eq_nil_iff]
      intro i _
      rw [earned_eq_zero (hl i)]
      rfl
    rw [hz]
    exact Fin.pos h.choose
  · intro w hw
    obtain ⟨i, rfl⟩ : ∃ i, (remainders weights).get i = w := by
      obtain ⟨i, hi, rfl⟩ := List.mem_iff_getElem.mp hw
      exact ⟨⟨i, by simpa using hi⟩, by simp [Population.get_eq_getElem]⟩
    rw [get_remainders]
    exact remainder_not_pos (hl i)

end Resampling

/-- Unless its places are filled evenly, a population that is resampled is made of possible
particles only, none of which has just met an impossible factor. Places are filled evenly whenever
there is an infinite weight, and then every particle can be copied, impossible or not. -/
theorem survivors_possible_unless_even {n : Nat} :
    (∀ (weights : Vector Float n) g r g', Resampling.residual weights g = .ok (some r) g' →
      ¬ Resampling.Even weights → ∀ i ∈ r.ancestors.toList, negInf < weights.get i) ∧
    (∀ (p : Population n) strict algorithm index g q noted g',
      p.resample strict algorithm index g = .ok (q, noted) g' → noted.degenerate = false →
      ¬ Resampling.Even p.weights → ∀ j, ∃ i,
        q.particles.get j = { p.particles.get i with weight := noted.logMeanWeight } ∧
        negInf < (p.particles.get i).weight ∧
        ∀ w x, (p.particles.get i).weight = w + x → (x == negInf) = false) ∧
    (∀ weights : Vector Float n, (∃ i, (weights.get i == posInf) = true) →
      Resampling.Even weights) ∧
    (∀ weights : Vector Float n, Resampling.Even weights → Resampling.nanIndex? weights = none →
      (Resampling.logMean weights == negInf) = false → n ≤ UInt64.size →
      ∀ i, ∃ g r g', Resampling.residual weights g = .ok (some r) g' ∧ i ∈ r.ancestors.toList) := by
  refine ⟨?_, ?_, ?_, ?_⟩
  · intro weights g r g' h he
    exact Resampling.residual_possible h he
  · intro p strict algorithm index g q noted g' h hd he j
    rcases Population.resample_cases h with ⟨r, hr, _, hw, rfl⟩ | ⟨hd', _⟩
    · have hp := Resampling.residual_possible hr he (r.ancestors.get j)
        (by simp [Population.get_eq_getElem])
      have hget : p.weights.get (r.ancestors.get j) =
          (p.particles.get (r.ancestors.get j)).weight := by
        simp [Population.weights, Population.get_eq_getElem]
      rw [hget] at hp
      refine ⟨r.ancestors.get j, by rw [Population.get_descend, hw], hp, ?_⟩
      intro w x hx
      refine eq_false_of_ne_true fun hz => ?_
      rw [hx] at hp
      exact ((lost_of_negInf hz).add_left w).not_possible hp
    · rw [hd] at hd'
      cases hd'
  · intro weights h
    exact Resampling.even_of_infinite h
  · intro weights he numbers possible hn i
    exact Resampling.even_reaches numbers possible he hn i

/-- A possible particle takes the place of an impossible one beside it; beside a particle of infinite
weight the impossible one can survive. -/
theorem impossible_beside_infinite :
    let p := unevenPair 0 negInf
    (∃ r g, Resampling.residual p.weights (steadyRng 0) = .ok (some r) g ∧
      ∀ i ∈ r.ancestors.toList, negInf < p.weights.get i) ∧
    (∃ q noted g, p.resample false "particle-filter" 0 (steadyRng 0) = .ok (q, noted) g ∧
      ∀ j, ∃ i, q.particles.get j = { p.particles.get i with weight := noted.logMeanWeight } ∧
        negInf < (p.particles.get i).weight) ∧
    ∃ g r g', Resampling.residual #v[posInf, negInf] g = .ok (some r) g' ∧
      (1 : Fin 2) ∈ r.ancestors.toList := by
  intro p
  have hn : Resampling.nanIndex? p.weights = none := by decide +kernel
  have hp : (Resampling.logMean p.weights == negInf) = false := by decide +kernel
  have he : ¬ Resampling.certainCount
      (Resampling.earned (Resampling.logMean p.weights) p.weights) < 2 := by
    decide +kernel
  have hi : ∃ i, ((#v[posInf, negInf] : Vector Float 2).get i == posInf) = true :=
    ⟨0, by decide +kernel⟩
  obtain ⟨residuals, resamples, infinite, revives⟩ := survivors_possible_unless_even (n := 2)
  obtain ⟨r, g, hr⟩ := Resampling.residual_ok hn hp (steadyRng 0)
  obtain ⟨noted, hq, hd⟩ := Population.resample_of_residual hr false "particle-filter" 0
  refine ⟨⟨r, g, hr, residuals _ _ _ _ hr fun h => he h.1⟩, ⟨_, noted, g, hq, fun j => ?_⟩, ?_⟩
  · obtain ⟨i, hc, hpos, _⟩ := resamples p _ _ _ _ _ _ _ hq hd (fun h => he h.1) j
    exact ⟨i, hc, hpos⟩
  · exact revives _ (infinite _ hi) (by decide +kernel)
      (beq_negInf_eq_false (Resampling.logMean_infinite hi)) (by decide +kernel) 1

end Posterior
