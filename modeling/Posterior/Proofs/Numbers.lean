import Posterior.Proofs.DoubleOrder
import Posterior.Proofs.Rounding

/-!
Where NaN can come from. A sum of numbers is NaN only if it joins opposite infinities; exponentials,
logarithms and log-sums of numbers are numbers. The effective sample size of numbers is one unless
their log-sum, doubled, is out of range.
-/

namespace Posterior.Numeric

open Float.Model Float.Model.UnpackedFloat

section
variable {s : Sign} {x y : UnpackedFloat} {format : Format}

theorem ite_ne {p : Prop} [Decidable p] (hx : x ≠ .notANumber) (hy : y ≠ .notANumber) :
    (if p then x else y) ≠ .notANumber := by
  split
  · exact hx
  · exact hy

theorem dite_ne {p : Prop} [Decidable p] {x : p → UnpackedFloat} {y : ¬p → UnpackedFloat}
    (hx : ∀ h, x h ≠ .notANumber) (hy : ∀ h, y h ≠ .notANumber) : dite p x y ≠ .notANumber := by
  split
  · exact hx _
  · exact hy _

theorem unpack_components_ne {exponent : BitVec 11} {mantissa : BitVec 52}
    (hx : exponent ≠ -1#11) :
    UnpackedFloat.unpack .binary64 (packComponents .binary64 s exponent mantissa) ≠
      .notANumber := by
  rw [unpack_eq (unpackSign_packComponents ..) (unpackExponent_packComponents ..)
    (unpackMantissa_packComponents ..), if_neg hx]
  exact ite_ne (dite_ne (fun _ => nofun) fun _ => nofun) nofun

/-- A number is stored as a number. -/
theorem stored_ne (h : x ≠ .notANumber) : (Float.Model.pack x).unpack ≠ .notANumber := by
  cases x with
  | notANumber => exact absurd rfl h
  | infinity s => cases s <;> exact nofun
  | zero s => cases s <;> exact nofun
  | finite s m e pos =>
    change UnpackedFloat.unpack .binary64 (UnpackedFloat.pack .binary64 (.finite s m e pos)) ≠ _
    delta UnpackedFloat.pack
    dsimp only
    split
    · cases s <;> exact nofun
    · rename_i hb
      change ¬ 2 ^ 11 ≤ _ + 1 at hb
      split
      · refine unpack_components_ne fun hz => ?_
        have hv := congrArg BitVec.toNat hz
        change _ % 2 ^ 11 = 2047 at hv
        omega
      · exact unpack_components_ne (by decide)

theorem roundWithAccuracy_ne {m : Nat} {e : Int} {a : Accuracy} :
    roundWithAccuracy format s m e a ≠ .notANumber := by
  unfold roundWithAccuracy
  split
  extract_lets rounded
  split
  exact dite_ne (fun _ => nofun) fun _ => nofun

theorem normalize_ne {m e : Int} : UnpackedFloat.normalize format m e s ≠ .notANumber := by
  unfold UnpackedFloat.normalize
  split
  · exact roundWithAccuracy_ne
  · exact nofun
  · exact roundWithAccuracy_ne

/-- Whether two numbers have a sum: they are not opposite infinities. -/
def Summable : UnpackedFloat → UnpackedFloat → Prop
  | .infinity s, .infinity t => s = t
  | _, _ => True

theorem add_ne (hx : x ≠ .notANumber) (hy : y ≠ .notANumber) (h : Summable x y) :
    UnpackedFloat.add format x y ≠ .notANumber := by
  cases x with
  | notANumber => exact absurd rfl hx
  | infinity s =>
    cases y with
    | notANumber => exact absurd rfl hy
    | infinity t =>
      obtain rfl : s = t := h
      cases s <;> exact nofun
    | zero t => exact nofun
    | finite t m e pos => exact nofun
  | zero s =>
    cases y with
    | notANumber => exact absurd rfl hy
    | infinity t => exact nofun
    | zero t => cases s <;> cases t <;> exact nofun
    | finite t m e pos => exact nofun
  | finite s m e pos =>
    cases y with
    | notANumber => exact absurd rfl hy
    | infinity t => exact nofun
    | zero t => exact nofun
    | finite t m' e' pos' => exact normalize_ne

/-- A difference of numbers is a number unless they are infinities of one sign. -/
theorem sub_ne (hx : x ≠ .notANumber) (hy : y ≠ .notANumber)
    (h : ∀ s, x = .infinity s → y ≠ .infinity s) :
    UnpackedFloat.sub format x y ≠ .notANumber := by
  cases x with
  | notANumber => exact absurd rfl hx
  | infinity s =>
    cases y with
    | notANumber => exact absurd rfl hy
    | infinity t =>
      cases s <;> cases t <;> first | exact absurd rfl (h _ rfl) | exact nofun
    | zero t => exact nofun
    | finite t m e pos => exact nofun
  | zero s =>
    cases y with
    | notANumber => exact absurd rfl hy
    | infinity t => exact nofun
    | zero t => cases s <;> cases t <;> exact nofun
    | finite t m e pos => exact nofun
  | finite s m e pos =>
    cases y with
    | notANumber => exact absurd rfl hy
    | infinity t => exact nofun
    | zero t => exact nofun
    | finite t m' e' pos' => exact normalize_ne

end

section
variable {x y : Float}

theorem isNaN_eq_false_iff : x.isNaN = false ↔ x.toModel.unpack ≠ .notANumber := by
  change x.toModel.unpack.isNaN = false ↔ _
  cases x.toModel.unpack with
  | notANumber => exact ⟨nofun, fun h => absurd rfl h⟩
  | infinity s => exact ⟨fun _ => nofun, fun _ => rfl⟩
  | zero s => exact ⟨fun _ => nofun, fun _ => rfl⟩
  | finite s m e pos => exact ⟨fun _ => nofun, fun _ => rfl⟩

theorem isNaN_eq_true_iff : x.isNaN = true ↔ x.toModel.unpack = .notANumber := by
  rw [← Bool.not_eq_false, isNaN_eq_false_iff, not_not]

theorem number_of_finite (h : x.isFinite = true) : x.isNaN = false := by
  rw [isNaN_eq_false_iff]
  change x.toModel.unpack.isFinite = true at h
  intro hu
  rw [hu] at h
  cases h

theorem posInf_ne_of_finite (h : x.isFinite = true) : (x == posInf) = false := by
  change x.toModel.unpack.isFinite = true at h
  change x.toModel.unpack.beq (.infinity .positive) = false
  rcases hu : x.toModel.unpack with _ | _ | _ | ⟨_ | _⟩ <;> rw [hu] at h <;> trivial

/-- A number that is not infinite is finite. -/
theorem finite_of_number (hx : x.isNaN = false) (hp : (x == posInf) = false)
    (hn : (x == negInf) = false) : x.isFinite = true := by
  rw [isNaN_eq_false_iff] at hx
  change x.toModel.unpack.beq (.infinity .positive) = false at hp
  change x.toModel.unpack.beq (.infinity .negative) = false at hn
  change x.toModel.unpack.isFinite = true
  cases hu : x.toModel.unpack with
  | notANumber => exact absurd hu hx
  | infinity s =>
    rw [hu] at hp hn
    cases s
    · cases hn
    · cases hp
  | zero s => rfl
  | finite s m e pos => rfl

/-- A word is known by its sign, its exponent and its mantissa. -/
theorem word_ext {b c : BitVec Format.binary64.numBits} (sign : unpackSign b = unpackSign c)
    (exponent : unpackExponent b = unpackExponent c)
    (mantissa : unpackMantissa b = unpackMantissa c) : b = c := by
  delta unpackSign at sign
  delta unpackExponent at exponent
  delta unpackMantissa at mantissa
  have high : b.toNat / 2 ^ 63 % 2 ^ 1 = c.toNat / 2 ^ 63 % 2 ^ 1 := by
    simpa [Nat.shiftRight_eq_div_pow] using congrArg BitVec.toNat sign
  have middle : b.toNat / 2 ^ 52 % 2 ^ 11 = c.toNat / 2 ^ 52 % 2 ^ 11 := by
    simpa [Nat.shiftRight_eq_div_pow] using congrArg BitVec.toNat exponent
  have low : b.toNat % 2 ^ 52 = c.toNat % 2 ^ 52 := by
    simpa using congrArg BitVec.toNat mantissa
  have hb : b.toNat < 2 ^ 64 := b.isLt
  have hc : c.toNat < 2 ^ 64 := c.isLt
  exact BitVec.eq_of_toNat_eq (by omega)

/-- The parts of an infinity. -/
theorem parts_of_infinity {b : BitVec Format.binary64.numBits} {s : Sign}
    (h : UnpackedFloat.unpack .binary64 b = .infinity s) :
    unpackSign b = s.toBitVec ∧ unpackExponent b = -1#11 ∧ unpackMantissa b = 0#52 := by
  have bit : ∀ v : BitVec 1, v = (Sign.ofBitVec v).toBitVec := by decide
  rw [unpack_eq (bit _) rfl rfl] at h
  by_cases top : unpackExponent b = -1#11
  · rw [if_pos top] at h
    by_cases zero : unpackMantissa b = 0#52
    · rw [if_pos zero] at h
      exact ⟨UnpackedFloat.infinity.inj h ▸ bit _, top, zero⟩
    · rw [if_neg zero] at h
      cases h
  · rw [if_neg top] at h
    by_cases least : unpackExponent b = 0#11
    · rw [if_pos least] at h
      by_cases zero : unpackMantissa b = 0#52
      · rw [dif_pos zero] at h
        cases h
      · rw [dif_neg zero] at h
        cases h
    · rw [if_neg least] at h
      cases h

/-- There is one word for an infinity. -/
theorem infinity_word {b c : BitVec Format.binary64.numBits} {s : Sign}
    (hb : UnpackedFloat.unpack .binary64 b = .infinity s)
    (hc : UnpackedFloat.unpack .binary64 c = .infinity s) : b = c := by
  obtain ⟨sign, exponent, mantissa⟩ := parts_of_infinity hb
  obtain ⟨sign', exponent', mantissa'⟩ := parts_of_infinity hc
  exact word_ext (sign.trans sign'.symm) (exponent.trans exponent'.symm)
    (mantissa.trans mantissa'.symm)

/-- There is one double that is read as negative infinity. -/
theorem beq_negInf_iff : (x == negInf) = true ↔ x = negInf := by
  constructor
  · intro h
    have word := infinity_word (unpack_of_negInf h) unpack_negInf
    exact toBits_inj.mp (congrArg UInt64.ofBitVec word)
  · rintro rfl
    decide

theorem summable_of_finite {x y : UnpackedFloat} (h : x.isFinite = true) : Summable x y := by
  cases x with
  | infinity s => cases h
  | _ => trivial

/-- A number that is added to a finite one makes a number. -/
theorem finite_add (hx : x.isFinite = true) (hy : y.isNaN = false) : (x + y).isNaN = false := by
  have hn := isNaN_eq_false_iff.mp (number_of_finite hx)
  rw [isNaN_eq_false_iff] at hy ⊢
  exact stored_ne (add_ne hn hy (summable_of_finite hx))

/-- What is infinite in both directions is NaN. -/
theorem nan_of_infinite {x : UnpackedFloat} (h : ∀ s, Infinite s x) : x = .notANumber := by
  rcases h .positive with rfl | hx
  · rcases h .negative with hx | hx <;> cases hx
  · exact hx

theorem nan_add (hx : x.isNaN = true) (y : Float) : (x + y).isNaN = true := by
  rw [isNaN_eq_true_iff] at hx ⊢
  exact nan_of_infinite fun _ => (Infinite.add (.inr hx) y.toModel.unpack).stored

theorem nan_sub (hx : x.isNaN = true) (y : Float) : (x - y).isNaN = true := by
  rw [isNaN_eq_true_iff] at hx ⊢
  exact nan_of_infinite fun _ => (Infinite.sub (.inr hx) y.toModel.unpack).stored

theorem sub_nan (x : Float) (hy : y.isNaN = true) : (x - y).isNaN = true := by
  rw [isNaN_eq_true_iff] at hy ⊢
  have hs : ∀ s, Infinite (-s) (x - y).toModel.unpack :=
    fun _ => (Infinite.sub_left (.inr hy) x.toModel.unpack).stored
  refine nan_of_infinite fun s => ?_
  cases s
  · exact hs .positive
  · exact hs .negative

/-- Two numbers that are the same infinity. -/
def SameInfinity (x y : Float) : Prop :=
  (x == posInf) = true ∧ (y == posInf) = true ∨ (x == negInf) = true ∧ (y == negInf) = true

theorem SameInfinity.infinite (h : SameInfinity x y) :
    ∃ s, Infinite s x.toModel.unpack ∧ Infinite s y.toModel.unpack := by
  rcases h with ⟨hx, hy⟩ | ⟨hx, hy⟩
  · exact ⟨.positive, .inl (unpack_of_posInf hx), .inl (unpack_of_posInf hy)⟩
  · exact ⟨.negative, lost_of_negInf hx, lost_of_negInf hy⟩

/-- The difference of numbers is NaN exactly if they are the same infinity. -/
theorem sub_nan_iff (hx : x.isNaN = false) (hy : y.isNaN = false) :
    (x - y).isNaN = true ↔ SameInfinity x y := by
  constructor
  · intro h
    rw [isNaN_eq_false_iff] at hx hy
    refine Classical.byContradiction fun hs => ?_
    have hne : (x - y).toModel.unpack ≠ .notANumber := by
      refine stored_ne (sub_ne hx hy fun s hu hv => hs ?_)
      change x.toModel.unpack.beq (.infinity .positive) = true ∧
        y.toModel.unpack.beq (.infinity .positive) = true ∨
        x.toModel.unpack.beq (.infinity .negative) = true ∧
        y.toModel.unpack.beq (.infinity .negative) = true
      rw [hu, hv]
      cases s
      · exact .inr ⟨rfl, rfl⟩
      · exact .inl ⟨rfl, rfl⟩
    exact hne (isNaN_eq_true_iff.mp h)
  · intro h
    obtain ⟨s, hu, hv⟩ := h.infinite
    -- The difference goes the way of the first and against the way of the second.
    have along : Infinite s (x - y).toModel.unpack := (Infinite.sub hu y.toModel.unpack).stored
    have against : Infinite (-s) (x - y).toModel.unpack :=
      (Infinite.sub_left hv x.toModel.unpack).stored
    refine isNaN_eq_true_iff.mpr (nan_of_infinite fun t => ?_)
    cases s <;> cases t <;> first | exact along | exact against

theorem sub_finite (hx : x.isNaN = false) (hy : y.isFinite = true) : (x - y).isNaN = false := by
  have hn := number_of_finite hy
  rw [isNaN_eq_false_iff] at hn hx ⊢
  refine stored_ne (sub_ne hx hn fun s _ hv => ?_)
  change y.toModel.unpack.isFinite = true at hy
  rw [hv] at hy
  cases hy

/-- A number that is not below zero. -/
structure Above (x : Float) : Prop where
  number : x.isNaN = false
  sign : ¬ x < 0

theorem Above.add (hx : Above x) (hy : Above y) : Above (x + y) := by
  have sx := not_lt_zero_iff.mp hx.sign
  have sy := not_lt_zero_iff.mp hy.sign
  refine ⟨?_, not_lt_zero_iff.mpr (leans_add sx sy).stored⟩
  have nx := isNaN_eq_false_iff.mp hx.number
  have ny := isNaN_eq_false_iff.mp hy.number
  rw [isNaN_eq_false_iff]
  refine stored_ne (add_ne nx ny ?_)
  -- Neither of the two is negative infinity.
  cases hu : x.toModel.unpack with
  | infinity s =>
    cases hv : y.toModel.unpack with
    | infinity t =>
      rw [hu] at sx
      rw [hv] at sy
      exact (show s = .positive from sx).trans (show t = .positive from sy).symm
    | _ => trivial
  | _ => cases y.toModel.unpack <;> trivial

theorem foldl_above {xs : List Float} (hx : Above x) (h : ∀ v ∈ xs, Above v) :
    Above (xs.foldl (· + ·) x) := by
  induction xs generalizing x with
  | nil => exact hx
  | cons v vs ih =>
    exact ih (hx.add (h v List.mem_cons_self)) fun u hu => h u (List.mem_cons_of_mem v hu)

theorem total_above {xs : List Float} (h : ∀ v ∈ xs, Above v) : Above (total xs) :=
  foldl_above ⟨by decide, by decide⟩ h

theorem not_finite_of_infinite {s : Sign} (h : Infinite s x.toModel.unpack) :
    x.isFinite = false := by
  change x.toModel.unpack.isFinite = false
  rcases h with h | h <;> rw [h] <;> rfl

theorem infinite_of_not_finite (h : x.isFinite = false) : ∃ s, Infinite s x.toModel.unpack := by
  change x.toModel.unpack.isFinite = false at h
  rcases hu : x.toModel.unpack with s | _ | _ | _
  · exact ⟨s, .inl rfl⟩
  · exact ⟨.positive, .inr rfl⟩
  · rw [hu] at h
    cases h
  · rw [hu] at h
    cases h

/-- A number is finite if nothing finite comes of numbers that are not in its place. -/
theorem finite_of_result {z : Float}
    (keeps : ∀ s, Infinite s x.toModel.unpack → ∃ t, Infinite t z.toModel.unpack)
    (h : z.isFinite = true) : x.isFinite = true := by
  refine eq_true_of_ne_false fun hx => ?_
  obtain ⟨s, hs⟩ := infinite_of_not_finite hx
  obtain ⟨t, ht⟩ := keeps s hs
  rw [not_finite_of_infinite ht] at h
  cases h

/-- Only finite numbers have a finite sum. -/
theorem finite_of_add (h : (x + y).isFinite = true) : x.isFinite = true ∧ y.isFinite = true :=
  ⟨finite_of_result (fun s hs => ⟨s, (Infinite.add hs y.toModel.unpack).stored⟩) h,
    finite_of_result (fun s hs => ⟨s, (Infinite.add_left hs x.toModel.unpack).stored⟩) h⟩

theorem finite_of_foldl {xs : List Float} (h : (xs.foldl (· + ·) x).isFinite = true) :
    x.isFinite = true ∧ ∀ v ∈ xs, v.isFinite = true := by
  induction xs generalizing x with
  | nil => exact ⟨h, fun _ hv => nomatch hv⟩
  | cons v vs ih =>
    obtain ⟨sum, rest⟩ := ih h
    obtain ⟨hx, hv⟩ := finite_of_add sum
    exact ⟨hx, List.forall_mem_cons.mpr ⟨hv, rest⟩⟩

/-- A finite sum has finite terms only. -/
theorem finite_of_total {xs : List Float} (h : (total xs).isFinite = true) :
    ∀ v ∈ xs, v.isFinite = true :=
  (finite_of_foldl h).2

/-- A share of a whole above zero is a number. -/
theorem share_number (hx : x.isFinite = true) (pos : 0 < y) (hy : y.isFinite = true) :
    (x / y).isNaN = false := by
  rw [isNaN_eq_false_iff]
  refine stored_ne ?_
  change x.toModel.unpack.isFinite = true at hx
  change y.toModel.unpack.isFinite = true at hy
  rw [lt_iff, unpack_zero] at pos
  cases hv : y.toModel.unpack with
  | notANumber =>
    rw [hv] at hy
    cases hy
  | infinity t =>
    rw [hv] at hy
    cases hy
  | zero t =>
    rw [hv] at pos
    cases pos
  | finite t m e _ =>
    cases hu : x.toModel.unpack with
    | notANumber =>
      rw [hu] at hx
      cases hx
    | infinity s =>
      rw [hu] at hx
      cases hx
    | zero s => exact nofun
    | finite s m' e' _ => exact roundWithAccuracy_ne

theorem not_nan_of_le (h : x ≤ y) : x.isNaN = false ∧ y.isNaN = false := by
  have hm : x.toModel.unpack.le y.toModel.unpack = true := of_decide_eq_true h
  rw [isNaN_eq_false_iff, isNaN_eq_false_iff]
  constructor
  · intro hu
    rw [hu] at hm
    cases hv : y.toModel.unpack <;> rw [hv] at hm <;> cases hm
  · intro hv
    rw [hv] at hm
    rcases hu : x.toModel.unpack with ⟨_ | _⟩ | _ | _ | ⟨_ | _⟩ <;> rw [hu] at hm <;> cases hm

/-- What is known to lie above zero does. -/
theorem above_of_le {lo : Float} (hlo : lo = 0 ∨ lo = 1) (h : lo ≤ x) : Above x := by
  refine ⟨(not_nan_of_le h).2, ?_⟩
  have hm : lo.toModel.unpack.le x.toModel.unpack = true := of_decide_eq_true h
  rw [not_lt_zero_iff]
  rcases hlo with rfl | rfl
  · rcases hu : x.toModel.unpack with ⟨_ | _⟩ | _ | _ | ⟨_ | _⟩ <;> rw [hu] at hm <;>
      trivial
  · rcases hu : x.toModel.unpack with ⟨_ | _⟩ | _ | _ | ⟨_ | _⟩ <;> rw [hu] at hm <;>
      trivial

theorem within_above {lo hi : Float} (hlo : lo = 0 ∨ lo = 1) : Above (within lo hi x) := by
  unfold within
  split
  · rename_i h
    exact above_of_le hlo h.1
  · rcases hlo with rfl | rfl <;> exact ⟨by decide, by decide⟩

/-- The exponential of a number is a number and not below zero. -/
theorem exp_above (h : x.isNaN = false) : Above (exp x) := by
  unfold exp
  rw [if_neg (by simp only [h, Bool.false_eq_true, not_false_eq_true])]
  split
  · exact ⟨by decide, by decide⟩
  · split
    · exact ⟨by decide, by decide⟩
    · split
      · exact ⟨by decide, by decide⟩
      · split
        · exact ⟨by decide, by decide⟩
        · split
          · exact ⟨by decide, by decide⟩
          · split
            · exact within_above (.inl rfl)
            · exact within_above (.inr rfl)

theorem exp_nan_iff : (exp x).isNaN = true ↔ x.isNaN = true := by
  cases h : x.isNaN with
  | true =>
    unfold exp
    rw [if_pos h]
    decide
  | false => rw [(exp_above h).number]

theorem finite_of_le {lo hi : Float} (hlo : lo.isFinite = true) (hhi : hi.isFinite = true)
    (h : lo ≤ x) (h' : x ≤ hi) : x.isFinite = true := by
  have hl : lo.toModel.unpack.le x.toModel.unpack = true := of_decide_eq_true h
  have hh : x.toModel.unpack.le hi.toModel.unpack = true := of_decide_eq_true h'
  change lo.toModel.unpack.isFinite = true at hlo
  change hi.toModel.unpack.isFinite = true at hhi
  change x.toModel.unpack.isFinite = true
  rcases hu : x.toModel.unpack with ⟨_ | _⟩ | _ | _ | _
  · rcases hv : lo.toModel.unpack with _ | _ | _ | ⟨_ | _⟩ <;> rw [hv] at hlo hl <;>
      rw [hu] at hl <;> trivial
  · rcases hv : hi.toModel.unpack with _ | _ | _ | ⟨_ | _⟩ <;> rw [hv] at hhi hh <;>
      rw [hu] at hh <;> trivial
  · exact absurd hu (isNaN_eq_false_iff.mp (not_nan_of_le h).2)
  · rfl
  · rfl

theorem within_finite {lo hi : Float} (hlo : lo.isFinite = true) (hhi : hi.isFinite = true) :
    (within lo hi x).isFinite = true := by
  unfold within
  split
  · rename_i h
    exact finite_of_le hlo hhi h.1 h.2
  · exact hlo

/-- Between the exact points a logarithm is the platform's. -/
theorem ln_of_pos (pos : 0 < x) (h : x.isFinite = true) :
    ln x = if x == 1 then 0 else if x == 2 then lnTwo
      else if x < 1 then within (-745) 0 x.log else within 0 710 x.log := by
  have hn := number_of_finite h
  have hu : Unsigned x.toModel.unpack := unsigned_of_pos pos
  have hz : (x == 0) = false := by
    rw [lt_iff, unpack_zero] at pos
    change x.toModel.unpack.beq (.zero .positive) = false
    rcases hv : x.toModel.unpack with ⟨_ | _⟩ | _ | _ | ⟨_ | _⟩ <;> rw [hv] at pos <;> trivial
  have hp := posInf_ne_of_finite h
  have hl : (x < 0) = False := eq_false (not_lt_zero hu)
  unfold ln
  simp only [hn, hl, hz, hp, decide_false, Bool.or_false, Bool.false_eq_true, ↓reduceIte]

/-- The logarithm of a number above zero is finite, unless the number is infinite. -/
theorem ln_finite (pos : 0 < x) (h : x.isFinite = true) : (ln x).isFinite = true := by
  rw [ln_of_pos pos h]
  split
  · decide
  · split
    · decide
    · split
      · exact within_finite (by decide) (by decide)
      · exact within_finite (by decide) (by decide)

theorem within_number {lo hi : Float} (hlo : lo.isNaN = false) : (within lo hi x).isNaN = false := by
  unfold within
  split
  · rename_i h
    exact (not_nan_of_le h.1).2
  · exact hlo

theorem ln_number (h : Above x) : (ln x).isNaN = false := by
  unfold ln
  simp only [h.number, eq_false h.sign, decide_false, Bool.or_false, Bool.false_eq_true, ↓reduceIte]
  split
  · decide
  · split
    · decide
    · split
      · decide
      · split
        · decide
        · split
          · exact within_number (by decide)
          · exact within_number (by decide)

end

section
variable {ws : List Float}

theorem larger_number {a b : Float} (ha : a.isNaN = false) : (larger a b).isNaN = false := by
  unfold larger
  split
  · rename_i h
    rw [lt_iff] at h
    rw [isNaN_eq_false_iff]
    intro hb
    rw [hb] at h
    rcases hu : a.toModel.unpack with ⟨_ | _⟩ | _ | _ | ⟨_ | _⟩ <;> rw [hu] at h <;> trivial
  · exact ha

theorem greatest_number (ws : List Float) : (greatest ws).isNaN = false := by
  have hfold : ∀ (ws : List Float) (x : Float), x.isNaN = false →
      (ws.foldl larger x).isNaN = false := by
    intro ws
    induction ws with
    | nil => exact fun _ h => h
    | cons w ws ih => exact fun x h => ih _ (larger_number h)
  exact hfold ws negInf (by decide)

theorem possible_numbers (h : ∀ w ∈ ws, w.isNaN = false) : ∀ w ∈ possible ws, w.isNaN = false :=
  fun w hw => h w (List.mem_filter.mp hw).1

/-- The log-sum of numbers is a number. -/
theorem logSumExp_number (h : ∀ w ∈ ws, w.isNaN = false) : (logSumExp ws).isNaN = false := by
  unfold logSumExp
  dsimp only
  split
  · decide
  · split
    · decide
    · rename_i hn hp
      have top := finite_of_number (greatest_number (possible ws)) (by simpa using hp)
        (by simpa using hn)
      have terms : ∀ v ∈ (possible ws).map fun w => exp (w - greatest (possible ws)), Above v := by
        intro v hv
        obtain ⟨w, hw, rfl⟩ := List.mem_map.mp hv
        exact exp_above (sub_finite (possible_numbers h w hw) top)
      exact finite_add top (ln_number (total_above terms))

theorem ln_count_finite {n : Nat} (pos : 0 < n) (small : n < UInt64.size) :
    (ln (ofCount n)).isFinite = true := by
  have amount := amount_ofCount small
  exact ln_finite (amount.pos (rounded_pos (units_pos pos))) amount.isFinite

/-- The log-mean of numbers is a number. -/
theorem logMeanExp_number (small : ws.length < UInt64.size) (h : ∀ w ∈ ws, w.isNaN = false) :
    (logMeanExp ws).isNaN = false := by
  cases ws with
  | nil => decide
  | cons w ws => exact sub_finite (logSumExp_number h) (ln_count_finite (Nat.succ_pos _) small)

theorem double_number {x : Float} (h : x.isNaN = false) : (2 * x).isNaN = false := by
  rw [isNaN_eq_false_iff] at h ⊢
  refine stored_ne ?_
  cases hu : x.toModel.unpack with
  | notANumber => exact absurd hu h
  | infinity s => exact nofun
  | zero s => exact nofun
  | finite s m e pos => exact roundWithAccuracy_ne

/-- Weights whose effective sample size cannot be told: not all of them are impossible, and twice
their log-sum is the same infinity as the log-sum of their doubles. -/
def OutOfRange (ws : List Float) : Prop :=
  (logSumExp ws == negInf) = false ∧ SameInfinity (2 * logSumExp ws) (logSumExp (ws.map (2 * ·)))

/-- The effective sample size of numbers is NaN exactly if they are out of range. -/
theorem effectiveSampleSize_nan_iff (h : ∀ w ∈ ws, w.isNaN = false) :
    (effectiveSampleSize ws).isNaN = true ↔ OutOfRange ws := by
  have doubled : ∀ v ∈ ws.map (2 * ·), v.isNaN = false := by
    intro v hv
    obtain ⟨w, hw, rfl⟩ := List.mem_map.mp hv
    exact double_number (h w hw)
  have difference := sub_nan_iff (double_number (logSumExp_number h)) (logSumExp_number doubled)
  unfold effectiveSampleSize OutOfRange
  dsimp only
  split <;> rename_i hz
  · simp only [hz, Bool.true_eq_false, false_and, iff_false]
    exact ne_true_of_eq_false (by decide)
  · rw [Bool.not_eq_true] at hz
    rw [hz, ← difference, exp_nan_iff]
    simp

theorem double_infinite {x : Float} (h : Infinite .positive x.toModel.unpack) :
    Infinite .positive (2 * x).toModel.unpack := by
  refine Infinite.stored ?_
  rcases h with h | h <;> rw [h]
  · exact .inl rfl
  · exact .inr rfl

/-- Weights of which one is infinite are out of range. -/
theorem outOfRange_of_infinite (numbers : ∀ w ∈ ws, w.isNaN = false)
    (h : ∃ w ∈ ws, (w == posInf) = true) : OutOfRange ws := by
  have sum := logSumExp_infinite h
  obtain ⟨w, hw, hz⟩ := h
  have twice : ((2 * w) == posInf) = true := by
    change (2 * w).toModel.unpack.beq (.infinity .positive) = true
    rw [show (2 * w).toModel.unpack = .infinity .positive from by
      change (Float.Model.pack (UnpackedFloat.mul .binary64 _ w.toModel.unpack)).unpack = _
      rw [unpack_of_posInf hz]
      rfl]
    rfl
  have squares := logSumExp_infinite ⟨2 * w, List.mem_map.mpr ⟨w, hw, rfl⟩, twice⟩
  rw [← effectiveSampleSize_nan_iff numbers]
  unfold effectiveSampleSize
  simp only [beq_negInf_eq_false sum, Bool.false_eq_true, ↓reduceIte]
  refine exp_nan_iff.mpr (isNaN_eq_true_iff.mpr (nan_of_infinite fun s => ?_))
  cases s with
  | positive => exact (Infinite.sub (double_infinite sum) _).stored
  | negative => exact (Infinite.sub_left squares _).stored

end

end Posterior.Numeric
