import Posterior.Proofs.Shares
import Posterior.Proofs.Strictness

/-!
Impossible entries among weights held as logarithms. Wherever they are put in, the greatest entry, the
log-sum and the effective sample size stay the same doubles. The log-mean counts them in, and it is
impossible exactly if there is nothing else to take the mean of.
-/

namespace Posterior.Numeric

open Float.Model Float.Model.UnpackedFloat

section
variable {x y w : Float}

theorem unpacked_add_comm (format : Format) (x y : UnpackedFloat) :
    UnpackedFloat.add format x y = UnpackedFloat.add format y x := by
  cases x with
  | notANumber => cases y <;> rfl
  | infinity s =>
    cases y with
    | infinity t => cases s <;> cases t <;> rfl
    | _ => rfl
  | zero s =>
    cases y with
    | zero t => cases s <;> cases t <;> rfl
    | _ => rfl
  | finite s m e pos =>
    cases y with
    | finite t n d pos' =>
      change normalize format (s.apply (m <<< (e - min e d).toNat : Nat) +
          t.apply (n <<< (d - min e d).toNat : Nat)) (min e d) .positive =
        normalize format (t.apply (n <<< (d - min d e).toNat : Nat) +
          s.apply (m <<< (e - min d e).toNat : Nat)) (min d e) .positive
      rw [Int.add_comm, Int.min_comm]
    | _ => rfl

theorem sum_comm (x y : Float) : x + y = y + x :=
  congrArg (fun z => Float.ofModel (Float.Model.pack z)) (unpacked_add_comm .binary64 _ _)

/-- Only numbers are above others. -/
theorem number_of_lt (h : x < y) : y.isNaN = false := by
  rw [isNaN_eq_false_iff]
  intro hy
  rw [lt_iff, hy] at h
  generalize x.toModel.unpack = u at h
  rcases u with ⟨_ | _⟩ | _ | _ | ⟨_ | _⟩ <;> cases h

theorem not_lt_negInf (x : Float) : ¬ x < negInf := by
  rw [not_lt_iff, unpack_negInf]
  rcases x.toModel.unpack with ⟨_ | _⟩ | _ | _ | ⟨_ | _⟩ <;> rfl

/-- What is above negative infinity: the numbers that are possible. -/
theorem negInf_lt_iff : negInf < x ↔ x.isNaN = false ∧ x ≠ negInf := by
  constructor
  · refine fun h => ⟨number_of_lt h, ?_⟩
    rintro rfl
    exact not_lt_negInf _ h
  · rintro ⟨number, above⟩
    exact negInf_lt number (Bool.eq_false_iff.mpr fun lost => above (beq_negInf_iff.mp lost))

/-- What is above any double is above negative infinity. -/
theorem negInf_lt_of_lt (h : x < y) : negInf < y := by
  refine negInf_lt_iff.mpr ⟨number_of_lt h, ?_⟩
  rintro rfl
  exact not_lt_negInf x h

theorem larger_negInf (x : Float) : larger x negInf = x := if_neg (not_lt_negInf x)

/-- The larger of two doubles is above negative infinity if one of them is. -/
theorem negInf_lt_larger (hx : x.isNaN = false) :
    negInf < larger x y ↔ negInf < x ∨ negInf < y := by
  unfold larger
  split
  · rename_i h
    have above := negInf_lt_of_lt h
    exact iff_of_true above (.inr above)
  · rename_i h
    refine ⟨.inl, fun above => above.elim id fun above => negInf_lt_iff.mpr ⟨hx, ?_⟩⟩
    exact fun lost => h (lost ▸ above)

end

section
variable {ws vs : List Float}

theorem negInf_lt_foldl_larger {x : Float} (number : x.isNaN = false) :
    negInf < ws.foldl larger x ↔ negInf < x ∨ ∃ w ∈ ws, negInf < w := by
  induction ws generalizing x with
  | nil => simp
  | cons w ws ih =>
    rw [List.foldl_cons, ih (larger_number number), negInf_lt_larger number, or_assoc]
    simp

theorem negInf_lt_greatest : negInf < greatest ws ↔ ∃ w ∈ ws, negInf < w := by
  rw [greatest, negInf_lt_foldl_larger (by decide)]
  exact or_iff_right (by decide)

theorem foldl_larger_mem (ws : List Float) (x : Float) :
    ws.foldl larger x = x ∨ ws.foldl larger x ∈ ws := by
  induction ws generalizing x with
  | nil => exact .inl rfl
  | cons w ws ih =>
    rw [List.foldl_cons, List.mem_cons]
    rcases ih (larger x w) with same | later
    · rw [same]
      unfold larger
      split
      · exact .inr (.inl rfl)
      · exact .inl rfl
    · exact .inr (.inr later)

/-- The greatest entry is one of the entries, unless all of them are impossible. -/
theorem greatest_mem (some : negInf < greatest ws) : greatest ws ∈ ws := by
  refine (foldl_larger_mem ws negInf).resolve_left fun none => ?_
  rw [greatest, none] at some
  exact absurd some (by decide)

theorem isPossible_eq_false_iff {w : Float} : isPossible w = false ↔ w = negInf := by
  rw [← beq_negInf_iff]
  simp [isPossible, bne]

theorem foldl_larger_possible (ws : List Float) (x : Float) :
    (possible ws).foldl larger x = ws.foldl larger x := by
  induction ws generalizing x with
  | nil => rfl
  | cons w ws ih =>
    cases hw : isPossible w with
    | true =>
      have kept : possible (w :: ws) = w :: possible ws := List.filter_cons_of_pos hw
      rw [kept, List.foldl_cons, List.foldl_cons, ih]
    | false =>
      have dropped : possible (w :: ws) = possible ws :=
        List.filter_cons_of_neg (ne_true_of_eq_false hw)
      obtain rfl := isPossible_eq_false_iff.mp hw
      rw [dropped, List.foldl_cons, larger_negInf, ih]

/-- The greatest entry may be looked for among all entries, the impossible ones included. -/
theorem greatest_possible (ws : List Float) : greatest (possible ws) = greatest ws :=
  foldl_larger_possible ws negInf

theorem logSumExp_eq (ws : List Float) : logSumExp ws =
    if greatest ws == negInf then negInf
    else if greatest ws == posInf then posInf
    else greatest ws + ln (total ((possible ws).map fun w => exp (w - greatest ws))) := by
  unfold logSumExp
  dsimp only
  rw [greatest_possible]

/-- A sum of numbers none of which is below zero is from one on if one is among them. -/
theorem one_le_total (h : ∀ w ∈ ws, Above w) (one : (1 : Float) ∈ ws) : 1 ≤ total ws := by
  have above := total_above h
  cases finite : (total ws).isFinite with
  | true =>
    have start : Amount 0 (-0.0) := .inl ⟨rfl, .negative, rfl⟩
    obtain ⟨k, sum, -, terms⟩ := start.foldl_finite (fun w hw => (h w hw).sign) finite
    obtain ⟨n, amount, part⟩ := terms 1 one
    exact le_of_not_lt (by decide) above.number (sum.not_lt amount part)
  | false =>
    obtain ⟨s, infinite⟩ := infinite_of_not_finite finite
    have hu := infinite.resolve_right (isNaN_eq_false_iff.mp above.number)
    have sign := not_lt_zero_iff.mp above.sign
    rw [hu] at sign
    obtain rfl : s = .positive := sign
    exact one_le_iff.mpr (.inl hu)

/-- The greatest entry stands for itself in the sum, as a one. -/
theorem one_le_exponentials (numbers : ∀ w ∈ ws, w.isNaN = false) (some : negInf < greatest ws)
    (finite : (greatest ws).isFinite = true) :
    1 ≤ total ((possible ws).map fun w => exp (w - greatest ws)) := by
  refine one_le_total ?_ ?_
  · refine List.forall_mem_map.mpr fun w hw => exp_above ?_
    exact sub_finite (possible_numbers numbers w hw) finite
  · have top : greatest ws ∈ possible ws := by
      refine List.mem_filter.mpr ⟨greatest_mem some, isPossible_iff.mpr ?_⟩
      exact negInf_ne_of_finite finite
    refine List.mem_map.mpr ⟨greatest ws, top, ?_⟩
    rw [sub_self finite, exp_zero]

/-- The log-sum of numbers is possible as soon as one of them is. -/
theorem logSumExp_ne_negInf (numbers : ∀ w ∈ ws, w.isNaN = false) (some : ∃ w ∈ ws, negInf < w) :
    (logSumExp ws == negInf) = false := by
  have top := negInf_lt_greatest.mpr some
  have lowest : (greatest ws == negInf) = false :=
    Bool.eq_false_iff.mpr fun h => (negInf_lt_iff.mp top).2 (beq_negInf_iff.mp h)
  rw [logSumExp_eq, if_neg (ne_true_of_eq_false lowest)]
  split
  · decide
  · rename_i bounded
    have finite := finite_of_number (greatest_number ws) (Bool.eq_false_iff.mpr bounded) lowest
    rw [sum_comm]
    exact ln_add_possible (one_le_exponentials numbers top finite) lowest

theorem logMeanExp_ne_negInf (small : ws.length < UInt64.size) (numbers : ∀ w ∈ ws, w.isNaN = false)
    (some : ∃ w ∈ ws, negInf < w) : (logMeanExp ws == negInf) = false := by
  cases ws with
  | nil =>
    obtain ⟨_, none, _⟩ := some
    cases none
  | cons w ws =>
    exact sub_ln_possible (one_le_ofCount (Nat.succ_pos _) small) (ofCount_finite _)
      (logSumExp_ne_negInf numbers some)

theorem logMeanExp_eq_negInf_iff (small : ws.length < UInt64.size)
    (numbers : ∀ w ∈ ws, w.isNaN = false) : logMeanExp ws = negInf ↔ ∀ w ∈ ws, w = negInf := by
  refine ⟨fun mean w hw => ?_, fun all => ?_⟩
  · refine Classical.byContradiction fun above => ?_
    have some : ∃ w ∈ ws, negInf < w := ⟨w, hw, negInf_lt_iff.mpr ⟨numbers w hw, above⟩⟩
    have possible := logMeanExp_ne_negInf small numbers some
    rw [mean] at possible
    exact absurd possible (by decide)
  · exact logMeanExp_impossible small fun w hw => beq_negInf_iff.mpr (all w hw)

/-- The second list is the first one with impossible entries put in, at any places. -/
inductive Padded : List Float → List Float → Prop where
  | nil : Padded [] []
  | entry {ws vs : List Float} (w : Float) (rest : Padded ws vs) : Padded (w :: ws) (w :: vs)
  | impossible {ws vs : List Float} (rest : Padded ws vs) : Padded ws (negInf :: vs)

namespace Padded

theorem possible_eq (h : Padded ws vs) : possible vs = possible ws := by
  induction h with
  | nil => rfl
  | entry w rest ih =>
    unfold possible
    rw [List.filter_cons, List.filter_cons]
    exact congrArg (fun tail => if isPossible w = true then w :: tail else tail) ih
  | impossible rest ih => exact ih

theorem greatest_eq (h : Padded ws vs) : greatest vs = greatest ws := by
  rw [← greatest_possible, h.possible_eq, greatest_possible]

theorem logSumExp_eq (h : Padded ws vs) : logSumExp vs = logSumExp ws :=
  logSumExp_congr h.possible_eq

/-- Twice an impossible entry is impossible. -/
theorem doubled (h : Padded ws vs) : Padded (ws.map (2 * ·)) (vs.map (2 * ·)) := by
  induction h with
  | nil => exact .nil
  | entry w rest ih => exact .entry (2 * w) ih
  | impossible rest ih => exact .impossible ih

theorem effectiveSampleSize_eq (h : Padded ws vs) :
    effectiveSampleSize vs = effectiveSampleSize ws := by
  unfold effectiveSampleSize
  rw [h.logSumExp_eq, h.doubled.logSumExp_eq]

end Padded

/-- Impossible entries, any number of them and wherever they are put into a list, change neither the
greatest entry nor the log-sum nor the effective sample size, which stay the same doubles. The log-mean
of numbers, no more of them than a machine word can count, is impossible exactly if there are none or
all of them are. -/
theorem impossible_entries_idle :
    (∀ ws vs, Padded ws vs → greatest vs = greatest ws ∧ logSumExp vs = logSumExp ws ∧
      effectiveSampleSize vs = effectiveSampleSize ws) ∧
    ∀ ws : List Float, ws.length < UInt64.size → (∀ w ∈ ws, w.isNaN = false) →
      (logMeanExp ws = negInf ↔ ws = [] ∨ ∀ w ∈ ws, w = negInf) := by
  refine ⟨fun ws vs h => ⟨h.greatest_eq, h.logSumExp_eq, h.effectiveSampleSize_eq⟩,
    fun ws small numbers => (logMeanExp_eq_negInf_iff small numbers).trans ?_⟩
  refine ⟨.inr, fun h => h.elim ?_ id⟩
  rintro rfl
  exact nofun

/-- The lowest finite double, twice which is negative infinity. -/
def lowest : Float := Float.ofBits 0xFFEFFFFFFFFFFFFF

/-- Impossible entries around the lowest double change nothing, though doubling makes it one of them.
Its mean with one of them is possible, that of two of them is not. -/
theorem lowest_padded :
    2 * lowest = negInf ∧ logSumExp [negInf, lowest, negInf] = logSumExp [lowest] ∧
      effectiveSampleSize [negInf, lowest, negInf] = effectiveSampleSize [lowest] ∧
      logMeanExp [lowest, negInf] ≠ negInf ∧ logMeanExp [negInf, negInf] = negInf := by
  obtain ⟨idle, means⟩ := impossible_entries_idle
  have padded : Padded [lowest] [negInf, lowest, negInf] :=
    .impossible (.entry lowest (.impossible .nil))
  obtain ⟨-, sum, size⟩ := idle _ _ padded
  refine ⟨rfl, sum, size, fun lost => ?_, ?_⟩
  · have all := (means [lowest, negInf] (by decide) (by decide)).mp lost
    exact absurd (toBits_inj.mpr (all.resolve_left nofun lowest List.mem_cons_self)) (by decide)
  · exact (means [negInf, negInf] (by decide) (by decide)).mpr (.inr (by simp))

end

end Posterior.Numeric
