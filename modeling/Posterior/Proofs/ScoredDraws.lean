import Posterior.Distribution.Empirical
import Posterior.Proofs.Shares
import Posterior.Proofs.Grouping
import Posterior.Proofs.Ranges
import Posterior.Proofs.Survivors

/-!
Scores of what was drawn. A distribution that can draw a value should find it possible when it scores
it, and turn down in scoring the parameters that it cannot draw by. For each distribution: by which
parameters, and at which positions of the uniform number, it does.
-/

namespace Posterior

open Numeric

section
variable {params : List Value} {g g' : Rng} {value : Value} {cause : Failure}

theorem Draw.ofExcept_eq_error {α : Type} {result : Except Failure α} :
    Draw.ofExcept result g = .error cause g' ↔ result = .error cause ∧ g = g' := by
  cases result with
  | ok a => exact iff_of_false (fun h => by cases h) (fun h => by cases h.1)
  | error e =>
    change EStateM.Result.error e g = _ ↔ _
    simp

namespace Distribution

/-- Scoring finds a finite log-probability. -/
def Possible (d : Distribution) (params : List Value) (value : Value) : Prop :=
  ∃ x, d.score params value = .ok x ∧ x.isFinite = true

/-- Scoring turns the parameters down for the same reason, whatever the value. -/
def Refuses (d : Distribution) (params : List Value) (cause : Failure) : Prop :=
  ∀ value, d.score params value = .error cause

/-- Scoring takes the parameters, but finds no value possible. -/
def Excludes (d : Distribution) (params : List Value) : Prop :=
  ∀ value, ∃ x, d.score params value = .ok x ∧ x.isFinite = false

theorem possible_of_score {d : Distribution} {x : Float} (h : d.score params value = .ok x) :
    d.Possible params value ↔ x.isFinite = true := by
  refine ⟨?_, fun finite => ⟨x, h, finite⟩⟩
  rintro ⟨y, scored, finite⟩
  rw [h] at scored
  cases scored
  exact finite

section Bernoulli

theorem bernoulli_refuses (failed : bernoulli.draw params g = .error cause g') :
    bernoulli.Refuses params cause := by
  rcases bind_eq_error.mp failed with failed | ⟨p, _, _, failed⟩
  · obtain ⟨failed, _⟩ := Draw.ofExcept_eq_error.mp failed
    exact fun value => except_bind_eq_error.mpr (.inl failed)
  · cases failed

theorem lt_one_of_not_lt {p : Float} (finite : p.isFinite = true) (h : ¬ g.uniform.1 < p) :
    p < 1 := by
  have below := uniform_lt_one g
  rw [lt_iff_unitsOf (uniform_finite g) finite] at h
  rw [lt_iff_unitsOf (uniform_finite g) (by decide)] at below
  rw [lt_iff_unitsOf finite (by decide)]
  omega

theorem bernoulli_possible (drawn : bernoulli.draw params g = .ok value g') :
    ∃ p, realParam "bernoulli" params 0 = .ok p ∧
      (bernoulli.Possible params value ↔ p.isFinite = true) := by
  obtain ⟨p, _, first, drawn⟩ := bind_eq_ok.mp drawn
  obtain ⟨numeric, rfl⟩ := Draw.ofExcept_eq_ok.mp first
  obtain ⟨_, _, second, drawn⟩ := bind_eq_ok.mp drawn
  obtain ⟨rfl, _⟩ := Draw.uniform_eq_ok.mp second
  obtain ⟨rfl, _⟩ := pure_eq_ok.mp drawn
  have scored : bernoulli.score params (.bool (g.uniform.1 < p)) =
      .ok (logOfCoin p (.bool (g.uniform.1 < p))) := except_bind_eq_ok.mpr ⟨p, numeric, rfl⟩
  refine ⟨p, numeric, (possible_of_score scored).trans ?_⟩
  by_cases heads : g.uniform.1 < p
  · rw [decide_eq_true heads, logOfCoin, ln_finite_iff]
    exact and_iff_right (pos_of_lt (uniform_not_lt_zero g) heads)
  · rw [decide_eq_false heads, logOfCoin, ln_finite_iff, one_sub_finite_iff, and_iff_right_iff_imp]
    intro finite
    exact (sub_pos_iff (one_sub_finite_iff.mpr finite)).mpr (lt_one_of_not_lt finite heads)

end Bernoulli

section Gaussian

theorem gaussian_refuses (failed : gaussian.draw params g = .error cause g') :
    gaussian.Refuses params cause := by
  rcases bind_eq_error.mp failed with failed | ⟨mean, _, first, failed⟩
  · obtain ⟨failed, _⟩ := Draw.ofExcept_eq_error.mp failed
    exact fun value => except_bind_eq_error.mpr (.inl failed)
  obtain ⟨mean_eq, rfl⟩ := Draw.ofExcept_eq_ok.mp first
  rcases bind_eq_error.mp failed with failed | ⟨deviation, _, _, failed⟩
  · obtain ⟨failed, _⟩ := Draw.ofExcept_eq_error.mp failed
    exact fun value => except_bind_eq_error.mpr
      (.inr ⟨mean, mean_eq, except_bind_eq_error.mpr (.inl failed)⟩)
  · cases failed

/-- The number that a draw multiplies by the deviation. -/
def polar (u v : Float) : Float := (-2 * ln u).sqrt * cos (fullTurn * v)

theorem gaussian_draw (drawn : gaussian.draw params g = .ok value g') :
    ∃ mean deviation, realParam "gaussian" params 0 = .ok mean ∧
      realParam "gaussian" params 1 = .ok deviation ∧
      value = .real (mean + deviation * polar (1 - g.uniform.1) g.uniform.2.uniform.1) := by
  obtain ⟨mean, _, first, drawn⟩ := bind_eq_ok.mp drawn
  obtain ⟨mean_eq, rfl⟩ := Draw.ofExcept_eq_ok.mp first
  obtain ⟨deviation, _, second, drawn⟩ := bind_eq_ok.mp drawn
  obtain ⟨deviation_eq, rfl⟩ := Draw.ofExcept_eq_ok.mp second
  obtain ⟨_, _, third, drawn⟩ := bind_eq_ok.mp drawn
  obtain ⟨rfl, rfl⟩ := Draw.uniform_eq_ok.mp third
  obtain ⟨_, _, fourth, drawn⟩ := bind_eq_ok.mp drawn
  obtain ⟨rfl, _⟩ := Draw.uniform_eq_ok.mp fourth
  obtain ⟨rfl, _⟩ := pure_eq_ok.mp drawn
  exact ⟨mean, deviation, mean_eq, deviation_eq, rfl⟩

/-- The logarithm of a double is bounded, so a draw is a bounded number of deviations off the mean. -/
theorem polar_below (g g' : Rng) : Below 10 (polar (1 - g.uniform.1) g'.uniform.1) := by
  have finite : (1 - g.uniform.1).isFinite = true := one_sub_finite_iff.mpr (uniform_finite g)
  have pos : 0 < 1 - g.uniform.1 := (sub_pos_iff finite).mpr (uniform_lt_one g)
  have most : ¬ 1 < 1 - g.uniform.1 := not_lt_sub finite (uniform_not_lt_zero g)
  have log := ln_below pos finite
  have doubled : Below 14 (-2 * ln (1 - g.uniform.1)) :=
    (Below.mul (j := 2) (by decide) log (by decide) (.inl (by decide))).mono (by decide)
  have sign : ¬ -2 * ln (1 - g.uniform.1) < 0 := mul_not_neg (by decide) (ln_not_pos pos finite most)
  have root : Below 8 (-2 * ln (1 - g.uniform.1)).sqrt :=
    Below.sqrt (k := 7) doubled sign (by decide) (by decide)
  have angle : Below 5 (fullTurn * g'.uniform.1) :=
    Below.mul (j := 3) (by decide) (uniform_below g') (by decide) (.inl (by decide))
  exact root.mul (cos_below angle.isFinite) (by decide) (.inl (by decide))

/-- The density is above zero at what lies a few deviations off the mean, unless that is no finite way
off. -/
theorem logOfNormal_finite_iff {mean deviation z : Float} (pos : 0 < deviation) (small : Below 10 z) :
    (logOfNormal mean deviation (mean + deviation * z)).isFinite = true ↔
      (mean + deviation * z - mean).isFinite = true := by
  constructor
  · intro h
    have bell := (finite_of_sub (finite_of_sub h).1).1
    exact finite_of_div (finite_of_mul bell).2
  · intro h
    have product := (finite_of_add (finite_of_sub h).1).2
    have finite := (finite_of_mul product).1
    obtain ⟨m, e, some, hd, canonical⟩ := exists_finite_of_pos pos finite
    have least : -1074 ≤ (m.log2 : Int) + e := by
      have := canonical.2.1
      omega
    -- The way off the mean is below some power of two times the deviation, however small or great that
    -- is; dividing by it leaves the power.
    have above : Below (m.log2 + e + 1) deviation := by
      unfold Below
      rw [hd]
      exact Int.lt_succ _
    have away : Below (m.log2 + e + 12) (deviation * z) :=
      (above.mul small (by omega) (.inr product)).mono (by omega)
    have rest : Below (m.log2 + e + 14) (mean + deviation * z - mean) :=
      (away.add_sub (by omega) h).mono (by omega)
    have standard : Below 15 ((mean + deviation * z - mean) / deviation) :=
      rest.div hd (Int.le_refl _) (by decide) (by decide)
    have half : Below 16 (-0.5 * ((mean + deviation * z - mean) / deviation)) :=
      Below.mul (j := 0) (by decide) standard (by decide) (.inl (by decide))
    have bell : Below 32 (logOfBell ((mean + deviation * z - mean) / deviation)) :=
      half.mul standard (by decide) (.inl (by decide))
    have turn : Below 11 (0.5 * ln fullTurn) :=
      Below.mul (j := 0) (by decide) (ln_below (by decide) (by decide)) (by decide) (.inl (by decide))
    have scaled := (finite_of_slight bell.isFinite
      ((ln_below pos finite).slight (by decide) (by decide))).2
    exact (finite_of_slight scaled (turn.slight (by decide) (by decide))).2

theorem gaussian_possible (drawn : gaussian.draw params g = .ok value g') :
    ∃ mean deviation x, realParam "gaussian" params 0 = .ok mean ∧
      realParam "gaussian" params 1 = .ok deviation ∧ value = .real x ∧
      (gaussian.Possible params value ↔ 0 < deviation ∧ (x - mean).isFinite = true) ∧
      (¬ 0 < deviation →
        gaussian.Refuses params (.badParameters "gaussian" .badDeviation params.length)) := by
  obtain ⟨mean, deviation, mean_eq, deviation_eq, rfl⟩ := gaussian_draw drawn
  refine ⟨mean, deviation, _, mean_eq, deviation_eq, rfl, ?_⟩
  have scores (v : Value) : gaussian.score params v =
      if 0 < deviation then
        .ok (v.real?.elim negInf (logOfNormal mean deviation))
      else .error (.badParameters "gaussian" .badDeviation params.length) := by
    unfold gaussian
    dsimp only
    rw [mean_eq, deviation_eq]
    change (if 0 < deviation then _ else _) = _
    cases v.real? <;> rfl
  by_cases pos : 0 < deviation
  · refine ⟨?_, absurd pos⟩
    rw [possible_of_score ((scores _).trans (if_pos pos)), and_iff_right pos]
    exact logOfNormal_finite_iff pos (polar_below g _)
  · refine ⟨iff_of_false ?_ fun h => pos h.1, fun _ v => (scores v).trans (if_neg pos)⟩
    rintro ⟨x, scored, _⟩
    rw [scores, if_neg pos] at scored
    cases scored

end Gaussian

section Discrete

variable {name : String} {arity i : Nat} {items : List Value} {weights : List Float}

theorem listParam_length (short : ∀ items, Value.list items ∈ params → items.length < 2 ^ 63)
    (listed : listParam name params i = .ok items) : items.length < 2 ^ 63 := by
  unfold listParam at listed
  split at listed
  · rename_i found
    cases listed
    obtain ⟨v, there, found⟩ := Option.bind_eq_some_iff.mp found
    cases v with
    | list items =>
      cases found
      exact short items (List.mem_of_getElem? there)
    | _ => cases found
  · cases listed

theorem weightOf_sign {w : Float} (h : weightOf arity value = .ok w) : ¬ w < 0 := by
  unfold weightOf at h
  split at h
  · split at h
    · rename_i weight
      cases h
      simp only [isWeight, Bool.and_eq_true, decide_eq_true_eq] at weight
      exact not_lt_of_le weight.1
    · cases h
  · cases h

theorem mapM_weightOf (h : items.mapM (weightOf arity) = .ok weights) :
    weights.length = items.length ∧ ∀ w ∈ weights, ¬ w < 0 := by
  induction items generalizing weights with
  | nil =>
    cases h
    exact ⟨rfl, fun _ none => absurd none List.not_mem_nil⟩
  | cons item items ih =>
    rw [List.mapM_cons] at h
    obtain ⟨w, first, h⟩ := except_bind_eq_ok.mp h
    obtain ⟨ws, rest, h⟩ := except_bind_eq_ok.mp h
    cases h
    obtain ⟨length, signs⟩ := ih rest
    exact ⟨congrArg (· + 1) length, List.forall_mem_cons.mpr ⟨weightOf_sign first, signs⟩⟩

theorem discreteWeights_signs (h : discreteWeights params = .ok weights) : ∀ w ∈ weights, ¬ w < 0 := by
  obtain ⟨_, _, h⟩ := except_bind_eq_ok.mp h
  exact (mapM_weightOf h).2

theorem discreteWeights_length (short : ∀ items, Value.list items ∈ params → items.length < 2 ^ 63)
    (h : discreteWeights params = .ok weights) : weights.length < 2 ^ 63 := by
  obtain ⟨_, listed, h⟩ := except_bind_eq_ok.mp h
  rw [(mapM_weightOf h).1]
  exact listParam_length short listed

theorem discrete_score (h : discreteWeights params = .ok weights) (small : i < 2 ^ 63) :
    discrete.score params (.int (Int64.ofNat i)) =
      .ok (weights[i]?.elim negInf fun w => ln (w / total weights)) := by
  have index : (Int64.ofNat i).toInt = i := Int64.toInt_ofNat_of_lt small
  have sign : ¬ Int64.ofNat i < 0 := by
    rw [Int64.lt_iff_toInt_lt, index]
    exact Int.not_lt.mpr (Int.natCast_nonneg i)
  refine except_bind_eq_ok.mpr ⟨weights, h, ?_⟩
  dsimp only
  rw [if_neg sign, index, Int.toNat_natCast]
  cases weights[i]? <;> rfl

/-- Without a total above zero no index has a share of it. -/
theorem discrete_excludes (h : discreteWeights params = .ok weights) (nothing : ¬ 0 < total weights) :
    discrete.Excludes params := by
  have impossible (w : Float) : (ln (w / total weights)).isFinite = false := by
    rw [← Bool.not_eq_true, ln_finite_iff, div_not_finite nothing (total_sign (discreteWeights_signs h))]
    simp
  intro value
  have scores : discrete.score params value = _ := congrArg (· >>= _) h
  rw [scores]
  cases value with
  | int i =>
    change ∃ x, (if i < 0 then _ else _) = _ ∧ _
    split
    · exact ⟨negInf, rfl, by decide⟩
    · cases weights[i.toInt.toNat]? with
      | some w => exact ⟨_, rfl, impossible w⟩
      | none => exact ⟨negInf, rfl, by decide⟩
  | _ => exact ⟨negInf, rfl, by decide⟩

theorem discrete_rejects (failed : discrete.draw params g = .error cause g') :
    discrete.Refuses params cause ∨
      ∃ weights, discreteWeights params = .ok weights ∧ ¬ 0 < total weights := by
  rcases bind_eq_error.mp failed with failed | ⟨weights, _, first, failed⟩
  · obtain ⟨failed, _⟩ := Draw.ofExcept_eq_error.mp failed
    exact .inl fun value => except_bind_eq_error.mpr (.inl failed)
  · obtain ⟨weighed, rfl⟩ := Draw.ofExcept_eq_ok.mp first
    refine .inr ⟨weights, weighed, fun pos => ?_⟩
    rw [if_pos pos] at failed
    cases failed

/-- An index is drawn that has a weight above zero, or else it is the last one. -/
theorem discrete_draw (drawn : discrete.draw params g = .ok value g') :
    ∃ weights i w, discreteWeights params = .ok weights ∧ 0 < total weights ∧
      weights[i]? = some w ∧ value = .int (Int64.ofNat i) ∧
      (0 < w ∨ Random.indexAt? (g.uniform.1 * total weights) weights = none ∧
        i + 1 = weights.length) := by
  obtain ⟨weights, _, first, drawn⟩ := bind_eq_ok.mp drawn
  obtain ⟨weighed, rfl⟩ := Draw.ofExcept_eq_ok.mp first
  by_cases pos : 0 < total weights
  · rw [if_pos pos] at drawn
    obtain ⟨_, _, second, drawn⟩ := bind_eq_ok.mp drawn
    obtain ⟨rfl, _⟩ := Draw.uniform_eq_ok.mp second
    obtain ⟨rfl, _⟩ := pure_eq_ok.mp drawn
    have sign : ¬ g.uniform.1 * total weights < 0 :=
      not_lt_zero (unsigned_mul (unsigned_uniform g) (unsigned_of_pos pos))
    cases found : Random.indexAt? (g.uniform.1 * total weights) weights with
    | some i =>
      obtain ⟨w, there, weight⟩ := Random.indexAt?_pos sign found
      exact ⟨weights, i, w, weighed, pos, there, rfl, .inl weight⟩
    | none =>
      have some : 0 < weights.length := by
        refine List.length_pos_iff.mpr fun none => ?_
        rw [none] at pos
        exact absurd pos (by decide)
      exact ⟨weights, weights.length - 1, _, weighed, pos,
        List.getElem?_eq_getElem (Nat.sub_lt some Nat.one_pos), rfl,
        .inr ⟨found, Nat.sub_add_cancel some⟩⟩
  · rw [if_neg pos] at drawn
    exact absurd drawn throw_ne_ok

theorem discrete_possible {w : Float} (weighed : discreteWeights params = .ok weights)
    (pos : 0 < total weights) (there : weights[i]? = some w) (small : i < 2 ^ 63) :
    discrete.Possible params (.int (Int64.ofNat i)) ↔
      (total weights).isFinite = true ∧ 0 < w / total weights := by
  have signs := discreteWeights_signs weighed
  have scored := discrete_score weighed small
  rw [there] at scored
  rw [possible_of_score scored]
  change (ln (w / total weights)).isFinite = true ↔ _
  rw [ln_finite_iff]
  constructor
  · intro h
    refine ⟨eq_true_of_ne_false fun infinite => ?_, h.1⟩
    exact not_pos_div_infinite (finite_of_div h.2) pos infinite h.1
  · exact fun h => ⟨h.2, share_finite signs pos h.1 w (List.mem_of_getElem? there)⟩

end Discrete

section UniformDraw

/-- Only an empty list is turned down that scoring takes. -/
theorem uniformDraw_rejects (failed : uniformDraw.draw params g = .error cause g') :
    uniformDraw.Refuses params cause ∨
      listParam "uniform-draw" params 0 = .ok [] ∧ uniformDraw.Excludes params := by
  cases listed : listParam "uniform-draw" params 0 with
  | error e =>
    left
    rcases bind_eq_error.mp failed with first | ⟨_, _, first, _⟩
    · rw [listed] at first
      cases first
      exact fun value => except_bind_eq_error.mpr (.inl listed)
    · rw [listed] at first
      cases first
  | ok items =>
    rcases picksItem params g items listed with ⟨rfl, _⟩ | ⟨_, _, _, _, _, drawn⟩
    · refine .inr ⟨rfl, fun value => ⟨ln (ofCount 0 / ofCount 0), ?_, by decide⟩⟩
      exact except_bind_eq_ok.mpr ⟨[], listed, rfl⟩
    · cases drawn.symm.trans failed

theorem uniformDraw_possible (short : ∀ items, Value.list items ∈ params → items.length < 2 ^ 63)
    (drawn : uniformDraw.draw params g = .ok value g') : uniformDraw.Possible params value := by
  obtain ⟨items, _, first, _⟩ := bind_eq_ok.mp drawn
  obtain ⟨listed, rfl⟩ := Draw.ofExcept_eq_ok.mp first
  have there : value ∈ items := by
    rcases picksItem params g items listed with ⟨_, failed⟩ | ⟨_, _, _, _, there, drawn'⟩
    · cases failed.symm.trans drawn
    · cases drawn'.symm.trans drawn
      exact List.mem_of_getElem? there
  have hit : 0 < items.countP (· == value) := List.countP_pos_iff.mpr ⟨value, there, BEq.rfl⟩
  have small : items.length < UInt64.size := (listParam_length short listed).trans (by decide)
  exact ⟨_, except_bind_eq_ok.mpr ⟨items, listed, rfl⟩,
    ln_ofCount_finite hit List.countP_le_length small⟩

end UniformDraw

end Distribution

namespace Empirical

open Posterior.Distribution

variable {d : Empirical} {calls : List Histogram.Addition}

/-- The value at which a mark falls has a probability above zero, wherever the mark lies from where
the sum begins. -/
theorem valueAt?_pos {mark acc : Float} {rows : List (Value × Float)}
    (shares : ∀ row ∈ rows, row.2.isFinite = true ∧ ¬ row.2 < 0) (start : ¬ mark < acc)
    (h : valueAt? mark acc rows = some value) : ∃ p, (value, p) ∈ rows ∧ 0 < p := by
  induction rows generalizing acc with
  | nil => cases h
  | cons row rows ih =>
    obtain ⟨⟨finite, sign⟩, others⟩ := List.forall_mem_cons.mp shares
    unfold valueAt? at h
    by_cases passed : mark < acc + row.2
    · rw [if_pos passed] at h
      cases h
      exact ⟨row.2, List.mem_cons_self, pos_of_lt_add finite sign passed start⟩
    · rw [if_neg passed] at h
      obtain ⟨p, there, pos⟩ := ih others passed h
      exact ⟨p, List.mem_cons_of_mem _ there, pos⟩

/-- The rows of a distribution made of masses that are not below zero tell the probabilities of their
values. -/
theorem support_after (made : ofHistogram (Histogram.after calls) = .ok d)
    (masses : ∀ b ∈ (Histogram.after calls).buckets, 0 ≤ b.2) : ∀ row ∈ d.support,
      d.probability row.1 = row.2 ∧ row.2.isFinite = true ∧ ¬ row.2 < 0 := by
  have probabilities := probability_after made
  obtain ⟨⟨pos, finite⟩, rfl⟩ := ofHistogram_eq_ok.mp made
  have signs : ∀ m ∈ (Histogram.after calls).buckets.map (·.2), ¬ m < 0 :=
    List.forall_mem_map.mpr fun b hb => not_lt_of_le (masses b hb)
  refine List.forall_mem_map.mpr fun b hb => ⟨?_, ?_, div_sign (not_lt_of_le (masses b hb)) pos⟩
  · have seen : calls.any (·.value == b.1) = true := by
      have there := (eraseDups_sublist _).mem (Histogram.keys_after calls ▸ List.mem_map_of_mem hb)
      obtain ⟨call, hcall, same⟩ := List.mem_map.mp there
      exact List.any_eq_true.mpr ⟨call, hcall, same ▸ BEq.rfl⟩
    rw [Histogram.buckets_after] at hb
    obtain ⟨v, _, rfl⟩ := List.mem_map.mp hb
    exact (probabilities v).trans (if_pos seen)
  · exact share_finite signs pos finite _ (List.mem_map_of_mem hb)

/-- A draw succeeds. It finds a value by a probability above zero, or else it takes the last one. -/
theorem draw_after (made : ofHistogram (Histogram.after calls) = .ok d)
    (masses : ∀ b ∈ (Histogram.after calls).buckets, 0 ≤ b.2) (g : Rng) :
    ∃ row ∈ d.support, d.draw g = .ok row.1 g.uniform.2 ∧
      (0 < row.2 ∨ valueAt? g.uniform.1 0 d.support = none ∧ d.support.getLast? = some row) := by
  have shares := support_after made masses
  have start : d.draw g = _ := bind_ok (Draw.uniform_eq_ok.mpr ⟨rfl, rfl⟩)
  rw [start]
  cases found : valueAt? g.uniform.1 0 d.support with
  | some value =>
    obtain ⟨p, there, pos⟩ := valueAt?_pos (fun row hrow => (shares row hrow).2)
      (uniform_not_lt_zero g) found
    exact ⟨(value, p), there, rfl, .inl pos⟩
  | none =>
    cases last : d.support.getLast? with
    | some row => exact ⟨row, List.mem_of_getLast? last, rfl, .inr ⟨rfl, rfl⟩⟩
    | none =>
      obtain ⟨⟨pos, _⟩, rfl⟩ := ofHistogram_eq_ok.mp made
      have none := List.getLast?_eq_none_iff.mp last
      exact absurd (List.map_eq_nil_iff.mp none) (buckets_ne_nil pos)

theorem possible_after (made : ofHistogram (Histogram.after calls) = .ok d)
    (masses : ∀ b ∈ (Histogram.after calls).buckets, 0 ≤ b.2) :
    ∀ row ∈ d.support, d.distribution.Possible params row.1 ↔ 0 < d.probability row.1 := by
  intro row there
  obtain ⟨share, finite, _⟩ := support_after made masses row there
  have scored : d.distribution.score params row.1 = .ok (ln (d.probability row.1)) := rfl
  rw [possible_of_score scored, ln_finite_iff, share]
  exact and_iff_left finite

end Empirical

end

open Posterior.Distribution in
/-- What the scores say of a draw, for lists that indices can count. A coin and a normal turn down in
scoring what they turn down in drawing. A weighted index and a choice among items do as well, except
where the weights come to nothing and where there are no items: scoring takes these, and finds no
value possible. An item that was drawn is always possible. A coin that was drawn is possible exactly
if its probability is finite; a real, if the deviation is above zero, without which scoring refuses,
and the real is a finite way off the mean; an index, if the total is finite and the share of its
weight does not come to zero; a value of a histogram of masses not below zero, whose draws succeed, if
its probability is above zero. An index of weight zero or a value of probability zero is drawn only
if no running sum passes the mark, and it is then the last one. -/
theorem draws_scored (params : List Value) (g : Rng)
    (short : ∀ items, Value.list items ∈ params → items.length < 2 ^ 63) :
    (∀ cause g', bernoulli.draw params g = .error cause g' → bernoulli.Refuses params cause) ∧
    (∀ value g', bernoulli.draw params g = .ok value g' →
      ∃ p, realParam "bernoulli" params 0 = .ok p ∧
        (bernoulli.Possible params value ↔ p.isFinite = true)) ∧
    (∀ cause g', gaussian.draw params g = .error cause g' → gaussian.Refuses params cause) ∧
    (∀ value g', gaussian.draw params g = .ok value g' →
      ∃ mean deviation x, realParam "gaussian" params 0 = .ok mean ∧
        realParam "gaussian" params 1 = .ok deviation ∧ value = .real x ∧
        (gaussian.Possible params value ↔ 0 < deviation ∧ (x - mean).isFinite = true) ∧
        (¬ 0 < deviation →
          gaussian.Refuses params (.badParameters "gaussian" .badDeviation params.length))) ∧
    (∀ cause g', discrete.draw params g = .error cause g' →
      discrete.Refuses params cause ∨
        (∃ weights, discreteWeights params = .ok weights ∧ ¬ 0 < total weights) ∧
          discrete.Excludes params) ∧
    (∀ value g', discrete.draw params g = .ok value g' →
      ∃ weights i w, discreteWeights params = .ok weights ∧ weights[i]? = some w ∧
        value = .int (Int64.ofNat i) ∧
        (discrete.Possible params value ↔
          (total weights).isFinite = true ∧ 0 < w / total weights) ∧
        (0 < w ∨ Random.indexAt? (g.uniform.1 * total weights) weights = none ∧
          i + 1 = weights.length)) ∧
    (∀ cause g', uniformDraw.draw params g = .error cause g' →
      uniformDraw.Refuses params cause ∨
        listParam "uniform-draw" params 0 = .ok [] ∧ uniformDraw.Excludes params) ∧
    (∀ value g', uniformDraw.draw params g = .ok value g' → uniformDraw.Possible params value) ∧
    ∀ calls d, Empirical.ofHistogram (Histogram.after calls) = .ok d →
      (∀ b ∈ (Histogram.after calls).buckets, 0 ≤ b.2) →
      ∃ row ∈ d.support, d.distribution.draw params g = .ok row.1 g.uniform.2 ∧
        (d.distribution.Possible params row.1 ↔ 0 < d.probability row.1) ∧
        (0 < d.probability row.1 ∨
          Empirical.valueAt? g.uniform.1 0 d.support = none ∧ d.support.getLast? = some row) := by
  refine ⟨fun _ _ => bernoulli_refuses, fun _ _ => bernoulli_possible, fun _ _ => gaussian_refuses,
    fun _ _ => gaussian_possible, fun cause g' failed => ?_, fun value g' drawn => ?_,
    fun _ _ => uniformDraw_rejects, fun _ _ => uniformDraw_possible short, fun calls d made masses => ?_⟩
  · refine (discrete_rejects failed).imp_right ?_
    rintro ⟨weights, weighed, nothing⟩
    exact ⟨⟨weights, weighed, nothing⟩, discrete_excludes weighed nothing⟩
  · obtain ⟨weights, i, w, weighed, pos, there, rfl, weight⟩ := discrete_draw drawn
    have small : i < 2 ^ 63 :=
      (List.getElem?_eq_some_iff.mp there).1.trans (discreteWeights_length short weighed)
    exact ⟨weights, i, w, weighed, there, rfl, discrete_possible weighed pos there small, weight⟩
  · obtain ⟨row, there, drawn, weight⟩ := Empirical.draw_after made masses g
    refine ⟨row, there, drawn, Empirical.possible_after made masses row there, ?_⟩
    rw [(Empirical.support_after made masses row there).1]
    exact weight

/-- A lone weight of zero is turned down by the draw, but scoring finds every index impossible
instead. As a list of items the same list has something to draw, and what is drawn is possible, as is
what is drawn of a histogram that saw one value. -/
theorem lone_zero_unrefused :
    let params := [Value.list [.int 0]]
    let cause := Failure.badParameters "discrete" .zeroTotal 1
    Distribution.discrete.draw params (steadyRng 0) = .error cause (steadyRng 0) ∧
      ¬ Distribution.discrete.Refuses params cause ∧ Distribution.discrete.Excludes params ∧
      (∃ g, Distribution.uniformDraw.draw params (steadyRng 0) = .ok (.int 0) g) ∧
      Distribution.uniformDraw.Possible params (.int 0) ∧
      ∃ d, Empirical.ofHistogram (Histogram.after [.observe .unit]) = .ok d ∧
        ∃ row ∈ d.support, d.distribution.Possible params row.1 := by
  intro params cause
  have short : ∀ items, Value.list items ∈ params → items.length < 2 ^ 63 := by
    intro items there
    cases List.mem_singleton.mp there
    decide
  obtain ⟨_, _, _, _, rejects, _, _, items, histogram⟩ := draws_scored params (steadyRng 0) short
  have rejected : Distribution.discrete.draw params (steadyRng 0) = .error cause (steadyRng 0) := rfl
  have taken : ¬ Distribution.discrete.Refuses params cause := by
    intro refuses
    cases refuses .unit
  obtain ⟨g, drawn⟩ : ∃ g, Distribution.uniformDraw.draw params (steadyRng 0) = .ok (.int 0) g :=
    ⟨_, rfl⟩
  obtain ⟨row, there, _, possible, weight⟩ :=
    histogram [.observe .unit] ⟨[(.unit, 1 / 1)], 0, none, 1⟩ rfl (by decide +kernel)
  have found : Empirical.valueAt? (steadyRng 0).uniform.1 0 [(.unit, 1 / 1)] = some .unit := rfl
  refine ⟨rejected, taken, ((rejects _ _ rejected).resolve_left taken).2, ⟨g, drawn⟩,
    items _ _ drawn, _, rfl, row, there, possible.mpr (weight.resolve_right fun last => ?_)⟩
  cases found.symm.trans last.1

end Posterior
