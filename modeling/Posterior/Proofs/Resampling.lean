import Posterior.ParticleFilter
import Posterior.Proofs.Replay
import Posterior.Proofs.Rounds
import Posterior.Rejuvenation.Filter

/-!
Residual resampling and what it conserves. The certain copies of each parent are cut off at the
size of the population and the places that are left are drawn, so that no place is lost or filled
twice; a population that is resampled gets whole copies of its particles, one that cannot be stays
as it is.
-/

namespace Posterior

open Numeric

namespace Resampling

variable {n : Nat} {weights : Vector Float n} {mean : Float} {g g' : Rng}

theorem multinomial_ok (weights : Vector Float n) (pos : 0 < n) (g : Rng) :
    ∃ i g', multinomial weights pos g = .ok i g' := by
  unfold multinomial
  split
  · exact ⟨_, _, rfl⟩
  · exact Draw.below_ok pos g

theorem multinomials_succ {pos : 0 < n} {k : Nat}
    {is : { is : List (Fin n) // is.length = k + 1 }} :
    multinomials weights pos (k + 1) g = .ok is g' ↔
      ∃ i g₁ rest, multinomial weights pos g = .ok i g₁ ∧
        multinomials weights pos k g₁ = .ok rest g' ∧ is.1 = i :: rest.1 := by
  rw [multinomials]
  simp only [bind_eq_ok, pure_eq_ok]
  constructor
  · rintro ⟨i, g₁, hi, rest, _, hr, rfl, rfl⟩
    exact ⟨i, g₁, rest, hi, hr, rfl⟩
  · rintro ⟨i, g₁, rest, hi, hr, he⟩
    exact ⟨i, g₁, hi, rest, g', hr, Subtype.ext he.symm, rfl⟩

theorem multinomials_ok (weights : Vector Float n) (pos : 0 < n) (k : Nat) (g : Rng) :
    ∃ is g', multinomials weights pos k g = .ok is g' := by
  induction k generalizing g with
  | zero => exact ⟨_, _, rfl⟩
  | succ k ih =>
    obtain ⟨i, g₁, hi⟩ := multinomial_ok weights pos g
    obtain ⟨rest, g₂, hr⟩ := ih g₁
    exact ⟨⟨i :: rest.1, by simp [rest.2]⟩, g₂, multinomials_succ.mpr ⟨i, g₁, rest, hi, hr, rfl⟩⟩

def logMean (weights : Vector Float n) : Float := logMeanExp weights.toList

theorem pos_of_possible (h : (logMean weights == negInf) = false) : 0 < n := by
  rcases Nat.eq_zero_or_pos n with rfl | pos
  · unfold logMean at h
    rw [show weights.toList = [] from List.eq_nil_of_length_eq_zero (by simp)] at h
    cases h
  · exact pos

/-- The fractional parts of the expected copies. -/
def remainders (weights : Vector Float n) : Vector Float n :=
  weights.map (remainder (logMean weights))

/-- How many places the certain copies leave over. -/
abbrev missing (weights : Vector Float n) : Nat := n - (kept (logMean weights) weights).length

/-- How resampling comes out. It fails on a weight that is NaN and does nothing if every weight is
impossible; otherwise the places that are left over are drawn. -/
inductive Outcome (weights : Vector Float n) (g : Rng) : Prop where
  | nan {i : Nat} (found : nanIndex? weights = some i)
      (fails : residual weights g = .error (.weightNaN i) g)
  | impossible (numbers : nanIndex? weights = none)
      (impossible : (logMean weights == negInf) = true)
      (nothing : residual weights g = .ok none g)
  | resampled {drawn : { is : List (Fin n) // is.length = missing weights }} {g' : Rng}
      (numbers : nanIndex? weights = none) (possible : (logMean weights == negInf) = false)
      (pos : 0 < n)
      (draws : multinomials (remainders weights) pos (missing weights) g = .ok drawn g')
      (returns : residual weights g = .ok (some (assemble (logMean weights) weights drawn)) g')

theorem outcome (weights : Vector Float n) (g : Rng) : Outcome weights g := by
  cases hn : nanIndex? weights with
  | some i =>
    refine .nan hn ?_
    unfold residual
    simp only [hn]
    rfl
  | none =>
    cases hm : logMean weights == negInf with
    | true =>
      refine .impossible hn hm ?_
      unfold logMean at hm
      unfold residual
      simp only [hn, hm]
      rfl
    | false =>
      have pos := pos_of_possible hm
      obtain ⟨drawn, g', hd⟩ := multinomials_ok (remainders weights) pos (missing weights) g
      refine .resampled hn hm pos hd ?_
      unfold logMean at hm
      unfold residual
      simp only [hn, hm, Bool.false_eq_true, ↓reduceIte, dif_pos pos, bind_eq_ok, pure_eq_ok,
        Option.some.injEq]
      exact ⟨drawn, g', hd, rfl, rfl⟩

theorem residual_eq_some {r : Resampled n} (h : residual weights g = .ok (some r) g') :
    nanIndex? weights = none ∧ (logMean weights == negInf) = false ∧
      ∃ (pos : 0 < n) (drawn : _),
        multinomials (remainders weights) pos (missing weights) g = .ok drawn g' ∧
        r = assemble (logMean weights) weights drawn := by
  cases outcome weights g with
  | nan found fails =>
    rw [fails] at h
    cases h
  | impossible numbers impossible nothing =>
    rw [nothing] at h
    cases h
  | resampled numbers possible pos draws returns =>
    rw [returns] at h
    cases h
    exact ⟨numbers, possible, pos, _, draws, rfl⟩

theorem residual_eq_none (h : residual weights g = .ok none g') :
    (logMean weights == negInf) = true := by
  cases outcome weights g with
  | nan found fails =>
    rw [fails] at h
    cases h
  | impossible numbers impossible nothing => exact impossible
  | resampled numbers possible pos draws returns =>
    rw [returns] at h
    cases h

/-- If no weight is NaN and some weight is possible, resampling yields parents. -/
theorem residual_ok (numbers : nanIndex? weights = none)
    (possible : (logMean weights == negInf) = false) (g : Rng) :
    ∃ r g', residual weights g = .ok (some r) g' := by
  cases outcome weights g with
  | nan found fails =>
    rw [numbers] at found
    cases found
  | impossible _ impossible nothing =>
    rw [possible] at impossible
    cases impossible
  | resampled _ _ pos draws returns => exact ⟨_, _, returns⟩

/-- Every index as often as it has earned copies, in order. -/
def certain (earned : Fin n → Nat) : List (Fin n) :=
  (List.finRange n).flatMap fun i => List.replicate (earned i) i

/-- How many copies have been earned, all parents taken together. -/
def certainCount (earned : Fin n → Nat) : Nat :=
  ((List.finRange n).map earned).foldr (· + ·) 0

/-- The copies that each weight has earned. -/
def earned (mean : Float) (weights : Vector Float n) (i : Fin n) : Nat :=
  toCount (wholePart (exp (weights.get i - mean)))

theorem kept_eq (mean : Float) (weights : Vector Float n) :
    kept mean weights = (certain (earned mean weights)).take n := rfl

theorem length_certain (earned : Fin n → Nat) : (certain earned).length = certainCount earned := by
  simp [certain, certainCount, List.length_flatMap, List.sum]

theorem length_kept (mean : Float) (weights : Vector Float n) :
    (kept mean weights).length = min n (certainCount (earned mean weights)) := by
  rw [kept_eq, List.length_take, length_certain]

theorem certain_sorted (earned : Fin n → Nat) : (certain earned).Pairwise (· ≤ ·) := by
  refine List.pairwise_flatMap.mpr ⟨?_, ?_⟩
  · intro i _
    exact List.pairwise_replicate.mpr (.inr (Nat.le_refl _))
  · refine (List.pairwise_lt_finRange n).imp fun {i j} hij => ?_
    intro a ha b hb
    rw [(List.mem_replicate.mp ha).2, (List.mem_replicate.mp hb).2]
    exact Nat.le_of_lt hij

theorem count_flatMap_replicate (f : Fin n → Nat) {i : Fin n} {l : List (Fin n)} (hl : l.Nodup)
    (hi : i ∈ l) : (l.flatMap fun j => List.replicate (f j) j).count i = f i := by
  induction l with
  | nil => cases hi
  | cons j l ih =>
    obtain ⟨hj, hl⟩ := List.nodup_cons.mp hl
    rw [List.flatMap_cons, List.count_append, List.count_replicate]
    rcases List.mem_cons.mp hi with rfl | hi
    · have hrest : (l.flatMap fun j => List.replicate (f j) j).count i = 0 := by
        refine List.count_eq_zero.mpr fun hm => ?_
        obtain ⟨k, hk, hik⟩ := List.mem_flatMap.mp hm
        obtain rfl := (List.mem_replicate.mp hik).2
        exact hj hk
      simp [hrest]
    · have hne : ¬ j = i := by
        rintro rfl
        exact hj hi
      simp [hne, ih hl hi]

theorem count_certain (earned : Fin n → Nat) (i : Fin n) : (certain earned).count i = earned i :=
  count_flatMap_replicate _ (List.nodup_finRange n) (List.mem_finRange i)

theorem ancestors_assemble (mean : Float) (weights : Vector Float n)
    (drawn : { is : List (Fin n) // is.length = n - (kept mean weights).length }) :
    (assemble mean weights drawn).ancestors.toList = drawn.1 ++ kept mean weights := rfl

/-- What resampling by residuals owes to a population of `n` whose particles have earned so many copies
each: as many parents as there are places, all of them in range; at the end, in the order of their
parents, the earned copies as far as they fit; and, if all of them fit, no parent short of its own. -/
structure Conserves (earned : Fin n → Nat) (r : Resampled n) : Prop where
  size : r.ancestors.toList.length = n
  inRange : ∀ i ∈ r.ancestors.toList, i.val < n
  retained : r.retained = min n (certainCount earned)
  last : r.ancestors.toList.drop (n - r.retained) = (certain earned).take n
  inOrder : (r.ancestors.toList.drop (n - r.retained)).Pairwise (· ≤ ·)
  covered : certainCount earned ≤ n → ∀ i, earned i ≤ r.ancestors.toList.count i

theorem assemble_conserves (mean : Float) (weights : Vector Float n)
    (drawn : { is : List (Fin n) // is.length = n - (kept mean weights).length }) :
    Conserves (earned mean weights) (assemble mean weights drawn) := by
  obtain ⟨is, hlen⟩ := drawn
  have hlast : (assemble mean weights ⟨is, hlen⟩).ancestors.toList.drop
      (n - (kept mean weights).length) = (certain (earned mean weights)).take n :=
    List.drop_left' hlen
  refine ⟨by simp, fun i _ => i.isLt, length_kept .., hlast, ?_, ?_⟩
  · exact hlast ▸ (certain_sorted (earned mean weights)).take
  · intro hle i
    have hk : kept mean weights = certain (earned mean weights) :=
      List.take_of_length_le (Nat.le_trans (Nat.le_of_eq (length_certain ..)) hle)
    have hc : (kept mean weights).count i = earned mean weights i := by
      rw [hk, count_certain]
    rw [ancestors_assemble, List.count_append, hc]
    exact Nat.le_add_left ..

theorem residual_conserves {r : Resampled n} (h : residual weights g = .ok (some r) g') :
    r.logMeanWeight = logMeanExp weights.toList ∧
      Conserves (earned (logMeanExp weights.toList) weights) r := by
  obtain ⟨_, _, _, drawn, _, rfl⟩ := residual_eq_some h
  exact ⟨rfl, assemble_conserves _ weights drawn⟩

end Resampling

namespace Population

variable {n : Nat} {p q : Population n} {strict : Bool} {algorithm : String} {index : Nat}
  {noted : Barrier} {g g' : Rng}

theorem resample_of_residual {r : Resampled n}
    (h : Resampling.residual p.weights g = .ok (some r) g') (strict : Bool) (algorithm : String)
    (index : Nat) :
    ∃ noted, p.resample strict algorithm index g = .ok (p.descend r, noted) g' ∧
      noted.degenerate = false := by
  unfold resample
  exact ⟨_, bind_eq_ok.mpr ⟨_, _, h, rfl⟩, rfl⟩

/-- Resampling fails on a weight that is NaN, and a strict population also if every weight is
impossible; nothing has been drawn then. -/
theorem resample_eq_error {cause : Failure}
    (h : p.resample strict algorithm index g = .error cause g') :
    g' = g ∧ ((∃ i, Resampling.nanIndex? p.weights = some i ∧ cause = .weightNaN i) ∨
      (strict = true ∧ (logMeanExp p.weights.toList == negInf) = true ∧
        cause = .allWeightsImpossible algorithm index n)) := by
  unfold resample at h
  rw [bind_eq_error] at h
  cases Resampling.outcome p.weights g with
  | nan found fails =>
    rw [fails] at h
    rcases h with h | ⟨r, g₁, hr, _⟩
    · cases h
      exact ⟨rfl, .inl ⟨_, found, rfl⟩⟩
    · cases hr
  | impossible numbers impossible nothing =>
    rw [nothing] at h
    rcases h with h | ⟨r, g₁, hr, h⟩
    · cases h
    · cases hr
      cases strict with
      | false => cases h
      | true =>
        cases h
        exact ⟨rfl, .inr ⟨rfl, impossible, rfl⟩⟩
  | resampled numbers possible pos draws returns =>
    rw [returns] at h
    rcases h with h | ⟨r, g₁, hr, h⟩
    · cases h
    · cases hr
      cases h

end Population

/-- Work that fails on the generator fails the run and leaves the engine as it is. -/
theorem Run.draw_eq_error {σ α : Type} {s : Session σ} {d : Draw α} {cause : Failure} {g : Rng}
    (h : d s.context.rng = .error cause g) :
    (Run.draw d : Run σ α) s =
      .error (.failed cause) { s with context := { s.context with rng := g } } := by
  unfold Run.draw Run.onContext InContext.draw
  simp only [h]

theorem ParticleFilter.barrier_eq_error {n : Nat} {task : Task} {s : Session (ParticleFilter n)}
    {cause : Failure} {g : Rng}
    (h : s.engine.population.resample task.strict "particle-filter" s.engine.metrics.barriers.length
      s.context.rng = .error cause g) : barrier task s = .error (.failed cause) s := by
  obtain ⟨rfl, _⟩ := Population.resample_eq_error h
  unfold barrier
  refine bind_eq_error.mpr (.inr ⟨s.engine, s, Run.engine_eq_ok.mpr ⟨rfl, rfl⟩, ?_⟩)
  exact bind_eq_error.mpr (.inl (Run.draw_eq_error h))

theorem RejuvenatingFilter.barrier_eq_error {n : Nat} {task : Task}
    {s : Session (RejuvenatingFilter n)} {cause : Failure} {g : Rng}
    (h : s.engine.population.resample false "rejuvenation" s.engine.metrics.barriers.length
      s.context.rng = .error cause g) : barrier task s = .error (.failed cause) s := by
  obtain ⟨rfl, _⟩ := Population.resample_eq_error h
  unfold barrier
  refine bind_eq_error.mpr (.inr ⟨s.engine, s, Run.engine_eq_ok.mpr ⟨rfl, rfl⟩, ?_⟩)
  exact bind_eq_error.mpr (.inl (Run.draw_eq_error h))

/-- Resampling by residuals keeps the size of a population and the copies that its particles have
earned, of each as many as the whole part of `exp (w - mean)`. A child is its parent in all but the
weight, and all children weigh the log-mean of the weights before; if resampling fails, the filter is
left as it was, population and generator included. -/
theorem resampling_conserves_population {n : Nat} :
    (∀ (weights : Vector Float n) g r g', Resampling.residual weights g = .ok (some r) g' →
      r.logMeanWeight = logMeanExp weights.toList ∧
        Resampling.Conserves
          (fun i => toCount (wholePart (exp (weights.get i - logMeanExp weights.toList)))) r) ∧
    (∀ (p : Population n) strict algorithm index g q noted g',
      p.resample strict algorithm index g = .ok (q, noted) g' → noted.degenerate = false →
      ∃ r, Resampling.residual p.weights g = .ok (some r) g' ∧
        noted.logMeanWeight = r.logMeanWeight ∧
        ∀ j, q.particles.get j =
          { p.particles.get (r.ancestors.get j) with weight := noted.logMeanWeight }) ∧
    (∀ (p : Population n) strict algorithm index g cause g',
      p.resample strict algorithm index g = .error cause g' →
      (∃ i, Resampling.nanIndex? p.weights = some i ∧ cause = .weightNaN i) ∨
        (strict = true ∧ (logMeanExp p.weights.toList == negInf) = true ∧
          cause = .allWeightsImpossible algorithm index n)) ∧
    (∀ (task : ParticleFilter.Task) (s : Session (ParticleFilter n)) cause g,
      s.engine.population.resample task.strict "particle-filter" s.engine.metrics.barriers.length
        s.context.rng = .error cause g →
      ParticleFilter.barrier task s = .error (.failed cause) s) ∧
    (∀ (task : RejuvenatingFilter.Task) (s : Session (RejuvenatingFilter n)) cause g,
      s.engine.population.resample false "rejuvenation" s.engine.metrics.barriers.length
        s.context.rng = .error cause g →
      RejuvenatingFilter.barrier task s = .error (.failed cause) s) := by
  refine ⟨?_, ?_, ?_, ?_, ?_⟩
  · intro weights g r g' h
    exact Resampling.residual_conserves h
  · intro p strict algorithm index g q noted g' h hd
    rcases Population.resample_cases h with ⟨r, hr, _, hw, rfl⟩ | ⟨hd', _⟩
    · exact ⟨r, hr, hw, fun j => by rw [Population.get_descend, hw]⟩
    · rw [hd] at hd'
      cases hd'
  · intro p strict algorithm index g cause g' h
    exact (Population.resample_eq_error h).2
  · intro task s cause g h
    exact ParticleFilter.barrier_eq_error h
  · intro task s cause g h
    exact RejuvenatingFilter.barrier_eq_error h

/-- Two particles that have passed different numbers of factors. -/
def unevenPair (first second : Float) : Population 2 where
  particles := #v[{ (default : Particle) with weight := first, factorCount := 1 },
    { (default : Particle) with weight := second, factorCount := 2 }]
  active := 1

/-- Beside an impossible particle the other one is kept twice, and two particles of the same weight are
kept once each, in their order. Of a weight so low that the mean is rounded to it one copy is kept, and
the second place is drawn. The population is made of such copies; it fails, and both filters stop at
their barrier, on a weight that is not a number and, if it is strict, on two impossible ones. -/
theorem uneven_pair_conserved :
    let p := unevenPair (-1e17) negInf
    let s : Session (ParticleFilter 2) :=
      ⟨⟨unevenPair negInf negInf, .ofPopulation 2⟩, quietContext "particle-filter"⟩
    let t : Session (RejuvenatingFilter 2) :=
      ⟨⟨unevenPair 0 nan, .ofPopulation 2⟩, quietContext "rejuvenation"⟩
    (∃ r g, Resampling.residual #v[0, negInf] (steadyRng 0) = .ok (some r) g ∧
      r.retained = 2 ∧ r.ancestors.toList.drop 0 = [0, 0]) ∧
    (∃ r g, Resampling.residual #v[-3, -3] (steadyRng 0) = .ok (some r) g ∧
      r.retained = 2 ∧ r.ancestors.toList.drop 0 = [0, 1]) ∧
    (∃ r g, Resampling.residual p.weights (steadyRng 0xFFFFFFFF) = .ok (some r) g ∧
      r.retained = 1 ∧ r.ancestors.toList.drop 1 = [0] ∧ r.ancestors.toList.length = 2) ∧
    (∃ q noted g, p.resample true "particle-filter" 0 (steadyRng 0xFFFFFFFF) = .ok (q, noted) g ∧
      ∃ r : Resampled 2, ∀ j, q.particles.get j =
        { p.particles.get (r.ancestors.get j) with weight := noted.logMeanWeight }) ∧
    (∃ i g, (unevenPair 0 nan).resample false "rejuvenation" 0 (steadyRng 0) =
      .error (.weightNaN i) g) ∧
    (∃ cause, ParticleFilter.barrier ⟨⟨1⟩, true⟩ s = .error (.failed cause) s) ∧
    ∃ cause, RejuvenatingFilter.barrier ⟨⟨1⟩, 1, false, false, 9⟩ t = .error (.failed cause) t := by
  intro p s t
  obtain ⟨residuals, resamples, fails, filter, rejuvenating⟩ :=
    resampling_conserves_population (n := 2)
  have keeps (weights : Vector Float 2) (g : Rng) (count : Nat) (copies : List (Fin 2))
      (numbers : Resampling.nanIndex? weights = none)
      (possible : (Resampling.logMean weights == negInf) = false)
      (counted : min 2 (Resampling.certainCount fun i =>
        toCount (wholePart (exp (weights.get i - logMeanExp weights.toList)))) = count)
      (listed : (Resampling.certain fun i =>
        toCount (wholePart (exp (weights.get i - logMeanExp weights.toList)))).take 2 = copies) :
      ∃ r g', Resampling.residual weights g = .ok (some r) g' ∧ r.retained = count ∧
        r.ancestors.toList.drop (2 - count) = copies ∧ r.ancestors.toList.length = 2 := by
    obtain ⟨r, g', ran⟩ := Resampling.residual_ok numbers possible g
    obtain ⟨_, conserves⟩ := residuals weights g r g' ran
    have retained := conserves.retained.trans counted
    exact ⟨r, g', ran, retained, retained ▸ conserves.last.trans listed, conserves.size⟩
  refine ⟨?_, ?_, ?_, ?_, ?_, ?_, ?_⟩
  · obtain ⟨r, g, ran, retained, last, _⟩ := keeps #v[0, negInf] (steadyRng 0) 2 [0, 0]
      (by decide +kernel) (by decide +kernel) (by decide +kernel) (by decide +kernel)
    exact ⟨r, g, ran, retained, last⟩
  · obtain ⟨r, g, ran, retained, last, _⟩ := keeps #v[-3, -3] (steadyRng 0) 2 [0, 1]
      (by decide +kernel) (by decide +kernel) (by decide +kernel) (by decide +kernel)
    exact ⟨r, g, ran, retained, last⟩
  · exact keeps p.weights (steadyRng 0xFFFFFFFF) 1 [0]
      (by decide +kernel) (by decide +kernel) (by decide +kernel) (by decide +kernel)
  · have ran : succeedsWith (fun after _ => !after.2.degenerate)
        (p.resample true "particle-filter" 0 (steadyRng 0xFFFFFFFF)) = true := by
      decide +kernel
    obtain ⟨⟨q, noted⟩, g, resampled, sound⟩ := exists_of_succeedsWith ran
    obtain ⟨r, _, _, copied⟩ := resamples p _ _ _ _ q noted g resampled (by simpa using sound)
    exact ⟨q, noted, g, resampled, r, copied⟩
  · have ran : succeeds ((unevenPair 0 nan).resample false "rejuvenation" 0 (steadyRng 0)) =
        false := by decide +kernel
    obtain ⟨cause, g, failed⟩ := exists_of_fails ran
    rcases fails _ _ _ _ _ _ _ failed with ⟨i, _, rfl⟩ | ⟨strict, _⟩
    · exact ⟨i, g, failed⟩
    · cases strict
  · have ran : succeeds ((unevenPair negInf negInf).resample true "particle-filter" 0
        (steadyRng 0)) = false := by decide +kernel
    obtain ⟨cause, _, failed⟩ := exists_of_fails ran
    exact ⟨cause, filter _ s _ _ failed⟩
  · have ran : succeeds ((unevenPair 0 nan).resample false "rejuvenation" 0 (steadyRng 0)) =
        false := by decide +kernel
    obtain ⟨cause, _, failed⟩ := exists_of_fails ran
    exact ⟨cause, rejuvenating _ t _ _ failed⟩

end Posterior
