import Posterior.Numeric.Elementary

/-! Walking along a list of weights: the index at which a mark falls. -/

namespace Posterior.Random

/-- The first weight that the mark falls short of, each weight passed being taken off the mark. -/
def indexAt? : Float → List Float → Option Nat
  | _, [] => none
  | mark, w :: ws => if mark < w then some 0 else (indexAt? (mark - w) ws).map (· + 1)

/-- The last weight above zero. -/
def lastPositive? : List Float → Option Nat
  | [] => none
  | w :: ws =>
    match lastPositive? ws with
    | some i => some (i + 1)
    | none => if 0 < w then some 0 else none

theorem indexAt?_lt {mark : Float} {ws : List Float} {i : Nat} (h : indexAt? mark ws = some i) :
    i < ws.length := by
  induction ws generalizing mark i with
  | nil => simp [indexAt?] at h
  | cons w ws ih =>
    simp only [indexAt?] at h
    split at h
    · simp only [Option.some.injEq] at h
      simp [← h]
    · obtain ⟨j, hj, rfl⟩ := Option.map_eq_some_iff.mp h
      simpa using ih hj

theorem lastPositive?_lt {ws : List Float} {i : Nat} (h : lastPositive? ws = some i) :
    i < ws.length := by
  induction ws generalizing i with
  | nil => simp [lastPositive?] at h
  | cons w ws ih =>
    simp only [lastPositive?] at h
    split at h
    · rename_i j hj
      simp only [Option.some.injEq] at h
      have := ih hj
      simp [← h, this]
    · split at h
      · simp only [Option.some.injEq] at h
        simp [← h]
      · simp at h

end Posterior.Random
