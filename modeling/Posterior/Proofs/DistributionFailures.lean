import Posterior.Distribution.Elementary
import Posterior.Distribution.Empirical
import Posterior.Proofs.Blame

/-!
Failures of the distributions of the library. They turn down parameters and an empty support; none
of them passes a failure of its own off for one of an engine.
-/

namespace Posterior

namespace Distribution

/-- The distributions that come with the library. -/
inductive Standard : Distribution → Prop where
  | bernoulli : Standard .bernoulli
  | discrete : Standard .discrete
  | uniformDraw : Standard .uniformDraw
  | gaussian : Standard .gaussian
  | empirical (d : Empirical) : Standard d.distribution

/-- The failures with which the distributions of the library turn down what they are asked. -/
inductive Refusal : Failure → Prop where
  | parameters (name : String) (fault : ParameterFault) (arity : Nat) :
      Refusal (.badParameters name fault arity)
  | support : Refusal .emptySupport

variable {name : String} {params : List Value} {i arity : Nat} {cause : Failure} {value : Value}

theorem Refusal.not_internal (h : Refusal cause) : ¬ cause.Internal := by
  cases h with
  | parameters name fault arity =>
    change "bad-params" ∉ Failure.internalCodes
    decide
  | support =>
    change "empty-support" ∉ Failure.internalCodes
    decide

theorem realParam_refuses (failed : realParam name params i = .error cause) : Refusal cause := by
  unfold realParam at failed
  split at failed
  · cases failed
  · cases failed
    exact .parameters ..

theorem listParam_refuses (failed : listParam name params i = .error cause) : Refusal cause := by
  unfold listParam at failed
  split at failed
  · cases failed
  · cases failed
    exact .parameters ..

theorem weightOf_refuses (failed : weightOf arity value = .error cause) : Refusal cause := by
  unfold weightOf at failed
  split at failed
  · split at failed
    · cases failed
    · cases failed
      exact .parameters ..
  · cases failed
    exact .parameters ..

theorem discreteWeights_refuses (failed : discreteWeights params = .error cause) :
    Refusal cause := by
  unfold discreteWeights at failed
  rcases except_bind_eq_error.mp failed with failed | ⟨items, listed, failed⟩
  · exact listParam_refuses failed
  · clear listed
    induction items with
    | nil => cases failed
    | cons item items ih =>
      rw [List.mapM_cons] at failed
      rcases except_bind_eq_error.mp failed with failed | ⟨w, _, failed⟩
      · exact weightOf_refuses failed
      · rcases except_bind_eq_error.mp failed with failed | ⟨ws, _, failed⟩
        · exact ih failed
        · cases failed

theorem ofExcept_stops {α : Type} {result : Except Failure α} {g : Rng}
    (h : ∀ cause, result = .error cause → Refusal cause) :
    StopsOnly Refusal (Draw.ofExcept result g) := by
  cases result with
  | ok a => trivial
  | error cause => exact h cause rfl

theorem Standard.draw_refuses {d : Distribution} (h : d.Standard) (params : List Value) (g : Rng) :
    StopsOnly Refusal (d.draw params g) := by
  cases h with
  | bernoulli =>
    exact .bind (ofExcept_stops fun _ => realParam_refuses) fun _ _ _ =>
      .bind trivial fun _ _ _ => trivial
  | discrete =>
    refine .bind (ofExcept_stops fun _ => discreteWeights_refuses) fun weights _ _ => ?_
    split
    · exact .bind trivial fun _ _ _ => trivial
    · exact Refusal.parameters ..
  | uniformDraw =>
    refine .bind (ofExcept_stops fun _ => listParam_refuses) fun items _ _ => ?_
    split
    · exact .bind trivial fun _ _ _ => trivial
    · exact Refusal.parameters ..
  | gaussian =>
    exact .bind (ofExcept_stops fun _ => realParam_refuses) fun _ _ _ =>
      .bind (ofExcept_stops fun _ => realParam_refuses) fun _ _ _ =>
        .bind trivial fun _ _ _ => .bind trivial fun _ _ _ => trivial
  | empirical d =>
    refine .bind trivial fun mark _ _ => ?_
    cases Empirical.valueAt? mark 0 d.support with
    | some value => trivial
    | none =>
      cases d.support.getLast? with
      | some row => trivial
      | none => exact Refusal.support

theorem Standard.score_refuses {d : Distribution} (h : d.Standard)
    (failed : d.score params value = .error cause) : Refusal cause := by
  cases h with
  | bernoulli =>
    rcases except_bind_eq_error.mp failed with failed | ⟨p, _, failed⟩
    · exact realParam_refuses failed
    · cases failed
  | discrete =>
    rcases except_bind_eq_error.mp failed with failed | ⟨weights, _, failed⟩
    · exact discreteWeights_refuses failed
    · cases value with
      | int i =>
        dsimp only at failed
        split at failed
        · cases failed
        · split at failed <;> cases failed
      | _ => cases failed
  | uniformDraw =>
    rcases except_bind_eq_error.mp failed with failed | ⟨items, _, failed⟩
    · exact listParam_refuses failed
    · cases failed
  | gaussian =>
    rcases except_bind_eq_error.mp failed with failed | ⟨mean, _, failed⟩
    · exact realParam_refuses failed
    · rcases except_bind_eq_error.mp failed with failed | ⟨deviation, _, failed⟩
      · exact realParam_refuses failed
      · split at failed
        · split at failed <;> cases failed
        · cases failed
          exact .parameters ..
  | empirical d => cases failed

end Distribution

variable {cause : Failure}

theorem Choice.Raises.refusal {choice : Choice} (h : choice.Raises cause)
    (standard : choice.dist.Standard) : Distribution.Refusal cause := by
  cases h with
  | draw failed => exact (standard.draw_refuses _ _).error failed
  | score failed => exact standard.score_refuses failed

namespace Step

/-- All choices that the program can come to are made by distributions of the library. -/
def DrawsStandard (first : Step) : Prop :=
  ∀ choice deliver, first.Unfolds (.sample choice deliver) → choice.dist.Standard

theorem DrawsStandard.refusal {first : Step} (h : first.DrawsStandard) (raises : first.Raises cause) :
    Distribution.Refusal cause := by
  obtain ⟨choice, deliver, there, raises⟩ := raises
  exact raises.refusal (h choice deliver there)

theorem DrawsStandard.not_raises {first : Step} (h : first.DrawsStandard)
    (internal : cause.Internal) : ¬ first.Raises cause :=
  fun raises => (h.refusal raises).not_internal internal

end Step

end Posterior
