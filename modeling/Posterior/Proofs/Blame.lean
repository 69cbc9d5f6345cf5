import Posterior.Proofs.Replay
import Posterior.Proofs.StackDiscipline
import Posterior.Proofs.Turns

/-!
Whose failure it is. With some failures an engine reports on itself: it has lost track of its own
run. Work is blameless if it never stops short with one of these, unless a distribution of the
program has raised it. Others a chain or a filter comes to in the ordinary course of a run; work is
admissible if it stops short with nothing but these and what the distributions of the program raise.
The laws go by the way in which work is put together, whatever stops are allowed.
-/

namespace Posterior

namespace Failure

/-- The codes of the failures with which an engine reports on itself. -/
def internalCodes : List String :=
  ["regen-out-of-range", "missing-return-value", "no-active-particle", "handler-nesting",
    "handler-missing"]

def Internal (cause : Failure) : Prop := cause.code ∈ internalCodes

instance (cause : Failure) : Decidable cause.Internal :=
  inferInstanceAs (Decidable (cause.code ∈ internalCodes))

/-- The codes of the failures that a chain or a filter can come to by itself: numbers that are NaN,
weights that are all impossible, an address that comes up twice, a count of zero. -/
def ordinaryCodes : List String :=
  ["score-nan", "factor-nan", "weight-nan", "acceptance-nan", "all-weights-impossible",
    "duplicate-address", "zero-count"]

def Ordinary (cause : Failure) : Prop := cause.code ∈ ordinaryCodes

theorem Ordinary.not_internal {cause : Failure} (h : cause.Ordinary) : ¬ cause.Internal := by
  have apart : ∀ code ∈ ordinaryCodes, code ∉ internalCodes := by decide
  exact apart _ h

end Failure

namespace Step

/-- The steps that the program can come to from `first` on, however its choices come out. -/
inductive Unfolds (first : Step) : Step → Prop where
  | here : Unfolds first first
  | choose {choice : Choice} {deliver : Delivery} (before : Unfolds first (.sample choice deliver))
      (value : Value) : Unfolds first (deliver choice.store value)
  | pass {point : Factor} {resume : Continuation} (before : Unfolds first (.factor point resume)) :
      Unfolds first (resume point.store)

variable {first second third : Step}

theorem Unfolds.trans (h : first.Unfolds second) (h' : second.Unfolds third) :
    first.Unfolds third := by
  induction h' with
  | here => exact h
  | choose before value ih => exact .choose ih value
  | pass before ih => exact .pass ih

theorem ComesTo.unfolds {k : Nat} (h : first.ComesTo k second) : first.Unfolds second := by
  induction h with
  | rest => exact .here
  | choice before drawn ih => exact .choose ih _
  | factor before ih => exact .pass ih

end Step

theorem Replay.unfolds {goesOn : Float → Bool} {p q : Point} {es : List Entry}
    (h : Replay goesOn p es q) : p.step.Unfolds q.step := by
  induction h with
  | rest p => exact .here
  | choice meets on tail ih =>
    rw [meets.step]
    exact (Step.Unfolds.here.choose _).trans ih
  | factor stands number on tail ih =>
    rw [stands]
    exact Step.Unfolds.here.pass.trans ih

/-- The program comes to every choice that a replay meets. -/
theorem Replay.unfolds_entry {goesOn : Float → Bool} {p q : Point} {es : List Entry} {e : Entry}
    (h : Replay goesOn p es q) (he : e ∈ es) : p.step.Unfolds (.sample e.choice e.deliver) := by
  obtain ⟨before, after, rfl⟩ := List.append_of_mem he
  obtain ⟨r, there, meets, _⟩ := h.at_entry
  exact meets.step ▸ there.unfolds

/-- The distribution of the choice raises the failure, when it is drawn from or when it scores. -/
inductive Choice.Raises (choice : Choice) (cause : Failure) : Prop where
  | draw {g g' : Rng} (failed : choice.dist.draw choice.params g = .error cause g')
  | score {value : Value} (failed : choice.dist.score choice.params value = .error cause)

namespace Step

/-- The program can come to a choice whose distribution raises the failure. -/
def Raises (first : Step) (cause : Failure) : Prop :=
  ∃ choice deliver, first.Unfolds (.sample choice deliver) ∧ choice.Raises cause

/-- An engine that runs the program is not to blame for the failure. -/
def Excuses (first : Step) (cause : Failure) : Prop := cause.Internal → first.Raises cause

/-- An engine that runs the program may stop short in this way. -/
def Allows (first : Step) : Stop → Prop
  | .failed cause => first.Excuses cause
  | .outOfFuel => True

/-- The program raises the failure, or it is one that a run comes to by itself. -/
def Meets (first : Step) (cause : Failure) : Prop := first.Raises cause ∨ cause.Ordinary

/-- A chain or a filter that runs the program may stop short in this way, and in no other. -/
def Admits (first : Step) : Stop → Prop
  | .failed cause => first.Meets cause
  | .outOfFuel => True

variable {first second : Step} {cause : Failure}

theorem Meets.excuses (h : first.Meets cause) : first.Excuses cause := by
  rcases h with raises | ordinary
  · exact fun _ => raises
  · exact fun internal => absurd internal ordinary.not_internal

theorem meets_factorNaN {name : String} {address : Address} :
    first.Meets (.factorNaN name address) := by
  refine .inr ?_
  change "factor-nan" ∈ Failure.ordinaryCodes
  decide

theorem Admits.allows {stop : Stop} (h : first.Admits stop) : first.Allows stop := by
  cases stop with
  | failed cause => exact Meets.excuses h
  | outOfFuel => trivial

/-- A choice that the program comes to may raise what its distribution raises. -/
theorem Unfolds.raises {choice : Choice} {deliver : Delivery}
    (h : first.Unfolds (.sample choice deliver)) (raises : choice.Raises cause) :
    first.Raises cause :=
  ⟨choice, deliver, h, raises⟩

end Step

section
variable {ε σ α β : Type}

/-- If the work stops short, then in one of the ways that are allowed. -/
def StopsOnly (allowed : ε → Prop) : EStateM.Result ε σ α → Prop
  | .ok _ _ => True
  | .error e _ => allowed e

namespace StopsOnly

variable {allowed allowed' : ε → Prop} {s : σ}

theorem error {outcome : EStateM.Result ε σ α} {e : ε} {t : σ} (h : StopsOnly allowed outcome)
    (failed : outcome = .error e t) : allowed e := by
  rw [failed] at h
  exact h

theorem imp {outcome : EStateM.Result ε σ α} (h : StopsOnly allowed outcome)
    (more : ∀ e, allowed e → allowed' e) : StopsOnly allowed' outcome := by
  cases outcome with
  | ok a t => trivial
  | error e t => exact more e h

theorem of_ok {outcome : EStateM.Result ε σ α} {a : α} {t : σ} (h : outcome = .ok a t) :
    StopsOnly allowed outcome := by
  rw [h]
  trivial

theorem bind {x : EStateM ε σ α} {f : α → EStateM ε σ β} (hx : StopsOnly allowed (x s))
    (hf : ∀ a t, x s = .ok a t → StopsOnly allowed (f a t)) : StopsOnly allowed ((x >>= f) s) := by
  cases h : x s with
  | ok a t =>
    rw [bind_ok h]
    exact hf a t h
  | error e t =>
    rw [bind_error h]
    exact hx.error h

/-- A sequence of actions, each from a state that the ones before have kept in order. -/
theorem forM {P : σ → Prop} {f : α → EStateM ε σ Unit} (keeps : ∀ a s t, P s → f a s = .ok () t → P t)
    (hf : ∀ a s, P s → StopsOnly allowed (f a s)) {l : List α} (hs : P s) :
    StopsOnly allowed (l.forM f s) := by
  induction l generalizing s with
  | nil => trivial
  | cons a l ih => exact .bind (hf a s hs) fun _ t ran => ih (keeps a s t hs ran)

theorem foldlM {P : β → σ → Prop} {f : β → α → EStateM ε σ β}
    (keeps : ∀ b a s b' t, P b s → f b a s = .ok b' t → P b' t)
    (hf : ∀ b a s, P b s → StopsOnly allowed (f b a s)) {l : List α} {b : β} (hs : P b s) :
    StopsOnly allowed (l.foldlM f b s) := by
  induction l generalizing s b with
  | nil => trivial
  | cons a l ih =>
    rw [List.foldlM_cons]
    exact .bind (hf b a s hs) fun b' t ran => ih (keeps b a s b' t hs ran)

end StopsOnly

end

/-- If the work stops short, no engine is to blame for it. -/
abbrev Blameless (root : Step) {τ α : Type} (outcome : EStateM.Result Stop τ α) : Prop :=
  StopsOnly root.Allows outcome

/-- If the work stops short, then as a chain or a filter may. -/
abbrev Admissible (root : Step) {τ α : Type} (outcome : EStateM.Result Stop τ α) : Prop :=
  StopsOnly root.Admits outcome

section
variable {σ α β : Type} {allowed : Stop → Prop} {s : Session σ} {c : Context}

namespace StopsOnly

theorem engine {f : σ → Run σ α} (h : StopsOnly allowed (f s.engine s)) :
    StopsOnly allowed ((Run.engine >>= f) s) := h

theorem modifyEngine {update : σ → σ} {f : Unit → Run σ α}
    (h : StopsOnly allowed (f () { s with engine := update s.engine })) :
    StopsOnly allowed ((Run.modifyEngine update >>= f) s) := h

theorem inContext_ofExcept {result : Except Failure α}
    (h : ∀ cause, result = .error cause → allowed (.failed cause)) :
    StopsOnly allowed (InContext.ofExcept result c) := by
  cases result with
  | ok a => trivial
  | error cause => exact h cause rfl

/-- Work on the context alone stops short as it does by itself. -/
theorem onContext {work : InContext α} (h : StopsOnly allowed (work s.context)) :
    StopsOnly allowed ((Run.onContext work : Run σ α) s) := by
  unfold Run.onContext
  cases hw : work s.context with
  | ok a c => trivial
  | error stop c => exact h.error hw

theorem ofExcept {result : Except Failure α}
    (h : ∀ cause, result = .error cause → allowed (.failed cause)) :
    StopsOnly allowed ((Run.ofExcept result : Run σ α) s) :=
  onContext (inContext_ofExcept h)

theorem draw {d : Draw α}
    (h : ∀ cause g, d s.context.rng = .error cause g → allowed (.failed cause)) :
    StopsOnly allowed ((Run.draw d : Run σ α) s) := by
  cases hd : d s.context.rng with
  | ok a g => exact .of_ok (Run.draw_ok hd)
  | error cause g =>
    rw [Run.draw_error hd]
    exact h cause g hd

theorem within {chain : σ → Chain} {update : Chain → σ → σ} {move : Move α}
    (h : StopsOnly (fun cause => allowed (.failed cause)) (move (chain s.engine, s.context.rng))) :
    StopsOnly allowed (Chain.within chain update move s) := by
  unfold Chain.within
  cases hm : move (chain s.engine, s.context.rng) with
  | ok a r => trivial
  | error cause r => exact h.error hm

theorem ensureActive {id : HandlerId} (active : s.context.active?.map (·.id) = some id) :
    StopsOnly allowed ((Run.onContext (.ensureActive id) : Run σ Unit) s) := by
  refine onContext (.bind trivial fun _ _ found => ?_)
  obtain ⟨rfl, rfl⟩ := get_eq_ok.mp found
  rw [Context.ensureActive_eq_ok.mpr active]
  trivial

/-- The active handler can leave the stack. -/
theorem restore {id : HandlerId} (active : s.context.active?.map (·.id) = some id) :
    StopsOnly allowed ((Run.restore id : Run σ Unit) s) :=
  .of_ok (Run.restore_of_active active)

/-- An engine that makes its result and leaves the stack fails only if there is no result to make. -/
theorem leave {result : Except Failure α} {f : α → β} {id : HandlerId}
    (active : s.context.active?.map (·.id) = some id)
    (h : ∀ cause, result = .error cause → allowed (.failed cause)) :
    StopsOnly allowed ((do
      let a ← Run.ofExcept result
      Run.restore id
      return f a : Run σ β) s) := by
  refine .bind (ofExcept h) fun a t made => ?_
  obtain ⟨_, rfl⟩ := Run.ofExcept_eq_ok.mp made
  exact .bind (restore active) fun _ _ _ => trivial

/-- With a result at hand, the active handler can leave with it. -/
theorem leave_with {result : Except Failure α} {a : α} {f : α → β} {id : HandlerId}
    (active : s.context.active?.map (·.id) = some id) (made : result = .ok a) :
    StopsOnly allowed ((do
      let a ← Run.ofExcept result
      Run.restore id
      return f a : Run σ β) s) := by
  refine leave active fun cause failed => ?_
  rw [made] at failed
  cases failed

theorem guarding {id : HandlerId} {work : Run σ α} (h : StopsOnly allowed (work s)) :
    StopsOnly allowed (Run.guarding id work s) := by
  cases hw : work s with
  | ok a t => exact .of_ok (Run.guarding_eq_ok.mpr hw)
  | error stop t =>
    rw [Run.guarding_error hw]
    exact h.error hw

theorem inContext {work : Run σ α} {e : σ} (h : StopsOnly allowed (work ⟨e, c⟩)) :
    StopsOnly allowed (work.inContext e c) := by
  unfold Run.inContext
  cases hw : work ⟨e, c⟩ with
  | ok a t => trivial
  | error stop t => exact h.error hw

/-- The answer of an active handler stops short as its method does, or at a weight that is NaN. -/
theorem answer {h : Handler σ α} {effect : Step}
    (active : s.context.active?.map (·.id) = some h.id)
    (nan : ∀ name address, allowed (.failed (.factorNaN name address)))
    (method : match effect with
      | .sample choice deliver => StopsOnly allowed (h.onSample choice deliver s)
      | .factor point resume =>
        point.logWeight.isNaN = false → StopsOnly allowed (h.onFactor point resume s)
      | .exit store value => StopsOnly allowed (h.onExit store value s)) :
    StopsOnly allowed (h.answer effect s) := by
  rw [Handler.answer_of_active active]
  cases effect with
  | sample choice deliver => exact method
  | factor point resume =>
    dsimp only [Handler.method]
    split
    · exact nan _ _
    · rename_i number
      exact method (by simpa using number)
  | exit store value => exact method

/-- A run stops short as its answers do, at the moments that the run passes, or for want of fuel. -/
theorem drive {h : Handler σ α} {P : Resume → Session σ → Prop} (fuelled : allowed .outOfFuel)
    (goesOn : ∀ next s next' t, P next s → h.answer next.invoke s = .ok (.resume next') t → P next' t)
    (answers : ∀ next s, P next s → StopsOnly allowed (h.answer next.invoke s))
    {fuel : Nat} {next : Resume} (hs : P next s) : StopsOnly allowed (h.drive fuel next s) := by
  refine guarding (Handler.dispatch_outcome (P := P) (fun _ _ _ => fuelled) ?_ fuel hs)
  intro next r hr
  have stops := answers next r hr
  cases ha : h.answer next.invoke r with
  | error stop t => exact stops.error ha
  | ok control t =>
    cases control with
    | resume next' => exact goesOn next r next' t hr ha
    | done result => trivial

end StopsOnly

end

/-- A value drawn for a choice of the program. -/
theorem StopsOnly.choice {root : Step} {σ : Type} {s : Session σ} {choice : Choice}
    {deliver : Delivery} (h : root.Unfolds (.sample choice deliver)) :
    Admissible root ((Run.draw (choice.dist.draw choice.params) : Run σ Value) s) :=
  .draw fun _ _ failed => .inl (h.raises (.draw failed))

theorem StopsOnly.blameless {root : Step} {τ α : Type} {outcome : EStateM.Result Stop τ α}
    (h : Admissible root outcome) : Blameless root outcome :=
  h.imp fun _ => Step.Admits.allows

end Posterior
