import Posterior.Proofs.Verdicts

/-!
The guard of the loop that drives a handler. Whatever the methods of the handler do to the context,
they are called only while the handler is the active one, and the method for factors is shown
numbers only; a loop that stops short leaves of the stack what lies below the handler.
-/

namespace Posterior

namespace Context

/-- What is left of a stack once the topmost entry of `id` and all above it are gone: the part below
that entry, or the whole stack if there is none. -/
inductive Below (id : HandlerId) : List Installed → List Installed → Prop where
  | entry {above rest : List Installed} {i : Installed} (others : ∀ j ∈ above, j.id ≠ id)
      (found : i.id = id) : Below id (above ++ i :: rest) rest
  | absent {stack : List Installed} (others : ∀ j ∈ stack, j.id ≠ id) : Below id stack stack

theorem below_top (id : HandlerId) (name : String) (stack : List Installed) :
    below id (⟨id, name⟩ :: stack) = stack := by
  simp [below]

theorem below_spec (id : HandlerId) (stack : List Installed) :
    Below id stack (below id stack) := by
  have hsplit := List.takeWhile_append_dropWhile (p := fun i : Installed => i.id ≠ id) (l := stack)
  have above : ∀ j ∈ stack.takeWhile (fun i => i.id ≠ id), j.id ≠ id := fun j hj =>
    of_decide_eq_true (List.all_eq_true.mp List.all_takeWhile j hj)
  have top := List.head?_dropWhile_not (fun i : Installed => i.id ≠ id) stack
  unfold below
  cases hd : stack.dropWhile (·.id ≠ id) with
  | nil =>
    rw [hd, List.append_nil] at hsplit
    exact .absent (hsplit ▸ above)
  | cons i rest =>
    rw [hd] at hsplit top
    have entry : Below id (_ ++ i :: rest) rest := .entry above (by simpa using top)
    rwa [hsplit] at entry

end Context

/-- A call of a method of a handler: the effect that it is shown, and the context at that moment. -/
structure Call where
  effect : Step
  context : Context

/-- The handler is the active one, and the weight that it is shown, if any, is a number. -/
structure Call.Guarded (id : HandlerId) (c : Call) : Prop where
  active : c.context.active?.map (·.id) = some id
  number : ∀ point resume, c.effect = .factor point resume → point.logWeight.isNaN = false

namespace Handler

variable {σ α : Type}

/-- The method of a handler that an effect is meant for. -/
def perform (h : Handler σ α) : Step → Run σ (Control α)
  | .sample choice deliver => h.onSample choice deliver
  | .factor point resume => h.onFactor point resume
  | .exit store value => h.onExit store value

/-- A session with a record of calls beside the engine. -/
def recorded (calls : List Call) (s : Session σ) : Session (σ × List Call) :=
  ⟨(s.engine, calls), s.context⟩

/-- The handler that notes every call of its methods before it does what `h` does. -/
def watched (h : Handler σ α) : Handler (σ × List Call) α where
  name := h.name
  id := h.id
  onSample choice deliver := note (.sample choice deliver)
  onFactor point resume := note (.factor point resume)
  onExit store value := note (.exit store value)
where
  note (effect : Step) : Run (σ × List Call) (Control α) := fun s =>
    carry (recorded (s.engine.2 ++ [⟨effect, s.context⟩]))
      (h.perform effect ⟨s.engine.1, s.context⟩)

/-- Started with `first` in `s`, the loop has made the calls and is about to run `next`. -/
inductive Calls (h : Handler σ α) (first : Resume) (s : Session σ) :
    List Call → Resume → Session σ → Prop where
  | start : Calls h first s [] first s
  | call {calls : List Call} {next next' : Resume} {r t : Session σ}
      (before : Calls h first s calls next r)
      (guarded : Call.Guarded h.id ⟨next.invoke, r.context⟩)
      (made : h.perform next.invoke r = .ok (.resume next') t) :
      Calls h first s (calls ++ [⟨next.invoke, r.context⟩]) next' t

/-- How the loop can come to its end, before anything is unwound: by the last call that it makes, or
because the next effect may not be shown to the handler. -/
inductive Ends (h : Handler σ α) (first : Resume) (s : Session σ) :
    List Call → EStateM.Result Stop (Session σ) α → Prop where
  | done {calls : List Call} {next : Resume} {r t : Session σ} {result : α}
      (before : Calls h first s calls next r)
      (guarded : Call.Guarded h.id ⟨next.invoke, r.context⟩)
      (made : h.perform next.invoke r = .ok (.done result) t) :
      Ends h first s (calls ++ [⟨next.invoke, r.context⟩]) (.ok result t)
  | failed {calls : List Call} {next : Resume} {r t : Session σ} {stop : Stop}
      (before : Calls h first s calls next r)
      (guarded : Call.Guarded h.id ⟨next.invoke, r.context⟩)
      (made : h.perform next.invoke r = .error stop t) :
      Ends h first s (calls ++ [⟨next.invoke, r.context⟩]) (.error stop t)
  | inactive {calls : List Call} {next : Resume} {r : Session σ} {cause : Failure}
      (before : Calls h first s calls next r)
      (refused : r.context.ensureActive h.id (some h.name) = .error cause) :
      Ends h first s calls (.error (.failed cause) r)
  | notANumber {calls : List Call} {next : Resume} {r : Session σ} {point : Factor}
      {resume : Continuation} (before : Calls h first s calls next r)
      (effect : next.invoke = .factor point resume) (nan : point.logWeight.isNaN = true) :
      Ends h first s calls (.error (.failed (.factorNaN h.name point.address)) r)
  | spent {calls : List Call} {next : Resume} {r : Session σ}
      (before : Calls h first s calls next r) : Ends h first s calls (.error .outOfFuel r)

section
variable {h : Handler σ α} {first : Resume} {s r t : Session σ} {calls : List Call} {next : Resume}

/-- An effect is refused, is a weight that is not a number, or is shown to the handler. -/
theorem met (id : HandlerId) (name : Option String) (effect : Step) (context : Context) :
    (∃ cause, context.ensureActive id name = .error cause) ∨
      (context.active?.map (·.id) = some id ∧
        ∃ point resume, effect = .factor point resume ∧ point.logWeight.isNaN = true) ∨
      Call.Guarded id ⟨effect, context⟩ := by
  cases ha : context.ensureActive id name with
  | error cause => exact .inl ⟨cause, rfl⟩
  | ok u =>
    have active := Context.ensureActive_eq_ok.mp ha
    by_cases hn : ∃ point resume, effect = .factor point resume ∧ point.logWeight.isNaN = true
    · exact .inr (.inl ⟨active, hn⟩)
    · refine .inr (.inr ⟨active, fun point resume he => ?_⟩)
      simpa using fun nan => hn ⟨point, resume, he, nan⟩

theorem answer_of_refused {effect : Step} {cause : Failure}
    (refused : s.context.ensureActive h.id (some h.name) = .error cause) :
    h.answer effect s = .error (.failed cause) s := by
  unfold answer
  rw [bind_ok (get_eq_ok.mpr ⟨rfl, rfl⟩)]
  refine bind_error ?_
  rw [refused]
  rfl

theorem answer_of_nan {point : Factor} {resume : Continuation}
    (active : s.context.active?.map (·.id) = some h.id) (nan : point.logWeight.isNaN = true) :
    h.answer (.factor point resume) s =
      .error (.failed (.factorNaN h.name point.address)) s := by
  rw [answer_of_active active, method, if_pos nan]
  rfl

theorem answer_of_guarded {effect : Step} (guarded : Call.Guarded h.id ⟨effect, s.context⟩) :
    h.answer effect s = h.perform effect s := by
  rw [answer_of_active guarded.active]
  cases effect with
  | sample choice deliver => rfl
  | factor point resume =>
    rw [method, if_neg (ne_true_of_eq_false (guarded.number point resume rfl))]
    rfl
  | exit store value => rfl

/-- Every call that has been made was guarded. -/
theorem Calls.guarded (hc : Calls h first s calls next r) : ∀ call ∈ calls, call.Guarded h.id := by
  induction hc with
  | start => simp
  | call before guarded made ih =>
    intro call hcall
    rcases List.mem_append.mp hcall with hcall | hcall
    · exact ih call hcall
    · obtain rfl := List.mem_singleton.mp hcall
      exact guarded

theorem Ends.guarded {outcome : EStateM.Result Stop (Session σ) α}
    (he : Ends h first s calls outcome) : ∀ call ∈ calls, call.Guarded h.id := by
  have hlast {calls : List Call} {call : Call} (hall : ∀ c ∈ calls, c.Guarded h.id)
      (hcall : call.Guarded h.id) : ∀ c ∈ calls ++ [call], c.Guarded h.id := by
    simpa [or_imp, forall_and] using ⟨hall, hcall⟩
  cases he with
  | done before guarded made => exact hlast before.guarded guarded
  | failed before guarded made => exact hlast before.guarded guarded
  | inactive before refused => exact before.guarded
  | notANumber before effect nan => exact before.guarded
  | spent before => exact before.guarded

/-- What the watched handler does at an effect is what the handler does, with one more call on
record. -/
theorem watched_perform (h : Handler σ α) (effect : Step) (calls : List Call) (s : Session σ) :
    h.watched.perform effect (recorded calls s) =
      carry (recorded (calls ++ [⟨effect, s.context⟩])) (h.perform effect s) := by
  cases effect <;> rfl

/-- From any point of the loop on, the watched handler comes to what the handler comes to, and its
record is the list of the calls. -/
theorem Calls.dispatch_ends (fuel : Nat) (hc : Calls h first s calls next r) :
    ∃ calls', Ends h first s calls' (h.dispatch fuel next r) ∧
      h.watched.dispatch fuel next (recorded calls r) =
        carry (recorded calls') (h.dispatch fuel next r) := by
  induction fuel generalizing calls next r with
  | zero => exact ⟨calls, .spent hc, rfl⟩
  | succ fuel ih =>
    -- The record is no part of the context, so both handlers meet the effect in the same way.
    unfold dispatch
    rcases met h.id (some h.name) next.invoke r.context with
      ⟨cause, refused⟩ | ⟨active, point, resume, effect, nan⟩ | guarded
    · rw [bind_error (answer_of_refused refused),
        bind_error (answer_of_refused (h := h.watched) (s := recorded calls r) refused)]
      exact ⟨calls, .inactive hc refused, rfl⟩
    · rw [effect, bind_error (answer_of_nan active nan),
        bind_error (answer_of_nan (h := h.watched) (s := recorded calls r) active nan)]
      exact ⟨calls, .notANumber hc effect nan, rfl⟩
    · have ha := answer_of_guarded guarded
      have hw : h.watched.answer next.invoke (recorded calls r) =
          carry (recorded (calls ++ [⟨next.invoke, r.context⟩])) (h.answer next.invoke r) := by
        rw [ha, ← watched_perform]
        exact answer_of_guarded (h := h.watched) guarded
      cases hm : h.answer next.invoke r with
      | error stop t =>
        rw [hm] at hw
        rw [bind_error hm, bind_error hw]
        exact ⟨_, .failed hc guarded (ha.symm.trans hm), rfl⟩
      | ok control t =>
        rw [hm] at hw
        rw [bind_ok hm, bind_ok hw]
        cases control with
        | resume next' => exact ih (hc.call guarded (ha.symm.trans hm))
        | done result => exact ⟨_, .done hc guarded (ha.symm.trans hm), rfl⟩

/-- Unwinding is no business of the record. -/
theorem guarding_recorded {id : HandlerId} {work : Run σ α} {noted : Run (σ × List Call) α}
    {calls' : List Call} (hw : noted (recorded calls s) = carry (recorded calls') (work s)) :
    Run.guarding id noted (recorded calls s) = carry (recorded calls') (Run.guarding id work s) := by
  unfold Run.guarding
  rw [hw]
  cases work s <;> rfl

/-- The loop that drives a handler calls its methods only while the handler is on top of the stack
and shows the one for factors no weight that is NaN. A result comes straight from the last call,
with the session that it left; a loop that stops short leaves the session in which it stopped, less
the topmost entry of the handler and all above it. -/
theorem drive_guarded (h : Handler σ α) (fuel : Nat) (first : Resume) (s : Session σ) :
    ∃ calls outcome,
      h.watched.drive fuel first (recorded [] s) =
        carry (recorded calls) (h.drive fuel first s) ∧
      (∀ call ∈ calls, call.Guarded h.id) ∧ Ends h first s calls outcome ∧
      match outcome with
      | .ok result t => h.drive fuel first s = .ok result t
      | .error stop t => ∃ stack, Context.Below h.id t.context.stack stack ∧
          h.drive fuel first s =
            .error stop { t with context := { t.context with stack := stack } } := by
  have begun : Calls h first s [] first s := .start
  obtain ⟨calls, ends, hw⟩ := begun.dispatch_ends fuel
  refine ⟨calls, h.dispatch fuel first s, ?_, ends.guarded, ends, ?_⟩
  · exact guarding_recorded hw
  · unfold drive Run.guarding
    cases h.dispatch fuel first s with
    | ok result t => rfl
    | error stop t => exact ⟨_, Context.below_spec h.id t.context.stack, rfl⟩

end

end Handler

end Posterior
