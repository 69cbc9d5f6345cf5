import Posterior.Proofs.StackDiscipline

/-!
The stack of installed handlers under calls in any order and for any ids. An id is given out once and
a later handler has a greater one, so that the stack is in the order of installation. Whatever has been
done since a handler was installed, what lay below it then is what is left when it leaves.
-/

namespace Posterior.Context

/-- A call that works on the stack of a context. -/
inductive StackCall where
  | install (name : String)
  | restore (id : HandlerId)
  | unwind (id : HandlerId)
  | ensureActive (id : HandlerId)

namespace StackCall

/-- What a call does. The one that installs gives out an id. -/
def work : StackCall → InContext (Option HandlerId)
  | install name => do return some (← InContext.install name)
  | restore id => do
    InContext.restore id
    return none
  | unwind id => do
    InContext.unwind id
    return none
  | ensureActive id => do
    InContext.ensureActive id
    return none

def given? (call : StackCall) (c : Context) : Option HandlerId :=
  match call.work c with
  | .ok id _ => id
  | .error _ _ => none

/-- The context that a call leaves, whether or not it succeeds. -/
def next (call : StackCall) (c : Context) : Context := finalState (call.work c)

end StackCall

/-- A context that no handler has been installed on. -/
def fresh (rng : Rng) : Context := { rng }

/-- The context after calls. One that fails is followed by the next one all the same. -/
def after (c : Context) (calls : List StackCall) : Context :=
  calls.foldl (fun c call => call.next c) c

/-- The ids that calls give out, in their order. -/
def given (c : Context) : List StackCall → List HandlerId
  | [] => []
  | call :: calls => (call.given? c).toList ++ (call.next c).given calls

/-- Why a handler that is not the active one is turned away. -/
def refusal (c : Context) (id : HandlerId) : Failure :=
  match c.active? with
  | some top => .handlerNesting id top.id top.name none
  | none => .handlerMissing id none

variable {c d e : Context} {id : HandlerId} {name : String} {calls : List StackCall}
  {granted : Option HandlerId}

theorem ensureActive_eq (c : Context) (id : HandlerId) : c.ensureActive id =
    if c.active?.map (·.id) = some id then .ok () else .error (c.refusal id) := by
  unfold ensureActive refusal active?
  cases c.stack with
  | nil => rfl
  | cons top rest => simp only [List.head?_cons, Option.map_some, Option.some.injEq]

theorem inContext_ensureActive (c : Context) (id : HandlerId) : InContext.ensureActive id c =
    if c.active?.map (·.id) = some id then .ok () c else .error (.failed (c.refusal id)) c := by
  change InContext.ofExcept (c.ensureActive id) c = _
  rw [ensureActive_eq]
  split <;> rfl

theorem inContext_restore (c : Context) (id : HandlerId) : InContext.restore id c =
    if c.active?.map (·.id) = some id then .ok () { c with stack := c.stack.tail }
    else .error (.failed (c.refusal id)) c := by
  unfold InContext.restore restore
  rw [bind_ok (get_eq_ok.mpr ⟨rfl, rfl⟩), ensureActive_eq]
  split <;> rfl

theorem below_suffix (id : HandlerId) (stack : List Installed) : below id stack <:+ stack := by
  have left := below_spec id stack
  generalize below id stack = rest at left ⊢
  cases left with
  | @entry above rest i others found => exact ⟨above ++ [i], by simp⟩
  | absent others => exact List.suffix_rfl

/-- What a call can do: it installs a handler under the next id, or takes some of the topmost handlers
away. -/
inductive Changed (c : Context) : Option HandlerId → Context → Prop where
  | installs (name : String) : Changed c (some ⟨c.next⟩) (c.install name).2
  | drops {stack : List Installed} (rest : stack <:+ c.stack) : Changed c none { c with stack }

theorem Changed.same : Changed c none c := .drops List.suffix_rfl

theorem StackCall.changed (call : StackCall) (c : Context) :
    Changed c (call.given? c) (call.next c) := by
  unfold given? next
  cases call with
  | install name => exact .installs name
  | restore id =>
    by_cases active : c.active?.map (·.id) = some id
    · have ran : (restore id).work c = .ok none { c with stack := c.stack.tail } :=
        bind_ok ((inContext_restore c id).trans (if_pos active))
      rw [ran]
      exact .drops (List.tail_suffix _)
    · have failed : (restore id).work c = .error (.failed (c.refusal id)) c :=
        bind_error ((inContext_restore c id).trans (if_neg active))
      rw [failed]
      exact .same
  | unwind id => exact .drops (below_suffix id c.stack)
  | ensureActive id =>
    by_cases active : c.active?.map (·.id) = some id
    · have ran : (ensureActive id).work c = .ok none c :=
        bind_ok ((inContext_ensureActive c id).trans (if_pos active))
      rw [ran]
      exact .same
    · have failed : (ensureActive id).work c = .error (.failed (c.refusal id)) c :=
        bind_error ((inContext_ensureActive c id).trans (if_neg active))
      rw [failed]
      exact .same

/-- The stack is in the order of installation, and no handler on it has an id still to be given out. -/
structure Ordered (c : Context) : Prop where
  order : c.stack.Pairwise fun upper lower => lower.id.number < upper.id.number
  used : ∀ i ∈ c.stack, i.id.number < c.next

theorem ordered_fresh (g : Rng) : (fresh g).Ordered := ⟨.nil, nofun⟩

theorem Changed.ordered (h : Changed c granted d) (ordered : c.Ordered) : d.Ordered := by
  cases h with
  | installs name =>
    refine ⟨List.pairwise_cons.mpr ⟨ordered.used, ordered.order⟩, ?_⟩
    refine List.forall_mem_cons.mpr ⟨Nat.lt_add_one _, fun i hi => ?_⟩
    exact Nat.lt_trans (ordered.used i hi) (Nat.lt_add_one _)
  | drops rest => exact ⟨ordered.order.sublist rest.sublist, fun i hi => ordered.used i (rest.mem hi)⟩

theorem Ordered.after (ordered : c.Ordered) (calls : List StackCall) : (c.after calls).Ordered :=
  List.foldlRecOn (motive := Ordered) calls _ ordered fun d hd call _ => (call.changed d).ordered hd

theorem after_cons (c : Context) (call : StackCall) (calls : List StackCall) :
    c.after (call :: calls) = (call.next c).after calls := rfl

/-- Whatever is given out from here on is new, and later ids are greater. -/
theorem given_increasing (c : Context) (calls : List StackCall) :
    (∀ id ∈ c.given calls, c.next ≤ id.number ∧ id.number < (c.after calls).next) ∧
      (c.given calls).Pairwise (·.number < ·.number) ∧ c.next ≤ (c.after calls).next := by
  induction calls generalizing c with
  | nil => exact ⟨nofun, .nil, Nat.le_refl _⟩
  | cons call calls ih =>
    obtain ⟨bounds, order, more⟩ := ih (call.next c)
    have changed := call.changed c
    rw [after_cons, given]
    generalize call.given? c = granted at changed ⊢
    generalize call.next c = d at changed bounds order more ⊢
    cases changed with
    | installs name =>
      -- The id that has just been given out is less than the next one, and those after it are not.
      change c.next + 1 ≤ _ at more
      refine ⟨List.forall_mem_cons.mpr ⟨⟨Nat.le_refl _, more⟩, fun id hid => ?_⟩,
        List.pairwise_cons.mpr ⟨fun id hid => (bounds id hid).1, order⟩, Nat.le_of_succ_le more⟩
      obtain ⟨low, high⟩ := bounds id hid
      exact ⟨Nat.le_of_succ_le low, high⟩
    | drops rest => exact ⟨bounds, order, more⟩

/-- Below a handler lie those with smaller ids. -/
theorem Ordered.filter_below {above rest : List Installed} {i : Installed} (ordered : c.Ordered)
    (split : c.stack = above ++ i :: rest) :
    c.stack.filter (fun j => j.id.number < i.id.number) = rest := by
  have order := ordered.order
  rw [split, List.pairwise_append, List.pairwise_cons] at order
  obtain ⟨_, ⟨lower, _⟩, upper⟩ := order
  have dropped : above.filter (fun j => j.id.number < i.id.number) = [] := by
    refine List.filter_eq_nil_iff.mpr fun j hj => ?_
    simpa using Nat.le_of_lt (upper j hj i List.mem_cons_self)
  have kept : rest.filter (fun j => j.id.number < i.id.number) = rest :=
    List.filter_eq_self.mpr fun j hj => by simpa using lower j hj
  rw [split, List.filter_append, dropped, List.nil_append, List.filter_cons_of_neg (by simp), kept]

/-- Unwinding leaves the handlers installed before the one that it is for, or all if that one is not
on the stack. -/
theorem Ordered.below_eq (ordered : c.Ordered) (id : HandlerId) : below id c.stack =
    if id ∈ c.stack.map (·.id) then c.stack.filter (fun i => i.id.number < id.number)
    else c.stack := by
  have left := below_spec id c.stack
  generalize hs : c.stack = stack at left ⊢
  generalize below id stack = rest at left ⊢
  cases left with
  | entry others found =>
    subst found
    rw [if_pos (by simp), ← hs]
    exact (ordered.filter_below hs).symm
  | absent others =>
    refine (if_neg fun on => ?_).symm
    obtain ⟨i, hi, found⟩ := List.mem_map.mp on
    exact others i hi found

/-- Since a handler was installed on `c`, it has left for good, or it lies where it was put, on what
the stack was then. -/
structure Since (c : Context) (name : String) (d : Context) : Prop where
  later : c.next < d.next
  place : ⟨c.next⟩ ∉ d.stack.map (·.id) ∨ (c.install name).2.stack <:+ d.stack

theorem since_install (c : Context) (name : String) : Since c name (c.install name).2 :=
  ⟨Nat.lt_add_one _, .inr List.suffix_rfl⟩

theorem Changed.since (h : Changed d granted e) (ordered : c.Ordered) (since : Since c name d) :
    Since c name e := by
  obtain ⟨later, place⟩ := since
  cases h with
  | installs other =>
    refine ⟨Nat.lt_trans later (Nat.lt_add_one _), place.imp (fun gone => ?_) fun there => ?_⟩
    · refine fun on => (List.mem_cons.mp on).elim (fun same => ?_) gone
      exact Nat.ne_of_lt later (HandlerId.mk.inj same)
    · exact there.trans (List.suffix_cons _ _)
  | drops rest =>
    refine ⟨later, ?_⟩
    rcases place with gone | there
    · exact .inl fun on => gone ((rest.map _).mem on)
    · -- The cut is above the handler, so that it stays, or further down, and ids down there are smaller.
      rcases List.suffix_or_suffix_of_suffix rest there with short | there
      · rcases List.suffix_cons_iff.mp short with whole | short
        · exact .inr (whole ▸ List.suffix_rfl)
        · refine .inl fun on => ?_
          obtain ⟨i, hi, same⟩ := List.mem_map.mp on
          have used := ordered.used i (short.mem hi)
          rw [same] at used
          exact Nat.lt_irrefl _ used
      · exact .inr there

theorem Since.after (ordered : c.Ordered) (since : Since c name d) (calls : List StackCall) :
    Since c name (d.after calls) :=
  List.foldlRecOn (motive := Since c name) calls _ since
    fun e he call _ => (call.changed e).since ordered he

/-- As long as a handler is on the stack, below it lies what lay there when it was installed. -/
theorem Since.below_eq (since : Since c name d) (ordered : d.Ordered)
    (on : ⟨c.next⟩ ∈ d.stack.map (·.id)) : below ⟨c.next⟩ d.stack = c.stack := by
  obtain ⟨above, split⟩ := since.place.resolve_left (absurd on)
  rw [ordered.below_eq, if_pos on]
  exact ordered.filter_below split.symm

/-- A handler that is restored is on the stack, and what it leaves is what unwinding it would leave. -/
theorem below_of_restore (h : InContext.restore id d = .ok () e) :
    id ∈ d.stack.map (·.id) ∧ e.stack = below id d.stack := by
  rw [inContext_restore] at h
  split at h
  · rename_i active
    cases h
    refine ⟨?_, (below_active active).symm⟩
    obtain ⟨i, top, found⟩ := Option.map_eq_some_iff.mp active
    exact found ▸ List.mem_map_of_mem (List.mem_of_head? top)
  · cases h

/-- Handlers installed, restored and unwound on a new context in any order, for any ids. No id is given
out twice: later ones are greater. In the context that is reached, the handlers on the stack have
greater ids the higher they lie, all of them given out already. The active handler, and no other, is
recognised as active and can be restored, which takes it off the stack; a refusal changes nothing.
Unwinding takes away the handler of the id and those installed after it, or nothing if it is not on the
stack. And whatever is done after a handler has been installed on this context: if it can be restored
then, the handler that is active now is active again, on the same stack; and if it is on the stack
then, unwinding it comes to this stack too. -/
theorem handlers_in_order (g : Rng) (calls : List StackCall) :
    ((fresh g).given calls).Pairwise (·.number < ·.number) ∧
    ∀ c, (fresh g).after calls = c →
      (∀ id ∈ (fresh g).given calls, id.number < c.next) ∧
      c.stack.Pairwise (fun upper lower => lower.id.number < upper.id.number) ∧
      (∀ i ∈ c.stack, i.id.number < c.next) ∧
      (∀ id, InContext.ensureActive id c =
        if c.active?.map (·.id) = some id then .ok () c else .error (.failed (c.refusal id)) c) ∧
      (∀ id, InContext.restore id c =
        if c.active?.map (·.id) = some id then .ok () { c with stack := c.stack.tail }
        else .error (.failed (c.refusal id)) c) ∧
      (∀ id, InContext.unwind id c = .ok () { c with
        stack := if id ∈ c.stack.map (·.id) then c.stack.filter (fun i => i.id.number < id.number)
          else c.stack }) ∧
      ∀ name more d, (c.install name).2.after more = d →
        (∀ e, InContext.restore (c.install name).1 d = .ok () e →
          e.active? = c.active? ∧ e.stack = c.stack) ∧
        ((c.install name).1 ∈ d.stack.map (·.id) →
          (d.unwind (c.install name).1).stack = c.stack) := by
  obtain ⟨bounds, order, -⟩ := given_increasing (fresh g) calls
  refine ⟨order, ?_⟩
  rintro c rfl
  have ordered := (ordered_fresh g).after calls
  generalize (fresh g).after calls = c at *
  refine ⟨fun id hid => (bounds id hid).2, ordered.order, ordered.used, inContext_ensureActive c,
    inContext_restore c, fun id => ?_, ?_⟩
  · rw [← ordered.below_eq]
    rfl
  · rintro name more d rfl
    have installed : Changed c (some ⟨c.next⟩) (c.install name).2 := .installs name
    have since := (since_install c name).after ordered more
    have later := (installed.ordered ordered).after more
    refine ⟨fun e restored => ?_, since.below_eq later⟩
    obtain ⟨on, left⟩ := below_of_restore restored
    have back : e.stack = c.stack := left.trans (since.below_eq later on)
    exact ⟨congrArg List.head? back, back⟩

/-- A context with one handler. -/
def outer : Context := (fresh (Rng.ofSeed 0)).after [.install "outer"]

/-- After a second handler has been installed on it, a third one comes; the second is restored too
early, an unknown one is unwound, and the third is restored. -/
def outerAgain : Context :=
  (outer.install "inner").2.after [.install "third", .restore ⟨2⟩, .unwind ⟨7⟩, .restore ⟨3⟩]

/-- Then the second handler can be restored, after which the first one is alone as it was before, and
it can be unwound to the same effect. A handler that is installed after another one has been unwound
gets a new id. -/
theorem outer_reinstated :
    (∃ e, InContext.restore ⟨2⟩ outerAgain = .ok () e ∧ e.active? = outer.active? ∧
      e.stack = [⟨⟨1⟩, "outer"⟩]) ∧
    (outerAgain.unwind ⟨2⟩).stack = [⟨⟨1⟩, "outer"⟩] ∧
    (InContext.restore ⟨1⟩ outerAgain = .error (.failed (.handlerNesting ⟨1⟩ ⟨2⟩ "inner" none))
      outerAgain) ∧
    ((fresh (Rng.ofSeed 0)).given [.install "first", .unwind ⟨1⟩, .install "second"]).Pairwise
      (·.number < ·.number) := by
  obtain ⟨-, -, -, -, -, -, onward⟩ :=
    (handlers_in_order (Rng.ofSeed 0) [.install "outer"]).2 outer rfl
  obtain ⟨restored, unwound⟩ := onward "inner" _ outerAgain rfl
  obtain ⟨-, -, -, -, restoring, -⟩ := (handlers_in_order (Rng.ofSeed 0) [.install "outer",
    .install "inner", .install "third", .restore ⟨2⟩, .unwind ⟨7⟩, .restore ⟨3⟩]).2 outerAgain rfl
  refine ⟨?_, unwound (by decide), restoring ⟨1⟩, (handlers_in_order _ _).1⟩
  have back : InContext.restore ⟨2⟩ outerAgain = .ok () { outerAgain with stack := outer.stack } :=
    restoring ⟨2⟩
  exact ⟨_, back, restored _ back⟩

end Posterior.Context
