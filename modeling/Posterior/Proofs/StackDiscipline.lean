import Posterior.Proofs.Guard

/-!
How work leaves the handler stack, whether it ends with a result or stops short: as it found it, or
without the handler on top. The laws go by the way in which the work is put together, up to the loop
that drives a handler, which takes the handler off the stack however the loop ends.
-/

namespace Posterior

section
variable {ε σ α β γ : Type}

/-- The state in which work ends, with a result or short of one. -/
def finalState : EStateM.Result ε σ α → σ
  | .ok _ s => s
  | .error _ s => s

/-- However the work ends, it leaves the view of its state as it was. -/
def Preserves (view : σ → β) (work : EStateM ε σ α) : Prop :=
  ∀ s, view (finalState (work s)) = view s

namespace Preserves

variable {view : σ → β}

theorem pure (a : α) : Preserves view (pure a : EStateM ε σ α) := fun _ => rfl

theorem throw (e : ε) : Preserves view (throw e : EStateM ε σ α) := fun _ => rfl

theorem get : Preserves view (MonadState.get : EStateM ε σ σ) := fun _ => rfl

theorem of_ok {work : EStateM ε σ α} {s t : σ} {a : α} (h : Preserves view work)
    (ran : work s = .ok a t) : view t = view s := by
  have hs := h s
  rwa [ran] at hs

theorem of_error {work : EStateM ε σ α} {s t : σ} {e : ε} (h : Preserves view work)
    (ran : work s = .error e t) : view t = view s := by
  have hs := h s
  rwa [ran] at hs

/-- The rest of the work makes no difference to the view. -/
theorem after {f : α → EStateM ε σ γ} (hf : ∀ a, Preserves view (f a)) (x : EStateM ε σ α)
    (s : σ) : view (finalState ((x >>= f) s)) = view (finalState (x s)) := by
  cases h : x s with
  | ok a t =>
    rw [bind_ok h]
    exact hf a t
  | error e t =>
    rw [bind_error h]
    rfl

theorem bind {x : EStateM ε σ α} {f : α → EStateM ε σ γ} (hx : Preserves view x)
    (hf : ∀ a, Preserves view (f a)) : Preserves view (x >>= f) :=
  fun s => (after hf x s).trans (hx s)

theorem forM {f : α → EStateM ε σ Unit} (hf : ∀ a, Preserves view (f a)) (l : List α) :
    Preserves view (l.forM f) := by
  induction l with
  | nil => exact .pure _
  | cons a l ih => exact .bind (hf a) fun _ => ih

theorem foldlM {f : γ → α → EStateM ε σ γ} (hf : ∀ c a, Preserves view (f c a)) (l : List α) (c : γ) :
    Preserves view (l.foldlM f c) := by
  induction l generalizing c with
  | nil => exact .pure _
  | cons a l ih =>
    rw [List.foldlM_cons]
    exact .bind (hf c a) fun c' => ih c'

end Preserves

end

def Control.isDone {α : Type} : Control α → Bool
  | .resume _ => false
  | .done _ => true

/-- What lies below the active handler. -/
theorem Context.below_active {c : Context} {id : HandlerId}
    (active : c.active?.map (·.id) = some id) : below id c.stack = c.stack.tail := by
  unfold active? at active
  cases hstack : c.stack with
  | nil => simp [hstack] at active
  | cons top rest =>
    obtain rfl : top.id = id := by simpa [hstack] using active
    exact below_top top.id top.name rest

namespace InContext

variable {α β : Type}

abbrev Steady (work : InContext α) : Prop := Preserves (·.stack) work

/-- However the work ends, the handler that was active at its begin has left the stack. -/
def Clears (id : HandlerId) (work : InContext α) : Prop :=
  ∀ c, c.active?.map (·.id) = some id → (finalState (work c)).stack = c.stack.tail

theorem steady_ofExcept (result : Except Failure α) : (ofExcept result).Steady := by
  cases result with
  | ok a => exact .pure a
  | error cause => exact .throw _

theorem steady_draw (d : Draw α) : (draw d).Steady := by
  intro c
  unfold draw
  cases d c.rng <;> rfl

theorem steady_ensureActive (id : HandlerId) : (ensureActive id).Steady :=
  .bind .get fun _ => steady_ofExcept _

theorem Clears.bind {id : HandlerId} {x : InContext α} {f : α → InContext β} (hx : x.Clears id)
    (hf : ∀ a, (f a).Steady) : (x >>= f).Clears id :=
  fun c active => (Preserves.after hf x c).trans (hx c active)

/-- A handler that is installed for some work and leaves with it. -/
theorem steady_install {name : String} {work : HandlerId → InContext α}
    (h : ∀ id, (work id).Clears id) : (install name >>= work).Steady := by
  intro c
  have hi : install name c = .ok (c.install name).1 (c.install name).2 :=
    install_eq_ok.mpr ⟨rfl, rfl⟩
  rw [bind_ok hi]
  exact h _ _ rfl

end InContext

namespace Run

variable {σ α β : Type}

abbrev Steady (work : Run σ α) : Prop := Preserves (·.context.stack) work

theorem steady_onContext {work : InContext α} (h : work.Steady) :
    (onContext work : Run σ α).Steady := by
  intro s
  have hs := h s.context
  unfold onContext
  cases hw : work s.context <;> rw [hw] at hs <;> exact hs

theorem steady_draw (d : Draw α) : (draw d : Run σ α).Steady :=
  steady_onContext (InContext.steady_draw d)

theorem steady_ofExcept (result : Except Failure α) : (ofExcept result : Run σ α).Steady :=
  steady_onContext (InContext.steady_ofExcept result)

theorem preserves_engine {view : Session σ → β} : Preserves view engine := fun _ => rfl

theorem preserves_onContext (work : InContext α) :
    Preserves (·.engine) (onContext work : Run σ α) := by
  intro s
  unfold onContext
  cases work s.context <;> rfl

theorem steady_setEngine (e : σ) : (setEngine e).Steady := fun _ => rfl

theorem steady_modifyEngine (f : σ → σ) : (modifyEngine f).Steady := fun _ => rfl

theorem steady_within (chain : σ → Chain) (update : Chain → σ → σ) (move : Move α) :
    (Chain.within chain update move).Steady := by
  intro s
  unfold Chain.within
  cases move (chain s.engine, s.context.rng) <;> rfl

/-- The handler leaves the stack with work that ends in a way that says so; work that stops short
leaves the stack alone. -/
def Ends (leaves : α → Bool) (work : Run σ α) : Prop := ∀ s,
  match work s with
  | .ok a t => t.context.stack = if leaves a then s.context.stack.tail else s.context.stack
  | .error _ t => t.context.stack = s.context.stack

abbrev Leaves (work : Run σ α) : Prop := Ends (fun _ => true) work

/-- Work with which the handler leaves the stack if it is done. -/
abbrev Yields (work : Run σ (Control α)) : Prop := Ends Control.isDone work

/-- However the work ends, the handler that was active at its begin has left the stack. -/
def Clears (id : HandlerId) (work : Run σ α) : Prop :=
  ∀ s, s.context.active?.map (·.id) = some id →
    (finalState (work s)).context.stack = s.context.stack.tail

section
variable {leaves : α → Bool} {leaves' : β → Bool}

theorem Ends.pure {a : α} (stays : leaves a = false) : Ends leaves (pure a : Run σ α) := by
  intro s
  change s.context.stack = if leaves a then _ else _
  rw [stays]
  rfl

theorem Ends.fail (cause : Failure) : Ends leaves (fail cause : Run σ α) := fun _ => rfl

theorem Ends.bind {x : Run σ α} {f : α → Run σ β} (hx : x.Steady)
    (hf : ∀ a, Ends leaves' (f a)) : Ends leaves' (x >>= f) := by
  intro s
  cases h : x s with
  | ok a t =>
    have ht := hf a t
    rw [hx.of_ok h] at ht
    rwa [bind_ok h]
  | error stop t =>
    rw [bind_error h]
    exact hx.of_error h

/-- Nothing that happens after the handler has left brings it back. -/
theorem Ends.result {x : Run σ α} {result : α → β} (hx : Ends leaves x)
    (same : ∀ a, leaves' (result a) = leaves a) :
    Ends leaves' (x >>= fun a => Pure.pure (result a)) := by
  intro s
  have hs := hx s
  cases h : x s with
  | ok a t =>
    rw [h] at hs
    rw [bind_ok h]
    change t.context.stack = if leaves' (result a) then _ else _
    rwa [same a]
  | error stop t =>
    rw [h] at hs
    rwa [bind_error h]

end

/-- While the handler goes on, it stays on the stack. -/
theorem Ends.of_resume {x : Run σ (Control α)} {s t : Session σ} {next : Resume} (hx : x.Yields)
    (ran : x s = .ok (.resume next) t) : t.context.stack = s.context.stack := by
  have hs := hx s
  rwa [ran] at hs

theorem leaves_restore (id : HandlerId) : (restore id : Run σ Unit).Leaves := by
  intro s
  unfold restore onContext InContext.restore
  rw [bind_ok (get_eq_ok.mpr ⟨rfl, rfl⟩)]
  cases ha : s.context.restore id with
  | ok c =>
    obtain ⟨_, rfl⟩ := Context.restore_eq_ok.mp ha
    rfl
  | error cause => rfl

theorem guarding_error {id : HandlerId} {work : Run σ α} {s t : Session σ} {stop : Stop}
    (h : work s = .error stop t) :
    guarding id work s = .error stop { t with context := t.context.unwind id } := by
  unfold guarding
  rw [h]

theorem engine_guarding (id : HandlerId) (work : Run σ α) (s : Session σ) :
    (finalState (guarding id work s)).engine = (finalState (work s)).engine := by
  unfold guarding
  cases work s <;> rfl

/-- Work that leaves the stack alone when it stops short is unwound then. -/
theorem stack_guarding {id : HandlerId} {work : Run σ α} {s t : Session σ} {stop : Stop}
    (active : s.context.active?.map (·.id) = some id) (h : work s = .error stop t)
    (same : t.context.stack = s.context.stack) :
    (finalState (guarding id work s)).context.stack = s.context.stack.tail := by
  rw [guarding_error h]
  change Context.below id t.context.stack = _
  rw [same]
  exact Context.below_active active

theorem Ends.clears {id : HandlerId} {x : Run σ α} (hx : x.Leaves) : (guarding id x).Clears id := by
  intro s active
  have hs := hx s
  cases h : x s with
  | ok a t =>
    rw [h] at hs
    rw [guarding_eq_ok.mpr h]
    exact hs
  | error stop t =>
    rw [h] at hs
    exact stack_guarding active h hs

theorem stack_inContext (x : Run σ α) (e : σ) (c : Context) :
    (finalState (x.inContext e c)).stack = (finalState (x ⟨e, c⟩)).context.stack := by
  unfold Run.inContext
  cases x ⟨e, c⟩ <;> rfl

theorem Clears.inContext {id : HandlerId} {x : Run σ α} (hx : x.Clears id) (e : σ) :
    (x.inContext e).Clears id :=
  fun c active => (stack_inContext x e c).trans (hx ⟨e, c⟩ active)

end Run

namespace Handler

variable {σ α : Type} {h : Handler σ α}

/-- A handler whose methods take it off the stack when it is done, and never else. -/
structure Tidy (h : Handler σ α) : Prop where
  sample : ∀ choice deliver, (h.onSample choice deliver).Yields
  factor : ∀ point resume, (h.onFactor point resume).Yields
  exit : ∀ store value, (h.onExit store value).Yields

theorem Tidy.answer (tidy : h.Tidy) (effect : Step) : (h.answer effect).Yields := by
  refine .bind .get fun s => .bind (Run.steady_ofExcept _) fun _ => ?_
  cases effect with
  | sample choice deliver => exact tidy.sample choice deliver
  | factor point resume =>
    dsimp only
    split
    · exact .fail _
    · exact tidy.factor point resume
  | exit store value => exact tidy.exit store value

/-- What the answers keep while the run goes on decides what it comes to, result or not. -/
theorem dispatch_outcome {P : Resume → Session σ → Prop}
    {Q : EStateM.Result Stop (Session σ) α → Prop}
    (spent : ∀ next s, P next s → Q (.error .outOfFuel s))
    (step : ∀ next s, P next s →
      match h.answer next.invoke s with
      | .ok (.resume next') t => P next' t
      | .ok (.done result) t => Q (.ok result t)
      | .error stop t => Q (.error stop t))
    (fuel : Nat) {next : Resume} {s : Session σ} (hp : P next s) : Q (h.dispatch fuel next s) := by
  induction fuel generalizing next s with
  | zero => exact spent next s hp
  | succ fuel ih =>
    have hs := step next s hp
    unfold Handler.dispatch
    cases ha : h.answer next.invoke s with
    | error stop t =>
      rw [ha] at hs
      rwa [bind_error ha]
    | ok control t =>
      rw [ha] at hs
      rw [bind_ok ha]
      cases control with
      | resume next' => exact ih hs
      | done result => exact hs

/-- The loop takes the handler off the stack with the result. -/
theorem Tidy.dispatch (tidy : h.Tidy) (fuel : Nat) (next : Resume) :
    (h.dispatch fuel next).Leaves := by
  intro s
  refine dispatch_outcome (P := fun _ r => r.context.stack = s.context.stack)
    (Q := fun (outcome : EStateM.Result Stop (Session σ) α) => match outcome with
      | .ok _ t => t.context.stack = s.context.stack.tail
      | .error _ t => t.context.stack = s.context.stack)
    (fun _ _ same => same) ?_ fuel rfl
  intro next r same
  have hr := tidy.answer next.invoke r
  rw [same] at hr
  cases ha : h.answer next.invoke r with
  | error stop t =>
    rw [ha] at hr
    exact hr
  | ok control t =>
    rw [ha] at hr
    cases control <;> exact hr

theorem Tidy.drive (tidy : h.Tidy) (fuel : Nat) (next : Resume) :
    (h.drive fuel next).Clears h.id :=
  (tidy.dispatch fuel next).clears

end Handler

end Posterior
