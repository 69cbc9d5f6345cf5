import Posterior.Proofs.Outcomes

/-!
What a stretch of work comes to, whatever the bound on its effects, and how it is computed action by
action. Work that comes to the same in corresponding states carries its outcome from one to the
other.
-/

namespace Posterior

section
variable {ε σ τ α β : Type}

/-- The same outcome in the corresponding state. -/
def carry (F : σ → τ) : EStateM.Result ε σ α → EStateM.Result ε τ α
  | .ok a s => .ok a (F s)
  | .error e s => .error e (F s)

theorem bind_ok {x : EStateM ε σ α} {f : α → EStateM ε σ β} {a : α} {s t : σ}
    (h : x s = .ok a t) : (x >>= f) s = f a t := by
  change EStateM.bind x f s = _
  unfold EStateM.bind
  rw [h]

theorem bind_error {x : EStateM ε σ α} {f : α → EStateM ε σ β} {e : ε} {s t : σ}
    (h : x s = .error e t) : (x >>= f) s = .error e t := by
  change EStateM.bind x f s = _
  unfold EStateM.bind
  rw [h]

theorem bind_carry {F : σ → τ} {x : EStateM ε σ α} {y : EStateM ε τ α} {f : α → EStateM ε σ β}
    {g : α → EStateM ε τ β} {s : σ} (hx : y (F s) = carry F (x s))
    (hf : ∀ a t, x s = .ok a t → g a (F t) = carry F (f a t)) :
    (y >>= g) (F s) = carry F ((x >>= f) s) := by
  cases h : x s with
  | ok a t =>
    rw [h] at hx
    rw [bind_ok hx, bind_ok h, hf a t h]
  | error e t =>
    rw [h] at hx
    rw [bind_error hx, bind_error h]
    rfl

/-- Two outcomes that correspond: both are results, which stand in the relation, or both stop
short. -/
inductive Matched (R : α → σ → β → τ → Prop) :
    EStateM.Result ε σ α → EStateM.Result ε τ β → Prop where
  | ok {a : α} {s : σ} {b : β} {t : τ} (related : R a s b t) : Matched R (.ok a s) (.ok b t)
  | error {e e' : ε} {s : σ} {t : τ} : Matched R (.error e s) (.error e' t)

section
variable {R : α → σ → β → τ → Prop} {x : EStateM ε σ α} {y : EStateM ε τ β} {s : σ} {t : τ}

theorem Matched.bind {γ δ : Type} {Q : γ → σ → δ → τ → Prop} {f : α → EStateM ε σ γ}
    {g : β → EStateM ε τ δ} (h : Matched R (x s) (y t))
    (hf : ∀ a r b u, R a r b u → Matched Q (f a r) (g b u)) :
    Matched Q ((x >>= f) s) ((y >>= g) t) := by
  generalize hx : x s = outcome at h
  generalize hy : y t = outcome' at h
  cases h with
  | ok related =>
    rw [bind_ok hx, bind_ok hy]
    exact hf _ _ _ _ related
  | error =>
    rw [bind_error hx, bind_error hy]
    exact .error

/-- One side may go on alone. -/
theorem Matched.bind_left {γ : Type} {Q : γ → σ → β → τ → Prop} {f : α → EStateM ε σ γ}
    (h : Matched R (x s) (y t)) (hf : ∀ a r b u, R a r b u → Matched Q (f a r) (.ok b u)) :
    Matched Q ((x >>= f) s) (y t) := by
  generalize hx : x s = outcome at h
  generalize y t = outcome' at h
  cases h with
  | ok related =>
    rw [bind_ok hx]
    exact hf _ _ _ _ related
  | error =>
    rw [bind_error hx]
    exact .error

theorem Matched.ok_iff (h : Matched R (x s) (y t)) :
    (∃ a r, x s = .ok a r) ↔ ∃ b u, y t = .ok b u := by
  generalize x s = outcome at h
  generalize y t = outcome' at h
  cases h <;> simp

theorem Matched.related {a : α} {r : σ} {b : β} {u : τ} (h : Matched R (x s) (y t))
    (hx : x s = .ok a r) (hy : y t = .ok b u) : R a r b u := by
  rw [hx, hy] at h
  cases h with
  | ok related => exact related

end

end

section
variable {σ α β : Type} {s t : Session σ}

/-- With a bound that is large enough the work comes to this. -/
def Returns (work : Nat → Run σ α) (s : Session σ) (a : α) (t : Session σ) : Prop :=
  ∃ fuel, work fuel s = .ok a t

/-- With a bound that is large enough the work fails. -/
def Fails (work : Nat → Run σ α) (s : Session σ) : Prop :=
  ∃ fuel cause t, work fuel s = .error (.failed cause) t

/-- Two stretches of work come to the same, each with a bound that is large enough for it. -/
structure SameVerdict (work : Nat → Run σ α) (s : Session σ) (work' : Nat → Run σ α)
    (s' : Session σ) : Prop where
  returns : ∀ a t, Returns work s a t ↔ Returns work' s' a t
  fails : Fails work s ↔ Fails work' s'

theorem SameVerdict.trans {work work' work'' : Nat → Run σ α} {s' s'' : Session σ}
    (h : SameVerdict work s work' s') (h' : SameVerdict work' s' work'' s'') :
    SameVerdict work s work'' s'' :=
  ⟨fun a t => (h.returns a t).trans (h'.returns a t), h.fails.trans h'.fails⟩

theorem SameVerdict.symm {work work' : Nat → Run σ α} {s' : Session σ}
    (h : SameVerdict work s work' s') : SameVerdict work' s' work s :=
  ⟨fun a t => (h.returns a t).symm, h.fails.symm⟩

theorem sameVerdict_guarding (id : HandlerId) (work : Nat → Run σ α) (s : Session σ) :
    SameVerdict (fun fuel => Run.guarding id (work fuel)) s work s := by
  refine ⟨fun a t => exists_congr fun _ => Run.guarding_eq_ok,
    exists_congr fun fuel => exists_congr fun cause => ?_⟩
  change (∃ t, Run.guarding id (work fuel) s = _) ↔ _
  unfold Run.guarding
  cases work fuel s <;> simp

theorem sameVerdict_of_eq {work work' : Nat → Run σ α} {s' : Session σ}
    (h : ∀ fuel, work fuel s = work' fuel s') : SameVerdict work s work' s' := by
  refine ⟨fun a t => exists_congr fun fuel => ?_,
    exists_congr fun fuel => exists_congr fun cause => exists_congr fun t => ?_⟩ <;>
    rw [h fuel]

/-- What comes first and succeeds makes no difference to the rest. -/
theorem sameVerdict_bind {x : Run σ β} {work : Nat → β → Run σ α} {r : Session σ} {b : β}
    (h : x s = .ok b r) : SameVerdict (fun fuel => x >>= work fuel) s (work · b) r :=
  sameVerdict_of_eq fun _ => bind_ok h

/-- Nor does a first effect, which is counted. -/
theorem sameVerdict_of_succ {work work' : Nat → Run σ α} {s' : Session σ}
    (zero : work 0 = throw .outOfFuel) (succ : ∀ fuel, work (fuel + 1) s = work' fuel s') :
    SameVerdict work s work' s' := by
  refine ⟨fun a t => ⟨?_, ?_⟩, ?_, ?_⟩
  · rintro ⟨_ | fuel, h⟩
    · rw [zero] at h
      cases h
    · exact ⟨fuel, (succ fuel).symm.trans h⟩
  · rintro ⟨fuel, h⟩
    exact ⟨fuel + 1, (succ fuel).trans h⟩
  · rintro ⟨_ | fuel, cause, t, h⟩
    · rw [zero] at h
      cases h
    · exact ⟨fuel, cause, t, (succ fuel).symm.trans h⟩
  · rintro ⟨fuel, cause, t, h⟩
    exact ⟨fuel + 1, cause, t, (succ fuel).trans h⟩

theorem Matched.guarding {τ : Type} {R : α → Session σ → β → τ → Prop} {id : HandlerId}
    {work : Run σ α} {y : EStateM Stop τ β} {u : τ} (h : Matched R (work s) (y u)) :
    Matched R (Run.guarding id work s) (y u) := by
  unfold Run.guarding
  generalize work s = outcome at h
  generalize y u = outcome' at h
  cases h with
  | ok related => exact .ok related
  | error => exact .error

/-- Who is active does not depend on whom the failure would be blamed on. -/
theorem Context.ensureActive_eq_ok {c : Context} {id : HandlerId} {handler : Option String} :
    c.ensureActive id handler = .ok () ↔ c.active?.map (·.id) = some id := by
  unfold Context.ensureActive Context.active?
  cases c.stack with
  | nil => simp
  | cons top rest =>
    simp only [List.head?_cons, Option.map_some, Option.some.injEq]
    split <;> simp_all

/-- The active handler, and no other, can leave the stack. -/
theorem Context.restore_eq_ok {c c' : Context} {id : HandlerId} :
    c.restore id = .ok c' ↔
      c.active?.map (·.id) = some id ∧ { c with stack := c.stack.tail } = c' := by
  unfold Context.restore
  rw [except_bind_eq_ok]
  constructor
  · rintro ⟨_, active, h⟩
    exact ⟨Context.ensureActive_eq_ok.mp active, Except.ok.inj h⟩
  · rintro ⟨active, h⟩
    exact ⟨(), Context.ensureActive_eq_ok.mpr active, congrArg Except.ok h⟩

namespace Run

theorem engine_bind {f : σ → Run σ β} : (engine >>= f) s = f s.engine s := rfl

theorem modifyEngine_bind {update : σ → σ} {f : Unit → Run σ β} :
    (modifyEngine update >>= f) s = f () { s with engine := update s.engine } := rfl

theorem draw_ok {d : Draw α} {a : α} {g : Rng} (h : d s.context.rng = .ok a g) :
    draw d s = .ok a { s with context := { s.context with rng := g } } :=
  draw_eq_ok.mpr ⟨g, h, rfl⟩

theorem draw_error {d : Draw α} {cause : Failure} {g : Rng}
    (h : d s.context.rng = .error cause g) :
    (draw d : Run σ α) s =
      .error (.failed cause) { s with context := { s.context with rng := g } } := by
  unfold draw onContext InContext.draw
  rw [h]

theorem restore_eq_ok {id : HandlerId} {u : Unit} :
    (restore id : Run σ Unit) s = .ok u t ↔ s.context.active?.map (·.id) = some id ∧
      { s with context := { s.context with stack := s.context.stack.tail } } = t := by
  have hr : ∀ c, InContext.restore id s.context = .ok u c ↔ s.context.restore id = .ok c := by
    intro c
    unfold InContext.restore
    rw [bind_ok (get_eq_ok.mpr ⟨rfl, rfl⟩)]
    cases s.context.restore id with
    | ok d =>
      rw [bind_ok (InContext.ofExcept_eq_ok.mpr ⟨rfl, rfl⟩)]
      change EStateM.Result.ok () d = _ ↔ _
      simp
    | error cause => simp [bind_eq_ok, InContext.ofExcept_eq_ok]
  unfold restore
  simp only [onContext_eq_ok, hr, Context.restore_eq_ok]
  constructor
  · rintro ⟨_, ⟨active, rfl⟩, rfl⟩
    exact ⟨active, rfl⟩
  · rintro ⟨active, rfl⟩
    exact ⟨_, ⟨active, rfl⟩, rfl⟩

theorem restore_of_active {id : HandlerId} (active : s.context.active?.map (·.id) = some id) :
    (restore id : Run σ Unit) s =
      .ok () { s with context := { s.context with stack := s.context.stack.tail } } :=
  restore_eq_ok.mpr ⟨active, rfl⟩

end Run

namespace Handler

variable {h : Handler σ α}

/-- The answer of a handler that is active. -/
def method (h : Handler σ α) : Step → Run σ (Control α)
  | .sample choice deliver => h.onSample choice deliver
  | .factor point resume =>
    if point.logWeight.isNaN then Run.fail (.factorNaN h.name point.address)
    else h.onFactor point resume
  | .exit store value => h.onExit store value

theorem answer_of_active {step : Step} (active : s.context.active?.map (·.id) = some h.id) :
    h.answer step s = h.method step s := by
  unfold answer
  rw [bind_ok (get_eq_ok.mpr ⟨rfl, rfl⟩),
    bind_ok (Run.ofExcept_eq_ok.mpr ⟨Context.ensureActive_eq_ok.mpr active, rfl⟩)]
  cases step <;> rfl

/-- Only an active handler answers. -/
theorem active_of_answer {step : Step} {control : Control α}
    (ha : h.answer step s = .ok control t) : s.context.active?.map (·.id) = some h.id := by
  unfold answer at ha
  simp only [bind_eq_ok, get_eq_ok, Run.ofExcept_eq_ok] at ha
  obtain ⟨_, _, ⟨rfl, rfl⟩, _, _, ⟨active, _⟩, _⟩ := ha
  exact Context.ensureActive_eq_ok.mp active

theorem dispatch_succ {fuel : Nat} {next next' : Resume}
    (ha : h.answer next.invoke s = .ok (.resume next') t) :
    h.dispatch (fuel + 1) next s = h.dispatch fuel next' t := by
  rw [dispatch, bind_ok ha]

/-- An answer that brings the run to its result. -/
theorem dispatch_of_done {fuel : Nat} {next : Resume} {x : Run σ α}
    (ha : h.answer next.invoke s = (x >>= fun result => pure (.done result)) t) :
    h.dispatch (fuel + 1) next s = x t := by
  rw [dispatch]
  cases hx : x t with
  | ok result r =>
    rw [bind_ok hx] at ha
    rw [bind_ok ha]
    rfl
  | error stop r =>
    rw [bind_error hx] at ha
    rw [bind_error ha]

/-- An answer that carries the run on from somewhere else. -/
theorem dispatch_of_resume {fuel : Nat} {next : Resume} {x : Run σ Resume}
    (ha : h.answer next.invoke s = (x >>= fun next' => pure (.resume next')) t) :
    h.dispatch (fuel + 1) next s = (x >>= h.dispatch fuel) t := by
  rw [dispatch]
  cases hx : x t with
  | ok next' r =>
    rw [bind_ok hx] at ha ⊢
    rw [bind_ok ha]
  | error stop r =>
    rw [bind_error hx] at ha ⊢
    rw [bind_error ha]

/-- An effect that is answered does not change what a run comes to. -/
theorem sameVerdict_answer {next next' : Resume}
    (ha : h.answer next.invoke s = .ok (.resume next') t) :
    SameVerdict (h.dispatch · next) s (h.dispatch · next') t :=
  sameVerdict_of_succ rfl fun _ => dispatch_succ ha

end Handler

end

end Posterior
