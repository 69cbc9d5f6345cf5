import Posterior.Chain.Basic

/-!
When computations succeed. Each law takes one way of putting computations together and says which
successful outcomes it has, so that a run is peeled apart from its first action on.
-/

namespace Posterior

section
variable {ε σ α β : Type} {s t : σ}

/-- A sequence succeeds when its first action does and the rest succeeds after it. -/
theorem bind_eq_ok {x : EStateM ε σ α} {f : α → EStateM ε σ β} {b : β} :
    (x >>= f) s = .ok b t ↔ ∃ a r, x s = .ok a r ∧ f a r = .ok b t := by
  change EStateM.bind x f s = _ ↔ _
  unfold EStateM.bind
  cases hx : x s with
  | ok a r =>
    constructor
    · intro h
      exact ⟨a, r, rfl, h⟩
    · rintro ⟨a', r', he, h⟩
      cases he
      exact h
  | error e r => simp

theorem pure_eq_ok {a b : α} : (pure a : EStateM ε σ α) s = .ok b t ↔ a = b ∧ s = t := by
  change EStateM.Result.ok a s = _ ↔ _
  simp

theorem throw_ne_ok {e : ε} {a : α} : (throw e : EStateM ε σ α) s ≠ .ok a t := by
  intro h
  cases h

theorem get_eq_ok {a : σ} : (MonadState.get : EStateM ε σ σ) s = .ok a t ↔ s = a ∧ s = t := by
  change EStateM.Result.ok s s = _ ↔ _
  simp

/-- A sequence fails when its first action does, or when the rest does after it. -/
theorem bind_eq_error {x : EStateM ε σ α} {f : α → EStateM ε σ β} {e : ε} :
    (x >>= f) s = .error e t ↔ x s = .error e t ∨ ∃ a r, x s = .ok a r ∧ f a r = .error e t := by
  change EStateM.bind x f s = _ ↔ _
  unfold EStateM.bind
  cases hx : x s with
  | ok a r =>
    constructor
    · intro h
      exact .inr ⟨a, r, rfl, h⟩
    · rintro (h | ⟨a', r', he, h⟩)
      · cases h
      · cases he
        exact h
  | error e r => simp

def succeeds : EStateM.Result ε σ α → Bool
  | .ok _ _ => true
  | .error _ _ => false

theorem exists_of_succeeds {r : EStateM.Result ε σ α} (h : succeeds r = true) :
    ∃ a s, r = .ok a s := by
  cases r with
  | ok a s => exact ⟨a, s, rfl⟩
  | error e s => cases h

theorem exists_of_fails {r : EStateM.Result ε σ α} (h : succeeds r = false) :
    ∃ e s, r = .error e s := by
  cases r with
  | ok a s => cases h
  | error e s => exact ⟨e, s, rfl⟩

/-- A success whose result and state pass the test. -/
def succeedsWith (test : α → σ → Bool) : EStateM.Result ε σ α → Bool
  | .ok a s => test a s
  | .error _ _ => false

theorem exists_of_succeedsWith {test : α → σ → Bool} {r : EStateM.Result ε σ α}
    (h : succeedsWith test r = true) : ∃ a s, r = .ok a s ∧ test a s = true := by
  cases r with
  | ok a s => exact ⟨a, s, rfl, h⟩
  | error e s => cases h

/-- What every action of a sequence keeps, the sequence keeps. -/
theorem forM_keeps {P : σ → Prop} {f : α → EStateM ε σ Unit}
    (hf : ∀ a s t, P s → f a s = .ok () t → P t) {l : List α} (hs : P s)
    (h : l.forM f s = .ok () t) : P t := by
  induction l generalizing s with
  | nil =>
    obtain ⟨_, rfl⟩ := pure_eq_ok.mp h
    exact hs
  | cons a l ih =>
    have hc : (f a >>= fun _ => l.forM f) s = .ok () t := h
    obtain ⟨_, r, ha, hc⟩ := bind_eq_ok.mp hc
    exact ih (hf a s r hs ha) hc

/-- What every action that hands a result on keeps, the whole chain of them keeps. -/
theorem foldlM_keeps {P : β → σ → Prop} {f : β → α → EStateM ε σ β}
    (hf : ∀ b a s b' t, P b s → f b a s = .ok b' t → P b' t) {l : List α} {b b' : β} (hs : P b s)
    (h : l.foldlM f b s = .ok b' t) : P b' t := by
  induction l generalizing s b with
  | nil =>
    obtain ⟨rfl, rfl⟩ := pure_eq_ok.mp h
    exact hs
  | cons a l ih =>
    rw [List.foldlM_cons] at h
    obtain ⟨c, r, ha, h⟩ := bind_eq_ok.mp h
    exact ih (hf b a s c r hs ha) h

end

theorem except_bind_eq_ok {ε α β : Type} {x : Except ε α} {f : α → Except ε β} {b : β} :
    (x >>= f) = .ok b ↔ ∃ a, x = .ok a ∧ f a = .ok b := by
  cases x <;> simp [bind, Except.bind]

theorem except_bind_eq_error {ε α β : Type} {x : Except ε α} {f : α → Except ε β} {e : ε} :
    (x >>= f) = .error e ↔ x = .error e ∨ ∃ a, x = .ok a ∧ f a = .error e := by
  cases x <;> simp [bind, Except.bind]

theorem ensureNumber_eq_ok {code quantity : String} {x y : Float} :
    ensureNumber code quantity x = .ok y ↔ x = y ∧ x.isNaN = false := by
  unfold ensureNumber
  split <;> simp_all

theorem Draw.ofExcept_eq_ok {α : Type} {result : Except Failure α} {a : α} {g g' : Rng} :
    Draw.ofExcept result g = .ok a g' ↔ result = .ok a ∧ g = g' := by
  cases result with
  | ok b => simp [Draw.ofExcept, pure_eq_ok]
  | error e => simp [Draw.ofExcept, throw_ne_ok]

theorem Draw.uniform_eq_ok {x : Float} {g g' : Rng} :
    Draw.uniform g = .ok x g' ↔ g.uniform.1 = x ∧ g.uniform.2 = g' := by
  change EStateM.Result.ok g.uniform.1 g.uniform.2 = _ ↔ _
  simp

/-- A draw of an index cannot fail. -/
theorem Draw.below_ok {n : Nat} (pos : 0 < n) (g : Rng) :
    ∃ i g', Draw.below n pos g = .ok i g' := by
  unfold Draw.below
  generalize g.below n pos = drawn
  exact ⟨drawn.1, drawn.2, rfl⟩

namespace Chain

variable {α : Type} {s t : Chain × Rng}

theorem get_eq_ok {c : Chain} : get s = .ok c t ↔ s.1 = c ∧ s = t := by
  change EStateM.Result.ok s.1 s = _ ↔ _
  simp

theorem put_eq_ok {c : Chain} {u : Unit} : put c s = .ok u t ↔ (c, s.2) = t := by
  change EStateM.Result.ok () (c, s.2) = _ ↔ _
  simp

theorem draw_eq_ok {d : Draw α} {a : α} :
    draw d s = .ok a t ↔ ∃ g, d s.2 = .ok a g ∧ (s.1, g) = t := by
  unfold draw
  cases d s.2 with
  | ok b r =>
    simp only [EStateM.Result.ok.injEq]
    constructor
    · rintro ⟨hb, ht⟩
      exact ⟨r, ⟨hb, rfl⟩, ht⟩
    · rintro ⟨_, ⟨hb, rfl⟩, ht⟩
      exact ⟨hb, ht⟩
  | error e r => simp

theorem ofExcept_eq_ok {result : Except Failure α} {a : α} :
    ofExcept result s = .ok a t ↔ result = .ok a ∧ s = t := by
  unfold ofExcept
  simp only [draw_eq_ok, Draw.ofExcept_eq_ok]
  constructor
  · rintro ⟨g, ⟨hr, rfl⟩, rfl⟩
    exact ⟨hr, rfl⟩
  · rintro ⟨hr, rfl⟩
    exact ⟨s.2, ⟨hr, rfl⟩, rfl⟩

theorem within_eq_ok {σ : Type} {chain : σ → Chain} {update : Chain → σ → σ} {move : Move α}
    {r r' : Session σ} {a : α} :
    within chain update move r = .ok a r' ↔
      ∃ c g, move (chain r.engine, r.context.rng) = .ok a (c, g) ∧
        r' = ⟨update c r.engine, { r.context with rng := g }⟩ := by
  unfold within
  cases hm : move (chain r.engine, r.context.rng) with
  | ok b s => simp [eq_comm, and_assoc, Prod.ext_iff]
  | error e s => simp

end Chain

namespace InContext

variable {α : Type} {c c' : Context}

theorem ofExcept_eq_ok {result : Except Failure α} {a : α} :
    ofExcept result c = .ok a c' ↔ result = .ok a ∧ c = c' := by
  cases result with
  | ok b => simp [ofExcept, pure_eq_ok]
  | error e => simp [ofExcept, fail, throw_ne_ok]

theorem draw_eq_ok {d : Draw α} {a : α} :
    draw d c = .ok a c' ↔ ∃ g, d c.rng = .ok a g ∧ { c with rng := g } = c' := by
  unfold draw
  cases d c.rng with
  | ok b r =>
    simp only [EStateM.Result.ok.injEq]
    constructor
    · rintro ⟨hb, ht⟩
      exact ⟨r, ⟨hb, rfl⟩, ht⟩
    · rintro ⟨_, ⟨hb, rfl⟩, ht⟩
      exact ⟨hb, ht⟩
  | error e r => simp

theorem install_eq_ok {name : String} {id : HandlerId} :
    install name c = .ok id c' ↔ (c.install name).1 = id ∧ (c.install name).2 = c' := by
  change EStateM.Result.ok (c.install name).1 (c.install name).2 = _ ↔ _
  simp

end InContext

namespace Run

variable {σ α : Type} {s t : Session σ}

theorem fail_ne_ok {cause : Failure} {a : α} : (fail cause : Run σ α) s ≠ .ok a t :=
  throw_ne_ok

theorem engine_eq_ok {e : σ} : engine s = .ok e t ↔ s.engine = e ∧ s = t := by
  unfold engine
  simp only [bind_eq_ok, pure_eq_ok, Posterior.get_eq_ok]
  constructor
  · rintro ⟨a, r, ⟨rfl, rfl⟩, rfl, rfl⟩
    exact ⟨rfl, rfl⟩
  · rintro ⟨rfl, rfl⟩
    exact ⟨s, s, ⟨rfl, rfl⟩, rfl, rfl⟩

theorem setEngine_eq_ok {e : σ} {u : Unit} :
    setEngine e s = .ok u t ↔ { s with engine := e } = t := by
  change EStateM.Result.ok () _ = _ ↔ _
  simp

theorem modifyEngine_eq_ok {f : σ → σ} {u : Unit} :
    modifyEngine f s = .ok u t ↔ { s with engine := f s.engine } = t := by
  change EStateM.Result.ok () _ = _ ↔ _
  simp

theorem onContext_eq_ok {work : InContext α} {a : α} :
    onContext work s = .ok a t ↔
      ∃ c, work s.context = .ok a c ∧ { s with context := c } = t := by
  unfold onContext
  cases work s.context with
  | ok b r =>
    simp only [EStateM.Result.ok.injEq]
    constructor
    · rintro ⟨hb, ht⟩
      exact ⟨r, ⟨hb, rfl⟩, ht⟩
    · rintro ⟨_, ⟨hb, rfl⟩, ht⟩
      exact ⟨hb, ht⟩
  | error e r => simp

theorem ofExcept_eq_ok {result : Except Failure α} {a : α} :
    (ofExcept result : Run σ α) s = .ok a t ↔ result = .ok a ∧ s = t := by
  unfold ofExcept
  simp only [onContext_eq_ok, InContext.ofExcept_eq_ok]
  constructor
  · rintro ⟨c, ⟨hr, rfl⟩, rfl⟩
    exact ⟨hr, rfl⟩
  · rintro ⟨hr, rfl⟩
    exact ⟨s.context, ⟨hr, rfl⟩, rfl⟩

theorem draw_eq_ok {d : Draw α} {a : α} :
    (draw d : Run σ α) s = .ok a t ↔
      ∃ g, d s.context.rng = .ok a g ∧ { s with context := { s.context with rng := g } } = t := by
  unfold draw
  simp only [onContext_eq_ok, InContext.draw_eq_ok]
  constructor
  · rintro ⟨c, ⟨g, hd, rfl⟩, rfl⟩
    exact ⟨g, hd, rfl⟩
  · rintro ⟨g, hd, rfl⟩
    exact ⟨_, ⟨g, hd, rfl⟩, rfl⟩

theorem guarding_eq_ok {id : HandlerId} {work : Run σ α} {a : α} :
    guarding id work s = .ok a t ↔ work s = .ok a t := by
  unfold guarding
  cases work s <;> simp

theorem inContext_eq_ok {work : Run σ α} {e e' : σ} {c c' : Context} {a : α} :
    inContext work e c = .ok (a, e') c' ↔ work ⟨e, c⟩ = .ok a ⟨e', c'⟩ := by
  unfold inContext
  cases work ⟨e, c⟩ with
  | ok b s =>
    obtain ⟨f, d⟩ := s
    simp [and_assoc]
  | error stop s => simp

/-- The engine is not touched by work on the context alone. -/
theorem onContext_engine {work : InContext α} {a : α} (h : onContext work s = .ok a t) :
    t.engine = s.engine := by
  obtain ⟨c, _, rfl⟩ := onContext_eq_ok.mp h
  rfl

theorem restore_engine {id : HandlerId} {u : Unit} (h : (restore id : Run σ Unit) s = .ok u t) :
    t.engine = s.engine :=
  onContext_engine h

end Run

namespace Handler

variable {σ α : Type} {h : Handler σ α} {s t : Session σ}

theorem answer_sample {choice : Choice} {deliver : Delivery} {control : Control α}
    (ha : h.answer (.sample choice deliver) s = .ok control t) :
    h.onSample choice deliver s = .ok control t := by
  simp only [answer, bind_eq_ok, get_eq_ok, Run.ofExcept_eq_ok] at ha
  obtain ⟨_, _, ⟨rfl, rfl⟩, _, _, ⟨_, rfl⟩, ha⟩ := ha
  exact ha

/-- The method for factors is only shown weights that are numbers. -/
theorem answer_factor {point : Factor} {resume : Continuation} {control : Control α}
    (ha : h.answer (.factor point resume) s = .ok control t) :
    point.logWeight.isNaN = false ∧ h.onFactor point resume s = .ok control t := by
  simp only [answer, bind_eq_ok, get_eq_ok, Run.ofExcept_eq_ok] at ha
  obtain ⟨_, _, ⟨rfl, rfl⟩, _, _, ⟨_, rfl⟩, ha⟩ := ha
  split at ha
  · exact absurd ha Run.fail_ne_ok
  · rename_i hn
    exact ⟨by simpa using hn, ha⟩

theorem answer_exit {store : Store} {value : Value} {control : Control α}
    (ha : h.answer (.exit store value) s = .ok control t) :
    h.onExit store value s = .ok control t := by
  simp only [answer, bind_eq_ok, get_eq_ok, Run.ofExcept_eq_ok] at ha
  obtain ⟨_, _, ⟨rfl, rfl⟩, _, _, ⟨_, rfl⟩, ha⟩ := ha
  exact ha

/-- Started with `first` in `s`, the handler comes to answer `next` in `t`. -/
inductive Passes (h : Handler σ α) (first : Resume) (s : Session σ) :
    Resume → Session σ → Prop where
  | start : Passes h first s first s
  | answer {next next' : Resume} {t t' : Session σ} (before : Passes h first s next t)
      (answered : h.answer next.invoke t = .ok (.resume next') t') : Passes h first s next' t'

/-- What each answer keeps holds at every moment that a run passes. -/
theorem Passes.induction {P : Resume → Session σ → Prop} {first next : Resume} {r : Session σ}
    (start : P first s)
    (goesOn : ∀ next t next' t', P next t → h.answer next.invoke t = .ok (.resume next') t' →
      P next' t')
    (passes : h.Passes first s next r) : P next r := by
  induction passes with
  | start => exact start
  | answer before answered ih => exact goesOn _ _ _ _ ih answered

/-- The moment after a number of answers, if the handler gets that far. -/
def after (h : Handler σ α) : Nat → Resume → Session σ → Option (Resume × Session σ)
  | 0, next, s => some (next, s)
  | k + 1, next, s =>
    match h.answer next.invoke s with
    | .ok (.resume next') t => h.after k next' t
    | _ => none

theorem Passes.after {first next next' : Resume} {r : Session σ} {k : Nat}
    (passes : h.Passes first r next s) (later : h.after k next s = some (next', t)) :
    h.Passes first r next' t := by
  induction k generalizing next s with
  | zero =>
    cases later
    exact passes
  | succ k ih =>
    unfold Handler.after at later
    split at later
    · exact ih (.answer passes ‹_›) later
    · cases later

/-- A run that comes to a result does so from each moment that it passes. -/
theorem Passes.dispatch {first next : Resume} {r : Session σ} {fuel : Nat} {result : α}
    (passes : Passes h first s next r) (ran : h.dispatch fuel first s = .ok result t) :
    ∃ left, h.dispatch left next r = .ok result t := by
  induction passes with
  | start => exact ⟨fuel, ran⟩
  | answer before answered ih =>
    obtain ⟨left, ran⟩ := ih
    cases left with
    | zero => exact absurd ran throw_ne_ok
    | succ left =>
      simp only [Handler.dispatch, bind_eq_ok] at ran
      obtain ⟨control, r, again, ran⟩ := ran
      cases answered.symm.trans again
      exact ⟨left, ran⟩

/-- What each answer keeps until the handler is done holds of a whole run. -/
theorem dispatch_induction {P : Resume → Session σ → Prop} {Q : α → Session σ → Prop}
    (step : ∀ next s control t, P next s → h.answer next.invoke s = .ok control t →
      match control with
      | .resume next => P next t
      | .done result => Q result t)
    {fuel : Nat} {next : Resume} {result : α} (hp : P next s)
    (hd : h.dispatch fuel next s = .ok result t) : Q result t := by
  induction fuel generalizing next s with
  | zero => exact absurd hd throw_ne_ok
  | succ fuel ih =>
    simp only [dispatch, bind_eq_ok] at hd
    obtain ⟨control, r, ha, hd⟩ := hd
    have hs := step next s control r hp ha
    cases control with
    | resume next => exact ih hs hd
    | done d =>
      obtain ⟨rfl, rfl⟩ := pure_eq_ok.mp hd
      exact hs

end Handler

end Posterior
