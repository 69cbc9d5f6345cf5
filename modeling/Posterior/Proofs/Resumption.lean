import Posterior.Proofs.AsyncRuns
import Posterior.Proofs.Replay
import Posterior.Proofs.Rounding
import Posterior.Proofs.Verdicts

/-!
Resumption. A run that has come to its result and is resumed with a greater budget goes the way that
one run with the whole budget goes: the end of the first run draws nothing, and the next particle is
launched as if the run had not ended.
-/

namespace Posterior.AsyncSmc

open Numeric

/-- The handler under which an engine runs, its budget, and the stack around it. -/
structure Place where
  id : HandlerId
  target : Nat
  stack : List Installed
  next : Nat

namespace Place

/-- The engine with the handler and the budget of the place. -/
def engine (p : Place) (e : AsyncSmc) : AsyncSmc := { e with id := p.id, target := p.target }

/-- The session at the place, as far as it has come. -/
def shift (p : Place) (s : Session AsyncSmc) : Session AsyncSmc :=
  ⟨p.engine s.engine, { s.context with stack := p.stack, next := p.next }⟩

/-- The handler of the place is the active one. -/
def Active (p : Place) : Prop := ∃ name rest, p.stack = ⟨p.id, name⟩ :: rest

end Place

/-- Where a session is. -/
def place (s : Session AsyncSmc) : Place :=
  ⟨s.engine.id, s.engine.target, s.context.stack, s.context.next⟩

variable {p : Place} {q : AsyncParticle} {s t : Session AsyncSmc} {index : Nat}

theorem active_shift (h : p.Active) : (p.shift s).context.active?.map (·.id) = some p.id := by
  obtain ⟨_, _, hs⟩ := h
  unfold Context.active? Place.shift
  rw [hs]
  rfl

theorem pick_shift (p : Place) (e : AsyncSmc) (i : Nat) :
    (p.engine e).pick i = ((e.pick i).1, p.engine (e.pick i).2) := by
  have hb : (p.engine e).buffer = e.buffer := rfl
  unfold pick
  rw [hb]
  cases release i e.buffer <;> rfl

/-- A launch cannot fail. -/
theorem launch_of_below {i : Fin (s.engine.buffer.length + 1)} {g : Rng}
    (h : Draw.below (s.engine.buffer.length + 1) (Nat.succ_pos _) s.context.rng = .ok i g) :
    launch s = .ok (.carryOn (s.engine.pick i).1.resume (s.engine.pick i).1.store)
      ⟨{ countLaunch (s.engine.pick i).1 (s.engine.pick i).2 with
          active := some (s.engine.pick i).1 }, { s.context with rng := g }⟩ := by
  unfold launch
  rw [Run.engine_bind, bind_ok (Run.draw_ok h)]
  rfl

/-- Which particle is launched does not depend on the place. -/
theorem launch_shift (p : Place) (s : Session AsyncSmc) :
    launch (p.shift s) = carry p.shift (launch s) := by
  obtain ⟨i, g, h⟩ := Draw.below_ok (Nat.succ_pos s.engine.buffer.length) s.context.rng
  rw [launch_of_below h, launch_of_below (s := p.shift s) h]
  have hp := pick_shift p s.engine i
  change (p.shift s).engine.pick i = _ at hp
  rw [hp]
  unfold countLaunch
  split <;> rfl

theorem drop_shift (p : Place) (s : Session AsyncSmc) :
    drop (p.shift s) = carry p.shift (drop s) :=
  launch_shift p { s with engine := s.engine.countDrop }

theorem send_shift (p : Place) (s : Session AsyncSmc) (q : AsyncParticle) (full : Bool) :
    send q full (p.shift s) = carry p.shift (send q full s) := by
  unfold send
  split
  · rfl
  · exact launch_shift p
      { s with engine := { s.engine with buffer := s.engine.buffer ++ [q.settleWeight] } }

theorem draw_shift {α : Type} (p : Place) (s : Session AsyncSmc) (d : Draw α) :
    Run.draw d (p.shift s) = carry p.shift (Run.draw d s) := by
  cases h : d s.context.rng with
  | ok a g => rw [Run.draw_ok h, Run.draw_ok (s := p.shift s) h]; rfl
  | error e g => rw [Run.draw_error h, Run.draw_error (s := p.shift s) h]; rfl

/-- At the place the particle would get the same offspring, if it is compared with others. -/
def SameOffspring (p : Place) (e : AsyncSmc) (q : AsyncParticle) (index : Nat) : Prop :=
  ∀ stats, e.stats.get? index = some stats → (q.weight == negInf) = false →
    (p.engine e).offspring stats q.weight q.multiplicity =
      e.offspring stats q.weight q.multiplicity

theorem arrival_shift (h : SameOffspring p s.engine q index) :
    arrival q index (p.shift s) = carry p.shift (arrival q index s) := by
  unfold arrival
  split
  · exact drop_shift p s
  · rename_i hz
    rw [Bool.not_eq_true] at hz
    rw [Run.engine_bind, Run.engine_bind]
    have hstats : (p.shift s).engine.stats = s.engine.stats := rfl
    rw [hstats]
    cases hs : s.engine.stats.get? index with
    | none =>
      exact send_shift p { s with engine := s.engine.note index ⟨1, q.weight, 1⟩ } _ _
    | some stats =>
      have ho : (p.shift s).engine.offspring stats q.weight q.multiplicity =
          s.engine.offspring stats q.weight q.multiplicity := h stats hs hz
      simp only [ho]
      refine bind_carry (draw_shift p s _) fun o t ht => ?_
      simp only [setStats]
      by_cases hc : o.children = 0
      · simp only [if_pos hc]
        exact drop_shift p { t with engine := t.engine.note index (stats.after o) }
      · simp only [if_neg hc]
        exact send_shift p { t with engine := t.engine.note index (stats.after o) } _ _

/-- The ratio of a weight to the mean as a whole number, rounded up while few children are about. -/
def roundedRatio (e : AsyncSmc) (stats : FactorStats) (logRatio : Float) : Float :=
  if stats.totalChildren ≤ min e.bufferSize stats.arrivals then roundUp (exp logRatio)
  else wholePart (exp logRatio)

theorem childrenOf_eq (e : AsyncSmc) (stats : FactorStats) (logRatio : Float) :
    childrenOf e stats logRatio =
      bounded 1 (ofCount (max e.target 1)) (e.roundedRatio stats logRatio) := rfl

/-- If the particle arrives where others have been and is not below the mean, its rounded ratio is
not above the budget. -/
def Within (budget : Nat) (e : AsyncSmc) (q : AsyncParticle) (index : Nat) : Prop :=
  ∀ stats, e.stats.get? index = some stats → (q.weight == negInf) = false →
    ¬ q.weight - updatedMean stats q.weight q.multiplicity < 0 →
    ¬ ofCount budget < e.roundedRatio stats (q.weight - updatedMean stats q.weight q.multiplicity)

/-- A greater budget makes no difference to a ratio that the budget does not bound. -/
theorem Within.sameOffspring {e : AsyncSmc} (h : Within e.target e q index) (pos : 0 < e.target)
    (more : e.target ≤ p.target) (fits : p.target < UInt64.size) : SameOffspring p e q index := by
  intro stats hs hz
  have hw := h stats hs hz
  unfold offspring
  generalize hl : q.weight - updatedMean stats q.weight q.multiplicity = logRatio at hw
  by_cases hneg : logRatio < 0
  · simp only [hl, if_pos hneg]
  · have hc : childrenOf (p.engine e) stats logRatio = childrenOf e stats logRatio := by
      have hr : (p.engine e).roundedRatio stats logRatio = e.roundedRatio stats logRatio := rfl
      have ht : ¬ ofCount p.target < e.roundedRatio stats logRatio :=
        (amount_ofCount (more.trans_lt fits)).not_lt_trans (ofCount_not_lt fits more) (hw hneg)
      rw [childrenOf_eq, childrenOf_eq, hr, show max (p.engine e).target 1 = p.target by
        change max p.target 1 = p.target; omega, show max e.target 1 = e.target by omega]
      unfold bounded
      rw [if_neg ht, if_neg (hw hneg)]
    simp only [hl, if_neg hneg, hc]

theorem sameOffspring_of_target {e : AsyncSmc} (h : p.target = e.target) :
    SameOffspring p e q index := by
  intro stats _ _
  unfold offspring childrenOf Place.engine
  rw [h]

theorem takeActive_shift (p : Place) (s : Session AsyncSmc) :
    takeActive (p.shift s) = carry p.shift (takeActive s) := by
  unfold takeActive
  rw [Run.engine_bind, Run.engine_bind]
  have ha : (p.shift s).engine.active = s.engine.active := rfl
  rw [ha]
  cases s.engine.active <;> rfl

theorem sample_shift (p : Place) (s : Session AsyncSmc) {id : HandlerId} {choice : Choice}
    {deliver : Delivery} :
    (handler p.id).method (.sample choice deliver) (p.shift s) =
      carry p.shift ((handler id).method (.sample choice deliver) s) :=
  bind_carry (draw_shift p s _) fun _ _ _ => rfl

theorem factor_shift {id : HandlerId} {point : Factor} {resume : Continuation}
    (h : ∀ q, s.engine.active = some q → SameOffspring p { s.engine with active := none }
      (q.arrive point resume) q.nextIndex) :
    (handler p.id).method (.factor point resume) (p.shift s) =
      carry p.shift ((handler id).method (.factor point resume) s) := by
  unfold Handler.method
  dsimp only
  split
  · rfl
  · refine bind_carry (takeActive_shift p s) fun q t ht => ?_
    obtain ⟨ha, rfl⟩ := takeActive_eq_ok ht
    exact bind_carry (arrival_shift (h q ha)) fun _ _ _ => rfl

theorem exit_of_idle {id : HandlerId} {store : Store} {value : Value}
    (idle : s.engine.active = none) :
    (handler id).method (.exit store value) s = .error (.failed .noActiveParticle) s := by
  have ht : takeActive s = .error (.failed .noActiveParticle) s := by
    unfold takeActive
    rw [Run.engine_bind, idle]
    rfl
  exact bind_error ht

/-- An exit launches the next particle if the budget is not used up, else it comes to the result. -/
theorem exit_of_active {id : HandlerId} {store : Store} {value : Value}
    (active : s.engine.active = some q) :
    (handler id).method (.exit store value) s =
      (if s.engine.exited.length + 1 < s.engine.target then
        launch >>= fun next => pure (.resume next)
      else conclude >>= fun result => pure (.done result)) (exitWith store value q s) := by
  have ht : takeActive s = .ok q { s with engine := { s.engine with active := none } } := by
    unfold takeActive
    rw [Run.engine_bind, active]
    rfl
  have hm : (handler id).method (.exit store value) s =
      (if (exitWith store value q s).engine.exited.length < s.engine.target then
        launch >>= fun next => pure (.resume next)
      else conclude >>= fun result => pure (.done result)) (exitWith store value q s) := by
    refine (bind_ok ht).trans ?_
    rw [Run.modifyEngine_bind, Run.engine_bind]
    rfl
  rw [hm, exitWith_exited]

theorem launch_place {next : Resume} (h : launch s = .ok next t) : place t = place s := by
  obtain ⟨q, e, g, hp, rfl, rfl⟩ := launch_eq_ok h
  unfold countLaunch
  cases hp <;> split <;> rfl

/-- A factor or a choice is answered on the spot; only an exit can bring the run to its end. -/
theorem answer_place {id : HandlerId} {step : Step} {control : Control Empirical}
    (h : (handler id).answer step s = .ok control t) :
    (∃ next, control = .resume next) ∧ place t = place s ∨
      ∃ store value, step = .exit store value := by
  cases step with
  | sample choice deliver =>
    obtain ⟨_, _, _, rfl, rfl⟩ := sample_eq_ok h
    exact .inl ⟨⟨_, rfl⟩, rfl⟩
  | factor point resume =>
    obtain ⟨_, q, next, fate, moment, e, g, _, rfl, ha, hend⟩ := factor_eq_ok h
    have he : place ⟨e, { s.context with rng := g }⟩ = place s := by
      cases ha <;> rfl
    refine .inl ⟨⟨_, rfl⟩, ?_⟩
    rcases hend with ⟨_, hl⟩ | ⟨_, rfl⟩
    · exact (launch_place hl).trans he
    · exact he
  | exit store value => exact .inr ⟨store, value, rfl⟩

theorem resume_place {id : HandlerId} {step : Step} {next : Resume}
    (h : (handler id).answer step s = .ok (.resume next) t) : place t = place s := by
  rcases answer_place h with ⟨_, ht⟩ | ⟨store, value, rfl⟩
  · exact ht
  · obtain ⟨q, _, ⟨_, next', _, hn⟩ | ⟨_, _, hd, _⟩⟩ := exit_eq_ok h
    · exact (launch_place hn).trans rfl
    · cases hd

theorem active_place {home : Place} (active : home.Active) (hs : place s = home) :
    s.context.active?.map (·.id) = some home.id := by
  subst hs
  exact active_shift (s := s) active

/-- No arrival of the run has a rounded ratio above the budget. -/
def FewChildren (s₀ : Session AsyncSmc) (budget : Nat) : Prop :=
  ∀ log next s point resume q, Reaches s₀ log (.awaiting next) s →
    next.invoke = .factor point resume → s.engine.active = some q →
    Within budget s.engine (q.arrive point resume) q.nextIndex

/-- A run launches the next particle and goes on. -/
def relaunch (id : HandlerId) (fuel : Nat) : Work Empirical :=
  launch >>= (handler id).dispatch fuel

section
variable {home : Place} {s₀ : Session AsyncSmc} {next : Resume} {result : Empirical}

/-- Unless it is the exit that uses up a budget, an effect is answered at one place as at another.
-/
theorem answer_shift (active : home.Active) (hp : p.Active) (hs : place s = home)
    (offspring : ∀ point resume q, next.invoke = .factor point resume →
      s.engine.active = some q → SameOffspring p s.engine (q.arrive point resume) q.nextIndex)
    (exit : ∀ store value, next.invoke = .exit store value →
      s.engine.exited.length + 1 < home.target ∧ s.engine.exited.length + 1 < p.target) :
    (handler p.id).answer next.invoke (p.shift s) =
      carry p.shift ((handler home.id).answer next.invoke s) := by
  rw [Handler.answer_of_active (h := handler p.id) (active_shift hp),
    Handler.answer_of_active (h := handler home.id) (active_place active hs)]
  cases hi : next.invoke with
  | sample choice deliver => exact sample_shift p s
  | factor point resume => exact factor_shift (offspring point resume · hi)
  | exit store value =>
    cases ha : s.engine.active with
    | none => rw [exit_of_idle ha, exit_of_idle (s := p.shift s) ha]; rfl
    | some q =>
      obtain ⟨hl, hl'⟩ := exit store value hi
      have hlt : s.engine.exited.length + 1 < s.engine.target := by
        rw [← hs] at hl
        exact hl
      have hlt' : (p.shift s).engine.exited.length + 1 < (p.shift s).engine.target := hl'
      rw [exit_of_active ha, if_pos hlt, exit_of_active (s := p.shift s) ha, if_pos hlt']
      exact bind_carry (launch_shift p (exitWith store value q s)) fun _ _ _ => rfl

/-- After an exit that leaves some of the budget a run goes on with the next launch. -/
theorem dispatch_relaunches {store : Store} {value : Value} (hp : p.Active)
    (hi : next.invoke = .exit store value) (hq : s.engine.active = some q)
    (left : s.engine.exited.length + 1 < p.target) :
    SameVerdict ((handler p.id).dispatch · next) (p.shift s) (relaunch p.id)
      (p.shift (exitWith store value q s)) := by
  have hl : (p.shift s).engine.exited.length + 1 < (p.shift s).engine.target := left
  refine sameVerdict_of_succ rfl fun fuel => Handler.dispatch_of_resume ?_
  rw [Handler.answer_of_active (h := handler p.id) (active_shift hp), hi,
    exit_of_active (s := p.shift s) hq, if_pos hl]
  rfl

/-- Up to its result a run goes the way of one with a greater budget, which then launches the next
particle. -/
theorem dispatch_longer (active : home.Active) (pos : 0 < home.target) (hp : p.Active)
    (more : home.target < p.target) (fits : p.target < UInt64.size)
    (few : FewChildren s₀ home.target) {fuel : Nat} {log : List Event}
    (hr : Reaches s₀ log (.awaiting next) s) (hs : place s = home)
    (hd : (handler home.id).dispatch fuel next s = .ok result t) :
    ∃ r, conclude r = .ok result t ∧ place r = home ∧ r.engine.exited.length = home.target ∧
      SameVerdict ((handler p.id).dispatch · next) (p.shift s) (relaunch p.id) (p.shift r) := by
  induction fuel generalizing next s log with
  | zero => exact absurd hd throw_ne_ok
  | succ fuel ih =>
    simp only [Handler.dispatch, bind_eq_ok] at hd
    obtain ⟨control, r, ha, hd⟩ := hd
    have ht : s.engine.target = home.target := by rw [← hs]; rfl
    have hid : s.engine.id = home.id := by rw [← hs]; rfl
    have hleft := hr.left
    rw [ht] at hleft
    have hoffspring : ∀ point resume q, next.invoke = .factor point resume →
        s.engine.active = some q →
        SameOffspring p s.engine (q.arrive point resume) q.nextIndex := by
      intro point resume q hi hq
      have hw := few log next s point resume q hr hi hq
      rw [← ht] at hw
      exact hw.sameOffspring (by omega) (by omega) fits
    cases control with
    | resume next' =>
      have hanswer := answer_shift active hp hs hoffspring fun store value hi => by
        rw [hi] at ha
        obtain ⟨q, _, ⟨hl, _⟩ | ⟨_, _, hdone, _⟩⟩ := exit_eq_ok ha
        · rw [ht] at hl
          exact ⟨hl, hl.trans more⟩
        · cases hdone
      rw [ha] at hanswer
      obtain ⟨log', hr'⟩ := answer_leads hr ha
      obtain ⟨u, hu, hup, hul, hv⟩ := ih hr' ((resume_place ha).trans hs) hd
      exact ⟨u, hu, hup, hul, (Handler.sameVerdict_answer hanswer).trans hv⟩
    | done result' =>
      obtain ⟨rfl, rfl⟩ := pure_eq_ok.mp hd
      rcases answer_place ha with ⟨⟨_, hdone⟩, _⟩ | ⟨store, value, hi⟩
      · cases hdone
      rw [hi] at ha
      obtain ⟨q, hq, ⟨_, _, hdone, _⟩ | ⟨hl, _, hdone, hc⟩⟩ := exit_eq_ok ha
      · cases hdone
      cases hdone
      -- The budget is used up here, and the longer run has one exit left or more.
      refine ⟨exitWith store value q s, hc, hs, ?_, dispatch_relaunches hp hi hq (by omega)⟩
      rw [exitWith_exited]
      omega

/-- Both come to the same result with engines that differ in the handler alone and with the same
generator, or both stop for the same reason. -/
inductive Agrees (p : Place) : EStateM.Result Stop (Session AsyncSmc) Empirical →
    EStateM.Result Stop (Session AsyncSmc) Empirical → Prop where
  | ok {result : Empirical} {t t' : Session AsyncSmc}
      (engine : t'.engine = { t.engine with id := p.id })
      (rng : t'.context.rng = t.context.rng) : Agrees p (.ok result t) (.ok result t')
  | error {stop : Stop} {t t' : Session AsyncSmc} : Agrees p (.error stop t) (.error stop t')

theorem Agrees.returns {x y : EStateM.Result Stop (Session AsyncSmc) Empirical}
    (h : Agrees p x y) (hx : x = .ok result s) : ∃ t, y = .ok result t ∧
      t.engine = { s.engine with id := p.id } ∧ t.context.rng = s.context.rng := by
  cases h with
  | ok engine rng =>
    cases hx
    exact ⟨_, rfl, engine, rng⟩
  | error => cases hx

theorem Agrees.returned {x y : EStateM.Result Stop (Session AsyncSmc) Empirical}
    (h : Agrees p x y) (hy : y = .ok result t) : ∃ s, x = .ok result s ∧
      t.engine = { s.engine with id := p.id } ∧ t.context.rng = s.context.rng := by
  cases h with
  | ok engine rng =>
    cases hy
    exact ⟨_, rfl, engine, rng⟩
  | error => cases hy

theorem Agrees.fails_iff {x y : EStateM.Result Stop (Session AsyncSmc) Empirical} {stop : Stop}
    (h : Agrees p x y) : (∃ t, x = .error stop t) ↔ ∃ t, y = .error stop t := by
  cases h with
  | ok => exact iff_of_false (nomatch ·) (nomatch ·)
  | error => simp

theorem restore_place {home : Place} (active : home.Active) (hs : place s = home) :
    Run.restore home.id s =
      .ok () { s with context := { s.context with stack := s.context.stack.tail } } :=
  Run.restore_of_active (active_place active hs)

/-- Coming to the result changes neither the engine nor the generator. -/
theorem conclude_keeps (active : home.Active) (hs : place s = home)
    (h : conclude s = .ok result t) :
    t.engine = s.engine ∧ t.context.rng = s.context.rng := by
  have hid : s.engine.id = home.id := by rw [← hs]; rfl
  unfold conclude at h
  simp only [bind_eq_ok, Run.engine_eq_ok, Run.ofExcept_eq_ok, pure_eq_ok] at h
  obtain ⟨_, _, ⟨rfl, rfl⟩, _, _, ⟨_, rfl⟩, _, _, hr, _, rfl⟩ := h
  rw [hid, restore_place active hs] at hr
  cases hr
  exact ⟨rfl, rfl⟩

/-- The result does not depend on the place. -/
theorem conclude_agrees (active : home.Active) (hp : p.Active) (budget : p.target = home.target)
    (hs : place s = home) :
    Agrees p (conclude s) (conclude (p.shift s)) := by
  have hid : s.engine.id = home.id := by rw [← hs]; rfl
  have hid' : (p.shift s).engine.id = p.id := rfl
  have hp' : place (p.shift s) = p := rfl
  have hd : (p.shift s).engine.distribution = s.engine.distribution := rfl
  unfold conclude
  rw [Run.engine_bind, Run.engine_bind, hd]
  cases s.engine.distribution with
  | error cause => exact .error
  | ok result =>
    rw [bind_ok (Run.ofExcept_eq_ok.mpr ⟨rfl, rfl⟩), bind_ok (Run.ofExcept_eq_ok.mpr ⟨rfl, rfl⟩),
      hid, hid', bind_ok (restore_place active hs),
      bind_ok (restore_place hp hp')]
    refine .ok ?_ rfl
    have ht : s.engine.target = p.target := by rw [budget, ← hs]; rfl
    change { s.engine with id := p.id, target := p.target } = { s.engine with id := p.id }
    rw [← ht]

/-- The exit that uses up the budget brings the run to its result. -/
theorem dispatch_of_last {fuel : Nat} {store : Store} {value : Value} (active : home.Active)
    (hs : place s = home) (hi : next.invoke = .exit store value) (hq : s.engine.active = some q)
    (last : ¬ s.engine.exited.length + 1 < home.target) :
    (handler home.id).dispatch (fuel + 1) next s = conclude (exitWith store value q s) := by
  have hl : ¬ s.engine.exited.length + 1 < s.engine.target := by
    rw [← hs] at last
    exact last
  refine Handler.dispatch_of_done ?_
  rw [Handler.answer_of_active (h := handler home.id) (active_place active hs), hi,
    exit_of_active hq, if_neg hl]

theorem dispatch_of_idle {fuel : Nat} {store : Store} {value : Value} (active : home.Active)
    (hs : place s = home) (hi : next.invoke = .exit store value) (hq : s.engine.active = none) :
    (handler home.id).dispatch (fuel + 1) next s = .error (.failed .noActiveParticle) s := by
  have ha : (handler home.id).answer next.invoke s = .error (.failed .noActiveParticle) s := by
    rw [Handler.answer_of_active (h := handler home.id) (active_place active hs), hi,
      exit_of_idle hq]
  rw [Handler.dispatch, bind_error ha]

/-- Under equal budgets a run goes its way anywhere. -/
theorem dispatch_agrees (active : home.Active) (hp : p.Active) (budget : p.target = home.target)
    (fuel : Nat) (hs : place s = home) :
    Agrees p ((handler home.id).dispatch fuel next s)
      ((handler p.id).dispatch fuel next (p.shift s)) := by
  induction fuel generalizing next s with
  | zero => exact .error
  | succ fuel ih =>
    have ht : s.engine.target = home.target := by rw [← hs]; rfl
    have hs' : place (p.shift s) = p := rfl
    have hoffspring : ∀ point resume q, next.invoke = .factor point resume →
        s.engine.active = some q →
        SameOffspring p s.engine (q.arrive point resume) q.nextIndex :=
      fun _ _ _ _ _ => sameOffspring_of_target (budget.trans ht.symm)
    -- The last exit stands apart: the handlers leave the stack there, and the places with them.
    by_cases hexit : ∃ store value, next.invoke = .exit store value ∧
        ¬ s.engine.exited.length + 1 < home.target
    · obtain ⟨store, value, hi, hl⟩ := hexit
      cases hq : s.engine.active with
      | none =>
        rw [dispatch_of_idle active hs hi hq,
          dispatch_of_idle hp hs' hi hq]
        exact .error
      | some q =>
        rw [dispatch_of_last active hs hi hq hl,
          dispatch_of_last hp hs' hi hq (budget ▸ hl)]
        exact conclude_agrees active hp budget hs
    · rw [Handler.dispatch, Handler.dispatch]
      have hanswer := answer_shift active hp hs hoffspring fun store value hi => by
        have hl : s.engine.exited.length + 1 < home.target :=
          Classical.byContradiction fun hl => hexit ⟨store, value, hi, hl⟩
        exact ⟨hl, budget ▸ hl⟩
      cases ha : (handler home.id).answer next.invoke s with
      | error stop t =>
        rw [ha] at hanswer
        rw [bind_error ha, bind_error hanswer]
        exact .error
      | ok control t =>
        rw [ha] at hanswer
        rw [bind_ok ha, bind_ok hanswer]
        cases control with
        | resume next' => exact ih ((resume_place ha).trans hs)
        | done result =>
          rcases answer_place ha with ⟨⟨_, hdone⟩, _⟩ | ⟨store, value, hi⟩
          · cases hdone
          · rw [hi] at ha
            obtain ⟨_, _, ⟨_, _, hdone, _⟩ | ⟨hl, _⟩⟩ := exit_eq_ok ha
            · cases hdone
            · exact absurd ⟨store, value, hi, by omega⟩ hexit

theorem relaunch_agrees (active : home.Active) (hp : p.Active) (budget : p.target = home.target)
    (fuel : Nat) (hs : place s = home) :
    Agrees p (relaunch home.id fuel s) (relaunch p.id fuel (p.shift s)) := by
  have hlaunch := launch_shift p s
  unfold relaunch
  cases hl : launch s with
  | ok next t =>
    rw [hl] at hlaunch
    rw [bind_ok hl, bind_ok hlaunch]
    exact dispatch_agrees active hp budget fuel ((launch_place hl).trans hs)
  | error stop t =>
    rw [hl] at hlaunch
    rw [bind_error hl, bind_error hlaunch]
    exact .error

end

theorem launch_ok (s : Session AsyncSmc) : ∃ next t, launch s = .ok next t := by
  obtain ⟨i, g, h⟩ := Draw.below_ok (Nat.succ_pos s.engine.buffer.length) s.context.rng
  exact ⟨_, _, launch_of_below h⟩

/-- A run whose budget is not used up launches a particle first. -/
theorem drive_eq {next : Resume} {fuel : Nat} (left : s.engine.exited.length < s.engine.target)
    (hl : launch s = .ok next t) :
    drive fuel s = Run.guarding s.engine.id ((handler s.engine.id).dispatch fuel next) t := by
  unfold drive
  rw [Run.engine_bind, if_neg (by omega), bind_ok hl]
  rfl

theorem drive_verdict {next : Resume} (left : s.engine.exited.length < s.engine.target)
    (hl : launch s = .ok next t) :
    SameVerdict drive s ((handler s.engine.id).dispatch · next) t :=
  (sameVerdict_of_eq fun _ => drive_eq left hl).trans (sameVerdict_guarding ..)

theorem drive_relaunch (left : s.engine.exited.length < s.engine.target) :
    SameVerdict drive s (relaunch s.engine.id) s := by
  obtain ⟨next, t, hl⟩ := launch_ok s
  exact (drive_verdict left hl).trans (sameVerdict_bind hl).symm

/-- Once the budget is used up, a resumption goes on with the next launch of the run that it
resumes, wherever that one would launch it. -/
theorem resume_relaunches {extra : Nat} {p' : Place} {r ended : Session AsyncSmc}
    (more : 0 < extra) (hp' : place (raised extra ended) = p')
    (engine : ended.engine = r.engine) (rng : ended.context.rng = r.context.rng)
    (used : r.engine.exited.length = r.engine.target) :
    SameVerdict (resume · extra) ended (relaunch p'.id) (p'.shift (p.shift r)) := by
  have hid : p'.id = (raised extra ended).engine.id := by rw [← hp']; rfl
  have hraised : raised extra ended = p'.shift (p.shift r) := by
    have hended : raised extra ended = (place (raised extra ended)).shift
        ⟨ended.engine, { ended.context with stack := p.stack, next := p.next }⟩ := rfl
    rw [hended, hp', engine]
    unfold Place.shift Place.engine
    simp only [rng]
  have left : (raised extra ended).engine.exited.length < (raised extra ended).engine.target := by
    change ended.engine.exited.length < ended.engine.target + extra
    rw [engine, used]
    exact Nat.lt_add_of_pos_right more
  refine (sameVerdict_of_eq fun _ => resume_eq more).trans ?_
  rw [← hraised, hid]
  exact drive_relaunch left

/-- A run that is resumed comes to what one run with the whole budget comes to. If one of them has a
result then so has the other, the same one, and the engines differ in nothing but the handler's
number, with the generator in the same state; if one of them fails then so does the other. No
arrival within the first budget may have a rounded ratio above it, as it would be bounded then; the
whole budget is a number of 64 bits, as all counts are. -/
theorem resumed_run_equals_longer {config : AsyncConfig} {program : Program} {address : Address}
    {store : Store} {context context' : Context} {engine : AsyncSmc} {extra fuel : Nat}
    {first : Empirical} {ended : Session AsyncSmc} (more : 0 < extra)
    (fits : config.particles + extra < UInt64.size)
    (installed : install config program address store context = .ok engine context')
    (ran : drive fuel ⟨engine, context'⟩ = .ok first ended)
    (few : FewChildren ⟨engine, context'⟩ config.particles) :
    ∃ longer,
      install { config with particles := config.particles + extra } program address store context =
        .ok longer context' ∧
      (∀ result t, Returns (resume · extra) ended result t →
        ∃ u, Returns drive ⟨longer, context'⟩ result u ∧
          t.engine = { u.engine with id := t.engine.id } ∧ t.context.rng = u.context.rng) ∧
      (∀ result u, Returns drive ⟨longer, context'⟩ result u →
        ∃ t, Returns (resume · extra) ended result t ∧
          t.engine = { u.engine with id := t.engine.id } ∧ t.context.rng = u.context.rng) ∧
      (Fails (resume · extra) ended ↔ Fails drive ⟨longer, context'⟩) := by
  obtain ⟨hvalid, rfl, rfl⟩ := install_eq_ok.mp installed
  obtain ⟨hparticles, hbuffer⟩ := AsyncConfig.validate_eq_ok_iff.mp hvalid
  let s₀ : Session AsyncSmc :=
    ⟨initial config (program.entry address) store (context.install "async-smc").1,
      (context.install "async-smc").2⟩
  let home : Place := place s₀
  let p : Place := { home with target := config.particles + extra }
  have active : home.Active := ⟨"async-smc", context.stack, rfl⟩
  have hp : p.Active := ⟨"async-smc", context.stack, rfl⟩
  refine ⟨(p.shift s₀).engine, install_eq_ok.mpr
    ⟨AsyncConfig.validate_eq_ok_iff.mpr ⟨Nat.add_pos_left hparticles extra, hbuffer⟩, rfl, rfl⟩, ?_⟩
  -- The first run, and the longer one beside it.
  obtain ⟨next, r₀, hl⟩ := launch_ok s₀
  have hl' : launch (p.shift s₀) = .ok next (p.shift r₀) := by
    rw [launch_shift, hl]
    rfl
  have hd : (handler home.id).dispatch fuel next r₀ = .ok first ended := by
    have hdrive : drive fuel s₀ = .ok first ended := ran
    rw [drive_eq (s := s₀) hparticles hl] at hdrive
    exact Run.guarding_eq_ok.mp hdrive
  obtain ⟨r, hc, hr, hexited, hverdict⟩ := dispatch_longer active hparticles hp
    (Nat.lt_add_of_pos_right more) fits few (Reaches.start.launch hparticles hl)
    (launch_place hl) hd
  have hlonger : SameVerdict drive (p.shift s₀) (relaunch p.id) (p.shift r) :=
    (drive_verdict (s := p.shift s₀) (Nat.add_pos_left hparticles extra) hl').trans hverdict
  -- The resumed run starts where the longer one launches the next particle.
  obtain ⟨he, hg⟩ := conclude_keeps active hr hc
  have htarget : r.engine.target = config.particles := congrArg Place.target hr
  let p' : Place := place (raised extra ended)
  have hp' : p'.Active := ⟨"async-smc", ended.context.stack, rfl⟩
  have hbudget : p'.target = p.target := by
    change ended.engine.target + extra = config.particles + extra
    rw [he, htarget]
  have hresumed : SameVerdict (resume · extra) ended (relaunch p'.id) (p'.shift (p.shift r)) :=
    resume_relaunches more rfl he hg (hexited.trans htarget.symm)
  have hagrees := fun fuel => relaunch_agrees (s := p.shift r) hp hp' hbudget fuel rfl
  refine ⟨?_, ?_, ?_⟩
  · intro result t h
    obtain ⟨fuel, h⟩ := (hresumed.returns result t).mp h
    obtain ⟨u, hu, hengine, hrng⟩ := (hagrees fuel).returned h
    refine ⟨u, (hlonger.returns result u).mpr ⟨fuel, hu⟩, ?_, hrng⟩
    rw [hengine]
  · intro result u h
    obtain ⟨fuel, h⟩ := (hlonger.returns result u).mp h
    obtain ⟨t, ht, hengine, hrng⟩ := (hagrees fuel).returns h
    refine ⟨t, (hresumed.returns result t).mpr ⟨fuel, ht⟩, ?_, hrng⟩
    rw [hengine]
  · have hfails : Fails (relaunch p.id) (p.shift r) ↔
        Fails (relaunch p'.id) (p'.shift (p.shift r)) :=
      exists_congr fun fuel => exists_congr fun cause => (hagrees fuel).fails_iff
    exact (hresumed.fails.trans hfails.symm).trans hlonger.fails.symm

section

/-- A context under which the coins show heads first and tails later on, with this many words of the
generator left before they do. -/
def turningContext (left : Nat) : Context where
  rng := { key := .replicate 8 0, ahead := .replicate left 0 ++ .replicate 8 0xFFFFFFFF }
  stack := [⟨⟨1⟩, "async-smc"⟩]
  next := 2

/-- A run of `headsWeighed` with one particle before its first launch, with that particle on the
processor, and with that particle in the buffer. -/
def idle : AsyncSmc :=
  initial { particles := 1, bufferSize := 1 } (headsWeighed.entry .root) default ⟨1⟩

def started : AsyncSmc :=
  { idle with active := some idle.fresh, launched := 1, metrics := .ofPopulation 1 }

def parked : AsyncSmc :=
  { idle.note 0 ⟨1, 0 + 0, 1⟩ with
    buffer := [{ (idle.fresh.arrive ⟨default, .root, 0⟩ fun store => exit store (.bool true)) with
      children := 1 }.settleWeight]
    launched := 1
    metrics := .ofPopulation 1 }

/-- What is known at the moments of that run. -/
def Lone : Moment → Session AsyncSmc → Prop
  | .free, s => s = ⟨idle, turningContext 8⟩ ∨ s = ⟨parked, turningContext 4⟩ ∨
      s.engine.target ≤ s.engine.exited.length
  | .awaiting next, s => next = .carryOn (headsWeighed.entry .root) default ∧
        s = ⟨started, turningContext 6⟩ ∨
      next.invoke = .factor ⟨default, .root, 0⟩ (fun store => exit store (.bool true)) ∧
        s = ⟨started, turningContext 4⟩ ∨
      (∃ store value, next.invoke = .exit store value) ∧
        s.engine.exited.length + 1 = s.engine.target

theorem reaches_lone {log : List Event} {moment : Moment}
    (h : Reaches ⟨idle, turningContext 8⟩ log moment s) : Lone moment s := by
  induction h with
  | start => exact .inl rfl
  | launch before left launched ih =>
    rcases ih with rfl | rfl | ih
    · have hl : launch ⟨idle, turningContext 8⟩ =
          .ok (.carryOn (headsWeighed.entry .root) default) ⟨started, turningContext 6⟩ := rfl
      rw [hl] at launched
      cases launched
      exact .inl ⟨rfl, rfl⟩
    · have hl : launch ⟨parked, turningContext 4⟩ =
          .ok (.carryOn (fun store => exit store (.bool true)) default)
            ⟨{ parked with active := some parked.buffer.head!, buffer := [] }, turningContext 2⟩ :=
        rfl
      rw [hl] at launched
      cases launched
      exact .inr (.inr ⟨⟨_, _, rfl⟩, rfl⟩)
    · omega
  | sample before effect drawn ih =>
    rcases ih with ⟨rfl, rfl⟩ | ⟨hf, _⟩ | ⟨⟨_, _, hx⟩, _⟩
    · cases effect
      have hd : coin.draw [] (turningContext 6).rng =
          .ok (.bool true) (turningContext 4).rng := rfl
      rw [hd] at drawn
      cases drawn
      exact .inr (.inl ⟨rfl, rfl⟩)
    · rw [effect] at hf
      cases hf
    · rw [effect] at hx
      cases hx
  | factor before effect number active arrives ih =>
    rcases ih with ⟨rfl, rfl⟩ | ⟨hf, rfl⟩ | ⟨⟨_, _, hx⟩, _⟩
    · cases effect
    · rw [effect] at hf
      cases hf
      cases active
      cases arrives with
      | impossible lost => exact absurd lost (by decide)
      | dropped possible seen drawn none => cases seen
      | parked possible keeps space =>
        cases keeps with
        | first unseen => exact .inr (.inl rfl)
        | later seen drawn some => cases seen
      | ranOn possible keeps full => cases full
    · rw [effect] at hx
      cases hx
  | exit before effect active ih =>
    rcases ih with ⟨rfl, rfl⟩ | ⟨hf, rfl⟩ | ⟨⟨_, _, hx⟩, hl⟩
    · cases effect
    · rw [effect] at hf
      cases hf
    · refine .inr (.inr ?_)
      change _ ≤ (_ ++ [_]).length
      rw [List.length_append]
      exact Nat.le_of_eq hl.symm

/-- The particle of the first run shows heads, waits at the factor and exits; the one that a
resumption launches shows tails and exits. One run with two particles comes to the same. -/
theorem headsWeighed_resumes :
    ∃ first ended longer,
      install { particles := 1, bufferSize := 1 } headsWeighed .root default
        { (turningContext 8) with stack := [], next := 1 } = .ok idle (turningContext 8) ∧
      drive 9 ⟨idle, turningContext 8⟩ = .ok first ended ∧
      FewChildren ⟨idle, turningContext 8⟩ 1 ∧
      install { particles := 2, bufferSize := 1 } headsWeighed .root default
        { (turningContext 8) with stack := [], next := 1 } = .ok longer (turningContext 8) ∧
      ∃ result t u, Returns (resume · 1) ended result t ∧
        Returns drive ⟨longer, turningContext 8⟩ result u ∧
        t.engine = { u.engine with id := t.engine.id } ∧ t.context.rng = u.context.rng := by
  have few : FewChildren ⟨idle, turningContext 8⟩ 1 := by
    intro log next s point resume q h hi hq stats hs
    rcases reaches_lone h with ⟨rfl, _⟩ | ⟨_, rfl⟩ | ⟨⟨_, _, hx⟩, _⟩
    · cases hi
    · cases hs
    · rw [hi] at hx
      cases hx
  have start : install { particles := 1, bufferSize := 1 } headsWeighed .root default
      { (turningContext 8) with stack := [], next := 1 } = .ok idle (turningContext 8) := rfl
  have hran : succeedsWith (fun _ ended => succeeds (resume 9 1 ended))
      (drive 9 ⟨idle, turningContext 8⟩) = true := by
    decide +kernel
  obtain ⟨first, ended, hd, hran⟩ := exists_of_succeedsWith hran
  obtain ⟨result, t, ht⟩ := exists_of_succeeds hran
  obtain ⟨longer, hi, hresumed, _, _⟩ :=
    resumed_run_equals_longer Nat.one_pos (by decide) start hd few
  obtain ⟨u, hu, he, hg⟩ := hresumed result t ⟨9, ht⟩
  exact ⟨first, ended, longer, start, hd, few, hi, result, t, u, ⟨9, ht⟩, hu, he, hg⟩

end

end Posterior.AsyncSmc
