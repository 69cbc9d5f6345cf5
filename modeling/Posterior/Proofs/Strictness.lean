import Posterior.Proofs.FinalWeights
import Posterior.Proofs.StackDiscipline
import Posterior.Proofs.Weights

/-!
Strict and lenient filters. A lenient filter goes on past a barrier at which every weight is
impossible, a strict one fails there; up to the first such barrier they are the same filter. Behind
it no particle of the lenient filter has any weight left, so that every later barrier is degenerate
too, and so is the result.
-/

namespace Posterior

open Numeric

section
variable {ε σ α β : Type}

/-- What every part of the work keeps, the work keeps, however it ends. -/
theorem finalState_bind {P : σ → Prop} {x : EStateM ε σ α} {f : α → EStateM ε σ β} {s : σ}
    (hx : P (finalState (x s))) (hf : ∀ a t, P t → P (finalState (f a t))) :
    P (finalState ((x >>= f) s)) := by
  cases h : x s with
  | ok a t =>
    rw [h] at hx
    rw [bind_ok h]
    exact hf a t hx
  | error e t =>
    rw [h] at hx
    rw [bind_error h]
    exact hx

end

theorem Run.inContext_error {σ α : Type} {work : Run σ α} {e : σ} {c : Context} {stop : Stop}
    {t : Session σ} (h : work ⟨e, c⟩ = .error stop t) :
    work.inContext e c = .error stop t.context := by
  unfold Run.inContext
  rw [h]

namespace Numeric

theorem negInf_sub {x : Float} (h : x.isFinite = true) : negInf - x = negInf := by
  change x.toModel.unpack.isFinite = true at h
  change Float.ofModel (Float.Model.pack (.sub .binary64 (.infinity .negative) x.toModel.unpack)) = _
  cases hu : x.toModel.unpack with
  | infinity sign =>
    rw [hu] at h
    cases h
  | notANumber =>
    rw [hu] at h
    cases h
  | zero sign => rfl
  | finite sign m e pos => rfl

theorem logSumExp_impossible {ws : List Float} (h : ∀ w ∈ ws, (w == negInf) = true) :
    logSumExp ws = negInf := by
  have none_left : possible ws = [] := by
    refine List.filter_eq_nil_iff.mpr fun w hw => ?_
    rw [isPossible_iff, h w hw]
    exact Bool.noConfusion
  unfold logSumExp
  rw [none_left]
  rfl

theorem logMeanExp_impossible {ws : List Float} (small : ws.length < UInt64.size)
    (h : ∀ w ∈ ws, (w == negInf) = true) : logMeanExp ws = negInf := by
  cases ws with
  | nil => rfl
  | cons w ws =>
    change logSumExp (w :: ws) - ln (ofCount (w :: ws).length) = negInf
    rw [logSumExp_impossible h]
    exact negInf_sub (ln_count_finite (Nat.succ_pos _) small)

end Numeric

namespace Population

variable {n : Nat} {p q : Population n} {strict : Bool} {algorithm : String} {index : Nat}
  {noted : Barrier} {g g' : Rng}

/-- No particle has any weight left. -/
def Spent (p : Population n) : Prop := ∀ i, Lost (p.particles.get i).weight

theorem Spent.update {f : Particle → Particle} (h : p.Spent)
    (hf : Lost p.current.weight → Lost (f p.current).weight) : (p.updateCurrent f).Spent := by
  intro i
  unfold updateCurrent
  rw [get_setParticle]
  split
  · exact hf (h p.active)
  · exact h i

/-- Weights that are all lost are no weights to resample by: one that is NaN fails, and otherwise
all are impossible. -/
theorem Spent.degenerate (small : n < UInt64.size) (h : p.Spent)
    (hr : p.resample strict algorithm index g = .ok (q, noted) g') : noted.degenerate = true := by
  rcases resample_cases hr with ⟨r, residual, _⟩ | ⟨degenerate, _⟩
  · obtain ⟨numbers, possible, _⟩ := Resampling.residual_eq_some residual
    have impossible : ∀ w ∈ p.weights.toList, (w == negInf) = true := by
      intro w hw
      obtain ⟨i, rfl⟩ := mem_toList_iff.mp hw
      have lost : Lost (p.weights.get i) := by
        simpa [weights, get_eq_getElem] using h i
      refine lost.score.resolve_right fun nan => ?_
      rw [Resampling.nanIndex?_eq_none numbers i] at nan
      cases nan
    unfold Resampling.logMean at possible
    rw [logMeanExp_impossible (by simpa using small) impossible] at possible
    cases possible
  · exact degenerate

theorem spent_of_degenerate (hr : p.resample strict algorithm index g = .ok (q, noted) g')
    (degenerate : noted.degenerate = true) : q.Spent := by
  rcases resample_cases hr with ⟨_, _, sound, _⟩ | ⟨_, _, rfl⟩
  · rw [degenerate] at sound
    cases sound
  · intro i
    rw [get_setWeights]
    exact .inl unpack_negInf

/-- Resampling fails on a weight that is NaN, whether strict or not. Where every weight is
impossible, a strict population fails; everywhere else strictness makes no difference. -/
theorem resample_parts (p : Population n) (algorithm : String) (index : Nat) (g : Rng) :
    (p.resample true algorithm index g = p.resample false algorithm index g ∧
      ∀ q noted g', p.resample false algorithm index g = .ok (q, noted) g' →
        noted.degenerate = false) ∨
    (p.resample true algorithm index g = .error (.allWeightsImpossible algorithm index n) g ∧
      ∃ q noted, p.resample false algorithm index g = .ok (q, noted) g ∧
        noted.degenerate = true ∧ noted.index = index) := by
  unfold resample
  cases hr : Resampling.residual p.weights g with
  | error cause g' =>
    refine .inl ?_
    rw [bind_error hr, bind_error hr]
    exact ⟨rfl, nofun⟩
  | ok r g₁ =>
    rw [bind_ok hr, bind_ok hr]
    cases r with
    | some r =>
      refine .inl ⟨rfl, fun q noted g' h => ?_⟩
      cases h
      rfl
    | none =>
      obtain rfl : g₁ = g := by
        cases Resampling.outcome p.weights g with
        | nan found fails => rw [fails] at hr; cases hr
        | impossible numbers impossible nothing => rw [nothing] at hr; cases hr; rfl
        | resampled numbers possible pos draws returns => rw [returns] at hr; cases hr
      exact .inr ⟨rfl, _, _, rfl, rfl, rfl⟩

end Population

/-- The first barrier at which every weight was impossible. -/
def firstDegenerate? (barriers : List Barrier) : Option Barrier := barriers.find? (·.degenerate)

namespace ParticleFilter

variable {n : Nat} {task : Task} {s : Session (ParticleFilter n)}

/-- Where a factor leads: on to the next particle, or past the barrier. -/
theorem onFactor_eq (task : Task) (point : Factor) (resume : Continuation)
    (s : Session (ParticleFilter n)) :
    let p := s.engine.population.updateCurrent (·.park point resume)
    (handler task).onFactor point resume s =
      (if p.atBarrier then nextRound task else turnTo (p.nextRunning?.getD p.active))
        ⟨⟨p, s.engine.metrics⟩, s.context⟩ := rfl

/-- Where an exit leads: to the result if no other particle is running. -/
theorem onExit_eq (task : Task) (out : Store) (value : Value) (s : Session (ParticleFilter n)) :
    let p := s.engine.population.updateCurrent (·.complete out value)
    (handler task).onExit out value s =
      (match p.nextRunning? with
        | none => finish task
        | some next => if s.engine.population.atBarrier then nextRound task else turnTo next)
        ⟨⟨p, s.engine.metrics⟩, s.context⟩ := rfl

/-- What turns and barriers keep. -/
structure Lasting (task : Task) (P : ParticleFilter n → Prop) : Prop where
  turn : ∀ e i, P e → P { e with population := e.population.activate i }
  park : ∀ e point resume, P e →
    P { e with population := e.population.updateCurrent (·.park point resume) }
  complete : ∀ e store value, P e →
    P { e with population := e.population.updateCurrent (·.complete store value) }
  barrier : ∀ e q noted g g', P e →
    e.population.resample task.strict "particle-filter" e.metrics.barriers.length g =
      .ok (q, noted) g' → P ⟨q, e.metrics.pushBarrier noted⟩

namespace Lasting

variable {P : ParticleFilter n → Prop}

theorem onContext {α : Type} (work : InContext α) (h : P s.engine) :
    P (finalState ((Run.onContext work : Run (ParticleFilter n) α) s)).engine := by
  rw [show (finalState (Run.onContext work s)).engine = s.engine from
    Run.preserves_onContext work s]
  exact h

theorem turnTo (lasting : Lasting task P) (i : Fin n) (h : P s.engine) :
    P (finalState (ParticleFilter.turnTo i s)).engine :=
  lasting.turn s.engine i h

theorem finish (task : Task) (h : P s.engine) :
    P (finalState (ParticleFilter.finish task s)).engine := by
  unfold ParticleFilter.finish
  rw [Run.engine_bind]
  refine finalState_bind (P := fun t : Session (ParticleFilter n) => P t.engine) (onContext _ h)
    fun d t ht => ?_
  exact finalState_bind (P := fun t : Session (ParticleFilter n) => P t.engine) (onContext _ ht)
    fun _ _ hr => hr

theorem passBarrier (lasting : Lasting task P) (h : P s.engine) :
    P (finalState (ParticleFilter.barrier task s)).engine := by
  cases hr : s.engine.population.resample task.strict "particle-filter"
      s.engine.metrics.barriers.length s.context.rng with
  | error cause g =>
    rw [barrier_eq_error hr]
    exact h
  | ok passed g =>
    unfold ParticleFilter.barrier
    rw [Run.engine_bind, bind_ok (Run.draw_ok hr)]
    exact lasting.barrier s.engine passed.1 passed.2 _ g h hr

theorem nextRound (lasting : Lasting task P) (h : P s.engine) :
    P (finalState (ParticleFilter.nextRound task s)).engine := by
  refine finalState_bind (P := fun t : Session (ParticleFilter n) => P t.engine)
    (lasting.passBarrier h) fun _ t ht => ?_
  rw [Run.engine_bind]
  cases t.engine.population.firstRunning? with
  | some first => exact lasting.turnTo first ht
  | none => exact finish task ht

theorem answer (lasting : Lasting task P) (effect : Step) (h : P s.engine) :
    P (finalState ((handler task).answer effect s)).engine := by
  unfold Handler.answer
  refine finalState_bind (P := fun t : Session (ParticleFilter n) => P t.engine) h fun t s hs => ?_
  refine finalState_bind (P := fun t : Session (ParticleFilter n) => P t.engine)
    (onContext _ hs) fun _ s hs => ?_
  cases effect with
  | sample choice deliver =>
    exact finalState_bind (P := fun t : Session (ParticleFilter n) => P t.engine)
      (onContext _ hs) fun _ _ ht => ht
  | factor point resume =>
    dsimp only
    split
    · exact hs
    · have parked := lasting.park s.engine point resume hs
      rw [onFactor_eq]
      split
      · exact lasting.nextRound parked
      · exact lasting.turnTo _ parked
  | exit out value =>
    have completed := lasting.complete s.engine out value hs
    dsimp only
    rw [onExit_eq]
    cases (s.engine.population.updateCurrent (·.complete out value)).nextRunning? with
    | none => exact finish task completed
    | some next =>
      dsimp only
      split
      · exact lasting.nextRound completed
      · exact lasting.turnTo _ completed

/-- What every turn and every barrier keeps, a run keeps, however it ends. -/
theorem dispatch (lasting : Lasting task P) (fuel : Nat) (next : Resume) (h : P s.engine) :
    P (finalState ((handler task).dispatch fuel next s)).engine := by
  refine Handler.dispatch_outcome (P := fun _ (t : Session (ParticleFilter n)) => P t.engine)
    (Q := fun (outcome : EStateM.Result Stop (Session (ParticleFilter n)) Empirical) =>
      P (finalState outcome).engine) (fun _ _ ht => ht) ?_ fuel h
  intro next t ht
  have answered := lasting.answer next.invoke ht
  cases ha : (handler task).answer next.invoke t with
  | error stop r =>
    rw [ha] at answered
    exact answered
  | ok control r =>
    rw [ha] at answered
    cases control <;> exact answered

end Lasting

/-- Each barrier bears its place in the list as its number. -/
def Numbered (e : ParticleFilter n) : Prop :=
  ∀ (i : Nat) (b : Barrier), e.metrics.barriers[i]? = some b → b.index = i

theorem numbered_lasting (task : Task) : Lasting task (Numbered (n := n)) where
  turn _ _ h := h
  park _ _ _ h := h
  complete _ _ _ h := h
  barrier e q noted g g' h hr := by
    intro i b hb
    change (e.metrics.barriers ++ [noted])[i]? = some b at hb
    rw [List.getElem?_append] at hb
    split at hb <;> rename_i hi
    · exact h i b hb
    · rw [List.getElem?_singleton] at hb
      split at hb <;> rename_i hz
      · cases hb
        rw [Population.resample_index hr]
        omega
      · cases hb

/-- Once a barrier was degenerate, every later one is, and no weight is left. -/
structure Declining (e : ParticleFilter n) : Prop where
  degenerate : e.metrics.barriers.Pairwise fun earlier later : Barrier =>
    earlier.degenerate = true → later.degenerate = true
  spent : (∃ b ∈ e.metrics.barriers, b.degenerate = true) → e.population.Spent

theorem declining_start (pos : 0 < n) (entry : Continuation) (store : Store) :
    Declining (start pos entry store) :=
  ⟨.nil, fun ⟨_, there, _⟩ => absurd there List.not_mem_nil⟩

/-- Neither a factor nor an exit brings a weight back that is lost, and no barrier does. -/
theorem declining_lasting (small : n < UInt64.size) (task : Task) :
    Lasting task (Declining (n := n)) where
  turn _ _ h := ⟨h.degenerate, h.spent⟩
  park _ point _ h := ⟨h.degenerate, fun some =>
    (h.spent some).update fun lost => lost.add point.logWeight⟩
  complete _ _ _ h := ⟨h.degenerate, fun some => (h.spent some).update id⟩
  barrier e q noted g g' h hr := by
    have after : (∃ b ∈ e.metrics.barriers, b.degenerate = true) → noted.degenerate = true :=
      fun before => (h.spent before).degenerate small hr
    refine ⟨?_, ?_⟩
    · refine List.pairwise_append.mpr ⟨h.degenerate, List.pairwise_singleton .., ?_⟩
      intro earlier before later there degenerate
      obtain rfl := List.mem_singleton.mp there
      exact after ⟨earlier, before, degenerate⟩
    · rintro ⟨b, there, degenerate⟩
      rcases List.mem_append.mp there with before | there
      · exact Population.spent_of_degenerate hr (after ⟨b, before, degenerate⟩)
      · obtain rfl := List.mem_singleton.mp there
        exact Population.spent_of_degenerate hr degenerate

/-- How a run of the strict filter and one of the lenient filter compare. They come to the same, and
no barrier was degenerate, or the strict one has failed at the first barrier that was. -/
inductive Parts {α : Type} : EStateM.Result Stop (Session (ParticleFilter n)) α →
    EStateM.Result Stop (Session (ParticleFilter n)) α → Prop where
  | together {outcome : EStateM.Result Stop (Session (ParticleFilter n)) α}
      (sound : firstDegenerate? (finalState outcome).engine.metrics.barriers = none) :
      Parts outcome outcome
  | stopped {outcome : EStateM.Result Stop (Session (ParticleFilter n)) α} {first : Barrier}
      {t : Session (ParticleFilter n)}
      (found : firstDegenerate? (finalState outcome).engine.metrics.barriers = some first) :
      Parts (.error (.failed (.allWeightsImpossible "particle-filter" first.index n)) t) outcome

/-- The filters go on together as long as no barrier is degenerate. -/
theorem Parts.bind {α β : Type} {x y : Run (ParticleFilter n) α}
    {f g : α → Run (ParticleFilter n) β} (h : Parts (x s) (y s))
    (together : ∀ a t, firstDegenerate? t.engine.metrics.barriers = none → Parts (f a t) (g a t))
    (keeps : ∀ a (t : Session (ParticleFilter n)) first,
      firstDegenerate? t.engine.metrics.barriers = some first →
      firstDegenerate? (finalState (g a t)).engine.metrics.barriers = some first) :
    Parts ((x >>= f) s) ((y >>= g) s) := by
  generalize hx : x s = outcome at h
  cases hy : y s with
  | ok a t =>
    rw [hy] at h
    rw [bind_ok hy]
    cases h with
    | together sound =>
      rw [bind_ok hx]
      exact together a t sound
    | stopped found =>
      rw [bind_error hx]
      exact .stopped (keeps a t _ found)
  | error stop t =>
    rw [hy] at h
    rw [bind_error hy]
    cases h with
    | together sound =>
      rw [bind_error hx]
      exact .together sound
    | stopped found =>
      rw [bind_error hx]
      exact .stopped found

theorem Parts.guarding {α : Type} {x y : Run (ParticleFilter n) α} {id : HandlerId}
    (h : Parts (x s) (y s)) : Parts (Run.guarding id x s) (Run.guarding id y s) := by
  generalize hx : x s = outcome at h
  generalize hy : y s = outcome' at h
  have same := congrArg (·.metrics.barriers) (Run.engine_guarding id y s)
  rw [hy] at same
  cases h with
  | together sound =>
    have agree : Run.guarding id x s = Run.guarding id y s := by
      unfold Run.guarding
      rw [hx, hy]
    rw [agree]
    exact .together ((congrArg firstDegenerate? same).trans sound)
  | stopped found =>
    rw [Run.guarding_error hx]
    exact .stopped ((congrArg firstDegenerate? same).trans found)

/-- A first degenerate barrier stays the first. -/
theorem first_lasting (task : Task) (first : Barrier) : Lasting (n := n) task
    fun e => firstDegenerate? e.metrics.barriers = some first where
  turn _ _ h := h
  park _ _ _ h := h
  complete _ _ _ h := h
  barrier e _ noted _ _ h _ := by
    change (e.metrics.barriers ++ [noted]).find? (·.degenerate) = some first
    rw [List.find?_append, show e.metrics.barriers.find? (·.degenerate) = some first from h]
    rfl

section
variable {id : HandlerId} (sound : firstDegenerate? s.engine.metrics.barriers = none)
include sound

theorem barrier_parts : Parts (barrier ⟨id, true⟩ s) (barrier ⟨id, false⟩ s) := by
  have stops {strict : Bool} {cause : Failure} {g : Rng}
      (hr : s.engine.population.resample strict "particle-filter" s.engine.metrics.barriers.length
        s.context.rng = .error cause g) : barrier ⟨id, strict⟩ s = .error (.failed cause) s :=
    barrier_eq_error hr
  rcases s.engine.population.resample_parts "particle-filter" s.engine.metrics.barriers.length
    s.context.rng with ⟨same, passes⟩ | ⟨fails, q, noted, passes, degenerate, index⟩
  · cases hr : s.engine.population.resample false "particle-filter"
        s.engine.metrics.barriers.length s.context.rng with
    | error cause g =>
      rw [stops (same.trans hr), stops hr]
      exact .together sound
    | ok passed g =>
      obtain ⟨q, noted⟩ := passed
      unfold barrier
      rw [Run.engine_bind, Run.engine_bind, bind_ok (Run.draw_ok (same.trans hr)),
        bind_ok (Run.draw_ok hr)]
      refine .together ?_
      change (s.engine.metrics.barriers ++ [noted]).find? (·.degenerate) = none
      rw [List.find?_append, show s.engine.metrics.barriers.find? (·.degenerate) = none from sound]
      simp [passes q noted g hr]
  · rw [stops fails, ← index]
    unfold barrier
    rw [Run.engine_bind, bind_ok (Run.draw_ok passes)]
    refine .stopped ?_
    change (s.engine.metrics.barriers ++ [noted]).find? (·.degenerate) = some noted
    rw [List.find?_append, show s.engine.metrics.barriers.find? (·.degenerate) = none from sound]
    simp [degenerate]

theorem nextRound_parts : Parts (nextRound ⟨id, true⟩ s) (nextRound ⟨id, false⟩ s) := by
  refine (barrier_parts sound).bind (fun _ t sound => ?_) fun _ t first found => ?_
  · rw [Run.engine_bind, Run.engine_bind]
    cases t.engine.population.firstRunning? with
    | some next => exact .together sound
    | none =>
      exact .together (Lasting.finish (P := fun e => firstDegenerate? e.metrics.barriers = none)
        ⟨id, false⟩ sound)
  · rw [Run.engine_bind]
    cases t.engine.population.firstRunning? with
    | some next => exact found
    | none =>
      exact Lasting.finish (P := fun e => firstDegenerate? e.metrics.barriers = some first)
        ⟨id, false⟩ found

/-- Strictness makes no difference to what is done at an effect, up to the barrier. -/
theorem answer_parts (effect : Step) :
    Parts ((handler ⟨id, true⟩).answer effect s) ((handler ⟨id, false⟩).answer effect s) := by
  rcases Handler.met id (some "particle-filter") effect s.context with
    ⟨cause, refused⟩ | ⟨active, point, resume, rfl, nan⟩ | guarded
  · rw [Handler.answer_of_refused (h := handler ⟨id, true⟩) refused,
      Handler.answer_of_refused (h := handler ⟨id, false⟩) refused]
    exact .together sound
  · rw [Handler.answer_of_nan (h := handler ⟨id, true⟩) active nan,
      Handler.answer_of_nan (h := handler ⟨id, false⟩) active nan]
    exact .together sound
  · rw [Handler.answer_of_guarded (h := handler ⟨id, true⟩) guarded,
      Handler.answer_of_guarded (h := handler ⟨id, false⟩) guarded]
    cases effect with
    | sample choice deliver =>
      refine .together ?_
      exact finalState_bind
        (P := fun t : Session (ParticleFilter n) => firstDegenerate? t.engine.metrics.barriers = none)
        (Lasting.onContext (P := fun e => firstDegenerate? e.metrics.barriers = none) _ sound)
        fun _ _ h => h
    | factor point resume =>
      dsimp only [Handler.perform]
      rw [onFactor_eq, onFactor_eq]
      split
      · exact nextRound_parts sound
      · exact .together sound
    | exit out value =>
      dsimp only [Handler.perform]
      rw [onExit_eq, onExit_eq]
      cases (s.engine.population.updateCurrent (·.complete out value)).nextRunning? with
      | none =>
        exact .together (Lasting.finish (P := fun e => firstDegenerate? e.metrics.barriers = none)
          ⟨id, false⟩ sound)
      | some next =>
        dsimp only
        split
        · exact nextRound_parts sound
        · exact .together sound

/-- The filters make the same run up to the first degenerate barrier, where the strict one fails. -/
theorem dispatch_parts (fuel : Nat) (next : Resume) :
    Parts ((handler ⟨id, true⟩).dispatch fuel next s) ((handler ⟨id, false⟩).dispatch fuel next s) := by
  induction fuel generalizing next s with
  | zero => exact .together sound
  | succ fuel ih =>
    refine (answer_parts sound next.invoke).bind (fun control t sound => ?_)
      fun control t first found => ?_
    · cases control with
      | resume next => exact ih sound next
      | done result => exact .together sound
    · cases control with
      | resume next => exact (first_lasting ⟨id, false⟩ first).dispatch fuel next found
      | done result => exact found

end

section
variable (config : FilterConfig) (program : Program) (address : Address) (store : Store)
  (context : Context)

/-- The session in which a run of the filter starts. -/
def opening (pos : 0 < config.particles) : Session (ParticleFilter config.particles) :=
  ⟨start pos (program.entry address) store, (context.install "particle-filter").2⟩

/-- How a run of the filter goes: its result, or how it stops short, with the session it leaves. -/
def course (fuel : Nat) (pos : 0 < config.particles) :
    EStateM.Result Stop (Session (ParticleFilter config.particles)) Empirical :=
  let s := opening config program address store context pos
  (handler ⟨(context.install "particle-filter").1, config.strict⟩).drive fuel
    s.engine.population.resumeCurrent s

/-- What is reported of a run. -/
def reported : EStateM.Result Stop (Session (ParticleFilter n)) Empirical →
    EStateM.Result Stop Context Inference
  | .ok result t => .ok ⟨result, t.engine.metrics⟩ t.context
  | .error stop t => .error stop t.context

/-- The barriers that a run notes, also if it comes to no result. -/
def noted (fuel : Nat) : List Barrier :=
  if pos : 0 < config.particles then
    (finalState (course config program address store context fuel pos)).engine.metrics.barriers
  else []

theorem run_eq (fuel : Nat) (pos : 0 < config.particles) :
    run fuel config program address store context =
      reported (course config program address store context fuel pos) := by
  have installed : install config context =
      .ok ⟨⟨(context.install "particle-filter").1, config.strict⟩, pos⟩
        (context.install "particle-filter").2 := by
    unfold install
    rw [dif_pos pos]
    rfl
  unfold run
  rw [bind_ok installed]
  cases hc : course config program address store context fuel pos with
  | ok result t => exact bind_ok (Run.inContext_eq_ok.mpr hc)
  | error stop t => exact bind_error (Run.inContext_error hc)

/-- Without particles no filter starts. -/
theorem run_empty (fuel : Nat) (none : ¬ 0 < config.particles) :
    run fuel config program address store context =
      .error (.failed (.zeroCount "particles" .none)) context := by
  unfold run install
  rw [dif_neg none]
  rfl

theorem reported_eq_ok {outcome : EStateM.Result Stop (Session (ParticleFilter n)) Empirical}
    {inference : Inference} {context' : Context} (h : reported outcome = .ok inference context') :
    ∃ result t, outcome = .ok result t ∧ inference = ⟨result, t.engine.metrics⟩ ∧
      context' = t.context := by
  cases outcome with
  | ok result t =>
    cases h
    exact ⟨result, t, rfl, rfl, rfl⟩
  | error stop t => cases h

/-- A run that comes to a result is one of at least one particle. -/
theorem run_eq_ok {fuel : Nat} {inference : Inference} {context' : Context}
    (h : run fuel config program address store context = .ok inference context') :
    ∃ pos result t, course config program address store context fuel pos = .ok result t ∧
      inference = ⟨result, t.engine.metrics⟩ ∧ context' = t.context := by
  by_cases pos : 0 < config.particles
  · rw [run_eq config program address store context fuel pos] at h
    exact ⟨pos, reported_eq_ok h⟩
  · rw [run_empty config program address store context fuel pos] at h
    cases h

theorem noted_of_ok {fuel : Nat} {inference : Inference} {context' : Context}
    (h : run fuel config program address store context = .ok inference context') :
    noted config program address store context fuel = inference.metrics.barriers := by
  obtain ⟨pos, result, t, ran, rfl, rfl⟩ := run_eq_ok config program address store context h
  unfold noted
  rw [dif_pos pos, ran]
  rfl

end

end ParticleFilter

namespace ParticleFilter

variable {fuel : Nat} {config : FilterConfig} {program : Program} {address : Address} {store : Store}
  {context : Context}

/-- What turns and barriers keep holds at the end of a run, if it does at the start. -/
theorem Lasting.course {pos : 0 < config.particles} {P : ParticleFilter config.particles → Prop}
    (lasting : ∀ task, Lasting task P) (h : P (start pos (program.entry address) store)) :
    P (finalState (course config program address store context fuel pos)).engine := by
  unfold ParticleFilter.course Handler.drive
  rw [Run.engine_guarding]
  exact (lasting _).dispatch fuel _ h

theorem course_parts (pos : 0 < config.particles) :
    Parts (course { config with strict := true } program address store context fuel pos)
      (course { config with strict := false } program address store context fuel pos) := by
  let s := opening config program address store context pos
  let id := (context.install "particle-filter").1
  have parts : Parts ((handler ⟨id, true⟩).dispatch fuel s.engine.population.resumeCurrent s)
      ((handler ⟨id, false⟩).dispatch fuel s.engine.population.resumeCurrent s) :=
    dispatch_parts rfl fuel _
  exact parts.guarding

/-- A run that comes to a result has its weights from the latest barrier. -/
theorem course_exited {pos : 0 < config.particles} {result : Empirical}
    {t : Session (ParticleFilter config.particles)}
    (h : course config program address store context fuel pos = .ok result t) :
    t.engine.population.Final t.engine.metrics.barriers ∧
      result.logNormalizer = t.engine.population.logNormalizer := by
  obtain ⟨s, reached, same, d, _, rfl⟩ := drive_leads h
  rw [same]
  exact ⟨reached.inStep (start_opened pos (program.entry address) store)
    (Population.start_acting pos (program.entry address) store), rfl⟩

/-- If a barrier was degenerate, the latest one was, and has left no weight. -/
theorem lastWeight_of_degenerate {barriers : List Barrier}
    (lasts : barriers.Pairwise fun earlier later : Barrier =>
      earlier.degenerate = true → later.degenerate = true)
    (weights : ∀ noted ∈ barriers, noted.degenerate = true → noted.logMeanWeight = negInf)
    (some : ∃ b ∈ barriers, b.degenerate = true) : lastWeight barriers = negInf := by
  obtain ⟨b, there, degenerate⟩ := some
  obtain ⟨before, last, rfl⟩ : ∃ before last, barriers = before ++ [last] :=
    ⟨_, _, (List.dropLast_concat_getLast (List.ne_nil_of_mem there)).symm⟩
  have final : last.degenerate = true := by
    rcases List.mem_append.mp there with earlier | there
    · exact (List.pairwise_append.mp lasts).2.2 b earlier last (by simp) degenerate
    · obtain rfl := List.mem_singleton.mp there
      exact degenerate
  simpa [lastWeight] using weights last (by simp) final

theorem noted_numbered {i : Nat} {b : Barrier}
    (h : (noted config program address store context fuel)[i]? = some b) : b.index = i := by
  unfold noted at h
  split at h
  · rename_i pos
    have begun : Numbered (start pos (program.entry address) store) := fun _ _ h => by
      simp [start, Metrics.ofPopulation] at h
    exact Lasting.course numbered_lasting begun i b h
  · cases h

theorem course_declining (pos : 0 < config.particles) (small : config.particles < UInt64.size) :
    Declining (finalState (course config program address store context fuel pos)).engine :=
  Lasting.course (declining_lasting small) (declining_start ..)

theorem noted_declines (small : config.particles < UInt64.size) :
    (noted config program address store context fuel).Pairwise fun earlier later : Barrier =>
      earlier.degenerate = true → later.degenerate = true := by
  unfold noted
  split
  · exact (course_declining _ small).degenerate
  · exact .nil

/-- A run that has noted a degenerate barrier has lost its normalizer. -/
theorem normalizer_lost {inference : Inference} {context' : Context}
    (small : config.particles < UInt64.size)
    (h : run fuel config program address store context = .ok inference context')
    (degenerate : ∃ b ∈ noted config program address store context fuel, b.degenerate = true) :
    inference.distribution.logNormalizer = negInf := by
  rw [noted_of_ok config program address store context h] at degenerate
  obtain ⟨pos, result, t, ran, rfl, rfl⟩ := run_eq_ok config program address store context h
  obtain ⟨final, normalizer⟩ := course_exited ran
  have declining :
      Declining (finalState (course config program address store context fuel pos)).engine :=
    course_declining pos small
  rw [ran] at declining
  have lost : lastWeight t.engine.metrics.barriers = negInf :=
    lastWeight_of_degenerate declining.degenerate final.degenerate degenerate
  change result.logNormalizer = negInf
  rw [normalizer, Population.logNormalizer, final.toWeighed.weights, lost]
  refine logMeanExp_impossible (by simpa using small) fun w hw => ?_
  obtain rfl := List.eq_of_mem_replicate hw
  decide

/-- A strict run either comes to what a lenient one comes to, which then notes no degenerate barrier,
or it fails at the first that the lenient one notes. -/
theorem run_parts :
    (firstDegenerate? (noted { config with strict := false } program address store context fuel) =
        none ∧
      run fuel { config with strict := true } program address store context =
        run fuel { config with strict := false } program address store context) ∨
    ∃ first c,
      firstDegenerate? (noted { config with strict := false } program address store context fuel) =
        some first ∧
      run fuel { config with strict := true } program address store context =
        .error (.failed (.allWeightsImpossible "particle-filter" first.index config.particles)) c := by
  by_cases pos : 0 < config.particles
  · have ran (strict : Bool) :=
      run_eq { config with strict } program address store context fuel pos
    have whole : noted { config with strict := false } program address store context fuel =
        (finalState (course { config with strict := false } program address store context fuel
          pos)).engine.metrics.barriers := dif_pos pos
    have parts : Parts
        (course { config with strict := true } program address store context fuel pos)
        (course { config with strict := false } program address store context fuel pos) :=
      course_parts pos
    rw [whole]
    generalize hs : course { config with strict := true } program address store context fuel pos =
      outcome at parts
    generalize hl : course { config with strict := false } program address store context fuel pos =
      outcome' at parts ⊢
    cases parts with
    | together sound =>
      have same := (ran true).trans (congrArg reported (hs.trans hl.symm))
      exact .inl ⟨sound, same.trans (ran false).symm⟩
    | stopped found => exact .inr ⟨_, _, found, (ran true).trans (congrArg reported hs)⟩
  · have failed (strict : Bool) :=
      run_empty { config with strict } program address store context fuel pos
    have nothing : noted { config with strict := false } program address store context fuel = [] :=
      dif_neg pos
    rw [nothing]
    exact .inl ⟨rfl, (failed true).trans (failed false).symm⟩

end ParticleFilter

/-- A strict filter and a lenient one that run the same program from the same context, and so with
the same generator. If the lenient run notes no degenerate barrier, both come to the same: the same
result with the same metrics, or the same failure, and the same context. Otherwise the strict run
fails with the number of the first degenerate barrier that the lenient run notes. Behind such a
barrier the lenient run notes degenerate barriers only, and its log normalizer, if it comes to a
result, is negative infinity. The barriers are those of the whole run, which a run that comes to a
result reports in its metrics; each bears its place in the list as its number. -/
theorem strict_until_degenerate (fuel : Nat) (config : FilterConfig) (program : Program)
    (address : Address) (store : Store) (context : Context) :
    let run (strict : Bool) :=
      ParticleFilter.run fuel { config with strict } program address store context
    let noted := ParticleFilter.noted { config with strict := false } program address store context fuel
    ((firstDegenerate? noted = none ∧ run true = run false) ∨
      ∃ first c, firstDegenerate? noted = some first ∧ run true =
        .error (.failed (.allWeightsImpossible "particle-filter" first.index config.particles)) c) ∧
    (∀ inference c, run false = .ok inference c → noted = inference.metrics.barriers) ∧
    (∀ (i : Nat) (b : Barrier), noted[i]? = some b → b.index = i) ∧
    (config.particles < UInt64.size →
      noted.Pairwise (fun earlier later => earlier.degenerate = true → later.degenerate = true) ∧
      ∀ inference c, run false = .ok inference c → (∃ b ∈ noted, b.degenerate = true) →
        inference.distribution.logNormalizer = negInf) := by
  intro run noted
  refine ⟨ParticleFilter.run_parts, fun inference c ran => ?_, fun i b => ?_, fun small => ?_⟩
  · exact ParticleFilter.noted_of_ok _ program address store context ran
  · exact ParticleFilter.noted_numbered
  · exact ⟨ParticleFilter.noted_declines small,
      fun inference c => ParticleFilter.normalizer_lost small⟩

/-- Two particles flip coins whose tails are impossible. One of them survives the first coin, and after
it alone both filters come to the same. Both copies show tails of the second coin: the strict filter
fails there, and the lenient one passes that barrier and the third one as degenerate. -/
theorem weighedFlips_parts :
    let context : Context := { rng := sidesRng [true, false, false, false] }
    let run (strict : Bool) (flips : List (String × Float)) :=
      ParticleFilter.run 14 { particles := 2, strict } (weighedFlips flips []) .root default context
    let one : List (String × Float) := [("first", negInf)]
    let three : List (String × Float) := [("first", negInf), ("second", negInf), ("third", 0)]
    (∃ inference c, run false one = .ok inference c ∧ run true one = .ok inference c) ∧
    (∃ inference c, run false three = .ok inference c ∧
      inference.metrics.barriers.map (·.degenerate) = [false, true, true] ∧
      inference.distribution.logNormalizer = negInf) ∧
    ∃ c, run true three = .error (.failed (.allWeightsImpossible "particle-filter" 1 2)) c := by
  intro context run one three
  have sound : succeedsWith
      (fun inference _ => inference.metrics.barriers.map (·.degenerate) == [false])
      (run false one) = true := by
    decide +kernel
  have lost : succeedsWith
      (fun inference _ => inference.metrics.barriers.map (·.degenerate) == [false, true, true])
      (run false three) = true := by
    decide +kernel
  obtain ⟨inference, c, h, sound⟩ := exists_of_succeedsWith sound
  obtain ⟨inference', c', h', lost⟩ := exists_of_succeedsWith lost
  rw [beq_iff_eq] at sound lost
  have parts (flips : List (String × Float)) :=
    strict_until_degenerate 14 { particles := 2 } (weighedFlips flips []) .root default context
  refine ⟨⟨inference, c, h, ?_⟩, ⟨inference', c', h', lost, ?_⟩, ?_⟩
  · obtain ⟨same, reported, _, _⟩ := parts one
    rw [reported inference c h] at same
    obtain ⟨_, same⟩ | ⟨first, _, found, _⟩ := same
    · exact same.trans h
    · obtain ⟨b, barriers, healthy⟩ := List.map_eq_singleton_iff.mp sound
      rw [barriers] at found
      simp [firstDegenerate?, healthy] at found
  · obtain ⟨_, reported, _, declining⟩ := parts three
    refine (declining (by decide)).2 inference' c' h' ?_
    have degenerate : true ∈ inference'.metrics.barriers.map (·.degenerate) := by simp [lost]
    obtain ⟨b, recorded, degenerate⟩ := List.mem_map.mp degenerate
    rw [reported inference' c' h']
    exact ⟨b, recorded, degenerate⟩
  · obtain ⟨split, reported, numbered, _⟩ := parts three
    obtain ⟨b, rest, barriers, healthy, lost⟩ := List.map_eq_cons_iff.mp lost
    obtain ⟨second, later, rfl, degenerate, _⟩ := List.map_eq_cons_iff.mp lost
    have found : firstDegenerate? inference'.metrics.barriers = some second := by
      simp [firstDegenerate?, barriers, healthy, degenerate]
    rw [reported inference' c' h', found] at split
    obtain ⟨none, _⟩ | ⟨first, c, same, failed⟩ := split
    · cases none
    · cases same
      rw [numbered 1 second (by rw [reported inference' c' h', barriers]; rfl)] at failed
      exact ⟨c, failed⟩

end Posterior
