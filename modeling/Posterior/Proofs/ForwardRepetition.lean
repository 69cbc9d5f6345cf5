import Posterior.Handler.Forward
import Posterior.Proofs.ExactSums
import Posterior.Proofs.Observations
import Posterior.Proofs.Strictness

/-!
Programs without factors. Nothing parks a particle, so each one runs from the entry of the program to
its exit before the next one starts, and no barrier is met: the particle filter is a loop of forward
runs that share one generator.
-/

namespace Posterior

open Numeric

theorem bind_of_eq {ε σ α β : Type} {x y : EStateM ε σ α} {f : α → EStateM ε σ β} {s t : σ}
    (h : x s = y t) : (x >>= f) s = (y >>= f) t := by
  change EStateM.bind x f s = EStateM.bind y f t
  unfold EStateM.bind
  rw [h]

/-- What the loop does with the answer to an effect. -/
def Handler.proceed {σ α : Type} (h : Handler σ α) (fuel : Nat) : Control α → Run σ α
  | .resume next => h.dispatch fuel next
  | .done result => pure result

theorem Handler.dispatch_eq {σ α : Type} (h : Handler σ α) (fuel : Nat) (next : Resume) :
    h.dispatch (fuel + 1) next = h.answer next.invoke >>= h.proceed fuel := by
  rw [dispatch]
  rfl

/-- No execution of the program reaches a factor. -/
def Step.FactorFree (root : Step) : Prop :=
  ∀ point resume, ¬ root.ComesTo 0 (.factor point resume)

theorem Step.factorFree_exit (store : Store) (value : Value) : (exit store value).FactorFree := by
  have stays : ∀ {k : Nat} {step : Step}, (exit store value).ComesTo k step →
      step = exit store value := by
    intro k step h
    induction h with
    | rest => rfl
    | choice before drawn ih => cases ih
    | factor before ih => cases ih
  exact fun _ _ h => nomatch stays h

theorem Step.factorFree_sample {choice : Choice} {deliver : Delivery}
    (h : ∀ value, (deliver choice.store value).FactorFree) : (sample choice deliver).FactorFree := by
  have goes : ∀ {k : Nat} {step : Step}, (sample choice deliver).ComesTo k step →
      (k = 0 ∧ step = sample choice deliver) ∨
        ∃ value, (deliver choice.store value).ComesTo k step := by
    intro k step there
    induction there with
    | rest => exact .inl ⟨rfl, rfl⟩
    | @choice k choice' deliver' value before drawn ih =>
      rcases ih with ⟨rfl, same⟩ | ⟨first, later⟩
      · cases same
        exact .inr ⟨value, .rest⟩
      · exact .inr ⟨first, later.choice drawn⟩
    | factor before ih =>
      rcases ih with ⟨_, same⟩ | ⟨first, later⟩
      · cases same
      · exact .inr ⟨first, later.factor⟩
  intro point resume there
  rcases goes there with ⟨_, same⟩ | ⟨value, later⟩
  · cases same
  · exact h value point resume later

/-- A whole execution without factors: it starts at a step with one state of the generator and exits
with another, and with a value. -/
inductive Step.Plays : Step → Rng → Store → Value → Rng → Prop where
  | exit (store : Store) (value : Value) (g : Rng) : Plays (.exit store value) g store value g
  | choose {choice : Choice} {deliver : Delivery} {g g₁ g₂ : Rng} {value result : Value}
      {store : Store} (drawn : choice.dist.draw choice.params g = .ok value g₁)
      (rest : Plays (deliver choice.store value) g₁ store result g₂) :
      Plays (.sample choice deliver) g store result g₂

/-- Whole executions one after the other, each with the generator that the one before has left. -/
inductive Step.Repeats (root : Step) : Rng → List Value → Rng → Prop where
  | nothing (g : Rng) : Repeats root g [] g
  | again {g g₁ g₂ : Rng} {store : Store} {value : Value} {values : List Value}
      (first : root.Plays g store value g₁) (rest : Repeats root g₁ values g₂) :
      Repeats root g (value :: values) g₂

theorem Step.Plays.determined {step : Step} {g g₁ g₂ : Rng} {store store' : Store}
    {value value' : Value} (h : step.Plays g store value g₁) (h' : step.Plays g store' value' g₂) :
    value' = value ∧ g₂ = g₁ := by
  induction h with
  | exit store value g =>
    cases h'
    exact ⟨rfl, rfl⟩
  | choose drawn rest ih =>
    cases h' with
    | choose drawn' rest' =>
      cases drawn.symm.trans drawn'
      exact ih rest'

theorem Step.Repeats.determined {root : Step} {g g₁ g₂ : Rng} {values values' : List Value}
    (h : root.Repeats g values g₁) (h' : root.Repeats g values' g₂)
    (same : values'.length = values.length) : values' = values ∧ g₂ = g₁ := by
  induction h generalizing values' with
  | nothing g =>
    obtain rfl := List.eq_nil_of_length_eq_zero same
    cases h'
    exact ⟨rfl, rfl⟩
  | again first rest ih =>
    cases h' with
    | nothing => cases same
    | again first' rest' =>
      obtain ⟨rfl, rfl⟩ := first.determined first'
      obtain ⟨rfl, rfl⟩ := ih rest' (by simpa using same)
      exact ⟨rfl, rfl⟩

namespace Forward

variable {id : HandlerId} {s t : Session Unit} {next : Resume} {fuel : Nat} {value : Value}
  {program : Program} {address : Address} {store : Store} {c c' : Context}

/-- Successive runs of a program in one context. -/
def runs (fuel : Nat) (program : Program) (address : Address) (store : Store) :
    Nat → InContext (List Value)
  | 0 => return []
  | n + 1 => do
    let value ← run fuel program address store
    return value :: (← runs fuel program address store n)

/-- The session after a forward run. -/
def left (s : Session Unit) (g : Rng) : Session Unit :=
  ⟨(), { s.context with rng := g, stack := s.context.stack.tail }⟩

theorem dispatch_plays (h : (handler id).dispatch fuel next s = .ok value t) :
    ∃ out g, next.invoke.Plays s.context.rng out value g ∧ t = left s g := by
  induction fuel generalizing next s with
  | zero => exact absurd h throw_ne_ok
  | succ fuel ih =>
    simp only [Handler.dispatch, bind_eq_ok] at h
    obtain ⟨control, r, answered, h⟩ := h
    cases effect : next.invoke with
    | sample choice deliver =>
      rw [effect] at answered
      have chosen := Handler.answer_sample answered
      simp only [handler, bind_eq_ok, Run.draw_eq_ok, pure_eq_ok] at chosen
      obtain ⟨value, _, ⟨g, drawn, rfl⟩, rfl, rfl⟩ := chosen
      obtain ⟨out, g', rest, rfl⟩ := ih h
      exact ⟨out, g', .choose drawn rest, rfl⟩
    | factor point resume =>
      rw [effect] at answered
      exact absurd (Handler.answer_factor answered).2 Run.fail_ne_ok
    | exit out value =>
      rw [effect] at answered
      have exited := Handler.answer_exit answered
      simp only [handler, bind_eq_ok, Run.restore_eq_ok, pure_eq_ok] at exited
      obtain ⟨_, _, ⟨_, rfl⟩, rfl, rfl⟩ := exited
      obtain ⟨rfl, rfl⟩ := pure_eq_ok.mp h
      exact ⟨out, _, .exit .., rfl⟩

theorem plays_dispatch {step : Step} {g g' : Rng} {out : Store} (h : step.Plays g out value g')
    (effect : next.invoke = step) (same : s.context.rng = g)
    (active : s.context.active?.map (·.id) = some id) :
    ∃ k, ∀ fuel, k ≤ fuel → (handler id).dispatch fuel next s = .ok value (left s g') := by
  induction h generalizing next s with
  | exit out value g =>
    refine ⟨1, fun fuel enough => ?_⟩
    obtain ⟨fuel, rfl⟩ : ∃ k, fuel = k + 1 := ⟨fuel - 1, by omega⟩
    subst same
    have answered : (handler id).answer next.invoke s = .ok (.done value) (left s s.context.rng) := by
      rw [Handler.answer_of_active (h := handler id) active, effect]
      exact bind_ok (Run.restore_of_active active)
    rw [Handler.dispatch, bind_ok answered]
    rfl
  | @choose choice deliver g g₁ g₂ value result out drawn rest ih =>
    subst same
    let r : Session Unit := ⟨(), { s.context with rng := g₁ }⟩
    have answered : (handler id).answer next.invoke s =
        .ok (.resume (.deliver deliver choice.store value)) r := by
      rw [Handler.answer_of_active (h := handler id) active, effect]
      exact bind_ok (Run.draw_ok drawn)
    obtain ⟨k, ran⟩ := @ih r (.deliver deliver choice.store value) rfl rfl active
    refine ⟨k + 1, fun fuel enough => ?_⟩
    obtain ⟨fuel, rfl⟩ : ∃ k, fuel = k + 1 := ⟨fuel - 1, by omega⟩
    rw [Handler.dispatch_succ answered]
    exact ran fuel (by omega)

theorem run_plays (h : run fuel program address store c = .ok value c') :
    ∃ out, (program store address).Plays c.rng out value c'.rng := by
  simp only [run, bind_eq_ok, InContext.install_eq_ok, pure_eq_ok] at h
  obtain ⟨_, _, ⟨rfl, rfl⟩, ⟨_, _⟩, _, h, rfl, rfl⟩ := h
  obtain ⟨out, g, plays, same⟩ :=
    dispatch_plays (Run.guarding_eq_ok.mp (Run.inContext_eq_ok.mp h))
  cases same
  exact ⟨out, plays⟩

theorem plays_run {g : Rng} {out : Store} (h : (program store address).Plays c.rng out value g) :
    ∃ k, ∀ fuel, k ≤ fuel →
      run fuel program address store c = .ok value { c with rng := g, next := c.next + 1 } := by
  obtain ⟨k, ran⟩ : ∃ k, ∀ fuel, k ≤ fuel →
      (handler (c.install "forward").1).dispatch fuel (.carryOn (program.entry address) store)
        ⟨(), (c.install "forward").2⟩ = .ok value (left ⟨(), (c.install "forward").2⟩ g) :=
    plays_dispatch h rfl rfl rfl
  refine ⟨k, fun fuel enough => ?_⟩
  unfold run
  rw [bind_ok (InContext.install_eq_ok.mpr ⟨rfl, rfl⟩)]
  exact bind_ok (Run.inContext_eq_ok.mpr (Run.guarding_eq_ok.mpr (ran fuel enough)))

theorem runs_repeats {n : Nat} {values : List Value}
    (h : runs fuel program address store n c = .ok values c') :
    values.length = n ∧ (program store address).Repeats c.rng values c'.rng := by
  induction n generalizing c values with
  | zero =>
    obtain ⟨rfl, rfl⟩ := pure_eq_ok.mp h
    exact ⟨rfl, .nothing _⟩
  | succ n ih =>
    simp only [runs, bind_eq_ok, pure_eq_ok] at h
    obtain ⟨value, _, first, rest, _, more, rfl, rfl⟩ := h
    obtain ⟨length, repeats⟩ := ih more
    obtain ⟨out, plays⟩ := run_plays first
    exact ⟨by rw [List.length_cons, length], .again plays repeats⟩

theorem repeats_runs {root : Step} {g g' : Rng} {values : List Value}
    (h : root.Repeats g values g') (start : program store address = root) (same : c.rng = g) :
    ∃ k, ∀ fuel, k ≤ fuel →
      ∃ c', runs fuel program address store values.length c = .ok values c' := by
  induction h generalizing c with
  | nothing g => exact ⟨0, fun _ _ => ⟨c, rfl⟩⟩
  | @again g g₁ g₂ out value values first rest ih =>
    subst start same
    obtain ⟨k, ran⟩ := plays_run first
    obtain ⟨l, more⟩ := ih (c := { c with rng := g₁, next := c.next + 1 }) rfl
    refine ⟨max k l, fun fuel enough => ?_⟩
    obtain ⟨c', rest⟩ := more fuel (by omega)
    refine ⟨c', ?_⟩
    rw [List.length_cons, runs, bind_ok (ran fuel (by omega)), bind_ok rest]
    rfl

end Forward

namespace Population

variable {n : Nat} {p : Population n} {entry : Continuation} {store out : Store}
  {values : List Value} {value : Value}

/-- The particles in line: the first ones have exited with these values, the others wait at the entry
of the program, and no weight has changed. -/
structure Lined (p : Population n) (entry : Continuation) (store : Store) (values : List Value) :
    Prop where
  exited : ∀ i : Fin n, i.val < values.length → p.isRunning i = false ∧
    (p.particles.get i).value = values[i.val]? ∧ (p.particles.get i).weight = 0
  waits : ∀ i : Fin n, values.length ≤ i.val →
    p.particles.get i = { resume := entry, store := store }

theorem start_lined (pos : 0 < n) (entry : Continuation) (store : Store) :
    (start pos entry store).Lined entry store [] :=
  ⟨fun _ h => absurd h (Nat.not_lt_zero _), fun i _ => get_start pos entry store i⟩

theorem Lined.running (h : p.Lined entry store values) {i : Fin n} (hi : values.length ≤ i.val) :
    p.isRunning i = true := by
  unfold isRunning
  rw [h.waits i hi]
  rfl

/-- The next particle exits. -/
theorem Lined.exit (h : p.Lined entry store values) (turn : p.active.val = values.length) :
    (p.updateCurrent (·.complete out value)).Lined entry store (values ++ [value]) := by
  unfold updateCurrent
  refine ⟨fun i hi => ?_, fun i hi => ?_⟩
  · rw [List.length_append, List.length_singleton] at hi
    rw [isRunning_setParticle, get_setParticle]
    by_cases ha : p.active = i
    · subst ha
      have waiting := h.waits p.active (by omega)
      rw [if_pos rfl, if_pos rfl]
      refine ⟨rfl, ?_, ?_⟩
      · change some value = _
        rw [turn, List.getElem?_concat_length]
      · change p.current.weight = 0
        rw [current, waiting]
    · have hlt : i.val < values.length := by
        have : p.active.val ≠ i.val := fun h => ha (Fin.ext h)
        omega
      rw [if_neg ha, if_neg ha, List.getElem?_append_left hlt]
      exact h.exited i hlt
  · rw [List.length_append, List.length_singleton] at hi
    rw [get_setParticle, if_neg (by omega)]
    exact h.waits i (by omega)

/-- While others wait, the turn goes to the first of them. -/
theorem Lined.next (h : p.Lined entry store values) (more : values.length < n)
    (turn : p.active.val + 1 = values.length) : p.nextRunning? = some ⟨values.length, more⟩ := by
  have running := h.running (i := ⟨values.length, more⟩) (Nat.le_refl _)
  obtain ⟨j, hj, after, _, between⟩ := nextRunning?_after
    ⟨⟨values.length, more⟩, Fin.lt_def.mpr (by change p.active.val < values.length; omega), running⟩
  rw [hj]
  congr 1
  apply Fin.ext
  change j.val = values.length
  by_contra hne
  have : p.active.val < j.val := after
  have stopped := between ⟨values.length, more⟩
    (Fin.lt_def.mpr (by change p.active.val < values.length; omega))
    (Fin.lt_def.mpr (by change values.length < j.val; omega))
  rw [running] at stopped
  cases stopped

theorem Lined.not_atBarrier (h : p.Lined entry store values) (more : values.length + 1 < n)
    (turn : p.active.val = values.length) : p.atBarrier = false := by
  refine eq_false_of_ne_true fun closes => ?_
  have stopped := (atBarrier_iff.mp closes).2 ⟨values.length + 1, more⟩
    (Fin.lt_def.mpr (by change p.active.val < values.length + 1; omega))
  rw [h.running (Nat.le_succ _)] at stopped
  cases stopped

theorem Lined.none_running (h : p.Lined entry store values) (full : values.length = n) :
    p.nextRunning? = none := by
  refine List.find?_eq_none.mpr fun i _ => ?_
  rw [(h.exited i (by omega)).1]
  exact Bool.false_ne_true

theorem Lined.values_eq (h : p.Lined entry store values) (full : values.length = n) :
    p.values = values := by
  have held : p.particles.toList.map (·.value) = values.map some := by
    refine List.ext_getElem (by simp [full]) fun i hi _ => ?_
    have hn : i < n := by simpa using hi
    have := (h.exited ⟨i, hn⟩ (by change i < _; omega)).2.1
    simpa [get_eq_getElem, full, hn] using this
  calc p.values = (p.particles.toList.map (·.value)).filterMap id := by
        rw [List.filterMap_map]
        rfl
    _ = values := by
        rw [held, List.filterMap_map]
        simp

theorem Lined.weights_eq (h : p.Lined entry store values) (full : values.length = n) :
    p.weights.toList = List.replicate n 0 := by
  refine List.ext_getElem (by simp) fun i hi _ => ?_
  have hn : i < n := by simpa using hi
  have := (h.exited ⟨i, hn⟩ (by change i < _; omega)).2.2
  simpa [weights, get_eq_getElem] using this

end Population

namespace ParticleFilter

variable {n : Nat} {task : Task} {s t : Session (ParticleFilter n)} {entry : Continuation}
  {store out : Store} {value : Value} {values : List Value} {next : Resume} {result : Empirical}

/-- The filter goes on after an exit. -/
def after (task : Task) (out : Store) (value : Value) (fuel : Nat) :
    Run (ParticleFilter n) Empirical :=
  (handler task).onExit out value >>= (handler task).proceed fuel

/-- A whole execution without factors runs in the filter as it does by itself. -/
theorem sameVerdict_plays {step : Step} {g g' : Rng} (h : step.Plays g out value g')
    (effect : next.invoke = step) (same : s.context.rng = g)
    (active : s.context.active?.map (·.id) = some task.id) :
    SameVerdict ((handler task).dispatch · next) s (after task out value)
      { s with context := { s.context with rng := g' } } := by
  induction h generalizing next s with
  | exit out value g =>
    subst same
    refine sameVerdict_of_succ rfl fun fuel => ?_
    have answered : (handler task).answer next.invoke s = (handler task).onExit out value s := by
      rw [Handler.answer_of_active (h := handler task) active, effect]
      rfl
    change (handler task).dispatch (fuel + 1) next s = after task out value fuel s
    rw [Handler.dispatch_eq, after, bind_of_eq answered]
  | @choose choice deliver g g₁ g₂ value result out drawn rest ih =>
    subst same
    let r : Session (ParticleFilter n) := { s with context := { s.context with rng := g₁ } }
    have answered : (handler task).answer next.invoke s =
        .ok (.resume (.deliver deliver choice.store value)) r := by
      rw [Handler.answer_of_active (h := handler task) active, effect]
      exact bind_ok (Run.draw_ok drawn)
    exact (Handler.sameVerdict_answer answered).trans
      (@ih r (.deliver deliver choice.store value) rfl rfl active)

/-- A run of the filter that comes to a result has played the execution it was in to its end. -/
theorem plays_of_dispatch {fuel : Nat} (free : next.invoke.FactorFree)
    (h : (handler task).dispatch fuel next s = .ok result t) :
    ∃ out value g, next.invoke.Plays s.context.rng out value g := by
  induction fuel generalizing next s with
  | zero => exact absurd h throw_ne_ok
  | succ fuel ih =>
    simp only [Handler.dispatch, bind_eq_ok] at h
    obtain ⟨control, r, answered, h⟩ := h
    cases effect : next.invoke with
    | sample choice deliver =>
      rw [effect] at answered free
      have chosen := Handler.answer_sample answered
      simp only [handler, bind_eq_ok, Run.draw_eq_ok, pure_eq_ok] at chosen
      obtain ⟨value, _, ⟨g, drawn, rfl⟩, rfl, rfl⟩ := chosen
      have rest : (deliver choice.store value).FactorFree := fun point resume there =>
        free point resume ((Step.ComesTo.choice .rest ⟨_, _, drawn⟩).trans there)
      obtain ⟨out, v, g', plays⟩ := @ih _ (.deliver deliver choice.store value) rest h
      exact ⟨out, v, g', .choose drawn plays⟩
    | factor point resume =>
      rw [effect] at free
      exact absurd .rest (free point resume)
    | exit out value => exact ⟨out, value, _, .exit ..⟩

/-- The filter is about to start the next particle in line. -/
structure Stage (task : Task) (entry : Continuation) (store : Store) (values : List Value)
    (s : Session (ParticleFilter n)) : Prop where
  lined : s.engine.population.Lined entry store values
  turn : s.engine.population.active.val = values.length
  active : s.context.active?.map (·.id) = some task.id

/-- The result that is made of the values of particles that have kept their weights. -/
def Made (n : Nat) (values : List Value) (result : Empirical) : Prop :=
  ∃ d, Empirical.ofHistogram (Histogram.empty.observeAll values) = .ok d ∧
    result = d.withLogNormalizer (logMeanExp (List.replicate n 0))

theorem finish_lined (h : s.engine.population.Lined entry store values)
    (full : values.length = n) (active : s.context.active?.map (·.id) = some task.id) :
    ∃ result, Made n values result ∧ finish task s = .ok (.done result)
      { s with context := { s.context with stack := s.context.stack.tail } } := by
  have some : values ≠ [] := by
    have pos := Fin.pos s.engine.population.active
    intro h
    rw [h] at full
    exact absurd full pos.ne
  obtain ⟨d, made⟩ := Empirical.ofHistogram_observeAll some
  have shared : (Run.ofExcept (Empirical.ofHistogram s.engine.population.histogram) :
      Run (ParticleFilter n) Empirical) s = .ok d s := by
    rw [Population.histogram, h.values_eq full]
    exact Run.ofExcept_eq_ok.mpr ⟨made, rfl⟩
  refine ⟨_, ⟨d, made, rfl⟩, ?_⟩
  unfold finish
  rw [Run.engine_bind, bind_ok shared, bind_ok (Run.restore_of_active active),
    Population.logNormalizer, h.weights_eq full]
  rfl

/-- The exit of the last particle in line ends the run. -/
theorem Stage.last (h : Stage task entry store values s) (last : values.length + 1 = n)
    (out : Store) (value : Value) :
    ∃ result t, Made n (values ++ [value]) result ∧ t.engine.metrics = s.engine.metrics ∧
      t.context.rng = s.context.rng ∧ ∀ fuel, after task out value fuel s = .ok result t := by
  let p := s.engine.population.updateCurrent (·.complete out value)
  have lined : p.Lined entry store (values ++ [value]) := h.lined.exit h.turn
  have full : (values ++ [value]).length = n := by simpa using last
  obtain ⟨result, made, finished⟩ := finish_lined (s := ⟨⟨p, s.engine.metrics⟩, s.context⟩) lined full
    h.active
  have exited := onExit_eq task out value s
  dsimp only at exited
  rw [lined.none_running full] at exited
  exact ⟨result, _, made, by rfl, by rfl, fun fuel => bind_ok (exited.trans finished)⟩

/-- The exit of any other particle gives the turn to the next one, without a barrier. -/
theorem Stage.goesOn (h : Stage task entry store values s) (more : values.length + 1 < n)
    (out : Store) (value : Value) :
    ∃ t, Stage task entry store (values ++ [value]) t ∧ t.engine.metrics = s.engine.metrics ∧
      t.context = s.context ∧
      ∀ fuel, after task out value fuel s = (handler task).dispatch fuel (.carryOn entry store) t := by
  let p := s.engine.population.updateCurrent (·.complete out value)
  have lined : p.Lined entry store (values ++ [value]) := h.lined.exit h.turn
  have length : (values ++ [value]).length = values.length + 1 := by simp
  have turns : p.nextRunning? = some ⟨(values ++ [value]).length, by omega⟩ :=
    lined.next (by omega) (by rw [length]; exact congrArg (· + 1) h.turn)
  let next : Fin n := ⟨(values ++ [value]).length, by omega⟩
  have exited := onExit_eq task out value s
  dsimp only at exited
  rw [turns, h.lined.not_atBarrier more h.turn] at exited
  have waiting : (p.activate next).resumeCurrent = .carryOn entry store := by
    unfold Population.resumeCurrent Population.current
    rw [Population.active_activate, Population.get_activate, lined.waits next (Nat.le_refl _)]
  refine ⟨⟨⟨p.activate next, s.engine.metrics⟩, s.context⟩,
    ⟨⟨lined.exited, lined.waits⟩, rfl, h.active⟩, rfl, rfl, fun fuel => ?_⟩
  rw [← waiting, after, bind_ok exited]
  rfl

/-- What a run that comes to its result has made of the particles still in line. -/
theorem Stage.repeats (free : (entry store).FactorFree) {fuel left : Nat}
    (h : Stage task entry store values s) (more : values.length + 1 + left = n)
    (ran : (handler task).dispatch fuel (.carryOn entry store) s = .ok result t) :
    ∃ rest, (entry store).Repeats s.context.rng rest t.context.rng ∧
      values.length + rest.length = n ∧ Made n (values ++ rest) result ∧
      t.engine.metrics = s.engine.metrics := by
  have entry_free : (Resume.carryOn entry store).invoke.FactorFree := free
  induction left generalizing values s fuel with
  | zero =>
    obtain ⟨out, value, g, plays⟩ := plays_of_dispatch entry_free ran
    obtain ⟨result', t', made, metrics, rng, ends⟩ := Stage.last
      (s := { s with context := { s.context with rng := g } }) ⟨h.lined, h.turn, h.active⟩
      more out value
    obtain ⟨fuel', ran⟩ := ((sameVerdict_plays plays rfl rfl h.active).returns result t).mp ⟨fuel, ran⟩
    cases (ends fuel').symm.trans ran
    exact ⟨[value], .again plays (rng ▸ .nothing _), by simpa using more, made, metrics⟩
  | succ left ih =>
    obtain ⟨out, value, g, plays⟩ := plays_of_dispatch entry_free ran
    obtain ⟨u, stage, metrics, context, goes⟩ := Stage.goesOn
      (s := { s with context := { s.context with rng := g } }) ⟨h.lined, h.turn, h.active⟩
      (by omega) out value
    obtain ⟨fuel', ran⟩ := ((sameVerdict_plays plays rfl rfl h.active).returns result t).mp ⟨fuel, ran⟩
    obtain ⟨rest, repeats, length, made, unchanged⟩ :=
      ih stage (by simp; omega) ((goes fuel').symm.trans ran)
    rw [context] at repeats
    refine ⟨value :: rest, .again plays repeats, ?_, ?_, unchanged.trans metrics⟩
    · simpa [Nat.add_assoc, Nat.add_comm 1] using length
    · simpa using made

/-- If all that are still in line play their executions to the end, so does the filter. -/
theorem Stage.returns {g g' : Rng} {rest : List Value} (plays : (entry store).Repeats g rest g')
    (h : Stage task entry store values s) (same : s.context.rng = g)
    (length : values.length + rest.length = n) (more : rest ≠ []) :
    ∃ result t, Returns ((handler task).dispatch · (.carryOn entry store)) s result t := by
  subst same
  induction rest generalizing values s with
  | nil => exact absurd rfl more
  | cons value rest ih =>
    cases plays with
    | again first plays =>
      rename_i g₁ out
      have verdict : SameVerdict ((handler task).dispatch · (.carryOn entry store)) s
          (after task out value) { s with context := { s.context with rng := g₁ } } :=
        sameVerdict_plays first rfl rfl h.active
      have here : Stage task entry store values
          { s with context := { s.context with rng := g₁ } } := ⟨h.lined, h.turn, h.active⟩
      rcases rest with _ | ⟨second, rest⟩
      · obtain ⟨result, t, _, _, _, ends⟩ := here.last (by simpa using length) out value
        exact ⟨result, t, (verdict.returns result t).mpr ⟨0, ends 0⟩⟩
      · obtain ⟨u, stage, _, context, goes⟩ :=
          here.goesOn (by simp only [List.length_cons] at length; omega) out value
        have again : (entry store).Repeats u.context.rng (second :: rest) g' := by
          rw [context]
          exact plays
        obtain ⟨result, t, fuel, ran⟩ := ih stage
          (by simpa [Nat.add_assoc, Nat.add_comm 1] using length) (by simp) again
        exact ⟨result, t, (verdict.returns result t).mpr ⟨fuel, (goes fuel).trans ran⟩⟩

section
variable {config : FilterConfig} {program : Program} {address : Address} {store : Store}
  {context : Context}

theorem opening_stage (pos : 0 < config.particles) :
    Stage ⟨(context.install "particle-filter").1, config.strict⟩ (program.entry address) store []
      (opening config program address store context pos) :=
  ⟨Population.start_lined pos _ _, rfl, rfl⟩

/-- A run starts with the first particle at the entry of the program. -/
theorem opening_resumes (pos : 0 < config.particles) :
    (opening config program address store context pos).engine.population.resumeCurrent =
      .carryOn (program.entry address) store := by
  have stage : Stage ⟨(context.install "particle-filter").1, config.strict⟩
      (program.entry address) store [] (opening config program address store context pos) :=
    opening_stage pos
  unfold Population.resumeCurrent Population.current
  rw [stage.lined.waits _ (Nat.zero_le _)]

theorem course_begins (fuel : Nat) (pos : 0 < config.particles) :
    course config program address store context fuel pos =
      (handler ⟨(context.install "particle-filter").1, config.strict⟩).drive fuel
        (.carryOn (program.entry address) store)
        (opening config program address store context pos) := by
  rw [← opening_resumes pos]
  rfl

/-- A run without factors that comes to a result has played one execution for each particle. -/
theorem run_repeats {fuel : Nat} {inference : Inference} {context' : Context}
    (free : (program store address).FactorFree)
    (h : run fuel config program address store context = .ok inference context') :
    ∃ values, (program store address).Repeats context.rng values context'.rng ∧
      values.length = config.particles ∧ Made config.particles values inference.distribution ∧
      inference.metrics.barriers = [] := by
  obtain ⟨pos, result, t, course, rfl, rfl⟩ := run_eq_ok config program address store context h
  rw [course_begins] at course
  obtain ⟨left, hleft⟩ := Nat.exists_eq_add_of_le pos
  obtain ⟨values, repeats, length, made, metrics⟩ :=
    (opening_stage pos).repeats free hleft.symm (Run.guarding_eq_ok.mp course)
  refine ⟨values, repeats, by simpa using length, made, ?_⟩
  change t.engine.metrics.barriers = []
  rw [metrics]
  rfl

/-- If one execution for each particle can be played to its end, the run comes to a result. -/
theorem repeats_run {values : List Value} {g : Rng} (pos : 0 < config.particles)
    (plays : (program store address).Repeats context.rng values g)
    (length : values.length = config.particles) :
    ∃ fuel inference context',
      run fuel config program address store context = .ok inference context' := by
  obtain ⟨result, t, fuel, ran⟩ := Stage.returns plays (opening_stage pos) rfl (by simpa using length)
    (by rintro rfl; exact pos.ne length)
  refine ⟨fuel, ⟨result, t.engine.metrics⟩, t.context, ?_⟩
  rw [run_eq _ _ _ _ _ fuel pos, course_begins, Handler.drive, Run.guarding_eq_ok.mpr ran]
  rfl

end

end ParticleFilter

/-- On a program without factors the particle filter is repeated forward execution. One of them comes
to a result with some bound on its effects just if the other does. Then the filter has observed the
values of the forward runs, one after the other, leaves the generator as they do, has noted no
barrier, and its normalizer is the mean of weights that are all zero, which is zero as long as the
particles can be counted exactly by doubles. -/
theorem filter_repeats_forward (config : FilterConfig) (program : Program) (address : Address)
    (store : Store) (context : Context) (pos : 0 < config.particles)
    (free : (program store address).FactorFree) :
    let filter (fuel : Nat) := ParticleFilter.run fuel config program address store context
    let forward (fuel : Nat) := Forward.runs fuel program address store config.particles context
    ((∃ fuel inference c, filter fuel = .ok inference c) ↔
      ∃ fuel values c, forward fuel = .ok values c) ∧
    ∀ fuel inference c fuel' values c', filter fuel = .ok inference c →
      forward fuel' = .ok values c' →
      values.length = config.particles ∧
      ParticleFilter.Made config.particles values inference.distribution ∧
      c.rng = c'.rng ∧ inference.metrics.barriers = [] ∧
      (config.particles ≤ 2 ^ 53 → inference.distribution.logNormalizer = 0) := by
  intro filter forward
  refine ⟨⟨?_, ?_⟩, ?_⟩
  · rintro ⟨fuel, inference, c, ran⟩
    obtain ⟨values, repeats, length, _⟩ := ParticleFilter.run_repeats free ran
    obtain ⟨k, ran⟩ := Forward.repeats_runs repeats rfl rfl
    obtain ⟨c', ran⟩ := ran k (Nat.le_refl k)
    rw [length] at ran
    exact ⟨k, values, c', ran⟩
  · rintro ⟨fuel, values, c, ran⟩
    obtain ⟨length, repeats⟩ := Forward.runs_repeats ran
    exact ParticleFilter.repeats_run pos repeats length
  · intro fuel inference c fuel' values c' ran ran'
    obtain ⟨values', repeats', length', made, barriers⟩ := ParticleFilter.run_repeats free ran
    obtain ⟨length, repeats⟩ := Forward.runs_repeats ran'
    obtain ⟨rfl, same⟩ := repeats.determined repeats' (length'.trans length.symm)
    refine ⟨length, made, same, barriers, fun small => ?_⟩
    obtain ⟨d, _, made⟩ := made
    rw [made]
    exact logMeanExp_zeros pos small

theorem twoCoins_factorFree (store : Store) (address : Address) :
    (twoCoins store address).FactorFree := by
  refine Step.factorFree_sample fun value => ?_
  split
  · exact Step.factorFree_sample fun _ => Step.factorFree_exit _ _
  · exact Step.factorFree_exit _ _

/-- Two flips that both show heads, by the filter and by forward execution. -/
theorem twoCoins_repeats :
    let context : Context := { rng := steadyRng 0 }
    ∃ inference c values c', ParticleFilter.run 9 { particles := 2 } twoCoins .root default context =
        .ok inference c ∧
      Forward.runs 9 twoCoins .root default 2 context = .ok values c' ∧
      ParticleFilter.Made 2 values inference.distribution ∧ c.rng = c'.rng ∧
      inference.metrics.barriers = [] ∧ inference.distribution.logNormalizer = 0 := by
  intro context
  have filtered : succeeds (ParticleFilter.run 9 { particles := 2 } twoCoins .root default context) =
      true := by
    decide +kernel
  have forwarded : succeeds (Forward.runs 9 twoCoins .root default 2 context) = true := by
    decide +kernel
  obtain ⟨inference, c, filtered⟩ := exists_of_succeeds filtered
  obtain ⟨values, c', forwarded⟩ := exists_of_succeeds forwarded
  obtain ⟨_, both⟩ := filter_repeats_forward { particles := 2 } twoCoins .root default context
    (by decide) (twoCoins_factorFree default .root)
  obtain ⟨_, made, rng, barriers, normalizer⟩ :=
    both 9 inference c 9 values c' filtered forwarded
  exact ⟨inference, c, values, c', filtered, forwarded, made, rng, barriers,
    normalizer (by decide)⟩

end Posterior
