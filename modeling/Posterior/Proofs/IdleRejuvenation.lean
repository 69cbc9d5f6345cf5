import Posterior.Proofs.FilterRuns
import Posterior.Proofs.Lockstep
import Posterior.Proofs.Verdicts

/-!
Rejuvenation that takes no steps. It keeps choices, scores and floors which nothing reads, and looks
at every particle behind each barrier without moving it. Apart from that it is the lenient particle
filter: the same turns, the same draws and the same result.
-/

namespace Posterior

/-- The particle without what only an engine that moves particles keeps. -/
def Particle.bare (p : Particle) : Particle :=
  { p with score := 0, trace := .empty, regenFloor := 0 }

namespace Particle

theorem bare_raiseFloor (task : RejuvenatingFilter.Task) (p : Particle) :
    (RejuvenatingFilter.raiseFloor task p).bare = p.bare := by
  unfold RejuvenatingFilter.raiseFloor
  split <;> rfl

theorem Alike.bare {p q : Particle} (h : p.Alike q) : q.bare = p.bare := by
  unfold Alike at h
  rw [h]
  rfl

end Particle

namespace Population

variable {n : Nat}

def bare (p : Population n) : Population n := { p with particles := p.particles.map Particle.bare }

theorem ext_get {p q : Population n} (active : p.active = q.active)
    (particles : ∀ i, p.particles.get i = q.particles.get i) : p = q := by
  obtain ⟨ps, a⟩ := p
  obtain ⟨qs, b⟩ := q
  obtain rfl : a = b := active
  congr
  exact Vector.ext fun i hi => particles ⟨i, hi⟩

@[simp] theorem get_bare (p : Population n) (i : Fin n) :
    p.bare.particles.get i = (p.particles.get i).bare := by
  simp [bare, get_eq_getElem]

@[simp] theorem active_bare (p : Population n) : p.bare.active = p.active := rfl

@[simp] theorem isRunning_bare (p : Population n) : p.bare.isRunning = p.isRunning := by
  funext i
  unfold isRunning
  rw [get_bare]
  rfl

@[simp] theorem atBarrier_bare (p : Population n) : p.bare.atBarrier = p.atBarrier := by
  unfold atBarrier lastRunning?
  rw [isRunning_bare, active_bare]

@[simp] theorem nextRunning?_bare (p : Population n) : p.bare.nextRunning? = p.nextRunning? := by
  unfold nextRunning? turns
  rw [isRunning_bare, active_bare]

@[simp] theorem firstRunning?_bare (p : Population n) :
    p.bare.firstRunning? = p.firstRunning? := by
  unfold firstRunning?
  rw [isRunning_bare]

@[simp] theorem current_bare (p : Population n) : p.bare.current = p.current.bare :=
  get_bare p p.active

@[simp] theorem resumeCurrent_bare (p : Population n) : p.bare.resumeCurrent = p.resumeCurrent := by
  unfold resumeCurrent
  rw [current_bare]
  rfl

theorem bare_setParticle (p : Population n) (i : Fin n) (x : Particle) :
    (p.setParticle i x).bare = p.bare.setParticle i x.bare := by
  refine ext_get rfl fun j => ?_
  simp only [get_bare, get_setParticle]
  split <;> rfl

theorem bare_updateCurrent (p : Population n) {f g : Particle → Particle}
    (hf : (f p.current).bare = g p.current.bare) :
    (p.updateCurrent f).bare = p.bare.updateCurrent g := by
  unfold updateCurrent
  rw [bare_setParticle, hf, current_bare, active_bare]

/-- A particle in the place of one that differs from it only in what is left out. -/
theorem bare_replace {p : Population n} {i : Fin n} {x : Particle}
    (hx : x.bare = (p.particles.get i).bare) : (p.setParticle i x).bare = p.bare := by
  refine ext_get rfl fun j => ?_
  simp only [get_bare, get_setParticle]
  split <;> rename_i hij
  · rw [hx, hij]
  · rfl

theorem bare_setWeights (p : Population n) (w : Float) :
    (p.setWeights w).bare = p.bare.setWeights w :=
  ext_get rfl fun i => by simp only [get_bare, get_setWeights]; rfl

theorem bare_descend (p : Population n) (r : Resampled n) :
    (p.descend r).bare = p.bare.descend r :=
  ext_get rfl fun i => by simp only [get_bare, get_descend]; rfl

@[simp] theorem weights_bare (p : Population n) : p.bare.weights = p.weights := by
  unfold weights bare
  rw [Vector.map_map]
  rfl

@[simp] theorem logNormalizer_bare (p : Population n) : p.bare.logNormalizer = p.logNormalizer := by
  unfold logNormalizer
  rw [weights_bare]

@[simp] theorem histogram_bare (p : Population n) : p.bare.histogram = p.histogram := by
  unfold histogram values bare
  rw [Vector.toList_map, List.filterMap_map]
  rfl

/-- Resampling looks at the weights alone. -/
theorem resample_bare {p q : Population n} {strict : Bool} {algorithm : String}
    (algorithm' : String) {index : Nat} {noted : Barrier} {g g' : Rng}
    (h : p.resample strict algorithm index g = .ok (q, noted) g') :
    p.bare.resample strict algorithm' index g = .ok (q.bare, noted) g' := by
  unfold resample at h ⊢
  rw [weights_bare]
  obtain ⟨r, g₁, hr, h⟩ := bind_eq_ok.mp h
  rw [bind_ok hr]
  cases r with
  | some r =>
    cases h
    rw [bare_descend]
    rfl
  | none =>
    cases strict with
    | true => cases h
    | false =>
      cases h
      rw [bare_setWeights]
      rfl

end Population

namespace Context

/-- The same context with its active handler under another name. -/
def rename (name : String) (c : Context) : Context :=
  { c with stack := c.stack.modifyHead ({ · with name }) }

/-- A handler acts under its number. -/
@[simp]
theorem active?_rename (name : String) (c : Context) :
    (c.rename name).active?.map (·.id) = c.active?.map (·.id) := by
  unfold rename active?
  rw [List.head?_modifyHead, Option.map_map]
  rfl

/-- The name leaves the stack with the handler. -/
@[simp]
theorem tail_rename (name : String) (c : Context) :
    (c.rename name).stack.tail = c.stack.tail := by
  simp [rename]

end Context

namespace RejuvenatingFilter

variable {n : Nat} {task : Task} {s t : Session (RejuvenatingFilter n)}

def bare (e : RejuvenatingFilter n) : ParticleFilter n := ⟨e.population.bare, e.metrics⟩

/-- What the particle filter makes of the same session. -/
def mirror (s : Session (RejuvenatingFilter n)) : Session (ParticleFilter n) :=
  ⟨s.engine.bare, s.context.rename "particle-filter"⟩

/-- Where the particle filter stands once it has done the same. When it is done, its handler has
left the stack. -/
def reflect : Control Empirical → Session (RejuvenatingFilter n) → Session (ParticleFilter n)
  | .resume _, s => mirror s
  | .done _, s => ⟨s.engine.bare, s.context⟩

/-- The task of the particle filter under the same handler. -/
def Task.plain (task : Task) : ParticleFilter.Task := ⟨task.id, false⟩

theorem mirror_start (pos : 0 < n) (entry : Continuation) (store : Store) (context : Context) :
    mirror ⟨start pos entry store, (context.install "rejuvenation").2⟩ =
      ⟨ParticleFilter.start pos entry store, (context.install "particle-filter").2⟩ := by
  have hb : (Population.start pos entry store).bare = .start pos entry store :=
    Population.ext_get rfl fun i => by
      rw [Population.get_bare, Population.get_start]
      rfl
  unfold mirror bare start
  rw [hb]
  rfl

theorem rejuvenate_idle {fuel : Nat} {particle : Particle} {limit : Option Nat}
    {histogram : Option Histogram} {moved : Rejuvenated} {c c' : Context}
    (h : rejuvenate fuel particle limit 0 histogram c = .ok moved c') :
    moved = ⟨particle, 0, 0, histogram⟩ ∧ c' = c := by
  have hm : particle.movable 0 = false := by simp [Particle.movable]
  have ho : histogram.map (observeIdle particle 0) = histogram := by
    have hid : observeIdle particle 0 = id := by
      funext h
      unfold observeIdle
      split <;> rfl
    rw [hid, Option.map_id]
    rfl
  unfold rejuvenate at h
  simp only [hm, Bool.not_false, ↓reduceIte, pure_eq_ok, ho] at h
  obtain ⟨rfl, rfl⟩ := h
  exact ⟨rfl, rfl⟩

/-- Put back where it was, a particle that has not been moved leaves the mirror as it is. -/
theorem mirror_place {i : Fin n} {x : Particle}
    (hx : x.bare = (s.engine.population.particles.get i).bare) :
    mirror (place i x s) = mirror s := by
  unfold mirror bare place
  rw [Population.bare_replace hx]

theorem turnTo_mirrors {i : Fin n} {control : Control Empirical} (h : turnTo i s = .ok control t) :
    ParticleFilter.turnTo i (mirror s) = .ok control (reflect control t) := by
  obtain ⟨rfl, rfl⟩ := turnTo_eq_ok h
  rw [← Population.resumeCurrent_bare]
  rfl

/-- The active particle takes its turn in both filters. -/
theorem setPopulation_mirrors {f g : Particle → Particle}
    (hf : (f s.engine.population.current).bare = g s.engine.population.current.bare)
    (h : setPopulation (s.engine.population.updateCurrent f) s = .ok () t) :
    ParticleFilter.setPopulation ((mirror s).engine.population.updateCurrent g) (mirror s) =
      .ok () (mirror t) := by
  obtain rfl := Run.modifyEngine_eq_ok.mp h
  unfold mirror bare
  rw [Population.bare_updateCurrent _ hf]
  rfl

section
variable (idle : task.steps = 0)
include idle

/-- Without steps nothing is collected over the final pass. -/
theorem collected_idle : collected task = none := by
  unfold collected
  rw [idle]
  simp

theorem move_idle {particle : Particle} {limit : Option Nat} {histogram : Option Histogram}
    {moved : Rejuvenated} (h : move task particle limit histogram s = .ok moved t) :
    moved.particle = particle ∧ moved.histogram = histogram ∧ t = s := by
  unfold move InContext.ensureActive at h
  rw [idle] at h
  simp only [bind_eq_ok, Run.onContext_eq_ok, Run.modifyEngine_eq_ok, pure_eq_ok, get_eq_ok,
    InContext.ofExcept_eq_ok] at h
  obtain ⟨_, _, ⟨_, ⟨_, _, ⟨rfl, rfl⟩, _, rfl⟩, rfl⟩, _, _, ⟨_, hr, rfl⟩, _, _, rfl, rfl, rfl⟩ := h
  obtain ⟨rfl, rfl⟩ := rejuvenate_idle hr
  exact ⟨rfl, rfl, rfl⟩

theorem moveRunning_idle {i : Fin n} (h : moveRunning task i s = .ok () t) :
    mirror t = mirror s := by
  rcases moveRunning_eq_ok h with ⟨_, rfl⟩ | ⟨_, moved, r, hm, rfl⟩
  · rfl
  · obtain ⟨hp, _, rfl⟩ := move_idle idle hm
    rw [hp]
    exact mirror_place (Particle.bare_raiseFloor _ _)

theorem moveExited_idle {histogram histogram' : Option Histogram} {i : Fin n}
    (h : moveExited task histogram i s = .ok histogram' t) :
    histogram' = histogram ∧ mirror t = mirror s := by
  obtain ⟨moved, r, hm, rfl, rfl⟩ := moveExited_eq_ok h
  obtain ⟨hp, hh, rfl⟩ := move_idle idle hm
  rw [hp]
  exact ⟨hh, mirror_place rfl⟩

theorem barrier_mirrors (h : barrier task s = .ok () t) :
    ParticleFilter.barrier task.plain (mirror s) = .ok () (mirror t) := by
  unfold barrier at h
  simp only [bind_eq_ok, Run.engine_eq_ok, Run.draw_eq_ok, Run.setEngine_eq_ok] at h
  obtain ⟨_, _, ⟨rfl, rfl⟩, ⟨q, noted⟩, _, ⟨g, hr, rfl⟩, _, r, rfl, hm⟩ := h
  have hq := forM_keeps
    (P := fun t => mirror t =
      mirror ⟨⟨q, s.engine.metrics.pushBarrier noted⟩, { s.context with rng := g }⟩)
    (fun _ _ _ hs hi => (moveRunning_idle idle hi).trans hs) rfl hm
  have hd : (Run.draw ((mirror s).engine.population.resample task.plain.strict "particle-filter"
      (mirror s).engine.metrics.barriers.length) : Run (ParticleFilter n) _) (mirror s) = _ :=
    Run.draw_ok (Population.resample_bare "particle-filter" hr)
  unfold ParticleFilter.barrier
  rw [Run.engine_bind, bind_ok hd, hq]
  rfl

/-- The final pass moves nothing either, so the result is made of the same values. -/
theorem finish_mirrors {control : Control Empirical} (h : finish task s = .ok control t) :
    ParticleFilter.finish task.plain (mirror s) = .ok control (reflect control t) := by
  unfold finish at h
  rw [collected_idle idle] at h
  simp only [bind_eq_ok, Run.engine_eq_ok, Run.ofExcept_eq_ok, pure_eq_ok] at h
  obtain ⟨histogram, r, hp, _, _, ⟨rfl, rfl⟩, d, _, ⟨hd, rfl⟩, _, _, hres, rfl, rfl⟩ := h
  -- Each particle is looked at once more, with nothing collected and nothing moved.
  obtain ⟨rfl, hr⟩ := foldlM_keeps (P := fun histogram r => histogram = none ∧ mirror r = mirror s)
    (fun _ _ _ _ _ hs hi => by
      obtain ⟨hh, hm⟩ := moveExited_idle idle hi
      exact ⟨hh.trans hs.1, hm.trans hs.2⟩) ⟨rfl, rfl⟩ hp
  obtain ⟨active, rfl⟩ := Run.restore_eq_ok.mp hres
  have hh : (mirror r).engine.population.histogram = r.engine.population.histogram :=
    Population.histogram_bare _
  have hl : (mirror r).engine.population.logNormalizer = r.engine.population.logNormalizer :=
    Population.logNormalizer_bare _
  have hd' : (Run.ofExcept (Empirical.ofHistogram (mirror r).engine.population.histogram) :
      Run (ParticleFilter n) Empirical) (mirror r) = .ok d (mirror r) :=
    Run.ofExcept_eq_ok.mpr ⟨hh ▸ hd, rfl⟩
  have active' : (mirror r).context.active?.map (·.id) = some task.plain.id :=
    (Context.active?_rename _ _).trans active
  unfold ParticleFilter.finish
  rw [← hr, Run.engine_bind, bind_ok hd', bind_ok (Run.restore_of_active active'), hl]
  unfold reflect
  rw [show (mirror r).context.stack.tail = r.context.stack.tail from Context.tail_rename _ _]
  rfl

theorem nextRound_mirrors {control : Control Empirical} (h : nextRound task s = .ok control t) :
    ParticleFilter.nextRound task.plain (mirror s) = .ok control (reflect control t) := by
  unfold nextRound at h
  simp only [bind_eq_ok, Run.engine_eq_ok] at h
  obtain ⟨_, r, hb, _, _, ⟨rfl, rfl⟩, h⟩ := h
  unfold ParticleFilter.nextRound
  rw [bind_ok (barrier_mirrors idle hb), Run.engine_bind]
  have hf : (mirror r).engine.population.firstRunning? = r.engine.population.firstRunning? :=
    Population.firstRunning?_bare _
  rw [hf]
  cases hf : r.engine.population.firstRunning? with
  | none =>
    simp only [hf] at h
    exact finish_mirrors idle h
  | some first =>
    simp only [hf] at h
    exact turnTo_mirrors h

section
variable {control : Control Empirical}

omit idle in
/-- The choice that is recorded besides is not looked at. -/
theorem onSample_mirrors {choice : Choice} {deliver : Delivery}
    (h : (handler task).onSample choice deliver s = .ok control t) :
    (ParticleFilter.handler task.plain).onSample choice deliver (mirror s) =
      .ok control (reflect control t) := by
  simp only [handler, setPopulation, bind_eq_ok, pure_eq_ok, Run.draw_eq_ok, Run.ofExcept_eq_ok,
    Run.engine_eq_ok, Run.modifyEngine_eq_ok] at h
  obtain ⟨value, _, ⟨g, hd, rfl⟩, _, _, ⟨_, rfl⟩, _, _, ⟨_, rfl⟩, _, _, ⟨rfl, rfl⟩,
    particle, _, ⟨hp, rfl⟩, _, _, rfl, rfl, rfl⟩ := h
  have hm := mirror_place (s := ⟨s.engine, { s.context with rng := g }⟩)
    (Particle.recordChoice_alike hp).bare
  have hd' := Run.draw_ok (s := mirror s) hd
  change (Run.draw (choice.dist.draw choice.params) >>= _) (mirror s) =
    .ok _ (mirror (place _ particle _))
  rw [bind_ok hd', hm]
  rfl

theorem onFactor_mirrors {point : Factor} {resume : Continuation}
    (h : (handler task).onFactor point resume s = .ok control t) :
    (ParticleFilter.handler task.plain).onFactor point resume (mirror s) =
      .ok control (reflect control t) := by
  simp only [handler, bind_eq_ok, Run.engine_eq_ok] at h
  obtain ⟨_, _, ⟨rfl, rfl⟩, _, r, hp, _, _, ⟨rfl, rfl⟩, h⟩ := h
  have hp' := setPopulation_mirrors (g := (·.park point resume)) rfl hp
  have hb : (mirror r).engine.population.atBarrier = r.engine.population.atBarrier :=
    Population.atBarrier_bare _
  have hj : (mirror r).engine.population.nextRunning? = r.engine.population.nextRunning? :=
    Population.nextRunning?_bare _
  simp only [ParticleFilter.handler]
  rw [Run.engine_bind, bind_ok hp', Run.engine_bind, hb, hj]
  split at h <;> rename_i hc
  · rw [if_pos hc]
    exact nextRound_mirrors idle h
  · rw [if_neg hc]
    exact turnTo_mirrors h

theorem onExit_mirrors {store : Store} {value : Value}
    (h : (handler task).onExit store value s = .ok control t) :
    (ParticleFilter.handler task.plain).onExit store value (mirror s) =
      .ok control (reflect control t) := by
  simp only [handler, bind_eq_ok, Run.engine_eq_ok] at h
  obtain ⟨_, _, ⟨rfl, rfl⟩, _, _, ⟨rfl, rfl⟩, _, r, hl, _, _, ⟨rfl, rfl⟩, h⟩ := h
  have hl' := setPopulation_mirrors (g := (·.complete store value)) rfl hl
  have hb : (mirror s).engine.population.atBarrier = s.engine.population.atBarrier :=
    Population.atBarrier_bare _
  have hj : (mirror r).engine.population.nextRunning? = r.engine.population.nextRunning? :=
    Population.nextRunning?_bare _
  simp only [ParticleFilter.handler]
  rw [Run.engine_bind, Run.engine_bind, bind_ok hl', Run.engine_bind, hb, hj]
  cases hn : r.engine.population.nextRunning? with
  | none =>
    simp only [hn] at h
    exact finish_mirrors idle h
  | some j =>
    simp only [hn] at h
    split at h <;> rename_i hc
    · simp only [hc, ↓reduceIte]
      exact nextRound_mirrors idle h
    · simp only [hc, Bool.false_eq_true, ↓reduceIte]
      exact turnTo_mirrors h

theorem answer_mirrors {step : Step} (h : (handler task).answer step s = .ok control t) :
    (ParticleFilter.handler task.plain).answer step (mirror s) =
      .ok control (reflect control t) := by
  rw [Handler.answer_of_active ((Context.active?_rename _ _).trans (Handler.active_of_answer h))]
  cases step with
  | sample choice deliver => exact onSample_mirrors (Handler.answer_sample h)
  | factor point resume =>
    obtain ⟨hn, ha⟩ := Handler.answer_factor h
    unfold Handler.method
    simp only [hn, Bool.false_eq_true, ↓reduceIte]
    exact onFactor_mirrors idle ha
  | exit store value => exact onExit_mirrors idle (Handler.answer_exit h)

end

/-- The particle filter answers effect by effect as the filter with idle rejuvenation does. -/
theorem dispatch_mirrors {fuel : Nat} {next : Resume} {result : Empirical}
    (h : (handler task).dispatch fuel next s = .ok result t) :
    (ParticleFilter.handler task.plain).dispatch fuel next (mirror s) =
      .ok result ⟨t.engine.bare, t.context⟩ := by
  -- One way only: a choice that cannot be scored stops this filter, but not the plain one.
  induction fuel generalizing next s with
  | zero => exact absurd h throw_ne_ok
  | succ fuel ih =>
    rw [Handler.dispatch] at h ⊢
    obtain ⟨control, r, ha, h⟩ := bind_eq_ok.mp h
    rw [bind_ok (answer_mirrors idle ha)]
    cases control with
    | resume next => exact ih h
    | done d =>
      obtain ⟨rfl, rfl⟩ := pure_eq_ok.mp h
      rfl

end

end RejuvenatingFilter

namespace ParticleFilter

variable {n : Nat} {task : Task} {s₀ s : Session (ParticleFilter n)} {moment : Moment}

/-- The particle filter counts its population at the start, and after that it notes barriers only.
-/
theorem Reaches.counts (h₀ : s₀.engine.metrics = .ofPopulation n) (h : Reaches task s₀ moment s) :
    s.engine.metrics = { Metrics.ofPopulation n with barriers := s.engine.metrics.barriers } := by
  induction h with
  | start =>
    rw [h₀]
  | sample before effect chosen ih =>
    simp only [handler, bind_eq_ok, Run.draw_eq_ok, pure_eq_ok] at chosen
    obtain ⟨_, _, ⟨_, _, rfl⟩, _, rfl⟩ := chosen
    exact ih
  | factor before effect parked ih =>
    obtain rfl := Run.modifyEngine_eq_ok.mp parked
    exact ih
  | exit before effect left ih =>
    obtain rfl := Run.modifyEngine_eq_ok.mp left
    exact ih
  | turn before turn ih | round before running turn ih =>
    obtain ⟨_, rfl⟩ := turnTo_eq_ok turn
    exact ih
  | barrier before passed ih =>
    obtain ⟨_, _, _, _, ht⟩ := barrier_eq_ok passed
    rw [ht]
    unfold Metrics.pushBarrier
    rw [ih]
  | exited before running ih => exact ih

end ParticleFilter

/-- Rejuvenation without steps is the lenient particle filter. A run that comes to a result comes to
the same one there, counters and barriers included, and leaves the same context with the same state
of the generator; no move is counted. -/
theorem idle_rejuvenation_filters {fuel : Nat} {config : RejuvenationConfig} {program : Program}
    {address : Address} {store : Store} {context context' : Context} {inference : Inference}
    (idle : config.steps = 0)
    (h : RejuvenatingFilter.run fuel config program address store context =
      .ok inference context') :
    ParticleFilter.run fuel { particles := config.particles, strict := false } program address store
        context = .ok inference context' ∧
      inference.metrics.rejuvenationMoves = 0 ∧ inference.metrics.rejuvenationAccepted = 0 := by
  unfold RejuvenatingFilter.run RejuvenatingFilter.install at h
  split at h <;> rename_i pos
  · simp only [bind_eq_ok, InContext.install_eq_ok, pure_eq_ok] at h
    obtain ⟨_, _, ⟨_, _, ⟨rfl, rfl⟩, rfl, rfl⟩, ⟨result, engine⟩, c, hd, rfl, rfl⟩ := h
    have hd := RejuvenatingFilter.dispatch_mirrors idle
      (Run.guarding_eq_ok.mp (Run.inContext_eq_ok.mp hd))
    rw [RejuvenatingFilter.mirror_start] at hd
    let s₀ : Session (ParticleFilter config.particles) :=
      ⟨.start pos (program.entry address) store, (context.install "particle-filter").2⟩
    have hd : (ParticleFilter.handler ⟨⟨context.next⟩, false⟩).drive fuel
        s₀.engine.population.resumeCurrent s₀ = .ok result ⟨engine.bare, c⟩ :=
      Run.guarding_eq_ok.mpr hd
    obtain ⟨s, hs, he, _⟩ := ParticleFilter.drive_leads hd
    have hc := hs.counts rfl
    rw [← he] at hc
    refine ⟨?_, congrArg Metrics.rejuvenationMoves hc, congrArg Metrics.rejuvenationAccepted hc⟩
    unfold ParticleFilter.run ParticleFilter.install
    rw [dif_pos pos]
    simp only [bind_eq_ok, InContext.install_eq_ok, pure_eq_ok]
    exact ⟨_, _, ⟨_, _, ⟨rfl, rfl⟩, rfl, rfl⟩, _, _, Run.inContext_eq_ok.mpr hd, rfl, rfl⟩
  · exact absurd h (by simp [bind_eq_ok, InContext.fail, throw_ne_ok])

/-- Two particles, two barriers, and restricted rejuvenation that takes no steps and would collect them
all. At the first barrier the particle that shows tails gives way to the other. -/
theorem weighedFlips_filtered_idle :
    let program := weighedFlips [("first", -1000), ("second", 0)] []
    let config : RejuvenationConfig :=
      { particles := 2, steps := 0, restricted := true, collectAll := true }
    let context : Context := { rng := sidesRng [true, false, false, true] }
    config.steps = 0 ∧ ∃ inference context',
      RejuvenatingFilter.run 12 config program .root default context = .ok inference context' ∧
      inference.metrics.barriers.length = 2 ∧
      ParticleFilter.run 12 { particles := config.particles, strict := false } program .root default
        context = .ok inference context' ∧
      inference.metrics.rejuvenationMoves = 0 ∧ inference.metrics.rejuvenationAccepted = 0 := by
  intro program config context
  have ran : succeedsWith (fun inference _ => inference.metrics.barriers.length == 2)
      (RejuvenatingFilter.run 12 config program .root default context) = true := by
    decide +kernel
  obtain ⟨inference, context', h, ran⟩ := exists_of_succeedsWith ran
  exact ⟨rfl, inference, context', h, beq_iff_eq.mp ran, idle_rejuvenation_filters rfl h⟩

end Posterior
