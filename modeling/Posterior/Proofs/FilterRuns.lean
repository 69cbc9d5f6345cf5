import Posterior.ParticleFilter
import Posterior.Proofs.Outcomes

/-!
The moments of a run of the particle filter. Every run that comes to a result passes through these
moments only.
-/

namespace Posterior.ParticleFilter

variable {n : Nat}

inductive Moment where
  /-- The active particle is about to be resumed. -/
  | awaiting (next : Resume)
  /-- The active particle has passed its factor, or has exited while others run; it may be the one
  that closes the round. -/
  | turned (closes : Bool)
  /-- A barrier has just been passed. -/
  | barred
  /-- No particle is running any more. -/
  | exited

/-- The moment after an exit. -/
def Moment.afterExit (closes : Bool) (p : Population n) : Moment :=
  if p.nextRunning?.isNone then .exited else .turned closes

/-- The moments that a run passes through from the session `s₀` on. -/
inductive Reaches (task : Task) (s₀ : Session (ParticleFilter n)) :
    Moment → Session (ParticleFilter n) → Prop where
  | start : Reaches task s₀ (.awaiting s₀.engine.population.resumeCurrent) s₀
  | sample {next next' : Resume} {s t : Session (ParticleFilter n)} {choice : Choice}
      {deliver : Delivery} (before : Reaches task s₀ (.awaiting next) s)
      (effect : next.invoke = .sample choice deliver)
      (chosen : (handler task).onSample choice deliver s = .ok (.resume next') t) :
      Reaches task s₀ (.awaiting next') t
  | factor {next : Resume} {s t : Session (ParticleFilter n)} {point : Factor}
      {resume : Continuation} (before : Reaches task s₀ (.awaiting next) s)
      (effect : next.invoke = .factor point resume)
      (parked : setPopulation (s.engine.population.updateCurrent (·.park point resume)) s =
        .ok () t) :
      Reaches task s₀ (.turned t.engine.population.atBarrier) t
  | exit {next : Resume} {s t : Session (ParticleFilter n)} {store : Store} {value : Value}
      (before : Reaches task s₀ (.awaiting next) s)
      (effect : next.invoke = .exit store value)
      (left : setPopulation (s.engine.population.updateCurrent (·.complete store value)) s =
        .ok () t) :
      Reaches task s₀ (.afterExit s.engine.population.atBarrier t.engine.population) t
  | turn {next : Resume} {s t : Session (ParticleFilter n)}
      (before : Reaches task s₀ (.turned false) s)
      (turn : turnTo (s.engine.population.nextRunning?.getD s.engine.population.active) s =
        .ok (.resume next) t) :
      Reaches task s₀ (.awaiting next) t
  | barrier {s t : Session (ParticleFilter n)} (before : Reaches task s₀ (.turned true) s)
      (passed : ParticleFilter.barrier task s = .ok () t) : Reaches task s₀ .barred t
  | round {next : Resume} {s t : Session (ParticleFilter n)} {first : Fin n}
      (before : Reaches task s₀ .barred s)
      (running : s.engine.population.firstRunning? = some first)
      (turn : turnTo first s = .ok (.resume next) t) : Reaches task s₀ (.awaiting next) t
  | exited {s : Session (ParticleFilter n)} (before : Reaches task s₀ .barred s)
      (running : s.engine.population.firstRunning? = none) : Reaches task s₀ .exited s

theorem turnTo_eq_ok {i : Fin n} {control : Control Empirical} {s t : Session (ParticleFilter n)}
    (h : turnTo i s = .ok control t) :
    control = .resume (s.engine.population.activate i).resumeCurrent ∧
      t = { s with engine := { s.engine with population := s.engine.population.activate i } } := by
  unfold turnTo setPopulation at h
  simp only [bind_eq_ok, Run.engine_eq_ok, Run.modifyEngine_eq_ok, pure_eq_ok] at h
  obtain ⟨_, _, ⟨rfl, rfl⟩, _, _, rfl, rfl, rfl⟩ := h
  exact ⟨rfl, rfl⟩

theorem barrier_eq_ok {task : Task} {s t : Session (ParticleFilter n)}
    (h : barrier task s = .ok () t) :
    ∃ q noted g, s.engine.population.resample task.strict "particle-filter"
        s.engine.metrics.barriers.length s.context.rng = .ok (q, noted) g ∧
      t.engine = ⟨q, s.engine.metrics.pushBarrier noted⟩ := by
  unfold barrier at h
  simp only [bind_eq_ok, Run.engine_eq_ok, Run.draw_eq_ok, Run.setEngine_eq_ok] at h
  obtain ⟨_, _, ⟨rfl, rfl⟩, ⟨q, noted⟩, _, ⟨g, hr, rfl⟩, rfl⟩ := h
  exact ⟨q, noted, g, hr, rfl⟩

variable {task : Task} {s₀ : Session (ParticleFilter n)}

/-- What an answer leads to. The result is made of the population that has exited. -/
def Leads (task : Task) (s₀ : Session (ParticleFilter n)) (control : Control Empirical)
    (t : Session (ParticleFilter n)) : Prop :=
  match control with
  | .resume next => Reaches task s₀ (.awaiting next) t
  | .done result => ∃ s, Reaches task s₀ .exited s ∧ t.engine = s.engine ∧
      ∃ d, Empirical.ofHistogram s.engine.population.histogram = .ok d ∧
        result = d.withLogNormalizer s.engine.population.logNormalizer

theorem finish_leads {s t : Session (ParticleFilter n)} {control : Control Empirical}
    (hr : Reaches task s₀ .exited s) (h : finish task s = .ok control t) :
    Leads task s₀ control t := by
  unfold finish at h
  simp only [bind_eq_ok, Run.engine_eq_ok, Run.ofExcept_eq_ok, pure_eq_ok] at h
  obtain ⟨_, _, ⟨rfl, rfl⟩, d, _, ⟨hd, rfl⟩, _, _, hres, rfl, rfl⟩ := h
  exact ⟨s, hr, Run.restore_engine hres, d, hd, rfl⟩

theorem nextRound_leads {s t : Session (ParticleFilter n)} {control : Control Empirical}
    (hr : Reaches task s₀ (.turned true) s) (h : nextRound task s = .ok control t) :
    Leads task s₀ control t := by
  unfold nextRound at h
  simp only [bind_eq_ok, Run.engine_eq_ok] at h
  obtain ⟨_, r, hb, _, _, ⟨rfl, rfl⟩, h⟩ := h
  have hm := hr.barrier hb
  cases hf : r.engine.population.firstRunning? with
  | none =>
    simp only [hf] at h
    exact finish_leads (hm.exited hf) h
  | some first =>
    simp only [hf] at h
    obtain ⟨rfl, _⟩ := turnTo_eq_ok h
    exact hm.round hf h

theorem answer_leads {next : Resume} {s t : Session (ParticleFilter n)}
    {control : Control Empirical} (hr : Reaches task s₀ (.awaiting next) s)
    (h : (handler task).answer next.invoke s = .ok control t) : Leads task s₀ control t := by
  cases hi : next.invoke with
  | sample choice deliver =>
    rw [hi] at h
    have ha := Handler.answer_sample h
    have hc := ha
    simp only [handler, bind_eq_ok, pure_eq_ok] at hc
    obtain ⟨_, _, _, rfl, rfl⟩ := hc
    exact hr.sample hi ha
  | factor point resume =>
    rw [hi] at h
    obtain ⟨_, ha⟩ := Handler.answer_factor h
    simp only [handler, bind_eq_ok, Run.engine_eq_ok] at ha
    obtain ⟨_, _, ⟨rfl, rfl⟩, _, r, hp, _, _, ⟨rfl, rfl⟩, ha⟩ := ha
    have hm := hr.factor hi hp
    split at ha <;> rename_i hb
    · rw [hb] at hm
      exact nextRound_leads hm ha
    · rw [Bool.not_eq_true] at hb
      rw [hb] at hm
      obtain ⟨rfl, _⟩ := turnTo_eq_ok ha
      exact hm.turn ha
  | exit store value =>
    rw [hi] at h
    have ha := Handler.answer_exit h
    simp only [handler, bind_eq_ok, Run.engine_eq_ok] at ha
    obtain ⟨_, _, ⟨rfl, rfl⟩, _, _, ⟨rfl, rfl⟩, _, r, hl, _, _, ⟨rfl, rfl⟩, ha⟩ := ha
    have hm := hr.exit hi hl
    unfold Moment.afterExit at hm
    cases hn : r.engine.population.nextRunning? with
    | none =>
      simp only [hn, Option.isNone_none, ↓reduceIte] at ha hm
      exact finish_leads hm ha
    | some j =>
      simp only [hn, Option.isNone_some, Bool.false_eq_true, ↓reduceIte] at ha hm
      split at ha <;> rename_i hb
      · rw [hb] at hm
        exact nextRound_leads hm ha
      · rw [Bool.not_eq_true] at hb
        rw [hb] at hm
        obtain ⟨rfl, _⟩ := turnTo_eq_ok ha
        exact hm.turn (by rw [hn]; exact ha)

/-- Every moment between two effects of a run is one of its moments. -/
theorem passes_leads {next : Resume} {s : Session (ParticleFilter n)}
    (h : (handler task).Passes s₀.engine.population.resumeCurrent s₀ next s) :
    Reaches task s₀ (.awaiting next) s :=
  h.induction (P := fun next s => Reaches task s₀ (.awaiting next) s) .start
    fun _ _ _ _ reached answered => answer_leads reached answered

/-- A run that comes to a result made it when all particles had exited. -/
theorem drive_leads {fuel : Nat} {result : Empirical} {t : Session (ParticleFilter n)}
    (h : (handler task).drive fuel s₀.engine.population.resumeCurrent s₀ = .ok result t) :
    Leads task s₀ (.done result) t := by
  refine Handler.dispatch_induction
    (P := fun next s => Reaches task s₀ (.awaiting next) s)
    (Q := fun result s => Leads task s₀ (.done result) s)
    ?_ .start (Run.guarding_eq_ok.mp h)
  intro next s control t hr ha
  have hl := answer_leads hr ha
  cases control <;> exact hl

end Posterior.ParticleFilter
