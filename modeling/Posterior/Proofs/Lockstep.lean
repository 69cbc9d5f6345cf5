import Posterior.Proofs.FilterRuns
import Posterior.Proofs.RejuvenationCoherence
import Posterior.Proofs.Turns

/-!
Barriers in lockstep. Between two barriers every running particle takes exactly one turn, so that
at barrier number `b` those that have not exited stand right behind the factor with that number,
whoever closes the round and however.
-/

namespace Posterior

open Numeric

/-- The weight that the latest barrier has left all particles with; zero before the first one. -/
def lastWeight (barriers : List Barrier) : Float :=
  (barriers.getLast?.map (·.logMeanWeight)).getD 0

namespace Particle

/-- The particle is parked right after factor number `b`, with the continuation and the store that
came with the factor. `stands` says which steps its execution can have come to. -/
def Behind (stands : Nat → Step → Prop) (b : Nat) (p : Particle) : Prop :=
  ∃ point resume, stands b (.factor point resume) ∧ p.factorCount = b + 1 ∧
    p.resume = resume ∧ p.store = point.store

theorem Behind.comesTo {root : Step} {b : Nat} {p : Particle} (h : p.Behind root.ComesTo b) :
    root.ComesTo (b + 1) (p.resume p.store) := by
  obtain ⟨point, resume, hs, _, hr, hst⟩ := h
  rw [hr, hst]
  exact .factor hs

end Particle

namespace Population

variable {n : Nat} {o p q : Population n} {barriers : List Barrier} {b : Nat}
  {stands : Particle → Nat → Step → Prop}

/-- All particles weigh what the latest barrier has left: negative infinity if it was degenerate. -/
structure Weighed (p : Population n) (barriers : List Barrier) : Prop where
  weight : ∀ i, (p.particles.get i).weight = lastWeight barriers
  degenerate : ∀ noted ∈ barriers, noted.degenerate = true → noted.logMeanWeight = negInf

/-- As a barrier leaves a population: those that are running have passed one factor for every
barrier. -/
structure Level (p : Population n) (barriers : List Barrier) : Prop
    extends p.Weighed barriers where
  count : ∀ i, p.isRunning i = true → (p.particles.get i).factorCount = barriers.length

/-- All particles have exited with a value. -/
structure Final (p : Population n) (barriers : List Barrier) : Prop
    extends p.Weighed barriers where
  exited : ∀ i, p.isRunning i = false
  value : ∀ i, (p.particles.get i).value.isSome = true

/-- What a barrier meets. Since `o` every particle has taken its one turn, and those that are
running are parked right after factor number `b`. -/
structure InLockstep (stands : Particle → Nat → Step → Prop) (o p : Population n) (b : Nat) :
    Prop where
  turns : ∀ i, (o.particles.get i).TookTurn (p.particles.get i)
  parked : ∀ i, p.isRunning i = true → (p.particles.get i).Behind (stands (p.particles.get i)) b

/-- What a barrier leaves behind: it has been noted under its number, the population has kept its
size, and the particles that are running are parked where they were, after factor number `b`. -/
structure PastBarrier (stands : Particle → Nat → Step → Prop) (p : Population n)
    (before barriers : List Barrier) : Prop where
  noted : ∃ noted, barriers = before ++ [noted] ∧ noted.index = before.length
  size : p.particles.toList.length = n
  parked : ∀ i, p.isRunning i = true →
    (p.particles.get i).Behind (stands (p.particles.get i)) before.length

/-- At the end of a round the running particles have passed one more factor. -/
theorem Level.closed (h : o.Level barriers) (ha : o.Acted p) (hc : p.Closing true) :
    p.Closed barriers.length := by
  intro i hi
  obtain ⟨hr, _, _, _, hcount, _⟩ := (ha.turns hc i).passed_of_running hi
  rw [hcount, h.count i hr]

/-- Particles that exit take their weights along. -/
theorem Level.exit (h : o.Level barriers) (ha : o.Acted p) (hn : ∀ i, p.isRunning i = false) :
    p.Weighed barriers :=
  ⟨fun i => ((ha.turns (fun j _ => hn j) i).exited (hn i)).1.trans (h.weight i), h.degenerate⟩

theorem InLockstep.closed (h : InLockstep stands o p b) : p.Closed b := by
  intro i hi
  obtain ⟨_, _, _, hc, _⟩ := h.parked i hi
  exact hc

/-- Resampling copies particles together with the places where they are parked. -/
theorem InLockstep.parked_resample {stands : Nat → Step → Prop} {strict : Bool} {algorithm : String}
    {index : Nat} {noted : Barrier} {g g' : Rng} (h : InLockstep (fun _ => stands) o p b)
    (hr : p.resample strict algorithm index g = .ok (q, noted) g') {i : Fin n}
    (hi : q.isRunning i = true) : (q.particles.get i).Behind stands b := by
  obtain ⟨j, hj⟩ := (resample_eq_ok hr).2 i
  unfold isRunning at hi
  rw [hj] at hi ⊢
  exact h.parked j hi

/-- A population whose running particles have all passed the round is level once it is resampled. -/
theorem Closed.level {strict : Bool} {algorithm : String} {index : Nat} {noted : Barrier}
    {g g' : Rng} (h : p.Closed barriers.length)
    (hbar : ∀ noted ∈ barriers, noted.degenerate = true → noted.logMeanWeight = negInf)
    (hr : p.resample strict algorithm index g = .ok (q, noted) g') :
    q.Level (barriers ++ [noted]) := by
  refine ⟨⟨?_, ?_⟩, ?_⟩
  · intro i
    obtain ⟨j, hj⟩ := (resample_eq_ok hr).2 i
    simp [hj, lastWeight]
  · intro b hb hd
    rcases List.mem_append.mp hb with hb | hb
    · exact hbar b hb hd
    · obtain rfl := List.mem_singleton.mp hb
      rcases resample_cases hr with ⟨_, _, hn, _⟩ | ⟨_, hw, _⟩
      · rw [hd] at hn
        cases hn
      · exact hw
  · intro i hi
    rw [h.resample hr i hi, List.length_append]
    rfl

end Population

namespace ParticleFilter

variable {n : Nat} {root : Step} {task : Task} {s₀ s t : Session (ParticleFilter n)}

/-- A round starts here: at the start of a run, or at a barrier. -/
def Opens (task : Task) (s₀ s : Session (ParticleFilter n)) : Prop :=
  s = s₀ ∨ Reaches task s₀ .barred s

/-- What holds of the filter at the start of a round. -/
structure Opened (root : Step) (e : ParticleFilter n) : Prop where
  level : e.population.Level e.metrics.barriers
  course : ∀ i, e.population.isRunning i = true → root.ComesTo e.metrics.barriers.length
    ((e.population.particles.get i).resume (e.population.particles.get i).store)
  value : ∀ i, e.population.isRunning i = false →
    (e.population.particles.get i).value.isSome = true

/-- `P` holds of the population at the start of the round. -/
def Since (root : Step) (task : Task) (s₀ s : Session (ParticleFilter n))
    (P : Population n → Prop) : Prop :=
  ∃ t, Opens task s₀ t ∧ Opened root t.engine ∧
    t.engine.metrics.barriers = s.engine.metrics.barriers ∧ P t.engine.population

/-- What holds at each moment of a run. -/
def InStep (root : Step) (task : Task) (s₀ : Session (ParticleFilter n)) :
    Moment → Session (ParticleFilter n) → Prop
  | .awaiting next, s => Since root task s₀ s (·.Acting s.engine.population next.invoke)
  | .turned closes, s => Since root task s₀ s (·.Acted s.engine.population) ∧
      s.engine.population.Closing closes
  | .barred, s => Opened root s.engine
  | .exited, s => s.engine.population.Final s.engine.metrics.barriers

theorem Opened.inLockstep {e : ParticleFilter n} {p : Population n} (h : Opened root e)
    (ha : e.population.Acted p) (hc : p.Closing true) :
    e.population.InLockstep (fun _ => root.ComesTo) p e.metrics.barriers.length := by
  refine ⟨ha.turns hc, fun i hi => ?_⟩
  obtain ⟨hr, point, resume, hcourse, hcount, hresume, hstore⟩ :=
    (ha.turns hc i).passed_of_running hi
  rw [h.level.count i hr] at hcount
  exact ⟨point, resume, (h.course i hr).trans hcourse, hcount, hresume, hstore⟩

/-- Whoever has exited, in this round or before, has a value. -/
theorem Opened.valued {e : ParticleFilter n} {p : Population n} (h : Opened root e)
    (ht : ∀ i, (e.population.particles.get i).TookTurn (p.particles.get i)) {i : Fin n}
    (hi : p.isRunning i = false) : (p.particles.get i).value.isSome = true := by
  rcases ((ht i).exited hi).2 with ⟨hi, hv⟩ | hv
  · rw [hv]
    exact h.value i hi
  · exact hv

theorem Opened.final {e : ParticleFilter n} {p : Population n} (h : Opened root e)
    (ha : e.population.Acted p) (hn : ∀ i, p.isRunning i = false) : p.Final e.metrics.barriers :=
  ⟨h.level.exit ha hn, hn, fun i => h.valued (ha.turns fun j _ => hn j) (hn i)⟩

/-- Behind a barrier the next round starts. -/
theorem barrier_opened {e : ParticleFilter n} (h : Opened root e)
    (hb : e.metrics.barriers = s.engine.metrics.barriers)
    (ha : e.population.Acted s.engine.population) (hc : s.engine.population.Closing true)
    (passed : barrier task s = .ok () t) :
    Opened root t.engine ∧ t.engine.population.PastBarrier (fun _ => root.ComesTo)
      s.engine.metrics.barriers t.engine.metrics.barriers := by
  obtain ⟨q, noted, g, hr, ht⟩ := barrier_eq_ok passed
  have hl := h.inLockstep ha hc
  rw [hb] at hl
  have hparked := fun i => hl.parked_resample hr (i := i)
  rw [ht]
  refine ⟨⟨hl.closed.level (hb ▸ h.level.degenerate) hr, fun i hi => ?_, fun i hi => ?_⟩,
    ⟨noted, rfl, Population.resample_index hr⟩, by simp, hparked⟩
  · simpa [Metrics.pushBarrier] using (hparked i hi).comesTo
  · obtain ⟨j, hj⟩ := (Population.resample_eq_ok hr).2 i
    unfold Population.isRunning at hi
    rw [hj] at hi ⊢
    exact h.valued hl.turns hi

theorem Reaches.inStep {moment : Moment} (h₀ : Opened root s₀.engine)
    (ha : s₀.engine.population.Acting s₀.engine.population
      s₀.engine.population.resumeCurrent.invoke)
    (h : Reaches task s₀ moment s) : InStep root task s₀ moment s := by
  induction h with
  | start => exact ⟨s₀, .inl rfl, h₀, rfl, ha⟩
  | sample before effect chosen ih =>
    obtain ⟨t, ho, hop, hb, ha⟩ := ih
    rw [effect] at ha
    simp only [handler, bind_eq_ok, pure_eq_ok, Run.draw_eq_ok] at chosen
    obtain ⟨value, _, ⟨g, hd, rfl⟩, hnext, rfl⟩ := chosen
    cases hnext
    exact ⟨t, ho, hop, hb, ha.choose ⟨_, _, hd⟩⟩
  | @factor next s t point resume before effect parked ih =>
    obtain ⟨t, ho, hop, hb, ha⟩ := ih
    rw [effect] at ha
    obtain rfl := Run.modifyEngine_eq_ok.mp parked
    obtain ⟨hacted, hc⟩ := ha.factor (f := (·.park point resume)) (.refl _)
    exact ⟨⟨t, ho, hop, hb, hacted⟩, hc⟩
  | exit before effect left ih =>
    obtain ⟨t, ho, hop, hb, ha⟩ := ih
    rw [effect] at ha
    obtain rfl := Run.modifyEngine_eq_ok.mp left
    obtain ⟨hacted, hc⟩ := ha.exit
    unfold Moment.afterExit
    split <;> rename_i hn
    · rw [Option.isNone_iff_eq_none] at hn
      have hf := hop.final hacted (Population.nextRunning?_eq_none hn)
      rw [hb] at hf
      exact hf
    · exact ⟨⟨t, ho, hop, hb, hacted⟩, hc⟩
  | turn before turn ih =>
    obtain ⟨⟨t, ho, hop, hb, hacted⟩, hafter⟩ := ih
    obtain ⟨j, hnext, hj, hr, hk⟩ := Population.nextRunning?_after hafter
    rw [hnext] at turn
    obtain ⟨hcontrol, rfl⟩ := turnTo_eq_ok turn
    cases hcontrol
    exact ⟨t, ho, hop, hb, hacted.next hj hr hk⟩
  | barrier before passed ih =>
    obtain ⟨⟨t, ho, hop, hb, hacted⟩, hc⟩ := ih
    exact (barrier_opened hop hb hacted hc passed).1
  | @round next s t first before running turn ih =>
    obtain ⟨hcontrol, rfl⟩ := turnTo_eq_ok turn
    cases hcontrol
    exact ⟨s, .inr before, ih, rfl, Population.acting_first running⟩
  | exited before running ih =>
    have hn := Population.firstRunning?_eq_none running
    exact ⟨ih.level.toWeighed, hn, fun i => ih.value i (hn i)⟩

/-- Every barrier on record was passed by the population that closed its round. -/
theorem Reaches.recorded {moment : Moment} {b : Nat} {noted : Barrier}
    (fresh : s₀.engine.metrics.barriers = []) (h : Reaches task s₀ moment s)
    (recorded : s.engine.metrics.barriers[b]? = some noted) :
    ∃ r t q g, Reaches task s₀ (.turned true) r ∧ r.engine.metrics.barriers.length = b ∧
      r.engine.population.resample task.strict "particle-filter" b r.context.rng =
        .ok (q, noted) g ∧
      ParticleFilter.barrier task r = .ok () t := by
  induction h with
  | start => simp [fresh] at recorded
  | sample before effect chosen ih =>
    simp only [handler, bind_eq_ok, pure_eq_ok, Run.draw_eq_ok] at chosen
    obtain ⟨_, _, ⟨_, _, rfl⟩, _, rfl⟩ := chosen
    exact ih recorded
  | factor before effect parked ih =>
    obtain rfl := Run.modifyEngine_eq_ok.mp parked
    exact ih recorded
  | exit before effect left ih =>
    obtain rfl := Run.modifyEngine_eq_ok.mp left
    exact ih recorded
  | turn before turn ih =>
    obtain ⟨_, rfl⟩ := turnTo_eq_ok turn
    exact ih recorded
  | @barrier s t before passed ih =>
    obtain ⟨q, added, g, resampled, made⟩ := barrier_eq_ok passed
    rw [made] at recorded
    obtain earlier | ⟨rfl, rfl⟩ := recorded_snoc recorded
    · exact ih earlier
    · exact ⟨s, t, q, g, before, rfl, resampled, passed⟩
  | round before running turn ih =>
    obtain ⟨_, rfl⟩ := turnTo_eq_ok turn
    exact ih recorded
  | exited before running ih => exact ih recorded

/-- Each barrier of a run that comes to a result was passed at the end of a round. -/
theorem drive_passes {fuel b : Nat} {result : Empirical} (fresh : s₀.engine.metrics.barriers = [])
    (h : (handler task).drive fuel s₀.engine.population.resumeCurrent s₀ = .ok result t)
    (some : b < t.engine.metrics.barriers.length) :
    ∃ r u, Reaches task s₀ (.turned true) r ∧ r.engine.metrics.barriers.length = b ∧
      ParticleFilter.barrier task r = .ok () u := by
  obtain ⟨s, exited, same, _⟩ := drive_leads h
  rw [same] at some
  obtain ⟨r, u, _, _, reached, count, _, passed⟩ :=
    exited.recorded fresh (List.getElem?_eq_getElem some)
  exact ⟨r, u, reached, count, passed⟩

end ParticleFilter

namespace Particle

variable {root : Step} {p q : Particle}

/-- The particle's choices so far lead to the step, with `k` factors passed. -/
def Stands (root : Step) (p : Particle) (k : Nat) (step : Step) : Prop :=
  ∃ score, Replay anyScore (.start root) p.trace.entries ⟨step, score, k⟩

theorem Describes.behind {b : Nat} (h : p.Describes root) (hr : p.running = true)
    (hc : p.factorCount = b + 1) : p.Behind (p.Stands root) b := by
  obtain ⟨q, hq, ha⟩ := h
  rw [limit_of_running hr, hc] at ha
  obtain ⟨point, resume, hs, _, hf, hp⟩ := ha.cut
  obtain ⟨step, score, k⟩ := q
  obtain rfl : step = .factor point resume := hs
  obtain rfl : k = b := by
    have hk : k + 1 = b + 1 := congrArg Point.factors hp
    omega
  exact ⟨point, resume, ⟨score, hq⟩, hc, congrArg Frontier.resume hf, congrArg Frontier.store hf⟩

theorem recordChoice_alike {choice : Choice} {deliver : Delivery} {value : Value} {x : Float}
    (h : RejuvenatingFilter.recordChoice p choice deliver value x = .ok q) : p.Alike q := by
  unfold RejuvenatingFilter.recordChoice at h
  obtain ⟨trace, _, hq⟩ := except_bind_eq_ok.mp h
  cases hq
  rfl

end Particle

namespace RejuvenatingFilter

variable {n : Nat} {root : Step} {task : Task} {s₀ r s t : Session (RejuvenatingFilter n)}

theorem Moved.weighed (h : Moved s t)
    (hw : s.engine.population.Weighed s.engine.metrics.barriers) :
    t.engine.population.Weighed t.engine.metrics.barriers := by
  rw [h.barriers]
  exact ⟨fun i => (h.kept i).weight.trans (hw.weight i), hw.degenerate⟩

theorem Moved.level (h : Moved s t)
    (hl : s.engine.population.Level s.engine.metrics.barriers) :
    t.engine.population.Level t.engine.metrics.barriers := by
  refine ⟨h.weighed hl.toWeighed, fun i hi => ?_⟩
  rw [h.running i] at hi
  rw [h.barriers, (h.kept i).factorCount]
  exact hl.count i hi

/-- A round starts here: at the start of a run, or behind a barrier. -/
def Opens (task : Task) (s₀ s : Session (RejuvenatingFilter n)) : Prop :=
  s = s₀ ∨ Reaches task s₀ .barred s

/-- `P` holds of the population at the start of the round. -/
def Since (task : Task) (s₀ s : Session (RejuvenatingFilter n)) (P : Population n → Prop) : Prop :=
  ∃ t, Opens task s₀ t ∧ t.engine.population.Level t.engine.metrics.barriers ∧
    t.engine.metrics.barriers = s.engine.metrics.barriers ∧ P t.engine.population

/-- What holds at each moment of a run. -/
def InStep (task : Task) (s₀ : Session (RejuvenatingFilter n)) :
    Moment → Session (RejuvenatingFilter n) → Prop
  | .awaiting next, s => Since task s₀ s (·.Acting s.engine.population next.invoke)
  | .turned closes, s => Since task s₀ s (·.Acted s.engine.population) ∧
      s.engine.population.Closing closes
  | .barred, s => s.engine.population.Level s.engine.metrics.barriers
  | .exited, s | .done _, s => s.engine.population.Weighed s.engine.metrics.barriers

theorem Reaches.inStep {moment : Moment}
    (h₀ : s₀.engine.population.Level s₀.engine.metrics.barriers)
    (ha : s₀.engine.population.Acting s₀.engine.population
      s₀.engine.population.resumeCurrent.invoke)
    (h : Reaches task s₀ moment s) : InStep task s₀ moment s := by
  induction h with
  | start => exact ⟨s₀, .inl rfl, h₀, rfl, ha⟩
  | sample before effect chosen ih =>
    obtain ⟨t, ho, hl, hb, ha⟩ := ih
    rw [effect] at ha
    simp only [handler, setPopulation, bind_eq_ok, pure_eq_ok, Run.draw_eq_ok, Run.ofExcept_eq_ok,
      Run.engine_eq_ok, Run.modifyEngine_eq_ok, ensureNumber_eq_ok] at chosen
    obtain ⟨value, _, ⟨g, hd, rfl⟩, x, _, ⟨hx, rfl⟩, _, _, ⟨⟨rfl, hn⟩, rfl⟩, _, _, ⟨rfl, rfl⟩,
      particle, _, ⟨hp, rfl⟩, _, _, rfl, hnext, rfl⟩ := chosen
    cases hnext
    exact ⟨t, ho, hl, hb, (ha.choose ⟨_, _, hd⟩).record (Particle.recordChoice_alike hp)⟩
  | @factor next s t point resume before effect number parked ih =>
    obtain ⟨t, ho, hl, hb, ha⟩ := ih
    rw [effect] at ha
    obtain rfl := Run.modifyEngine_eq_ok.mp parked
    obtain ⟨hacted, hc⟩ := ha.factor (f := (parkScored · point resume)) rfl
    exact ⟨⟨t, ho, hl, hb, hacted⟩, hc⟩
  | exit before effect left ih =>
    obtain ⟨t, ho, hl, hb, ha⟩ := ih
    rw [effect] at ha
    obtain rfl := Run.modifyEngine_eq_ok.mp left
    obtain ⟨hacted, hc⟩ := ha.exit
    unfold Moment.afterExit
    split <;> rename_i hn
    · rw [Option.isNone_iff_eq_none] at hn
      have hw := hl.exit hacted (Population.nextRunning?_eq_none hn)
      rw [hb] at hw
      exact hw
    · exact ⟨⟨t, ho, hl, hb, hacted⟩, hc⟩
  | turn before turn ih =>
    obtain ⟨⟨t, ho, hl, hb, hacted⟩, hafter⟩ := ih
    obtain ⟨j, hnext, hj, hr, hk⟩ := Population.nextRunning?_after hafter
    rw [hnext] at turn
    obtain ⟨hcontrol, rfl⟩ := turnTo_eq_ok turn
    cases hcontrol
    exact ⟨t, ho, hl, hb, hacted.next hj hr hk⟩
  | barrier before passed ih =>
    obtain ⟨⟨t, ho, hl, hb, hacted⟩, hc⟩ := ih
    obtain ⟨q, noted, g, r, hr, he, hm⟩ := barrier_eq_ok passed
    have hm := forM_moved hm
    have hclosed := hl.closed hacted hc
    rw [hb] at hclosed
    refine hm.level ?_
    rw [he]
    exact hclosed.level (hb ▸ hl.degenerate) hr
  | @round next s t first before running turn ih =>
    obtain ⟨hcontrol, rfl⟩ := turnTo_eq_ok turn
    cases hcontrol
    exact ⟨s, .inr before, ih, rfl, Population.acting_first running⟩
  | exited before running ih => exact ih.toWeighed
  | pass before passed ih =>
    exact (foldlM_moved passed).weighed ih

end RejuvenatingFilter

theorem Population.start_acting {n : Nat} (pos : 0 < n) (entry : Continuation) (store : Store) :
    (start pos entry store).Acting (start pos entry store)
      (start pos entry store).resumeCurrent.invoke :=
  ⟨fun _ hi => absurd hi (Nat.not_lt_zero _), (start_underWay pos entry store).active, .refl _,
    .rest, fun _ _ => rfl⟩

theorem Population.start_level {n : Nat} (pos : 0 < n) (entry : Continuation) (store : Store) :
    (start pos entry store).Level [] := by
  refine ⟨⟨fun i => ?_, fun _ h => ?_⟩, fun i _ => ?_⟩
  · rw [get_start]
    rfl
  · cases h
  · rw [get_start]
    rfl

theorem ParticleFilter.start_opened {n : Nat} (pos : 0 < n) (entry : Continuation) (store : Store) :
    (start pos entry store).Opened (entry store) := by
  refine ⟨Population.start_level pos entry store, fun i _ => ?_, fun i hi => ?_⟩
  · change (entry store).ComesTo 0 (((Population.start pos entry store).particles.get i).resume
      ((Population.start pos entry store).particles.get i).store)
    rw [Population.get_start]
    exact .rest
  · change (Population.start pos entry store).isRunning i = false at hi
    unfold Population.isRunning at hi
    rw [Population.get_start] at hi
    cases hi

end Posterior
