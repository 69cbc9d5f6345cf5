import Posterior.Proofs.MoverCoherence
import Posterior.Proofs.RejuvenationRuns
import Posterior.Proofs.Rounds

/-!
Coherence of a rejuvenated population: behind every barrier and at the end of a run each particle
describes one real execution of the program.
-/

namespace Posterior

open Numeric

namespace Particle

/-- The particle's choices so far lead the program to the step. -/
def At (root : Step) (p : Particle) (step : Step) : Prop :=
  Replay anyScore (.start root) p.trace.entries ⟨step, p.score, p.factorCount⟩

/-- A particle that is not active: it describes an execution, or it has not passed a factor yet and
carries on from the start of the program. -/
def Suspended (root : Step) (p : Particle) : Prop :=
  p.Describes root ∨ (p.running = true ∧ p.factorCount = 0 ∧ p.At root (p.resume p.store))

variable {root : Step} {p : Particle}

theorem limit_of_running (h : p.running = true) : p.limit = some p.factorCount := by
  unfold running at h
  simp only [Bool.not_eq_true'] at h
  simp [limit, h]

theorem limit_of_completed (h : p.running = false) : p.limit = none := by
  unfold running at h
  simp only [Bool.not_eq_false'] at h
  simp [limit, h]

/-- Resuming a suspended particle brings the program behind the factor that it is suspended at. -/
theorem Describes.at_resume (h : p.Describes root) (hr : p.running = true) :
    p.At root (p.resume p.store) := by
  obtain ⟨q, hq, ha⟩ := h
  rw [limit_of_running hr] at ha
  obtain ⟨point, resume, hs, hn, _, hp⟩ := ha.cut
  have hpass := hq.snoc_factor hs hn rfl
  rw [hp] at hpass
  exact hpass

theorem Suspended.at_resume (h : p.Suspended root) (hr : p.running = true) :
    p.At root (p.resume p.store) := by
  rcases h with h | ⟨_, _, h⟩
  · exact h.at_resume hr
  · exact h

theorem Suspended.describes (h : p.Suspended root)
    (hp : p.running = true → 0 < p.factorCount) : p.Describes root := by
  rcases h with h | ⟨hr, hz, _⟩
  · exact h
  · have := hp hr
    omega

/-- The weight is no part of the execution. -/
theorem Describes.reweigh (h : p.Describes root) (w : Float) :
    ({ p with weight := w } : Particle).Describes root := h

theorem Describes.raise (h : p.Describes root) (floor : Nat) :
    ({ p with regenFloor := floor } : Particle).Describes root := h

/-- A particle parked at a factor is suspended there. -/
theorem At.park {point : Factor} {resume : Continuation} (h : p.At root (.factor point resume))
    (hr : p.running = true) (hn : point.logWeight.isNaN = false) :
    (RejuvenatingFilter.parkScored p point resume).Describes root := by
  have hc : (RejuvenatingFilter.parkScored p point resume).running = true := hr
  unfold Describes
  rw [limit_of_running hc]
  exact ⟨_, h, .factor _ _ _ _ _ hn⟩

theorem At.complete {store : Store} {value : Value} (h : p.At root (.exit store value)) :
    (p.complete store value).Describes root := by
  unfold Describes
  rw [limit_of_completed rfl]
  exact ⟨_, h, .exit ..⟩

/-- A choice put on record is one that the program has asked for. -/
theorem At.record {q : Particle} {choice : Choice} {deliver : Delivery} {value : Value} {x : Float}
    (h : p.At root (.sample choice deliver))
    (hs : choice.dist.score choice.params value = .ok x) (hn : x.isNaN = false)
    (hq : RejuvenatingFilter.recordChoice p choice deliver value x = .ok q) :
    q.At root (deliver choice.store value) ∧ q.running = p.running ∧
      q.factorCount = p.factorCount := by
  unfold RejuvenatingFilter.recordChoice at hq
  simp only [except_bind_eq_ok] at hq
  obtain ⟨trace, ht, hq⟩ := hq
  cases hq
  refine ⟨?_, rfl, rfl⟩
  unfold At
  rw [Trace.entries_push ht]
  exact h.snoc_choice ⟨rfl, rfl, rfl, hs, hn⟩ rfl

end Particle

namespace RejuvenatingFilter

variable {n : Nat} {root : Step}

/-- Every particle but the active one is suspended. -/
def OthersSuspended (root : Step) (p : Population n) : Prop :=
  ∀ i, i ≠ p.active → (p.particles.get i).Suspended root

/-- Every particle describes one real execution of the program. -/
def AllDescribe (root : Step) (p : Population n) : Prop :=
  ∀ i, (p.particles.get i).Describes root

def AllExited (p : Population n) : Prop := ∀ i, p.isRunning i = false

/-- What holds of the filter at each moment of a run; the rounds are counted by the barriers. -/
def Holds (root : Step) : Moment → RejuvenatingFilter n → Prop
  | .awaiting next, e => e.population.UnderWay e.metrics.barriers.length ∧
      OthersSuspended root e.population ∧ e.population.current.At root next.invoke
  | .turned closes, e => e.population.Turned e.metrics.barriers.length ∧
      (∀ i, (e.population.particles.get i).Suspended root) ∧
      if closes then ∀ j, e.population.active < j → e.population.isRunning j = false
      else ∃ j, e.population.active < j ∧ e.population.isRunning j = true
  | .barred, e => (∃ b, e.metrics.barriers.length = b + 1 ∧ e.population.Closed b) ∧
      AllDescribe root e.population
  | .exited, e => AllExited e.population ∧ AllDescribe root e.population
  | .done _, e => AllExited e.population ∧ AllDescribe root e.population

/-- The turn of a suspended particle starts where it is suspended. -/
theorem activate_holds {e : RejuvenatingFilter n} {j : Fin n}
    (hu : (e.population.activate j).UnderWay e.metrics.barriers.length)
    (hs : ∀ i, (e.population.particles.get i).Suspended root) :
    Holds root (.awaiting (e.population.activate j).resumeCurrent)
      { e with population := e.population.activate j } :=
  ⟨hu, fun i _ => hs i, (hs j).at_resume hu.active⟩

theorem sample_holds {task : Task} {s t : Session (RejuvenatingFilter n)} {next next' : Resume}
    {choice : Choice} {deliver : Delivery} (h : Holds root (.awaiting next) s.engine)
    (effect : next.invoke = .sample choice deliver)
    (chosen : (handler task).onSample choice deliver s = .ok (.resume next') t) :
    Holds root (.awaiting next') t.engine := by
  obtain ⟨hu, hs, ha⟩ := h
  rw [effect] at ha
  simp only [handler, setPopulation, bind_eq_ok, pure_eq_ok, Run.draw_eq_ok, Run.ofExcept_eq_ok,
    Run.engine_eq_ok, Run.modifyEngine_eq_ok, ensureNumber_eq_ok] at chosen
  obtain ⟨value, _, ⟨g, _, rfl⟩, x, _, ⟨hx, rfl⟩, _, _, ⟨⟨rfl, hn⟩, rfl⟩, _, _, ⟨rfl, rfl⟩,
    particle, _, ⟨hp, rfl⟩, _, _, rfl, hnext, rfl⟩ := chosen
  cases hnext
  obtain ⟨hat, hrun, hcount⟩ := ha.record hx hn hp
  refine ⟨hu.keep hrun hcount, ?_, ?_⟩
  · intro i hi
    simp only [Population.active_setParticle] at hi
    simp only [Population.get_setParticle, if_neg (Ne.symm hi)]
    exact hs i hi
  · unfold Population.current
    simp only [Population.active_setParticle, Population.get_setParticle, ↓reduceIte]
    exact hat

/-- After its turn the active particle is suspended as well. -/
theorem turn_suspended {p : Population n} {f : Particle → Particle}
    (hs : OthersSuspended root p) (hf : (f p.current).Suspended root) (i : Fin n) :
    ((p.updateCurrent f).particles.get i).Suspended root := by
  unfold Population.updateCurrent
  rw [Population.get_setParticle]
  split
  · exact hf
  · rename_i hi
    exact hs i (Ne.symm hi)

theorem factor_holds {e : RejuvenatingFilter n} {next : Resume} {point : Factor}
    {resume : Continuation} (h : Holds root (.awaiting next) e)
    (effect : next.invoke = .factor point resume) (hn : point.logWeight.isNaN = false) :
    let p := e.population.updateCurrent (parkScored · point resume)
    Holds root (.turned p.atBarrier) { e with population := p } := by
  obtain ⟨hu, hs, ha⟩ := h
  rw [effect] at ha
  have hrun : e.population.current.running = true := hu.active
  have hc : e.population.current.factorCount = e.metrics.barriers.length :=
    hu.due _ (Nat.le_refl _) hu.active
  have hd := ha.park hrun hn
  intro p
  have ht : p.Turned e.metrics.barriers.length := by
    refine hu.turn fun _ => ?_
    rw [← hc]
    rfl
  refine ⟨ht, turn_suspended hs (.inl hd), Population.closing_atBarrier ?_⟩
  simp only [p, Population.updateCurrent, Population.isRunning_setParticle,
    Population.active_setParticle, ↓reduceIte]
  exact hrun

theorem exit_holds {e : RejuvenatingFilter n} {next : Resume} {store : Store} {value : Value}
    (h : Holds root (.awaiting next) e) (effect : next.invoke = .exit store value) :
    let p := e.population.updateCurrent (·.complete store value)
    Holds root (.afterExit e.population.atBarrier p) { e with population := p } := by
  obtain ⟨hu, hs, ha⟩ := h
  rw [effect] at ha
  have hsusp := turn_suspended (p := e.population) (f := (·.complete store value)) hs
    (.inl ha.complete)
  intro p
  unfold Moment.afterExit
  cases hnone : p.nextRunning? with
  | none =>
    have hexit := Population.nextRunning?_eq_none hnone
    refine ⟨hexit, fun i => (hsusp i).describes fun hr => ?_⟩
    have hi : p.isRunning i = true := hr
    rw [hexit i] at hi
    cases hi
  | some j =>
    have ht : p.Turned e.metrics.barriers.length :=
      hu.turn fun hr => absurd hr Bool.false_ne_true
    exact ⟨ht, hsusp, (Population.closing_atBarrier hu.active).update _⟩

/-- Only particles have been moved, and the barriers are as they were. -/
structure Moved (s t : Session (RejuvenatingFilter n)) : Prop where
  barriers : t.engine.metrics.barriers = s.engine.metrics.barriers
  kept : ∀ i, (s.engine.population.particles.get i).Kept (t.engine.population.particles.get i)

section
variable {task : Task} {r s t : Session (RejuvenatingFilter n)} {particle x : Particle}
  {limit : Option Nat} {histogram histogram' : Option Histogram} {moved : Rejuvenated} {i : Fin n}

theorem Moved.refl (s : Session (RejuvenatingFilter n)) : Moved s s :=
  ⟨rfl, fun _ => .refl _⟩

theorem Moved.trans (h : Moved r s) (h' : Moved s t) : Moved r t :=
  ⟨h'.barriers.trans h.barriers, fun i => (h.kept i).trans (h'.kept i)⟩

theorem Moved.running (h : Moved s t) (i : Fin n) :
    t.engine.population.isRunning i = s.engine.population.isRunning i :=
  (h.kept i).running

theorem Moved.closed {b : Nat} (h : Moved s t) (hc : s.engine.population.Closed b) :
    t.engine.population.Closed b := by
  intro i hi
  rw [h.running i] at hi
  rw [(h.kept i).factorCount]
  exact hc i hi

/-- The session after `r` with `x` in the place of a particle. -/
def place (i : Fin n) (x : Particle) (r : Session (RejuvenatingFilter n)) :
    Session (RejuvenatingFilter n) :=
  { r with engine := { r.engine with population := r.engine.population.setParticle i x } }

/-- A move works on a particle and counts its steps, no more. -/
theorem move_eq_ok (h : move task particle limit histogram s = .ok moved t) :
    particle.Kept moved.particle ∧ t.engine.population = s.engine.population ∧
      t.engine.metrics.barriers = s.engine.metrics.barriers ∧
      ∃ c c', rejuvenate task.fuel particle limit task.steps histogram c = .ok moved c' := by
  unfold move at h
  simp only [bind_eq_ok, Run.onContext_eq_ok, Run.modifyEngine_eq_ok, pure_eq_ok] at h
  obtain ⟨_, _, ⟨_, _, rfl⟩, _, _, ⟨c, hr, rfl⟩, _, _, rfl, rfl, rfl⟩ := h
  exact ⟨rejuvenate_kept hr, rfl, rfl, _, c, hr⟩

theorem move_describes (hd : particle.Describes root)
    (h : move task particle particle.limit histogram s = .ok moved t) :
    moved.particle.Describes root := by
  obtain ⟨_, _, _, _, _, hr⟩ := move_eq_ok h
  exact rejuvenate_describes hd hr

theorem move_moved (h : move task particle limit histogram s = .ok moved r)
    (hp : (s.engine.population.particles.get i).Kept particle) (hx : moved.particle.Kept x) :
    Moved s (place i x r) := by
  obtain ⟨hk, hpop, hb, _⟩ := move_eq_ok h
  refine ⟨hb, fun j => ?_⟩
  unfold place
  rw [hpop, Population.get_setParticle]
  split
  · rename_i hij
    rw [← hij]
    exact (hp.trans hk).trans hx
  · exact .refl _

theorem place_describe (h : move task particle limit histogram s = .ok moved r)
    (hd : AllDescribe root s.engine.population) (hx : x.Describes root) :
    AllDescribe root (place i x r).engine.population := by
  obtain ⟨_, hpop, _⟩ := move_eq_ok h
  intro j
  unfold place
  rw [hpop, Population.get_setParticle]
  split
  · exact hx
  · exact hd j

theorem moveRunning_eq_ok (h : moveRunning task i s = .ok () t) :
    s.engine.population.isRunning i = false ∧ t = s ∨
    s.engine.population.isRunning i = true ∧ ∃ moved r,
      move task (s.engine.population.particles.get i)
        (s.engine.population.particles.get i).limit none s = .ok moved r ∧
      t = place i (raiseFloor task moved.particle) r := by
  unfold moveRunning at h
  rw [bind_eq_ok] at h
  obtain ⟨_, _, he, h⟩ := h
  obtain ⟨rfl, rfl⟩ := Run.engine_eq_ok.mp he
  split at h
  · rename_i hr
    simp only [bind_eq_ok, Run.engine_eq_ok, setPopulation, Run.modifyEngine_eq_ok] at h
    obtain ⟨moved, r, hm, _, _, ⟨rfl, rfl⟩, rfl⟩ := h
    rw [← Particle.limit_of_running hr] at hm
    exact .inr ⟨hr, moved, r, hm, rfl⟩
  · rename_i hr
    obtain ⟨_, rfl⟩ := pure_eq_ok.mp h
    exact .inl ⟨by simpa using hr, rfl⟩

theorem moveExited_eq_ok (h : moveExited task histogram i s = .ok histogram' t) :
    ∃ moved r, move task { s.engine.population.particles.get i with regenFloor := 0 } none histogram
        s = .ok moved r ∧ histogram' = moved.histogram ∧ t = place i moved.particle r := by
  unfold moveExited at h
  simp only [bind_eq_ok, Run.engine_eq_ok, setPopulation, Run.modifyEngine_eq_ok, pure_eq_ok] at h
  obtain ⟨_, _, ⟨rfl, rfl⟩, moved, r, hm, _, _, ⟨rfl, rfl⟩, _, _, rfl, rfl, rfl⟩ := h
  exact ⟨moved, r, hm, rfl, rfl⟩

theorem moveRunning_moved (h : moveRunning task i s = .ok () t) : Moved s t := by
  rcases moveRunning_eq_ok h with ⟨_, rfl⟩ | ⟨_, moved, r, hm, rfl⟩
  · exact .refl _
  · refine move_moved hm (.refl _) ?_
    unfold raiseFloor
    split <;> exact ⟨rfl, rfl, rfl⟩

theorem moveExited_moved (h : moveExited task histogram i s = .ok histogram' t) : Moved s t := by
  obtain ⟨moved, r, hm, _, rfl⟩ := moveExited_eq_ok h
  exact move_moved hm ⟨rfl, rfl, rfl⟩ (.refl _)

theorem forM_moved (h : (List.finRange n).forM (moveRunning task) s = .ok () t) : Moved s t :=
  forM_keeps (fun _ _ _ hs hi => hs.trans (moveRunning_moved hi)) (.refl _) h

theorem foldlM_moved {histogram histogram' : Option Histogram}
    (h : (List.finRange n).foldlM (moveExited task) histogram s = .ok histogram' t) : Moved s t :=
  foldlM_keeps (P := fun _ t => Moved s t)
    (fun _ _ _ _ _ hs hi => hs.trans (moveExited_moved hi)) (.refl _) h

theorem moveRunning_describe (hd : AllDescribe root s.engine.population)
    (h : moveRunning task i s = .ok () t) : AllDescribe root t.engine.population := by
  rcases moveRunning_eq_ok h with ⟨_, rfl⟩ | ⟨_, moved, r, hm, rfl⟩
  · exact hd
  · refine place_describe hm hd ?_
    unfold raiseFloor
    split
    · exact (move_describes (hd i) hm).raise _
    · exact move_describes (hd i) hm

end

/-- What a barrier establishes before the particles are moved and keeps from move to move. -/
def Passed (root : Step) (b : Nat) (s : Session (RejuvenatingFilter n)) : Prop :=
  s.engine.metrics.barriers.length = b + 1 ∧ s.engine.population.Closed b ∧
    AllDescribe root s.engine.population

theorem moveRunning_passed {task : Task} {b : Nat} (i : Fin n)
    (s t : Session (RejuvenatingFilter n)) (hs : Passed root b s)
    (h : moveRunning task i s = .ok () t) : Passed root b t := by
  obtain ⟨hb, hc, hd⟩ := hs
  have hm := moveRunning_moved h
  exact ⟨by rw [hm.barriers, hb], hm.closed hc, moveRunning_describe hd h⟩

/-- At the end of a round no particle is at its start any more. -/
theorem Holds.closed {e : RejuvenatingFilter n} (h : Holds root (.turned true) e) :
    e.population.Closed e.metrics.barriers.length ∧ AllDescribe root e.population := by
  obtain ⟨ht, hs, hlast⟩ := h
  have hclosed := ht.closed hlast
  refine ⟨hclosed, fun i => (hs i).describes fun hr => ?_⟩
  have := hclosed i hr
  omega

/-- Resampling copies whole particles, and moves keep each of them real. -/
theorem barrier_holds {task : Task} {s t : Session (RejuvenatingFilter n)}
    (h : Holds root (.turned true) s.engine) (hb : barrier task s = .ok () t) :
    Holds root .barred t.engine := by
  obtain ⟨hclosed, hall⟩ := h.closed
  obtain ⟨q, noted, g, r, hr, he, hm⟩ := barrier_eq_ok hb
  have hp : Passed root s.engine.metrics.barriers.length t := by
    refine forM_keeps (P := Passed root s.engine.metrics.barriers.length) moveRunning_passed ?_ hm
    unfold Passed
    rw [he]
    refine ⟨by simp [Metrics.pushBarrier], hclosed.resample hr, fun i => ?_⟩
    obtain ⟨j, hj⟩ := (Population.resample_eq_ok hr).2 i
    rw [hj]
    exact (hall j).reweigh _
  exact ⟨⟨_, hp.1, hp.2.1⟩, hp.2.2⟩

/-- The final pass moves each exited particle along the whole of its execution. -/
theorem moveExited_holds {task : Task} (histogram : Option Histogram) (i : Fin n)
    (s : Session (RejuvenatingFilter n)) (histogram' : Option Histogram)
    (t : Session (RejuvenatingFilter n)) (hs : Holds root .exited s.engine)
    (h : moveExited task histogram i s = .ok histogram' t) : Holds root .exited t.engine := by
  obtain ⟨hx, hd⟩ := hs
  refine ⟨fun j => ((moveExited_moved h).running j).trans (hx j), ?_⟩
  obtain ⟨moved, r, hm, _, rfl⟩ := moveExited_eq_ok h
  have hl : ({ s.engine.population.particles.get i with regenFloor := 0 } : Particle).limit =
      none :=
    Particle.limit_of_completed (hx i)
  refine place_describe hm hd ?_
  rw [← hl] at hm
  exact move_describes ((hd i).raise 0) hm

/-- Each moment of a run keeps the population in order. -/
theorem Reaches.holds {task : Task} {s₀ s : Session (RejuvenatingFilter n)} {moment : Moment}
    (h₀ : Holds root (.awaiting s₀.engine.population.resumeCurrent) s₀.engine)
    (h : Reaches task s₀ moment s) : Holds root moment s.engine := by
  induction h with
  | start => exact h₀
  | sample before effect chosen ih => exact sample_holds ih effect chosen
  | factor before effect number parked ih =>
    obtain rfl := Run.modifyEngine_eq_ok.mp parked
    exact factor_holds ih effect number
  | exit before effect left ih =>
    obtain rfl := Run.modifyEngine_eq_ok.mp left
    exact exit_holds ih effect
  | @turn next s t before turn ih =>
    obtain ⟨ht, hs, hafter⟩ := ih
    obtain ⟨j, hnext, hj, hr, hk⟩ := Population.nextRunning?_after hafter
    rw [hnext] at turn
    obtain ⟨hcontrol, rfl⟩ := turnTo_eq_ok turn
    cases hcontrol
    exact activate_holds (ht.next hj hr hk) hs
  | barrier before passed ih => exact barrier_holds ih passed
  | round before running turn ih =>
    obtain ⟨⟨b, hb, hc⟩, hd⟩ := ih
    obtain ⟨hcontrol, rfl⟩ := turnTo_eq_ok turn
    cases hcontrol
    exact activate_holds (hb ▸ hc.next running) fun i => .inl (hd i)
  | exited before running ih =>
    obtain ⟨_, hd⟩ := ih
    exact ⟨Population.firstRunning?_eq_none running, hd⟩
  | pass before passed ih =>
    exact foldlM_keeps (P := fun _ s => Holds root .exited s.engine) moveExited_holds ih passed

/-- A barrier puts one entry on record, the one that its resampling has noted. -/
theorem barrier_records (passed : barrier task s = .ok () t) :
    ∃ q noted g, s.engine.population.resample false "rejuvenation"
        s.engine.metrics.barriers.length s.context.rng = .ok (q, noted) g ∧
      t.engine.metrics.barriers = s.engine.metrics.barriers ++ [noted] := by
  obtain ⟨q, noted, g, r, resampled, made, moves⟩ := barrier_eq_ok passed
  refine ⟨q, noted, g, resampled, ?_⟩
  rw [(forM_moved moves).barriers, made]
  rfl

/-- Every barrier on record was passed by the population that closed its round. -/
theorem Reaches.recorded {moment : Moment} {b : Nat} {noted : Barrier}
    (fresh : s₀.engine.metrics.barriers = []) (h : Reaches task s₀ moment s)
    (recorded : s.engine.metrics.barriers[b]? = some noted) :
    ∃ r t q g, Reaches task s₀ (.turned true) r ∧ r.engine.metrics.barriers.length = b ∧
      r.engine.population.resample false "rejuvenation" b r.context.rng = .ok (q, noted) g ∧
      RejuvenatingFilter.barrier task r = .ok () t := by
  induction h with
  | start => simp [fresh] at recorded
  | sample before effect chosen ih =>
    simp only [handler, setPopulation, bind_eq_ok, pure_eq_ok, Run.draw_eq_ok, Run.ofExcept_eq_ok,
      Run.engine_eq_ok, Run.modifyEngine_eq_ok] at chosen
    obtain ⟨_, _, ⟨_, _, rfl⟩, _, _, ⟨_, rfl⟩, _, _, ⟨_, rfl⟩, _, _, ⟨rfl, rfl⟩, _, _, ⟨_, rfl⟩, _, _, rfl,
      _, rfl⟩ := chosen
    exact ih recorded
  | factor before effect number parked ih =>
    obtain rfl := Run.modifyEngine_eq_ok.mp parked
    exact ih recorded
  | exit before effect left ih =>
    obtain rfl := Run.modifyEngine_eq_ok.mp left
    exact ih recorded
  | turn before turn ih =>
    obtain ⟨_, rfl⟩ := turnTo_eq_ok turn
    exact ih recorded
  | @barrier s t before passed ih =>
    obtain ⟨q, added, g, resampled, grown⟩ := barrier_records passed
    rw [grown] at recorded
    obtain earlier | ⟨rfl, rfl⟩ := recorded_snoc recorded
    · exact ih earlier
    · exact ⟨s, t, q, g, before, rfl, resampled, passed⟩
  | round before running turn ih =>
    obtain ⟨_, rfl⟩ := turnTo_eq_ok turn
    exact ih recorded
  | exited before running ih => exact ih recorded
  | pass before passed ih =>
    rw [(foldlM_moved passed).barriers] at recorded
    exact ih recorded

/-- Each barrier of a run that comes to a result was passed at the end of a round. -/
theorem drive_passes {fuel b : Nat} {result : Empirical} (fresh : s₀.engine.metrics.barriers = [])
    (h : (handler task).drive fuel s₀.engine.population.resumeCurrent s₀ = .ok result t)
    (some : b < t.engine.metrics.barriers.length) :
    ∃ r u, Reaches task s₀ (.turned true) r ∧ r.engine.metrics.barriers.length = b ∧
      RejuvenatingFilter.barrier task r = .ok () u := by
  obtain ⟨_, s, done, same, _⟩ := drive_leads h
  rw [same] at some
  obtain ⟨r, u, _, _, reached, count, _, passed⟩ :=
    done.recorded fresh (List.getElem?_eq_getElem some)
  exact ⟨r, u, reached, count, passed⟩

theorem start_holds (pos : 0 < n) (entry : Continuation) (store : Store) :
    Holds (entry store) (.awaiting (start pos entry store).population.resumeCurrent)
      (start pos entry store) := by
  have hget := Population.get_start pos entry store
  refine ⟨Population.start_underWay pos entry store, ?_, ?_⟩
  · intro i _
    change ((Population.start pos entry store).particles.get i).Suspended _
    rw [hget i]
    exact .inr ⟨rfl, rfl, .rest _⟩
  · change ((Population.start pos entry store).particles.get ⟨0, pos⟩).At _
      (((Population.start pos entry store).particles.get ⟨0, pos⟩).resume
        ((Population.start pos entry store).particles.get ⟨0, pos⟩).store)
    rw [hget]
    exact .rest _

/-- After every barrier and at the end of a run, every particle describes one real execution of the
program, whatever the parameters. At the end all of them have exited. -/
theorem particles_describe_executions (program : Program) (address : Address) (store : Store)
    (pos : 0 < n) (task : Task) (context : Context) :
    let s₀ := ⟨start pos (program.entry address) store, context⟩
    (∀ s, Reaches task s₀ .barred s → ∀ i,
      (s.engine.population.particles.get i).Describes (program store address)) ∧
    (∀ fuel result s, (handler task).drive fuel s₀.engine.population.resumeCurrent s₀ =
      .ok result s → ∀ i, (s.engine.population.particles.get i).completed = true ∧
        (s.engine.population.particles.get i).Describes (program store address)) := by
  have h₀ := start_holds pos (program.entry address) store
  refine ⟨?_, ?_⟩
  · intro s h i
    exact (h.holds h₀).2 i
  · intro fuel result s h i
    obtain ⟨histogram, r, hr, he, _⟩ := drive_leads h
    obtain ⟨hx, hd⟩ := hr.holds h₀
    rw [he]
    refine ⟨?_, hd i⟩
    simpa [Population.isRunning, Particle.running] using hx i

/-- Two particles pass two barriers. At the first one the particle that shows tails gives way to the
other; at the second one both go on. At either barrier one of the moves is rejected. -/
theorem weighedFlips_described :
    let program := weighedFlips [("first", -1000), ("second", 0)] []
    let task : Task := { id := ⟨1⟩, steps := 1, restricted := false, collectAll := false, fuel := 9 }
    let s₀ : Session (RejuvenatingFilter 2) :=
      ⟨start Nat.two_pos (program.entry .root) default, { quietContext "rejuvenation" with
        rng := sidesRng [true, false, true, false, true, true, true, true, false, false, false, true,
          true, false, true] }⟩
    (∃ s, Reaches task s₀ .barred s ∧ s.engine.metrics.barriers.length = 2 ∧
      ∀ i, (s.engine.population.particles.get i).Describes (program default .root)) ∧
    ∃ result s, (handler task).drive 12 s₀.engine.population.resumeCurrent s₀ = .ok result s ∧
      s.engine.metrics.rejuvenationMoves = 6 ∧ s.engine.metrics.rejuvenationAccepted = 4 ∧
      ∀ i, (s.engine.population.particles.get i).completed = true ∧
        (s.engine.population.particles.get i).Describes (program default .root) := by
  intro program task s₀
  have ran : succeedsWith
      (fun _ s => s.engine.metrics.rejuvenationMoves == 6 &&
        s.engine.metrics.rejuvenationAccepted == 4 && s.engine.metrics.barriers.length == 2)
      ((handler task).drive 12 s₀.engine.population.resumeCurrent s₀) = true := by
    decide +kernel
  obtain ⟨result, s, h, ran⟩ := exists_of_succeedsWith ran
  simp only [Bool.and_eq_true, beq_iff_eq] at ran
  obtain ⟨⟨moves, accepted⟩, two⟩ := ran
  obtain ⟨o, t, closed, count, passed⟩ := drive_passes rfl h (b := 1) (by omega)
  obtain ⟨_, _, _, _, grown⟩ := barrier_records passed
  obtain ⟨barred, ended⟩ := particles_describe_executions program .root default Nat.two_pos task
    s₀.context
  have reached := closed.barrier passed
  exact ⟨⟨t, reached, by simp [grown, count], barred t reached⟩,
    result, s, h, moves, accepted, ended 12 result s h⟩

end RejuvenatingFilter

end Posterior
