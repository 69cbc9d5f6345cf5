import Posterior.Proofs.Lockstep
import Posterior.Proofs.Numbers
import Posterior.Proofs.Survivors

/-!
Weights that are numbers. A particle whose weight is not a number waits for the barrier that ends the
round, and no population passes a barrier with such a weight. A filter that comes to its result has
therefore met none, and what it returns and has noted of its weights are numbers, except for effective
sample sizes that are out of range.
-/

namespace Posterior

open Numeric

namespace Empirical

/-- What a result says in numbers is numbers. -/
structure Numbers (d : Empirical) : Prop where
  probabilities : ∀ row ∈ d.support, row.2.isNaN = false
  normalizer : d.logNormalizer.isNaN = false

/-- Only a histogram of finite masses can be shared out. -/
theorem finite_of_ofHistogram {h : Histogram} {d : Empirical} (shared : ofHistogram h = .ok d) :
    d.Numbers ∧ ∀ b ∈ h.buckets, b.2.isFinite = true := by
  unfold ofHistogram at shared
  split at shared
  · rename_i hc
    cases shared
    simp only [canNormalize, Bool.and_eq_true, decide_eq_true_eq] at hc
    obtain ⟨⟨_, pos⟩, whole⟩ := hc
    have masses : ∀ b ∈ h.buckets, b.2.isFinite = true :=
      fun b hb => finite_of_total whole _ (List.mem_map_of_mem hb)
    refine ⟨⟨fun row hr => ?_, ?_⟩, masses⟩
    · obtain ⟨b, hb, rfl⟩ := List.mem_map.mp hr
      exact share_number (masses b hb) pos whole
    · change (0 : Float).isNaN = false
      decide
  · cases shared

theorem Numbers.withLogNormalizer {d : Empirical} {x : Float} (h : d.Numbers)
    (hx : x.isNaN = false) : (d.withLogNormalizer x).Numbers :=
  ⟨h.probabilities, hx⟩

end Empirical

/-- What a barrier notes of weights that are numbers. Its log-mean weight is a number; its effective
sample size is theirs, which is NaN if they are out of range. -/
structure Barrier.Measures {n : Nat} (b : Barrier) (ws : Vector Float n) : Prop where
  numbers : ∀ i, (ws.get i).isNaN = false
  mean : b.logMeanWeight = logMeanExp ws.toList
  meanNumber : b.logMeanWeight.isNaN = false
  sampleSize : b.effectiveSampleSize = Numeric.effectiveSampleSize ws.toList

theorem mem_toList_iff {α : Type} {n : Nat} {v : Vector α n} {a : α} :
    a ∈ v.toList ↔ ∃ i, v.get i = a := by
  constructor
  · intro h
    obtain ⟨i, hi, rfl⟩ := List.mem_iff_getElem.mp h
    exact ⟨⟨i, by simpa using hi⟩, by simp [Population.get_eq_getElem]⟩
  · rintro ⟨i, rfl⟩
    simp [Population.get_eq_getElem]

theorem Barrier.Measures.toList_numbers {n : Nat} {b : Barrier} {ws : Vector Float n}
    (h : b.Measures ws) : ∀ w ∈ ws.toList, w.isNaN = false := by
  intro w hw
  obtain ⟨i, rfl⟩ := mem_toList_iff.mp hw
  exact h.numbers i

theorem Barrier.Measures.nan_iff {n : Nat} {b : Barrier} {ws : Vector Float n}
    (h : b.Measures ws) : b.effectiveSampleSize.isNaN = true ↔ OutOfRange ws.toList := by
  rw [h.sampleSize]
  exact effectiveSampleSize_nan_iff h.toList_numbers

namespace Population

variable {n : Nat} {p q : Population n} {i j : Fin n}

/-- All weights are numbers. -/
def Numbers (p : Population n) : Prop := ∀ i, (p.particles.get i).weight.isNaN = false

theorem Numbers.weights (h : p.Numbers) : ∀ w ∈ p.weights.toList, w.isNaN = false := by
  intro w hw
  obtain ⟨i, rfl⟩ := mem_toList_iff.mp hw
  simpa [Population.weights, get_eq_getElem] using h i

theorem Numbers.logNormalizer (small : n < UInt64.size) (h : p.Numbers) :
    p.logNormalizer.isNaN = false :=
  logMeanExp_number (by simpa using small) h.weights

/-- Between two effects. A particle whose weight is not a number has passed its factor of the round
and waits for the barrier. -/
structure Pending (p : Population n) : Prop where
  active : p.isRunning p.active = true
  waits : ∀ i, (p.particles.get i).weight.isNaN = true → i < p.active ∧ p.isRunning i = true

/-- After the turn of the active particle. -/
def Turning (p : Population n) : Prop :=
  ∀ i, (p.particles.get i).weight.isNaN = true → i ≤ p.active ∧ p.isRunning i = true

/-- A turn that changes the weight is not an exit. -/
theorem Pending.turn (h : p.Pending) {f : Particle → Particle}
    (hf : (f p.current).running = true ∨ (f p.current).weight = p.current.weight) :
    (p.updateCurrent f).Turning := by
  intro i hi
  unfold updateCurrent at hi ⊢
  rw [get_setParticle] at hi
  rw [isRunning_setParticle, active_setParticle]
  split at hi <;> rename_i ha
  · rw [if_pos ha, ← ha]
    refine ⟨Nat.le_refl _, hf.resolve_right fun hw => ?_⟩
    rw [hw] at hi
    exact absurd (h.waits p.active hi).1 (Nat.lt_irrefl _)
  · rw [if_neg ha]
    obtain ⟨hlt, hr⟩ := h.waits i hi
    exact ⟨Nat.le_of_lt hlt, hr⟩

/-- A factor is passed: the round is over if no particle after the active one is running. -/
theorem Pending.passed (h : p.Pending) {f : Particle → Particle}
    (hf : (f p.current).running = p.current.running) :
    (p.updateCurrent f).Turning ∧ (p.updateCurrent f).Closing (p.updateCurrent f).atBarrier := by
  have running : (f p.current).running = true := hf.trans h.active
  refine ⟨h.turn (.inl running), closing_atBarrier ?_⟩
  unfold updateCurrent
  rw [isRunning_setParticle, active_setParticle, if_pos rfl]
  exact running

/-- The active particle exits and takes its weight along. -/
theorem Pending.left (h : p.Pending) {f : Particle → Particle}
    (hf : (f p.current).weight = p.current.weight) :
    (p.updateCurrent f).Turning ∧ (p.updateCurrent f).Closing p.atBarrier :=
  ⟨h.turn (.inr hf), (closing_atBarrier h.active).update f⟩

/-- A weight that is a number after a turn was one before it. -/
theorem numbers_of_turn {f : Particle → Particle}
    (hf : p.current.weight.isNaN = true → (f p.current).weight.isNaN = true)
    (h : (p.updateCurrent f).Numbers) : p.Numbers := by
  intro i
  have hi := h i
  unfold updateCurrent at hi
  rw [get_setParticle] at hi
  split at hi <;> rename_i ha
  · rw [← ha]
    refine eq_false_of_ne_true fun hn => ?_
    rw [hf hn] at hi
    cases hi
  · exact hi

theorem Turning.next (h : p.Turning) (after : p.active < j) (running : p.isRunning j = true) :
    (p.activate j).Pending :=
  ⟨running, fun i hi => ⟨Nat.lt_of_le_of_lt (h i hi).1 after, (h i hi).2⟩⟩

theorem Turning.numbers (h : p.Turning) (exited : ∀ i, p.isRunning i = false) : p.Numbers := by
  intro i
  refine eq_false_of_ne_true fun hi => ?_
  have hr := (h i hi).2
  rw [exited i] at hr
  cases hr

theorem Numbers.pending (h : p.Numbers) (running : p.firstRunning? = some i) :
    (p.activate i).Pending := by
  refine ⟨(firstRunning?_eq_some running).1, fun j hj => ?_⟩
  have hn : (p.particles.get j).weight.isNaN = false := h j
  rw [get_activate, hn] at hj
  cases hj

/-- No population with a weight that is not a number passes a barrier, and none leaves it. -/
theorem resample_numbers {strict : Bool} {algorithm : String} {index : Nat} {noted : Barrier}
    {g g' : Rng} (small : n < UInt64.size)
    (h : p.resample strict algorithm index g = .ok (q, noted) g') :
    p.Numbers ∧ q.Numbers ∧ noted.Measures p.weights := by
  have hsize := h
  unfold resample at hsize
  obtain ⟨r, g₁, hr, hsize⟩ := bind_eq_ok.mp hsize
  have weights : ∀ i, (p.weights.get i).isNaN = false := by
    cases Resampling.outcome p.weights g with
    | nan found fails =>
      rw [fails] at hr
      cases hr
    | impossible numbers impossible nothing => exact Resampling.nanIndex?_eq_none numbers
    | resampled numbers possible pos draws returns => exact Resampling.nanIndex?_eq_none numbers
  have before : p.Numbers := by
    intro i
    simpa [Population.weights, get_eq_getElem] using weights i
  have noted' : noted.logMeanWeight = logMeanExp p.weights.toList ∧
      noted.effectiveSampleSize = effectiveSampleSize p.weights.toList := by
    cases r with
    | some r =>
      obtain ⟨_, _, _, _, _, rfl⟩ := Resampling.residual_eq_some hr
      cases hsize
      exact ⟨rfl, rfl⟩
    | none =>
      cases strict with
      | true => cases hsize
      | false =>
        cases hsize
        exact ⟨(beq_negInf_iff.mp (Resampling.residual_eq_none hr)).symm, rfl⟩
  obtain ⟨mean, sampleSize⟩ := noted'
  have meanNumber : noted.logMeanWeight.isNaN = false := by
    rw [mean]
    exact before.logNormalizer small
  refine ⟨before, fun i => ?_, ⟨weights, mean, meanNumber, sampleSize⟩⟩
  obtain ⟨j, hj⟩ := (resample_eq_ok h).2 i
  rw [hj]
  exact meanNumber

/-- With a weight that is not a number a barrier fails at once. -/
theorem resample_nan (h : ¬ p.Numbers) (strict : Bool) (algorithm : String) (index : Nat) (g : Rng) :
    ∃ i, p.resample strict algorithm index g = .error (.weightNaN i) g := by
  have found : Resampling.nanIndex? p.weights ≠ none := by
    intro hn
    refine h fun i => ?_
    simpa [Population.weights, get_eq_getElem] using Resampling.nanIndex?_eq_none hn i
  cases Resampling.outcome p.weights g with
  | @nan i _ fails =>
    unfold resample
    exact ⟨i, bind_eq_error.mpr (.inl fails)⟩
  | impossible numbers impossible nothing => exact absurd numbers found
  | resampled numbers possible pos draws returns => exact absurd numbers found

end Population

/-- What an answer makes of a population. Weights that are numbers afterwards were numbers before, and
all were if the run comes to its result. -/
def Keeps {n : Nat} (before : Population n) (control : Control Empirical) (after : Population n) :
    Prop :=
  match control with
  | .resume _ => after.Pending ∧ (after.Numbers → before.Numbers)
  | .done result => before.Numbers ∧ result.Numbers

section
variable {σ : Type} {n : Nat} {handler : Handler σ Empirical} {population : σ → Population n}
  {s t : Session σ} {next : Resume}

/-- From any moment between two effects on, a run that comes to its result had only weights that
were numbers then. -/
theorem Handler.dispatch_numbers
    (step : ∀ (next : Resume) s control t, (population s.engine).Pending →
      handler.answer next.invoke s = .ok control t →
      Keeps (population s.engine) control (population t.engine))
    (pending : (population s.engine).Pending) {fuel : Nat} {result : Empirical}
    (ran : handler.dispatch fuel next s = .ok result t) :
    (population s.engine).Numbers ∧ result.Numbers := by
  refine dispatch_induction
    (P := fun _ r => (population r.engine).Pending ∧
      ((population r.engine).Numbers → (population s.engine).Numbers))
    (Q := fun result _ => (population s.engine).Numbers ∧ result.Numbers)
    ?_ ⟨pending, fun numbers => numbers⟩ ran
  rintro next r control t ⟨pending, back⟩ answered
  have kept := step next r control t pending answered
  cases control with
  | resume next =>
    obtain ⟨pending, numbers⟩ := kept
    exact ⟨pending, fun h => back (numbers h)⟩
  | done result =>
    obtain ⟨numbers, made⟩ := kept
    exact ⟨back numbers, made⟩

variable (population) in
/-- In a run that comes to its result all weights are numbers between any two effects. -/
theorem Handler.drive_numbers
    (step : ∀ (next : Resume) s control t, (population s.engine).Pending →
      handler.answer next.invoke s = .ok control t →
      Keeps (population s.engine) control (population t.engine))
    (pending : (population s.engine).Pending) {fuel : Nat} {result : Empirical}
    (ran : handler.drive fuel next s = .ok result t) :
    result.Numbers ∧ ∀ next' r, handler.Passes next s next' r → (population r.engine).Numbers := by
  have ran := Run.guarding_eq_ok.mp ran
  refine ⟨(dispatch_numbers step pending ran).2, fun next' r passes => ?_⟩
  have there : (population r.engine).Pending := by
    refine passes.induction (P := fun _ s => (population s.engine).Pending) pending ?_
    exact fun next s _ t ready answered => (step next s _ t ready answered).1
  obtain ⟨left, ran⟩ := passes.dispatch ran
  exact (dispatch_numbers step there ran).1

end

namespace ParticleFilter

variable {n : Nat} {task : Task} {s t : Session (ParticleFilter n)} {control : Control Empirical}
  {before : Population n}

theorem finish_keeps (h : finish task s = .ok control t) (small : n < UInt64.size)
    (hb : before.Numbers) (hs : s.engine.population.Numbers) :
    Keeps before control t.engine.population := by
  unfold finish at h
  simp only [bind_eq_ok, Run.engine_eq_ok, Run.ofExcept_eq_ok, pure_eq_ok] at h
  obtain ⟨_, _, ⟨rfl, rfl⟩, d, _, ⟨hd, rfl⟩, _, _, hres, rfl, rfl⟩ := h
  have hd := (Empirical.finite_of_ofHistogram hd).1
  exact ⟨hb, hd.withLogNormalizer (hs.logNormalizer small)⟩

theorem nextRound_keeps (h : nextRound task s = .ok control t) (small : n < UInt64.size)
    (hb : s.engine.population.Numbers → before.Numbers) :
    Keeps before control t.engine.population := by
  unfold nextRound at h
  simp only [bind_eq_ok, Run.engine_eq_ok] at h
  obtain ⟨_, ⟨e, c⟩, passed, _, _, ⟨rfl, rfl⟩, h⟩ := h
  obtain ⟨q, noted, g, hr, rfl⟩ := barrier_eq_ok passed
  obtain ⟨numbers, after, measures⟩ := Population.resample_numbers small hr
  cases hf : q.firstRunning? with
  | none =>
    simp only [hf] at h
    exact finish_keeps h small (hb numbers) after
  | some first =>
    simp only [hf] at h
    obtain ⟨rfl, rfl⟩ := turnTo_eq_ok h
    exact ⟨after.pending hf, fun _ => hb numbers⟩

theorem turnTo_keeps {j : Fin n} (h : turnTo j s = .ok control t)
    (hj : s.engine.population.nextRunning? = some j)
    (hb : s.engine.population.Numbers → before.Numbers)
    (turning : s.engine.population.Turning) (more : s.engine.population.Closing false) :
    Keeps before control t.engine.population := by
  obtain ⟨k, hk, after, running, _⟩ := Population.nextRunning?_after more
  obtain rfl : j = k := Option.some.inj (hj.symm.trans hk)
  obtain ⟨rfl, rfl⟩ := turnTo_eq_ok h
  exact ⟨turning.next after running, hb⟩

theorem answer_keeps (small : n < UInt64.size) (next : Resume) (s : Session (ParticleFilter n))
    (control : Control Empirical) (t : Session (ParticleFilter n))
    (pending : s.engine.population.Pending)
    (h : (handler task).answer next.invoke s = .ok control t) :
    Keeps s.engine.population control t.engine.population := by
  cases hi : next.invoke with
  | sample choice deliver =>
    rw [hi] at h
    have ha := Handler.answer_sample h
    simp only [handler, bind_eq_ok, Run.draw_eq_ok, pure_eq_ok] at ha
    obtain ⟨value, _, ⟨g, _, rfl⟩, rfl, rfl⟩ := ha
    exact ⟨pending, fun numbers => numbers⟩
  | factor point resume =>
    rw [hi] at h
    obtain ⟨_, ha⟩ := Handler.answer_factor h
    simp only [handler, bind_eq_ok, Run.engine_eq_ok] at ha
    obtain ⟨_, _, ⟨rfl, rfl⟩, _, r, parked, _, _, ⟨rfl, rfl⟩, ha⟩ := ha
    obtain rfl := Run.modifyEngine_eq_ok.mp parked
    have back := Population.numbers_of_turn (p := s.engine.population)
      (f := (·.park point resume)) fun hn => nan_add hn _
    obtain ⟨turning, closing⟩ := pending.passed (f := (·.park point resume)) rfl
    split at ha <;> rename_i hbar
    · exact nextRound_keeps ha small back
    · rw [Bool.not_eq_true] at hbar
      rw [hbar] at closing
      obtain ⟨j, hj, _⟩ := Population.nextRunning?_after closing
      rw [hj] at ha
      exact turnTo_keeps ha hj back turning closing
  | exit store value =>
    rw [hi] at h
    have ha := Handler.answer_exit h
    simp only [handler, bind_eq_ok, Run.engine_eq_ok] at ha
    obtain ⟨_, _, ⟨rfl, rfl⟩, _, _, ⟨rfl, rfl⟩, _, r, left, _, _, ⟨rfl, rfl⟩, ha⟩ := ha
    obtain rfl := Run.modifyEngine_eq_ok.mp left
    have back := Population.numbers_of_turn (p := s.engine.population)
      (f := (·.complete store value)) fun hn => hn
    obtain ⟨turning, closing⟩ := pending.left (f := (·.complete store value)) rfl
    cases hn : (s.engine.population.updateCurrent (·.complete store value)).nextRunning? with
    | none =>
      simp only [hn] at ha
      have numbers := turning.numbers (Population.nextRunning?_eq_none hn)
      exact finish_keeps ha small (back numbers) numbers
    | some j =>
      simp only [hn] at ha
      split at ha <;> rename_i hbar
      · exact nextRound_keeps ha small back
      · rw [Bool.not_eq_true] at hbar
        rw [hbar] at closing
        exact turnTo_keeps ha hn back turning closing

/-- Every barrier on record has measured the weights with which the run closed a round there. -/
def Measured (task : Task) (s₀ : Session (ParticleFilter n)) (barriers : List Barrier) : Prop :=
  ∀ b noted, barriers[b]? = some noted → ∃ r, Reaches task s₀ (.turned true) r ∧
    r.engine.metrics.barriers.length = b ∧ noted.Measures r.engine.population.weights

theorem Reaches.measured {s₀ : Session (ParticleFilter n)} {moment : Moment}
    (small : n < UInt64.size) (fresh : s₀.engine.metrics.barriers = [])
    (h : Reaches task s₀ moment s) : Measured task s₀ s.engine.metrics.barriers := by
  intro b noted recorded
  obtain ⟨r, _, q, g, closed, count, resampled, _⟩ := h.recorded fresh recorded
  obtain ⟨_, _, measures⟩ := Population.resample_numbers small resampled
  exact ⟨r, closed, count, measures⟩

end ParticleFilter

namespace RejuvenatingFilter

variable {n : Nat} {task : Task} {s t : Session (RejuvenatingFilter n)} {control : Control Empirical}
  {before : Population n}

/-- Moves leave the weights alone. -/
theorem Moved.numbers (h : Moved s t) (hs : s.engine.population.Numbers) :
    t.engine.population.Numbers := by
  intro i
  rw [(h.kept i).weight]
  exact hs i

theorem finish_keeps (h : finish task s = .ok control t) (small : n < UInt64.size)
    (hb : before.Numbers) (hs : s.engine.population.Numbers) :
    Keeps before control t.engine.population := by
  unfold finish at h
  simp only [bind_eq_ok, Run.engine_eq_ok, Run.ofExcept_eq_ok, pure_eq_ok] at h
  obtain ⟨histogram, r, passed, _, _, ⟨rfl, rfl⟩, d, _, ⟨hd, rfl⟩, _, _, hres, rfl, rfl⟩ := h
  have moved := foldlM_moved passed
  have hd := (Empirical.finite_of_ofHistogram hd).1
  exact ⟨hb, hd.withLogNormalizer ((moved.numbers hs).logNormalizer small)⟩

theorem nextRound_keeps (h : nextRound task s = .ok control t) (small : n < UInt64.size)
    (hb : s.engine.population.Numbers → before.Numbers) :
    Keeps before control t.engine.population := by
  unfold nextRound at h
  simp only [bind_eq_ok, Run.engine_eq_ok] at h
  obtain ⟨_, r, passed, _, _, ⟨rfl, rfl⟩, h⟩ := h
  obtain ⟨q, noted, g, ⟨e, c⟩, hr, rfl, moves⟩ := barrier_eq_ok passed
  obtain ⟨numbers, after, measures⟩ := Population.resample_numbers small hr
  have moved := forM_moved moves
  have after := moved.numbers after
  cases hf : r.engine.population.firstRunning? with
  | none =>
    simp only [hf] at h
    exact finish_keeps h small (hb numbers) after
  | some first =>
    simp only [hf] at h
    obtain ⟨rfl, rfl⟩ := turnTo_eq_ok h
    exact ⟨after.pending hf, fun _ => hb numbers⟩

theorem turnTo_keeps {j : Fin n} (h : turnTo j s = .ok control t)
    (hj : s.engine.population.nextRunning? = some j)
    (hb : s.engine.population.Numbers → before.Numbers)
    (turning : s.engine.population.Turning) (more : s.engine.population.Closing false) :
    Keeps before control t.engine.population := by
  obtain ⟨k, hk, after, running, _⟩ := Population.nextRunning?_after more
  obtain rfl : j = k := Option.some.inj (hj.symm.trans hk)
  obtain ⟨rfl, rfl⟩ := turnTo_eq_ok h
  exact ⟨turning.next after running, hb⟩

/-- The record of a choice leaves the weights alone. -/
theorem recordChoice_keeps {p : Population n} {particle : Particle} {choice : Choice}
    {deliver : Delivery} {value : Value} {x : Float} (pending : p.Pending)
    (h : recordChoice p.current choice deliver value x = .ok particle) :
    (p.setParticle p.active particle).Pending ∧
      ((p.setParticle p.active particle).Numbers → p.Numbers) := by
  have alike : particle = { p.current with trace := particle.trace, score := particle.score } :=
    Particle.recordChoice_alike h
  have running : ∀ i, (p.setParticle p.active particle).isRunning i = p.isRunning i := by
    intro i
    rw [Population.isRunning_setParticle]
    split <;> rename_i ha
    · rw [alike, ← ha]
      rfl
    · rfl
  have weight : ∀ i, ((p.setParticle p.active particle).particles.get i).weight =
      (p.particles.get i).weight := by
    intro i
    rw [Population.get_setParticle]
    split <;> rename_i ha
    · rw [alike, ← ha]
      rfl
    · rfl
  refine ⟨⟨(running _).trans pending.active, fun i hi => ?_⟩, fun numbers i => ?_⟩
  · rw [weight] at hi
    rw [running]
    exact pending.waits i hi
  · rw [← weight]
    exact numbers i

theorem answer_keeps (small : n < UInt64.size) (next : Resume) (s : Session (RejuvenatingFilter n))
    (control : Control Empirical) (t : Session (RejuvenatingFilter n))
    (pending : s.engine.population.Pending)
    (h : (handler task).answer next.invoke s = .ok control t) :
    Keeps s.engine.population control t.engine.population := by
  cases hi : next.invoke with
  | sample choice deliver =>
    rw [hi] at h
    have ha := Handler.answer_sample h
    simp only [handler, setPopulation, bind_eq_ok, pure_eq_ok, Run.draw_eq_ok, Run.ofExcept_eq_ok,
      Run.engine_eq_ok, Run.modifyEngine_eq_ok] at ha
    obtain ⟨value, _, ⟨g, _, rfl⟩, _, _, ⟨_, rfl⟩, _, _, ⟨_, rfl⟩, _, _, ⟨rfl, rfl⟩,
      particle, _, ⟨hp, rfl⟩, _, _, rfl, rfl, rfl⟩ := ha
    obtain ⟨pending, numbers⟩ := recordChoice_keeps pending hp
    exact ⟨pending, numbers⟩
  | factor point resume =>
    rw [hi] at h
    obtain ⟨_, ha⟩ := Handler.answer_factor h
    simp only [handler, bind_eq_ok, Run.engine_eq_ok] at ha
    obtain ⟨_, _, ⟨rfl, rfl⟩, _, r, parked, _, _, ⟨rfl, rfl⟩, ha⟩ := ha
    obtain rfl := Run.modifyEngine_eq_ok.mp parked
    have back := Population.numbers_of_turn (p := s.engine.population)
      (f := (parkScored · point resume)) fun hn => nan_add hn _
    obtain ⟨turning, closing⟩ := pending.passed (f := (parkScored · point resume)) rfl
    split at ha <;> rename_i hbar
    · exact nextRound_keeps ha small back
    · rw [Bool.not_eq_true] at hbar
      rw [hbar] at closing
      obtain ⟨j, hj, _⟩ := Population.nextRunning?_after closing
      rw [hj] at ha
      exact turnTo_keeps ha hj back turning closing
  | exit store value =>
    rw [hi] at h
    have ha := Handler.answer_exit h
    simp only [handler, bind_eq_ok, Run.engine_eq_ok] at ha
    obtain ⟨_, _, ⟨rfl, rfl⟩, _, _, ⟨rfl, rfl⟩, _, r, left, _, _, ⟨rfl, rfl⟩, ha⟩ := ha
    obtain rfl := Run.modifyEngine_eq_ok.mp left
    have back := Population.numbers_of_turn (p := s.engine.population)
      (f := (·.complete store value)) fun hn => hn
    obtain ⟨turning, closing⟩ := pending.left (f := (·.complete store value)) rfl
    cases hn : (s.engine.population.updateCurrent (·.complete store value)).nextRunning? with
    | none =>
      simp only [hn] at ha
      have numbers := turning.numbers (Population.nextRunning?_eq_none hn)
      exact finish_keeps ha small (back numbers) numbers
    | some j =>
      simp only [hn] at ha
      split at ha <;> rename_i hbar
      · exact nextRound_keeps ha small back
      · rw [Bool.not_eq_true] at hbar
        rw [hbar] at closing
        exact turnTo_keeps ha hn back turning closing

/-- Every barrier on record has measured the weights with which the run closed a round there. -/
def Measured (task : Task) (s₀ : Session (RejuvenatingFilter n)) (barriers : List Barrier) : Prop :=
  ∀ b noted, barriers[b]? = some noted → ∃ r, Reaches task s₀ (.turned true) r ∧
    r.engine.metrics.barriers.length = b ∧ noted.Measures r.engine.population.weights

theorem Reaches.measured {s₀ : Session (RejuvenatingFilter n)} {moment : Moment}
    (small : n < UInt64.size) (fresh : s₀.engine.metrics.barriers = [])
    (h : Reaches task s₀ moment s) : Measured task s₀ s.engine.metrics.barriers := by
  intro b noted recorded
  obtain ⟨r, _, q, g, closed, count, resampled, _⟩ := h.recorded fresh recorded
  obtain ⟨_, _, measures⟩ := Population.resample_numbers small resampled
  exact ⟨r, closed, count, measures⟩

end RejuvenatingFilter

theorem Population.start_pending {n : Nat} (pos : 0 < n) (entry : Continuation) (store : Store) :
    (start pos entry store).Pending := by
  refine ⟨(start_underWay pos entry store).active, fun i hi => ?_⟩
  rw [get_start] at hi
  have number : (0 : Float).isNaN = false := by decide
  exact absurd hi (ne_true_of_eq_false number)

end Posterior
