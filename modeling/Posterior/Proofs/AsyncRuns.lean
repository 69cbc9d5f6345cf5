import Posterior.AsyncSmc
import Posterior.Proofs.Outcomes

/-!
The moments of an asynchronous run, and what has happened up to them. A run either awaits an effect
of the particle on the processor or has the processor free; what is noted on the way are the
arrivals at factors, with what became of each, and the exits.
-/

namespace Posterior

/-- What is known of a factor after one more arrival. -/
def FactorStats.after (stats : FactorStats) (o : AsyncSmc.Offspring) : FactorStats :=
  ⟨stats.arrivals + 1, o.mean, stats.totalChildren + o.children⟩

theorem AsyncConfig.validate_eq_ok_iff {config : AsyncConfig} :
    config.validate = .ok () ↔ 0 < config.particles ∧ 0 < config.bufferSize := by
  unfold validate
  rw [except_bind_eq_ok]
  constructor
  · rintro ⟨_, hp, hb⟩
    exact ⟨requirePositive_eq_ok_iff.mp hp, requirePositive_eq_ok_iff.mp hb⟩
  · rintro ⟨hp, hb⟩
    exact ⟨(), requirePositive_eq_ok_iff.mpr hp, requirePositive_eq_ok_iff.mpr hb⟩

namespace AsyncSmc

open Numeric

/-- A particle at or above the mean gets its children without a draw. -/
theorem offspring_above {e : AsyncSmc} {stats : FactorStats} {weight multiplicity : Float} {g : Rng}
    (above : ¬ weight - updatedMean stats weight multiplicity < 0) :
    let mean := updatedMean stats weight multiplicity
    let children := e.childrenOf stats (weight - mean)
    e.offspring stats weight multiplicity g =
      .ok ⟨toCount children, weight - ln children, mean⟩ g := by
  unfold offspring
  rw [if_neg above]
  rfl

/-- What becomes of a particle that arrives at a factor. -/
inductive Fate where
  /-- Its weight is negative infinity. -/
  | impossible
  /-- It gets no child. -/
  | dropped
  /-- It waits in the buffer and owes this many executions. -/
  | parked (children : Nat)
  /-- The buffer is full, and it runs on by itself. -/
  | ranOn
  deriving DecidableEq

/-- How many executions an arrival releases at its factor. -/
def Fate.released : Fate → Nat
  | impossible => 0
  | dropped => 0
  | parked children => children
  | ranOn => 1

inductive Event where
  /-- A particle has arrived at the factor with this index. -/
  | arrival (index : Nat) (fate : Fate)
  /-- A particle has exited; the latest factor that it passed had this index. -/
  | exit (last : Option Nat)
  deriving DecidableEq

inductive Moment where
  /-- The particle on the processor is about to be resumed. -/
  | awaiting (next : Resume)
  /-- No particle is on the processor. -/
  | free

/-- Whether the buffer takes no more particles. -/
def full (e : AsyncSmc) : Bool := decide (e.bufferSize ≤ e.buffer.length)

def countDrop (e : AsyncSmc) : AsyncSmc :=
  { e with metrics.particlesDropped := e.metrics.particlesDropped + 1 }

def note (e : AsyncSmc) (index : Nat) (stats : FactorStats) : AsyncSmc :=
  { e with stats := e.stats.insert index stats }

/-- A particle is kept at a factor, with the children that it gets and what is known of the factor
from then on. The first one to arrive gets one child. -/
inductive Keeps (e : AsyncSmc) (p : AsyncParticle) (index : Nat) (g : Rng) :
    AsyncParticle → FactorStats → Rng → Prop where
  | first (unseen : e.stats.get? index = none) :
      Keeps e p index g { p with children := 1 } ⟨1, p.weight, 1⟩ g
  | later {stats : FactorStats} {o : Offspring} {g' : Rng}
      (seen : e.stats.get? index = some stats)
      (drawn : e.offspring stats p.weight p.multiplicity g = .ok o g') (some : o.children ≠ 0) :
      Keeps e p index g (withOffspring p e.full o) (stats.after o) g'

/-- A particle that has just passed the factor with the index arrives there, the processor being
free: what becomes of it, and at which moment that leaves the engine. -/
inductive Arrives (e : AsyncSmc) (p : AsyncParticle) (index : Nat) (g : Rng) :
    Fate → Moment → AsyncSmc → Rng → Prop where
  | impossible (lost : (p.weight == negInf) = true) :
      Arrives e p index g .impossible .free e.countDrop g
  | dropped {stats : FactorStats} {o : Offspring} {g' : Rng}
      (possible : (p.weight == negInf) = false) (seen : e.stats.get? index = some stats)
      (drawn : e.offspring stats p.weight p.multiplicity g = .ok o g') (none : o.children = 0) :
      Arrives e p index g .dropped .free (e.note index (stats.after o)).countDrop g'
  | parked {q : AsyncParticle} {stats : FactorStats} {g' : Rng}
      (possible : (p.weight == negInf) = false) (keeps : e.Keeps p index g q stats g')
      (space : e.full = false) :
      Arrives e p index g (.parked q.children) .free
        { e.note index stats with buffer := e.buffer ++ [q.settleWeight] } g'
  | ranOn {q : AsyncParticle} {stats : FactorStats} {g' : Rng}
      (possible : (p.weight == negInf) = false) (keeps : e.Keeps p index g q stats g')
      (full : e.full = true) :
      Arrives e p index g .ranOn (.awaiting (.carryOn q.resume q.store))
        { e.note index stats with active := some q.settleWeight } g'

/-- The moments of one run from the session `s₀` on, with what has happened since. -/
inductive Reaches (s₀ : Session AsyncSmc) : List Event → Moment → Session AsyncSmc → Prop where
  | start : Reaches s₀ [] .free s₀
  | launch {log : List Event} {next : Resume} {s t : Session AsyncSmc}
      (before : Reaches s₀ log .free s) (left : s.engine.exited.length < s.engine.target)
      (launched : AsyncSmc.launch s = .ok next t) : Reaches s₀ log (.awaiting next) t
  | sample {log : List Event} {next : Resume} {s : Session AsyncSmc} {choice : Choice}
      {deliver : Delivery} {value : Value} {g : Rng} (before : Reaches s₀ log (.awaiting next) s)
      (effect : next.invoke = .sample choice deliver)
      (drawn : choice.dist.draw choice.params s.context.rng = .ok value g) :
      Reaches s₀ log (.awaiting (.deliver deliver choice.store value))
        { s with context := { s.context with rng := g } }
  | factor {log : List Event} {next : Resume} {s : Session AsyncSmc} {point : Factor}
      {resume : Continuation} {p : AsyncParticle} {fate : Fate} {moment : Moment} {e : AsyncSmc}
      {g : Rng} (before : Reaches s₀ log (.awaiting next) s)
      (effect : next.invoke = .factor point resume) (number : point.logWeight.isNaN = false)
      (active : s.engine.active = some p)
      (arrives : Arrives { s.engine with active := none } (p.arrive point resume) p.nextIndex
        s.context.rng fate moment e g) :
      Reaches s₀ (log ++ [.arrival p.nextIndex fate]) moment
        ⟨e, { s.context with rng := g }⟩
  | exit {log : List Event} {next : Resume} {s : Session AsyncSmc} {store : Store} {value : Value}
      {p : AsyncParticle} (before : Reaches s₀ log (.awaiting next) s)
      (effect : next.invoke = .exit store value) (active : s.engine.active = some p) :
      Reaches s₀ (log ++ [.exit p.factorIndex]) .free
        { s with engine :=
          { s.engine with active := none, exited := s.engine.exited ++ [p.leave store value] } }

/-- The session with a budget that is raised, and the engine on top of the stack once more. -/
def raised (extra : Nat) (s : Session AsyncSmc) : Session AsyncSmc :=
  ⟨{ s.engine with
      id := (s.context.install "async-smc").1
      target := s.engine.target + extra },
    (s.context.install "async-smc").2⟩

/-- The sessions in which runs start: the first one and those that are resumed with a greater budget
once the budget before has exited, in whatever context, with what has happened since the first. -/
inductive Resumes (s₀ : Session AsyncSmc) : List Event → Session AsyncSmc → Prop where
  | first : Resumes s₀ [] s₀
  | again {log log' : List Event} {s t : Session AsyncSmc} {extra : Nat} {context : Context}
      (before : Resumes s₀ log s) (ran : Reaches s log' .free t)
      (spent : t.engine.target ≤ t.engine.exited.length) (more : 0 < extra) :
      Resumes s₀ (log ++ log') (raised extra ⟨t.engine, context⟩)

/-- How the next particle to run is chosen: a fresh one, one of several executions that a waiting
particle owes, or the last one. -/
inductive Picks (e : AsyncSmc) : AsyncParticle → AsyncSmc → Prop where
  | fresh : Picks e e.fresh { e with
      metrics.executions := e.metrics.executions + 1
      metrics.particlesSpawned := e.metrics.particlesSpawned + 1 }
  | child {before after : List AsyncParticle} {p : AsyncParticle}
      (buffer : e.buffer = before ++ p :: after) (several : 1 < p.children) :
      Picks e p.child
        { e with buffer := before ++ { p with children := p.children - 1 } :: after }
  | last {before after : List AsyncParticle} {p : AsyncParticle}
      (buffer : e.buffer = before ++ p :: after) (few : p.children ≤ 1) :
      Picks e p { e with buffer := before ++ after }

/-- What holds of all waiting particles and of a fresh one, and of both parts when an execution is
released, holds of the particle that is picked and of those that wait on. -/
theorem Picks.forall {e e' : AsyncSmc} {p : AsyncParticle} {P : AsyncParticle → Prop}
    (picks : Picks e p e') (waiting : ∀ q ∈ e.buffer, P q) (fresh : P e.fresh)
    (release : ∀ q : AsyncParticle, 1 < q.children → P q →
      P q.child ∧ P { q with children := q.children - 1 }) :
    P p ∧ ∀ q ∈ e'.buffer, P q := by
  cases picks with
  | fresh => exact ⟨fresh, waiting⟩
  | @child before after p buffer several =>
    rw [buffer, List.forall_mem_append, List.forall_mem_cons] at waiting
    obtain ⟨earlier, here, later⟩ := waiting
    obtain ⟨child, rest⟩ := release p several here
    exact ⟨child, List.forall_mem_append.mpr ⟨earlier, List.forall_mem_cons.mpr ⟨rest, later⟩⟩⟩
  | @last before after p buffer few =>
    rw [buffer, List.forall_mem_append, List.forall_mem_cons] at waiting
    obtain ⟨earlier, here, later⟩ := waiting
    exact ⟨here, List.forall_mem_append.mpr ⟨earlier, later⟩⟩

theorem release_eq_some {i : Nat} {buffer rest : List AsyncParticle} {q : AsyncParticle}
    (h : release i buffer = some (q, rest)) :
    ∃ before p after, buffer = before ++ p :: after ∧
      ((1 < p.children ∧ q = p.child ∧
          rest = before ++ { p with children := p.children - 1 } :: after) ∨
        (p.children ≤ 1 ∧ q = p ∧ rest = before ++ after)) := by
  induction buffer generalizing i rest with
  | nil => simp [release] at h
  | cons p buffer ih =>
    cases i with
    | zero =>
      simp only [release] at h
      split at h <;> rename_i hc <;> obtain ⟨rfl, rfl⟩ := Prod.mk.inj (Option.some.inj h)
      · exact ⟨[], p, buffer, rfl, .inl ⟨hc, rfl, rfl⟩⟩
      · exact ⟨[], p, buffer, rfl, .inr ⟨by omega, rfl, rfl⟩⟩
    | succ i =>
      simp only [release, Option.map_eq_some_iff] at h
      obtain ⟨⟨q', rest'⟩, hr, he⟩ := h
      cases he
      obtain ⟨before, r, after, rfl, hc⟩ := ih hr
      refine ⟨p :: before, r, after, rfl, ?_⟩
      rcases hc with ⟨hc, rfl, rfl⟩ | ⟨hc, rfl, rfl⟩
      · exact .inl ⟨hc, rfl, rfl⟩
      · exact .inr ⟨hc, rfl, rfl⟩

theorem pick_picks (e : AsyncSmc) (i : Nat) : Picks e (e.pick i).1 (e.pick i).2 := by
  unfold pick
  cases hr : release i e.buffer with
  | none => exact .fresh
  | some released =>
    obtain ⟨q, rest⟩ := released
    obtain ⟨before, p, after, hb, ⟨hc, rfl, rfl⟩ | ⟨hc, rfl, rfl⟩⟩ := release_eq_some hr
    · exact .child hb hc
    · exact .last hb hc

/-- A launch puts the particle that is picked on the processor. -/
theorem launch_eq_ok {s t : Session AsyncSmc} {next : Resume} (h : launch s = .ok next t) :
    ∃ p e g, Picks s.engine p e ∧ next = .carryOn p.resume p.store ∧
      t = ⟨{ countLaunch p e with active := some p }, { s.context with rng := g }⟩ := by
  unfold launch activate at h
  simp only [bind_eq_ok, Run.engine_eq_ok, Run.draw_eq_ok, Run.setEngine_eq_ok,
    Run.modifyEngine_eq_ok, pure_eq_ok] at h
  obtain ⟨_, _, ⟨rfl, rfl⟩, i, _, ⟨g, _, rfl⟩, _, _, rfl, _, _, rfl, rfl, rfl⟩ := h
  exact ⟨_, _, g, pick_picks s.engine i, rfl, rfl⟩

theorem takeActive_eq_ok {s t : Session AsyncSmc} {p : AsyncParticle}
    (h : takeActive s = .ok p t) :
    s.engine.active = some p ∧ t = { s with engine := { s.engine with active := none } } := by
  unfold takeActive at h
  simp only [bind_eq_ok, Run.engine_eq_ok] at h
  obtain ⟨_, _, ⟨rfl, rfl⟩, h⟩ := h
  cases ha : s.engine.active with
  | none =>
    simp only [ha] at h
    exact absurd h Run.fail_ne_ok
  | some q =>
    simp only [ha, bind_eq_ok, Run.setEngine_eq_ok, pure_eq_ok] at h
    obtain ⟨_, _, rfl, rfl, rfl⟩ := h
    exact ⟨rfl, rfl⟩

/-- An arrival either frees the processor, which then launches the next particle, or runs on. -/
theorem arrival_eq_ok {p : AsyncParticle} {index : Nat} {s t : Session AsyncSmc} {next : Resume}
    (h : arrival p index s = .ok next t) :
    ∃ fate moment e g, Arrives s.engine p index s.context.rng fate moment e g ∧
      (moment = .free ∧ launch ⟨e, { s.context with rng := g }⟩ = .ok next t ∨
        moment = .awaiting next ∧ t = ⟨e, { s.context with rng := g }⟩) := by
  unfold arrival at h
  split at h
  · rename_i hz
    simp only [drop, bind_eq_ok, Run.modifyEngine_eq_ok] at h
    obtain ⟨_, _, rfl, h⟩ := h
    exact ⟨_, _, _, _, .impossible hz, .inl ⟨rfl, h⟩⟩
  · rename_i hz
    rw [Bool.not_eq_true] at hz
    simp only [bind_eq_ok, Run.engine_eq_ok] at h
    obtain ⟨_, _, ⟨rfl, rfl⟩, h⟩ := h
    have hfull : decide (s.engine.bufferSize ≤ s.engine.buffer.length) = s.engine.full := rfl
    rw [hfull] at h
    cases hs : s.engine.stats.get? index with
    | none =>
      simp only [hs, bind_eq_ok, setStats, Run.modifyEngine_eq_ok, send] at h
      obtain ⟨_, _, rfl, h⟩ := h
      split at h <;> rename_i hf
      · simp only [activate, bind_eq_ok, Run.modifyEngine_eq_ok, pure_eq_ok] at h
        obtain ⟨_, _, rfl, rfl, rfl⟩ := h
        exact ⟨_, _, _, _, .ranOn hz (.first hs) hf, .inr ⟨rfl, rfl⟩⟩
      · simp only [bind_eq_ok, Run.modifyEngine_eq_ok] at h
        obtain ⟨_, _, rfl, h⟩ := h
        exact ⟨_, _, _, _, .parked hz (.first hs) (by simpa using hf), .inl ⟨rfl, h⟩⟩
    | some stats =>
      simp only [hs, bind_eq_ok, Run.draw_eq_ok, setStats, Run.modifyEngine_eq_ok] at h
      obtain ⟨o, _, ⟨g, hd, rfl⟩, _, _, rfl, h⟩ := h
      split at h <;> rename_i ho
      · simp only [drop, bind_eq_ok, Run.modifyEngine_eq_ok] at h
        obtain ⟨_, _, rfl, h⟩ := h
        exact ⟨_, _, _, _, .dropped hz hs hd ho, .inl ⟨rfl, h⟩⟩
      · simp only [send] at h
        split at h <;> rename_i hf
        · simp only [activate, bind_eq_ok, Run.modifyEngine_eq_ok, pure_eq_ok] at h
          obtain ⟨_, _, rfl, rfl, rfl⟩ := h
          exact ⟨_, _, _, _, .ranOn hz (.later hs hd ho) hf, .inr ⟨rfl, rfl⟩⟩
        · simp only [bind_eq_ok, Run.modifyEngine_eq_ok] at h
          obtain ⟨_, _, rfl, h⟩ := h
          exact ⟨_, _, _, _, .parked hz (.later hs hd ho) (by simpa using hf), .inl ⟨rfl, h⟩⟩

theorem conclude_eq_ok {s t : Session AsyncSmc} {result : Empirical}
    (h : conclude s = .ok result t) :
    s.engine.distribution = .ok result ∧ t.engine = s.engine := by
  unfold conclude at h
  simp only [bind_eq_ok, Run.engine_eq_ok, Run.ofExcept_eq_ok, pure_eq_ok] at h
  obtain ⟨_, _, ⟨rfl, rfl⟩, _, _, ⟨hd, rfl⟩, _, _, hr, rfl, rfl⟩ := h
  exact ⟨hd, Run.restore_engine hr⟩

section
variable {id : HandlerId} {s t : Session AsyncSmc} {control : Control Empirical}

/-- What the answer to a choice can be. -/
theorem sample_eq_ok {choice : Choice} {deliver : Delivery}
    (h : (handler id).answer (.sample choice deliver) s = .ok control t) :
    ∃ value g, choice.dist.draw choice.params s.context.rng = .ok value g ∧
      control = .resume (.deliver deliver choice.store value) ∧
      t = { s with context := { s.context with rng := g } } := by
  have hm := Handler.answer_sample h
  simp only [handler, bind_eq_ok, Run.draw_eq_ok, pure_eq_ok] at hm
  obtain ⟨value, _, ⟨g, hd, rfl⟩, rfl, rfl⟩ := hm
  exact ⟨value, g, hd, rfl, rfl⟩

/-- What the answer to a factor can be: the particle arrives there. -/
theorem factor_eq_ok {point : Factor} {resume : Continuation}
    (h : (handler id).answer (.factor point resume) s = .ok control t) :
    point.logWeight.isNaN = false ∧ ∃ p next fate moment e g,
      s.engine.active = some p ∧ control = .resume next ∧
      Arrives { s.engine with active := none } (p.arrive point resume) p.nextIndex s.context.rng
        fate moment e g ∧
      (moment = .free ∧ launch ⟨e, { s.context with rng := g }⟩ = .ok next t ∨
        moment = .awaiting next ∧ t = ⟨e, { s.context with rng := g }⟩) := by
  obtain ⟨hn, hm⟩ := Handler.answer_factor h
  simp only [handler, bind_eq_ok, pure_eq_ok] at hm
  obtain ⟨p, _, hp, next, _, hc, rfl, rfl⟩ := hm
  obtain ⟨active, rfl⟩ := takeActive_eq_ok hp
  obtain ⟨fate, moment, e, g, arrives, hend⟩ := arrival_eq_ok hc
  exact ⟨hn, p, next, fate, moment, e, g, active, rfl, arrives, hend⟩

/-- The session after an exit. -/
def exitWith (store : Store) (value : Value) (p : AsyncParticle) (s : Session AsyncSmc) :
    Session AsyncSmc :=
  { s with engine :=
    { s.engine with active := none, exited := s.engine.exited ++ [p.leave store value] } }

@[simp]
theorem exitWith_exited (store : Store) (value : Value) (p : AsyncParticle)
    (s : Session AsyncSmc) :
    (exitWith store value p s).engine.exited.length = s.engine.exited.length + 1 :=
  List.length_append

/-- What the answer to an exit can be: the next particle is launched if the budget is not used up,
else the run comes to its result. -/
theorem exit_eq_ok {store : Store} {value : Value}
    (h : (handler id).answer (.exit store value) s = .ok control t) :
    ∃ p, s.engine.active = some p ∧
      (s.engine.exited.length + 1 < s.engine.target ∧
          (∃ next, control = .resume next ∧ launch (exitWith store value p s) = .ok next t) ∨
        s.engine.target ≤ s.engine.exited.length + 1 ∧
          ∃ result, control = .done result ∧
            conclude (exitWith store value p s) = .ok result t) := by
  have hm := Handler.answer_exit h
  simp only [handler, bind_eq_ok, Run.modifyEngine_eq_ok, Run.engine_eq_ok] at hm
  obtain ⟨p, _, hp, _, _, rfl, _, _, ⟨rfl, rfl⟩, hm⟩ := hm
  obtain ⟨active, rfl⟩ := takeActive_eq_ok hp
  have hl := exitWith_exited store value p s
  refine ⟨p, active, ?_⟩
  split at hm <;> rename_i left <;> simp only [bind_eq_ok, pure_eq_ok] at hm
  · obtain ⟨next, _, hn, rfl, rfl⟩ := hm
    exact .inl ⟨hl ▸ left, next, rfl, hn⟩
  · obtain ⟨result, _, hc, rfl, rfl⟩ := hm
    exact .inr ⟨hl ▸ Nat.not_lt.mp left, result, rfl, hc⟩

end

theorem resume_eq {fuel extra : Nat} {s : Session AsyncSmc} (h : 0 < extra) :
    resume fuel extra s = drive fuel (raised extra s) := by
  unfold resume
  rw [if_neg (by omega)]
  rfl

/-- The engine before it has run, with nothing but fresh particles in its buffer. -/
def initial (config : AsyncConfig) (entry : Continuation) (store : Store) (id : HandlerId) :
    AsyncSmc :=
  { id, entry, store
    buffer := List.replicate (initialCount config.bufferSize) { resume := entry, store := store }
    bufferSize := config.bufferSize
    target := config.particles
    normalization := config.normalization
    metrics := .ofPopulation (initialCount config.bufferSize) }

/-- An engine is installed if the parameters are in order. -/
theorem install_eq_ok {config : AsyncConfig} {program : Program} {address : Address}
    {store : Store} {context context' : Context} {engine : AsyncSmc} :
    install config program address store context = .ok engine context' ↔
      config.validate = .ok () ∧ context' = (context.install "async-smc").2 ∧
        engine = initial config (program.entry address) store (context.install "async-smc").1 := by
  unfold install
  simp only [bind_eq_ok, InContext.ofExcept_eq_ok, InContext.install_eq_ok, pure_eq_ok]
  constructor
  · rintro ⟨_, _, ⟨hv, rfl⟩, _, _, ⟨rfl, rfl⟩, rfl, rfl⟩
    exact ⟨hv, rfl, rfl⟩
  · rintro ⟨hv, rfl, rfl⟩
    exact ⟨_, _, ⟨hv, rfl⟩, _, _, ⟨rfl, rfl⟩, rfl, rfl⟩

theorem Arrives.exited {e e' : AsyncSmc} {p : AsyncParticle} {index : Nat} {g g' : Rng}
    {fate : Fate} {moment : Moment} (h : Arrives e p index g fate moment e' g') :
    e'.exited = e.exited ∧ e'.target = e.target := by
  cases h <;> exact ⟨rfl, rfl⟩

variable {s₀ : Session AsyncSmc} {log : List Event}

/-- A particle only runs while the budget has not exited. -/
theorem Reaches.left {next : Resume} {s : Session AsyncSmc}
    (h : Reaches s₀ log (.awaiting next) s) : s.engine.exited.length < s.engine.target := by
  generalize hm : Moment.awaiting next = moment at h
  induction h generalizing next with
  | start => cases hm
  | launch before left launched ih =>
    obtain ⟨p, e, g, hp, rfl, rfl⟩ := launch_eq_ok launched
    unfold countLaunch
    cases hp <;> split <;> exact left
  | sample before effect drawn ih => exact ih rfl
  | factor before effect number active arrives ih =>
    obtain ⟨hx, ht⟩ := arrives.exited
    rw [hx, ht]
    exact ih rfl
  | exit before effect active ih => cases hm

/-- What an answer leads to: another effect is awaited, or the budget has exited and the result is
made of the particles that have. -/
def Leads (s₀ : Session AsyncSmc) (control : Control Empirical) (t : Session AsyncSmc) : Prop :=
  match control with
  | .resume next => ∃ log, Reaches s₀ log (.awaiting next) t
  | .done result => ∃ log s, Reaches s₀ log .free s ∧
      s.engine.target ≤ s.engine.exited.length ∧ t.engine = s.engine ∧
      s.engine.distribution = .ok result

theorem answer_leads {id : HandlerId} {next : Resume} {s t : Session AsyncSmc}
    {control : Control Empirical} (hr : Reaches s₀ log (.awaiting next) s)
    (h : (handler id).answer next.invoke s = .ok control t) : Leads s₀ control t := by
  cases hi : next.invoke with
  | sample choice deliver =>
    rw [hi] at h
    obtain ⟨value, g, hd, rfl, rfl⟩ := sample_eq_ok h
    exact ⟨log, hr.sample hi hd⟩
  | factor point resume =>
    rw [hi] at h
    obtain ⟨hn, p, next', fate, moment, e, g, hactive, rfl, ha, hend⟩ := factor_eq_ok h
    obtain ⟨rfl, hl⟩ | ⟨rfl, rfl⟩ := hend
    · obtain ⟨hx, ht⟩ := ha.exited
      have hleft := hr.left
      refine ⟨_, (hr.factor hi hn hactive ha).launch ?_ hl⟩
      rw [hx, ht]
      exact hleft
    · exact ⟨_, hr.factor hi hn hactive ha⟩
  | exit store value =>
    rw [hi] at h
    obtain ⟨p, hactive, ⟨left, next', rfl, hl⟩ | ⟨used, result, rfl, hc⟩⟩ := exit_eq_ok h
    · refine ⟨_, (hr.exit hi hactive).launch ?_ hl⟩
      rwa [← exitWith_exited store value p s] at left
    · obtain ⟨hd, he⟩ := conclude_eq_ok hc
      refine ⟨_, _, hr.exit hi hactive, ?_, he, hd⟩
      rwa [← exitWith_exited store value p s] at used

/-- A run that comes to a result made it when its budget had exited. -/
theorem drive_leads {fuel : Nat} {result : Empirical} {t : Session AsyncSmc}
    (h : drive fuel s₀ = .ok result t) : Leads s₀ (.done result) t := by
  unfold drive at h
  simp only [bind_eq_ok, Run.engine_eq_ok] at h
  obtain ⟨_, _, ⟨rfl, rfl⟩, h⟩ := h
  split at h <;> rename_i hx
  · obtain ⟨hd, he⟩ := conclude_eq_ok h
    exact ⟨[], s₀, .start, hx, he, hd⟩
  · simp only [bind_eq_ok] at h
    obtain ⟨next, r, hl, h⟩ := h
    refine Handler.dispatch_induction
      (P := fun next s => Leads s₀ (.resume next) s)
      (Q := fun result s => Leads s₀ (.done result) s)
      ?_ ⟨[], Reaches.start.launch (Nat.not_le.mp hx) hl⟩ (Run.guarding_eq_ok.mp h)
    rintro next s control t ⟨log, hr⟩ ha
    have hlead := answer_leads hr ha
    cases control <;> exact hlead

/-- Every moment between two effects of a run is one of its moments. -/
theorem passes_leads {id : HandlerId} {first next : Resume} {r s : Session AsyncSmc}
    (left : s₀.engine.exited.length < s₀.engine.target) (hl : launch s₀ = .ok first r)
    (h : (handler id).Passes first r next s) : ∃ log, Reaches s₀ log (.awaiting next) s :=
  h.induction (P := fun next s => ∃ log, Reaches s₀ log (.awaiting next) s)
    ⟨[], Reaches.start.launch left hl⟩ fun _ _ _ _ ⟨_, reached⟩ answered =>
      answer_leads reached answered

/-- A particle that has come to a factor: the index of the factor, the weight that it brings, how many
executions it stands for, and what becomes of it. -/
structure Arrival where
  index : Nat
  weight : Float
  multiplicity : Float
  fate : Fate

def Arrival.event (a : Arrival) : Event := .arrival a.index a.fate

def Event.isArrival : Event → Bool
  | arrival _ _ => true
  | exit _ => false

/-- The moments of a run that is resumed any number of times, with all arrivals up to each of them. -/
inductive Sees (s₀ : Session AsyncSmc) : List Arrival → Moment → Session AsyncSmc → Prop where
  | start : Sees s₀ [] .free s₀
  | launch {seen : List Arrival} {next : Resume} {s t : Session AsyncSmc}
      (before : Sees s₀ seen .free s) (left : s.engine.exited.length < s.engine.target)
      (launched : AsyncSmc.launch s = .ok next t) : Sees s₀ seen (.awaiting next) t
  | sample {seen : List Arrival} {next : Resume} {s : Session AsyncSmc} {choice : Choice}
      {deliver : Delivery} {value : Value} {g : Rng} (before : Sees s₀ seen (.awaiting next) s)
      (effect : next.invoke = .sample choice deliver)
      (drawn : choice.dist.draw choice.params s.context.rng = .ok value g) :
      Sees s₀ seen (.awaiting (.deliver deliver choice.store value))
        { s with context := { s.context with rng := g } }
  | factor {seen : List Arrival} {next : Resume} {s : Session AsyncSmc} {point : Factor}
      {resume : Continuation} {p : AsyncParticle} {fate : Fate} {moment : Moment} {e : AsyncSmc}
      {g : Rng} (before : Sees s₀ seen (.awaiting next) s)
      (effect : next.invoke = .factor point resume) (number : point.logWeight.isNaN = false)
      (active : s.engine.active = some p)
      (arrives : Arrives { s.engine with active := none } (p.arrive point resume) p.nextIndex
        s.context.rng fate moment e g) :
      Sees s₀ (seen ++ [⟨p.nextIndex, (p.arrive point resume).weight, p.multiplicity, fate⟩]) moment
        ⟨e, { s.context with rng := g }⟩
  | exit {seen : List Arrival} {next : Resume} {s : Session AsyncSmc} {store : Store}
      {value : Value} {p : AsyncParticle} (before : Sees s₀ seen (.awaiting next) s)
      (effect : next.invoke = .exit store value) (active : s.engine.active = some p) :
      Sees s₀ seen .free
        { s with engine :=
          { s.engine with active := none, exited := s.engine.exited ++ [p.leave store value] } }
  | again {seen : List Arrival} {s : Session AsyncSmc} {extra : Nat} {context : Context}
      (before : Sees s₀ seen .free s) (spent : s.engine.target ≤ s.engine.exited.length)
      (more : 0 < extra) : Sees s₀ seen .free (raised extra ⟨s.engine, context⟩)

section
variable {s t : Session AsyncSmc} {seen : List Arrival} {moment : Moment}

/-- Every moment of a run comes with its arrivals, which are those on the log of the run. -/
theorem Reaches.sees (first : Sees s₀ seen .free s) (h : Reaches s log moment t) :
    ∃ seen', Sees s₀ (seen ++ seen') moment t ∧
      seen'.map Arrival.event = log.filter Event.isArrival := by
  induction h with
  | start => exact ⟨[], by rwa [List.append_nil], rfl⟩
  | launch before left launched ih =>
    obtain ⟨seen', sees, same⟩ := ih
    exact ⟨seen', sees.launch left launched, same⟩
  | sample before effect drawn ih =>
    obtain ⟨seen', sees, same⟩ := ih
    exact ⟨seen', sees.sample effect drawn, same⟩
  | factor before effect number active arrives ih =>
    obtain ⟨seen', sees, same⟩ := ih
    have sees := sees.factor effect number active arrives
    rw [List.append_assoc] at sees
    refine ⟨_, sees, ?_⟩
    rw [List.map_append, same, List.filter_append]
    rfl
  | exit before effect active ih =>
    obtain ⟨seen', sees, same⟩ := ih
    refine ⟨seen', sees.exit effect active, ?_⟩
    rw [List.filter_append, same]
    exact (List.append_nil _).symm

theorem Resumes.sees (h : Resumes s₀ log s) :
    ∃ seen, Sees s₀ seen .free s ∧ seen.map Arrival.event = log.filter Event.isArrival := by
  induction h with
  | first => exact ⟨[], .start, rfl⟩
  | again before ran spent more ih =>
    obtain ⟨seen, sees, same⟩ := ih
    obtain ⟨seen', sees', same'⟩ := ran.sees sees
    exact ⟨seen ++ seen', sees'.again spent more,
      by rw [List.map_append, List.filter_append, same, same']⟩

end

end AsyncSmc

end Posterior
