import Mathlib.Algebra.GroupWithZero.Nat
import Posterior.Proofs.AsyncRuns
import Posterior.Proofs.Replay
import Posterior.Proofs.Turns

/-!
Asynchronous runs lose and duplicate no particle. Every execution that was launched or released at a
factor is accounted for: it has arrived at the factor after, has exited, waits in the buffer, or is
on the processor.
-/

namespace Posterior.AsyncSmc

variable {log log' : List Event} {i index : Nat} {last : Option Nat} {fate : Fate}

def Event.arrivesAt (i : Nat) : Event → Bool
  | arrival index _ => index == i
  | exit _ => false

/-- How many executions an event releases at a factor. -/
def Event.releasesAt (i : Nat) : Event → Nat
  | arrival index fate => if index = i then fate.released else 0
  | exit _ => 0

/-- How often a particle has arrived at a factor, impossible ones included. -/
def arrivals (log : List Event) (i : Nat) : Nat := log.countP (·.arrivesAt i)

/-- How many particles have exited after this factor, or without any. -/
def exits (log : List Event) (last : Option Nat) : Nat := log.count (.exit last)

/-- How many executions have been released at a factor. -/
def released (log : List Event) (i : Nat) : Nat := (log.map (·.releasesAt i)).sum

/-- How many executions a waiting particle owes at a factor. -/
def owes (i : Nat) (p : AsyncParticle) : Nat := if p.factorIndex = some i then p.children else 0

def owed (buffer : List AsyncParticle) (i : Nat) : Nat := (buffer.map (owes i)).sum

/-- How many of the waiting particles have not been started. -/
def unstarted (buffer : List AsyncParticle) : Nat := buffer.countP (·.isFresh)

/-- One if the particle on the processor has passed this factor last, or none. -/
def running (e : AsyncSmc) (last : Option Nat) : Nat :=
  match e.active with
  | some p => if p.factorIndex = last then 1 else 0
  | none => 0

/-- Every particle that was started or released is accounted for, once. -/
structure Balanced (log : List Event) (e : AsyncSmc) : Prop where
  launched : e.launched = arrivals log 0 + exits log none + e.running none
  released : ∀ i, released log i =
    arrivals log (i + 1) + exits log (some i) + owed e.buffer i + e.running (some i)
  spawned : e.metrics.particlesSpawned = e.launched + unstarted e.buffer
  executions : e.metrics.executions = e.launched + unstarted e.buffer

@[simp] theorem arrivals_append_exit :
    arrivals (log ++ [.exit last]) i = arrivals log i := by
  simp [arrivals, Event.arrivesAt]

@[simp] theorem arrivals_append_arrival :
    arrivals (log ++ [.arrival index fate]) i = arrivals log i + if index = i then 1 else 0 := by
  simp [arrivals, Event.arrivesAt, List.countP_cons]

@[simp] theorem exits_append_arrival :
    exits (log ++ [.arrival index fate]) last = exits log last := by
  simp [exits]

@[simp] theorem exits_append_exit {last' : Option Nat} :
    exits (log ++ [.exit last']) last = exits log last + if last' = last then 1 else 0 := by
  simp [exits, List.count_cons]

@[simp] theorem released_append_exit :
    released (log ++ [.exit last]) i = released log i := by
  simp [released, Event.releasesAt]

@[simp] theorem released_append_arrival :
    released (log ++ [.arrival index fate]) i =
      released log i + if index = i then fate.released else 0 := by
  simp [released, Event.releasesAt]

@[simp] theorem owed_append {before after : List AsyncParticle} :
    owed (before ++ after) i = owed before i + owed after i := by
  simp [owed]

@[simp] theorem owed_cons {p : AsyncParticle} {rest : List AsyncParticle} :
    owed (p :: rest) i = owes i p + owed rest i := by
  simp [owed]

@[simp] theorem unstarted_append {before after : List AsyncParticle} :
    unstarted (before ++ after) = unstarted before + unstarted after := by
  simp [unstarted]

@[simp] theorem unstarted_cons {p : AsyncParticle} {rest : List AsyncParticle} :
    unstarted (p :: rest) = (if p.isFresh then 1 else 0) + unstarted rest := by
  simp [unstarted, List.countP_cons, Nat.add_comm]

end Posterior.AsyncSmc

namespace Posterior.AsyncParticle

variable {p : AsyncParticle} {i : Nat} {root : Step}

theorem nextIndex_eq_zero : p.nextIndex = 0 ↔ p.factorIndex = none := by
  unfold nextIndex
  cases p.factorIndex <;> simp

theorem nextIndex_eq_succ : p.nextIndex = i + 1 ↔ p.factorIndex = some i := by
  unfold nextIndex
  cases p.factorIndex <;> simp

theorem isFresh_iff : p.isFresh = true ↔ p.factorIndex = none := Option.isNone_iff_eq_none

/-- A waiting particle stands right behind the factor that it names, and owes an execution unless
it has not been started. -/
structure Waits (root : Step) (p : AsyncParticle) : Prop where
  course : root.ComesTo p.nextIndex (p.resume p.store)
  owes : p.isFresh = true ↔ p.children = 0

theorem Waits.owes_of_fresh (h : p.Waits root) (hf : p.factorIndex = none) : p.children = 0 :=
  h.owes.mp (isFresh_iff.mpr hf)

theorem Waits.owes_of_some (h : p.Waits root) (hf : p.factorIndex = some i) : 0 < p.children := by
  refine Nat.pos_of_ne_zero fun hc => ?_
  rw [isFresh_iff.mp (h.owes.mpr hc)] at hf
  cases hf

theorem Waits.release (h : p.Waits root) (several : 1 < p.children) :
    p.child.Waits root ∧ { p with children := p.children - 1 }.Waits root := by
  have started : p.isFresh ≠ true := fun fresh => by
    rw [h.owes.mp fresh] at several
    cases several
  refine ⟨⟨h.course, iff_of_false started Nat.one_ne_zero⟩, ⟨h.course, iff_of_false started ?_⟩⟩
  change p.children - 1 ≠ 0
  omega

end Posterior.AsyncParticle

namespace Posterior.AsyncSmc

open Numeric

variable {log : List Event} {root : Step} {e e' : AsyncSmc} {p q : AsyncParticle}

/-- Who is on the processor at a moment: an execution of the program that has passed as many factors
as it says and is about to perform the effect that is awaited. -/
def OnProcessor (root : Step) (moment : Moment) (e : AsyncSmc) : Prop :=
  match moment with
  | .free => e.active = none
  | .awaiting next => ∃ p, e.active = some p ∧ root.ComesTo p.nextIndex next.invoke

/-- What holds at every moment. -/
structure Accounted (root : Step) (log : List Event) (moment : Moment) (e : AsyncSmc) : Prop where
  balanced : Balanced log e
  waiting : ∀ q ∈ e.buffer, q.Waits root
  entry : e.entry e.store = root
  processor : OnProcessor root moment e

theorem Keeps.kept {index : Nat} {g g' : Rng} {stats : FactorStats}
    (h : Keeps e p index g q stats g') :
    q.factorIndex = p.factorIndex ∧ q.resume = p.resume ∧ q.store = p.store ∧ q.children ≠ 0 := by
  cases h with
  | first unseen => exact ⟨rfl, rfl, rfl, Nat.one_ne_zero⟩
  | later seen drawn some =>
    unfold withOffspring
    split
    · exact ⟨rfl, rfl, rfl, Nat.one_ne_zero⟩
    · exact ⟨rfl, rfl, rfl, some⟩

/-- A particle leaves the processor at a factor, with as many executions released there as come to
the buffer or stay on the processor. -/
theorem Balanced.arrival {fate : Fate} (h : Balanced log e) (active : e.active = some p)
    (launched : e'.launched = e.launched)
    (spawned : e'.metrics.particlesSpawned = e.metrics.particlesSpawned)
    (executions : e'.metrics.executions = e.metrics.executions)
    (buffer : unstarted e'.buffer = unstarted e.buffer) (started : e'.running none = 0)
    (released : ∀ i, owed e'.buffer i + e'.running (some i) =
      owed e.buffer i + if p.nextIndex = i then fate.released else 0) :
    Balanced (log ++ [.arrival p.nextIndex fate]) e' := by
  have hrun : ∀ last, e.running last = if p.factorIndex = last then 1 else 0 := by
    intro last
    unfold running
    rw [active]
  refine ⟨?_, fun i => ?_, ?_, ?_⟩
  · have hl := h.launched
    simp only [arrivals_append_arrival, exits_append_arrival, AsyncParticle.nextIndex_eq_zero]
    rw [hrun] at hl
    omega
  · have hr := h.released i
    have hi := released i
    simp only [released_append_arrival, arrivals_append_arrival, exits_append_arrival,
      AsyncParticle.nextIndex_eq_succ]
    rw [hrun] at hr
    omega
  · rw [spawned, launched, buffer, h.spawned]
  · rw [executions, launched, buffer, h.executions]

theorem Balanced.exit {e' : AsyncSmc} (h : Balanced log e) (active : e.active = some p)
    (launched : e'.launched = e.launched) (metrics : e'.metrics = e.metrics)
    (buffer : e'.buffer = e.buffer) (free : e'.active = none) :
    Balanced (log ++ [.exit p.factorIndex]) e' := by
  have hrun : ∀ last, e.running last = if p.factorIndex = last then 1 else 0 := by
    intro last
    unfold running
    rw [active]
  have hfree : ∀ last, e'.running last = 0 := by
    intro last
    unfold running
    rw [free]
  refine ⟨?_, fun i => ?_, ?_, ?_⟩
  · have hl := h.launched
    simp only [arrivals_append_exit, exits_append_exit, hfree]
    rw [hrun] at hl
    omega
  · have hr := h.released i
    simp only [released_append_exit, arrivals_append_exit, exits_append_exit, hfree, buffer]
    rw [hrun] at hr
    omega
  · rw [metrics, launched, buffer, h.spawned]
  · rw [metrics, launched, buffer, h.executions]

/-- The engine with a particle that is started or released on the processor. -/
def engage (p : AsyncParticle) (e : AsyncSmc) : AsyncSmc :=
  { countLaunch p e with active := some p }

theorem engage_launched :
    (engage p e).launched = e.launched + if p.factorIndex = none then 1 else 0 := by
  simp only [engage, countLaunch, AsyncParticle.isFresh_iff]
  split <;> rfl

theorem engage_buffer : (engage p e).buffer = e.buffer := by
  unfold engage countLaunch
  split <;> rfl

theorem engage_metrics : (engage p e).metrics = e.metrics := by
  unfold engage countLaunch
  split <;> rfl

theorem engage_running {last : Option Nat} :
    (engage p e).running last = if p.factorIndex = last then 1 else 0 := rfl

theorem Picks.launched (h : Picks e p e') : e'.launched = e.launched := by
  cases h <;> rfl

/-- What is picked was owed before, if it has been started. -/
theorem Picks.owed (h : Picks e p e') (waiting : ∀ q ∈ e.buffer, q.Waits root) (i : Nat) :
    owed e'.buffer i + (if p.factorIndex = some i then 1 else 0) = owed e.buffer i := by
  cases h with
  | fresh => simp [AsyncSmc.fresh]
  | @child before after p buffer several =>
    change AsyncSmc.owed _ i + (if p.factorIndex = some i then 1 else 0) = _
    simp only [buffer, owed_append, owed_cons, owes]
    split <;> omega
  | @last before after p buffer few =>
    have hp := waiting p (by simp [buffer])
    simp only [buffer, owed_append, owed_cons, owes]
    split <;> rename_i hf
    · have hc := hp.owes_of_some hf
      omega
    · omega

/-- What is picked was waiting or is counted anew, if it has not been started. -/
theorem Picks.unstarted (h : Picks e p e') (waiting : ∀ q ∈ e.buffer, q.Waits root) :
    ∃ anew, e'.metrics.particlesSpawned = e.metrics.particlesSpawned + anew ∧
      e'.metrics.executions = e.metrics.executions + anew ∧
      unstarted e'.buffer + (if p.factorIndex = none then 1 else 0) =
        unstarted e.buffer + anew := by
  cases h with
  | fresh => exact ⟨1, rfl, rfl, rfl⟩
  | @child before after p buffer several =>
    have hp := waiting p (by simp [buffer])
    have hf : p.factorIndex ≠ none := fun hf => by
      rw [hp.owes_of_fresh hf] at several
      omega
    refine ⟨0, rfl, rfl, ?_⟩
    change AsyncSmc.unstarted _ + (if p.factorIndex = none then 1 else 0) = _
    simp only [buffer, unstarted_append, unstarted_cons, AsyncParticle.isFresh_iff, if_neg hf,
      Nat.add_zero]
  | @last before after p buffer few =>
    refine ⟨0, rfl, rfl, ?_⟩
    simp only [buffer, unstarted_append, unstarted_cons, AsyncParticle.isFresh_iff]
    omega

/-- What is picked has come as far as it says. -/
theorem Picks.waits (h : Picks e p e') (waiting : ∀ q ∈ e.buffer, q.Waits root)
    (entry : e.entry e.store = root) : p.Waits root ∧ ∀ q ∈ e'.buffer, q.Waits root :=
  h.forall waiting ⟨entry ▸ .rest, iff_of_true rfl rfl⟩ fun _ several hq => hq.release several

theorem Balanced.launch (h : Balanced log e) (free : e.active = none)
    (waiting : ∀ q ∈ e.buffer, q.Waits root) (picks : Picks e p e') :
    Balanced log (engage p e') := by
  have hfree : ∀ last, e.running last = 0 := by
    intro last
    unfold running
    rw [free]
  obtain ⟨anew, hs, hx, hu⟩ := picks.unstarted waiting
  have hl := h.launched
  rw [hfree] at hl
  refine ⟨?_, fun i => ?_, ?_, ?_⟩
  · rw [engage_launched, engage_running, picks.launched]
    omega
  · have hr := h.released i
    have ho := picks.owed waiting i
    rw [hfree] at hr
    rw [engage_buffer, engage_running]
    omega
  · rw [engage_metrics, engage_launched, engage_buffer, picks.launched, hs, h.spawned]
    omega
  · rw [engage_metrics, engage_launched, engage_buffer, picks.launched, hx, h.executions]
    omega

theorem Accounted.launch (h : Accounted root log .free e) (picks : Picks e p e') :
    Accounted root log (.awaiting (.carryOn p.resume p.store)) (engage p e') := by
  obtain ⟨picked, waiting⟩ := picks.waits h.waiting h.entry
  refine ⟨h.balanced.launch h.processor h.waiting picks, ?_, ?_, p, rfl, picked.course⟩
  · rw [engage_buffer]
    exact waiting
  · have he := h.entry
    unfold engage countLaunch
    cases picks <;> split <;> exact he

/-- A particle that is kept stands right behind the factor and owes an execution. -/
theorem Keeps.waits {index : Nat} {point : Factor} {resume : Continuation} {g g' : Rng}
    {stats : FactorStats} (h : Keeps e (p.arrive point resume) index g q stats g')
    (course : root.ComesTo p.nextIndex (.factor point resume)) :
    q.settleWeight.factorIndex = some p.nextIndex ∧ q.settleWeight.Waits root := by
  obtain ⟨hf, hr, hs, hc⟩ := h.kept
  have hfactor : q.settleWeight.factorIndex = some p.nextIndex := hf
  refine ⟨hfactor, ?_, ?_⟩
  · rw [AsyncParticle.nextIndex_eq_succ.mpr hfactor]
    change root.ComesTo _ (q.resume q.store)
    rw [hr, hs]
    exact .factor course
  · rw [AsyncParticle.isFresh_iff, hfactor]
    exact iff_of_false (Option.some_ne_none _) hc

/-- One arrival: what is released at the factor waits there or runs on. -/
theorem Accounted.arrival {next : Resume} {point : Factor} {resume : Continuation} {g g' : Rng}
    {fate : Fate} {moment : Moment} (h : Accounted root log (.awaiting next) e)
    (effect : next.invoke = .factor point resume) (active : e.active = some p)
    (arrives : Arrives { e with active := none } (p.arrive point resume) p.nextIndex g fate moment
      e' g') :
    Accounted root (log ++ [.arrival p.nextIndex fate]) moment e' := by
  have hcourse : root.ComesTo p.nextIndex (.factor point resume) := by
    obtain ⟨p', ha, hc⟩ := h.processor
    obtain rfl := Option.some.inj (active.symm.trans ha)
    rwa [effect] at hc
  -- A particle that is lost releases nothing, and the buffer is as before.
  have hdropped : ∀ i, owed e.buffer i + 0 =
      owed e.buffer i + if p.nextIndex = i then 0 else 0 := by
    intro i
    rw [ite_self]
  cases arrives with
  | impossible lost =>
    exact ⟨h.balanced.arrival active rfl rfl rfl rfl rfl hdropped, h.waiting, h.entry, rfl⟩
  | dropped possible seen drawn none =>
    exact ⟨h.balanced.arrival active rfl rfl rfl rfl rfl hdropped, h.waiting, h.entry, rfl⟩
  | @parked q stats _ possible keeps space =>
    obtain ⟨hf, hw⟩ := keeps.waits hcourse
    refine ⟨h.balanced.arrival active rfl rfl rfl ?_ rfl fun i => ?_, ?_, h.entry, rfl⟩
    · have hs : q.settleWeight.isFresh = false := by
        rw [← Bool.not_eq_true, AsyncParticle.isFresh_iff, hf]
        exact Option.some_ne_none _
      change unstarted (e.buffer ++ [q.settleWeight]) = _
      rw [unstarted_append, unstarted_cons, hs]
      rfl
    · change owed (e.buffer ++ [q.settleWeight]) i + 0 =
        owed e.buffer i + if p.nextIndex = i then q.children else 0
      simp only [owed_append, owed_cons, owes, hf, Option.some.injEq]
      rfl
    · intro r hr
      rcases List.mem_append.mp hr with hr | hr
      · exact h.waiting r hr
      · obtain rfl := List.mem_singleton.mp hr
        exact hw
  | @ranOn q stats _ possible keeps full =>
    obtain ⟨hf, hw⟩ := keeps.waits hcourse
    refine ⟨h.balanced.arrival active rfl rfl rfl rfl ?_ fun i => ?_, h.waiting, h.entry,
      _, rfl, hw.course⟩
    · change (if q.settleWeight.factorIndex = none then 1 else 0) = 0
      rw [hf]
      rfl
    · change owed e.buffer i + (if q.settleWeight.factorIndex = some i then 1 else 0) =
        owed e.buffer i + if p.nextIndex = i then 1 else 0
      simp only [hf, Option.some.injEq]

theorem Accounted.exit {next : Resume} {store : Store} {value : Value}
    (h : Accounted root log (.awaiting next) e) (active : e.active = some p) :
    Accounted root (log ++ [.exit p.factorIndex]) .free
      { e with active := none, exited := e.exited ++ [p.leave store value] } :=
  ⟨h.balanced.exit active rfl rfl rfl rfl, h.waiting, h.entry, rfl⟩

theorem Accounted.sample {choice : Choice} {deliver : Delivery} {value : Value} {next : Resume}
    {g g' : Rng} (h : Accounted root log (.awaiting next) e)
    (effect : next.invoke = .sample choice deliver)
    (drawn : choice.dist.draw choice.params g = .ok value g') :
    Accounted root log (.awaiting (.deliver deliver choice.store value)) e := by
  obtain ⟨p, hp, hc⟩ := h.processor
  rw [effect] at hc
  exact ⟨h.balanced, h.waiting, h.entry, p, hp, .choice hc ⟨g, g', drawn⟩⟩

/-- Every step of a run keeps the account. -/
theorem Reaches.accounted {s₀ s : Session AsyncSmc} {before log : List Event} {moment : Moment}
    (h₀ : Accounted root before .free s₀.engine) (h : Reaches s₀ log moment s) :
    Accounted root (before ++ log) moment s.engine := by
  induction h with
  | start => rwa [List.append_nil]
  | launch _ left launched ih =>
    obtain ⟨p, e', g, hp, rfl, rfl⟩ := launch_eq_ok launched
    exact ih.launch hp
  | sample _ effect drawn ih => exact ih.sample effect drawn
  | factor _ effect number active arrives ih =>
    rw [← List.append_assoc]
    exact ih.arrival effect active arrives
  | exit _ effect active ih =>
    rw [← List.append_assoc]
    exact ih.exit active

/-- Neither a greater budget nor another place on the stack touches the account. -/
theorem Accounted.raised (h : Accounted root log .free e) (extra : Nat) (c : Context) :
    Accounted root log .free (raised extra ⟨e, c⟩).engine :=
  ⟨⟨h.balanced.launched, h.balanced.released, h.balanced.spawned, h.balanced.executions⟩,
    h.waiting, h.entry, h.processor⟩

theorem Resumes.accounted {s₀ s : Session AsyncSmc} (h₀ : Accounted root [] .free s₀.engine)
    (h : Resumes s₀ log s) : Accounted root log .free s.engine := by
  induction h with
  | first => exact h₀
  | again before ran spent more ih => exact (ran.accounted ih).raised _ _

theorem unstarted_replicate {n : Nat} (h : p.isFresh = true) :
    unstarted (List.replicate n p) = n := by
  simp [unstarted, List.countP_replicate, h]

theorem owed_replicate {n i : Nat} (h : p.factorIndex = none) :
    owed (List.replicate n p) i = 0 := by
  simp [owed, owes, h]

theorem install_accounted {config : AsyncConfig} {program : Program} {address : Address}
    {store : Store} {context context' : Context} {engine : AsyncSmc}
    (h : install config program address store context = .ok engine context') :
    Accounted (program store address) [] .free engine := by
  obtain ⟨_, _, rfl⟩ := install_eq_ok.mp h
  generalize (context.install "async-smc").1 = id
  have hu : unstarted (initial config (program.entry address) store id).buffer =
      initialCount config.bufferSize := unstarted_replicate rfl
  have ho : ∀ i, owed (initial config (program.entry address) store id).buffer i = 0 :=
    fun _ => owed_replicate rfl
  refine ⟨⟨rfl, fun i => ?_, ?_, ?_⟩, ?_, rfl, rfl⟩
  · rw [ho]
    rfl
  · rw [hu]
    exact (Nat.zero_add _).symm
  · rw [hu]
    exact (Nat.zero_add _).symm
  · intro q hq
    obtain ⟨_, rfl⟩ := List.mem_replicate.mp hq
    exact ⟨.rest, iff_of_true rfl rfl⟩

/-- However often a run that has come to its result is resumed, every particle is accounted for at
every moment: what was launched has arrived at the first factor, has exited without one or is
running before it; what was released at a factor has arrived at the next, has exited, is owed by
the buffer or is running in between; and all that was counted was launched or waits to be. The
particle that is running has passed as many factors of the program as it says. All moments of a
real run are among these, and so are the starts of real resumptions. -/
theorem no_particle_lost {config : AsyncConfig} {program : Program} {address : Address}
    {store : Store} {context context' : Context} {engine : AsyncSmc}
    (installed : install config program address store context = .ok engine context')
    {log : List Event} {s : Session AsyncSmc} (resumed : Resumes ⟨engine, context'⟩ log s) :
    (∀ log' moment t, Reaches s log' moment t →
      Balanced (log ++ log') t.engine ∧ OnProcessor (program store address) moment t.engine) ∧
    (∀ id first next r t, s.engine.exited.length < s.engine.target → launch s = .ok first r →
      (handler id).Passes first r next t → ∃ log', Reaches s log' (.awaiting next) t) ∧
    ∀ fuel result t, drive fuel s = .ok result t →
      ∃ log', Balanced (log ++ log') t.engine ∧ t.engine.active = none ∧
        ∀ extra c, 0 < extra →
          Resumes ⟨engine, context'⟩ (log ++ log') (raised extra ⟨t.engine, c⟩) ∧
          ∀ fuel, resume fuel extra ⟨t.engine, c⟩ = drive fuel (raised extra ⟨t.engine, c⟩) := by
  have hs := resumed.accounted (install_accounted installed)
  refine ⟨?_, ?_, ?_⟩
  · intro log' moment t ht
    have h := ht.accounted hs
    exact ⟨h.balanced, h.processor⟩
  · intro id first next r t left launched passes
    exact passes_leads left launched passes
  · intro fuel result t hd
    obtain ⟨log', r, hr, hover, he, _⟩ := drive_leads hd
    have h := hr.accounted hs
    rw [he]
    refine ⟨log', h.balanced, h.processor, fun extra c more => ⟨.again resumed hr hover more, ?_⟩⟩
    exact fun fuel => resume_eq more

/-- Two particles of `headsWeighed` are launched. The first one shows heads, waits at the factor and
exits; the second one is launched by a resumption, shows tails and exits. -/
theorem headsWeighed_accounted :
    ∃ engine context log s log' t,
      install { particles := 1, bufferSize := 1 } headsWeighed .root default
        { rng := steadyRng 0 } = .ok engine context ∧
      Resumes ⟨engine, context⟩ log s ∧ Reaches s log' .free t ∧
      t.engine.launched = 2 ∧ Balanced (log ++ log') t.engine := by
  let s₀ : Session AsyncSmc :=
    ⟨{ id := ⟨1⟩, entry := headsWeighed.entry .root, store := default, buffer := [],
       bufferSize := 1, target := 1, normalization := .finalWeights, metrics := .ofPopulation 0 },
      { rng := steadyRng 0, stack := [⟨⟨1⟩, "async-smc"⟩], next := 2 }⟩
  have hi : install { particles := 1, bufferSize := 1 } headsWeighed .root default
      { rng := steadyRng 0 } = .ok s₀.engine s₀.context := rfl
  have hran : succeedsWith
      (fun _ r => succeedsWith (fun _ t => t.engine.launched == 2)
        (drive 9 (raised 1 ⟨r.engine, { rng := steadyRng 0xFFFFFFFF }⟩)))
      (drive 9 s₀) = true := by
    decide +kernel
  obtain ⟨result, r, hd, hran⟩ := exists_of_succeedsWith hran
  obtain ⟨result', t, hd', two⟩ := exists_of_succeedsWith hran
  obtain ⟨log, _, _, hagain⟩ := (no_particle_lost hi .first).2.2 9 result r hd
  have hr := (hagain 1 { rng := steadyRng 0xFFFFFFFF } Nat.one_pos).1
  obtain ⟨log', t', ht, _, he, _⟩ := drive_leads hd'
  obtain ⟨hb, _⟩ := (no_particle_lost hi hr).1 log' .free t' ht
  refine ⟨_, _, _, _, log', t', hi, hr, ht, ?_, hb⟩
  rw [← he]
  simpa using two

end Posterior.AsyncSmc
