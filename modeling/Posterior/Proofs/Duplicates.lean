import Posterior.Proofs.RunMoves
import Posterior.Proofs.TraceIndex

/-!
Addresses that come up twice. A choice at an address that is on the trace of its chain ends the run at
once. The chain of a particle above a floor does not hold the choices below it, so that one of their
addresses may come up again: it is found when the particle is put together after its last step, if the
execution that holds it has been kept until then.
-/

namespace Posterior

open Numeric

/-- The choices lead the program to the choice of the entry. -/
def Entry.Follows (e : Entry) (root : Step) (es : List Entry) : Prop :=
  ∃ score factors, Replay anyScore (.start root) es ⟨.sample e.choice e.deliver, score, factors⟩

namespace Chain

variable {c : Chain} {e : Entry} {forced : Bool} {g g' : Rng}

/-- The value of an entry is at hand and its score is a number; only the trace may still refuse it. -/
structure Ready (c : Chain) (e : Entry) (forced : Bool) (g g' : Rng) : Prop where
  entry : e = c.newEntry e.choice e.deliver e.value e.choiceScore forced
  chosen : c.Chosen e forced g g'
  score : e.choice.dist.score e.choice.params e.value = .ok e.choiceScore
  number : e.choiceScore.isNaN = false

/-- The chain refuses an address that is on its trace. -/
theorem Ready.visited (h : c.Ready e forced g g') (visited : e.address ∈ c.trace.addresses) :
    ∃ t, site e.choice e.deliver forced (c, g) =
      .error (.duplicateAddress e.address c.trace.length) t := by
  have scored : (e.choice.dist.score e.choice.params e.value >>=
      ensureNumber "score-nan" "choice score") = .ok e.choiceScore :=
    except_bind_eq_ok.mpr ⟨_, h.score, ensureNumber_eq_ok.mpr ⟨rfl, h.number⟩⟩
  refine ⟨(c, g'), ?_⟩
  rw [h.chosen.site_eq]
  exact record_visited scored visited

/-- Any other address goes on record. -/
theorem Ready.recorded (h : c.Ready e forced g g') (new : e.address ∉ c.trace.addresses) :
    ∃ c', site e.choice e.deliver forced (c, g) = .ok (c'.onward e) (c', g') ∧
      c'.trace.entries = c.trace.entries ++ [e] := by
  obtain ⟨trace, pushed⟩ := Trace.push_of_new new
  let c' : Chain := { c with
    trace, score := c.score + e.choiceScore
    proposal := c.proposal.map (·.count e.choiceScore (c.previous? e.address) forced) }
  have extends' : c.Extends e forced c' := ⟨h.entry, h.score, h.number, pushed, rfl⟩
  exact ⟨c', site_eq_ok.mpr (.inl ⟨e, rfl, rfl, h.chosen, extends', rfl⟩), extends'.entries⟩

/-- A choice that is drawn anew is at an address that the rewound chain has not been at. -/
theorem rewind_new {i : Nat} (h : c.trace.entry? i = some e) :
    e.address ∉ (c.rewind i e).trace.addresses := by
  have here : i < c.trace.entries.length ∧ c.trace.entries[i]? = some e :=
    ⟨(List.getElem?_eq_some_iff.mp h).1, h⟩
  have distinct := c.trace.distinct
  rw [← List.take_append_drop i c.trace.entries, List.map_append] at distinct
  intro early
  refine (List.nodup_append.mp distinct).2.2 _ early _ ?_ rfl
  refine List.mem_map_of_mem (List.mem_of_getElem? (i := 0) ?_)
  rw [List.getElem?_drop]
  exact h

theorem within_error {σ α : Type} {chain : σ → Chain} {update : Chain → σ → σ} {move : Move α}
    {s : Session σ} {cause : Failure} {t : Chain × Rng}
    (h : move (chain s.engine, s.context.rng) = .error cause t) :
    ∃ u, within chain update move s = .error (.failed cause) u := by
  unfold within
  rw [h]
  exact ⟨_, rfl⟩

end Chain

namespace MetropolisHastings

variable {config : MetropolisConfig} {program : Program} {address : Address} {store : Store}
  {c : Context} {s : Session MetropolisHastings} {e : Entry}

/-- A run comes to a choice that its chain is about to put on record. -/
inductive Faces (config : MetropolisConfig) (program : Program) (address : Address) (store : Store)
    (c : Context) (s : Session MetropolisHastings) (e : Entry) : Prop where
  | choice {task : Task} {context : Context} {first next : Resume} {r : Session MetropolisHastings}
      {g : Rng} (installed : install config program address store c = .ok task context)
      (began : start task ⟨{}, context⟩ = .ok first r)
      (passes : (handler task).Passes first r next s)
      (effect : next.invoke = .sample e.choice e.deliver)
      (ready : s.engine.chain.Ready e false s.context.rng g)

/-- The chain holds all choices that lead up to the one it faces. -/
theorem Faces.follows (h : Faces config program address store c s e) :
    e.Follows (program store address) s.engine.chain.trace.entries := by
  obtain ⟨installed, began, passes, effect, _⟩ := h
  obtain ⟨origin, reached⟩ := passes_leads began passes
  have standing : Standing _ origin _ _ := reached.holds
  have replay := standing.replay.any
  unfold install at installed
  simp only [bind_eq_ok, InContext.ofExcept_eq_ok, InContext.install_eq_ok, pure_eq_ok] at installed
  obtain ⟨_, _, _, _, _, _, rfl, rfl⟩ := installed
  rw [effect] at replay
  exact ⟨_, _, replay⟩

theorem Faces.reported (h : Faces config program address store c s e)
    (visited : e.address ∈ s.engine.chain.trace.addresses) :
    FailsFor (run · config program address store) c
      (.duplicateAddress e.address s.engine.chain.trace.length) := by
  obtain ⟨installed, began, passes, effect, ready⟩ := h
  rename_i task context first next r g
  obtain ⟨origin, reached⟩ := passes_leads began passes
  obtain ⟨t, refused⟩ := ready.visited visited
  obtain ⟨u, failed⟩ : ∃ u, onChain (Chain.site e.choice e.deliver false) s =
      .error (.failed (.duplicateAddress e.address s.engine.chain.trace.length)) u :=
    Chain.within_error refused
  have answered : (handler task).answer next.invoke s =
      .error (.failed (.duplicateAddress e.address s.engine.chain.trace.length)) u := by
    rw [Handler.answer_of_active (reached.active installed), effect]
    exact bind_error failed
  obtain ⟨fuel, v, drove⟩ := passes.drive_error answered
  have ended : run fuel config program address store c =
      .error (.failed (.duplicateAddress e.address s.engine.chain.trace.length)) v.context := by
    unfold run
    rw [bind_ok installed]
    exact bind_error (Run.inContext_error ((bind_ok began).trans drove))
  exact .of_error (fun more => run_continues more config program address store c) ended

end MetropolisHastings

namespace Moving

variable {m : Moving} {s t : Session Mover} {e : Entry} {fuel : Nat}

/-- The choices that the chain of the particle does not reach. -/
def below (m : Moving) : Trace := m.particle.trace.take m.particle.frozen

def task (m : Moving) : Mover.Task where
  id := (m.context.install "rejuvenator").1
  frozen := m.particle.frozen
  limit := m.limit

/-- The session in which the steps are taken. -/
def session (m : Moving) : Session Mover where
  engine :=
    { chain :=
        { trace := m.particle.trace.drop m.particle.frozen
          score := m.particle.score
          value := m.particle.value }
      frontier := ⟨m.particle.resume, m.particle.store⟩
      histogram := m.histogram }
  context := (m.context.install "rejuvenator").2

/-- Puts the particle together again after its last step. -/
def join (m : Moving) (moved : Mover) : InContext Rejuvenated := do
  let trace ← InContext.ofExcept (m.particle.trace.splice m.particle.frozen moved.chain.trace)
  return ⟨m.particle.adopt moved trace, moved.proposals, moved.accepted, moved.histogram⟩

theorem work_eq (movable : m.particle.movable m.steps = true) (fuel : Nat) :
    m.work fuel m.context = ((Mover.take m.task fuel m.steps).inContext m.session.engine >>=
      fun taken => m.join taken.2) m.session.context := by
  unfold work rejuvenate
  rw [if_neg (by simp [movable])]
  exact bind_ok (InContext.install_eq_ok.mpr ⟨rfl, rfl⟩)

theorem work_of_error {stop : Stop} (movable : m.particle.movable m.steps = true)
    (failed : Mover.take m.task fuel m.steps m.session = .error stop t) :
    m.work fuel m.context = .error stop t.context := by
  rw [work_eq movable]
  exact bind_error (Run.inContext_error failed)

/-- In the course of the move its chain comes to a choice that it is about to put on record. -/
inductive Faces (m : Moving) (s : Session Mover) (e : Entry) : Prop where
  | choice {first next : Resume} {r : Session Mover} {g : Rng}
      (movable : m.particle.movable m.steps = true)
      (began : Mover.advance m.task m.steps m.session = .ok (some first) r)
      (passes : (Mover.handler m.task).Passes first r next s)
      (effect : next.invoke = .sample e.choice e.deliver)
      (ready : s.engine.chain.Ready e false s.context.rng g)

/-- The choice that a move comes to after its first proposal, if it is drawn. -/
def choice? (m : Moving) : Option (Session Mover × Entry) :=
  match Mover.advance m.task m.steps m.session with
  | .ok (some next) s =>
    match next.invoke with
    | .sample choice deliver =>
      match choice.dist.draw choice.params s.context.rng with
      | .ok value _ =>
        match choice.dist.score choice.params value with
        | .ok x =>
          if m.particle.movable m.steps && !x.isNaN &&
              (s.engine.chain.previous? choice.address).isNone then
            some (s, s.engine.chain.newEntry choice deliver value x false)
          else none
        | .error _ => none
      | .error _ _ => none
    | _ => none
  | _ => none

theorem faces_choice? (h : m.choice? = some (s, e)) : m.Faces s e := by
  unfold choice? at h
  split at h
  on_goal 2 => cases h
  rename_i next _ began
  split at h
  on_goal 2 => cases h
  rename_i choice deliver effect
  split at h
  on_goal 2 => cases h
  rename_i value g drawn
  split at h
  on_goal 2 => cases h
  rename_i x score
  split at h
  on_goal 2 => cases h
  rename_i ready
  cases h
  simp only [Bool.and_eq_true, Bool.not_eq_true', Option.isNone_iff_eq_none] at ready
  obtain ⟨⟨movable, number⟩, lacked⟩ := ready
  exact .choice movable began .start effect ⟨rfl, .drawn lacked drawn, score, number⟩

/-- The choices below the floor and those of the chain are all that lead up to the one it faces. -/
theorem Faces.follows {root : Step} (h : m.Faces s e) (real : m.particle.Describes root)
    (cut : m.particle.limit = m.limit) :
    e.Follows root (m.below.entries ++ s.engine.chain.trace.entries) := by
  obtain ⟨movable, began, passes, effect, _⟩ := h
  obtain ⟨b, there, sound⟩ := real.base movable
  rw [cut] at sound
  obtain ⟨origin, reached⟩ := Mover.passes_leads began passes
  obtain ⟨⟨⟨_, replay, _⟩, _⟩, _, _, _, regenerating⟩ := reached.holds sound
  have onward := regenerating.replay (fun _ _ => rfl) replay
  rw [effect] at onward
  exact ⟨_, _, there.trans onward⟩

/-- An address that is on the trace of the chain ends the move. -/
theorem Faces.refused (h : m.Faces s e) (visited : e.address ∈ s.engine.chain.trace.addresses) :
    ∃ fuel c, m.work fuel m.context =
      .error (.failed (.duplicateAddress e.address s.engine.chain.trace.length)) c := by
  obtain ⟨movable, began, passes, effect, ready⟩ := h
  rename_i first next r g
  obtain ⟨origin, reached⟩ := Mover.passes_leads began passes
  obtain ⟨_, refused⟩ := ready.visited visited
  obtain ⟨u, failed⟩ : ∃ u, Mover.onChain (Chain.site e.choice e.deliver false) s =
      .error (.failed (.duplicateAddress e.address s.engine.chain.trace.length)) u :=
    Chain.within_error refused
  have active : s.context.active?.map (·.id) = some m.task.id := by
    rw [Context.active?, reached.stack]
    rfl
  have answered : (Mover.handler m.task).answer next.invoke s =
      .error (.failed (.duplicateAddress e.address s.engine.chain.trace.length)) u := by
    rw [Handler.answer_of_active active, effect]
    exact bind_error failed
  obtain ⟨fuel, v, drove⟩ := passes.drive_error answered
  refine ⟨fuel, v.context, work_of_error movable ?_⟩
  unfold Mover.take
  rw [bind_ok (Run.guarding_eq_ok.mpr began)]
  exact drove

/-- Any other address goes on record, also if it is that of a choice below the floor. -/
theorem Faces.recorded (h : m.Faces s e) (new : e.address ∉ s.engine.chain.trace.addresses) :
    ∃ chain g, Chain.site e.choice e.deliver false (s.engine.chain, s.context.rng) =
        .ok (chain.onward e) (chain, g) ∧
      chain.trace.entries = s.engine.chain.trace.entries ++ [e] := by
  obtain ⟨_, _, _, _, ready⟩ := h
  obtain ⟨chain, recorded, entries⟩ := ready.recorded new
  exact ⟨chain, _, recorded, entries⟩

/-- The move takes its steps to the last. -/
structure Ends (m : Moving) (fuel : Nat) (t : Session Mover) : Prop where
  movable : m.particle.movable m.steps = true
  taken : Mover.take m.task fuel m.steps m.session = .ok () t

/-- Where the last step leaves the chain, if the bound suffices. -/
def end? (m : Moving) (fuel : Nat) : Option (Session Mover) :=
  match Mover.take m.task fuel m.steps m.session with
  | .ok _ t => if m.particle.movable m.steps then some t else none
  | .error _ _ => none

theorem ends_end? (h : m.end? fuel = some t) : m.Ends fuel t := by
  unfold end? at h
  split at h
  · rename_i taken
    split at h
    · cases h
      exact ⟨‹_›, taken⟩
    · cases h
  · cases h

theorem Ends.work_eq (h : m.Ends fuel t) : m.work fuel m.context = m.join t.engine t.context := by
  rw [Moving.work_eq h.movable]
  exact bind_ok (Run.inContext_eq_ok.mpr h.taken)

theorem Ends.refused (h : m.Ends fuel t)
    (visited : ∃ a ∈ m.below.addresses, a ∈ t.engine.chain.trace.addresses) :
    ∃ a ∈ m.below.addresses, a ∈ t.engine.chain.trace.addresses ∧
      ∃ i c, m.work fuel m.context = .error (.failed (.duplicateAddress a i)) c := by
  obtain ⟨a, early, late, i, failed⟩ := Trace.splice_visited _ _ visited
  refine ⟨a, early, late, i, t.context, ?_⟩
  rw [h.work_eq, join, failed]
  rfl

theorem Ends.returns (h : m.Ends fuel t)
    (new : ∀ a ∈ m.below.addresses, a ∉ t.engine.chain.trace.addresses) :
    ∃ r c, m.work fuel m.context = .ok r c ∧
      r.particle.trace.entries = m.below.entries ++ t.engine.chain.trace.entries := by
  obtain ⟨trace, spliced, entries⟩ := Trace.splice_new _ _ new
  rw [h.work_eq, join, spliced]
  exact ⟨_, _, rfl, entries⟩

end Moving

namespace RejuvenatingFilter

variable {n : Nat} {root : Step} {task : Task} {s₀ s t : Session (RejuvenatingFilter n)} {e : Entry}
  {m : Moving}

/-- In the course of a run the active particle comes to a choice that is about to go on its record. -/
inductive Faces (task : Task) (s₀ s : Session (RejuvenatingFilter n)) (e : Entry) : Prop where
  | choice {next : Resume} {g : Rng} (before : Reaches task s₀ (.awaiting next) s)
      (effect : next.invoke = .sample e.choice e.deliver)
      (drawn : e.choice.dist.draw e.choice.params s.context.rng = .ok e.value g)
      (score : e.choice.dist.score e.choice.params e.value = .ok e.choiceScore)
      (number : e.choiceScore.isNaN = false)

theorem Faces.follows (h₀ : Holds root (.awaiting s₀.engine.population.resumeCurrent) s₀.engine)
    (h : Faces task s₀ s e) : e.Follows root s.engine.population.current.trace.entries := by
  obtain ⟨before, effect, _, _, _⟩ := h
  obtain ⟨_, _, current⟩ := before.holds h₀
  rw [effect] at current
  exact ⟨_, _, current⟩

theorem recordChoice_visited {particle : Particle} {choice : Choice} {deliver : Delivery}
    {value : Value} {x : Float} (visited : choice.address ∈ particle.trace.addresses) :
    recordChoice particle choice deliver value x =
      .error (.duplicateAddress choice.address particle.trace.length) := by
  unfold recordChoice
  rw [Trace.push_visited visited]
  rfl

/-- A particle records all of its choices, and one at an address of theirs ends the run. -/
theorem Faces.drive_error (active : s₀.context.active?.map (·.id) = some task.id)
    (h : Faces task s₀ s e) (visited : e.address ∈ s.engine.population.current.trace.addresses) :
    ∃ fuel u, (handler task).drive fuel s₀.engine.population.resumeCurrent s₀ =
      .error (.failed (.duplicateAddress e.address
        s.engine.population.current.trace.length)) u := by
  obtain ⟨before, effect, drawn, score, number⟩ := h
  rename_i next g
  have refused : (handler task).method (.sample e.choice e.deliver) s =
      .error (.failed (.duplicateAddress e.address s.engine.population.current.trace.length))
        { s with context := { s.context with rng := g } } := by
    dsimp only [Handler.method, handler]
    rw [bind_ok (Run.draw_ok drawn), bind_ok (Run.ofExcept_eq_ok.mpr ⟨score, rfl⟩),
      bind_ok (Run.ofExcept_eq_ok.mpr ⟨ensureNumber_eq_ok.mpr ⟨rfl, number⟩, rfl⟩), Run.engine_bind]
    refine bind_error ?_
    rw [recordChoice_visited visited]
    rfl
  exact before.answer_error active (by rw [effect]; exact refused)

section
variable (config : RejuvenationConfig) (program : Program) (address : Address) (store : Store)
  (c : Context)

/-- What a run is about that begins in the context. -/
def taskOf (fuel : Nat) : Task where
  id := (c.install "rejuvenation").1
  steps := config.steps
  restricted := config.restricted
  collectAll := config.collectAll
  fuel := fuel

/-- The session in which the first particle is about to be resumed. -/
def opening (pos : 0 < config.particles) : Session (RejuvenatingFilter config.particles) :=
  ⟨start pos (program.entry address) store, (c.install "rejuvenation").2⟩

variable {config program address store c}

theorem opening_holds (pos : 0 < config.particles) : Holds (program store address)
    (.awaiting (opening config program address store c pos).engine.population.resumeCurrent)
    (opening config program address store c pos).engine :=
  start_holds pos (program.entry address) store

theorem opening_grounded (pos : 0 < config.particles) :
    Grounded (opening config program address store c pos) := by
  intro i
  change ((Population.start pos (program.entry address) store).particles.get i).regenFloor = 0
  rw [Population.get_start]

/-- A failure with some bound is what the run comes to. -/
theorem failsFor {pos : 0 < config.particles} {fuel bound : Nat} {cause : Failure}
    {u : Session (RejuvenatingFilter config.particles)}
    (failed : (handler (taskOf config c fuel)).drive bound
      (opening config program address store c pos).engine.population.resumeCurrent
      (opening config program address store c pos) = .error (.failed cause) u) :
    FailsFor (run · config program address store) c cause := by
  have answers := @answer_continues config.particles (taskOf config c fuel) _
    (Nat.le_max_left fuel bound)
  have larger := Handler.drive_continues (by rfl) answers (Nat.le_max_right fuel bound)
    (opening config program address store c pos).engine.population.resumeCurrent
    (opening config program address store c pos)
  rw [failed] at larger
  have ended : run (max fuel bound) config program address store c =
      .error (.failed cause) u.context := by
    unfold run install
    rw [dif_pos pos, bind_assoc, bind_ok (InContext.install_eq_ok.mpr ⟨rfl, rfl⟩), pure_bind]
    exact bind_error (Run.inContext_error larger.of_failed)
  exact .of_error (fun more => run_continues more config program address store c) ended

theorem Makes.failsFor {pos : 0 < config.particles} {fuel bound : Nat} {cause : Failure}
    {c' : Context} (h : Makes (taskOf config c fuel) (opening config program address store c pos) m)
    (failed : m.work bound m.context = .error (.failed cause) c') :
    FailsFor (run · config program address store) c cause := by
  -- the run has to come to the move with the bound with which the move fails: both take the larger one
  have larger := rejuvenate_continues (Nat.le_max_right fuel bound) m.particle m.limit m.steps
    m.histogram m.context
  change Continues (m.work bound m.context) _ at larger
  rw [failed] at larger
  obtain ⟨_, u, drove⟩ := (h.bounded (Nat.le_max_left fuel bound)).drive_error rfl larger.of_failed
  have drove : (handler (taskOf config c (max fuel bound))).drive _ _ _ = _ := drove
  exact RejuvenatingFilter.failsFor drove

end

end RejuvenatingFilter

/-- Addresses that come up twice. What an engine looks a new choice up in is the choices that lead up
to it, and a choice drawn anew is not among those before it. Metropolis-Hastings, and a particle that is
run for the first time, report an address that has come up before. So does a move if the address is on
the trace of its chain. If it is that of a choice below the floor, the chain puts it on record and goes
on; nothing is below the floor unless the run is restricted and the particle still running. After the
last step the run reports an address from below the floor if the execution that has been kept comes back
to one; otherwise the particle is put together and the run goes on, whatever it came across. -/
theorem duplicates_reported_unless_frozen (program : Program) (address : Address) (store : Store)
    (c : Context) :
    let root := program store address
    (∀ (chain : Chain) i e, chain.trace.entry? i = some e →
      e.address ∉ (chain.rewind i e).trace.addresses) ∧
    (∀ config s e, MetropolisHastings.Faces config program address store c s e →
      let trace := s.engine.chain.trace
      e.Follows root trace.entries ∧
        (e.address ∈ trace.addresses → FailsFor
          (MetropolisHastings.run · config program address store) c
          (.duplicateAddress e.address trace.length))) ∧
    ∀ (config : RejuvenationConfig) (pos : 0 < config.particles) (fuel : Nat),
      let task := RejuvenatingFilter.taskOf config c fuel
      let s₀ := RejuvenatingFilter.opening config program address store c pos
      let Reported (a : Address) (i : Nat) := FailsFor
        (RejuvenatingFilter.run · config program address store) c (.duplicateAddress a i)
      (∀ s e, RejuvenatingFilter.Faces task s₀ s e →
        let trace := s.engine.population.current.trace
        e.Follows root trace.entries ∧
          (e.address ∈ trace.addresses → Reported e.address trace.length)) ∧
      ∀ m, RejuvenatingFilter.Makes task s₀ m →
        (m.below.entries = [] ∨ config.restricted = true ∧ m.limit ≠ none) ∧
        (∀ s e, m.Faces s e →
          let trace := s.engine.chain.trace
          e.Follows root (m.below.entries ++ trace.entries) ∧
            if e.address ∈ trace.addresses then Reported e.address trace.length
            else ∃ chain g,
              Chain.site e.choice e.deliver false (s.engine.chain, s.context.rng) =
                .ok (chain.onward e) (chain, g) ∧
              chain.trace.entries = trace.entries ++ [e]) ∧
        ∀ bound t, m.Ends bound t →
          let trace := t.engine.chain.trace
          if ∃ a ∈ m.below.addresses, a ∈ trace.addresses then
            ∃ a ∈ m.below.addresses, a ∈ trace.addresses ∧ ∃ i, Reported a i
          else ∃ r c', m.work bound m.context = .ok r c' ∧
            r.particle.trace.entries = m.below.entries ++ trace.entries := by
  intro root
  refine ⟨fun chain i e => Chain.rewind_new, fun config s e faces => ⟨faces.follows, faces.reported⟩,
    fun config pos fuel => ?_⟩
  intro task s₀ Reported
  have h₀ : RejuvenatingFilter.Holds root _ s₀.engine := RejuvenatingFilter.opening_holds pos
  refine ⟨fun s e faces => ⟨faces.follows h₀, fun visited => ?_⟩, fun m makes => ⟨?_,
    fun s e faces => ⟨?_, ?_⟩, fun bound t ends => ?_⟩⟩
  · obtain ⟨_, u, failed⟩ := faces.drive_error rfl visited
    exact RejuvenatingFilter.failsFor failed
  · by_cases free : config.restricted = false ∨ m.limit = none
    · have none : m.particle.frozen = 0 :=
        makes.grounded (RejuvenatingFilter.opening_grounded pos) free
      unfold Moving.below
      rw [none]
      exact .inl rfl
    · rw [not_or, Bool.not_eq_false] at free
      exact .inr free
  · obtain ⟨real, cut⟩ := makes.real h₀
    exact faces.follows real cut
  · split
    · obtain ⟨bound, c', failed⟩ := faces.refused ‹_›
      exact makes.failsFor failed
    · exact faces.recorded ‹_›
  · intro trace
    split
    · obtain ⟨a, early, late, i, c', failed⟩ := ends.refused ‹_›
      exact ⟨a, early, late, i, makes.failsFor failed⟩
    · rename_i new
      exact ends.returns fun a early late => new ⟨a, early, late⟩

/-- Flips a coin twice at the same address. -/
def twice : Program := fun store address =>
  sample store address coin [] fun store _ => sample store address coin [] exit

/-- The second flip. -/
def again : Entry where
  choice := ⟨default, .root, coin, []⟩
  deliver := exit
  value := .bool true
  choiceScore := -1
  scoreBefore := -1
  factorsBefore := 0
  reused := false

/-- Flips two coins with a factor behind each. If the second one shows heads, the first is flipped again
and the execution is impossible. -/
def echo : Program := fun store address =>
  sample store (address.child "first") coin [] fun store _ =>
    factor store (address.child "one") 0 fun store =>
      sample store (address.child "second") coin [] fun store second =>
        if second == .bool true then
          sample store (address.child "first") coin [] fun store again =>
            factor store (address.child "two") negInf fun store => exit store again
        else factor store (address.child "two") 0 fun store => exit store second

/-- A generator with which the second coin shows tails at first and heads when it is flipped anew. -/
def secondToHeads : Rng where
  key := .replicate 8 0
  ahead := .replicate 6 0 ++ .replicate 2 0xFFFFFFFF ++ .replicate 20 0

/-- One particle, and one step above the floor at every barrier. -/
def oneRestricted : RejuvenationConfig where
  particles := 1
  steps := 1
  restricted := true

theorem twice_chain_faces : ∃ s,
    MetropolisHastings.Faces ⟨1⟩ twice .root default { rng := steadyRng 0 } s again ∧
      again.address ∈ s.engine.chain.trace.addresses ∧ s.engine.chain.trace.length = 1 ∧
      ∃ e, s.engine.chain.trace.entry? 0 = some e := by
  have passes : (MetropolisHastings.handler ⟨⟨1⟩, twice.entry .root, default, 1⟩).Passes
      (.carryOn (twice.entry .root) default)
      ⟨{ chain := {}, metrics := { executions := 1 } },
        (Context.install { rng := steadyRng 0 } "mh").2⟩ _ _ := .answer .start rfl
  exact ⟨_, .choice rfl rfl passes rfl ⟨rfl, .drawn rfl rfl, rfl, by decide⟩, by decide, rfl, _, rfl⟩

theorem twice_particle_faces :
    let c : Context := { rng := steadyRng 0 }
    ∃ s, RejuvenatingFilter.Faces (RejuvenatingFilter.taskOf oneRestricted c 1)
        (RejuvenatingFilter.opening oneRestricted twice .root default c Nat.one_pos) s again ∧
      again.address ∈ s.engine.population.current.trace.addresses ∧
      s.engine.population.current.trace.length = 1 := by
  intro c
  have began : RejuvenatingFilter.Reaches (RejuvenatingFilter.taskOf oneRestricted c 1)
      (RejuvenatingFilter.opening oneRestricted twice .root default c Nat.one_pos) _ _ := .start
  exact ⟨_, .choice (began.sample rfl rfl) rfl rfl rfl (by decide), by decide, rfl⟩

/-- The move of the second coin brings the first one up once more and takes it back. -/
theorem echo_faces :
    let c : Context := { rng := secondToHeads }
    ∃ m s e t, RejuvenatingFilter.Makes (RejuvenatingFilter.taskOf oneRestricted c 9)
        (RejuvenatingFilter.opening oneRestricted echo .root default c Nat.one_pos) m ∧
      m.Faces s e ∧ m.Ends 9 t ∧ e.address ∈ m.below.addresses ∧
      e.address ∉ s.engine.chain.trace.addresses ∧
      ∀ a ∈ m.below.addresses, a ∉ t.engine.chain.trace.addresses := by
  intro c
  have ran : (RejuvenatingFilter.moving? (RejuvenatingFilter.taskOf oneRestricted c 9)
      (RejuvenatingFilter.opening oneRestricted echo .root default c Nat.one_pos) 3).any (fun m =>
    m.choice?.any fun faced => (m.end? 9).any fun t =>
      decide (faced.2.address ∈ m.below.addresses) &&
        decide (faced.2.address ∉ faced.1.engine.chain.trace.addresses) &&
        decide (∀ a ∈ m.below.addresses, a ∉ t.engine.chain.trace.addresses)) = true := by
    decide +kernel
  simp only [Option.any_eq_true, Bool.and_eq_true, decide_eq_true_eq] at ran
  obtain ⟨m, made, ⟨s, e⟩, faced, t, ended, ⟨early, new⟩, kept⟩ := ran
  exact ⟨m, s, e, t, RejuvenatingFilter.makes_moving? made, Moving.faces_choice? faced,
    Moving.ends_end? ended, early, new, kept⟩

/-- Metropolis-Hastings and a particle that is run for the first time report the second flip of `twice`.
In a restricted run of `echo` the second coin comes out as heads when it is flipped anew: the first coin
goes on record once more, the execution is turned down, and the run comes to a result. -/
theorem echo_unreported :
    let c : Context := { rng := steadyRng 0 }
    let c' : Context := { rng := secondToHeads }
    (∃ (chain : Chain) (e : Entry), chain.trace.entry? 0 = some e ∧
        e.address ∉ (chain.rewind 0 e).trace.addresses) ∧
      FailsFor (MetropolisHastings.run · ⟨1⟩ twice .root default) c (.duplicateAddress .root 1) ∧
      FailsFor (RejuvenatingFilter.run · oneRestricted twice .root default) c
        (.duplicateAddress .root 1) ∧
      (∃ m s e, RejuvenatingFilter.Makes (RejuvenatingFilter.taskOf oneRestricted c' 9)
          (RejuvenatingFilter.opening oneRestricted echo .root default c' Nat.one_pos) m ∧
        m.Faces s e ∧ e.address ∈ m.below.addresses ∧
        (∃ chain g, Chain.site e.choice e.deliver false (s.engine.chain, s.context.rng) =
          .ok (chain.onward e) (chain, g)) ∧
        ∃ r c'', m.work 9 m.context = .ok r c'') ∧
      ∃ inference c'', RejuvenatingFilter.run 9 oneRestricted echo .root default c' =
        .ok inference c'' := by
  intro c c'
  obtain ⟨forced, chains, particles⟩ := duplicates_reported_unless_frozen twice .root default c
  obtain ⟨_, _, moves⟩ := duplicates_reported_unless_frozen echo .root default c'
  obtain ⟨s, faces, visited, length, first, entry⟩ := twice_chain_faces
  have reported := (chains _ s again faces).2 visited
  rw [length] at reported
  obtain ⟨s', faces', visited', length'⟩ := twice_particle_faces
  have reported' := ((particles oneRestricted Nat.one_pos 1).1 s' again faces').2 visited'
  rw [length'] at reported'
  obtain ⟨m, s'', e, t, makes, faces'', ends, early, new, kept⟩ := echo_faces
  obtain ⟨_, face, settle⟩ := (moves oneRestricted Nat.one_pos 9).2 m makes
  have recorded := (face s'' e faces'').2
  rw [if_neg new] at recorded
  obtain ⟨chain, g, recorded, _⟩ := recorded
  have returned := settle 9 t ends
  rw [if_neg fun ⟨a, early, late⟩ => kept a early late] at returned
  obtain ⟨r, c'', returned, _⟩ := returned
  exact ⟨⟨_, first, entry, forced _ 0 first entry⟩, reported, reported',
    ⟨m, s'', e, makes, faces'', early, ⟨chain, g, recorded⟩, r, c'', returned⟩,
    exists_of_succeeds (by decide +kernel)⟩

end Posterior
