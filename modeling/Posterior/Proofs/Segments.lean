import Posterior.Proofs.FinalWeights

/-!
Segments of a trace: the choices that an execution makes between one factor and the next. A restricted
filter leaves every running particle behind a barrier with its floor at the end of its trace. So the
choices from the floor on are those of the segment under way, and they are the only ones that are moved
until all particles have exited.
-/

namespace Posterior

open Numeric

/-- The choices from position `floor` on are exactly those made with `b` factors behind. -/
def Trace.SegmentFrom (t : Trace) (floor b : Nat) : Prop :=
  ∀ k e, t.entry? k = some e → (floor ≤ k ↔ e.factorsBefore = b)

theorem Trace.segmentFrom_append {t : Trace} {earlier rest : List Entry} {b : Nat}
    (whole : t.entries = earlier ++ rest) (before : ∀ e ∈ earlier, e.factorsBefore < b)
    (after : ∀ e ∈ rest, e.factorsBefore = b) : t.SegmentFrom earlier.length b := by
  intro k e entry
  unfold entry? at entry
  rw [whole] at entry
  by_cases below : k < earlier.length
  · rw [List.getElem?_append_left below] at entry
    have := before e (List.mem_of_getElem? entry)
    omega
  · rw [List.getElem?_append_right (by omega)] at entry
    have := after e (List.mem_of_getElem? entry)
    omega

namespace RejuvenatingFilter

variable {task : Task}

/-- What the moves of a barrier make of one particle: a running one is moved up to the factor that it
is parked at, any other stays as it is. -/
inductive MovesTo (task : Task) (p : Particle) : Particle → Prop where
  | idle (exited : p.running = false) : MovesTo task p p
  | moved {c c' : Context} {r : Rejuvenated} (running : p.running = true)
      (moved : rejuvenate task.fuel p p.limit task.steps none c = .ok r c') :
      MovesTo task p (raiseFloor task r.particle)

theorem MovesTo.running {p q : Particle} (h : MovesTo task p q) : q.running = p.running := by
  cases h with
  | idle exited => rfl
  | moved running moved =>
    rw [← (rejuvenate_kept moved).running]
    unfold raiseFloor
    split <;> rfl

theorem MovesTo.eq_of_exited {p q : Particle} (h : MovesTo task p q) (exited : p.running = false) :
    q = p := by
  cases h with
  | idle exited => rfl
  | moved running moved => cases exited.symm.trans running

/-- Under restriction the floor of a particle that is moved is raised to the end of its trace. -/
theorem MovesTo.floor {p q : Particle} (h : MovesTo task p q) (restricted : task.restricted = true)
    (running : p.running = true) : q.regenFloor = q.trace.length := by
  cases h with
  | idle exited => cases exited.symm.trans running
  | moved running moved =>
    unfold raiseFloor
    rw [if_pos restricted]

end RejuvenatingFilter

namespace Particle

/-- Within a round the particle `p` has become `q`: its choices are the first ones of `q`. -/
structure GoesOn (p q : Particle) : Prop where
  running : q.running = true → p.running = true
  floor : q.regenFloor = p.regenFloor
  choices : p.trace.entries <+: q.trace.entries

/-- The choices of `p` below its floor are those of its ancestor `o`, and those from the floor on are
the ones made behind factor number `b`. -/
structure Segmented (o p : Particle) (b : Nat) : Prop where
  floor : p.regenFloor = o.trace.length
  earlier : p.trace.take p.regenFloor = o.trace
  segment : p.trace.SegmentFrom p.regenFloor b

/-- The move from `p` to `q` was within the segment behind factor number `b`. The floor is raised to the
end of the trace when it is over. -/
structure MovedWithin (p q : Particle) (b : Nat) : Prop where
  kept : p.Kept q
  earlier : q.trace.take p.regenFloor = p.trace.take p.regenFloor
  segment : q.trace.SegmentFrom p.regenFloor b
  floor : q.regenFloor = q.trace.length

/-- A running particle at the start of a round: it is about to carry on behind factor number `b`, and
all of its choices lie before that factor and below its floor. -/
structure Sealed (root : Step) (o : Particle) (b : Nat) : Prop where
  stands : ∃ step score, Replay anyScore (.start root) o.trace.entries ⟨step, score, b⟩
  earlier : ∀ e ∈ o.trace.entries, e.factorsBefore < b
  floor : o.regenFloor = o.trace.length

variable {root : Step} {o p q : Particle} {b : Nat}

theorem GoesOn.refl (p : Particle) : p.GoesOn p := ⟨id, rfl, List.prefix_rfl⟩

theorem GoesOn.trans (h : o.GoesOn p) (h' : p.GoesOn q) : o.GoesOn q :=
  ⟨fun hr => h.running (h'.running hr), h'.floor.trans h.floor, h.choices.trans h'.choices⟩

theorem GoesOn.record {choice : Choice} {deliver : Delivery} {value : Value} {x : Float}
    (h : RejuvenatingFilter.recordChoice p choice deliver value x = .ok q) : p.GoesOn q := by
  unfold RejuvenatingFilter.recordChoice at h
  obtain ⟨trace, pushed, made⟩ := except_bind_eq_ok.mp h
  cases made
  refine ⟨id, rfl, ?_⟩
  rw [Trace.entries_push pushed]
  exact List.prefix_append _ _

/-- A particle that is parked at its latest factor is behind it, and its choices are not. -/
theorem Describes.sealed (h : o.Describes root) (running : o.running = true)
    (count : o.factorCount = b) (floor : o.regenFloor = o.trace.length) : o.Sealed root b := by
  subst count
  refine ⟨⟨_, _, h.at_resume running⟩, fun e he => ?_, floor⟩
  obtain ⟨q, replay, arrives⟩ := h
  rw [limit_of_running running] at arrives
  rw [← arrives.factors]
  exact Nat.lt_succ_of_le (replay.factorsBefore he).2

theorem GoesOn.frozen (on : o.GoesOn p) (floor : o.regenFloor = o.trace.length) :
    p.frozen = o.trace.entries.length := by
  have longer : o.trace.entries.length ≤ p.trace.entries.length := on.choices.length_le
  unfold Particle.frozen
  rw [on.floor, floor]
  exact Nat.min_eq_left longer

/-- What has been chosen since the start of the round leads from there to the next factor. -/
theorem Sealed.rest (h : o.Sealed root b) (on : o.GoesOn p) (described : p.Describes root) :
    ∃ base rest, base.factors = b ∧ p.trace.entries = o.trace.entries ++ rest ∧
      (rest ≠ [] → ∃ q, Replay anyScore base rest q ∧
        Arrives p.limit q p.score p.value ⟨p.resume, p.store⟩) := by
  obtain ⟨step, score, stands⟩ := h.stands
  obtain ⟨rest, whole⟩ := on.choices
  obtain ⟨q, replay, arrives⟩ := described
  refine ⟨⟨step, score, b⟩, rest, rfl, whole.symm, fun some => ⟨q, ?_, arrives⟩⟩
  obtain ⟨e, es, rfl⟩ := List.exists_cons_of_ne_nil some
  exact stands.onward (whole ▸ replay)

theorem Sealed.segmented (h : o.Sealed root b) (on : o.GoesOn p) (described : p.Describes root)
    (running : p.running = true) (count : p.factorCount = b + 1) : o.Segmented p b := by
  obtain ⟨base, rest, rfl, whole, ends⟩ := h.rest on described
  have floor : p.regenFloor = o.trace.length := on.floor.trans h.floor
  refine ⟨floor, Trace.ext ?_, ?_⟩
  · rw [Trace.entries_take, whole, floor]
    exact List.take_left
  · rw [floor]
    refine Trace.segmentFrom_append whole h.earlier fun e he => ?_
    obtain ⟨q, replay, arrives⟩ := ends (List.ne_nil_of_mem he)
    rw [limit_of_running running, count] at arrives
    exact arrives.factorsBefore replay he

/-- What a restricted move starts from: the choices since the start of the round. -/
theorem Sealed.sound {steps : Nat} (h : o.Sealed root b) (on : o.GoesOn p)
    (described : p.Describes root) (movable : p.movable steps = true) :
    p.trace.entries.take p.frozen = o.trace.entries ∧ ∃ base, base.factors = b ∧
      Mover.Sound base p.limit { trace := p.trace.drop p.frozen, score := p.score, value := p.value }
        ⟨p.resume, p.store⟩ := by
  obtain ⟨base, rest, hb, whole, ends⟩ := h.rest on described
  have frozen := on.frozen h.floor
  have above : p.trace.entries.drop p.frozen = rest := by
    rw [frozen, whole]
    exact List.drop_left
  obtain ⟨q, replay, arrives⟩ := ends (above ▸ movable_above movable)
  refine ⟨?_, base, hb, ⟨q, ?_, arrives⟩, movable_possible movable⟩
  · rw [frozen, whole]
    exact List.take_left
  · rw [Trace.entries_drop, above]
    exact replay

/-- A restricted move regenerates choices of the segment under way, and the executions that it keeps
go on with choices of that segment up to the factor that ends it. -/
theorem Sealed.movedWithin {task : RejuvenatingFilter.Task} (h : o.Sealed root b)
    (on : o.GoesOn p) (described : p.Describes root) (running : p.running = true)
    (count : p.factorCount = b + 1) (restricted : task.restricted = true)
    (moves : RejuvenatingFilter.MovesTo task p q) : p.MovedWithin q b := by
  have before := h.segmented on described running count
  cases moves with
  | idle exited => cases exited.symm.trans running
  | @moved c c' r _ moved =>
    unfold RejuvenatingFilter.raiseFloor
    rw [if_pos restricted]
    obtain ⟨_, same⟩ | ⟨movable, id, s₀, s, trace, reached, hc, hf, ht, he⟩ := rejuvenate_eq_ok moved
    · rw [same]
      exact ⟨⟨rfl, rfl, rfl⟩, rfl, before.segment, rfl⟩
    · obtain ⟨below, base, rfl, sound⟩ := h.sound on described movable
      rw [← hc, ← hf] at sound
      obtain ⟨q', replay, arrives⟩ := (reached.holds sound : Mover.Sound ..).complete
      rw [limit_of_running running, count] at arrives
      rw [below] at ht
      have floor : p.regenFloor = o.trace.entries.length := before.floor
      rw [he]
      refine ⟨⟨rfl, rfl, rfl⟩, ?_, ?_, rfl⟩
      · rw [before.earlier, floor]
        refine Trace.ext ?_
        change trace.entries.take _ = _
        rw [ht]
        exact List.take_left
      · rw [floor]
        exact Trace.segmentFrom_append ht h.earlier fun e => arrives.factorsBefore replay

end Particle

namespace RejuvenatingFilter

variable {n : Nat} {root : Step} {task : Task} {s₀ s t : Session (RejuvenatingFilter n)}
  {moment : Moment} {i j : Fin n}

theorem moveRunning_each (h : moveRunning task i s = .ok () t) (j : Fin n) :
    if j = i then MovesTo task (s.engine.population.particles.get j)
        (t.engine.population.particles.get j)
      else t.engine.population.particles.get j = s.engine.population.particles.get j := by
  obtain ⟨idle, rfl⟩ | ⟨running, moved, r, hm, rfl⟩ := moveRunning_eq_ok h
  · split
    · rename_i same
      subst same
      exact .idle idle
    · rfl
  · obtain ⟨_, population, _, _, _, rejuvenated⟩ := move_eq_ok hm
    unfold place
    simp only [Population.get_setParticle]
    split
    · rename_i same
      subst same
      rw [if_pos rfl]
      exact .moved running rejuvenated
    · rename_i other
      rw [if_neg (Ne.symm other), population]

/-- The moves of a barrier work on one particle each. -/
theorem moves_each {l : List (Fin n)} (distinct : l.Nodup)
    (h : l.forM (moveRunning task) s = .ok () t) (j : Fin n) :
    (j ∈ l → MovesTo task (s.engine.population.particles.get j)
      (t.engine.population.particles.get j)) ∧
    (j ∉ l → t.engine.population.particles.get j = s.engine.population.particles.get j) := by
  induction l generalizing s with
  | nil =>
    obtain ⟨_, rfl⟩ := pure_eq_ok.mp h
    exact ⟨fun there => absurd there List.not_mem_nil, fun _ => rfl⟩
  | cons i l ih =>
    have h : (moveRunning task i >>= fun _ => l.forM (moveRunning task)) s = .ok () t := h
    obtain ⟨_, r, moved, others⟩ := bind_eq_ok.mp h
    obtain ⟨fresh, distinct⟩ := List.nodup_cons.mp distinct
    have first := moveRunning_each moved j
    have later := ih distinct others
    rw [List.mem_cons]
    by_cases hj : j = i
    · subst hj
      rw [if_pos rfl] at first
      refine ⟨fun _ => ?_, fun other => absurd (.inl rfl) other⟩
      rw [later.2 fresh]
      exact first
    · rw [if_neg hj] at first
      rw [first] at later
      exact ⟨fun some => later.1 (some.resolve_left hj), fun none => later.2 (none ∘ .inr)⟩

/-- A barrier resamples the population and moves each of its running particles once. -/
theorem barrier_each (h : barrier task s = .ok () t) :
    ∃ q noted g, s.engine.population.resample false "rejuvenation"
        s.engine.metrics.barriers.length s.context.rng = .ok (q, noted) g ∧
      t.engine.metrics.barriers = s.engine.metrics.barriers ++ [noted] ∧
      ∀ j, MovesTo task (q.particles.get j) (t.engine.population.particles.get j) := by
  obtain ⟨q, noted, g, r, resampled, made, moves⟩ := barrier_eq_ok h
  refine ⟨q, noted, g, resampled, ?_, fun j => ?_⟩
  · rw [(forM_moved moves).barriers, made]
    rfl
  · have each := (moves_each (List.nodup_finRange n) moves j).1 (List.mem_finRange j)
    rw [made] at each
    exact each

theorem Reaches.of_barred (h : Reaches task s₀ .barred t) :
    ∃ s, Reaches task s₀ (.turned true) s ∧ RejuvenatingFilter.barrier task s = .ok () t := by
  generalize hm : Moment.barred = moment at h
  cases h with
  | exit =>
    unfold Moment.afterExit at hm
    split at hm <;> cases hm
  | barrier before passed => exact ⟨_, before, passed⟩
  | _ => cases hm

/-- A barrier is met only by a population in which a particle is running. -/
theorem Reaches.turned_running {closes : Bool}
    (h₀ : Holds root (.awaiting s₀.engine.population.resumeCurrent) s₀.engine)
    (h : Reaches task s₀ (.turned closes) s) : ∃ i, s.engine.population.isRunning i = true := by
  generalize hm : Moment.turned closes = moment at h
  cases h with
  | @factor next r t point resume before effect number parked =>
    obtain rfl := Run.modifyEngine_eq_ok.mp parked
    obtain ⟨underWay, _⟩ := before.holds h₀
    refine ⟨r.engine.population.active, ?_⟩
    simp only [Population.updateCurrent, Population.isRunning_setParticle, ↓reduceIte]
    exact underWay.active
  | exit before effect left =>
    unfold Moment.afterExit at hm
    split at hm
    · cases hm
    · rename_i some
      have some : s.engine.population.nextRunning? ≠ none := by simpa using some
      obtain ⟨i, found⟩ := Option.ne_none_iff_exists'.mp some
      exact ⟨i, List.find?_some found⟩
  | _ => cases hm

/-- Since the start of the round the particles have only made further choices. -/
def GoneOn (task : Task) (s₀ s : Session (RejuvenatingFilter n)) : Prop :=
  ∃ o, Opens task s₀ o ∧ o.engine.metrics.barriers = s.engine.metrics.barriers ∧
    ∀ i, (o.engine.population.particles.get i).GoesOn (s.engine.population.particles.get i)

theorem GoneOn.opened (h : Opens task s₀ s) : GoneOn task s₀ s := ⟨s, h, rfl, fun _ => .refl _⟩

theorem GoneOn.turn (h : GoneOn task s₀ s) (x : Particle)
    (on : s.engine.population.current.GoesOn x) :
    GoneOn task s₀ { s with engine := { s.engine with
      population := s.engine.population.setParticle s.engine.population.active x } } := by
  obtain ⟨o, opens, same, each⟩ := h
  refine ⟨o, opens, same, fun i => ?_⟩
  rw [Population.get_setParticle]
  split
  · rename_i active
    subst active
    exact (each _).trans on
  · exact each i

/-- Up to the final pass the choices of a round are kept until it is over. -/
theorem Reaches.goneOn (h : Reaches task s₀ moment s) :
    (∃ histogram, moment = .done histogram) ∨ GoneOn task s₀ s := by
  induction h with
  | start => exact .inr (.opened (.inl rfl))
  | sample before effect chosen ih =>
    obtain ⟨_, done⟩ | on := ih
    · cases done
    simp only [handler, setPopulation, bind_eq_ok, pure_eq_ok, Run.draw_eq_ok, Run.ofExcept_eq_ok,
      Run.engine_eq_ok, Run.modifyEngine_eq_ok] at chosen
    obtain ⟨value, _, ⟨g, drawn, rfl⟩, _, _, ⟨_, rfl⟩, _, _, ⟨_, rfl⟩, _, _, ⟨rfl, rfl⟩, particle, _,
      ⟨recorded, rfl⟩, _, _, rfl, _, rfl⟩ := chosen
    exact .inr (on.turn particle (.record recorded))
  | factor before effect number parked ih =>
    obtain ⟨_, done⟩ | on := ih
    · cases done
    obtain rfl := Run.modifyEngine_eq_ok.mp parked
    exact .inr (on.turn _ ⟨id, rfl, List.prefix_rfl⟩)
  | exit before effect left ih =>
    obtain ⟨_, done⟩ | on := ih
    · cases done
    obtain rfl := Run.modifyEngine_eq_ok.mp left
    exact .inr (on.turn _ ⟨fun hr => absurd hr Bool.false_ne_true, rfl, List.prefix_rfl⟩)
  | turn before turn ih =>
    obtain ⟨_, done⟩ | on := ih
    · cases done
    obtain ⟨_, rfl⟩ := turnTo_eq_ok turn
    exact .inr on
  | barrier before passed ih => exact .inr (.opened (.inr (before.barrier passed)))
  | round before running turn ih =>
    obtain ⟨_, rfl⟩ := turnTo_eq_ok turn
    exact .inr ⟨_, .inr before, rfl, fun _ => .refl _⟩
  | exited before running ih => exact .inr (.opened (.inr before))
  | pass before passed ih => exact .inl ⟨_, rfl⟩

/-- The sessions in which a restricted round starts: at the beginning no particle has a choice, and
behind a barrier every running one has its floor at the end of its trace. -/
theorem Opens.sealed (pos : 0 < n) {entry : Continuation} {store : Store} {context : Context}
    {o : Session (RejuvenatingFilter n)} (restricted : task.restricted = true)
    (h : Opens task ⟨start pos entry store, context⟩ o)
    (running : o.engine.population.isRunning i = true) :
    (o.engine.population.particles.get i).Sealed (entry store) o.engine.metrics.barriers.length := by
  obtain rfl | reached := h
  · change ((Population.start pos entry store).particles.get i).Sealed _ 0
    rw [Population.get_start]
    exact ⟨⟨_, _, .rest _⟩, by simp [Trace.empty], rfl⟩
  · obtain ⟨⟨b, count, closed⟩, described⟩ := reached.holds (start_holds pos entry store)
    obtain ⟨s, _, passed⟩ := reached.of_barred
    obtain ⟨q, _, _, _, _, each⟩ := barrier_each passed
    rw [count]
    refine (described i).sealed running (closed i running) ?_
    exact (each i).floor restricted ((each i).running.symm.trans running)

/-- Under restriction a barrier moves only the last segment of a trace. At every barrier the choices of a
running particle from its floor on are exactly those made behind as many factors as there were barriers
before, and those below the floor are the trace that its ancestor had when the last barrier, or the start
of the run, was behind it. Resampling copies both. The moves that follow leave the choices below the
floor, the weight, the count of factors and all exited particles as they are, and what comes in place of
the rest has been chosen behind the same number of factors. Between two barriers choices are only added:
whatever else is changed is changed by the final pass, when all particles have exited. -/
theorem restricted_moves_last_segment (program : Program) (address : Address) (store : Store)
    (pos : 0 < n) (task : Task) (restricted : task.restricted = true) (context : Context) :
    let s₀ : Session (RejuvenatingFilter n) := ⟨start pos (program.entry address) store, context⟩
    (∀ s, Reaches task s₀ (.turned true) s →
      (∃ i, s.engine.population.isRunning i = true) ∧
      ∃ o, Opens task s₀ o ∧ o.engine.metrics.barriers = s.engine.metrics.barriers ∧
        (s.engine.metrics.barriers ≠ [] → Reaches task s₀ .barred o) ∧
        (∀ i, s.engine.population.isRunning i = true →
          (o.engine.population.particles.get i).Segmented (s.engine.population.particles.get i)
            s.engine.metrics.barriers.length) ∧
        ∀ t, barrier task s = .ok () t →
          ∃ q noted g, s.engine.population.resample false "rejuvenation"
              s.engine.metrics.barriers.length s.context.rng = .ok (q, noted) g ∧
            ∀ j, (q.isRunning j = false →
                t.engine.population.particles.get j = q.particles.get j) ∧
              ∃ i, q.particles.get j =
                  { s.engine.population.particles.get i with weight := noted.logMeanWeight } ∧
                (q.isRunning j = true →
                  (o.engine.population.particles.get i).Segmented (q.particles.get j)
                    s.engine.metrics.barriers.length ∧
                  (q.particles.get j).MovedWithin (t.engine.population.particles.get j)
                    s.engine.metrics.barriers.length)) ∧
    (∀ moment s, Reaches task s₀ moment s →
      (∃ histogram, moment = .done histogram) ∨ GoneOn task s₀ s) ∧
    ∀ histogram t, Reaches task s₀ (.done histogram) t → ∃ s, Reaches task s₀ .exited s ∧
      (∀ i, s.engine.population.isRunning i = false) ∧
      (List.finRange n).foldlM (moveExited task) (collected task) s = .ok histogram t := by
  intro s₀
  have h₀ : Holds (program store address) (.awaiting s₀.engine.population.resumeCurrent) s₀.engine :=
    start_holds pos (program.entry address) store
  refine ⟨fun s reached => ⟨reached.turned_running h₀, ?_⟩, fun moment s => Reaches.goneOn, ?_⟩
  · obtain ⟨closed, described⟩ := (reached.holds h₀).closed
    obtain ⟨_, done⟩ | ⟨o, opens, same, each⟩ := reached.goneOn
    · cases done
    have sealed : ∀ i, s.engine.population.isRunning i = true →
        (o.engine.population.particles.get i).Sealed (program store address)
          s.engine.metrics.barriers.length := fun i running =>
      same ▸ opens.sealed pos restricted ((each i).running running)
    refine ⟨o, opens, same, fun some => ?_, fun i running => ?_, fun t passed => ?_⟩
    · refine opens.resolve_left ?_
      rintro rfl
      exact some same.symm
    · exact (sealed i running).segmented (each i) (described i) running (closed i running)
    · obtain ⟨q, noted, g, resampled, _, moves⟩ := barrier_each passed
      refine ⟨q, noted, g, resampled, fun j => ⟨(moves j).eq_of_exited, ?_⟩⟩
      obtain ⟨i, copied⟩ := (Population.resample_eq_ok resampled).2 j
      refine ⟨i, copied, fun running => ?_⟩
      have moves := moves j
      change (q.particles.get j).running = true at running
      rw [copied] at moves running ⊢
      have on := each i
      have described := (described i).reweigh noted.logMeanWeight
      have on' : (o.engine.population.particles.get i).GoesOn
          { s.engine.population.particles.get i with weight := noted.logMeanWeight } :=
        ⟨on.running, on.floor, on.choices⟩
      exact ⟨(sealed i running).segmented on' described running (closed i running),
        (sealed i running).movedWithin on' described running (closed i running) restricted moves⟩
  · intro histogram t done
    obtain ⟨s, exited, passed⟩ := done.passed
    exact ⟨s, exited, (exited.holds h₀).1, passed⟩

/-- The second barrier of two particles. Their first coins are below their floors, both from the one
particle that showed heads; each is moved in its second coin only. -/
theorem weighedFlips_segments :
    let program := weighedFlips [("first", -1000), ("second", 0)] []
    let task : Task := { id := ⟨1⟩, steps := 1, restricted := true, collectAll := false, fuel := 9 }
    let s₀ : Session (RejuvenatingFilter 2) :=
      ⟨start Nat.two_pos (program.entry .root) default, { quietContext "rejuvenation" with
        rng := sidesRng [true, false, true, false, true, true, true, true, false, true, false, true,
          true, true] }⟩
    ∃ o s t, Reaches task s₀ .barred o ∧ Reaches task s₀ (.turned true) s ∧
      s.engine.metrics.barriers.length = 1 ∧ barrier task s = .ok () t ∧
      (∃ i, s.engine.population.isRunning i = true) ∧
      (∀ i, s.engine.population.isRunning i = true →
        (o.engine.population.particles.get i).Segmented (s.engine.population.particles.get i) 1) ∧
      ∃ q noted g, s.engine.population.resample false "rejuvenation" 1 s.context.rng =
          .ok (q, noted) g ∧
        ∀ j, q.isRunning j = true →
          (q.particles.get j).MovedWithin (t.engine.population.particles.get j) 1 := by
  intro program task s₀
  have ran : succeedsWith (fun _ s => decide (1 < s.engine.metrics.barriers.length))
      ((handler task).drive 12 s₀.engine.population.resumeCurrent s₀) = true := by
    decide +kernel
  obtain ⟨result, u, h, two⟩ := exists_of_succeedsWith ran
  obtain ⟨s, t, reached, count, passed⟩ := drive_passes rfl h (of_decide_eq_true two)
  obtain ⟨running, o, _, _, barred, segmented, moves⟩ :=
    (restricted_moves_last_segment program .root default Nat.two_pos task rfl s₀.context).1 s reached
  obtain ⟨q, noted, g, resampled, each⟩ := moves t passed
  rw [count] at segmented resampled each
  refine ⟨o, s, t, barred fun none => by simp [none] at count, reached, count, passed, running,
    segmented, q, noted, g, resampled, fun j active => ?_⟩
  obtain ⟨_, i, _, within⟩ := each j
  exact (within active).2

end RejuvenatingFilter

end Posterior
