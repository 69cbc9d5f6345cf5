import Posterior.Proofs.MoverTermination
import Posterior.Proofs.PopulationFailures

/-!
Termination of the particle filter with rejuvenation. Barriers and moves leave every particle with an
execution that is feasible, be it another one than before; so a turn is bounded as the executions are,
and a round has a turn of each particle at most.
-/

namespace Posterior

variable {root : Step} {B F : Nat}

namespace RejuvenatingFilter

variable {n : Nat} {task : Task} {s₀ s t : Session (RejuvenatingFilter n)} {moment : Moment}
  {next next' : Resume} {i : Fin n} {histogram histogram' : Option Histogram}

/-- The choices of all particles are feasible. -/
def Feasible (p : Population n) : Prop := ∀ i, (p.particles.get i).trace.Feasible

theorem Feasible.set {p : Population n} {x : Particle} (h : Feasible p) (hx : x.trace.Feasible) :
    Feasible (p.setParticle i x) := by
  intro j
  rw [Population.get_setParticle]
  split
  · exact hx
  · exact h j

theorem move_feasible {particle : Particle} {moved : Rejuvenated} (describes : particle.Describes root)
    (feasible : particle.trace.Feasible)
    (h : move task particle particle.limit histogram s = .ok moved t) :
    moved.particle.trace.Feasible := by
  obtain ⟨_, _, _, _, _, hr⟩ := move_eq_ok h
  exact rejuvenate_feasible describes feasible hr

theorem moveRunning_feasible (describe : AllDescribe root s.engine.population)
    (feasible : Feasible s.engine.population) (h : moveRunning task i s = .ok () t) :
    Feasible t.engine.population := by
  rcases moveRunning_eq_ok h with ⟨_, rfl⟩ | ⟨_, moved, r, hm, rfl⟩
  · exact feasible
  · obtain ⟨_, hp, _⟩ := move_eq_ok hm
    have kept := move_feasible (describe i) (feasible i) hm
    change Feasible (r.engine.population.setParticle i _)
    rw [hp]
    refine feasible.set ?_
    unfold raiseFloor
    split <;> exact kept

theorem moveExited_feasible (holds : Holds root .exited s.engine)
    (feasible : Feasible s.engine.population) (h : moveExited task histogram i s = .ok histogram' t) :
    Feasible t.engine.population := by
  obtain ⟨exited, describe⟩ := holds
  obtain ⟨moved, r, hm, _, rfl⟩ := moveExited_eq_ok h
  obtain ⟨_, hp, _⟩ := move_eq_ok hm
  have limit : ({ s.engine.population.particles.get i with regenFloor := 0 } : Particle).limit =
      none :=
    Particle.limit_of_completed (exited i)
  rw [← limit] at hm
  have kept := move_feasible ((describe i).raise 0) (feasible i) hm
  change Feasible (r.engine.population.setParticle i _)
  rw [hp]
  exact feasible.set kept

/-- Every choice on record was drawn, or kept by a move that went on with it. -/
theorem Reaches.feasible
    (h₀ : Holds root (.awaiting s₀.engine.population.resumeCurrent) s₀.engine)
    (start : Feasible s₀.engine.population) (h : Reaches task s₀ moment s) :
    Feasible s.engine.population := by
  induction h with
  | start => exact start
  | sample before effect chosen ih =>
    simp only [handler, setPopulation, bind_eq_ok, pure_eq_ok, Run.draw_eq_ok, Run.ofExcept_eq_ok,
      Run.engine_eq_ok, Run.modifyEngine_eq_ok] at chosen
    obtain ⟨value, _, ⟨g, drawn, rfl⟩, _, _, ⟨_, rfl⟩, _, _, ⟨_, rfl⟩, _, _, ⟨rfl, rfl⟩, particle, _,
      ⟨recorded, rfl⟩, _, _, rfl, _, rfl⟩ := chosen
    refine ih.set ?_
    unfold recordChoice at recorded
    obtain ⟨trace, pushed, made⟩ := except_bind_eq_ok.mp recorded
    cases made
    intro e he
    change e ∈ trace.entries at he
    rw [Trace.entries_push pushed] at he
    rcases List.mem_append.mp he with he | he
    · exact ih _ e he
    · rw [List.mem_singleton.mp he]
      exact .inl ⟨_, _, drawn⟩
  | factor before effect number parked ih =>
    obtain rfl := Run.modifyEngine_eq_ok.mp parked
    exact ih.set (ih _)
  | exit before effect left ih =>
    obtain rfl := Run.modifyEngine_eq_ok.mp left
    exact ih.set (ih _)
  | turn before turn ih =>
    obtain ⟨_, rfl⟩ := turnTo_eq_ok turn
    exact ih
  | @barrier s t before passed ih =>
    obtain ⟨q, noted, g, r, resampled, he, moved⟩ := barrier_eq_ok passed
    have copies := (Population.resample_eq_ok resampled).2
    have describe : AllDescribe root r.engine.population := by
      intro i
      obtain ⟨j, hj⟩ := copies i
      rw [he, hj]
      exact ((before.holds h₀).closed.2 j).reweigh _
    have feasible : Feasible r.engine.population := by
      intro i
      obtain ⟨j, hj⟩ := copies i
      rw [he, hj]
      exact ih j
    exact (forM_keeps
      (P := fun s => AllDescribe root s.engine.population ∧ Feasible s.engine.population)
      (fun i s t held moved => ⟨moveRunning_describe held.1 moved,
        moveRunning_feasible held.1 held.2 moved⟩) ⟨describe, feasible⟩ moved).2
  | round before running turn ih =>
    obtain ⟨_, rfl⟩ := turnTo_eq_ok turn
    exact ih
  | exited before running ih => exact ih
  | pass before passed ih =>
    exact (foldlM_keeps
      (P := fun _ s => Holds root .exited s.engine ∧ Feasible s.engine.population)
      (fun histogram i s histogram' t held moved =>
        ⟨moveExited_holds histogram i s histogram' t held.1 moved,
          moveExited_feasible held.1 held.2 moved⟩) ⟨before.holds h₀, ih⟩ passed).2

section
variable (confined : root.Confined B F) (enough : task.steps * B ≤ task.fuel)
include confined enough

theorem prompt_move {particle : Particle} {limit : Option Nat} (describes : particle.Describes root)
    (feasible : particle.trace.Feasible) (cut : particle.limit = limit) :
    Prompt (move task particle limit histogram s) := by
  subst cut
  refine .bind (Prompt.ensureActive _) fun _ t _ => ?_
  exact .bind (.onContext (rejuvenate_terminates describes feasible confined enough)) fun _ _ _ =>
    trivial

theorem prompt_moveRunning (i : Fin n) (describe : AllDescribe root s.engine.population)
    (feasible : Feasible s.engine.population) : Prompt (moveRunning task i s) := by
  unfold moveRunning
  rw [Run.engine_bind]
  cases running : s.engine.population.isRunning i with
  | false => trivial
  | true =>
    have cut := Particle.limit_of_running running
    exact .bind (prompt_move confined enough (describe i) (feasible i) cut) fun _ _ _ => trivial

theorem prompt_moveExited (histogram : Option Histogram) (i : Fin n)
    (holds : Holds root .exited s.engine) (feasible : Feasible s.engine.population) :
    Prompt (moveExited task histogram i s) := by
  obtain ⟨exited, describe⟩ := holds
  unfold moveExited
  rw [Run.engine_bind]
  have cut := Particle.limit_of_completed (exited i)
  exact .bind (prompt_move confined enough ((describe i).raise 0) (feasible i) cut) fun _ _ _ =>
    trivial

theorem prompt_barrier (holds : Holds root (.turned true) s.engine)
    (feasible : Feasible s.engine.population) : Prompt (barrier task s) := by
  obtain ⟨_, describe⟩ := holds.closed
  refine .engine (.bind (Prompt.draw _) fun resampled t ran => ?_)
  obtain ⟨g, hr, rfl⟩ := Run.draw_eq_ok.mp ran
  obtain ⟨q, noted⟩ := resampled
  refine .bind trivial fun _ t ran => ?_
  obtain rfl := Run.setEngine_eq_ok.mp ran
  have copies := (Population.resample_eq_ok hr).2
  refine .forM (P := fun s => AllDescribe root s.engine.population ∧ Feasible s.engine.population)
    (fun i s t held moved => ⟨moveRunning_describe held.1 moved,
      moveRunning_feasible held.1 held.2 moved⟩)
    (fun i _ held => prompt_moveRunning confined enough i held.1 held.2) ⟨?_, ?_⟩
  · intro i
    obtain ⟨j, hj⟩ := copies i
    change (q.particles.get i).Describes root
    rw [hj]
    exact (describe j).reweigh _
  · intro i
    obtain ⟨j, hj⟩ := copies i
    change (q.particles.get i).trace.Feasible
    rw [hj]
    exact feasible j

theorem prompt_finish (holds : Holds root .exited s.engine)
    (feasible : Feasible s.engine.population) : Prompt (finish task s) := by
  refine .bind ?_ fun collected t _ => .engine (.bind (Prompt.ofExcept _) fun _ _ _ =>
    .bind (Prompt.restore _) fun _ _ _ => trivial)
  exact .foldlM (P := fun _ t => Holds root .exited t.engine ∧ Feasible t.engine.population)
    (fun histogram i s histogram' t held moved =>
      ⟨moveExited_holds histogram i s histogram' t held.1 moved,
        moveExited_feasible held.1 held.2 moved⟩)
    (fun histogram i t held => prompt_moveExited confined enough histogram i held.1 held.2)
    ⟨holds, feasible⟩

section
variable (h₀ : Holds root (.awaiting s₀.engine.population.resumeCurrent) s₀.engine)
  (start : Feasible s₀.engine.population)
include h₀ start

theorem Reaches.prompt_finish (h : Reaches task s₀ .exited s) : Prompt (finish task s) :=
  RejuvenatingFilter.prompt_finish confined enough (h.holds h₀) (h.feasible h₀ start)

theorem Reaches.prompt_nextRound (h : Reaches task s₀ (.turned true) s) :
    Prompt (nextRound task s) := by
  refine .bind (prompt_barrier confined enough (h.holds h₀) (h.feasible h₀ start)) fun _ t passed => ?_
  have hm := h.barrier passed
  rw [Run.engine_bind]
  cases running : t.engine.population.firstRunning? with
  | some first => trivial
  | none => exact (hm.exited running).prompt_finish confined enough h₀ start

theorem Reaches.prompt_answer (h : Reaches task s₀ (.awaiting next) s) :
    Prompt ((handler task).answer next.invoke s) := by
  refine .answer ?_ ?_ ?_
  · intro choice deliver _
    exact .bind (Prompt.draw _) fun _ _ _ => .bind (Prompt.ofExcept _) fun _ _ _ =>
      .bind (Prompt.ofExcept _) fun _ _ _ => .engine (.bind (Prompt.ofExcept _) fun _ _ _ => trivial)
  · intro point resume effect number
    refine .engine (.bind trivial fun _ t parked => ?_)
    have hm := h.factor effect number parked
    rw [Run.engine_bind]
    cases closes : t.engine.population.atBarrier with
    | true =>
      rw [closes] at hm
      exact hm.prompt_nextRound confined enough h₀ start
    | false => trivial
  · intro store value effect
    refine .engine (.engine (.bind trivial fun _ t left => ?_))
    have hm := h.exit effect left
    unfold Moment.afterExit at hm
    rw [Run.engine_bind]
    cases others : t.engine.population.nextRunning? with
    | none =>
      rw [others] at hm
      exact hm.prompt_finish confined enough h₀ start
    | some other =>
      rw [others] at hm
      cases closes : s.engine.population.atBarrier with
      | true =>
        rw [closes] at hm
        exact hm.prompt_nextRound confined enough h₀ start
      | false => trivial

end

end

/-- The effects behind the execution of a particle. -/
def behind (p : Particle) : Nat := p.trace.entries.length + p.factorCount

/-- What an answer comes to that lets the run go on: the active particle has made a choice, the turn
has gone to a later one, or the next round has begun. -/
inductive Proceeds (s t : Session (RejuvenatingFilter n)) : Prop where
  | choice (barriers : t.engine.metrics.barriers = s.engine.metrics.barriers)
      (active : t.engine.population.active = s.engine.population.active)
      (effects : behind t.engine.population.current = behind s.engine.population.current + 1)
  | turn (barriers : t.engine.metrics.barriers = s.engine.metrics.barriers)
      (after : s.engine.population.active < t.engine.population.active)
  | round (barriers : t.engine.metrics.barriers.length = s.engine.metrics.barriers.length + 1)

theorem finish_not_resumes (h : finish task s = .ok (.resume next) t) : False := by
  simp only [finish, bind_eq_ok, pure_eq_ok] at h
  obtain ⟨_, _, _, _, _, _, _, _, _, _, _, _, done, _⟩ := h
  cases done

/-- The moves of a barrier note no barriers of their own. -/
theorem nextRound_resumes (h : nextRound task s = .ok (.resume next) t) :
    t.engine.metrics.barriers.length = s.engine.metrics.barriers.length + 1 := by
  unfold nextRound at h
  simp only [bind_eq_ok, Run.engine_eq_ok] at h
  obtain ⟨_, r, passed, _, _, ⟨rfl, rfl⟩, h⟩ := h
  obtain ⟨q, noted, g, r₀, _, he, moved⟩ := barrier_eq_ok passed
  have counted : r.engine.metrics.barriers.length = s.engine.metrics.barriers.length + 1 :=
    forM_keeps (P := fun t => t.engine.metrics.barriers.length = s.engine.metrics.barriers.length + 1)
      (fun i s t held moved => (moveRunning_moved moved).barriers ▸ held)
      (by rw [he]; exact List.length_append) moved
  cases hf : r.engine.population.firstRunning? with
  | none =>
    simp only [hf] at h
    exact (finish_not_resumes h).elim
  | some first =>
    simp only [hf] at h
    obtain ⟨_, rfl⟩ := turnTo_eq_ok h
    exact counted

/-- The turn goes to a later particle as long as the round is not over. -/
theorem turnTo_later (closing : s.engine.population.Closing false)
    (h : turnTo (s.engine.population.nextRunning?.getD s.engine.population.active) s =
      .ok (.resume next) t) :
    t.engine.metrics = s.engine.metrics ∧
      s.engine.population.active < t.engine.population.active := by
  obtain ⟨j, hnext, later, _⟩ := Population.nextRunning?_after closing
  rw [hnext] at h
  obtain ⟨_, rfl⟩ := turnTo_eq_ok h
  exact ⟨rfl, later⟩

theorem answer_proceeds (holds : Holds root (.awaiting next) s.engine)
    (answered : (handler task).answer next.invoke s = .ok (.resume next') t) : Proceeds s t := by
  cases effect : next.invoke with
  | sample choice deliver =>
    rw [effect] at answered
    have ha := Handler.answer_sample answered
    simp only [handler, setPopulation, bind_eq_ok, pure_eq_ok, Run.draw_eq_ok, Run.ofExcept_eq_ok,
      Run.engine_eq_ok, Run.modifyEngine_eq_ok] at ha
    obtain ⟨value, _, ⟨g, _, rfl⟩, _, _, ⟨_, rfl⟩, _, _, ⟨_, rfl⟩, _, _, ⟨rfl, rfl⟩, particle, _,
      ⟨recorded, rfl⟩, _, _, rfl, _, rfl⟩ := ha
    unfold recordChoice at recorded
    obtain ⟨trace, pushed, made⟩ := except_bind_eq_ok.mp recorded
    cases made
    refine .choice rfl rfl ?_
    unfold behind Population.current
    simp only [Population.active_setParticle, Population.get_setParticle, ↓reduceIte]
    rw [Trace.entries_push pushed, List.length_append]
    exact Nat.succ_add ..
  | factor point resume =>
    rw [effect] at answered
    obtain ⟨number, ha⟩ := Handler.answer_factor answered
    have closing : (s.engine.population.updateCurrent (parkScored · point resume)).Closing
        (s.engine.population.updateCurrent (parkScored · point resume)).atBarrier :=
      (factor_holds holds effect number).2.2
    simp only [handler, setPopulation, bind_eq_ok, Run.engine_eq_ok, Run.modifyEngine_eq_ok] at ha
    obtain ⟨_, _, ⟨rfl, rfl⟩, _, _, rfl, _, _, ⟨rfl, rfl⟩, ha⟩ := ha
    split at ha <;> rename_i hb
    · have counted := nextRound_resumes ha
      exact .round counted
    · rw [Bool.not_eq_true] at hb
      dsimp only at hb closing
      rw [hb] at closing
      obtain ⟨metrics, later⟩ := turnTo_later closing ha
      exact .turn (congrArg Metrics.barriers metrics) later
  | exit store value =>
    rw [effect] at answered
    have ha := Handler.answer_exit answered
    have closing : (s.engine.population.updateCurrent (·.complete store value)).Closing
        s.engine.population.atBarrier :=
      (Population.closing_atBarrier holds.1.active).update _
    simp only [handler, setPopulation, bind_eq_ok, Run.engine_eq_ok, Run.modifyEngine_eq_ok] at ha
    obtain ⟨_, _, ⟨rfl, rfl⟩, _, _, ⟨rfl, rfl⟩, _, r, rfl, _, _, ⟨rfl, rfl⟩, ha⟩ := ha
    dsimp only at ha
    cases hn : (s.engine.population.updateCurrent (·.complete store value)).nextRunning? with
    | none =>
      simp only [hn] at ha
      exact (finish_not_resumes ha).elim
    | some j =>
      simp only [hn] at ha
      split at ha <;> rename_i hb
      · have counted := nextRound_resumes ha
        exact .round counted
      · rw [Bool.not_eq_true] at hb
        rw [hb] at closing
        have turned := turnTo_later (s := ⟨⟨s.engine.population.updateCurrent
          (·.complete store value), s.engine.metrics⟩, s.context⟩) closing (by rw [hn]; exact ha)
        exact .turn (congrArg Metrics.barriers turned.1) turned.2

/-- So many effects may still be answered. -/
def Ranked (task : Task) (s₀ : Session (RejuvenatingFilter n)) (B F rank : Nat) (next : Resume)
    (s : Session (RejuvenatingFilter n)) : Prop :=
  Reaches task s₀ (.awaiting next) s ∧
    effectsAfter B F n s.engine.metrics.barriers.length s.engine.population.active +
      (B - behind s.engine.population.current) ≤ rank

section
variable (confined : root.Confined B F)
  (h₀ : Holds root (.awaiting s₀.engine.population.resumeCurrent) s₀.engine)
  (start : Feasible s₀.engine.population)
include confined h₀ start

/-- Whoever is about to be resumed has passed a factor for every barrier, and has not performed all of
its effects. -/
theorem Reaches.within (h : Reaches task s₀ (.awaiting next) s) :
    behind s.engine.population.current < B ∧ s.engine.metrics.barriers.length ≤ F := by
  obtain ⟨underWay, _, current⟩ := h.holds h₀
  have count : s.engine.population.current.factorCount = s.engine.metrics.barriers.length :=
    underWay.due _ (Nat.le_refl _) underWay.active
  obtain ⟨effects, factors⟩ := confined _ _ current (h.feasible h₀ start _)
  exact ⟨effects, count ▸ factors⟩

/-- A round that is over while particles are running is one in which they have passed a factor. -/
theorem Reaches.barrier_due (h : Reaches task s₀ (.turned true) s)
    (running : s.engine.population.isRunning i = true) :
    s.engine.metrics.barriers.length + 1 ≤ F := by
  obtain ⟨closed, describe⟩ := (h.holds h₀).closed
  have factors := (confined _ _ ((describe i).at_resume running) (h.feasible h₀ start i)).2
  rw [← closed i running]
  exact factors

theorem Ranked.alive : ¬ Ranked task s₀ B F 0 next s := by
  rintro ⟨reached, enough⟩
  have := (reached.within confined h₀ start).1
  omega

theorem Ranked.falls {rank : Nat} (h : Ranked task s₀ B F (rank + 1) next s)
    (answered : (handler task).answer next.invoke s = .ok (.resume next') t) :
    Ranked task s₀ B F rank next' t := by
  obtain ⟨reached, enough⟩ := h
  have reached' : Reaches task s₀ (.awaiting next') t := answer_leads reached answered
  have now := (reached.within confined h₀ start).1
  refine ⟨reached', ?_⟩
  cases answer_proceeds (reached.holds h₀) answered with
  | choice barriers active effects =>
    rw [barriers, active, effects]
    omega
  | turn barriers after =>
    have := effectsAfter_turn (B := B) (F := F) (b := s.engine.metrics.barriers.length) after
      t.engine.population.active.isLt
    rw [barriers]
    omega
  | round barriers =>
    have count := (reached'.within confined h₀ start).2
    have := effectsAfter_round (B := B) (i := s.engine.population.active) (barriers ▸ count)
      t.engine.population.active.isLt
    rw [barriers]
    omega

end

/-- What a filter has noted of its barriers. -/
abbrev notes (s : Session (RejuvenatingFilter n)) : List Barrier := s.engine.metrics.barriers

theorem preserves_turnTo (i : Fin n) : Preserves notes (turnTo i) := fun _ => rfl

theorem preserves_onContext {α : Type} (work : InContext α) :
    Preserves notes (Run.onContext work : Run (RejuvenatingFilter n) α) :=
  fun s => congrArg (·.metrics.barriers) (Run.preserves_onContext work s)

theorem preserves_move (task : Task) (particle : Particle) (limit : Option Nat)
    (histogram : Option Histogram) :
    Preserves notes (move (n := n) task particle limit histogram) :=
  .bind (preserves_onContext _) fun _ => .bind (preserves_onContext _) fun _ =>
    .bind (fun _ => rfl) fun _ => .pure _

theorem preserves_moveRunning (task : Task) (i : Fin n) : Preserves notes (moveRunning task i) := by
  refine .bind Run.preserves_engine fun e => ?_
  dsimp only
  split
  · exact .bind (preserves_move _ _ _ _) fun _ => .bind Run.preserves_engine fun _ _ => rfl
  · exact .pure _

theorem preserves_finish (task : Task) : Preserves notes (finish (n := n) task) := by
  refine .bind (.foldlM (fun _ _ => ?_) _ _) fun _ => .bind Run.preserves_engine fun _ =>
    .bind (preserves_onContext _) fun _ => .bind (preserves_onContext _) fun _ => .pure _
  exact .bind Run.preserves_engine fun _ => .bind (preserves_move _ _ _ _) fun _ =>
    .bind Run.preserves_engine fun _ => .bind (fun _ => rfl) fun _ => .pure _

/-- However the next round begins or the run ends, at most one more barrier is noted. -/
theorem noted_nextRound (task : Task) (s : Session (RejuvenatingFilter n)) :
    (notes (finalState (nextRound task s))).length ≤ (notes s).length + 1 := by
  have after : notes (finalState (nextRound task s)) = notes (finalState (barrier task s)) := by
    refine Preserves.after (fun _ => .bind Run.preserves_engine fun e => ?_) (barrier task) s
    cases e.population.firstRunning? with
    | none => exact preserves_finish task
    | some first => exact preserves_turnTo first
  rw [after]
  unfold barrier
  rw [Run.engine_bind]
  cases drawn : (Run.draw (s.engine.population.resample false "rejuvenation"
      s.engine.metrics.barriers.length) : Run (RejuvenatingFilter n) _) s with
  | ok result r =>
    rw [bind_ok drawn]
    dsimp only
    rw [Preserves.after (fun _ => .forM (preserves_moveRunning task) _)]
    change (s.engine.metrics.barriers ++ [result.2]).length ≤ _
    rw [List.length_append]
    exact Nat.le_refl _
  | error stop r =>
    rw [bind_error drawn]
    have same : notes r = notes s := (preserves_onContext _).of_error drawn
    change (notes r).length ≤ _
    rw [same]
    exact Nat.le_succ _

/-- Whatever an answer comes to, no more barriers are noted than a feasible execution has factors. -/
theorem noted_answer (confined : root.Confined B F)
    (h₀ : Holds root (.awaiting s₀.engine.population.resumeCurrent) s₀.engine)
    (start : Feasible s₀.engine.population) (h : Reaches task s₀ (.awaiting next) s) :
    (notes (finalState ((handler task).answer next.invoke s))).length ≤ F := by
  have count : (notes s).length ≤ F := (h.within confined h₀ start).2
  have due : ∀ {r : Session (RejuvenatingFilter n)} {i : Fin n}, Reaches task s₀ (.turned true) r →
      r.engine.population.isRunning i = true →
      (notes (finalState (nextRound task r))).length ≤ F := fun turned running =>
    Nat.le_trans (noted_nextRound task _) (turned.barrier_due confined h₀ start running)
  rcases Handler.answer_cases (handler task) next.invoke s with ⟨stop, inactive⟩ | answered
  · rw [inactive]
    exact count
  rw [answered]
  cases effect : next.invoke with
  | sample choice deliver =>
    have same : Preserves notes ((handler (n := n) task).onSample choice deliver) :=
      .bind (preserves_onContext _) fun _ => .bind (preserves_onContext _) fun _ =>
        .bind (preserves_onContext _) fun _ => .bind Run.preserves_engine fun _ =>
        .bind (preserves_onContext _) fun _ => .bind (fun _ => rfl) fun _ => .pure _
    change (notes (finalState ((handler task).onSample choice deliver s))).length ≤ F
    rw [same s]
    exact count
  | factor point resume =>
    dsimp only [Handler.method]
    split
    · exact count
    · rename_i number
      rw [Bool.not_eq_true] at number
      let r : Session (RejuvenatingFilter n) := { s with engine := { s.engine with
        population := s.engine.population.updateCurrent (parkScored · point resume) } }
      have turned : Reaches task s₀ (.turned r.engine.population.atBarrier) r :=
        h.factor effect number rfl
      change (notes (finalState ((if r.engine.population.atBarrier = true then nextRound task
        else turnTo (r.engine.population.nextRunning?.getD r.engine.population.active)) r))).length ≤ F
      split <;> rename_i hb
      · rw [hb] at turned
        exact due turned (Population.atBarrier_iff.mp hb).1
      · exact count
  | exit store value =>
    let r : Session (RejuvenatingFilter n) := { s with engine := { s.engine with
      population := s.engine.population.updateCurrent (·.complete store value) } }
    have turned : Reaches task s₀ (.afterExit s.engine.population.atBarrier r.engine.population) r :=
      h.exit effect rfl
    have running : ∀ j, r.engine.population.nextRunning? = some j →
        r.engine.population.isRunning j = true := fun j => List.find?_some
    unfold Moment.afterExit at turned
    dsimp only [Handler.method, handler, setPopulation]
    rw [bind_ok (Run.engine_eq_ok.mpr ⟨rfl, rfl⟩), bind_ok (Run.engine_eq_ok.mpr ⟨rfl, rfl⟩),
      bind_ok (a := ()) (Run.modifyEngine_eq_ok.mpr (Eq.refl r)),
      bind_ok (Run.engine_eq_ok.mpr ⟨rfl, rfl⟩)]
    cases hn : r.engine.population.nextRunning? with
    | none =>
      dsimp only
      rw [preserves_finish task r]
      exact count
    | some j =>
      simp only [hn, Option.isNone_some, Bool.false_eq_true, ↓reduceIte] at turned
      dsimp only
      split <;> rename_i hb
      · rw [hb] at turned
        exact due turned (running j hn)
      · exact count

theorem start_feasible (pos : 0 < n) (entry : Continuation) (store : Store) :
    Feasible (start pos entry store).population := by
  intro i e he
  change e ∈ ((Population.start pos entry store).particles.get i).trace.entries at he
  rw [Population.get_start] at he
  cases he

/-- With as many effects as its particles can perform, and with as many for each move, a run comes to
its end, and it notes at most one barrier for each factor of an execution. -/
theorem drive_terminates (pos : 0 < n) (entry : Continuation) (store : Store) (context : Context)
    (task : Task) (confined : (entry store).Confined B F) (fuel : Nat) :
    let s₀ : Session (RejuvenatingFilter n) := ⟨start pos entry store, context⟩
    let outcome := (handler task).drive fuel s₀.engine.population.resumeCurrent s₀
    (task.steps * B ≤ task.fuel → (F + 1) * (n * B) ≤ fuel → Prompt outcome) ∧
      (notes (finalState outcome)).length ≤ F := by
  intro s₀ outcome
  have h₀ := start_holds pos entry store
  have fresh := start_feasible pos entry store
  constructor
  · intro moves enough
    have behind : behind s₀.engine.population.current = 0 := by
      change ((Population.start pos entry store).particles.get ⟨0, pos⟩).trace.entries.length +
        ((Population.start pos entry store).particles.get ⟨0, pos⟩).factorCount = 0
      rw [Population.get_start]
      rfl
    refine .drive (R := Ranked task s₀ B F) (fun _ _ => Ranked.alive confined h₀ fresh)
      (fun _ _ _ ranked => ranked.1.prompt_answer confined moves h₀ fresh)
      (fun _ _ _ _ _ => Ranked.falls confined h₀ fresh) enough ⟨.start, ?_⟩
    rw [behind, Nat.sub_zero]
    exact Nat.le_of_eq (effectsAfter_start pos)
  · exact Handler.drive_engine (P := fun next s => Reaches task s₀ (.awaiting next) s)
      (Q := fun e => e.metrics.barriers.length ≤ F)
      (fun _ _ h => (h.within confined h₀ fresh).2) (fun _ _ _ _ => answer_leads)
      (fun _ _ => noted_answer confined h₀ fresh) fuel .start

theorem run_terminates (fuel : Nat) (config : RejuvenationConfig) (program : Program)
    (address : Address) (store : Store) (context : Context)
    (confined : (program store address).Confined B F) (moves : config.steps * B ≤ fuel)
    (enough : (F + 1) * (config.particles * B) ≤ fuel) :
    Prompt (run fuel config program address store context) := by
  unfold run install
  split
  · rename_i pos
    rw [bind_assoc]
    refine .bind trivial fun id r installed => ?_
    obtain ⟨rfl, rfl⟩ := InContext.install_eq_ok.mp installed
    rw [pure_bind]
    refine .bind (.inContext ?_) fun _ _ _ => trivial
    exact (drive_terminates pos (program.entry address) store _ _ confined fuel).1 moves enough
  · exact Prompt.failed _

end RejuvenatingFilter

/-- The filters terminate. If all executions of a program perform at most `B` effects, exits included,
and `F` of them factors, a run answers at most `(F + 1) * n * B` effects, and each move of its
particles at most as many as its steps can perform. It ends with a result or a failure, and wherever it
ends it has noted at most `F` barriers, whatever becomes of its particles. A particle that is moved may
come to an execution that is possible without being drawn, so with rejuvenation these are bounded as
well. -/
theorem filters_terminate (program : Program) (address : Address) (store : Store)
    (context : Context) :
    ((program store address).Within B F →
      (∀ config fuel, (F + 1) * (config.particles * B) ≤ fuel →
        Concludes (ParticleFilter.run fuel config program address store context)) ∧
      ∀ {n : Nat} (pos : 0 < n) (task : ParticleFilter.Task) (fuel : Nat),
        let s₀ := ⟨ParticleFilter.start pos (program.entry address) store, context⟩
        (ParticleFilter.notes (finalState ((ParticleFilter.handler task).drive fuel
          s₀.engine.population.resumeCurrent s₀))).length ≤ F) ∧
    ((program store address).Confined B F →
      (∀ config fuel, (F + 1) * (config.particles * B) ≤ fuel → config.steps * B ≤ fuel →
        Concludes (RejuvenatingFilter.run fuel config program address store context)) ∧
      ∀ {n : Nat} (pos : 0 < n) (task : RejuvenatingFilter.Task) (fuel : Nat),
        let s₀ := ⟨RejuvenatingFilter.start pos (program.entry address) store, context⟩
        (RejuvenatingFilter.notes (finalState ((RejuvenatingFilter.handler task).drive fuel
          s₀.engine.population.resumeCurrent s₀))).length ≤ F) := by
  refine ⟨fun within => ⟨?_, ?_⟩, fun confined => ⟨?_, ?_⟩⟩
  · intro config fuel enough
    exact (ParticleFilter.run_terminates fuel config program address store context within
      enough).concludes
  · intro n pos task fuel
    exact (ParticleFilter.drive_terminates pos (program.entry address) store context task within
      fuel).2
  · intro config fuel enough moves
    exact (RejuvenatingFilter.run_terminates fuel config program address store context confined moves
      enough).concludes
  · intro n pos task fuel
    exact (RejuvenatingFilter.drive_terminates pos (program.entry address) store context task confined
      fuel).2

/-- Heads takes three effects, one of them a factor; tails two and none. -/
theorem headsWeighed_within : (headsWeighed default .root).Within 3 1 := by
  refine .ofChoice fun value _ => ?_
  dsimp only
  split
  · exact .ofFactor .ofExit
  · exact .mono (by decide) (by decide) .ofExit

theorem headsWeighed_confined : (headsWeighed default .root).Confined 3 1 := by
  refine Point.Confined.of_start (.ofChoice rfl fun p value stands => ?_)
  dsimp only at stands
  split at stands
  · exact .ofFactor stands (.ofExit rfl)
  · exact .mono (by decide) (by decide) (.ofExit stands)

/-- Two particles weigh heads and are moved, so that either may come to the path without a factor. -/
theorem headsWeighed_terminates :
    Concludes (ParticleFilter.run 12 { particles := 2 } headsWeighed .root default
      (quietContext "particle-filter")) ∧
    Concludes (RejuvenatingFilter.run 12 { particles := 2, steps := 2 } headsWeighed .root default
      (quietContext "rejuvenation")) ∧
    ∀ fuel, (RejuvenatingFilter.notes (finalState ((RejuvenatingFilter.handler
      { id := ⟨1⟩, steps := 2, restricted := false, collectAll := false, fuel := 12 }).drive fuel
        (RejuvenatingFilter.start Nat.two_pos (headsWeighed.entry .root) default).population.resumeCurrent
        ⟨RejuvenatingFilter.start Nat.two_pos (headsWeighed.entry .root) default,
          quietContext "rejuvenation"⟩))).length ≤ 1 := by
  have filtered := (filters_terminate headsWeighed .root default (quietContext "particle-filter")).1
    headsWeighed_within
  have moved := (filters_terminate headsWeighed .root default (quietContext "rejuvenation")).2
    headsWeighed_confined
  exact ⟨filtered.1 _ 12 (by decide), moved.1 _ 12 (by decide) (by decide),
    fun fuel => moved.2 Nat.two_pos _ fuel⟩

end Posterior
