import Posterior.Proofs.Blame
import Posterior.Proofs.Lockstep

/-!
Termination of the particle filter. Work is prompt if it ends with a result or a failure, never for
want of fuel. A loop whose rank falls with every answer is prompt; the rank of a filter counts the
rounds that are left, in a round the particles whose turn is still to come, and in a turn the effects
that the active particle may still perform.
-/

namespace Posterior

/-- The work ends with a result or a failure and not for want of fuel. -/
abbrev Prompt {σ α : Type} (outcome : EStateM.Result Stop σ α) : Prop :=
  StopsOnly (· ≠ .outOfFuel) outcome

/-- The work ends with a result, or with a failure. -/
def Concludes {σ α : Type} (outcome : EStateM.Result Stop σ α) : Prop :=
  (∃ result t, outcome = .ok result t) ∨ ∃ cause t, outcome = .error (.failed cause) t

namespace Prompt

variable {σ α : Type} {s : Session σ}

theorem concludes {outcome : EStateM.Result Stop σ α} (h : Prompt outcome) : Concludes outcome := by
  cases outcome with
  | ok result t => exact .inl ⟨result, t, rfl⟩
  | error stop t =>
    cases stop with
    | failed cause => exact .inr ⟨cause, t, rfl⟩
    | outOfFuel => exact absurd rfl h

theorem failed (cause : Failure) : Stop.failed cause ≠ .outOfFuel := by simp

theorem ofExcept (result : Except Failure α) : Prompt ((Run.ofExcept result : Run σ α) s) :=
  StopsOnly.ofExcept fun _ _ => failed _

theorem draw (d : Draw α) : Prompt ((Run.draw d : Run σ α) s) :=
  StopsOnly.draw fun _ _ _ => failed _

theorem restore (id : HandlerId) : Prompt ((Run.restore id : Run σ Unit) s) :=
  .onContext (.bind trivial fun _ _ _ => .bind (.inContext_ofExcept fun _ _ => failed _)
    fun _ _ _ => trivial)

theorem ensureActive (id : HandlerId) :
    Prompt ((Run.onContext (.ensureActive id) : Run σ Unit) s) :=
  .onContext (.bind trivial fun _ _ _ => .inContext_ofExcept fun _ _ => failed _)

theorem within {chain : σ → Chain} {update : Chain → σ → σ} (move : Move α) :
    Prompt (Chain.within chain update move s) := by
  refine StopsOnly.within ?_
  cases move (chain s.engine, s.context.rng) with
  | ok a r => trivial
  | error cause r => exact failed cause

/-- Whoever is active, an answer is as prompt as its method. -/
theorem answer {h : Handler σ α} {effect : Step}
    (sample : ∀ choice deliver, effect = .sample choice deliver →
      Prompt (h.onSample choice deliver s))
    (factor : ∀ point resume, effect = .factor point resume → point.logWeight.isNaN = false →
      Prompt (h.onFactor point resume s))
    (exit : ∀ store value, effect = .exit store value → Prompt (h.onExit store value s)) :
    Prompt (h.answer effect s) := by
  refine .bind trivial fun _ _ got => ?_
  obtain ⟨rfl, rfl⟩ := get_eq_ok.mp got
  refine .bind (ofExcept _) fun _ t active => ?_
  obtain ⟨_, rfl⟩ := Run.ofExcept_eq_ok.mp active
  cases effect with
  | sample choice deliver => exact sample _ _ rfl
  | factor point resume =>
    dsimp only
    split
    · exact failed _
    · rename_i number
      exact factor _ _ rfl (by simpa using number)
  | exit store value => exact exit _ _ rfl

/-- A loop whose rank falls with every answer ends within as many effects. -/
theorem drive {h : Handler σ α} {R : Nat → Resume → Session σ → Prop}
    (alive : ∀ next s, ¬ R 0 next s)
    (answers : ∀ rank next s, R rank next s → Prompt (h.answer next.invoke s))
    (falls : ∀ rank next s next' t, R (rank + 1) next s →
      h.answer next.invoke s = .ok (.resume next') t → R rank next' t)
    {rank fuel : Nat} {next : Resume} (enough : rank ≤ fuel) (ranked : R rank next s) :
    Prompt (h.drive fuel next s) := by
  refine .guarding ?_
  induction fuel generalizing rank next s with
  | zero =>
    obtain rfl := Nat.le_zero.mp enough
    exact absurd ranked (alive next s)
  | succ fuel ih =>
    refine .bind (answers rank next s ranked) fun control t answered => ?_
    cases control with
    | done result => trivial
    | resume next' =>
      cases rank with
      | zero => exact absurd ranked (alive next s)
      | succ rank =>
        exact ih (Nat.le_of_succ_le_succ enough) (falls rank next s next' t ranked answered)

end Prompt

/-- An answer is that of the method, unless the handler is not the active one. -/
theorem Handler.answer_cases {σ α : Type} (h : Handler σ α) (effect : Step) (s : Session σ) :
    (∃ stop, h.answer effect s = .error stop s) ∨ h.answer effect s = h.method effect s := by
  unfold answer
  rw [bind_ok (get_eq_ok.mpr ⟨rfl, rfl⟩)]
  cases s.context.ensureActive h.id (some h.name) with
  | error cause => exact .inl ⟨.failed cause, rfl⟩
  | ok u => exact .inr (by cases effect <;> rfl)

/-- What every answer establishes about the engine, whether the run goes on, is done or stops short,
holds at the end of the run. -/
theorem Handler.drive_engine {σ α : Type} {h : Handler σ α} {P : Resume → Session σ → Prop}
    {Q : σ → Prop} (holds : ∀ next s, P next s → Q s.engine)
    (goesOn : ∀ next s next' t, P next s → h.answer next.invoke s = .ok (.resume next') t → P next' t)
    (answers : ∀ next s, P next s → Q (finalState (h.answer next.invoke s)).engine)
    (fuel : Nat) {next : Resume} {s : Session σ} (start : P next s) :
    Q (finalState (h.drive fuel next s)).engine := by
  unfold drive
  rw [Run.engine_guarding]
  refine dispatch_outcome (P := P) (Q := fun outcome => Q (finalState outcome).engine) holds ?_
    fuel start
  intro next s there
  have after := answers next s there
  cases answered : h.answer next.invoke s with
  | error stop t =>
    rw [answered] at after
    exact after
  | ok control t =>
    cases control with
    | resume next' => exact goesOn next s next' t there answered
    | done result =>
      rw [answered] at after
      exact after

/-- The effects left after the present turn: `b` of at most `F` rounds are over, it is the turn of
particle `i` of `n`, and a turn takes `B` effects at most. -/
def effectsAfter (B F n b i : Nat) : Nat := (F - b) * (n * B) + (n - 1 - i) * B

section
variable {B F n b i j : Nat}

/-- The turn of a later particle is part of what is left. -/
theorem effectsAfter_turn (hi : i < j) (hj : j < n) :
    effectsAfter B F n b j + B ≤ effectsAfter B F n b i := by
  unfold effectsAfter
  have fewer : n - 1 - j + 1 ≤ n - 1 - i := by omega
  have := Nat.mul_le_mul_right B fewer
  rw [Nat.succ_mul] at this
  omega

/-- So are the turns of the next round. -/
theorem effectsAfter_round (hb : b + 1 ≤ F) (hj : j < n) :
    effectsAfter B F n (b + 1) j + B ≤ effectsAfter B F n b i := by
  unfold effectsAfter
  have fewer : n - 1 - j + 1 ≤ n := by omega
  have turns := Nat.mul_le_mul_right B fewer
  have rounds : (F - b) * (n * B) = (F - (b + 1)) * (n * B) + n * B := by
    rw [← Nat.succ_mul]
    congr 1
    omega
  rw [Nat.succ_mul] at turns
  omega

/-- A run has a turn of each particle in every round, and one more at its end. -/
theorem effectsAfter_start (pos : 0 < n) : effectsAfter B F n 0 0 + B = (F + 1) * (n * B) := by
  unfold effectsAfter
  have turns : (n - 1 - 0) * B + B = n * B := by
    rw [← Nat.succ_mul]
    congr 1
    omega
  rw [Nat.sub_zero, Nat.succ_mul]
  omega

end

namespace Step

/-- From `first` on, by values that can be drawn, the program comes to the step after so many effects,
so many of them factors. -/
inductive Performs (first : Step) : Nat → Nat → Step → Prop where
  | rest : Performs first 0 0 first
  | choice {l k : Nat} {choice : Choice} {deliver : Delivery} {value : Value}
      (before : Performs first l k (.sample choice deliver)) (drawn : choice.Draws value) :
      Performs first (l + 1) k (deliver choice.store value)
  | factor {l k : Nat} {point : Factor} {resume : Continuation}
      (before : Performs first l k (.factor point resume)) :
      Performs first (l + 1) (k + 1) (resume point.store)

/-- Every execution from here on whose values can be drawn performs at most so many effects, its exit
included, and at most so many of them are factors. -/
def Within (first : Step) (effects factors : Nat) : Prop :=
  ∀ l k step, first.Performs l k step → l < effects ∧ k ≤ factors

variable {first second third : Step} {l k effects factors : Nat}

theorem Performs.trans {l' k' : Nat} (h : first.Performs l k second)
    (h' : second.Performs l' k' third) : first.Performs (l + l') (k + k') third := by
  induction h' with
  | rest => exact h
  | choice before drawn ih => exact .choice ih drawn
  | factor before ih => exact .factor ih

theorem ComesTo.performs (h : first.ComesTo k second) : ∃ l, first.Performs l k second := by
  induction h with
  | rest => exact ⟨0, .rest⟩
  | choice before drawn ih =>
    obtain ⟨l, ih⟩ := ih
    exact ⟨l + 1, .choice ih drawn⟩
  | factor before ih =>
    obtain ⟨l, ih⟩ := ih
    exact ⟨l + 1, .factor ih⟩

theorem Within.pos (h : first.Within effects factors) : 0 < effects := (h 0 0 first .rest).1

/-- What is left of the factors, however many of the effects are behind. -/
theorem Within.after (h : first.Within effects factors) (there : first.ComesTo k second) :
    k ≤ factors ∧ second.Within effects (factors - k) := by
  obtain ⟨l, there⟩ := there.performs
  refine ⟨(h l k second there).2, fun l' k' step later => ?_⟩
  obtain ⟨fewer, passed⟩ := h _ _ step (there.trans later)
  exact ⟨by omega, by omega⟩

theorem Within.choose {choice : Choice} {deliver : Delivery} {value : Value}
    (h : (Step.sample choice deliver).Within (effects + 1) factors) (drawn : choice.Draws value) :
    (deliver choice.store value).Within effects factors := by
  intro l k step later
  have first : (Step.sample choice deliver).Performs 1 0 (deliver choice.store value) :=
    .choice .rest drawn
  obtain ⟨fewer, passed⟩ := h _ _ step (first.trans later)
  exact ⟨by omega, by omega⟩

/-- What an execution does first. -/
theorem Performs.first_cases (h : first.Performs l k second) :
    (l = 0 ∧ k = 0 ∧ second = first) ∨
    (∃ choice deliver value m, first = .sample choice deliver ∧ choice.Draws value ∧ l = m + 1 ∧
      (deliver choice.store value).Performs m k second) ∨
    ∃ point resume m j, first = .factor point resume ∧ l = m + 1 ∧ k = j + 1 ∧
      (resume point.store).Performs m j second := by
  induction h with
  | rest => exact .inl ⟨rfl, rfl, rfl⟩
  | choice before drawn ih =>
    rcases ih with ⟨rfl, rfl, same⟩ | ⟨_, _, _, m, same, drawn', rfl, after⟩ |
      ⟨_, _, m, j, same, rfl, rfl, after⟩
    · exact .inr (.inl ⟨_, _, _, 0, same.symm, drawn, rfl, .rest⟩)
    · exact .inr (.inl ⟨_, _, _, m + 1, same, drawn', rfl, .choice after drawn⟩)
    · exact .inr (.inr ⟨_, _, m + 1, j, same, rfl, rfl, .choice after drawn⟩)
  | factor before ih =>
    rcases ih with ⟨rfl, rfl, same⟩ | ⟨_, _, _, m, same, drawn', rfl, after⟩ |
      ⟨_, _, m, j, same, rfl, rfl, after⟩
    · exact .inr (.inr ⟨_, _, 0, 0, same.symm, rfl, rfl, .rest⟩)
    · exact .inr (.inl ⟨_, _, _, m + 1, same, drawn', rfl, .factor after⟩)
    · exact .inr (.inr ⟨_, _, m + 1, j + 1, same, rfl, rfl, .factor after⟩)

theorem Within.mono {effects' factors' : Nat} (he : effects ≤ effects') (hf : factors ≤ factors')
    (h : first.Within effects factors) : first.Within effects' factors' := by
  intro l k step there
  obtain ⟨fewer, passed⟩ := h l k step there
  exact ⟨by omega, by omega⟩

theorem Within.ofExit {store : Store} {value : Value} : (Step.exit store value).Within 1 0 := by
  intro l k step there
  rcases there.first_cases with ⟨rfl, rfl, _⟩ | ⟨_, _, _, _, same, _⟩ | ⟨_, _, _, _, same, _⟩
  · exact ⟨Nat.one_pos, Nat.le_refl _⟩
  · cases same
  · cases same

theorem Within.ofFactor {point : Factor} {resume : Continuation}
    (h : (resume point.store).Within effects factors) :
    (Step.factor point resume).Within (effects + 1) (factors + 1) := by
  intro l k step there
  rcases there.first_cases with ⟨rfl, rfl, _⟩ | ⟨_, _, _, _, same, _⟩ |
    ⟨_, _, m, j, same, rfl, rfl, after⟩
  · exact ⟨Nat.succ_pos _, Nat.zero_le _⟩
  · cases same
  · cases same
    obtain ⟨fewer, passed⟩ := h m j step after
    exact ⟨by omega, by omega⟩

theorem Within.ofChoice {choice : Choice} {deliver : Delivery}
    (h : ∀ value, choice.Draws value → (deliver choice.store value).Within effects factors) :
    (Step.sample choice deliver).Within (effects + 1) factors := by
  intro l k step there
  rcases there.first_cases with ⟨rfl, rfl, _⟩ | ⟨_, _, _, m, same, drawn, rfl, after⟩ |
    ⟨_, _, _, _, same, _⟩
  · exact ⟨Nat.succ_pos _, Nat.zero_le _⟩
  · cases same
    obtain ⟨fewer, passed⟩ := h _ drawn m k step after
    exact ⟨by omega, by omega⟩
  · cases same

end Step

namespace ParticleFilter

variable {n : Nat} {root : Step} {task : Task} {s₀ s t : Session (ParticleFilter n)}
  {next next' : Resume} {B F : Nat}

/-- What an answer comes to that lets the run go on: the active particle has made a choice, the turn
has gone to a later one, or the next round has begun. -/
inductive Proceeds (s : Session (ParticleFilter n)) (next next' : Resume)
    (t : Session (ParticleFilter n)) : Prop where
  | choice {choice : Choice} {deliver : Delivery} {value : Value}
      (effect : next.invoke = .sample choice deliver) (drawn : choice.Draws value)
      (goesOn : next' = .deliver deliver choice.store value) (engine : t.engine = s.engine)
  | turn (barriers : t.engine.metrics.barriers = s.engine.metrics.barriers)
      (after : s.engine.population.active < t.engine.population.active)
  | round (barriers : t.engine.metrics.barriers.length = s.engine.metrics.barriers.length + 1)

theorem nextRound_resumes (h : nextRound task s = .ok (.resume next') t) :
    t.engine.metrics.barriers.length = s.engine.metrics.barriers.length + 1 := by
  unfold nextRound at h
  simp only [bind_eq_ok, Run.engine_eq_ok] at h
  obtain ⟨_, r, passed, _, _, ⟨rfl, rfl⟩, h⟩ := h
  obtain ⟨q, noted, g, _, hr⟩ := barrier_eq_ok passed
  cases hf : r.engine.population.firstRunning? with
  | none =>
    simp only [hf, finish, bind_eq_ok, pure_eq_ok] at h
    obtain ⟨_, _, _, _, _, _, _, _, _, done, _⟩ := h
    cases done
  | some first =>
    simp only [hf] at h
    obtain ⟨_, rfl⟩ := turnTo_eq_ok h
    rw [hr]
    exact List.length_append

/-- The turn goes to a later particle as long as the round is not over. -/
theorem turnTo_later (closing : s.engine.population.Closing false)
    (h : turnTo (s.engine.population.nextRunning?.getD s.engine.population.active) s =
      .ok (.resume next') t) :
    t.engine.metrics = s.engine.metrics ∧
      s.engine.population.active < t.engine.population.active := by
  obtain ⟨j, hnext, later, _⟩ := Population.nextRunning?_after closing
  rw [hnext] at h
  obtain ⟨_, rfl⟩ := turnTo_eq_ok h
  exact ⟨rfl, later⟩

theorem answer_proceeds (h : InStep root task s₀ (.awaiting next) s)
    (answered : (handler task).answer next.invoke s = .ok (.resume next') t) :
    Proceeds s next next' t := by
  obtain ⟨o, _, _, _, acting⟩ := h
  cases effect : next.invoke with
  | sample choice deliver =>
    rw [effect] at answered
    have ha := Handler.answer_sample answered
    simp only [handler, bind_eq_ok, pure_eq_ok, Run.draw_eq_ok] at ha
    obtain ⟨value, _, ⟨g, drawn, rfl⟩, resumed, rfl⟩ := ha
    cases resumed
    exact .choice effect ⟨_, _, drawn⟩ rfl rfl
  | factor point resume =>
    rw [effect] at answered acting
    obtain ⟨_, ha⟩ := Handler.answer_factor answered
    simp only [handler, setPopulation, bind_eq_ok, Run.engine_eq_ok, Run.modifyEngine_eq_ok] at ha
    obtain ⟨_, _, ⟨rfl, rfl⟩, _, _, rfl, _, _, ⟨rfl, rfl⟩, ha⟩ := ha
    obtain ⟨_, closing⟩ := acting.factor (f := (·.park point resume)) (.refl _)
    split at ha <;> rename_i hb
    · have counted := nextRound_resumes ha
      exact .round counted
    · rw [Bool.not_eq_true] at hb
      rw [hb] at closing
      obtain ⟨metrics, later⟩ := turnTo_later closing ha
      exact .turn (congrArg Metrics.barriers metrics) later
  | exit store value =>
    rw [effect] at answered acting
    have ha := Handler.answer_exit answered
    simp only [handler, setPopulation, bind_eq_ok, Run.engine_eq_ok, Run.modifyEngine_eq_ok] at ha
    obtain ⟨_, _, ⟨rfl, rfl⟩, _, _, ⟨rfl, rfl⟩, _, r, rfl, _, _, ⟨rfl, rfl⟩, ha⟩ := ha
    obtain ⟨_, closing⟩ := acting.exit
    dsimp only at ha
    cases hn : (s.engine.population.updateCurrent (·.complete store value)).nextRunning? with
    | none =>
      simp only [hn, finish, bind_eq_ok, pure_eq_ok] at ha
      obtain ⟨_, _, _, _, _, _, _, _, _, done, _⟩ := ha
      cases done
    | some j =>
      simp only [hn] at ha
      split at ha <;> rename_i hb
      · have counted := nextRound_resumes ha
        exact .round counted
      · rw [Bool.not_eq_true] at hb
        rw [hb] at closing
        have turned := turnTo_later (s := ⟨⟨s.engine.population.updateCurrent
          (·.complete store value), s.engine.metrics⟩, s.context⟩) closing (by rw [hn]; exact ha)
        exact .turn (congrArg Metrics.barriers turned.1) turned.2

/-- Wherever the program is about to be resumed, it has passed a factor for every barrier. -/
theorem InStep.course (h : InStep root task s₀ (.awaiting next) s) :
    root.ComesTo s.engine.metrics.barriers.length next.invoke := by
  obtain ⟨o, _, opened, barriers, acting⟩ := h
  rw [← barriers]
  exact (opened.course _ acting.running).trans acting.course

/-- A round that is over while particles are running is one in which they have passed a factor. -/
theorem InStep.passed {i : Fin n} (h : InStep root task s₀ (.turned true) s)
    (running : s.engine.population.isRunning i = true) :
    ∃ step, root.ComesTo (s.engine.metrics.barriers.length + 1) step := by
  obtain ⟨⟨o, _, opened, barriers, acted⟩, closing⟩ := h
  rw [← barriers]
  exact ⟨_, ((opened.inLockstep acted closing).parked i running).comesTo⟩

/-- So many effects may still be answered. -/
def Ranked (task : Task) (s₀ : Session (ParticleFilter n)) (B F rank : Nat) (next : Resume)
    (s : Session (ParticleFilter n)) : Prop :=
  Reaches task s₀ (.awaiting next) s ∧ ∃ left,
    next.invoke.Within left (F - s.engine.metrics.barriers.length) ∧
    effectsAfter B F n s.engine.metrics.barriers.length s.engine.population.active + left ≤ rank

theorem Ranked.alive : ¬ Ranked task s₀ B F 0 next s := by
  rintro ⟨_, left, within, enough⟩
  have := within.pos
  omega

theorem Ranked.falls {rank : Nat} (sound : ∀ moment s, Reaches task s₀ moment s →
      InStep root task s₀ moment s) (bounded : root.Within B F)
    (h : Ranked task s₀ B F (rank + 1) next s)
    (answered : (handler task).answer next.invoke s = .ok (.resume next') t) :
    Ranked task s₀ B F rank next' t := by
  obtain ⟨reached, left, within, enough⟩ := h
  have pos := within.pos
  have reached' : Reaches task s₀ (.awaiting next') t := answer_leads reached answered
  obtain ⟨count, fresh⟩ := bounded.after (sound _ _ reached').course
  refine ⟨reached', ?_⟩
  cases answer_proceeds (sound _ _ reached) answered with
  | choice effect drawn goesOn engine =>
    obtain ⟨left, rfl⟩ := Nat.exists_eq_add_of_lt pos
    rw [effect, Nat.zero_add] at within
    rw [goesOn, engine]
    exact ⟨left, within.choose drawn, by omega⟩
  | turn barriers after =>
    have := effectsAfter_turn (B := B) (F := F) (b := s.engine.metrics.barriers.length) after
      t.engine.population.active.isLt
    rw [barriers] at fresh ⊢
    exact ⟨B, fresh, by omega⟩
  | round barriers =>
    have := effectsAfter_round (B := B) (i := s.engine.population.active) (barriers ▸ count)
      t.engine.population.active.isLt
    rw [barriers] at fresh ⊢
    exact ⟨B, fresh, by omega⟩

theorem prompt_turnTo (i : Fin n) (s : Session (ParticleFilter n)) : Prompt (turnTo i s) :=
  .engine (.bind trivial fun _ _ _ => trivial)

theorem prompt_finish (task : Task) (s : Session (ParticleFilter n)) : Prompt (finish task s) :=
  .engine (.bind (Prompt.ofExcept _) fun _ _ _ => .bind (Prompt.restore _) fun _ _ _ => trivial)

theorem prompt_nextRound (task : Task) (s : Session (ParticleFilter n)) :
    Prompt (nextRound task s) := by
  refine .bind (.engine (.bind (Prompt.draw _) fun _ _ _ => trivial)) fun _ r _ => ?_
  rw [Run.engine_bind]
  cases r.engine.population.firstRunning? with
  | none => exact prompt_finish task r
  | some first => exact prompt_turnTo first r

theorem prompt_answer (task : Task) (effect : Step) (s : Session (ParticleFilter n)) :
    Prompt ((handler task).answer effect s) := by
  refine .answer ?_ ?_ ?_
  · exact fun _ _ _ => .bind (Prompt.draw _) fun _ _ _ => trivial
  · intro point resume _ _
    refine .engine (.modifyEngine (.engine ?_))
    dsimp only
    split
    · exact prompt_nextRound task _
    · exact prompt_turnTo _ _
  · intro store value _
    refine .engine (.engine (.modifyEngine (.engine ?_)))
    cases (s.engine.population.updateCurrent (·.complete store value)).nextRunning? with
    | none => exact prompt_finish task _
    | some next =>
      dsimp only
      split
      · exact prompt_nextRound task _
      · exact prompt_turnTo _ _

/-- What a filter has noted of its barriers. -/
abbrev notes (s : Session (ParticleFilter n)) : List Barrier := s.engine.metrics.barriers

theorem preserves_turnTo (i : Fin n) : Preserves notes (turnTo i) := fun _ => rfl

theorem preserves_onContext {α : Type} (work : InContext α) :
    Preserves notes (Run.onContext work : Run (ParticleFilter n) α) :=
  fun s => congrArg (·.metrics.barriers) (Run.preserves_onContext work s)

theorem preserves_finish (task : Task) : Preserves notes (finish (n := n) task) :=
  .bind Run.preserves_engine fun _ => .bind (preserves_onContext _) fun _ =>
    .bind (preserves_onContext _) fun _ => .pure _

/-- However the next round begins or the run ends, at most one more barrier is noted. -/
theorem noted_nextRound (task : Task) (s : Session (ParticleFilter n)) :
    (notes (finalState (nextRound task s))).length ≤ (notes s).length + 1 := by
  have after : notes (finalState (nextRound task s)) = notes (finalState (barrier task s)) := by
    refine Preserves.after (fun _ => .bind Run.preserves_engine fun e => ?_) (barrier task) s
    cases e.population.firstRunning? with
    | none => exact preserves_finish task
    | some first => exact preserves_turnTo first
  rw [after]
  unfold barrier
  rw [Run.engine_bind]
  cases drawn : (Run.draw (s.engine.population.resample task.strict "particle-filter"
      s.engine.metrics.barriers.length) : Run (ParticleFilter n) _) s with
  | ok result r =>
    rw [bind_ok drawn]
    change (s.engine.metrics.barriers ++ [result.2]).length ≤ _
    rw [List.length_append]
    exact Nat.le_refl _
  | error stop r =>
    rw [bind_error drawn]
    have same : notes r = notes s := (preserves_onContext _).of_error drawn
    change (notes r).length ≤ _
    rw [same]
    exact Nat.le_succ _

/-- Whatever an answer comes to, no more barriers are noted than an execution has factors: who closes
a round while others run has let them pass one. -/
theorem noted_answer (sound : ∀ moment s, Reaches task s₀ moment s →
      InStep root task s₀ moment s) (bounded : root.Within B F)
    (h : Reaches task s₀ (.awaiting next) s) :
    (notes (finalState ((handler task).answer next.invoke s))).length ≤ F := by
  have count : (notes s).length ≤ F := (bounded.after (sound _ _ h).course).1
  have due : ∀ {r : Session (ParticleFilter n)} {i : Fin n}, Reaches task s₀ (.turned true) r →
      r.engine.population.isRunning i = true →
      (notes (finalState (nextRound task r))).length ≤ F := by
    intro r i turned running
    obtain ⟨_, passed⟩ := (sound _ _ turned).passed running
    exact Nat.le_trans (noted_nextRound task r) (bounded.after passed).1
  rcases Handler.answer_cases (handler task) next.invoke s with ⟨stop, inactive⟩ | answered
  · rw [inactive]
    exact count
  rw [answered]
  cases effect : next.invoke with
  | sample choice deliver =>
    have same : Preserves notes ((handler (n := n) task).onSample choice deliver) :=
      .bind (preserves_onContext _) fun _ => .pure _
    change (notes (finalState ((handler task).onSample choice deliver s))).length ≤ F
    rw [same s]
    exact count
  | factor point resume =>
    let r : Session (ParticleFilter n) := { s with engine := { s.engine with
      population := s.engine.population.updateCurrent (·.park point resume) } }
    have turned : Reaches task s₀ (.turned r.engine.population.atBarrier) r := h.factor effect rfl
    dsimp only [Handler.method]
    split
    · exact count
    · change (notes (finalState ((if r.engine.population.atBarrier = true then nextRound task
        else turnTo (r.engine.population.nextRunning?.getD r.engine.population.active)) r))).length ≤ F
      split <;> rename_i hb
      · rw [hb] at turned
        exact due turned (Population.atBarrier_iff.mp hb).1
      · exact count
  | exit store value =>
    let r : Session (ParticleFilter n) := { s with engine := { s.engine with
      population := s.engine.population.updateCurrent (·.complete store value) } }
    have turned : Reaches task s₀ (.afterExit s.engine.population.atBarrier r.engine.population) r :=
      h.exit effect rfl
    have running : ∀ j, r.engine.population.nextRunning? = some j →
        r.engine.population.isRunning j = true := fun j => List.find?_some
    unfold Moment.afterExit at turned
    dsimp only [Handler.method, handler, setPopulation]
    rw [bind_ok (Run.engine_eq_ok.mpr ⟨rfl, rfl⟩), bind_ok (Run.engine_eq_ok.mpr ⟨rfl, rfl⟩),
      bind_ok (a := ()) (Run.modifyEngine_eq_ok.mpr (Eq.refl r)),
      bind_ok (Run.engine_eq_ok.mpr ⟨rfl, rfl⟩)]
    cases hn : r.engine.population.nextRunning? with
    | none =>
      dsimp only
      rw [preserves_finish task r]
      exact count
    | some j =>
      simp only [hn, Option.isNone_some, Bool.false_eq_true, ↓reduceIte] at turned
      dsimp only
      split <;> rename_i hb
      · rw [hb] at turned
        exact due turned (running j hn)
      · exact count

/-- With as many effects as its particles can perform, a run comes to its end, and it notes at most one
barrier for each factor of an execution. -/
theorem drive_terminates (pos : 0 < n) (entry : Continuation) (store : Store) (context : Context)
    (task : Task) (bounded : (entry store).Within B F) (fuel : Nat) :
    let s₀ : Session (ParticleFilter n) := ⟨start pos entry store, context⟩
    let outcome := (handler task).drive fuel s₀.engine.population.resumeCurrent s₀
    ((F + 1) * (n * B) ≤ fuel → Prompt outcome) ∧ (notes (finalState outcome)).length ≤ F := by
  intro s₀ outcome
  have sound : ∀ moment s, Reaches task s₀ moment s → InStep (entry store) task s₀ moment s :=
    fun _ _ h => h.inStep (start_opened pos entry store) (Population.start_acting pos entry store)
  constructor
  · intro enough
    refine .drive (R := Ranked task s₀ B F) (fun _ _ => Ranked.alive)
      (fun _ _ _ _ => prompt_answer task _ _) (fun _ _ _ _ _ => Ranked.falls sound bounded) enough
      ⟨.start, B, (bounded.after (sound _ _ .start).course).2, ?_⟩
    exact Nat.le_of_eq (effectsAfter_start pos)
  · exact Handler.drive_engine (P := fun next s => Reaches task s₀ (.awaiting next) s)
      (Q := fun e => e.metrics.barriers.length ≤ F)
      (fun _ _ h => (bounded.after (sound _ _ h).course).1) (fun _ _ _ _ => answer_leads)
      (fun _ _ => noted_answer sound bounded) fuel .start

theorem run_terminates (fuel : Nat) (config : FilterConfig) (program : Program) (address : Address)
    (store : Store) (context : Context) (bounded : (program store address).Within B F)
    (enough : (F + 1) * (config.particles * B) ≤ fuel) :
    Prompt (run fuel config program address store context) := by
  unfold run install
  split
  · rename_i pos
    rw [bind_assoc]
    refine .bind trivial fun id r installed => ?_
    obtain ⟨rfl, rfl⟩ := InContext.install_eq_ok.mp installed
    rw [pure_bind]
    refine .bind (.inContext ?_) fun _ _ _ => trivial
    exact (drive_terminates pos (program.entry address) store _ _ bounded fuel).1 enough
  · exact Prompt.failed _

end ParticleFilter

end Posterior
