import Posterior.Proofs.ChainFailures
import Posterior.Proofs.Termination

/-!
Termination of moves. A particle that is moved may come to executions that nobody would draw, as its
choices keep their values under other parameters; but it goes on with none that has become impossible.
So it is enough that no execution of either kind runs for ever.
-/

namespace Posterior

open Numeric

/-- The value can be drawn for the choice, or the execution is possible with it. -/
def Entry.Feasible (e : Entry) : Prop :=
  e.choice.Draws e.value ∨ isPossible (e.scoreBefore + e.choiceScore) = true

def Trace.Feasible (t : Trace) : Prop := ∀ e ∈ t.entries, e.Feasible

/-- Every feasible execution performs at most so many effects, its exit included, and at most so many
of them are factors. -/
def Step.Confined (root : Step) (effects factors : Nat) : Prop :=
  ∀ es q, Replay anyScore (.start root) es q → (∀ e ∈ es, e.Feasible) →
    es.length + q.factors < effects ∧ q.factors ≤ factors

namespace Point

variable {p : Point} {effects factors effects' factors' : Nat}

/-- The same of what comes after a point. -/
def Confined (p : Point) (effects factors : Nat) : Prop :=
  ∀ es q, Replay anyScore p es q → (∀ e ∈ es, e.Feasible) →
    es.length + q.factors < effects + p.factors ∧ q.factors ≤ factors + p.factors

theorem Confined.of_start {root : Step} (h : (Point.start root).Confined effects factors) :
    root.Confined effects factors := h

theorem Confined.mono (he : effects ≤ effects') (hf : factors ≤ factors')
    (h : p.Confined effects factors) : p.Confined effects' factors' := by
  intro es q replay feasible
  obtain ⟨fewer, passed⟩ := h es q replay feasible
  exact ⟨by omega, by omega⟩

theorem Confined.ofExit {store : Store} {value : Value} (stands : p.step = .exit store value) :
    p.Confined 1 0 := by
  intro es q replay _
  cases replay with
  | rest => exact ⟨by simp, by simp⟩
  | choice meets => cases stands.symm.trans meets.step
  | factor stands' => cases stands.symm.trans stands'

theorem Confined.ofFactor {point : Factor} {resume : Continuation}
    (stands : p.step = .factor point resume) (h : (p.pass point resume).Confined effects factors) :
    p.Confined (effects + 1) (factors + 1) := by
  intro es q replay feasible
  cases replay with
  | rest => exact ⟨by simp, by simp⟩
  | choice meets => cases stands.symm.trans meets.step
  | factor stands' _ _ tail =>
    cases stands.symm.trans stands'
    obtain ⟨fewer, passed⟩ := h _ _ tail feasible
    have one : (p.pass point resume).factors = p.factors + 1 := rfl
    exact ⟨by omega, by omega⟩

theorem Confined.ofChoice {choice : Choice} {deliver : Delivery}
    (stands : p.step = .sample choice deliver)
    (h : ∀ (q : Point) value, q.step = deliver choice.store value → q.Confined effects factors) :
    p.Confined (effects + 1) factors := by
  intro es q replay feasible
  cases replay with
  | rest => exact ⟨by simp, by simp⟩
  | factor stands' => cases stands.symm.trans stands'
  | @choice _ _ e es meets _ tail =>
    obtain ⟨rfl, rfl⟩ := Step.sample.inj (stands.symm.trans meets.step)
    obtain ⟨fewer, passed⟩ :=
      h _ e.value rfl _ _ tail fun r hr => feasible r (List.mem_cons_of_mem _ hr)
    have none : (p.choose e).factors = p.factors := rfl
    rw [List.length_cons]
    exact ⟨by omega, by omega⟩

end Point

namespace Chain

variable {c c' old : Chain} {g : Rng} {i : Nat} {limit : Option Nat} {g₀ : Rng} {s : Chain × Rng}
  {step : Step}

/-- An execution that goes on from a choice is possible with its value. -/
theorem site_feasible {choice : Choice} {deliver : Delivery} {forced : Bool} {next : Resume}
    (h : c.trace.Feasible) (hs : site choice deliver forced (c, g) = .ok (.resume next) s) :
    s.1.trace.Feasible := by
  obtain ⟨e, _, _, _, extends', possible, _⟩ := site_resume hs
  intro r hr
  rw [extends'.entries] at hr
  rcases List.mem_append.mp hr with hr | hr
  · exact h r hr
  · rw [List.mem_singleton.mp hr]
    rw [extends'.score_eq, ← extends'.scoreBefore] at possible
    exact .inr possible

theorem Regenerating.feasible (ho : old.trace.Feasible) (h : Regenerating limit old i g₀ s step) :
    s.1.trace.Feasible := by
  induction h with
  | redraw entry site => exact site_feasible (fun e he => ho e (List.mem_of_mem_take he)) site
  | choice before site ih => exact site_feasible ih site
  | factor before number possible short ih => exact ih

theorem Regenerated.feasible {value : Option Value} {frontier : Frontier} (ho : old.trace.Feasible)
    (h : Regenerated limit old i g₀ s value frontier) : s.1.trace.Feasible := by
  cases h with
  | exit resume before free => exact before.feasible ho
  | factor before number possible cut =>
    have feasible := before.feasible ho
    exact feasible

end Chain

namespace Mover

variable {task : Task} {steps left : Nat} {s₀ s t : Session Mover} {moment : Moment} {b : Point}
  {next next' : Resume} {origin : Chain} {ending : Ending Outcome}

theorem prompt_conclude (task : Task) (ending : Ending Outcome) (s : Session Mover) :
    Prompt (conclude task ending s) := by
  cases ending with
  | unchanged => exact .bind trivial fun _ _ _ => trivial
  | finished outcome =>
    refine .bind (Prompt.within _) fun accepted t _ => ?_
    cases accepted with
    | false => trivial
    | true => exact .bind trivial fun _ _ _ => trivial

theorem prompt_advance (task : Task) (left : Nat) (s : Session Mover) :
    Prompt (advance task left s) := by
  induction left generalizing s with
  | zero => trivial
  | succ left ih =>
    refine .modifyEngine (.bind (Prompt.within _) fun progress t _ => ?_)
    cases progress with
    | resume next => trivial
    | halted => exact .bind (prompt_conclude ..) fun _ r _ => ih r
    | unchanged => exact .bind (prompt_conclude ..) fun _ r _ => ih r

theorem prompt_settle (task : Task) (ending : Ending Outcome) (s : Session Mover) :
    Prompt (settle task ending s) := by
  refine .bind (prompt_conclude ..) fun _ r _ => .engine (.bind (prompt_advance ..) fun pause t _ => ?_)
  cases pause with
  | some next => trivial
  | none => exact .bind (Prompt.restore _) fun _ _ _ => trivial

theorem prompt_answer (task : Task) (effect : Step) (s : Session Mover) :
    Prompt ((handler task).answer effect s) := by
  refine .answer ?_ ?_ ?_
  · intro choice deliver _
    refine .bind (Prompt.within _) fun progress t _ => ?_
    cases progress with
    | resume next => trivial
    | halted => exact prompt_settle ..
    | unchanged => exact prompt_settle ..
  · intro point resume _ _
    refine .modifyEngine (.engine ?_)
    dsimp only
    split
    · exact prompt_settle ..
    · split
      · exact prompt_settle ..
      · trivial
  · intro store value _
    change Prompt ((if task.limit.isSome then _ else _ : Run Mover _) s)
    split
    · exact .modifyEngine (prompt_settle ..)
    · exact .engine (prompt_settle ..)

/-- The choices of whatever may be kept are feasible. -/
def Feasible : Moment → Chain → Prop
  | .settled _, c => c.trace.Feasible
  | .ended _ .unchanged, c => c.trace.Feasible
  | .awaiting old _, _ => old.trace.Feasible
  | .ended old (.finished _), _ => old.trace.Feasible

theorem Reaches.feasible (h : Reaches task steps s₀ moment s)
    (sound : Sound b task.limit s₀.engine.chain s₀.engine.frontier)
    (feasible : s₀.engine.chain.trace.Feasible) : Feasible moment s.engine.chain := by
  induction h with
  | start => exact feasible
  | propose before proposed ih =>
    obtain ⟨c, g, hp, rfl⟩ := onChain_eq_ok.mp proposed
    rcases Chain.propose_outcome none hp with
      ⟨_, _, _, rfl, _⟩ | ⟨rfl, _⟩ | ⟨rfl, ht, _⟩
    · exact ih
    · exact ih
    · change c.trace.Feasible
      rw [ht]
      exact ih
  | @sample _ _ _ _ _ _ progress before effect site ih =>
    obtain ⟨c, g, hs, rfl⟩ := onChain_eq_ok.mp site
    cases progress with
    | unchanged => cases (Chain.site_unchanged hs).1
    | resume next => exact ih
    | halted => exact ih
  | factor before effect number passed ih =>
    unfold Moment.afterFactor
    split
    · exact ih
    · split <;> exact ih
  | exit before effect ih =>
    unfold Moment.afterExit
    split <;> exact ih
  | @conclude origin ending r t before concluded ih =>
    have held := before.holds sound
    obtain ⟨accepted, records⟩ := conclude_records concluded
    have hd := records.decided
    generalize t.engine.chain = c at hd ⊢
    generalize t.context.rng = g at hd
    cases hd with
    | unchanged => exact ih
    | finished decided =>
      obtain ⟨kept, i, g₀, picked, ends⟩ := held
      change c.trace.Feasible
      cases ends with
      | impossible proposes impossible =>
        obtain ⟨_, rfl⟩ := proposes.decide_impossible picked.lt kept.possible impossible decided
        rw [proposes.rollBack.1]
        exact ih
      | complete made =>
        rcases made.decide decided with ⟨_, ht, _⟩ | ⟨_, ht, _⟩
        · rw [ht]
          exact made.feasible ih
        · rw [ht]
          exact ih

/-- What an answer comes to that lets the moves go on: one more effect is behind the execution, or a
later step is under way. -/
inductive Proceeds (s t : Session Mover) : Prop where
  | onward (remaining : t.engine.remaining = s.engine.remaining)
      (effects : t.engine.chain.trace.entries.length + t.engine.chain.factors =
        s.engine.chain.trace.entries.length + s.engine.chain.factors + 1)
  | step (fewer : t.engine.remaining < s.engine.remaining)

theorem advance_resumes (h : advance task left s = .ok (some next) t) : t.engine.remaining < left := by
  induction left generalizing s with
  | zero => cases (pure_eq_ok.mp h).1
  | succ left ih =>
    simp only [advance, bind_eq_ok, Run.modifyEngine_eq_ok] at h
    obtain ⟨_, _, rfl, progress, r, proposed, h⟩ := h
    cases progress with
    | resume next =>
      obtain ⟨_, rfl⟩ := pure_eq_ok.mp h
      obtain ⟨c, g, _, rfl⟩ := onChain_eq_ok.mp proposed
      exact Nat.lt_succ_self left
    | halted =>
      simp only [bind_eq_ok] at h
      obtain ⟨_, _, _, h⟩ := h
      exact Nat.lt_succ_of_lt (ih h)
    | unchanged =>
      simp only [bind_eq_ok] at h
      obtain ⟨_, _, _, h⟩ := h
      exact Nat.lt_succ_of_lt (ih h)

theorem settle_resumes {remaining : Nat} (h : settle task ending s = .ok (.resume next) t)
    (same : s.engine.remaining = remaining) : t.engine.remaining < remaining := by
  subst same
  simp only [settle, bind_eq_ok, Run.engine_eq_ok] at h
  obtain ⟨_, r, concluded, _, _, ⟨rfl, rfl⟩, pause, _, advanced, h⟩ := h
  obtain ⟨_, records⟩ := conclude_records concluded
  cases pause with
  | some next =>
    obtain ⟨_, rfl⟩ := pure_eq_ok.mp h
    exact records.remaining ▸ advance_resumes advanced
  | none =>
    simp only [bind_eq_ok, pure_eq_ok] at h
    obtain ⟨_, _, _, done, _⟩ := h
    cases done

theorem answer_proceeds {effect : Step}
    (answered : (handler task).answer effect s = .ok (.resume next') t) : Proceeds s t := by
  cases effect with
  | sample choice deliver =>
    have ha := Handler.answer_sample answered
    simp only [handler, bind_eq_ok] at ha
    obtain ⟨progress, r, site, ha⟩ := ha
    obtain ⟨c, g, hs, rfl⟩ := onChain_eq_ok.mp site
    cases progress with
    | resume next =>
      obtain ⟨_, rfl⟩ := pure_eq_ok.mp ha
      obtain ⟨e, _, _, _, extends', _⟩ := Chain.site_resume hs
      refine .onward rfl ?_
      change c.trace.entries.length + c.factors = _
      rw [extends'.entries, extends'.factors_eq, List.length_append]
      exact Nat.succ_add ..
    | halted => exact .step (settle_resumes ha rfl)
    | unchanged => exact .step (settle_resumes ha rfl)
  | factor point resume =>
    obtain ⟨_, ha⟩ := Handler.answer_factor answered
    simp only [handler, bind_eq_ok, Run.modifyEngine_eq_ok, Run.engine_eq_ok] at ha
    obtain ⟨_, _, rfl, _, _, ⟨rfl, rfl⟩, ha⟩ := ha
    split at ha
    · exact .step (settle_resumes ha rfl)
    · split at ha
      · exact .step (settle_resumes ha rfl)
      · obtain ⟨_, rfl⟩ := pure_eq_ok.mp ha
        exact .onward rfl rfl
  | exit store value =>
    have ha := Handler.answer_exit answered
    simp only [handler] at ha
    split at ha <;> simp only [bind_eq_ok, Run.modifyEngine_eq_ok, Run.engine_eq_ok] at ha
    · obtain ⟨_, _, rfl, ha⟩ := ha
      exact .step (settle_resumes ha rfl)
    · obtain ⟨_, _, ⟨rfl, rfl⟩, ha⟩ := ha
      exact .step (settle_resumes ha rfl)

/-- From `b` on, with `frozen` choices before it, feasible executions stay within their bounds. -/
def Confined (b : Point) (frozen B : Nat) : Prop :=
  ∀ es q, Replay anyScore b es q → (∀ e ∈ es, e.Feasible) → frozen + es.length + q.factors < B

/-- The effects behind the execution under way, those of its frozen choices included. -/
def behind (frozen : Nat) (c : Chain) : Nat := frozen + c.trace.entries.length + c.factors

/-- So many effects may still be answered: those of the steps that are left, and of this one. -/
def Ranked (task : Task) (steps : Nat) (s₀ : Session Mover) (frozen B rank : Nat) (next : Resume)
    (s : Session Mover) : Prop :=
  ∃ origin, Reaches task steps s₀ (.awaiting origin next) s ∧
    s.engine.remaining * B + (B - behind frozen s.engine.chain) ≤ rank

section
variable {frozen B rank : Nat} (sound : Sound b task.limit s₀.engine.chain s₀.engine.frontier)
  (feasible : s₀.engine.chain.trace.Feasible) (confined : Confined b frozen B)
include sound feasible confined

theorem Reaches.behind_lt (h : Reaches task steps s₀ (.awaiting origin next) s) :
    behind frozen s.engine.chain < B := by
  obtain ⟨⟨⟨_, replay, _⟩, _⟩, i, g₀, _, regenerating⟩ := h.holds sound
  have kept := regenerating.replay (fun _ _ => rfl) replay
  exact confined _ _ kept (regenerating.feasible (h.feasible sound feasible))

theorem Ranked.alive : ¬ Ranked task steps s₀ frozen B 0 next s := by
  rintro ⟨origin, reached, enough⟩
  have := reached.behind_lt sound feasible confined
  omega

theorem Ranked.falls (h : Ranked task steps s₀ frozen B (rank + 1) next s)
    (answered : (handler task).answer next.invoke s = .ok (.resume next') t) :
    Ranked task steps s₀ frozen B rank next' t := by
  obtain ⟨origin, reached, enough⟩ := h
  obtain ⟨origin', reached'⟩ := answer_leads reached answered
  have now := reached.behind_lt sound feasible confined
  refine ⟨origin', reached', ?_⟩
  cases answer_proceeds answered with
  | onward remaining effects =>
    rw [remaining]
    unfold behind at *
    omega
  | step fewer =>
    have := Nat.mul_le_mul_right B (Nat.succ_le_of_lt fewer)
    rw [Nat.succ_mul] at this
    omega

theorem take_terminates {fuel : Nat} (enough : steps * B ≤ fuel) :
    Prompt (take task fuel steps s₀) := by
  refine .bind (.guarding (prompt_advance ..)) fun pause r advanced => ?_
  have advanced := Run.guarding_eq_ok.mp advanced
  have reached := advance_pauses .start advanced
  cases pause with
  | none => exact Prompt.restore _
  | some next =>
    obtain ⟨origin, reached⟩ := reached
    have fewer := Nat.mul_le_mul_right B (Nat.succ_le_of_lt (advance_resumes advanced))
    rw [Nat.succ_mul] at fewer
    refine Prompt.drive (R := Ranked task steps s₀ frozen B)
      (fun _ _ => Ranked.alive sound feasible confined) (fun _ _ _ _ => prompt_answer task _ _)
      (fun _ _ _ _ _ => Ranked.falls sound feasible confined) enough ⟨origin, reached, ?_⟩
    omega

end

end Mover

variable {root : Step} {B F : Nat}

section
variable {p : Particle} {steps : Nat} {histogram : Option Histogram} {c c' : Context}

/-- Behind the frozen choices there is as much left as the whole execution leaves. -/
theorem Step.Confined.base {b : Point} (h : root.Confined B F) {es : List Entry}
    (there : Replay anyScore (.start root) es b) (feasible : ∀ e ∈ es, e.Feasible) :
    Mover.Confined b es.length B := by
  intro es' q replay feasible'
  have whole := (h _ q (there.trans replay) (by
    intro e he
    rcases List.mem_append.mp he with he | he
    · exact feasible e he
    · exact feasible' e he)).1
  rw [List.length_append] at whole
  exact whole

theorem rejuvenate_terminates {fuel : Nat} (describes : p.Describes root)
    (feasible : p.trace.Feasible) (confined : root.Confined B F) (enough : steps * B ≤ fuel) :
    Prompt (rejuvenate fuel p p.limit steps histogram c) := by
  unfold rejuvenate
  by_cases movable : p.movable steps = true
  · rw [if_neg (by simp [movable])]
    refine .bind trivial fun id r installed => ?_
    obtain ⟨b, there, sound⟩ := describes.base movable
    have confined := confined.base there fun e he => feasible e (List.mem_of_mem_take he)
    refine .bind (.inContext ?_) fun _ _ _ => .bind (.inContext_ofExcept fun _ _ => Prompt.failed _)
      fun _ _ _ => trivial
    exact Mover.take_terminates sound (fun e he => feasible e (List.mem_of_mem_drop he)) confined enough
  · rw [if_pos (by simp [movable])]
    trivial

theorem rejuvenate_feasible {fuel : Nat} {r : Rejuvenated} (describes : p.Describes root)
    (feasible : p.trace.Feasible) (h : rejuvenate fuel p p.limit steps histogram c = .ok r c') :
    r.particle.trace.Feasible := by
  rcases rejuvenate_eq_ok h with ⟨_, same⟩ | ⟨movable, id, s₀, s, trace, reached, hc, hf, ht, he⟩
  · rw [same]
    exact feasible
  · obtain ⟨b, there, sound⟩ := describes.base movable
    rw [← hc, ← hf] at sound
    have kept : Mover.Feasible (.settled 0) s.engine.chain := by
      refine reached.feasible sound fun e he => feasible e ?_
      rw [hc] at he
      exact List.mem_of_mem_drop he
    rw [he]
    intro e hm
    change e ∈ trace.entries at hm
    rw [ht] at hm
    rcases List.mem_append.mp hm with hm | hm
    · exact feasible e (List.mem_of_mem_take hm)
    · exact kept e hm

end

end Posterior
