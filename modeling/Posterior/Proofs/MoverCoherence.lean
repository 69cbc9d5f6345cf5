import Posterior.Proofs.MoverRuns
import Posterior.Proofs.Traces

/-!
Coherence of a particle that is moved. The chain works on the choices from the floor on; behind a
replay of those below it, every execution that the chain keeps is one of the whole program, and the
frontier is where that execution stands.
-/

namespace Posterior

open Numeric

namespace Mover

/-- The chain holds an execution from `b` on that is possible and stands at the frontier. -/
structure Sound (b : Point) (limit : Option Nat) (c : Chain) (frontier : Frontier) : Prop where
  complete : Complete anyScore limit b c.trace c.score c.value frontier
  possible : isPossible c.score = true

/-- The execution that was to replace `old` is over. -/
inductive Over (limit : Option Nat) (old : Chain) (i : Nat) (g₀ : Rng) (s : Chain × Rng) :
    Outcome → Prop where
  | complete {value : Option Value} {frontier : Frontier}
      (made : Chain.Regenerated limit old i g₀ s value frontier) :
      Over limit old i g₀ s ⟨value, some frontier⟩
  | impossible (proposes : s.1.Proposes old i) (impossible : (s.1.score == negInf) = true) :
      Over limit old i g₀ s .impossible

/-- The execution at each moment, whatever the chain held at first: one that is under way regenerates
an entry of the chain out of which it was proposed. -/
def Moment.Regenerates (limit : Option Nat) : Moment → Chain × Rng → Prop
  | .settled _, _ => True
  | .awaiting old next, s => ∃ i g₀, Chain.PicksAmong old.trace.length i g₀ ∧
      Chain.Regenerating limit old i g₀ s next.invoke
  | .ended old (.finished outcome), s => ∃ i g₀, Chain.PicksAmong old.trace.length i g₀ ∧
      Over limit old i g₀ s outcome
  | .ended old .unchanged, s =>
      s.1.trace = old.trace ∧ s.1.score = old.score ∧ s.1.value = old.value

/-- The property holds of the execution that was kept last and of its frontier. -/
def Moment.Keeps (P : Chain → Frontier → Prop) : Moment → Mover → Prop
  | .settled _, e => P e.chain e.frontier
  | .awaiting old _, e => P old e.frontier
  | .ended old _, e => P old e.frontier

/-- A property of a kept execution and its frontier that regenerations hand on. -/
structure Upheld (limit : Option Nat) (P : Chain → Frontier → Prop) : Prop where
  possible : ∀ {c : Chain} {frontier : Frontier}, P c frontier → isPossible c.score = true
  of_eq : ∀ {c c' : Chain} {frontier : Frontier}, P c frontier → c'.trace = c.trace →
    c'.score = c.score → c'.value = c.value → P c' frontier
  made : ∀ {old c : Chain} {i : Nat} {g₀ : Rng} {s : Chain × Rng} {before frontier : Frontier},
    P old before → Chain.Regenerated limit old i g₀ s c.value frontier →
    c.trace = s.1.trace → c.score = s.1.score → P c frontier

/-- What holds at each moment while a particle is moved. The frontier belongs to the execution that
was kept last. -/
def Holds (b : Point) (limit : Option Nat) : Moment → Mover → Rng → Prop
  | .settled _, e, _ => Sound b limit e.chain e.frontier
  | .awaiting old next, e, g => Sound b limit old e.frontier ∧
      ∃ i g₀, Chain.PicksAmong old.trace.length i g₀ ∧
        Chain.Regenerating limit old i g₀ (e.chain, g) next.invoke
  | .ended old (.finished outcome), e, g => Sound b limit old e.frontier ∧
      ∃ i g₀, Chain.PicksAmong old.trace.length i g₀ ∧ Over limit old i g₀ (e.chain, g) outcome
  | .ended _ .unchanged, e, _ => Sound b limit e.chain e.frontier

variable {b : Point} {limit : Option Nat} {old c c' : Chain} {i : Nat} {g g' g₀ : Rng}
  {frontier : Frontier}

theorem Sound.of_eq (h : Sound b limit c frontier) (ht : c'.trace = c.trace)
    (hs : c'.score = c.score) (hv : c'.value = c.value) : Sound b limit c' frontier := by
  refine ⟨?_, ?_⟩
  · rw [ht, hs, hv]
    exact h.complete
  · rw [hs]
    exact h.possible

/-- Whatever the chain held at first, what is executed are regenerations. -/
theorem Reaches.regenerates {task : Task} {steps : Nat} {s₀ s : Session Mover} {moment : Moment}
    (h : Reaches task steps s₀ moment s) :
    moment.Regenerates task.limit (s.engine.chain, s.context.rng) := by
  induction h with
  | start => trivial
  | propose before proposed ih =>
    obtain ⟨c, g, hp, rfl⟩ := onChain_eq_ok.mp proposed
    rcases Chain.propose_outcome task.limit hp with
      ⟨next, i, g₀, rfl, hpick, hr⟩ | ⟨rfl, i, g₀, hpick, hr, hz⟩ | ⟨rfl, hs⟩
    · exact ⟨i, g₀, hpick, hr⟩
    · exact ⟨i, g₀, hpick, .impossible hr hz⟩
    · exact hs
  | sample before effect site ih =>
    obtain ⟨c, g, hs, rfl⟩ := onChain_eq_ok.mp site
    obtain ⟨i, g₀, hpick, hr⟩ := ih
    rw [effect] at hr
    rcases hr.site hs with ⟨next, rfl, hr'⟩ | ⟨rfl, hp, hz⟩
    · exact ⟨i, g₀, hpick, hr'⟩
    · exact ⟨i, g₀, hpick, .impossible hp hz⟩
  | factor before effect number passed ih =>
    -- short of the limit the execution passes the factor, at the limit it is cut off there
    subst passed
    obtain ⟨i, g₀, hpick, hr⟩ := ih
    rw [effect] at hr
    unfold Moment.afterFactor
    split
    · rename_i hz
      exact ⟨i, g₀, hpick, .impossible hr.proposes hz⟩
    · rename_i hz
      have hp := isPossible_iff.mpr (eq_false_of_ne_true hz)
      split
      · rename_i hl
        exact ⟨i, g₀, hpick, .complete (.factor hr number hp hl)⟩
      · rename_i hl
        exact ⟨i, g₀, hpick, hr.factor number hp hl⟩
  | exit before effect ih =>
    -- without a limit the execution ends at its exit, with one it has come out too early
    obtain ⟨i, g₀, hpick, hr⟩ := ih
    rw [effect] at hr
    unfold Moment.afterExit leave
    split
    · exact ⟨i, g₀, hpick, .impossible hr.proposes negInf_beq_self⟩
    · rename_i hl
      exact ⟨i, g₀, hpick, .complete (.exit _ hr (by simpa using hl))⟩
  | conclude before concluded ih => trivial

/-- What is kept stands at its own frontier; what is undone leaves the old one in place. -/
theorem Upheld.conclude {P : Chain → Frontier → Prop} {task : Task} {ending : Ending Outcome}
    {s t : Session Mover} (upheld : Upheld task.limit P) (h : P old s.engine.frontier)
    (regenerates : (Moment.ended old ending).Regenerates task.limit
      (s.engine.chain, s.context.rng))
    (concluded : Mover.conclude task ending s = .ok () t) :
    P t.engine.chain t.engine.frontier := by
  obtain ⟨accepted, recorded⟩ := conclude_records concluded
  have hd := recorded.decided
  have hf := recorded.frontier
  generalize t.engine.chain = c at hd ⊢
  generalize t.context.rng = g at hd
  cases hd with
  | unchanged =>
    obtain ⟨ht, hs, hv⟩ := regenerates
    rw [hf]
    exact upheld.of_eq h ht hs hv
  | @finished outcome _ _ hd =>
    obtain ⟨i, g₀, hpick, hover⟩ := regenerates
    cases hover with
    | impossible proposes impossible =>
      obtain ⟨rfl, hb⟩ :=
        proposes.decide_impossible hpick.lt (upheld.possible h) impossible hd
      obtain ⟨ht, hs, hv, _⟩ := proposes.rollBack
      rw [← hb] at ht hs hv
      rw [hf]
      exact upheld.of_eq h ht hs hv
    | complete made =>
      rcases made.decide hd with ⟨rfl, ht, hs, hv⟩ | ⟨rfl, ht, hs, hv⟩
      · rw [hf]
        exact upheld.made h (hv ▸ made) ht hs
      · rw [hf]
        exact upheld.of_eq h ht hs hv

/-- What regenerations hand on holds of every execution that is kept. -/
theorem Reaches.keeps {P : Chain → Frontier → Prop} {task : Task} {steps : Nat}
    {s₀ s : Session Mover} {moment : Moment} (upheld : Upheld task.limit P)
    (h₀ : P s₀.engine.chain s₀.engine.frontier) (h : Reaches task steps s₀ moment s) :
    moment.Keeps P s.engine := by
  induction h with
  | start => exact h₀
  | @propose _ progress _ _ before proposed ih =>
    obtain ⟨c, g, _, rfl⟩ := onChain_eq_ok.mp proposed
    cases progress <;> exact ih
  | @sample _ _ _ _ _ _ progress before effect site ih =>
    obtain ⟨c, g, _, rfl⟩ := onChain_eq_ok.mp site
    cases progress <;> exact ih
  | factor before effect number passed ih =>
    subst passed
    unfold Moment.afterFactor
    split
    · exact ih
    · split <;> exact ih
  | exit before effect ih =>
    unfold Moment.afterExit leave
    split <;> exact ih
  | conclude before concluded ih => exact upheld.conclude ih before.regenerates concluded

/-- Regenerations hand on that the chain holds a possible execution that stands at the frontier. -/
theorem sound_upheld : Upheld limit (Sound b limit) where
  possible h := h.possible
  of_eq h := h.of_eq
  made h made ht hs := by
    refine ⟨?_, ?_⟩
    · rw [ht, hs]
      exact made.complete (fun _ _ => rfl) h.complete
    · rw [hs]
      exact made.possible

/-- Moving a particle keeps chain and frontier in order at each moment. -/
theorem Reaches.holds {task : Task} {steps : Nat} {s₀ s : Session Mover} {moment : Moment}
    (h₀ : Sound b task.limit s₀.engine.chain s₀.engine.frontier)
    (h : Reaches task steps s₀ moment s) : Holds b task.limit moment s.engine s.context.rng := by
  have kept := h.keeps sound_upheld h₀
  have regenerates := h.regenerates
  cases moment with
  | settled left => exact kept
  | awaiting old next => exact ⟨kept, regenerates⟩
  | ended old ending =>
    cases ending with
    | finished outcome => exact ⟨kept, regenerates⟩
    | unchanged =>
      obtain ⟨ht, hs, hv⟩ := regenerates
      exact Sound.of_eq kept ht hs hv

end Mover

namespace Particle

/-- The factor at which the execution of the particle is cut off: none if it has exited. -/
def limit (p : Particle) : Option Nat := if p.completed then none else some p.factorCount

/-- The particle describes one real execution of the program. Replayed from its start with the
values of the trace, the program meets exactly the entries of the trace and comes to the score of
the particle; then it has either exited with the particle's value and store, or it is suspended at
the particle's latest factor, with the particle's continuation and store. -/
def Describes (root : Step) (p : Particle) : Prop :=
  Complete anyScore p.limit (.start root) p.trace p.score p.value ⟨p.resume, p.store⟩

/-- What a move leaves alone. -/
structure Kept (p q : Particle) : Prop where
  completed : q.completed = p.completed
  factorCount : q.factorCount = p.factorCount
  weight : q.weight = p.weight

theorem Kept.refl (p : Particle) : p.Kept p := ⟨rfl, rfl, rfl⟩

theorem Kept.trans {p q r : Particle} (h : p.Kept q) (h' : q.Kept r) : p.Kept r :=
  ⟨h'.completed.trans h.completed, h'.factorCount.trans h.factorCount, h'.weight.trans h.weight⟩

theorem Kept.running {p q : Particle} (h : p.Kept q) : q.running = p.running := by
  unfold Particle.running
  rw [h.completed]

theorem Describes.of_kept {root : Step} {p q : Particle} (hk : p.Kept q)
    (h : Complete anyScore p.limit (.start root) q.trace q.score q.value ⟨q.resume, q.store⟩) :
    q.Describes root := by
  unfold Describes
  rw [show q.limit = p.limit by simp only [limit, hk.completed, hk.factorCount]]
  exact h

end Particle

variable {root : Step} {p : Particle} {steps : Nat} {histogram : Option Histogram}
  {c c' : Context}

theorem Particle.movable_possible (h : p.movable steps = true) : isPossible p.score = true := by
  unfold Particle.movable at h
  simp only [Bool.and_eq_true] at h
  exact h.1.1

/-- A particle that can be moved has choices above its floor. -/
theorem Particle.movable_above (h : p.movable steps = true) :
    p.trace.entries.drop p.frozen ≠ [] := by
  unfold Particle.movable Trace.isEmpty at h
  simp only [Trace.entries_drop, Bool.and_eq_true, Bool.not_eq_true', List.isEmpty_eq_false_iff,
    ne_eq, List.drop_eq_nil_iff, Nat.not_le] at h
  have floor : p.regenFloor < p.trace.entries.length := h.1.2
  unfold Particle.frozen Trace.length
  rw [ne_eq, List.drop_eq_nil_iff]
  omega

/-- What a move starts from, behind the choices that are frozen. -/
theorem Particle.Describes.base (h : p.Describes root) (movable : p.movable steps = true) :
    ∃ b, Replay anyScore (.start root) (p.trace.entries.take p.frozen) b ∧
      Mover.Sound b p.limit
        { trace := p.trace.drop p.frozen, score := p.score, value := p.value }
        ⟨p.resume, p.store⟩ := by
  obtain ⟨q, hq, ha⟩ := h
  rw [← List.take_append_drop p.frozen p.trace.entries] at hq
  obtain ⟨b, hb, hq⟩ := hq.split
  exact ⟨b, hb, ⟨q, hq, ha⟩, Particle.movable_possible movable⟩

/-- A rejuvenation moves a chain made of the choices from the floor on and puts them back behind
the frozen ones; a particle that cannot be moved stays as it is. -/
theorem rejuvenate_eq_ok {fuel : Nat} {limit : Option Nat} {r : Rejuvenated}
    (h : rejuvenate fuel p limit steps histogram c = .ok r c') :
    (p.movable steps = false ∧ r.particle = p) ∨
      (p.movable steps = true ∧ ∃ (id : HandlerId) (s₀ s : Session Mover) (trace : Trace),
        Mover.Reaches { id, frozen := p.frozen, limit } steps s₀ (.settled 0) s ∧
        s₀.engine.chain =
          { trace := p.trace.drop p.frozen, score := p.score, value := p.value } ∧
        s₀.engine.frontier = ⟨p.resume, p.store⟩ ∧
        trace.entries = p.trace.entries.take p.frozen ++ s.engine.chain.trace.entries ∧
        r.particle = p.adopt s.engine trace) := by
  unfold rejuvenate at h
  split at h
  · rename_i hm
    obtain ⟨rfl, rfl⟩ := pure_eq_ok.mp h
    exact .inl ⟨by simpa using hm, rfl⟩
  · rename_i hm
    simp only [bind_eq_ok, InContext.ofExcept_eq_ok, pure_eq_ok] at h
    obtain ⟨id, c₁, _, ⟨_, moved⟩, c₂, ht, trace, _, ⟨hs, rfl⟩, rfl, rfl⟩ := h
    obtain ⟨s, hr, he⟩ := Mover.take_settled (Run.inContext_eq_ok.mp ht)
    have he : moved = s.engine := he
    subst he
    exact .inr ⟨by simpa using hm, id, _, s, trace, hr, rfl, rfl, Trace.entries_splice hs, rfl⟩

theorem rejuvenate_kept {fuel : Nat} {limit : Option Nat} {r : Rejuvenated}
    (h : rejuvenate fuel p limit steps histogram c = .ok r c') : p.Kept r.particle := by
  rcases rejuvenate_eq_ok h with ⟨_, he⟩ | ⟨_, _, _, _, _, _, _, _, _, he⟩ <;> rw [he] <;>
    exact ⟨rfl, rfl, rfl⟩

theorem rejuvenate_unobserved {fuel : Nat} {limit : Option Nat} {r : Rejuvenated}
    (h : rejuvenate fuel p limit steps none c = .ok r c') : r.histogram = none := by
  unfold rejuvenate at h
  split at h
  · obtain ⟨rfl, rfl⟩ := pure_eq_ok.mp h
    rfl
  · simp only [bind_eq_ok, InContext.ofExcept_eq_ok, pure_eq_ok] at h
    obtain ⟨id, c₁, _, ⟨_, moved⟩, c₂, ht, trace, _, ⟨_, rfl⟩, rfl, rfl⟩ := h
    obtain ⟨s, hr, he⟩ := Mover.take_settled (Run.inContext_eq_ok.mp ht)
    exact (congrArg Mover.histogram he).trans (hr.unobserved rfl)

/-- A particle that describes an execution describes one after it has been moved, whatever its
floor: the frozen choices are replayed up to the base of the chain, and what the chain holds
carries on from there. -/
theorem rejuvenate_describes {fuel : Nat} {r : Rejuvenated} (hd : p.Describes root)
    (h : rejuvenate fuel p p.limit steps histogram c = .ok r c') : r.particle.Describes root := by
  have hk := rejuvenate_kept h
  rcases rejuvenate_eq_ok h with ⟨_, he⟩ | ⟨hm, id, s₀, s, trace, hr, hc, hf, ht, he⟩
  · rw [he]
    exact hd
  · obtain ⟨b, hb, sound⟩ := hd.base hm
    rw [← hc, ← hf] at sound
    obtain ⟨q, hq, ha⟩ := (hr.holds sound : Mover.Sound ..).complete
    refine .of_kept hk ?_
    rw [he]
    refine ⟨q, ?_, ha⟩
    change Replay anyScore _ trace.entries q
    rw [ht]
    exact hb.trans hq

end Posterior
