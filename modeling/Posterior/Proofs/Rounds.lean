import Posterior.Population.Basic
import Posterior.Proofs.Outcomes

/-!
Rounds of a population. In a round every running particle passes one factor, in the order of the
indices; the last of those still running closes the round.
-/

namespace Posterior

namespace Population

/-- In a sorted list the first hit comes before all others. -/
theorem find?_first {α : Type} {R : α → α → Prop} (hR : ∀ a b, R a b → ¬ R b a) {f : α → Bool}
    {l : List α} {a : α} (hl : l.Pairwise R) (h : l.find? f = some a) :
    f a = true ∧ a ∈ l ∧ ∀ b ∈ l, R b a → f b = false := by
  obtain ⟨ha, before, after, rfl, hb⟩ := List.find?_eq_some_iff_append.mp h
  refine ⟨ha, by simp, ?_⟩
  intro b hm hr
  obtain ⟨_, hrest, _⟩ := List.pairwise_append.mp hl
  rcases List.mem_append.mp hm with hm | hm
  · simpa using hb b hm
  · rcases List.mem_cons.mp hm with rfl | hm
    · exact absurd hr (hR _ _ hr)
    · exact absurd hr (hR _ _ ((List.pairwise_cons.mp hrest).1 b hm))

theorem get_eq_getElem {α : Type} {n : Nat} (v : Vector α n) (i : Fin n) : v.get i = v[i.val] := rfl

variable {n : Nat} {p : Population n} {i j : Fin n} {b : Nat}

@[simp] theorem get_setParticle (p : Population n) (i j : Fin n) (x : Particle) :
    (p.setParticle i x).particles.get j = if i = j then x else p.particles.get j := by
  simp [setParticle, get_eq_getElem, Vector.getElem_set, Fin.ext_iff]

@[simp] theorem active_setParticle (p : Population n) (i : Fin n) (x : Particle) :
    (p.setParticle i x).active = p.active := rfl

@[simp] theorem active_activate (p : Population n) (i : Fin n) : (p.activate i).active = i := rfl

@[simp] theorem get_activate (p : Population n) (i j : Fin n) :
    (p.activate i).particles.get j = p.particles.get j := rfl

@[simp] theorem isRunning_activate (p : Population n) (i j : Fin n) :
    (p.activate i).isRunning j = p.isRunning j := rfl

theorem isRunning_setParticle (p : Population n) (i j : Fin n) (x : Particle) :
    (p.setParticle i x).isRunning j = if i = j then x.running else p.isRunning j := by
  unfold isRunning
  rw [get_setParticle]
  split <;> rfl

theorem get_setWeights (p : Population n) (w : Float) (i : Fin n) :
    (p.setWeights w).particles.get i = { p.particles.get i with weight := w } := by
  simp [setWeights, get_eq_getElem]

theorem get_descend (p : Population n) (r : Resampled n) (i : Fin n) :
    (p.descend r).particles.get i =
      { p.particles.get (r.ancestors.get i) with weight := r.logMeanWeight } := by
  unfold descend
  rw [get_setWeights]
  simp [get_eq_getElem]

/-- A population passes a barrier in one of two ways: resampled, or degenerate, with every particle
impossible. -/
theorem resample_cases {q : Population n} {strict : Bool} {algorithm : String} {index : Nat}
    {noted : Barrier} {g g' : Rng}
    (h : p.resample strict algorithm index g = .ok (q, noted) g') :
    (∃ r, Resampling.residual p.weights g = .ok (some r) g' ∧ noted.degenerate = false ∧
        noted.logMeanWeight = r.logMeanWeight ∧ q = p.descend r) ∨
      (noted.degenerate = true ∧ noted.logMeanWeight = Numeric.negInf ∧
        q = p.setWeights Numeric.negInf) := by
  unfold resample at h
  rw [bind_eq_ok] at h
  obtain ⟨r, g₁, hr, h⟩ := h
  cases r with
  | some r =>
    obtain ⟨he, rfl⟩ := pure_eq_ok.mp h
    cases he
    exact .inl ⟨r, hr, rfl, rfl, rfl⟩
  | none =>
    cases strict with
    | true => cases h
    | false =>
      obtain ⟨he, rfl⟩ := pure_eq_ok.mp h
      cases he
      exact .inr ⟨rfl, rfl, rfl⟩

theorem resample_index {q : Population n} {strict : Bool} {algorithm : String} {index : Nat}
    {noted : Barrier} {g g' : Rng}
    (h : p.resample strict algorithm index g = .ok (q, noted) g') : noted.index = index := by
  unfold resample at h
  rw [bind_eq_ok] at h
  obtain ⟨r, g₁, _, h⟩ := h
  cases r with
  | some r =>
    cases h
    rfl
  | none =>
    cases strict with
    | true => cases h
    | false =>
      cases h
      rfl

/-- Every particle of a resampled population is one of the old population in all but its weight. -/
theorem resample_eq_ok {q : Population n} {strict : Bool} {algorithm : String} {index : Nat}
    {noted : Barrier} {g g' : Rng}
    (h : p.resample strict algorithm index g = .ok (q, noted) g') :
    q.active = p.active ∧
      ∀ i, ∃ j, q.particles.get i = { p.particles.get j with weight := noted.logMeanWeight } := by
  rcases resample_cases h with ⟨r, _, _, hw, rfl⟩ | ⟨_, hw, rfl⟩
  · exact ⟨rfl, fun i => ⟨r.ancestors.get i, by rw [get_descend, hw]⟩⟩
  · exact ⟨rfl, fun i => ⟨i, by rw [get_setWeights, hw]⟩⟩

theorem atBarrier_iff : p.atBarrier = true ↔
    p.isRunning p.active = true ∧ ∀ j, p.active < j → p.isRunning j = false := by
  have hsorted : (List.finRange n).reverse.Pairwise (fun a b : Fin n => b < a) :=
    List.pairwise_reverse.mpr (List.pairwise_lt_finRange n)
  have hR : ∀ a b : Fin n, b < a → ¬ a < b := fun a b h h' => by omega
  unfold atBarrier lastRunning?
  rw [beq_iff_eq]
  constructor
  · intro h
    obtain ⟨ha, _, hf⟩ := find?_first hR hsorted h
    exact ⟨ha, fun j hj => hf j (by simp) hj⟩
  · rintro ⟨ha, hf⟩
    cases h : (List.finRange n).reverse.find? p.isRunning with
    | none =>
      have := List.find?_eq_none.mp h p.active (by simp)
      exact absurd ha this
    | some j =>
      obtain ⟨hj, _, hlater⟩ := find?_first hR hsorted h
      rcases Nat.lt_trichotomy j.val p.active.val with hlt | heq | hgt
      · rw [hlater p.active (by simp) hlt] at ha
        cases ha
      · rw [Fin.ext heq]
      · rw [hf j hgt] at hj
        cases hj

/-- If the active particle does not close the round, another one after it is still running. -/
theorem running_after (ha : p.isRunning p.active = true) (h : p.atBarrier = false) :
    ∃ j, p.active < j ∧ p.isRunning j = true := by
  refine Classical.byContradiction fun hn => ?_
  have hb : p.atBarrier = true := by
    refine atBarrier_iff.mpr ⟨ha, fun j hj => ?_⟩
    cases hr : p.isRunning j with
    | false => rfl
    | true => exact absurd ⟨j, hj, hr⟩ hn
  rw [h] at hb
  cases hb

/-- Whether the round is over: no particle after the active one is running, or some particle is. -/
def Closing (p : Population n) (closes : Bool) : Prop :=
  if closes then ∀ j, p.active < j → p.isRunning j = false
  else ∃ j, p.active < j ∧ p.isRunning j = true

theorem closing_atBarrier (ha : p.isRunning p.active = true) : p.Closing p.atBarrier := by
  cases hb : p.atBarrier with
  | true => exact (atBarrier_iff.mp hb).2
  | false => exact running_after ha hb

/-- What becomes of the active particle does not matter to those after it. -/
theorem Closing.update {closes : Bool} (h : p.Closing closes) (f : Particle → Particle) :
    (p.updateCurrent f).Closing closes := by
  have hrun : ∀ j, p.active < j → (p.updateCurrent f).isRunning j = p.isRunning j := by
    intro j hj
    unfold updateCurrent
    rw [isRunning_setParticle, if_neg (by omega)]
  cases closes with
  | true => exact fun j hj => (hrun j hj).trans (h j hj)
  | false =>
    obtain ⟨j, hj, hr⟩ := h
    exact ⟨j, hj, (hrun j hj).trans hr⟩

theorem nextRunning?_eq_none (h : p.nextRunning? = none) (i : Fin n) : p.isRunning i = false := by
  have hm : i ∈ p.turns := by
    simp only [turns, List.mem_append, List.mem_filter, List.mem_finRange, true_and,
      decide_eq_true_eq]
    omega
  simpa using List.find?_eq_none.mp h i hm

/-- The turn passes to the nearest particle after the active one, if one there is running. -/
theorem nextRunning?_after (h : ∃ j, p.active < j ∧ p.isRunning j = true) :
    ∃ j, p.nextRunning? = some j ∧ p.active < j ∧ p.isRunning j = true ∧
      ∀ k, p.active < k → k < j → p.isRunning k = false := by
  obtain ⟨j, hj, hr⟩ := h
  have hR : ∀ a b : Fin n, a < b → ¬ b < a := fun a b h h' => by omega
  have hsorted := (List.pairwise_lt_finRange n).filter (p := (p.active < ·))
  have hmem : ∀ k, k ∈ (List.finRange n).filter (p.active < ·) ↔ p.active < k := by
    intro k
    simp
  unfold nextRunning? turns
  rw [List.find?_append]
  cases hf : ((List.finRange n).filter (p.active < ·)).find? p.isRunning with
  | none => exact absurd hr (List.find?_eq_none.mp hf j ((hmem j).mpr hj))
  | some k =>
    obtain ⟨hk, hm, hfirst⟩ := find?_first hR hsorted hf
    exact ⟨k, rfl, (hmem k).mp hm, hk, fun l hl hlt => hfirst l ((hmem l).mpr hl) hlt⟩

theorem firstRunning?_eq_some (h : p.firstRunning? = some i) :
    p.isRunning i = true ∧ ∀ j, j < i → p.isRunning j = false := by
  have hR : ∀ a b : Fin n, a < b → ¬ b < a := fun a b h h' => by omega
  obtain ⟨hi, _, hf⟩ := find?_first hR (List.pairwise_lt_finRange n) h
  exact ⟨hi, fun j hj => hf j (by simp) hj⟩

theorem firstRunning?_eq_none (h : p.firstRunning? = none) (i : Fin n) : p.isRunning i = false := by
  simpa using List.find?_eq_none.mp h i (by simp)

/-- Round `b` is under way: the running particles before the active one have passed their factor of
the round, the active one and those after it have not. -/
structure UnderWay (p : Population n) (b : Nat) : Prop where
  active : p.isRunning p.active = true
  passed : ∀ i, i < p.active → p.isRunning i = true → (p.particles.get i).factorCount = b + 1
  due : ∀ i, p.active ≤ i → p.isRunning i = true → (p.particles.get i).factorCount = b

/-- The active particle has taken its turn in round `b`. -/
structure Turned (p : Population n) (b : Nat) : Prop where
  passed : ∀ i, i ≤ p.active → p.isRunning i = true → (p.particles.get i).factorCount = b + 1
  due : ∀ i, p.active < i → p.isRunning i = true → (p.particles.get i).factorCount = b

/-- Every running particle has passed its factor of round `b`. -/
def Closed (p : Population n) (b : Nat) : Prop :=
  ∀ i, p.isRunning i = true → (p.particles.get i).factorCount = b + 1

/-- A particle takes its turn by passing a factor or by ceasing to run. -/
theorem UnderWay.turn (h : p.UnderWay b) {f : Particle → Particle}
    (hf : (f p.current).running = true → (f p.current).factorCount = b + 1) :
    (p.updateCurrent f).Turned b := by
  refine ⟨?_, ?_⟩
  · intro i hi hr
    simp only [updateCurrent, isRunning_setParticle, active_setParticle, get_setParticle] at *
    split at hr <;> rename_i hc
    · rw [if_pos hc]
      exact hf hr
    · rw [if_neg hc]
      exact h.passed i (by omega) hr
  · intro i hi hr
    simp only [updateCurrent, isRunning_setParticle, active_setParticle, get_setParticle] at *
    rw [if_neg (by omega)] at hr ⊢
    exact h.due i (by omega) hr

/-- A choice of the active particle is no turn. -/
theorem UnderWay.keep (h : p.UnderWay b) {x : Particle} (hr : x.running = p.current.running)
    (hc : x.factorCount = p.current.factorCount) : (p.setParticle p.active x).UnderWay b := by
  refine ⟨?_, ?_, ?_⟩
  · simp only [active_setParticle, isRunning_setParticle, ↓reduceIte]
    exact hr.trans h.active
  · intro i hi hri
    simp only [active_setParticle, isRunning_setParticle, get_setParticle] at *
    rw [if_neg (by omega)] at hri ⊢
    exact h.passed i hi hri
  · intro i hi hri
    simp only [active_setParticle, isRunning_setParticle, get_setParticle] at *
    split at hri <;> rename_i hia
    · rw [if_pos hia]
      exact hc.trans (h.due p.active (Nat.le_refl _) h.active)
    · rw [if_neg hia]
      exact h.due i hi hri

/-- The turn goes to the next running particle, past those that have exited. -/
theorem Turned.next (h : p.Turned b) (hj : p.active < j) (hr : p.isRunning j = true)
    (hk : ∀ k, p.active < k → k < j → p.isRunning k = false) : (p.activate j).UnderWay b := by
  refine ⟨hr, ?_, ?_⟩
  · intro i hi hri
    by_cases hle : i ≤ p.active
    · exact h.passed i hle hri
    · have hn := hk i (by omega) hi
      rw [isRunning_activate, hn] at hri
      cases hri
  · intro i hi hri
    exact h.due i (by simp only [active_activate] at hi; omega) hri

theorem Turned.closed (h : p.Turned b) (hn : ∀ j, p.active < j → p.isRunning j = false) :
    p.Closed b := by
  intro i hr
  by_cases hle : i ≤ p.active
  · exact h.passed i hle hr
  · rw [hn i (by omega)] at hr
    cases hr

/-- After a closed round the next one starts at the first particle still running. -/
theorem Closed.next (h : p.Closed b) (hi : p.firstRunning? = some i) :
    (p.activate i).UnderWay (b + 1) := by
  obtain ⟨hr, hf⟩ := firstRunning?_eq_some hi
  refine ⟨hr, ?_, fun j _ hj => h j hj⟩
  intro j hj hrj
  have hn := hf j hj
  rw [isRunning_activate, hn] at hrj
  cases hrj

theorem Closed.resample {q : Population n} {strict : Bool} {algorithm : String} {index : Nat}
    {noted : Barrier} {g g' : Rng} (h : p.Closed b)
    (hr : p.resample strict algorithm index g = .ok (q, noted) g') : q.Closed b := by
  intro i hi
  obtain ⟨j, he⟩ := (resample_eq_ok hr).2 i
  unfold isRunning at hi
  rw [he] at hi ⊢
  exact h j hi

theorem get_start (pos : 0 < n) (entry : Continuation) (store : Store) (i : Fin n) :
    (start pos entry store).particles.get i = { resume := entry, store := store } := by
  simp [start, get_eq_getElem]

theorem start_underWay (pos : 0 < n) (entry : Continuation) (store : Store) :
    (start pos entry store).UnderWay 0 := by
  refine ⟨by simp [isRunning, get_start, Particle.running], ?_, ?_⟩
  · intro i hi _
    exact absurd hi (Nat.not_lt_zero _)
  · intro i _ _
    rw [get_start]

end Population

/-- What is on record is what was, or the barrier that has been added. -/
theorem recorded_snoc {barriers : List Barrier} {added noted : Barrier} {b : Nat}
    (h : (barriers ++ [added])[b]? = some noted) :
    barriers[b]? = some noted ∨ b = barriers.length ∧ noted = added := by
  rcases Nat.lt_or_ge b barriers.length with earlier | later
  · rw [List.getElem?_append_left earlier] at h
    exact .inl h
  · rw [List.getElem?_append_right later, List.getElem?_singleton] at h
    split at h
    · exact .inr ⟨by omega, (Option.some.inj h).symm⟩
    · cases h

end Posterior
