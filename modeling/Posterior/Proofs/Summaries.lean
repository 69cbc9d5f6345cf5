import Posterior.Proofs.NotANumber
import Posterior.Proofs.Rereading
import Posterior.Proofs.Shares

/-!
Which summaries of completed runs survive their text. The probabilities and the acceptance ratio of a
run are finite and have texts; of its log weights and effective sample sizes only some have one.
-/

namespace Posterior

open Json Numeric

/-- A part of a count that is no greater than it is a finite share of it. -/
theorem Numeric.rate_finite {k n : Nat} (pos : 0 < n) (h : k ≤ n) (small : n < UInt64.size) :
    (ofCount k / ofCount n).isFinite = true :=
  (amount_ofCount (h.trans_lt small)).div_finite (amount_ofCount small) (rounded_pos (units_pos pos))
    (rounded_mono (Nat.mul_le_mul_right _ h))

/-- The shares that a distribution tells, the probabilities and the acceptance ratio, are finite. -/
structure Empirical.Shared (d : Empirical) : Prop where
  probabilities : ∀ row ∈ d.support, row.2.isFinite = true
  ratio : ∀ r ∈ d.acceptanceRatio, r.isFinite = true

/-- A normalised histogram has no acceptance ratio, whatever is set in for its normalizer. -/
theorem Empirical.ratio_of_ofHistogram {h : Histogram} {d : Empirical} (made : ofHistogram h = .ok d)
    (x : Float) : ∀ r ∈ (d.withLogNormalizer x).acceptanceRatio, r.isFinite = true := by
  unfold ofHistogram at made
  split at made
  · cases made
    exact nofun
  · cases made

theorem Empirical.Counts.shares_finite {d : Empirical} {n : Nat} (h : d.Counts n) :
    ∀ row ∈ d.support, row.2.isFinite = true := by
  obtain ⟨values, _, made⟩ := h
  have one : ¬ (1 : Float) < 0 := by decide
  exact made.shares_finite (List.forall_mem_map.mpr fun _ _ => one)

section
variable {fuel : Nat} {program : Program} {address : Address} {store : Store} {c c' : Context}
  {inference : Inference}

theorem MetropolisHastings.run_shared {config : MetropolisConfig}
    (h : run fuel config program address store c = .ok inference c')
    (fits : inference.metrics.proposals ≤ Number.maxWord) : inference.distribution.Shared := by
  have accounts := run_accounts h
  refine ⟨accounts.samples.shares_finite, fun r hr => ?_⟩
  rw [accounts.ratio] at hr
  cases hr
  rw [accounts.proposals] at fits
  exact rate_finite (accounts.accepted_pos.trans accounts.accepted_le) accounts.accepted_le
    (Nat.lt_of_le_pred (by decide) fits)

theorem ParticleFilter.run_shared {config : FilterConfig}
    (h : run fuel config program address store c = .ok inference c') :
    inference.distribution.Shared := by
  refine ⟨(run_counts h).shares_finite, ?_⟩
  unfold run install at h
  split at h
  · simp only [bind_eq_ok, pure_eq_ok, InContext.install_eq_ok] at h
    obtain ⟨_, _, ⟨_, _, ⟨rfl, rfl⟩, rfl, rfl⟩, ⟨result, e⟩, _, worked, rfl, rfl⟩ := h
    obtain ⟨_, _, _, _, made, rfl⟩ := drive_leads (Run.inContext_eq_ok.mp worked)
    exact Empirical.ratio_of_ofHistogram made _
  · cases h

theorem RejuvenatingFilter.run_shared {config : RejuvenationConfig}
    (h : run fuel config program address store c = .ok inference c') :
    inference.distribution.Shared := by
  refine ⟨(run_counts h).shares_finite, ?_⟩
  unfold run install at h
  split at h
  · simp only [bind_eq_ok, pure_eq_ok, InContext.install_eq_ok] at h
    obtain ⟨_, _, ⟨_, _, ⟨rfl, rfl⟩, rfl, rfl⟩, ⟨result, e⟩, _, worked, rfl, rfl⟩ := h
    obtain ⟨_, _, _, _, _, made, rfl⟩ := drive_leads (Run.inContext_eq_ok.mp worked)
    exact Empirical.ratio_of_ofHistogram made _
  · cases h

theorem AsyncSmc.run_shared {config : AsyncConfig}
    (h : run fuel config program address store c = .ok inference c') :
    inference.distribution.Shared := by
  obtain ⟨e, _, _, accounts⟩ := run_accounts h
  have signs : ∀ row ∈ e.rows, ¬ row.2 < 0 := by
    intro row hrow
    obtain ⟨p, _, same⟩ := List.mem_filterMap.mp hrow
    obtain ⟨value, _, rfl⟩ := Option.map_eq_some_iff.mp same
    exact exp_sign _
  refine ⟨accounts.made.shares_finite signs, ?_⟩
  unfold run at h
  simp only [bind_eq_ok, pure_eq_ok] at h
  obtain ⟨_, _, _, ⟨result, e⟩, _, worked, rfl, rfl⟩ := h
  obtain ⟨_, _, _, _, _, distribution⟩ := drive_leads (Run.inContext_eq_ok.mp worked)
  obtain ⟨d, made, same⟩ := except_bind_eq_ok.mp distribution
  cases same
  exact Empirical.ratio_of_ofHistogram made _

theorem Algorithm.runWith_shared {a : Algorithm}
    (h : a.runWith fuel program address store c = .ok inference c')
    (fits : inference.metrics.proposals ≤ Number.maxWord) : inference.distribution.Shared := by
  obtain ⟨_, _, _, ran⟩ := bind_eq_ok.mp h
  cases a with
  | metropolis config => exact MetropolisHastings.run_shared ran fits
  | filter config => exact ParticleFilter.run_shared ran
  | rejuvenation config => exact RejuvenatingFilter.run_shared ran
  | async config => exact AsyncSmc.run_shared ran

theorem Config.run_shared {config : Config} {s : Summary}
    (h : config.run fuel program address store = .ok s)
    (fits : ∀ k ∈ s.counts, k ≤ Number.maxWord) : s.distribution.Shared := by
  obtain ⟨_, _, ran⟩ := except_bind_eq_ok.mp h
  unfold Algorithm.runSeeded at ran
  split at ran
  · rename_i worked
    cases ran
    exact Algorithm.runWith_shared worked (fits _ (by simp [Summary.counts, Metrics.counts]))
  · cases ran

end

/-- A log weight that is read as it was written. -/
def Rereads (w : Float) : Prop := w.isFinite = true ∨ w = negInf

instance (w : Float) : Decidable (Rereads w) := inferInstanceAs (Decidable (_ ∨ _))

theorem rereadWeight_eq_iff {w : Float} : rereadWeight w = w ↔ Rereads w := by
  unfold rereadWeight Rereads
  split
  · simp_all
  · rename_i h
    simp [h, eq_comm]

theorem Barrier.reread_eq_iff {b : Barrier} : b.reread = b ↔ Rereads b.logMeanWeight := by
  rw [← rereadWeight_eq_iff]
  exact ⟨congrArg Barrier.logMeanWeight, fun h => by rw [reread, h]⟩

theorem Metrics.reread_eq_iff {m : Metrics} :
    m.reread = m ↔ ∀ b ∈ m.barriers, Rereads b.logMeanWeight := by
  have barriers : m.barriers.map Barrier.reread = m.barriers ↔ ∀ b ∈ m.barriers, b.reread = b := by
    conv_lhs => rhs; rw [← List.map_id m.barriers]
    exact List.map_inj_left
  simp only [Barrier.reread_eq_iff] at barriers
  rw [← barriers]
  exact ⟨congrArg Metrics.barriers, fun h => by rw [reread, h]⟩

theorem Empirical.reread_eq_iff {d : Empirical} (h : d.Shared) :
    d.reread = d ↔ Rereads d.logNormalizer := by
  have ratio : d.acceptanceRatio.filter Float.isFinite = d.acceptanceRatio := by
    cases told : d.acceptanceRatio with
    | none => rfl
    | some r => exact if_pos (h.ratio r told)
  rw [← rereadWeight_eq_iff]
  exact ⟨congrArg Empirical.logNormalizer, fun same => by rw [reread, ratio, same]⟩

/-- What becomes of the summary of a completed run that is written and read again, provided that the
values returned hold finite reals only, that the counts fit in a word and that the text of every
finite double in the summary stands for that double. If an effective sample size is not finite or a
value takes more levels than the reader has left for it, nothing is read. Otherwise a summary is
read, and it is the one that was written if, and only if, the normalizer and the log-mean weights of
the barriers are finite or negative infinity: positive infinity and NaN are read as negative
infinity. -/
theorem summaries_reread (config : Config) (fuel : Nat) (program : Program) (address : Address)
    (store : Store) (s : Summary) (ran : config.run fuel program address store = .ok s)
    (values : ∀ row ∈ s.distribution.support, row.1.Finite)
    (fits : ∀ k ∈ s.counts, k ≤ Number.maxWord) (legible : s.document.Legible) :
    read? Summary.ofJson? s.indentedText =
        (if (∀ row ∈ s.distribution.support, row.1.levels ≤ Summary.valueLevels) ∧
            ∀ b ∈ s.metrics.barriers, b.effectiveSampleSize.isFinite = true
          then some s.reread else none) ∧
      (s.reread = s ↔ Rereads s.distribution.logNormalizer ∧
        ∀ b ∈ s.metrics.barriers, Rereads b.logMeanWeight) := by
  have shared := Config.run_shared ran fits
  refine ⟨?_, ?_⟩
  · have whole : s.Whole ↔ (∀ row ∈ s.distribution.support, row.1.levels ≤ Summary.valueLevels) ∧
        ∀ b ∈ s.metrics.barriers, b.effectiveSampleSize.isFinite = true := by
      refine and_congr_left' ⟨fun h row hrow => (h row hrow).2.1, fun h row hrow => ?_⟩
      exact ⟨values row hrow, h row hrow, shared.probabilities row hrow⟩
    rw [Summary.read?_indentedText legible fits]
    simp only [whole]
  · rw [← Empirical.reread_eq_iff shared, ← Metrics.reread_eq_iff]
    refine ⟨fun h => ⟨congrArg Summary.distribution h, congrArg Summary.metrics h⟩, fun h => ?_⟩
    rw [Summary.reread, h.1, h.2]

theorem exists_of_any {α : Type} {r : Except Stop α} {p : α → Bool} (h : r.toOption.any p = true) :
    ∃ a, r = .ok a ∧ p a = true := by
  cases r with
  | ok a => exact ⟨a, rfl, h⟩
  | error stop => cases h

/-- Flips a coin and weighs tails beyond all bounds. -/
def tailsUnbounded : Program := fun store address =>
  sample store address coin [] fun store value =>
    if value == .bool true then exit store value
    else factor store address posInf fun store => exit store value

/-- An asynchronous run that estimates the normalizer from the last factor. -/
def lastFactorRun (masterSeed : UInt64) : Config :=
  ⟨.async { particles := 1, bufferSize := 2, normalization := .lastFactorMean }, { masterSeed }, 1⟩

/-- The summary of a filter with a heavy particle cannot be read, because its effective sample size is
NaN. That of an asynchronous run which leaves a particle of infinite weight in the buffer is read as
another one. That of a filter over a coin is read as it was written. -/
theorem heavy_unread :
    (∃ s, (⟨.filter { particles := 1 }, {}, 1⟩ : Config).run 9 heavy .root default = .ok s ∧
      read? Summary.ofJson? s.indentedText = none) ∧
    (∃ s s', (lastFactorRun 6).run 9 tailsUnbounded .root default = .ok s ∧
      read? Summary.ofJson? s.indentedText = some s' ∧ s' ≠ s) ∧
    ∃ s, (⟨.filter { particles := 1 }, {}, 1⟩ : Config).run 9 coinFlip .root default = .ok s ∧
      read? Summary.ofJson? s.indentedText = some s := by
  -- A property is checked on the summary of a run together with what has to hold of it.
  have checked (config : Config) (program : Program) (P : Summary → Prop) [DecidablePred P]
      (h : (config.run 9 program .root default).toOption.any (fun s => decide
        ((∀ row ∈ s.distribution.support, row.1.Finite) ∧ (∀ k ∈ s.counts, k ≤ Number.maxWord) ∧
          s.document.Legible ∧ P s)) = true) :
      ∃ s, config.run 9 program .root default = .ok s ∧ P s ∧ _ ∧ _ :=
    have ⟨s, ran, holds⟩ := exists_of_any h
    have ⟨values, fits, legible, property⟩ := of_decide_eq_true holds
    ⟨s, ran, property, summaries_reread config 9 program .root default s ran values fits legible⟩
  refine ⟨?_, ?_, ?_⟩
  · obtain ⟨s, ran, unsized, read, _⟩ := checked ⟨.filter { particles := 1 }, {}, 1⟩ heavy
      (fun s => ¬ ∀ b ∈ s.metrics.barriers, b.effectiveSampleSize.isFinite = true) (by decide +kernel)
    exact ⟨s, ran, read.trans (if_neg fun whole => unsized whole.2)⟩
  · obtain ⟨s, ran, ⟨whole, unbounded⟩, read, same⟩ := checked (lastFactorRun 6) tailsUnbounded
      (fun s => ((∀ row ∈ s.distribution.support, row.1.levels ≤ Summary.valueLevels) ∧
        ∀ b ∈ s.metrics.barriers, b.effectiveSampleSize.isFinite = true) ∧
        ¬ Rereads s.distribution.logNormalizer) (by decide +kernel)
    exact ⟨s, s.reread, ran, read.trans (if_pos whole), fun h => unbounded (same.mp h).1⟩
  · obtain ⟨s, ran, ⟨whole, told⟩, read, same⟩ := checked ⟨.filter { particles := 1 }, {}, 1⟩ coinFlip
      (fun s => ((∀ row ∈ s.distribution.support, row.1.levels ≤ Summary.valueLevels) ∧
        ∀ b ∈ s.metrics.barriers, b.effectiveSampleSize.isFinite = true) ∧
        Rereads s.distribution.logNormalizer ∧ ∀ b ∈ s.metrics.barriers, Rereads b.logMeanWeight)
      (by decide +kernel)
    exact ⟨s, ran, (read.trans (if_pos whole)).trans (congrArg some (same.mpr told))⟩

end Posterior
