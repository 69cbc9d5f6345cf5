import Posterior.Proofs.FiniteSums
import Posterior.Proofs.WellFormed

/-!
The weights of an asynchronous run while it is under way. As long as no arrival has brought a weight or
a multiplicity of positive infinity, the particles that go on have finite weights, the means at the
factors are finite, and the weights that have exited are numbers.
-/

namespace Posterior

open Numeric

namespace AsyncSmc

/-- The mean of finite weights is finite. -/
theorem updatedMean_finite {stats : FactorStats} {weight multiplicity : Float}
    (mean : stats.meanWeight.isFinite = true) (finite : weight.isFinite = true)
    (one : 1 ≤ multiplicity) (bounded : multiplicity.isFinite = true) :
    (updatedMean stats weight multiplicity).isFinite = true := by
  let denominator := ln (ofCount stats.arrivals + multiplicity)
  obtain ⟨sum, whole⟩ := ofCount_add one bounded stats.arrivals
  have small : Below 10 denominator := ln_below (pos_of_one_le whole) sum
  have shared {x w : Float} (hx : Below 10 x) (hw : w.isFinite = true) :
      (x - denominator + w).isFinite = true :=
    (finite_of_slight hw ((hx.sub small (by decide) (by decide)).slight (by decide) (by decide))).1
  have new := shared (ln_below (pos_of_one_le one) bounded) finite
  have old : (ln (ofCount stats.arrivals) - denominator + stats.meanWeight == negInf) = true ∨
      (ln (ofCount stats.arrivals) - denominator + stats.meanWeight).isFinite = true := by
    rcases ln_ofCount stats.arrivals with none | some
    · rw [none]
      exact .inl (negInf_sub_add small.isFinite mean)
    · exact .inr (shared some mean)
  refine BelowInfinity.logSumExp (List.forall_mem_cons.mpr ⟨old, ?_⟩)
    ⟨_, List.mem_cons_of_mem _ (List.mem_singleton_self _), new⟩
  exact List.forall_mem_singleton.mpr (.inr new)

/-- What a particle of finite weight gets at a factor: a mean that is finite, and a weight that is if it
gets any children. -/
theorem offspring_finite {e : AsyncSmc} {stats : FactorStats} {weight multiplicity : Float}
    {o : Offspring} {g g' : Rng} (drawn : e.offspring stats weight multiplicity g = .ok o g')
    (mean : (updatedMean stats weight multiplicity).isFinite = true)
    (finite : weight.isFinite = true) :
    o.mean.isFinite = true ∧ (o.children ≠ 0 → o.weight.isFinite = true) := by
  unfold offspring at drawn
  split at drawn
  · simp only [bind_eq_ok] at drawn
    obtain ⟨x, _, _, drawn⟩ := drawn
    split at drawn <;> obtain ⟨rfl, rfl⟩ := pure_eq_ok.mp drawn
    · exact ⟨mean, fun _ => mean⟩
    · exact ⟨mean, fun some => absurd rfl some⟩
  · obtain ⟨rfl, rfl⟩ := pure_eq_ok.mp drawn
    refine ⟨mean, fun some => ?_⟩
    obtain ⟨one, counted, _⟩ := childrenOf_counts some
    have slight := (ln_slight one).resolve_left fun infinite => ne_true_of_eq_false infinite.1 counted
    exact (finite_of_slight finite slight).2

end AsyncSmc

/-- A particle between two factors whose weights are numbers: it goes on with a finite one. -/
structure AsyncParticle.InRange (p : AsyncParticle) : Prop where
  finite : p.weight.isFinite = true
  multiplicity : 1 ≤ p.multiplicity
  final : p.finalWeight.isNaN = false

namespace AsyncSmc

theorem fresh_inRange (entry : Continuation) (store : Store) :
    AsyncParticle.InRange { resume := entry, store } := by
  have zero : (0 : Float).isFinite = true ∧ (1 : Float) ≤ 1 := by decide
  exact ⟨zero.1, zero.2, number_of_finite zero.1⟩

/-- All weights in flight are numbers, and so are the means on record. -/
structure InRange (e : AsyncSmc) : Prop where
  waiting : ∀ p ∈ e.buffer, p.InRange
  active : ∀ p, e.active = some p → p.InRange
  exited : ∀ p ∈ e.exited, p.weight.isNaN = false
  means : ∀ row ∈ e.stats.rows, row.2.meanWeight.isFinite = true

/-- Neither the weight nor the multiplicity that an arrival brings has come to positive infinity. -/
structure Arrival.Bounded (a : Arrival) : Prop where
  weight : (a.weight == posInf) = false
  multiplicity : (a.multiplicity == posInf) = false

instance (a : Arrival) : Decidable a.Bounded :=
  decidable_of_iff ((a.weight == posInf) = false ∧ (a.multiplicity == posInf) = false)
    ⟨fun h => ⟨h.1, h.2⟩, fun h => ⟨h.1, h.2⟩⟩

section
variable {e e' : AsyncSmc} {p q : AsyncParticle} {index : Nat} {stats : FactorStats} {g g' : Rng}

theorem InRange.picks (h : e.InRange) (picks : Picks e p e') : p.InRange ∧ e'.InRange := by
  obtain ⟨picked, waiting⟩ := picks.forall h.waiting (fresh_inRange e.entry e.store)
    fun q several inRange => ⟨{ inRange with }, { inRange with }⟩
  refine ⟨picked, ?_⟩
  cases picks <;> exact { h with waiting }

theorem InRange.launched {s t : Session AsyncSmc} {next : Resume} (h : s.engine.InRange)
    (launched : launch s = .ok next t) : t.engine.InRange := by
  obtain ⟨p, e, g, picks, _, rfl⟩ := launch_eq_ok launched
  obtain ⟨particle, engine⟩ := h.picks picks
  unfold countLaunch
  split <;> exact { engine with active := fun q hq => Option.some.inj hq ▸ particle }

theorem settleWeight_inRange (finite : p.weight.isFinite = true) (one : 1 ≤ p.multiplicity) :
    p.settleWeight.InRange := by
  refine ⟨finite, one, ?_⟩
  have number : (ln p.multiplicity).isNaN = false :=
    ln_number (above_of_le (.inr rfl) one)
  change (ln p.multiplicity + p.weight).isNaN = false
  rw [sum_comm]
  exact finite_add finite number

theorem InRange.mean (h : e.InRange) (seen : e.stats.get? index = some stats) :
    stats.meanWeight.isFinite = true := by
  have found : ∃ k, (k, stats) ∈ e.stats.rows := Rows.mem_of_lookup seen
  obtain ⟨k, row⟩ := found
  exact h.means (k, stats) row

theorem InRange.note (h : e.InRange) (mean : stats.meanWeight.isFinite = true) :
    (e.note index stats).InRange := by
  refine { h with means := fun row hr => ?_ }
  rcases Rows.mem_insert hr with rfl | hr
  · exact mean
  · exact h.means row hr

/-- A particle of finite weight that is kept at its factor stays in range. -/
theorem InRange.keeps (h : e.InRange) (finite : p.weight.isFinite = true)
    (one : 1 ≤ p.multiplicity) (bounded : p.multiplicity.isFinite = true)
    (keeps : e.Keeps p index g q stats g') :
    q.settleWeight.InRange ∧ stats.meanWeight.isFinite = true := by
  cases keeps with
  | first unseen => exact ⟨settleWeight_inRange finite one, finite⟩
  | @later stats o g' seen drawn some =>
    have mean := updatedMean_finite (h.mean seen) finite one bounded
    obtain ⟨mean, weight⟩ := offspring_finite drawn mean finite
    refine ⟨?_, mean⟩
    unfold withOffspring
    split
    · obtain ⟨_, small, _⟩ := offspring_possible drawn (negInf_ne_of_finite finite) some
      have several : 1 ≤ ofCount o.children := one_le_ofCount (Nat.pos_of_ne_zero some) small
      exact settleWeight_inRange (weight some) (one_le_mul one several)
    · exact settleWeight_inRange (weight some) one

/-- An arrival in range leaves the engine in range, whatever becomes of it. -/
theorem InRange.arrives {fate : Fate} {moment : Moment} (h : e.InRange)
    (number : p.weight.isNaN = false) (below : (p.weight == posInf) = false)
    (one : 1 ≤ p.multiplicity) (few : (p.multiplicity == posInf) = false)
    (arrives : Arrives e p index g fate moment e' g') : e'.InRange := by
  have finite (possible : (p.weight == negInf) = false) : p.weight.isFinite = true :=
    finite_of_number number below possible
  have stands := finite_of_one_le one few
  cases arrives with
  | impossible lost => exact { h with }
  | @dropped stats o _ possible seen drawn none =>
    have mean := updatedMean_finite (h.mean seen) (finite possible) one stands
    have noted : (e.note index (stats.after o)).InRange :=
      h.note (offspring_finite drawn mean (finite possible)).1
    exact { noted with }
  | @parked q stats _ possible keeps space =>
    obtain ⟨particle, mean⟩ := h.keeps (finite possible) one stands keeps
    refine { h.note mean with waiting := fun r hr => ?_ }
    rcases List.mem_append.mp hr with hr | hr
    · exact h.waiting r hr
    · obtain rfl := List.mem_singleton.mp hr
      exact particle
  | @ranOn q stats _ possible keeps full =>
    obtain ⟨particle, mean⟩ := h.keeps (finite possible) one stands keeps
    exact { h.note mean with active := fun r hr => Option.some.inj hr ▸ particle }

end

/-- As long as no arrival has brought positive infinity, all weights in flight are numbers. -/
theorem Sees.inRange {s₀ s : Session AsyncSmc} {seen : List Arrival} {moment : Moment}
    (h₀ : s₀.engine.InRange) (h : Sees s₀ seen moment s) (bounded : ∀ a ∈ seen, a.Bounded) :
    s.engine.InRange := by
  induction h with
  | start => exact h₀
  | launch before left launched ih => exact (ih bounded).launched launched
  | sample before effect drawn ih => exact ih bounded
  | @factor seen next s point resume p fate moment e g before effect number active arrives ih =>
    obtain ⟨earlier, last⟩ := List.forall_mem_append.mp bounded
    have engine := ih earlier
    have particle := engine.active p active
    have idle : { s.engine with active := none }.InRange := { engine with active := nofun }
    have last := List.forall_mem_singleton.mp last
    have weight : (p.arrive point resume).weight.isNaN = false := finite_add particle.finite number
    exact idle.arrives weight last.weight particle.multiplicity last.multiplicity arrives
  | @exit seen next s store value p before effect active ih =>
    have engine := ih bounded
    refine { engine with active := nofun, exited := fun q hq => ?_ }
    rcases List.mem_append.mp hq with hq | hq
    · exact engine.exited q hq
    · obtain rfl := List.mem_singleton.mp hq
      exact (engine.active p active).final
  | again before spent more ih => exact { ih bounded with }

theorem initial_inRange (config : AsyncConfig) (entry : Continuation) (store : Store)
    (id : HandlerId) : (initial config entry store id).InRange where
  waiting p hp := by
    obtain ⟨_, rfl⟩ := List.mem_replicate.mp hp
    exact fresh_inRange entry store
  active := nofun
  exited := nofun
  means := nofun

/-- The mean at the last factor is a number if all that is in flight is in range. -/
theorem InRange.logNormalizer {e : AsyncSmc} (h : e.InRange)
    (mean : e.normalization = .lastFactorMean) : e.logNormalizer.isNaN = false := by
  unfold AsyncSmc.logNormalizer
  rw [mean]
  cases last : e.stats.last? with
  | none =>
    change (0 : Float).isNaN = false
    decide
  | some row => exact number_of_finite (h.means row (List.mem_of_getLast? last))

end AsyncSmc

end Posterior
