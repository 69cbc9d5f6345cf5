import Posterior.Proofs.InternalFailures
import Posterior.Proofs.Magnitudes
import Posterior.Proofs.Restoration
import Posterior.Proofs.Strictness

/-!
The state of the asynchronous engine is well formed at every moment, also once runs have stopped
short and been resumed: the buffer keeps to its size, what waits there is fresh or owes executions
within the budget and is possible, and the factors with statistics are the first ones.
-/

namespace Posterior

open Numeric

namespace Numeric

/-- A greater count is read back as one that is not smaller. -/
theorem toCount_ofCount_mono {m n : Nat} (h : m ≤ n) (small : n < UInt64.size) :
    toCount (ofCount m) ≤ toCount (ofCount n) := by
  rw [(amount_ofCount (h.trans_lt small)).toCount, (amount_ofCount small).toCount]
  have units_le : units m 0 ≤ units n 0 := Nat.mul_le_mul_right _ h
  have := Nat.div_le_div_right (c := units 1 0) (rounded_mono units_le)
  omega

theorem one_le_toCount {n : Nat} (h : 1 ≤ n) (small : n < UInt64.size) : 1 ≤ toCount (ofCount n) := by
  rw [← toCount_ofCount (n := 1) (by decide)]
  exact toCount_ofCount_mono h small

end Numeric

namespace AsyncParticle

/-- A particle that has not been started. -/
structure Fresh (p : AsyncParticle) : Prop where
  index : p.factorIndex = none
  children : p.children = 0
  weight : p.weight = 0
  multiplicity : p.multiplicity = 1
  final : p.finalWeight = 0

/-- A particle behind one of the first `k` factors. It owes executions, at most as many as the
budget is as a double, and its weights are possible. -/
structure Passed (target k : Nat) (p : AsyncParticle) : Prop where
  behind : ∃ i < k, p.factorIndex = some i
  owes : 1 ≤ p.children
  within : target < UInt64.size → p.children ≤ toCount (ofCount target)
  multiplicity : 1 ≤ p.multiplicity
  possible : (p.weight == negInf) = false
  final : (p.finalWeight == negInf) = false

def Sound (target k : Nat) (p : AsyncParticle) : Prop := p.Fresh ∨ p.Passed target k

section
variable {p : AsyncParticle} {target target' k k' : Nat}

theorem Passed.mono (h : p.Passed target k) (hk : k ≤ k') (ht : target ≤ target') :
    p.Passed target' k' := by
  obtain ⟨i, hi, index⟩ := h.behind
  refine { h with behind := ⟨i, by omega, index⟩, within := fun small => ?_ }
  exact (h.within (ht.trans_lt small)).trans (toCount_ofCount_mono ht small)

theorem Sound.mono (h : p.Sound target k) (hk : k ≤ k') (ht : target ≤ target') :
    p.Sound target' k' :=
  h.imp id (·.mono hk ht)

theorem Sound.nextIndex_le (h : p.Sound target k) : p.nextIndex ≤ k := by
  unfold nextIndex
  rcases h with fresh | passed
  · rw [fresh.index]
    exact Nat.zero_le k
  · obtain ⟨i, hi, index⟩ := passed.behind
    rw [index]
    exact hi

theorem Sound.one_le_multiplicity (h : p.Sound target k) : 1 ≤ p.multiplicity := by
  rcases h with fresh | passed
  · rw [fresh.multiplicity]
    decide
  · exact passed.multiplicity

theorem Sound.final_possible (h : p.Sound target k) : (p.finalWeight == negInf) = false := by
  rcases h with fresh | passed
  · rw [fresh.final]
    decide
  · exact passed.final

/-- A particle that owes several executions releases one of them and keeps the others. -/
theorem Sound.release (h : p.Sound target k) (several : 1 < p.children) :
    p.child.Sound target k ∧ { p with children := p.children - 1 }.Sound target k := by
  rcases h with fresh | passed
  · rw [fresh.children] at several
    cases several
  · refine ⟨.inr { passed with owes := Nat.le_refl 1, within := fun small => ?_ },
      .inr { passed with owes := ?_, within := fun small => ?_ }⟩
    · exact passed.owes.trans (passed.within small)
    · change 1 ≤ p.children - 1
      omega
    · exact (Nat.sub_le ..).trans (passed.within small)

end

end AsyncParticle

namespace AsyncSmc

/-- The engine with statistics of its first `k` factors. -/
structure Formed (k : Nat) (e : AsyncSmc) : Prop where
  positive : 1 ≤ e.target
  buffer : e.buffer.length ≤ e.bufferSize
  waiting : ∀ p ∈ e.buffer, p.Sound e.target k
  active : ∀ p, e.active = some p → p.Sound e.target k
  exited : ∀ p ∈ e.exited, p.value.isSome = true ∧ (p.weight == negInf) = false
  seen : ∀ i, (e.stats.get? i).isSome = true ↔ i < k
  counted : ∀ i stats, e.stats.get? i = some stats → 1 ≤ stats.arrivals ∧ 1 ≤ stats.totalChildren

section
variable {k : Nat} {e e' : AsyncSmc} {p q : AsyncParticle} {s : Session AsyncSmc}

theorem Formed.idle (h : e.Formed k) : Formed k { e with active := none } :=
  { h with active := nofun }

theorem Picks.length_le (picks : Picks e p e') : e'.buffer.length ≤ e.buffer.length := by
  cases picks with
  | fresh => exact Nat.le_refl _
  | child buffer several => simp [buffer]
  | last buffer few => simp [buffer]

theorem Formed.picks (h : e.Formed k) (picks : Picks e p e') :
    p.Sound e.target k ∧ e'.Formed k := by
  obtain ⟨picked, waiting⟩ := picks.forall h.waiting (.inl ⟨rfl, rfl, rfl, rfl, rfl⟩)
    fun q several sound => sound.release several
  refine ⟨picked, ?_⟩
  have buffer := picks.length_le.trans h.buffer
  cases picks <;> exact { h with buffer, waiting }

theorem Picks.target (picks : Picks e p e') : e'.target = e.target := by
  cases picks <;> rfl

theorem Formed.launch (h : s.engine.Formed k) :
    Formed k (finalState (AsyncSmc.launch s)).engine := by
  obtain ⟨next, t, launched⟩ := launch_ok s
  obtain ⟨p, e, g, picks, _, rfl⟩ := launch_eq_ok launched
  rw [launched]
  obtain ⟨sound, formed⟩ := h.picks picks
  rw [← picks.target] at sound
  change Formed k { countLaunch p e with active := some p }
  unfold countLaunch
  split <;> exact { formed with active := fun q hq => Option.some.inj hq ▸ sound }

theorem childrenOf_counts {stats : FactorStats} {logRatio : Float}
    (some : toCount (e.childrenOf stats logRatio) ≠ 0) :
    1 ≤ e.childrenOf stats logRatio ∧ (e.childrenOf stats logRatio).isFinite = true ∧
      (1 ≤ e.target → e.target < UInt64.size →
        toCount (e.childrenOf stats logRatio) ≤ toCount (ofCount e.target)) := by
  obtain ⟨one, finite, within⟩ := bounded_counts some
  refine ⟨one, finite, fun pos small => ?_⟩
  have same : max e.target 1 = e.target := Nat.max_eq_left pos
  exact (within (by omega) (by omega)).trans (Nat.le_of_eq (by rw [same]))

/-- What a particle gets at a factor where others have been: if it gets any children, they are
within the budget, and their weight is possible. -/
theorem offspring_possible {stats : FactorStats} {weight multiplicity : Float} {o : Offspring}
    {g g' : Rng} (drawn : e.offspring stats weight multiplicity g = .ok o g')
    (possible : (weight == negInf) = false) (some : o.children ≠ 0) :
    (o.weight == negInf) = false ∧ o.children < UInt64.size ∧
      (1 ≤ e.target → e.target < UInt64.size → o.children ≤ toCount (ofCount e.target)) := by
  unfold offspring at drawn
  split at drawn
  · rename_i below
    simp only [bind_eq_ok] at drawn
    obtain ⟨x, _, _, drawn⟩ := drawn
    split at drawn <;> obtain ⟨rfl, rfl⟩ := pure_eq_ok.mp drawn
    · exact ⟨mean_possible below, show 1 < UInt64.size by decide, one_le_toCount⟩
    · exact absurd rfl some
  · obtain ⟨rfl, rfl⟩ := pure_eq_ok.mp drawn
    obtain ⟨one, finite, within⟩ := childrenOf_counts some
    exact ⟨sub_ln_possible one finite possible, toCount_lt _, within⟩

/-- The statistics of a factor that has been reached by one more particle. -/
theorem Formed.noted {index : Nat} {stats : FactorStats} {k' : Nat} (h : e.Formed k)
    (grown : k' = max k (index + 1)) (next : index ≤ k) (arrivals : 1 ≤ stats.arrivals)
    (children : 1 ≤ stats.totalChildren) : (e.note index stats).Formed k' := by
  have more : k ≤ k' := by omega
  refine { h with
    waiting := fun p hp => (h.waiting p hp).mono more (Nat.le_refl _)
    active := fun p hp => (h.active p hp).mono more (Nat.le_refl _)
    seen := fun i => ?_
    counted := fun i stats' found => ?_ }
  · change ((e.stats.insert index stats).get? i).isSome = true ↔ i < k'
    rw [Table.get?_insert]
    split
    · rw [Option.isSome_some]
      exact iff_of_true rfl (by omega)
    · rw [h.seen i]
      omega
  · change (e.stats.insert index stats).get? i = some stats' at found
    rw [Table.get?_insert] at found
    split at found
    · obtain rfl := Option.some.inj found
      exact ⟨arrivals, children⟩
    · exact h.counted i stats' found

/-- A particle that is kept at its factor has passed it, and the statistics there are in order. -/
theorem Formed.keeps {point : Factor} {resume : Continuation} {stats : FactorStats} {g g' : Rng}
    (h : e.Formed k) (sound : p.Sound e.target k)
    (possible : ((p.arrive point resume).weight == negInf) = false)
    (keeps : Keeps e (p.arrive point resume) p.nextIndex g q stats g') :
    ∃ k', q.settleWeight.Passed e.target k' ∧ (e.note p.nextIndex stats).Formed k' := by
  have next := sound.nextIndex_le
  have one := sound.one_le_multiplicity
  let k' := max k (p.nextIndex + 1)
  have behind : ∃ i < k', (p.arrive point resume).factorIndex = some i :=
    ⟨p.nextIndex, by omega, rfl⟩
  refine ⟨k', ?_⟩
  cases keeps with
  | first unseen =>
    refine ⟨⟨behind, Nat.le_refl 1, one_le_toCount h.positive, one, possible,
      ln_add_possible one possible⟩, h.noted rfl next (Nat.le_refl 1) (Nat.le_refl 1)⟩
  | @later stats o g' seen drawn some =>
    obtain ⟨weight, small, within⟩ := offspring_possible drawn possible some
    obtain ⟨arrivals, children⟩ := h.counted _ _ seen
    have positive : 1 ≤ o.children := Nat.pos_of_ne_zero some
    refine ⟨?_, h.noted rfl next (Nat.le_add_left ..)
      (children.trans (Nat.le_add_right stats.totalChildren o.children))⟩
    unfold withOffspring
    split
    · have product : 1 ≤ p.multiplicity * ofCount o.children :=
        one_le_mul one (one_le_ofCount positive small)
      exact ⟨behind, Nat.le_refl 1, one_le_toCount h.positive, product, weight,
        ln_add_possible product weight⟩
    · exact ⟨behind, positive, within h.positive, one, weight, ln_add_possible one weight⟩

/-- Whatever becomes of a particle at its next factor, the engine is well formed. -/
theorem Formed.arrives {point : Factor} {resume : Continuation} {fate : Fate} {moment : Moment}
    {g g' : Rng} (h : e.Formed k) (sound : p.Sound e.target k)
    (arrives : Arrives e (p.arrive point resume) p.nextIndex g fate moment e' g') :
    ∃ k', e'.Formed k' := by
  cases arrives with
  | impossible lost => exact ⟨k, { h with }⟩
  | @dropped stats o _ possible seen drawn none =>
    obtain ⟨arrivals, children⟩ := h.counted _ _ seen
    exact ⟨_, { h.noted rfl sound.nextIndex_le (Nat.le_add_left ..)
      (children.trans (Nat.le_add_right stats.totalChildren o.children)) with }⟩
  | @parked q stats _ possible keeps space =>
    obtain ⟨k', passed, formed⟩ := h.keeps sound possible keeps
    refine ⟨k', { formed with buffer := ?_, waiting := fun r hr => ?_ }⟩
    · have room : e.buffer.length < e.bufferSize := by simpa [full] using space
      change (e.buffer ++ [q.settleWeight]).length ≤ e.bufferSize
      rw [List.length_append, List.length_singleton]
      exact room
    · rcases List.mem_append.mp hr with hr | hr
      · exact formed.waiting r hr
      · obtain rfl := List.mem_singleton.mp hr
        exact .inr passed
  | @ranOn q stats _ possible keeps full =>
    obtain ⟨k', passed, formed⟩ := h.keeps sound possible keeps
    exact ⟨k', { formed with active := fun r hr => Option.some.inj hr ▸ .inr passed }⟩

theorem Formed.exit {store : Store} {value : Value} (h : s.engine.Formed k)
    (sound : p.Sound s.engine.target k) : (exitWith store value p s).engine.Formed k := by
  refine { h.idle with exited := fun q hq => ?_ }
  rcases List.mem_append.mp hq with hq | hq
  · exact h.exited q hq
  · obtain rfl := List.mem_singleton.mp hq
    exact ⟨rfl, sound.final_possible⟩

/-- However an effect is met, the engine stays well formed. -/
theorem Formed.answer (id : HandlerId) (effect : Step) (h : s.engine.Formed k) :
    ∃ k', (finalState ((handler id).answer effect s)).engine.Formed k' := by
  rcases Handler.met id (some "async-smc") effect s.context with
    ⟨cause, refused⟩ | ⟨active, point, resume, rfl, nan⟩ | guarded
  · rw [Handler.answer_of_refused (h := handler id) refused]
    exact ⟨k, h⟩
  · rw [Handler.answer_of_nan (h := handler id) active nan]
    exact ⟨k, h⟩
  · rw [Handler.answer_of_active (h := handler id) guarded.active]
    cases effect with
    | sample choice deliver =>
      have kept : Preserves (·.engine) ((handler id).onSample choice deliver) :=
        .bind (Run.preserves_onContext _) fun _ => .pure _
      refine ⟨k, ?_⟩
      rw [show (finalState ((handler id).method (.sample choice deliver) s)).engine = s.engine from
        kept s]
      exact h
    | factor point resume =>
      rw [Handler.method, if_neg (ne_true_of_eq_false (guarded.number point resume rfl))]
      cases active : s.engine.active with
      | none =>
        have idle : takeActive s = .error (.failed .noActiveParticle) s := by
          unfold takeActive
          rw [Run.engine_bind, active]
          rfl
        rw [show (handler id).onFactor point resume s = _ from bind_error idle]
        exact ⟨k, h⟩
      | some p =>
        let r : Session AsyncSmc := { s with engine := { s.engine with active := none } }
        have taken : takeActive s = .ok p r := by
          unfold takeActive
          rw [Run.engine_bind, active]
          rfl
        obtain ⟨next, t, arrived⟩ := arrival_ok (p.arrive point resume) p.nextIndex r
        have answered : (handler id).onFactor point resume s = .ok (.resume next) t := by
          refine (bind_ok taken).trans ?_
          exact bind_ok arrived
        rw [answered]
        obtain ⟨fate, moment, e, g, arrives, ends⟩ := arrival_eq_ok arrived
        obtain ⟨k', formed⟩ := h.idle.arrives (h.active p active) arrives
        refine ⟨k', ?_⟩
        rcases ends with ⟨_, launched⟩ | ⟨_, rfl⟩
        · have := Formed.launch (s := ⟨e, { r.context with rng := g }⟩) formed
          rwa [launched] at this
        · exact formed
    | exit store value =>
      cases active : s.engine.active with
      | none =>
        rw [exit_of_idle active]
        exact ⟨k, h⟩
      | some p =>
        have exited : (exitWith store value p s).engine.Formed k := h.exit (h.active p active)
        rw [exit_of_active active]
        refine ⟨k, ?_⟩
        split
        · refine finalState_bind (P := fun t : Session AsyncSmc => t.engine.Formed k) ?_
            fun _ _ ht => ht
          exact exited.launch
        · refine finalState_bind (P := fun t : Session AsyncSmc => t.engine.Formed k) ?_
            fun _ _ ht => ht
          rw [show (finalState (conclude _)).engine = _ from preserves_conclude _]
          exact exited

theorem Formed.raised (h : e.Formed k) (extra : Nat) (c : Context) :
    (raised extra ⟨e, c⟩).engine.Formed k := by
  have more : e.target ≤ e.target + extra := Nat.le_add_right ..
  exact { h with
    positive := h.positive.trans more
    waiting := fun p hp => (h.waiting p hp).mono (Nat.le_refl k) more
    active := fun p hp => (h.active p hp).mono (Nat.le_refl k) more }

theorem initial_formed {config : AsyncConfig} (valid : config.validate = .ok ())
    (entry : Continuation) (store : Store) (id : HandlerId) :
    (initial config entry store id).Formed 0 where
  positive := (AsyncConfig.validate_eq_ok_iff.mp valid).1
  buffer := by
    change (List.replicate (initialCount config.bufferSize) _).length ≤ config.bufferSize
    rw [List.length_replicate]
    unfold initialCount
    omega
  waiting p hp := by
    obtain ⟨_, rfl⟩ := List.mem_replicate.mp hp
    exact .inl ⟨rfl, rfl, rfl, rfl, rfl⟩
  active := nofun
  exited := nofun
  seen i := iff_of_false Bool.false_ne_true (Nat.not_lt_zero i)
  counted := nofun

end

/-- The engines at the moments between two effects, in whatever context: as installed, with a budget
that is raised to be resumed, after a launch, and after an effect has been met, however that ended.
An engine whose budget has exited has left its stack, so no effect reaches it. -/
inductive Reachable (config : AsyncConfig) (program : Program) (address : Address) (store : Store) :
    AsyncSmc → Prop where
  | installed {e : AsyncSmc} {c c' : Context}
      (ready : install config program address store c = .ok e c') :
      Reachable config program address store e
  | raised {e : AsyncSmc} (before : Reachable config program address store e) (extra : Nat)
      (c : Context) : Reachable config program address store (raised extra ⟨e, c⟩).engine
  | launched {e : AsyncSmc} (before : Reachable config program address store e) (c : Context) :
      Reachable config program address store (finalState (launch ⟨e, c⟩)).engine
  | met {e : AsyncSmc} (before : Reachable config program address store e)
      (left : e.exited.length < e.target) (id : HandlerId) (effect : Step) (c : Context) :
      Reachable config program address store
        (finalState ((handler id).answer effect ⟨e, c⟩)).engine

section
variable {config : AsyncConfig} {program : Program} {address : Address} {store : Store}
  {e : AsyncSmc}

theorem Reachable.formed (h : Reachable config program address store e) : ∃ k, e.Formed k := by
  induction h with
  | installed ready =>
    obtain ⟨valid, _, rfl⟩ := install_eq_ok.mp ready
    exact ⟨0, initial_formed valid _ _ _⟩
  | raised before extra c ih =>
    obtain ⟨k, formed⟩ := ih
    exact ⟨k, formed.raised extra c⟩
  | launched before c ih =>
    obtain ⟨k, formed⟩ := ih
    exact ⟨k, Formed.launch (s := ⟨_, c⟩) formed⟩
  | met before left id effect c ih =>
    obtain ⟨k, formed⟩ := ih
    exact Formed.answer (s := ⟨_, c⟩) id effect formed

theorem Reachable.onBudget (h : Reachable config program address store e) : e.OnBudget := by
  induction h with
  | installed ready =>
    obtain ⟨_, _, rfl⟩ := install_eq_ok.mp ready
    exact Nat.zero_le _
  | raised before extra c ih => exact ih.trans (Nat.le_add_right ..)
  | @launched e before c ih =>
    exact ih.of_account (congrArg Prod.fst (preserves_launch ⟨e, c⟩))
  | @met e before left id effect c ih =>
    have spends := answer_spends id effect (s := ⟨e, c⟩) left
    generalize (handler id).answer effect ⟨e, c⟩ = outcome at spends
    cases outcome with
    | error stop t => exact spends
    | ok control t =>
      cases control with
      | resume next => exact Nat.le_of_lt spends
      | done result => exact spends

/-- Of the loop, each answer leads from one of these moments to another. -/
theorem Reachable.answer {next : Resume} {id : HandlerId} {s t : Session AsyncSmc}
    {control : Control Empirical} (h : Reachable config program address store s.engine)
    (left : s.engine.exited.length < s.engine.target)
    (answered : (handler id).answer next.invoke s = .ok control t) :
    Reachable config program address store t.engine := by
  have met := h.met left id next.invoke s.context
  rwa [show (handler id).answer next.invoke ⟨s.engine, s.context⟩ = _ from answered] at met

theorem Reachable.drive (h : Reachable config program address store e) (fuel : Nat) (c : Context) :
    Reachable config program address store (finalState (AsyncSmc.drive fuel ⟨e, c⟩)).engine := by
  by_cases left : e.exited.length < e.target
  · obtain ⟨next, t, launched⟩ := launch_ok ⟨e, c⟩
    have first : Reachable config program address store t.engine := by
      have := h.launched c
      rwa [launched] at this
    have still : t.engine.exited.length < t.engine.target :=
      left_of_account left (congrArg Prod.fst (preserves_launch.of_ok launched))
    rw [drive_eq left launched, Run.engine_guarding]
    refine Handler.dispatch_outcome
      (P := fun _ (r : Session AsyncSmc) => Reachable config program address store r.engine ∧
        r.engine.exited.length < r.engine.target)
      (Q := fun outcome => Reachable config program address store (finalState outcome).engine)
      (fun _ _ reached => reached.1) ?_ fuel ⟨first, still⟩
    rintro next r ⟨reached, left⟩
    have met := reached.met left e.id next.invoke r.context
    have spends := answer_spends e.id next.invoke left
    generalize (handler e.id).answer next.invoke r = outcome at met spends
    cases outcome with
    | error stop t => exact met
    | ok control t =>
      cases control with
      | resume next' => exact ⟨met, spends⟩
      | done result => exact met
  · have spent : AsyncSmc.drive fuel ⟨e, c⟩ = conclude ⟨e, c⟩ := by
      unfold AsyncSmc.drive
      rw [Run.engine_bind, if_pos (Nat.not_lt.mp left)]
    rw [spent, show (finalState (conclude ⟨e, c⟩)).engine = e from preserves_conclude _]
    exact h

theorem Reachable.resume (h : Reachable config program address store e) (fuel extra : Nat)
    (c : Context) :
    Reachable config program address store (finalState (AsyncSmc.resume fuel extra ⟨e, c⟩)).engine := by
  rcases Nat.eq_zero_or_pos extra with rfl | more
  · exact h
  · rw [resume_eq more]
    exact (h.raised extra c).drive fuel _

/-- While an effect is awaited, a particle is on the processor. -/
theorem answer_running {id : HandlerId} {effect : Step} {s t : Session AsyncSmc} {next : Resume}
    (running : ∃ p, s.engine.active = some p)
    (answered : (handler id).answer effect s = .ok (.resume next) t) :
    ∃ p, t.engine.active = some p := by
  have launches {r : Session AsyncSmc} (launched : launch r = .ok next t) :
      ∃ p, t.engine.active = some p := by
    obtain ⟨p, _, _, _, _, rfl⟩ := launch_eq_ok launched
    exact ⟨p, rfl⟩
  cases effect with
  | sample choice deliver =>
    obtain ⟨_, _, _, _, rfl⟩ := sample_eq_ok answered
    exact running
  | factor point resume =>
    obtain ⟨_, p, next', fate, moment, e, g, _, same, arrives, ends⟩ := factor_eq_ok answered
    cases same
    rcases ends with ⟨_, launched⟩ | ⟨rfl, rfl⟩
    · exact launches launched
    · cases arrives
      exact ⟨_, rfl⟩
  | exit store value =>
    obtain ⟨p, _, ⟨_, next', same, launched⟩ | ⟨_, result, same, _⟩⟩ := exit_eq_ok answered
    · cases same
      exact launches launched
    · cases same

/-- At every moment between two effects of a run of the asynchronous engine, with whatever program,
generator and parameters, and however often it is resumed, also after runs that have stopped short:
the buffer keeps to its size; what waits there is fresh or has passed one of the factors with
statistics, owes executions, is possible and stands for at least one execution; whoever has exited
bears a value and a possible weight; no more have exited than were to; and the factors with
statistics are the first ones, each with arrivals and children. A particle is on the processor
whenever an effect is awaited. Children are compared with the budget as doubles, so that a particle
owes no more than the budget as far as doubles count exactly, and than the double nearest to it
beyond that. The buffer size and the budget, however often it is raised, are taken to fit in machine
words: neither is wrapped here. -/
theorem state_well_formed (h : Reachable config program address store e) :
    (∃ k, e.Formed k) ∧ e.exited.length ≤ e.target ∧
      (e.target ≤ 2 ^ 53 → ∀ p ∈ e.buffer, p.children ≤ e.target) ∧
      (∀ fuel c, Reachable config program address store (finalState (drive fuel ⟨e, c⟩)).engine) ∧
      (∀ fuel extra c,
        Reachable config program address store (finalState (resume fuel extra ⟨e, c⟩)).engine) ∧
      ∀ c id first r next t, e.exited.length < e.target → launch ⟨e, c⟩ = .ok first r →
        (handler id).Passes first r next t →
        Reachable config program address store t.engine ∧ ∃ p, t.engine.active = some p := by
  obtain ⟨k, formed⟩ := h.formed
  refine ⟨⟨k, formed⟩, h.onBudget, fun small p hp => ?_, h.drive, h.resume, ?_⟩
  · rcases formed.waiting p hp with fresh | passed
    · rw [fresh.children]
      exact Nat.zero_le _
    · have within := passed.within (small.trans_lt (by decide))
      rwa [toCount_ofCount small] at within
  · intro c id first r next t left launched passes
    have start : Reachable config program address store r.engine := by
      have := h.launched c
      rwa [launched] at this
    have still : r.engine.exited.length < r.engine.target :=
      left_of_account left (congrArg Prod.fst (preserves_launch.of_ok launched))
    have running : ∃ p, r.engine.active = some p := by
      obtain ⟨p, _, _, _, _, rfl⟩ := launch_eq_ok launched
      exact ⟨p, rfl⟩
    obtain ⟨reached, _, running⟩ := passes.induction
      (P := fun _ (t : Session AsyncSmc) => Reachable config program address store t.engine ∧
        t.engine.exited.length < t.engine.target ∧ ∃ p, t.engine.active = some p)
      ⟨start, still, running⟩ fun next t next' t' ⟨reached, left, running⟩ answered => by
        have spends := answer_spends id next.invoke left
        rw [answered] at spends
        exact ⟨reached.answer left answered, spends, answer_running running answered⟩
    exact ⟨reached, running⟩

/-- A run that is cut short after two effects: one particle is fresh, one waits behind its factor and
one is about to flip its coin. -/
theorem headsWeighed_well_formed :
    let config : AsyncConfig := { bufferSize := 5 }
    let engine := initial config (headsWeighed.entry .root) default ⟨1⟩
    let e := (finalState (drive 2 ⟨engine, quietContext "async-smc"⟩)).engine
    Reachable config headsWeighed .root default e ∧
      e.buffer.map (·.factorIndex) = [none, some 0] ∧
      (∃ k, e.Formed k) ∧ e.exited.length ≤ e.target ∧ ∀ p ∈ e.buffer, p.children ≤ e.target := by
  intro config engine e
  have ready : install config headsWeighed .root default
      { quietContext "async-smc" with stack := [], next := 1 } =
        .ok engine (quietContext "async-smc") := rfl
  have reached : Reachable config headsWeighed .root default e := (Reachable.installed ready).drive 2 _
  have waiting : e.buffer.map (·.factorIndex) = [none, some 0] := by decide +kernel
  obtain ⟨formed, within, owed, _⟩ := state_well_formed reached
  have same : e.target = 100 := by decide +kernel
  exact ⟨reached, waiting, formed, within, owed (by rw [same]; decide)⟩

end

end AsyncSmc

end Posterior
