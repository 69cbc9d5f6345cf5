import Posterior.Proofs.Traces
import Posterior.Proofs.Verdicts

/-!
Traces as sequences with an index. Looking up an address, whatever has been pushed, cut off or spliced
before, finds the one entry at it; the entries that are cut off leave the index with their addresses,
and cutting and splicing compose like the cutting and joining of lists.
-/

namespace Posterior

namespace Trace

variable {t u : Trace} {e : Entry} {a : Address} {n : Nat}

theorem addresses_take (t : Trace) (n : Nat) : (t.take n).addresses = t.addresses.take n :=
  List.map_take ..

theorem addresses_drop (t : Trace) (n : Nat) : (t.drop n).addresses = t.addresses.drop n :=
  List.map_drop ..

/-- An address finds the entry at it. -/
theorem get?_eq_some_iff : t.get? a = some e ↔ e ∈ t.entries ∧ e.address = a := by
  refine ⟨get?_eq_some, ?_⟩
  rintro ⟨he, rfl⟩
  exact get?_of_mem he

theorem contains_iff_existsUnique :
    t.contains a = true ↔ ∃! e, e ∈ t.entries ∧ e.address = a := by
  simp only [← get?_eq_some_iff, contains, Option.isSome_iff_exists]
  refine ⟨fun ⟨e, he⟩ => ⟨e, he, fun d hd => ?_⟩, fun ⟨e, he, _⟩ => ⟨e, he⟩⟩
  exact Option.some.inj (hd.symm.trans he)

theorem get?_of_entry? {i : Nat} (h : t.entry? i = some e) : t.get? e.address = some e :=
  get?_of_mem (List.mem_of_getElem? h)

theorem push_appends (new : e.address ∉ t.addresses) :
    ∃ u, t.push e = .ok u ∧ u.entries = t.entries ++ [e] := by
  obtain ⟨u, pushed⟩ := push_of_new new
  exact ⟨u, pushed, entries_push pushed⟩

theorem push_eq_error_iff {cause : Failure} : t.push e = .error cause ↔
    t.contains e.address = true ∧ cause = .duplicateAddress e.address t.length := by
  rw [contains_iff]
  constructor
  · intro failed
    by_cases visited : e.address ∈ t.addresses
    · rw [push_visited visited] at failed
      exact ⟨visited, (Except.error.inj failed).symm⟩
    · obtain ⟨u, pushed⟩ := push_of_new visited
      rw [pushed] at failed
      cases failed
  · rintro ⟨visited, rfl⟩
    exact push_visited visited

/-- No address is both among the first entries and among the others. -/
theorem disjoint_take_drop (t : Trace) (n : Nat) :
    (t.addresses.take n).Disjoint (t.addresses.drop n) := by
  have distinct : (t.addresses.take n ++ t.addresses.drop n).Nodup := by
    rw [List.take_append_drop]
    exact t.distinct
  exact List.disjoint_of_nodup_append distinct

/-- The entries that are cut off, and no others, leave the index. -/
theorem get?_take (t : Trace) (n : Nat) (a : Address) :
    (t.take n).get? a = if a ∈ t.addresses.drop n then none else t.get? a := by
  split
  · rename_i dropped
    rw [get?_eq_none_iff, addresses_take]
    exact fun kept => t.disjoint_take_drop n kept dropped
  · rename_i kept
    cases found : (t.take n).get? a with
    | some e =>
      obtain ⟨he, rfl⟩ := get?_eq_some found
      exact (get?_of_mem (List.mem_of_mem_take he)).symm
    | none =>
      -- an address that is in neither part is not on the trace
      refine (get?_eq_none_iff.mpr fun there => ?_).symm
      rw [← List.take_append_drop n t.addresses, List.mem_append] at there
      rw [get?_eq_none_iff, addresses_take] at found
      exact there.elim found kept

/-- An address that has been cut off can be put on record again. -/
theorem push_take (dropped : e.address ∈ t.addresses.drop n) :
    ∃ u, (t.take n).push e = .ok u ∧ u.entries = t.entries.take n ++ [e] := by
  refine push_appends fun kept => ?_
  rw [addresses_take] at kept
  exact t.disjoint_take_drop n kept dropped

theorem drop_drop (t : Trace) (n m : Nat) : (t.drop n).drop m = t.drop (n + m) :=
  Trace.ext (List.drop_drop ..)

/-- A tail can be spliced on exactly if none of its addresses is among the first ones. -/
theorem splice_succeeds_iff :
    (∃ v, t.splice n u = .ok v) ↔ (t.addresses.take n).Disjoint u.addresses := by
  rw [← addresses_take]
  constructor
  · rintro ⟨v, spliced⟩ a early late
    obtain ⟨_, _, _, i, failed⟩ := splice_visited t u ⟨a, early, late⟩
    rw [failed] at spliced
    cases spliced
  · intro apart
    obtain ⟨v, spliced, _⟩ := splice_new t u fun a early late => apart early late
    exact ⟨v, spliced⟩

/-- What is cut off can be spliced on again. -/
theorem splice_drop (t : Trace) (n : Nat) : t.splice n (t.drop n) = .ok t := by
  have apart : (t.addresses.take n).Disjoint (t.drop n).addresses := by
    rw [addresses_drop]
    exact t.disjoint_take_drop n
  obtain ⟨v, spliced⟩ := splice_succeeds_iff.mpr apart
  have whole : v.entries = t.entries := by
    rw [entries_splice spliced, entries_drop, List.take_append_drop]
  rw [spliced, Trace.ext whole]

end Trace

/-- A choice at an address that is on the trace of a chain is refused, and the chain is left as it was. -/
theorem Chain.record_visited {c : Chain} {g : Rng} {choice : Choice} {deliver : Delivery}
    {value : Value} {score : Float} {previous : Option Entry} {forced : Bool}
    (scored : (choice.dist.score choice.params value >>=
      ensureNumber "score-nan" "choice score") = .ok score)
    (visited : choice.address ∈ c.trace.addresses) :
    record choice deliver value previous forced (c, g) =
      .error (.duplicateAddress choice.address c.trace.length) (c, g) := by
  unfold record
  rw [bind_ok (get_eq_ok.mpr ⟨rfl, rfl⟩), bind_ok (ofExcept_eq_ok.mpr ⟨scored, rfl⟩)]
  refine bind_error ?_
  exact congrArg (ofExcept · (c, g)) (Trace.push_visited visited)

/-- Whatever the score of a choice at an address on record, the chain is left as it was. -/
theorem Chain.record_refused {c : Chain} {g : Rng} {choice : Choice} {deliver : Delivery}
    {value : Value} {previous : Option Entry} {forced : Bool}
    (visited : c.trace.contains choice.address = true) :
    ∃ cause, record choice deliver value previous forced (c, g) = .error cause (c, g) := by
  cases scored : (choice.dist.score choice.params value >>=
      ensureNumber "score-nan" "choice score") with
  | error cause =>
    refine ⟨cause, ?_⟩
    unfold record
    rw [bind_ok (get_eq_ok.mpr ⟨rfl, rfl⟩)]
    exact bind_error (congrArg (ofExcept · (c, g)) scored)
  | ok score => exact ⟨_, record_visited scored (Trace.contains_iff.mp visited)⟩

/-- A trace, whatever it has come from by pushing, cutting and splicing. Its addresses are pairwise
distinct; an address is on it exactly if there is one entry at it and no other, which is the one it
finds. Pushing fails exactly at an address that is on the trace, and leaves the chain that asked for it
as it was. Cutting the trace takes the addresses that are cut off, and no others, out of the index, so
that they can be pushed again; cutting from the front twice is cutting once. Another trace can be
spliced on behind the first entries exactly if it has none of their addresses, which joins the two; so
what is cut off, at any place, can be spliced on again. -/
theorem traces_indexed (t : Trace) :
    t.addresses.Nodup ∧
    (∀ a e, t.get? a = some e ↔ e ∈ t.entries ∧ e.address = a) ∧
    (∀ a, t.contains a = true ↔ ∃! e, e ∈ t.entries ∧ e.address = a) ∧
    (∀ i e, t.entry? i = some e → t.get? e.address = some e) ∧
    (∀ e, t.contains e.address = false →
      ∃ u, t.push e = .ok u ∧ u.entries = t.entries ++ [e]) ∧
    (∀ e cause, t.push e = .error cause ↔
      t.contains e.address = true ∧ cause = .duplicateAddress e.address t.length) ∧
    (∀ (c : Chain) choice deliver value previous forced g, c.trace = t →
      t.contains choice.address = true → ∃ cause,
        Chain.record choice deliver value previous forced (c, g) = .error cause (c, g)) ∧
    (∀ n, (t.take n).entries = t.entries.take n ∧ (t.drop n).entries = t.entries.drop n) ∧
    (∀ n a, (t.take n).get? a = if a ∈ t.addresses.drop n then none else t.get? a) ∧
    (∀ n e, e.address ∈ t.addresses.drop n →
      ∃ u, (t.take n).push e = .ok u ∧ u.entries = t.entries.take n ++ [e]) ∧
    (∀ n m, (t.drop n).drop m = t.drop (n + m)) ∧
    (∀ n u, (∃ v, t.splice n u = .ok v) ↔ (t.addresses.take n).Disjoint u.addresses) ∧
    (∀ n u v, t.splice n u = .ok v → v.entries = t.entries.take n ++ u.entries) ∧
    ∀ n, t.splice n (t.drop n) = .ok t := by
  refine ⟨t.distinct, fun _ _ => Trace.get?_eq_some_iff, fun _ => Trace.contains_iff_existsUnique,
    fun _ _ => Trace.get?_of_entry?, fun e new => ?_, fun _ _ => Trace.push_eq_error_iff, ?_,
    fun _ => ⟨rfl, rfl⟩, t.get?_take, fun _ _ => Trace.push_take, t.drop_drop,
    fun _ _ => Trace.splice_succeeds_iff, fun _ _ _ => Trace.entries_splice, t.splice_drop⟩
  · refine Trace.push_appends fun visited => ?_
    rw [Trace.contains_iff.mpr visited] at new
    cases new
  · rintro c choice deliver value previous forced g rfl visited
    exact Chain.record_refused visited

/-- A choice at a site. -/
def visit (site : String) : Entry :=
  { (default : Entry) with choice := { (default : Choice) with address := Address.root.child site } }

def threeVisits : Trace := ⟨[visit "a", visit "b", visit "c"], by decide⟩

/-- The second of three choices is not recorded again, but it is once the trace has been cut in front of
it. What lies behind the first choice goes there again, though not behind the first two. -/
theorem threeVisits_indexed :
    threeVisits.push (visit "b") = .error (.duplicateAddress (visit "b").address 3) ∧
    (∃ u, (threeVisits.take 1).push (visit "b") = .ok u ∧ u.entries = [visit "a", visit "b"]) ∧
    threeVisits.splice 1 (threeVisits.drop 1) = .ok threeVisits ∧
    threeVisits.splice 7 (threeVisits.drop 7) = .ok threeVisits ∧
    ¬ ∃ v, threeVisits.splice 2 (threeVisits.drop 1) = .ok v := by
  obtain ⟨-, -, -, -, -, refused, -, -, -, again, -, apart, -, rejoined⟩ :=
    traces_indexed threeVisits
  refine ⟨(refused _ _).mpr ⟨by decide, rfl⟩, again 1 _ (by decide), rejoined 1, rejoined 7, ?_⟩
  rw [apart]
  exact fun none => none (a := (visit "b").address) (by decide) (by decide)

end Posterior
