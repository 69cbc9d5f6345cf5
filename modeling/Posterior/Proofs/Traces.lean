import Mathlib.Data.List.Nodup
import Posterior.Proofs.Outcomes

/-!
Traces as tables of choices: an address has at most one entry, looking it up finds that entry, and
only entries at new addresses are put on record.
-/

namespace Posterior

/-- The entry without the mark of how its value was come by. No engine asks for the mark. -/
def Entry.unmarked (e : Entry) : Entry := { e with reused := false }

@[simp] theorem Entry.address_unmarked (e : Entry) : e.unmarked.address = e.address := rfl

namespace Trace

variable {t u : Trace} {e : Entry} {a : Address}

theorem get?_of_mem (h : e ∈ t.entries) : t.get? e.address = some e := by
  cases hf : t.get? e.address with
  | none => exact absurd (List.mem_map_of_mem h) (get?_eq_none_iff.mp hf)
  | some d =>
    have hd : d.address = e.address := by simpa using List.find?_some hf
    have hm := List.mem_of_find?_eq_some hf
    rw [List.inj_on_of_nodup_map t.distinct hm h hd]

theorem get?_eq_some (h : t.get? a = some e) : e ∈ t.entries ∧ e.address = a :=
  ⟨List.mem_of_find?_eq_some h, by simpa using List.find?_some h⟩

theorem contains_iff : t.contains a = true ↔ a ∈ t.addresses := by
  unfold contains
  rw [← not_iff_not, ← get?_eq_none_iff]
  simp

/-- Which addresses are on record does not depend on the marks. -/
theorem addresses_of_unmarked {es : List Entry}
    (h : t.entries.map Entry.unmarked = es.map Entry.unmarked) :
    t.addresses = es.map Entry.address := by
  have ha := congrArg (List.map Entry.address) h
  simpa only [addresses, List.map_map, Function.comp_def, Entry.address_unmarked] using ha

theorem contains_congr (h : t.entries.map Entry.unmarked = u.entries.map Entry.unmarked) :
    t.contains a = u.contains a := by
  have ha : t.addresses = u.addresses := addresses_of_unmarked h
  rw [Bool.eq_iff_iff, contains_iff, contains_iff, ha]

theorem push_of_new (h : e.address ∉ t.addresses) :
    ∃ u, t.push e = .ok u := by
  unfold push
  split
  · exact ⟨_, rfl⟩
  · rename_i hs
    rw [get?_eq_none_iff.mpr h] at hs
    cases hs

theorem push_visited (h : e.address ∈ t.addresses) :
    t.push e = .error (.duplicateAddress e.address t.length) := by
  unfold push
  split
  · rename_i absent
    exact absurd h (get?_eq_none_iff.mp absent)
  · rfl

theorem entries_splice {t u tail : Trace} {n : Nat} (h : t.splice n tail = .ok u) :
    u.entries = t.entries.take n ++ tail.entries := by
  unfold splice at h
  rw [← entries_take]
  generalize t.take n = first at h
  generalize tail.entries = es at h
  induction es generalizing first with
  | nil =>
    cases h
    simp
  | cons e es ih =>
    rw [List.foldlM_cons, except_bind_eq_ok] at h
    obtain ⟨longer, hp, h⟩ := h
    rw [ih _ h, entries_push hp, List.append_assoc, List.singleton_append]

theorem foldlM_push {first : Trace} {es : List Entry}
    (h : ((first.entries ++ es).map Entry.address).Nodup) : ∃ u, es.foldlM push first = .ok u := by
  induction es generalizing first with
  | nil => exact ⟨first, rfl⟩
  | cons e es ih =>
    have hnew : e.address ∉ first.addresses := by
      rw [List.map_append, List.map_cons] at h
      exact fun hm => (List.nodup_append.mp h).2.2 _ hm _ (List.mem_cons_self ..) rfl
    obtain ⟨longer, hp⟩ := push_of_new hnew
    rw [List.foldlM_cons, hp]
    refine ih ?_
    rw [entries_push hp, List.append_assoc, List.singleton_append]
    exact h

/-- Behind no entry at all every trace can be put. -/
theorem splice_zero (t tail : Trace) : t.splice 0 tail = .ok tail := by
  have hs : ∃ u, t.splice 0 tail = .ok u := foldlM_push tail.distinct
  obtain ⟨u, hs⟩ := hs
  rw [hs]
  exact congrArg Except.ok (Trace.ext (entries_splice hs))

/-- Putting entries behind a trace fails at the first one whose address is on it. -/
theorem foldlM_push_visited {es : List Entry} (distinct : (es.map Entry.address).Nodup)
    (visited : ∃ e ∈ es, e.address ∈ t.addresses) :
    ∃ e ∈ es, e.address ∈ t.addresses ∧ ∃ i, es.foldlM push t = .error (.duplicateAddress e.address i) := by
  induction es generalizing t with
  | nil =>
    obtain ⟨_, none, _⟩ := visited
    cases none
  | cons e es ih =>
    rw [List.foldlM_cons]
    by_cases now : e.address ∈ t.addresses
    · refine ⟨e, List.mem_cons_self, now, t.length, ?_⟩
      rw [push_visited now]
      rfl
    · obtain ⟨fresh, distinct⟩ := List.nodup_cons.mp distinct
      obtain ⟨u, pushed⟩ := push_of_new now
      have longer : u.addresses = t.addresses ++ [e.address] := by
        unfold addresses
        rw [entries_push pushed, List.map_append]
        rfl
      have later : ∃ d ∈ es, d.address ∈ u.addresses := by
        obtain ⟨d, hd, there⟩ := visited
        rcases List.mem_cons.mp hd with rfl | hd
        · exact absurd there now
        · exact ⟨d, hd, longer ▸ List.mem_append_left _ there⟩
      obtain ⟨d, hd, there, i, failed⟩ := ih distinct later
      refine ⟨d, List.mem_cons_of_mem _ hd, ?_, i, ?_⟩
      · -- the tail holds each address once, so that `d` does not come back to the entry just put there
        rw [longer, List.mem_append, List.mem_singleton] at there
        refine there.resolve_right fun same => ?_
        exact fresh (same ▸ List.mem_map_of_mem hd)
      · rw [pushed]
        exact failed

/-- A tail goes behind the first entries of a trace unless it comes back to an address of theirs. -/
theorem splice_visited (t tail : Trace) {n : Nat}
    (visited : ∃ a ∈ (t.take n).addresses, a ∈ tail.addresses) :
    ∃ a ∈ (t.take n).addresses, a ∈ tail.addresses ∧
      ∃ i, t.splice n tail = .error (.duplicateAddress a i) := by
  obtain ⟨a, early, late⟩ := visited
  obtain ⟨e, he, rfl⟩ := List.mem_map.mp late
  obtain ⟨d, hd, there, i, failed⟩ := foldlM_push_visited tail.distinct ⟨e, he, early⟩
  exact ⟨d.address, there, List.mem_map_of_mem hd, i, failed⟩

theorem splice_new (t tail : Trace) {n : Nat}
    (new : ∀ a ∈ (t.take n).addresses, a ∉ tail.addresses) :
    ∃ u, t.splice n tail = .ok u ∧ u.entries = t.entries.take n ++ tail.entries := by
  have distinct : (((t.take n).entries ++ tail.entries).map Entry.address).Nodup := by
    rw [List.map_append]
    refine List.nodup_append.mpr ⟨(t.take n).distinct, tail.distinct, ?_⟩
    rintro a early _ late rfl
    exact new a early late
  obtain ⟨u, spliced⟩ : ∃ u, t.splice n tail = .ok u := foldlM_push distinct
  exact ⟨u, spliced, entries_splice spliced⟩

end Trace

end Posterior
