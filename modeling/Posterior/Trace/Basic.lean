import Posterior.Program

/-!
Traces record the random choices of one execution in their order. An execution visits an address
at most once, so an address identifies an entry.
-/

namespace Posterior

/-- One random choice: what was asked, what was chosen, and how to carry on from there. -/
structure Entry where
  choice : Choice
  deliver : Delivery
  value : Value
  choiceScore : Float
  scoreBefore : Float
  factorsBefore : Nat
  reused : Bool
  deriving Inhabited

def Entry.address (e : Entry) : Address := e.choice.address

structure Trace where
  entries : List Entry := []
  distinct : (entries.map Entry.address).Nodup := by simp

namespace Trace

def empty : Trace := {}

instance : Inhabited Trace := ⟨empty⟩

def length (t : Trace) : Nat := t.entries.length

def isEmpty (t : Trace) : Bool := t.entries.isEmpty

def addresses (t : Trace) : List Address := t.entries.map Entry.address

def get? (t : Trace) (a : Address) : Option Entry := t.entries.find? (·.address = a)

def contains (t : Trace) (a : Address) : Bool := (t.get? a).isSome

def entry? (t : Trace) (i : Nat) : Option Entry := t.entries[i]?

theorem get?_eq_none_iff {t : Trace} {a : Address} : t.get? a = none ↔ a ∉ t.addresses := by
  simp [get?, addresses]

theorem nodup_push {t : Trace} {e : Entry} (h : t.get? e.address = none) :
    ((t.entries ++ [e]).map Entry.address).Nodup := by
  have hn := get?_eq_none_iff.mp h
  simp only [addresses] at hn
  rw [List.map_append, List.nodup_append]
  refine ⟨t.distinct, by simp, ?_⟩
  intro a ha b hb
  simp only [List.map_cons, List.map_nil, List.mem_singleton] at hb
  rintro rfl
  exact hn (hb ▸ ha)

/-- Appends an entry whose address is new. -/
def push (t : Trace) (e : Entry) : Except Failure Trace :=
  match h : t.get? e.address with
  | none => .ok ⟨t.entries ++ [e], nodup_push h⟩
  | some _ => .error (.duplicateAddress e.address t.length)

/-- The first `n` entries. -/
def take (t : Trace) (n : Nat) : Trace :=
  ⟨t.entries.take n, t.distinct.sublist ((List.take_sublist n t.entries).map _)⟩

/-- The entries from position `n` on. -/
def drop (t : Trace) (n : Nat) : Trace :=
  ⟨t.entries.drop n, t.distinct.sublist ((List.drop_sublist n t.entries).map _)⟩

/-- The first `n` entries followed by those of another trace. -/
def splice (t : Trace) (n : Nat) (tail : Trace) : Except Failure Trace :=
  tail.entries.foldlM push (t.take n)

@[ext] theorem ext {t u : Trace} (h : t.entries = u.entries) : t = u := by
  cases t; cases u; cases h; rfl

@[simp] theorem entries_take (t : Trace) (n : Nat) : (t.take n).entries = t.entries.take n := rfl

@[simp] theorem entries_drop (t : Trace) (n : Nat) : (t.drop n).entries = t.entries.drop n := rfl

theorem entries_push {t u : Trace} {e : Entry} (h : t.push e = .ok u) :
    u.entries = t.entries ++ [e] := by
  unfold push at h
  split at h
  · cases h; rfl
  · cases h

end Trace

end Posterior
