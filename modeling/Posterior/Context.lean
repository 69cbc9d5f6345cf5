import Posterior.Failure
import Posterior.Distribution.Basic

/-!
Contexts hold the randomness and the stack of installed handlers. The handler on top is the active
one; an engine installs itself on entry and makes way for its predecessor when it is done.
-/

namespace Posterior

structure Installed where
  id : HandlerId
  name : String
  deriving DecidableEq, Inhabited

/-- The stack has the active handler first; the next handler gets the number `next`. -/
structure Context where
  rng : Rng
  stack : List Installed := []
  next : Nat := 1

instance : Inhabited Context := ⟨{ rng := Rng.ofSeed 0 }⟩

namespace Context

def ofSeed (seed : UInt64) : Context := { rng := Rng.ofSeed seed }

def active? (c : Context) : Option Installed := c.stack.head?

def depth (c : Context) : Nat := c.stack.length

def install (c : Context) (name : String) : HandlerId × Context :=
  (⟨c.next⟩, { c with stack := ⟨⟨c.next⟩, name⟩ :: c.stack, next := c.next + 1 })

/-- Whether `id` is the active handler. On behalf of a handler the failure bears its name. -/
def ensureActive (c : Context) (id : HandlerId) (handler : Option String := none) :
    Except Failure Unit :=
  match c.stack with
  | top :: _ =>
    if top.id = id then .ok () else .error (.handlerNesting id top.id top.name handler)
  | [] => .error (.handlerMissing id handler)

/-- Brings back the handler that was active before `id`. -/
def restore (c : Context) (id : HandlerId) : Except Failure Context := do
  c.ensureActive id
  return { c with stack := c.stack.tail }

/-- What lies below `id`; the whole stack if `id` is not in it. -/
def below (id : HandlerId) (stack : List Installed) : List Installed :=
  match stack.dropWhile (·.id ≠ id) with
  | [] => stack
  | _ :: rest => rest

/-- Drops `id` and everything installed above it. -/
def unwind (c : Context) (id : HandlerId) : Context := { c with stack := below id c.stack }

end Context

end Posterior
