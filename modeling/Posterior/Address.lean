/-!
Addresses name the places where a program chooses or weighs. They grow from the root by one label
at a time and are compared as strings.
-/

namespace Posterior

structure Address where
  path : String
  deriving DecidableEq, Inhabited

namespace Address

def root : Address := ⟨""⟩

def child (a : Address) (site : String) : Address := ⟨a.path ++ "_" ++ site⟩

/-- The text shown in messages. -/
def text (a : Address) : String := if a.path.isEmpty then "<root>" else a.path

instance : Ord Address := ⟨fun a b => compare a.path b.path⟩

/-- In ascending order, each address once. -/
def sortUnique (addresses : List Address) : List Address :=
  (addresses.mergeSort (fun a b => (compare a b).isLE)).eraseReps

end Address

end Posterior
