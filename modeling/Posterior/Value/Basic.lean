import Posterior.Numeric.Elementary

/-!
Values: what a random choice yields and what a program returns. Two values are the same when they
have one shape and their reals agree, where zero has one sign and all NaNs are one.
-/

namespace Posterior

inductive Value where
  | unit
  | bool (b : Bool)
  | int (i : Int64)
  | real (x : Float)
  | str (s : String)
  | list (items : List Value)
  deriving Inhabited

namespace Value

/-- The bits by which a real is compared. -/
def realBits (x : Float) : UInt64 :=
  if x.isNaN then 0x7FF8000000000000 else if x == 0 then 0 else x.toBits

mutual

def same : Value → Value → Bool
  | .unit, .unit => true
  | .bool a, .bool b => a == b
  | .int a, .int b => a == b
  | .real x, .real y => realBits x == realBits y
  | .str s, .str t => s == t
  | .list xs, .list ys => sameItems xs ys
  | _, _ => false

def sameItems : List Value → List Value → Bool
  | [], [] => true
  | x :: xs, y :: ys => same x y && sameItems xs ys
  | _, _ => false

end

mutual

theorem same_comm (x y : Value) : same x y = same y x := by
  cases x <;> cases y <;> simp only [same]
  all_goals first | exact BEq.comm | exact sameItems_comm _ _

theorem sameItems_comm (xs ys : List Value) : sameItems xs ys = sameItems ys xs := by
  match xs, ys with
  | [], [] => rfl
  | [], _ :: _ => rfl
  | _ :: _, [] => rfl
  | x :: xs, y :: ys => simp only [sameItems, same_comm x y, sameItems_comm xs ys]

end

instance : BEq Value := ⟨same⟩

theorem beq_comm (x y : Value) : (x == y) = (y == x) := same_comm x y

/-- What a hasher is fed, piece by piece. -/
inductive Piece where
  | shape (n : Nat)
  | flag (b : Bool)
  | word (w : UInt64)
  | text (s : String)
  | length (n : Nat)
  deriving DecidableEq

mutual

def pieces : Value → List Piece
  | .unit => [.shape 0]
  | .bool b => [.shape 1, .flag b]
  | .int i => [.shape 2, .word i.toUInt64]
  | .real x => [.shape 3, .word (realBits x)]
  | .str s => [.shape 4, .text s]
  | .list items => .shape 5 :: .length items.length :: itemPieces items

def itemPieces : List Value → List Piece
  | [] => []
  | x :: xs => pieces x ++ itemPieces xs

end

def bool? : Value → Option Bool
  | .bool b => some b
  | _ => none

def int? : Value → Option Int64
  | .int i => some i
  | _ => none

/-- The numeric view: integers are reals too, rounded to the nearest double. -/
def real? : Value → Option Float
  | .real x => some x
  | .int i => some (Float.ofInt i.toInt)
  | _ => none

def str? : Value → Option String
  | .str s => some s
  | _ => none

def list? : Value → Option (List Value)
  | .list items => some items
  | _ => none

end Value

end Posterior
