/-!
Seeds of substreams. A master seed and a number are hashed by a keyed hash under the zero key, one
round to a word and three rounds at the end.
-/

namespace Posterior.Random

structure HashState where
  v0 : UInt64
  v1 : UInt64
  v2 : UInt64
  v3 : UInt64

namespace HashState

def turn (x k : UInt64) : UInt64 := (x <<< k) ||| (x >>> (64 - k))

/-- The state under the zero key. -/
def start : HashState where
  v0 := 0x736f6d6570736575
  v1 := 0x646f72616e646f6d
  v2 := 0x6c7967656e657261
  v3 := 0x7465646279746573

def round (s : HashState) : HashState :=
  let v0 := s.v0 + s.v1
  let v2 := s.v2 + s.v3
  let v1 := turn s.v1 13 ^^^ v0
  let v3 := turn s.v3 16 ^^^ v2
  let v0 := turn v0 32 + v3
  let v2 := v2 + v1
  let v1 := turn v1 17 ^^^ v2
  let v3 := turn v3 21 ^^^ v0
  ⟨v0, v1, turn v2 32, v3⟩

def absorb (s : HashState) (w : UInt64) : HashState :=
  let s := { s with v3 := s.v3 ^^^ w }.round
  { s with v0 := s.v0 ^^^ w }

def finish (s : HashState) : UInt64 :=
  let s := { s with v2 := s.v2 ^^^ 0xff }.round.round.round
  s.v0 ^^^ s.v1 ^^^ s.v2 ^^^ s.v3

end HashState

/-- The last word absorbed holds the length of the input, sixteen bytes, in its top byte. -/
def substreamSeed (master substream : UInt64) : UInt64 :=
  (((HashState.start.absorb master).absorb substream).absorb ((16 : UInt64) <<< 56)).finish

end Posterior.Random
