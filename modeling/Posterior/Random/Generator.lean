import Posterior.Random.KeyStream

/-!
A generator reads the key stream word by word. Every number it draws is a function of the words,
so two equal generators draw the same numbers for ever.
-/

namespace Posterior

/-- The words left over from the last block, and the number of the next one. -/
structure Rng where
  key : Random.Key
  next : UInt64 := 0
  ahead : List UInt32 := []

namespace Rng

def ofSeed (seed : UInt64) : Rng := { key := Random.Key.ofSeed seed }

def word (g : Rng) : UInt32 × Rng :=
  match g.ahead with
  | w :: rest => (w, { g with ahead := rest })
  | [] =>
    match (Random.block g.key g.next).toList with
    | w :: rest => (w, { g with next := g.next + 1, ahead := rest })
    | [] => (0, g)

/-- Two words, the low half first. -/
def doubleWord (g : Rng) : UInt64 × Rng :=
  let (low, g) := g.word
  let (high, g) := g.word
  (low.toUInt64 ||| (high.toUInt64 <<< 32), g)

/-- A number of `[0, 1)` with 53 random bits. -/
def uniform (g : Rng) : Float × Rng :=
  let (w, g) := g.doubleWord
  ((w >>> 11).toFloat * Float.ofBits 0x3CA0000000000000, g)

/-- Low halves of the product up to this bound are accepted; it keeps the indices equally likely. -/
def acceptBound (n : Nat) : Nat := (n <<< (63 - n.log2)) - 1

theorem scaled_lt (w : UInt64) {n : Nat} (pos : 0 < n) : w.toNat * n / UInt64.size < n := by
  apply Nat.div_lt_of_lt_mul
  exact Nat.mul_lt_mul_of_pos_right w.toNat_lt_size pos

/-- The high half of the product of a double word and `n`. -/
def scaled (n : Nat) (pos : 0 < n) (w : UInt64) : Fin n :=
  ⟨w.toNat * n / UInt64.size, scaled_lt w pos⟩

/-- Draws until a product is accepted. A refusal has a chance below one half, so the last of the
`tries` words, taken whatever it is, is never reached in practice. -/
def belowWithin (n : Nat) (pos : 0 < n) : Nat → Rng → Fin n × Rng
  | 0, g =>
    let (w, g) := g.doubleWord
    (scaled n pos w, g)
  | tries + 1, g =>
    let (w, g) := g.doubleWord
    if w.toNat * n % UInt64.size ≤ acceptBound n then (scaled n pos w, g)
    else belowWithin n pos tries g

/-- A uniform index below `n`. -/
def below (n : Nat) (pos : 0 < n) (g : Rng) : Fin n × Rng :=
  belowWithin n pos 1024 g

/-- A uniform index, `none` over an empty range. -/
def index? (n : Nat) (g : Rng) : Option (Nat × Rng) :=
  if pos : 0 < n then
    let (i, g) := g.below n pos
    some (i.val, g)
  else none

def wordBytes (w : UInt32) : List UInt8 :=
  [w.toUInt8, (w >>> 8).toUInt8, (w >>> 16).toUInt8, (w >>> 24).toUInt8]

def words : Nat → Rng → List UInt32 × Rng
  | 0, g => ([], g)
  | n + 1, g =>
    let (w, g) := g.word
    let (rest, g) := words n g
    (w :: rest, g)

/-- Random bytes come in whole words; what the last word has over is lost. -/
def bytes (n : Nat) (g : Rng) : List UInt8 × Rng :=
  let (ws, g) := g.words ((n + 3) / 4)
  ((ws.flatMap wordBytes).take n, g)

end Rng

end Posterior
