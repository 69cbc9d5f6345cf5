/-!
The random words: the key stream of a stream cipher with twelve rounds, sixteen words to a block,
under a key expanded from a 64-bit seed.
-/

namespace Posterior.Random

abbrev Block := Vector UInt32 16

abbrev Key := Vector UInt32 8

def rotateLeft (x k : UInt32) : UInt32 := (x <<< k) ||| (x >>> (32 - k))

def quarterRound (s : Block) (a b c d : Fin 16) : Block :=
  let wa := s[a] + s[b]
  let wd := rotateLeft (s[d] ^^^ wa) 16
  let wc := s[c] + wd
  let wb := rotateLeft (s[b] ^^^ wc) 12
  let wa := wa + wb
  let wd := rotateLeft (wd ^^^ wa) 8
  let wc := wc + wd
  let wb := rotateLeft (wb ^^^ wc) 7
  (((s.set a wa).set b wb).set c wc).set d wd

/-- One round down the columns, one along the diagonals. -/
def doubleRound (s : Block) : Block :=
  let s := quarterRound s 0 4 8 12
  let s := quarterRound s 1 5 9 13
  let s := quarterRound s 2 6 10 14
  let s := quarterRound s 3 7 11 15
  let s := quarterRound s 0 5 10 15
  let s := quarterRound s 1 6 11 12
  let s := quarterRound s 2 7 8 13
  quarterRound s 3 4 9 14

def doubleRounds : Nat → Block → Block
  | 0, s => s
  | n + 1, s => doubleRounds n (doubleRound s)

/-- The block before the rounds: four constants, the key, the block number and an empty nonce. -/
def seedBlock (key : Key) (number : UInt64) : Block :=
  #v[0x61707865, 0x3320646e, 0x79622d32, 0x6b206574,
    key[0], key[1], key[2], key[3], key[4], key[5], key[6], key[7],
    number.toUInt32, (number >>> 32).toUInt32, 0, 0]

def block (key : Key) (number : UInt64) : Block :=
  let start := seedBlock key number
  Vector.zipWith (· + ·) (doubleRounds 6 start) start

/-- One step of the sequence from which a seed is spread over a key. -/
def nextSeed (state : UInt64) : UInt64 :=
  state * 6364136223846793005 + 11634580027462260723

/-- The key word read off a state of that sequence. -/
def seedWord (state : UInt64) : UInt32 :=
  let mixed := (((state >>> 18) ^^^ state) >>> 27).toUInt32
  let turn := (state >>> 59).toUInt32
  (mixed >>> turn) ||| (mixed <<< ((32 - turn) % 32))

def seedStates : Nat → UInt64 → List UInt64
  | 0, _ => []
  | n + 1, state => nextSeed state :: seedStates n (nextSeed state)

theorem length_seedStates (n : Nat) (state : UInt64) : (seedStates n state).length = n := by
  induction n generalizing state with
  | zero => rfl
  | succ n ih => simp [seedStates, ih]

def Key.ofSeed (seed : UInt64) : Key :=
  ⟨((seedStates 8 seed).map seedWord).toArray, by simp [length_seedStates]⟩

end Posterior.Random
