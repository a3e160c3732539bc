/-! # Seeded noise

A stream of numbers between minus one and one that depends on a seed alone. The seed is spread over
a key of eight words, and the words of the stream are the blocks that twelve rounds of mixing make
of the key and a counter. -/

namespace DraftHeads.Noise

/-- The next state of the generator that spreads a seed. -/
def nextState (state : UInt64) : UInt64 := state * 6364136223846793005 + 11634580027462260723

/-- The bits of a word moved to the right, those that fall out coming back on the left. -/
def rotateRight (x n : UInt32) : UInt32 := (x >>> n) ||| (x <<< ((32 - n) % 32))

/-- The bits of a word moved to the left, those that fall out coming back on the right. -/
def rotateLeft (x n : UInt32) : UInt32 := (x <<< n) ||| (x >>> ((32 - n) % 32))

/-- The word that a state gives. -/
def stateWord (state : UInt64) : UInt32 :=
  rotateRight (((state >>> 18) ^^^ state) >>> 27).toUInt32 (state >>> 59).toUInt32

/-- `n` words spread from a state. -/
def spread : (n : Nat) → UInt64 → List UInt32
  | 0, _ => []
  | n + 1, state => stateWord (nextState state) :: spread n (nextState state)

/-- Mixes the words at four places of a block. -/
def quarterRound (b : Array UInt32) (i j k l : Nat) : Array UInt32 :=
  let word (b : Array UInt32) (n : Nat) : UInt32 := b.getD n 0
  let step (b : Array UInt32) (x y z : Nat) (r : UInt32) : Array UInt32 :=
    let b := b.setIfInBounds x (word b x + word b y)
    b.setIfInBounds z (rotateLeft (word b z ^^^ word b x) r)
  step (step (step (step b i j l 16) k l j 12) i j l 8) k l j 7

/-- Mixes a block by columns and by diagonals. -/
def doubleRound (b : Array UInt32) : Array UInt32 :=
  [(0, 4, 8, 12), (1, 5, 9, 13), (2, 6, 10, 14), (3, 7, 11, 15),
    (0, 5, 10, 15), (1, 6, 11, 12), (2, 7, 8, 13), (3, 4, 9, 14)].foldl
      (fun b (i, j, k, l) => quarterRound b i j k l) b

/-- The block of a counter. -/
def block (key : List UInt32) (counter : UInt64) : List UInt32 :=
  let start : List UInt32 :=
    ([0x61707865, 0x3320646e, 0x79622d32, 0x6b206574] : List UInt32) ++ key ++
      [counter.toUInt32, (counter >>> 32).toUInt32, 0, 0]
  let mixed := (List.range 6).foldl (fun b _ => doubleRound b) start.toArray
  List.zipWith (· + ·) mixed.toList start

/-- At least `n` words of the stream of a seed. -/
def words (seed : UInt64) (n : Nat) : List UInt32 :=
  let key := spread 8 seed
  (List.range ((n + 15) / 16)).flatMap fun i => block key (UInt64.ofNat i)

/-- The number between minus one and one that a word stands for. -/
def sample (word : UInt32) : Float32 :=
  (Float32.ofBits ((word >>> 9) ||| 0x3f800000) - 1) * 2 - 1

/-- The first `n` numbers of the stream of a seed. -/
def samples (seed : UInt64) (n : Nat) : List Float32 := ((words seed n).take n).map sample

end DraftHeads.Noise
