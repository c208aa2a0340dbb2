/-!
# ChaCha12 streams

A stream of 64-bit words from a 64-bit seed. The seed is expanded to a key of eight words, and the
words of the stream are the output of the ChaCha block function with twelve rounds for the counters
0, 1, 2, …, two 32-bit words making one, the lower half first.
-/

namespace Cascades

namespace ChaCha

/-- The state of the generator that expands seeds, after the given one. -/
def nextState (state : UInt64) : UInt64 :=
  state * 6364136223846793005 + 11634580027462260723

/-- The word with its bits turned to the left. -/
def rotateLeft (word : UInt32) (amount : UInt32) : UInt32 :=
  if amount = 0 then word else word <<< amount ||| word >>> (32 - amount)

/-- The key word for a state. -/
def keyWord (state : UInt64) : UInt32 :=
  let mixed := (((state >>> 18) ^^^ state) >>> 27).toUInt32
  let amount := (state >>> 59).toUInt32
  rotateLeft mixed ((32 - amount) % 32)

/-- Key words for the states after the given one. -/
def keyWords : (count : Nat) → UInt64 → List UInt32
  | 0, _ => []
  | count + 1, state => keyWord (nextState state) :: keyWords count (nextState state)

/-- The words of a block at the start. -/
def initialBlock (seed : UInt64) (counter : Nat) : Array UInt32 :=
  (#[0x61707865, 0x3320646e, 0x79622d32, 0x6b206574] ++ (keyWords 8 seed).toArray) ++
    #[UInt32.ofNat counter, UInt32.ofNat (counter / UInt32.size), 0, 0]

/-- Mixes the words at four places of a block. -/
def quarterRound (block : Array UInt32) (places : Nat × Nat × Nat × Nat) : Array UInt32 :=
  let (first, second, third, fourth) := places
  let a := block.getD first 0
  let b := block.getD second 0
  let c := block.getD third 0
  let d := block.getD fourth 0
  let a := a + b
  let d := rotateLeft (d ^^^ a) 16
  let c := c + d
  let b := rotateLeft (b ^^^ c) 12
  let a := a + b
  let d := rotateLeft (d ^^^ a) 8
  let c := c + d
  let b := rotateLeft (b ^^^ c) 7
  (((block.setIfInBounds first a).setIfInBounds second b).setIfInBounds third c).setIfInBounds
    fourth d

/-- The places of the columns of a block, and then of its diagonals. -/
def quarters : List (Nat × Nat × Nat × Nat) :=
  [(0, 4, 8, 12), (1, 5, 9, 13), (2, 6, 10, 14), (3, 7, 11, 15),
    (0, 5, 10, 15), (1, 6, 11, 12), (2, 7, 8, 13), (3, 4, 9, 14)]

/-- One round over the columns of a block and one over its diagonals. -/
def doubleRound (block : Array UInt32) : Array UInt32 :=
  quarters.foldl quarterRound block

/-- The words of a block after six double rounds, added to those at the start. -/
def block (seed : UInt64) (counter : Nat) : Array UInt32 :=
  let initial := initialBlock seed counter
  let mixed := (List.range 6).foldl (fun block _ => doubleRound block) initial
  Array.zipWith (· + ·) mixed initial

/-- The words of the stream. -/
def stream (seed : UInt64) (position : Nat) : UInt64 :=
  let words := block seed (position / 8)
  let low := words.getD (2 * (position % 8)) 0
  let high := words.getD (2 * (position % 8) + 1) 0
  low.toUInt64 ||| high.toUInt64 <<< 32

end ChaCha

end Cascades
