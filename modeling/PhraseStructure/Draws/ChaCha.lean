import PhraseStructure.Draws.Basic

/-!
# ChaCha draws

The ChaCha cipher with twelve rounds as a source of draws. A 64-bit seed is stretched to a key by
a linear congruential generator with a permuted output; each block of sixteen words then gives
eight values, the lower word of a value first.
-/

namespace PhraseStructure.Draws.ChaCha

/-- The sixteen words of a block. -/
abbrev Block := Vector UInt32 16

/-- Rotates a word to the left by an amount between 1 and 31. -/
def rotateLeft (x amount : UInt32) : UInt32 :=
  (x <<< amount) ||| (x >>> (32 - amount))

/-- Adds one word to another and mixes the sum into a third. -/
def mix (block : Block) (target source mixed : Fin 16) (amount : UInt32) : Block :=
  let sum := block[target] + block[source]
  let turned := rotateLeft (block[mixed] ^^^ sum) amount
  (block.set target sum).set mixed turned

/-- The quarter round on four words of a block. -/
def quarterRound (block : Block) (a b c d : Fin 16) : Block :=
  let block := mix block a b d 16
  let block := mix block c d b 12
  let block := mix block a b d 8
  mix block c d b 7

/-- A round on the columns of a block and one on its diagonals. -/
def doubleRound (block : Block) : Block :=
  let block := quarterRound block 0 4 8 12
  let block := quarterRound block 1 5 9 13
  let block := quarterRound block 2 6 10 14
  let block := quarterRound block 3 7 11 15
  let block := quarterRound block 0 5 10 15
  let block := quarterRound block 1 6 11 12
  let block := quarterRound block 2 7 8 13
  quarterRound block 3 4 9 14

def constants : Vector UInt32 4 :=
  #v[0x61707865, 0x3320646E, 0x79622D32, 0x6B206574]

/-- The words that every block ends with: its number in two words, and two zeros. -/
def tail (counter : UInt64) : Vector UInt32 4 :=
  #v[counter.toUInt32, (counter >>> 32).toUInt32, 0, 0]

/-- The block before its rounds. -/
def start (key : Vector UInt32 8) (counter : UInt64) : Block :=
  constants ++ key ++ tail counter

/-- The block with a given number: six double rounds, and the words before them added. -/
def block (key : Vector UInt32 8) (counter : UInt64) : Block :=
  let before := start key counter
  let after := (List.range 6).foldl (fun block _ => doubleRound block) before
  before.zipWith (· + ·) after

/-- One step of the generator that stretches a seed. -/
def stretch (state : UInt64) : UInt64 :=
  state * 6364136223846793005 + 11634580027462260723

/-- The word that a state of this generator stands for: its upper bits folded and rotated to the
right by its top five bits. -/
def wordOf (state : UInt64) : UInt32 :=
  let folded := (((state >>> 18) ^^^ state) >>> 27).toUInt32
  let amount := (state >>> 59).toUInt32
  (folded >>> amount) ||| (folded <<< ((32 - amount) % 32))

def stateAfter (seed : UInt64) : Nat → UInt64
  | 0 => seed
  | steps + 1 => stretch (stateAfter seed steps)

def keyOf (seed : UInt64) : Vector UInt32 8 :=
  Vector.ofFn fun i => wordOf (stateAfter seed (i + 1))

/-- The value at a place of the stream with a given key. -/
def value (key : Vector UInt32 8) (place : Nat) : UInt64 :=
  let words := block key (place / 8).toUInt64
  let low := words.toArray.getD (2 * (place % 8)) 0
  let high := words.toArray.getD (2 * (place % 8) + 1) 0
  low.toUInt64 + high.toUInt64 <<< 32

end ChaCha

/-- The draws of a key of 256 bits. -/
def ofKey (key : Vector UInt32 8) : Draws where
  stream := ChaCha.value key

def ofSeed (seed : UInt64) : Draws :=
  ofKey (ChaCha.keyOf seed)

end PhraseStructure.Draws
