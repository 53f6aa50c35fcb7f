import EvolutionarySearch.Random.Word

/-!
# The seeded keystream

The source behind a seed: the keystream of ChaCha with twelve rounds. A 64-bit seed is stretched to
a key of eight words by a permuted congruential generator; the key and a block counter give blocks
of sixteen words, and the words of the blocks, in order, form one stream. A 32-bit request reads the
next word of the stream, a 64-bit request the next two, the first being the low half, also across
the end of a block.
-/

namespace EvolutionarySearch.Random

/-! ## Blocks -/

/-- Rotates a word to the left by `0 < n < 32` bits. -/
def rotateLeft (x n : UInt32) : UInt32 := (x <<< n) ||| (x >>> (32 - n))

/-- One quarter round on four words of the block. -/
def quarterRound (a b c d : Fin 16) (s : Vector UInt32 16) : Vector UInt32 16 :=
  let s := s.set a (s[a] + s[b])
  let s := s.set d (rotateLeft (s[d] ^^^ s[a]) 16)
  let s := s.set c (s[c] + s[d])
  let s := s.set b (rotateLeft (s[b] ^^^ s[c]) 12)
  let s := s.set a (s[a] + s[b])
  let s := s.set d (rotateLeft (s[d] ^^^ s[a]) 8)
  let s := s.set c (s[c] + s[d])
  s.set b (rotateLeft (s[b] ^^^ s[c]) 7)

/-- Two rounds: the four columns, then the four diagonals. -/
def doubleRound (s : Vector UInt32 16) : Vector UInt32 16 :=
  let s := quarterRound 0 4 8 12 s
  let s := quarterRound 1 5 9 13 s
  let s := quarterRound 2 6 10 14 s
  let s := quarterRound 3 7 11 15 s
  let s := quarterRound 0 5 10 15 s
  let s := quarterRound 1 6 11 12 s
  let s := quarterRound 2 7 8 13 s
  quarterRound 3 4 9 14 s

/--
The words that are mixed into a block: the constant "expand 32-byte k", the key, the block's number
(low half first) and a zero nonce.
-/
def blockInput (key : Vector UInt32 8) (counter : UInt64) : Vector UInt32 16 :=
  #v[0x61707865, 0x3320646e, 0x79622d32, 0x6b206574,
    key[0], key[1], key[2], key[3], key[4], key[5], key[6], key[7],
    counter.toUInt32, (counter >>> 32).toUInt32, 0, 0]

/-- The block with a given number: its input after twelve rounds, added to the input. -/
def block (key : Vector UInt32 8) (counter : UInt64) : Vector UInt32 16 :=
  let input := blockInput key counter
  Vector.zipWith (· + ·) input (Nat.repeat doubleRound 6 input)

/-! ## The stream -/

/-- A position in a keystream. -/
structure Keystream where
  key : Vector UInt32 8
  /-- The number of the block after the current one. -/
  counter : UInt64 := 0
  /-- The words of the current block that have not been read. -/
  unread : List UInt32 := []

/-- Reads the next word of the stream, entering a new block when the current one is used up. -/
def Keystream.next (stream : Keystream) : UInt32 × Keystream :=
  match stream.unread with
  | word :: rest => (word, { stream with unread := rest })
  | [] =>
    let words := block stream.key stream.counter
    (words[0], { stream with counter := stream.counter + 1, unread := words.toList.drop 1 })

/-- Reads two words of the stream, the low half first. -/
def Keystream.nextPair (stream : Keystream) : UInt64 × Keystream :=
  let low := stream.next
  let high := low.2.next
  ((high.1.toUInt64 <<< 32) ||| low.1.toUInt64, high.2)

instance : WordSource Keystream where
  next32 stream := stream.next
  next64 stream := stream.nextPair

/-! ## Seeds -/

/-- One step of the congruential generator that stretches a seed. -/
def advanceSeed (seed : UInt64) : UInt64 := seed * 6364136223846793005 + 11634580027462260723

/-- The key word of a generator state: high bits folded down, then rotated by the five highest. -/
def keyWord (seed : UInt64) : UInt32 :=
  let folded := (((seed >>> 18) ^^^ seed) >>> 27).toUInt32
  let turn := (seed >>> 59).toUInt32
  (folded >>> turn) ||| (folded <<< ((32 - turn) % 32))

/-- The generator state after `n + 1` steps from a seed. -/
def seedState (seed : UInt64) (n : Nat) : UInt64 := Nat.repeat advanceSeed (n + 1) seed

/-- The keystream of a seed, from its start. -/
def Keystream.ofSeed (seed : UInt64) : Keystream where
  key := Vector.ofFn fun i => keyWord (seedState seed i)

end EvolutionarySearch.Random
