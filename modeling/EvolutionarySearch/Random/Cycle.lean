import EvolutionarySearch.Random.Word

/-!
# A fixed cycle of words

The simplest source: a list of 64-bit words, read in order and from the start again after the last.
It makes a run follow any script of draws. A 32-bit request is answered with the low half of one
word. An empty list is read as a single zero.
-/

namespace EvolutionarySearch.Random

/-- Words read in turn. -/
structure Cycle where
  /-- The whole cycle. -/
  words : List UInt64
  /-- The words not yet read in this round. -/
  unread : List UInt64 := words
  deriving DecidableEq, Repr

/-- Reads the next word, starting over at the end. -/
def Cycle.next (cycle : Cycle) : UInt64 × Cycle :=
  match cycle.unread with
  | word :: rest => (word, { cycle with unread := rest })
  | [] => (cycle.words.headD 0, { cycle with unread := cycle.words.tail })

instance : WordSource Cycle where
  next32 cycle := (cycle.next.1.toUInt32, cycle.next.2)
  next64 cycle := cycle.next

end EvolutionarySearch.Random
