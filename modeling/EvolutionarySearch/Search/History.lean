import EvolutionarySearch.Error

/-!
# History of the best

The fitness of every global best of a run, in ascending order. It is the measure by which a worse
child is accepted: the more of the bests so far are at or above it, the less likely.
-/

namespace EvolutionarySearch.Search

/-- The fitness of every global best so far, ascending. -/
structure History (Fitness : Type) where
  values : Array Fitness
  deriving DecidableEq, Repr

variable {Fitness : Type}

namespace History

/-- The history of a run with its first best. -/
def ofFirst (fitness : Fitness) : History Fitness := ⟨#[fitness]⟩

/-- The number of bests. -/
def size (history : History Fitness) : Nat := history.values.size

variable [Ord Fitness]

/-- Appends a new best. One below the last is refused. -/
def push (history : History Fitness) (fitness : Fitness) : Except SearchError (History Fitness) :=
  if history.values.back?.all fun last => (compare last fitness).isLE then
    .ok ⟨history.values.push fitness⟩
  else .error .unorderedHistory

/-- The leftmost position at which a fitness could be inserted in order. -/
def position (history : History Fitness) (fitness : Fitness) : Nat :=
  history.values.toList.findIdx fun past => !(compare past fitness).isLT

/-- The number of bests at or above a fitness. -/
def atOrAbove (history : History Fitness) (fitness : Fitness) : Nat :=
  history.size - history.position fitness

/-- The share of bests at or above a fitness. -/
def share (history : History Fitness) (fitness : Fitness) : Float :=
  if history.values.isEmpty then 0
  else (history.atOrAbove fitness).toFloat / history.size.toFloat

end History

/-- The probability of accepting a worse child, from the share of bests at or above it. -/
def acceptanceOf (share : Float) : Float := Float.exp (-share)

/-- The probability of accepting a worse child. -/
def History.acceptance [Ord Fitness] (history : History Fitness) (fitness : Fitness) : Float :=
  acceptanceOf (history.share fitness)

end EvolutionarySearch.Search
