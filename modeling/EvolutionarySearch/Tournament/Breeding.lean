import EvolutionarySearch.Tournament.Round

/-!
# Breeding a generation

The next population: a child of every ordered pair of different parents, then the parents, then one
newcomer, all with empty records. The random source is threaded through in that order.
-/

namespace EvolutionarySearch.Tournament

variable {ω Member Key : Type}

/-- Makes a number of members from nothing. -/
def generateAll (p : Problem ω Member Key) : Nat → ω → List Member × ω
  | 0, w => ([], w)
  | count + 1, w =>
    let first := p.generate w
    let rest := generateAll p count first.2
    (first.1 :: rest.1, rest.2)

/-- Breeds one child of each pair, in turn. -/
def crossAll (p : Problem ω Member Key) : List (Member × Member) → ω → List Member × ω
  | [], w => ([], w)
  | pair :: pairs, w =>
    let first := p.crossover pair.1 pair.2 w
    let rest := crossAll p pairs first.2
    (first.1 :: rest.1, rest.2)

/-- A population in which nobody has played. -/
def freshPopulation (members : List Member) : Array (Entrant Member) :=
  (members.map fun member => { member := member }).toArray

/-- The population that the parents, given by rank, leave behind. -/
def nextPopulation (p : Problem ω Member Key) (parents : List Member) (w : ω) :
    Array (Entrant Member) × ω :=
  let pairs := (orderedPairs parents.zipIdx).map fun pair => (pair.1.1, pair.2.1)
  let children := crossAll p pairs w
  let newcomer := p.generate children.2
  (freshPopulation (children.1 ++ parents ++ [newcomer.1]), newcomer.2)

end EvolutionarySearch.Tournament
