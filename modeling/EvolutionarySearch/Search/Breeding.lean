import EvolutionarySearch.Search.Problem
import EvolutionarySearch.Search.Repertoire
import EvolutionarySearch.Search.Note

/-!
# Breeding a child

One child of a parent in the pool, by an operator drawn from the repertoire. Nothing here changes
the pool: when a donor turns out to be indistinguishable from the parent, the fresh candidate for
its slot is part of the offspring, and if that candidate cannot be built there is no offspring.

`donorSlot_ne` says that a donor is another slot than the parent's wherever there is one.
-/

namespace EvolutionarySearch.Search

variable {ω Gene Fitness : Type}

/-- What an operator has produced from a parent. -/
structure Offspring (Gene Fitness : Type) where
  child : Evaluation Gene Fitness
  /-- A slot whose chromosome is exhausted, with the candidate that replaces it. -/
  refill : Option (Nat × Evaluation Gene Fitness) := none

/-- The candidates of an offspring, in the order of their evaluation. -/
def Offspring.evaluated (offspring : Offspring Gene Fitness) : List (Evaluation Gene Fitness) :=
  (offspring.refill.map (·.2)).toList ++ [offspring.child]

/-- How an attempt at a child has ended. -/
structure Breeding (ω Gene Fitness : Type) where
  outcome : Except SearchError (Offspring Gene Fitness)
  /-- What is to be reported, also when the attempt has failed. -/
  notes : Array (Note Fitness) := #[]
  world : ω

/-! ## Recombination -/

/-- The slot of the donor: the drawn one, or its neighbour when that is the parent's own. -/
def donorSlot (poolSize slot drawn : Nat) : Nat :=
  if drawn = slot then (drawn + 1) % poolSize else drawn

theorem donorSlot_lt {poolSize slot drawn : Nat} (h : drawn < poolSize) :
    donorSlot poolSize slot drawn < poolSize := by
  unfold donorSlot
  split
  · exact Nat.mod_lt _ (by omega)
  · exact h

theorem donorSlot_ne {poolSize slot drawn : Nat} (hpool : 2 ≤ poolSize) (h : drawn < poolSize) :
    donorSlot poolSize slot drawn ≠ slot := by
  unfold donorSlot
  split
  · next heq =>
    subst heq
    by_cases hlast : drawn + 1 = poolSize
    · rw [hlast, Nat.mod_self]; omega
    · rw [Nat.mod_eq_of_lt (by omega)]; omega
  · next hne => exact hne

variable [WordSource ω] [Clock ω]

/--
Recombines a parent with a random donor of the pool. When the problem cannot tell the two apart, a
fresh candidate is built for the donor's slot and the parent is mutated instead.
-/
def recombine (p : Problem ω Gene Fitness) (length : Nat)
    (pool : Array (Chromosome Gene Fitness)) (slot : Nat) (parent : Chromosome Gene Fitness)
    (w : ω) : Breeding ω Gene Fitness :=
  let drawn := Random.below pool.size w
  let donor := donorSlot pool.size slot drawn.1
  match p.crossover parent.genes (pool.getD donor parent).genes drawn.2 with
  | (some genes, w) => { outcome := .ok { child := p.evaluate .crossover genes w }, world := w }
  | (none, w) =>
    match p.generate length w with
    | (.error error, w) =>
      { outcome := .error error, notes := #[.donorExhausted donor], world := w }
    | (.ok fresh, w) =>
      let derived := p.derive parent w
      { outcome := .ok { child := derived.1, refill := some (donor, fresh) }
        notes := #[.donorExhausted donor]
        world := derived.2 }

/-! ## Any operator -/

/-- Produces a child of the parent in a slot, by an operator drawn from the repertoire. -/
def breed (p : Problem ω Gene Fitness) (length : Nat) (repertoire : Repertoire)
    (pool : Array (Chromosome Gene Fitness)) (slot : Nat) (parent : Chromosome Gene Fitness)
    (w : ω) : Breeding ω Gene Fitness :=
  match repertoire.draw w with
  | (.crossover, w) => recombine p length pool slot parent w
  | (.create, w) =>
    let generated := p.generate length w
    { outcome := generated.1.map fun child => { child := child }, world := generated.2 }
  | (_, w) =>
    let derived := p.derive parent w
    { outcome := .ok { child := derived.1 }, world := derived.2 }

end EvolutionarySearch.Search
