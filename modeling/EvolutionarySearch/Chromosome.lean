/-!
# Chromosomes

The unit of search: a sequence of genes with its fitness, the operator that built it and its age.
-/

namespace EvolutionarySearch

/-- The operator that built a chromosome. -/
inductive Strategy where
  /-- Built from nothing. -/
  | create
  /-- Derived from one parent. -/
  | mutate
  /-- Combined from a parent and a donor. -/
  | crossover
  /-- Built outside the engine. -/
  | none
  deriving DecidableEq, Repr

/-- The name of an operator. -/
def Strategy.name : Strategy → String
  | .create => "Create"
  | .mutate => "Mutate"
  | .crossover => "Crossover"
  | .none => "None"

/--
A candidate solution. Its fitness is that of its genes; only the age changes while it sits in a
pool.
-/
structure Chromosome (Gene Fitness : Type) where
  genes : List Gene
  fitness : Fitness
  /-- The operator that built it. -/
  strategy : Strategy
  /-- How often its slot has been visited without success. -/
  age : Nat := 0
  deriving BEq, DecidableEq, Repr

/-- What a search answers. -/
inductive Improvement (Gene Fitness : Type) where
  /-- A chromosome better than all before it. -/
  | better (chromosome : Chromosome Gene Fitness)
  /-- The time is up; carries the best chromosome so far. -/
  | timedOut (chromosome : Chromosome Gene Fitness)
  deriving BEq, DecidableEq, Repr

variable {Gene Fitness : Type}

/-- The chromosome of an answer. -/
def Improvement.chromosome : Improvement Gene Fitness → Chromosome Gene Fitness
  | .better chromosome => chromosome
  | .timedOut chromosome => chromosome

/-- Whether an answer says that the time is up. -/
def Improvement.isTimeout : Improvement Gene Fitness → Bool
  | .better _ => false
  | .timedOut _ => true

end EvolutionarySearch
