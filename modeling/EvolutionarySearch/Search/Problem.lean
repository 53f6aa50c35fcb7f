import EvolutionarySearch.Error
import EvolutionarySearch.GeneSet
import EvolutionarySearch.Chromosome
import EvolutionarySearch.Clock

/-!
# Problems of a search

A problem says which genes there are, how good a sequence of genes is and when it is good enough.
It may bring operators of its own, which read and change the world that is threaded through the run.
Fitness is compared by `Ord` and in no other way; higher is better.

`Problem.sampling` is the problem without operators of its own: candidates are sampled from the gene
set, one gene is changed at a time, and nothing is recombined.

A candidate comes with the time at which its evaluation began, so that what a search does after a
deadline can be told from its steps.
-/

namespace EvolutionarySearch.Search

variable {ω Gene Fitness : Type}

/-- A search problem over the worlds `ω`. -/
structure Problem (ω Gene Fitness : Type) where
  /-- The legal genes, for sampling and for changing one gene. -/
  geneSet : GeneSet Gene
  /-- How good a sequence of genes is. -/
  fitness : List Gene → Fitness
  /-- The fitness at which a run is content. -/
  optimal : Fitness
  /-- Builds a sequence from nothing; `none` asks for one sampled from the gene set. -/
  create : ω → Option (List Gene) × ω := fun w => (none, w)
  /-- Changes a copy of a parent's genes. -/
  mutate : List Gene → ω → List Gene × ω
  /-- Whether children are also recombined from two parents. -/
  recombines : Bool := false
  /-- Combines a parent with a donor; `none` when the two are indistinguishable. -/
  crossover : List Gene → List Gene → ω → Option (List Gene) × ω := fun _ _ w => (none, w)
  /-- Shows an answer of a run, with the time since its start. -/
  display : Chromosome Gene Fitness → Duration → ω → ω := fun _ _ w => w

/-- The problem that samples candidates from a gene set and changes one gene at a time. -/
def Problem.sampling [WordSource ω] [BEq Gene] (geneSet : GeneSet Gene)
    (fitness : List Gene → Fitness) (optimal : Fitness) : Problem ω Gene Fitness where
  geneSet := geneSet
  fitness := fitness
  optimal := optimal
  mutate := GeneSet.vary geneSet

/-! ## Evaluated candidates -/

/-- A candidate and the time at which its evaluation began. -/
structure Evaluation (Gene Fitness : Type) where
  chromosome : Chromosome Gene Fitness
  began : Duration
  deriving DecidableEq, Repr

/-- Evaluates a sequence of genes that an operator has built. -/
def Problem.evaluate [Clock ω] (p : Problem ω Gene Fitness) (strategy : Strategy)
    (genes : List Gene) (w : ω) : Evaluation Gene Fitness where
  chromosome := { genes := genes, fitness := p.fitness genes, strategy := strategy }
  began := Clock.now w

/--
Builds a candidate from nothing: with the problem's own operator, or else sampled from the gene set,
which takes a gene set and a length.
-/
def Problem.generate [WordSource ω] [Clock ω] (p : Problem ω Gene Fitness) (length : Nat) (w : ω) :
    Except SearchError (Evaluation Gene Fitness) × ω :=
  match p.create w with
  | (some genes, w) => (.ok (p.evaluate .create genes w), w)
  | (none, w) =>
    if p.geneSet.isEmpty then (.error .emptyGeneSet, w)
    else if length = 0 then (.error (.invalidConfig .zeroTargetLength), w)
    else
      let sampled := GeneSet.sample p.geneSet length w
      (.ok (p.evaluate .create sampled.1 sampled.2), sampled.2)

/-- Builds a candidate from one parent. -/
def Problem.derive [Clock ω] (p : Problem ω Gene Fitness) (parent : Chromosome Gene Fitness)
    (w : ω) : Evaluation Gene Fitness × ω :=
  let mutated := p.mutate parent.genes w
  (p.evaluate .mutate mutated.1 mutated.2, mutated.2)

end EvolutionarySearch.Search
