import EvolutionarySearch.Chromosome
import EvolutionarySearch.Random.Draw

/-!
# The repertoire of operators

The operator of every global best is appended to a list, and the operator of the next child is drawn
uniformly from that list. So an operator is as likely as it has been successful; nothing is ever
forgotten. Without recombination children are always mutated, and the list only serves as a record.
-/

namespace EvolutionarySearch.Search

/-- How often each operator is on the list of a repertoire. -/
structure Usage where
  create : Nat
  mutate : Nat
  crossover : Nat
  deriving DecidableEq, Repr

/-- The length of the list. -/
def Usage.total (usage : Usage) : Nat := usage.create + usage.mutate + usage.crossover

/-- The operators from which that of the next child is drawn. -/
structure Repertoire where
  /-- The list. -/
  used : Array Strategy
  /-- Whether there is a choice at all. -/
  recombines : Bool
  deriving DecidableEq, Repr

namespace Repertoire

/-- The list starts with one mutation, and one crossover if parents are recombined. -/
def initial (recombines : Bool) : Repertoire where
  used := if recombines then #[.mutate, .crossover] else #[.mutate]
  recombines := recombines

/-- Credits the operator of a new global best. What was built outside the engine gets no credit. -/
def credit (repertoire : Repertoire) (strategy : Strategy) : Repertoire :=
  if strategy = .none then repertoire
  else { repertoire with used := repertoire.used.push strategy }

/-- Draws the operator of the next child. Without recombination nothing is drawn. -/
def draw {ω : Type} [WordSource ω] (repertoire : Repertoire) (w : ω) : Strategy × ω :=
  if repertoire.recombines then
    let drawn := Random.below repertoire.used.size w
    (repertoire.used.getD drawn.1 .mutate, drawn.2)
  else (.mutate, w)

/-- Counts the operators on the list. -/
def usage (repertoire : Repertoire) : Usage where
  create := repertoire.used.count .create
  mutate := repertoire.used.count .mutate
  crossover := repertoire.used.count .crossover

end Repertoire

end EvolutionarySearch.Search
