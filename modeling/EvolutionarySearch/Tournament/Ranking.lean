import EvolutionarySearch.Sorting.Stable
import EvolutionarySearch.Tournament.Round

/-!
# Ranking

Members are ranked by key, the highest first; members of equal rank keep the order of the
population. Keys that cannot be compared count as equal to each other, which may contradict the
order of other keys: then the ranking follows the comparisons that the sort happens to make, and
there is none if they cannot be reconciled.

`ranking_perm` says that a ranking holds every entrant once.
-/

namespace EvolutionarySearch.Tournament

variable {ω Member Key : Type} [PartialCompare Key]

/-- Ranks the entrants of a population by the keys of a problem. -/
def ranking (p : Problem ω Member Key) (population : Array (Entrant Member)) :
    Option (List (Key × Entrant Member)) :=
  Sorting.stableSort (fun a b => beats a.1 b.1)
    (population.toList.map fun entrant => (p.key entrant.member entrant.record, entrant))

/-- A ranking holds the entrants of the population. -/
theorem ranking_perm {p : Problem ω Member Key} {population : Array (Entrant Member)}
    {ranked : List (Key × Entrant Member)} (h : ranking p population = some ranked) :
    (ranked.map (·.2)).Perm population.toList := by
  have hperm := (Sorting.stableSort_perm _ _ _ h).map (·.2)
  simpa only [List.map_map, Function.comp_def, List.map_id'] using hperm

end EvolutionarySearch.Tournament
