import EvolutionarySearch.Sorting.Partition

/-!
# A stable sort

The sort of this library. Short lists are sorted by insertion, lists of middle length by runs of
sorted blocks, long ones by runs whose unsorted stretches are partitioned around pivots.

All ways of sorting stably agree when `before` is a strict order of ranks. When it is not, because
some elements cannot be compared, the result depends on which elements meet; so the scheme of
comparisons is part of what these modules say. A contradiction that shows in a merge leaves no
result.

`stableSort_perm` says that a result holds the elements of the list, whatever the relation.
-/

namespace EvolutionarySearch.Sorting

variable {α : Type} (before : α → α → Bool)

/-- Sorts a list. -/
def stableSort (xs : List α) : Option (List α) :=
  if xs.length ≤ 20 then some (insertionSort before xs)
  else if xs.length ≤ 2 * blockLength then sortByBlocks before xs
  else sortRuns before false (sortLong before) xs

/-- A sorted list holds the elements of the list. -/
theorem stableSort_perm : Keeps (stableSort before) := by
  intro xs sorted h
  unfold stableSort at h
  split at h
  · rw [← Option.some.inj h]
    exact insertionSort_perm before xs
  · split at h
    · exact sortByBlocks_perm before _ _ h
    · exact sortRuns_perm before (sortLong_perm before) _ _ h

end EvolutionarySearch.Sorting
