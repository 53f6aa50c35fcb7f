import EvolutionarySearch.Sorting.Insertion
import EvolutionarySearch.Sorting.Merge

/-!
# Sorting a block

A block is a list of at most 32 elements. It is sorted in two halves, which are merged from both
ends. A half starts from its first four elements, put in order by five comparisons, and takes in the
others by insertion.

`sortBlock_perm` says that a block keeps its elements.
-/

namespace EvolutionarySearch.Sorting

variable {α : Type} (before : α → α → Bool)

/-- The length of the longest block. -/
def blockLength : Nat := 32

/-- Two elements in order. -/
def sortTwo (a b : α) : α × α := if before b a then (b, a) else (a, b)

/-- An element, two elements in order and an element. -/
def sortInner (first a b last : α) : List α :=
  [first, (sortTwo before a b).1, (sortTwo before a b).2, last]

/--
Four elements in order. Two pairs are put in order; their first elements are compared, and their
last; the two elements that are then neither first nor last are put in order.
-/
def sortFour (a b c d : α) : List α :=
  let one := sortTwo before a b
  let two := sortTwo before c d
  if before two.1 one.1 then
    if before two.2 one.2 then sortInner before two.1 one.1 two.2 one.2
    else sortInner before two.1 one.1 one.2 two.2
  else
    if before two.2 one.2 then sortInner before one.1 two.1 two.2 one.2
    else sortInner before one.1 one.2 two.1 two.2

theorem sortInner_perm (first a b last : α) :
    (sortInner before first a b last).Perm [first, a, b, last] := by
  unfold sortInner sortTwo
  split
  · exact (List.Perm.swap a b [last]).cons first
  · exact List.Perm.refl _

theorem sortFour_perm (a b c d : α) : (sortFour before a b c d).Perm [a, b, c, d] := by
  have hone : [(sortTwo before a b).1, (sortTwo before a b).2].Perm [a, b] := by
    unfold sortTwo
    split
    · exact List.Perm.swap a b []
    · exact List.Perm.refl _
  have htwo : [(sortTwo before c d).1, (sortTwo before c d).2].Perm [c, d] := by
    unfold sortTwo
    split
    · exact List.Perm.swap c d []
    · exact List.Perm.refl _
  have hpairs := hone.append htwo
  unfold sortFour
  dsimp only
  generalize sortTwo before a b = one at *
  generalize sortTwo before c d = two at *
  have hlast : [two.1, two.2, one.2].Perm [one.2, two.1, two.2] :=
    List.perm_append_comm_assoc [two.1, two.2] [one.2] []
  split <;> split <;> refine (sortInner_perm before _ _ _ _).trans (List.Perm.trans ?_ hpairs)
  · exact (List.Perm.swap one.1 two.1 _).trans (hlast.cons one.1)
  · exact List.perm_append_comm_assoc [two.1] [one.1, one.2] [two.2]
  · exact hlast.cons one.1
  · exact List.Perm.refl _

/-- Sorts half of a block. -/
def sortHalf : List α → List α
  | a :: b :: c :: d :: rest => insertAll before (sortFour before a b c d) rest
  | few => insertionSort before few

theorem sortHalf_perm (xs : List α) : (sortHalf before xs).Perm xs := by
  unfold sortHalf
  split
  · next a b c d rest =>
    exact (insertAll_perm before _ rest).trans
      ((sortFour_perm before a b c d).append_right rest)
  · exact insertionSort_perm before _

/-- Sorts a block, if the halves can be merged. The halves of a short block are all inserted. -/
def sortBlock (xs : List α) : Option (List α) :=
  let left := xs.take (xs.length / 2)
  let right := xs.drop (xs.length / 2)
  if xs.length < 2 then some xs
  else if xs.length < 8 then
    mergeHalves before (insertionSort before left) (insertionSort before right)
  else mergeHalves before (sortHalf before left) (sortHalf before right)

/-- A block keeps its elements. -/
theorem sortBlock_perm {xs sorted : List α} (h : sortBlock before xs = some sorted) :
    sorted.Perm xs := by
  have hhalves {left right : List α} (hleft : left.Perm (xs.take (xs.length / 2)))
      (hright : right.Perm (xs.drop (xs.length / 2)))
      (hmerge : mergeHalves before left right = some sorted) : sorted.Perm xs := by
    have hlength : left.length ≤ right.length := by
      rw [hleft.length_eq, hright.length_eq, List.length_take, List.length_drop]
      omega
    have hwhole := (mergeHalves_perm before hlength hmerge).trans (hleft.append hright)
    rwa [List.take_append_drop] at hwhole
  unfold sortBlock at h
  dsimp only at h
  split at h
  · rw [Option.some.inj h]
  · split at h
    · exact hhalves (insertionSort_perm before _) (insertionSort_perm before _) h
    · exact hhalves (sortHalf_perm before _) (sortHalf_perm before _) h

end EvolutionarySearch.Sorting
