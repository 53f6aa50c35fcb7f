/-!
# Sorting by insertion

The sorts of this library are told by a relation `before` which of two elements must stand before
the other; elements of which neither must stand before the other keep their order. Insertion places
one element after the other: each starts behind those placed so far and moves up as long as it must
stand before its neighbour.

`insertionSort_perm` says that nothing is lost or repeated, whatever the relation.
-/

namespace EvolutionarySearch.Sorting

variable {α : Type} (before : α → α → Bool)

/-- Places an element into a list that is given from the last element upwards. -/
def insertFromEnd (x : α) : List α → List α
  | [] => [x]
  | last :: above =>
    if before x last then last :: insertFromEnd x above else x :: last :: above

/-- Places elements, one after the other, into a list. -/
def insertAll (placed xs : List α) : List α :=
  (xs.foldl (fun fromEnd x => insertFromEnd before x fromEnd) placed.reverse).reverse

/-- Sorts a list by insertion. -/
def insertionSort (xs : List α) : List α := insertAll before [] xs

theorem insertFromEnd_perm (x : α) (xs : List α) :
    (insertFromEnd before x xs).Perm (x :: xs) := by
  induction xs with
  | nil => exact List.Perm.refl _
  | cons last above ih =>
    unfold insertFromEnd
    split
    · exact (ih.cons last).trans (List.Perm.swap x last above)
    · exact List.Perm.refl _

theorem foldl_insertFromEnd_perm (xs fromEnd : List α) :
    (xs.foldl (fun fromEnd x => insertFromEnd before x fromEnd) fromEnd).Perm (xs ++ fromEnd) := by
  induction xs generalizing fromEnd with
  | nil => exact List.Perm.refl _
  | cons x xs ih =>
    exact (ih _).trans
      (((insertFromEnd_perm before x fromEnd).append_left xs).trans List.perm_middle)

theorem insertAll_perm (placed xs : List α) : (insertAll before placed xs).Perm (placed ++ xs) :=
  (List.reverse_perm _).trans
    ((foldl_insertFromEnd_perm before xs placed.reverse).trans
      (((List.reverse_perm placed).append_left xs).trans List.perm_append_comm))

theorem insertionSort_perm (xs : List α) : (insertionSort before xs).Perm xs :=
  insertAll_perm before [] xs

end EvolutionarySearch.Sorting
