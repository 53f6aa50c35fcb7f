import EvolutionarySearch.Sorting.Run

/-!
# Sorting by partition

A long stretch without order is split around a pivot, a rough median, into what must stand before
the pivot and the rest, and both sides are sorted in the same way until they are blocks. Elements
equal to a pivot are recognised, when it comes up again, and need no further sorting. The number of
splits in a row is limited; a stretch that is still too long then is sorted by runs of blocks.

`partitionSort_perm` says that a result holds the elements of the list.
-/

namespace EvolutionarySearch.Sorting

variable {α : Type} (before : α → α → Bool)

/-! ## Pivots -/

/-- Of three places of a list the one whose element stands between the other two. -/
def medianOfThree (get : Nat → α) (a b c : Nat) : Nat :=
  if before (get a) (get b) == before (get a) (get c) then
    if before (get b) (get c) == before (get a) (get b) then b else c
  else a

/--
The place of a rough median of the `8 * n` elements from a place on: the median of the first, the
fifth and the eighth part, each of which is looked at in the same way while it is long enough.
-/
def roughMedian (get : Nat → α) (n start : Nat) : Nat :=
  if 8 ≤ n then
    medianOfThree before get (roughMedian get (n / 8) start)
      (roughMedian get (n / 8) (start + 4 * n)) (roughMedian get (n / 8) (start + 7 * n))
  else medianOfThree before get start (start + 4 * n) (start + 7 * n)
termination_by n
decreasing_by all_goals omega

theorem medianOfThree_eq (get : Nat → α) (a b c : Nat) :
    medianOfThree before get a b c = a ∨ medianOfThree before get a b c = b
      ∨ medianOfThree before get a b c = c := by
  unfold medianOfThree
  split
  · split
    · exact .inr (.inl rfl)
    · exact .inr (.inr rfl)
  · exact .inl rfl

/-- A rough median is one of the elements that it is the median of. -/
theorem roughMedian_lt (get : Nat → α) {n : Nat} (hn : 0 < n) (start : Nat) :
    roughMedian before get n start < start + 8 * n := by
  induction n using Nat.strongRecOn generalizing start with
  | ind n ih =>
    rw [roughMedian]
    split
    · have hpart (from' : Nat) := ih (n / 8) (by omega) (by omega) from'
      have h0 := hpart start
      have h4 := hpart (start + 4 * n)
      have h7 := hpart (start + 7 * n)
      rcases medianOfThree_eq before get (roughMedian before get (n / 8) start)
        (roughMedian before get (n / 8) (start + 4 * n))
        (roughMedian before get (n / 8) (start + 7 * n)) with h | h | h <;> omega
    · rcases medianOfThree_eq before get start (start + 4 * n) (start + 7 * n) with h | h | h <;>
        omega

/-! ## Partitions -/

/-- A list with one of its elements, the pivot, singled out. -/
structure Pivoted (α : Type) where
  head : List α
  pivot : α
  tail : List α

namespace Pivoted

/-- The whole list. -/
def toList (p : Pivoted α) : List α := p.head ++ p.pivot :: p.tail

/-- Singles out a rough median of a list that begins with `x`. -/
def ofList (x : α) (xs : List α) : Pivoted α :=
  let place := roughMedian before (fun i => (x :: xs).getD i x) ((xs.length + 1) / 8) 0
  { head := (x :: xs).take place
    pivot := (x :: xs).getD place x
    tail := (x :: xs).drop (place + 1) }

/-- What must stand before the pivot. -/
def lower (p : Pivoted α) : List α :=
  p.head.filter (before · p.pivot) ++ p.tail.filter (before · p.pivot)

/-- The rest, the pivot included. -/
def notLower (p : Pivoted α) : List α :=
  p.head.filter (!before · p.pivot) ++ p.pivot :: p.tail.filter (!before · p.pivot)

/-- What the pivot must stand before. -/
def upper (p : Pivoted α) : List α :=
  p.head.filter (before p.pivot ·) ++ p.tail.filter (before p.pivot ·)

/-- The rest, the pivot included. -/
def notUpper (p : Pivoted α) : List α :=
  p.head.filter (!before p.pivot ·) ++ p.pivot :: p.tail.filter (!before p.pivot ·)

theorem toList_ofList {x : α} {xs : List α} (h : 7 ≤ xs.length) :
    (ofList before x xs).toList = x :: xs := by
  have hplace := roughMedian_lt before (fun i => (x :: xs).getD i x)
    (show 0 < (xs.length + 1) / 8 by omega) 0
  unfold toList ofList
  dsimp only
  generalize roughMedian before (fun i => (x :: xs).getD i x) ((xs.length + 1) / 8) 0 = place at *
  have hlength : place < (x :: xs).length := by rw [List.length_cons]; omega
  rw [List.getD_eq_getElem?_getD, List.getElem?_eq_getElem hlength, Option.getD_some,
    ← List.drop_eq_getElem_cons hlength, List.take_append_drop]

/-- The two sides of a partition hold all elements. -/
theorem sides_perm (test : α → Bool) (p : Pivoted α) :
    (p.head.filter test ++ p.tail.filter test
      ++ (p.head.filter (!test ·) ++ p.pivot :: p.tail.filter (!test ·))).Perm p.toList := by
  have hhead := List.filter_append_perm test p.head
  have htail := List.filter_append_perm test p.tail
  generalize p.tail.filter (!test ·) = tailRest at *
  rw [List.append_assoc, toList]
  refine List.Perm.trans ?_ (hhead.append (htail.cons p.pivot))
  rw [List.append_assoc]
  refine List.Perm.append_left _ ?_
  refine (List.perm_append_comm_assoc _ _ _).trans (List.Perm.append_left _ ?_)
  exact List.perm_middle

theorem lower_append_notLower_perm (p : Pivoted α) :
    (p.lower before ++ p.notLower before).Perm p.toList := sides_perm _ p

theorem notUpper_append_upper_perm (p : Pivoted α) :
    (p.notUpper before ++ p.upper before).Perm p.toList :=
  List.perm_append_comm.trans (sides_perm (before p.pivot ·) p)

end Pivoted

/--
Sorts a list by partition around a pivot. When a pivot does not stand behind the pivot on whose
right side the list lies, or nothing stands before it, all that does not stand behind it is put
aside in order. After `limit` partitions the rest is sorted by runs of blocks.
-/
def partitionSort : Nat → Option α → List α → Option (List α)
  | 0, _, xs =>
    if xs.length ≤ blockLength then sortBlock before xs else sortByBlocks before xs
  | _ + 1, _, [] => some []
  | limit + 1, ancestor, x :: xs =>
    if xs.length < blockLength then sortBlock before (x :: xs)
    else
      let p := Pivoted.ofList before x xs
      if ancestor.any (fun a => !before a p.pivot) || (p.lower before).isEmpty then
        (partitionSort limit none (p.upper before)).map (p.notUpper before ++ ·)
      else
        (partitionSort limit ancestor (p.lower before)).bind fun lower =>
          (partitionSort limit (some p.pivot) (p.notLower before)).map (lower ++ ·)

theorem partitionSort_perm (limit : Nat) (ancestor : Option α) :
    Keeps (partitionSort before limit ancestor) := by
  induction limit generalizing ancestor with
  | zero =>
    intro xs sorted h
    unfold partitionSort at h
    split at h
    · exact sortBlock_perm before h
    · exact sortByBlocks_perm before _ _ h
  | succ limit ih =>
    intro xs sorted h
    cases xs with
    | nil => rw [← Option.some.inj h]
    | cons x xs =>
      unfold partitionSort at h
      split at h
      · exact sortBlock_perm before h
      · next hlong =>
        have hwhole := Pivoted.toList_ofList before
          (show 7 ≤ xs.length by unfold blockLength at hlong; omega) (x := x)
        dsimp only at h
        generalize Pivoted.ofList before x xs = p at *
        rw [← hwhole]
        split at h
        · obtain ⟨upper, hupper, rfl⟩ := Option.map_eq_some_iff.1 h
          exact ((ih _ _ _ hupper).append_left _).trans (p.notUpper_append_upper_perm before)
        · obtain ⟨lower, hlower, h⟩ := Option.bind_eq_some_iff.1 h
          obtain ⟨rest, hrest, rfl⟩ := Option.map_eq_some_iff.1 h
          exact ((ih _ _ _ hlower).append (ih _ _ _ hrest)).trans
            (p.lower_append_notLower_perm before)

/-- Sorts an unsorted stretch of a long list. -/
def sortLong (xs : List α) : Option (List α) :=
  partitionSort before (2 * Nat.log2 xs.length) none xs

theorem sortLong_perm : Keeps (sortLong before) := fun _ _ h => partitionSort_perm before _ _ _ _ h

end EvolutionarySearch.Sorting
