/-!
# Merging

A merge takes the elements of two lists in turn, from the front or from the back. From the front it
takes the head of the left list unless the head of the right one must stand before it; from the back
it takes the last of the right list unless that must stand before the last of the left.

When `before` is an order both give the same list. When it is not, they may differ, and a merge that
works from both ends at once may find that its halves do not fit together.

`merge_perm` and `mergeHalves_perm` say that a merged list holds the elements of both.
-/

namespace EvolutionarySearch.Sorting

variable {α : Type} (before : α → α → Bool)

/-! ## From one end -/

/-- Merges two lists from the front. -/
def mergeForward (left right : List α) : List α := left.merge right fun l r => !before r l

/-- Merges two lists from the back. -/
def mergeBackward (left right : List α) : List α :=
  (mergeForward (fun a b => before b a) right.reverse left.reverse).reverse

/-- Merges two lists from the end at which the shorter one stands. -/
def merge (left right : List α) : List α :=
  if left.length ≤ right.length then mergeForward before left right
  else mergeBackward before left right

theorem mergeForward_perm (left right : List α) :
    (mergeForward before left right).Perm (left ++ right) := List.merge_perm_append _

theorem mergeBackward_perm (left right : List α) :
    (mergeBackward before left right).Perm (left ++ right) :=
  (List.reverse_perm _).trans
    ((mergeForward_perm _ _ _).trans
      (((List.reverse_perm right).append (List.reverse_perm left)).trans List.perm_append_comm))

theorem merge_perm (left right : List α) : (merge before left right).Perm (left ++ right) := by
  unfold merge
  split
  · exact mergeForward_perm before left right
  · exact mergeBackward_perm before left right

/-! ## From both ends -/

/-- The first elements of a merge. -/
structure Merged (α : Type) where
  /-- The elements taken. -/
  taken : List α
  /-- What is left of the left list. -/
  left : List α
  /-- What is left of the right list. -/
  right : List α

/-- Takes one element more, in front of those taken after it. -/
def Merged.cons (x : α) (rest : Merged α) : Merged α := { rest with taken := x :: rest.taken }

/-- Takes the first `n` elements of a merge from the front. -/
def mergeFirst : Nat → List α → List α → Merged α
  | 0, left, right => ⟨[], left, right⟩
  | n + 1, [], right => ⟨right.take (n + 1), [], right.drop (n + 1)⟩
  | n + 1, left, [] => ⟨left.take (n + 1), left.drop (n + 1), []⟩
  | n + 1, l :: left, r :: right =>
    if before r l then (mergeFirst n (l :: left) right).cons r
    else (mergeFirst n left (r :: right)).cons l

/--
Merges two halves of a list, the right one as long as the left one or longer by one element. As many
elements as the left half has are taken from either end, and one may remain in the middle. There is
no result when the two ends together do not take every element once.
-/
def mergeHalves (left right : List α) : Option (List α) :=
  let front := mergeFirst before left.length left right
  let back := mergeFirst (fun a b => before b a) left.length right.reverse left.reverse
  let unread := front.left.length + back.right.length
  if unread = left.length then
    some (front.taken ++ front.right.take (right.length - left.length) ++ back.taken.reverse)
  else if unread = left.length + 1 ∧ right.length = left.length + 1 then
    some (front.taken ++ front.left.take 1 ++ back.taken.reverse)
  else none

/-- A merge takes from the front of both lists and loses nothing. -/
theorem mergeFirst_split (n : Nat) (left right : List α) :
    ∃ a b, left = a ++ (mergeFirst before n left right).left
      ∧ right = b ++ (mergeFirst before n left right).right
      ∧ (mergeFirst before n left right).taken.Perm (a ++ b) := by
  fun_induction mergeFirst before n left right with
  | case1 left right => exact ⟨[], [], rfl, rfl, List.Perm.refl _⟩
  | case2 n right =>
    exact ⟨[], right.take (n + 1), rfl, (List.take_append_drop _ _).symm, List.Perm.refl _⟩
  | case3 n left _ =>
    refine ⟨left.take (n + 1), [], (List.take_append_drop _ _).symm, rfl, ?_⟩
    rw [List.append_nil]
  | case4 n l left r right _ ih =>
    obtain ⟨a, b, hleft, hright, htaken⟩ := ih
    exact ⟨a, r :: b, hleft, congrArg (r :: ·) hright,
      (htaken.cons r).trans List.perm_middle.symm⟩
  | case5 n l left r right _ ih =>
    obtain ⟨a, b, hleft, hright, htaken⟩ := ih
    exact ⟨l :: a, b, congrArg (l :: ·) hleft, hright, htaken.cons l⟩

theorem length_mergeFirst (n : Nat) (left right : List α) :
    (mergeFirst before n left right).taken.length = min n (left.length + right.length) := by
  fun_induction mergeFirst before n left right with
  | case1 => rw [List.length_nil, Nat.zero_min]
  | case2 n right => rw [List.length_take, List.length_nil, Nat.zero_add]
  | case3 n left _ => simp only [List.length_take, List.length_nil, Nat.add_zero]
  | case4 n l left r right _ ih =>
    simp only [Merged.cons, List.length_cons] at ih ⊢
    omega
  | case5 n l left r right _ ih =>
    simp only [Merged.cons, List.length_cons] at ih ⊢
    omega

/-- When a list ends in two ways, the longer end begins with what the other one lacks. -/
theorem eq_take_append_of_append_eq {x y u v : List α} {extra : Nat} (h : x ++ y = u ++ v)
    (hlength : y.length = extra + v.length) : y = y.take extra ++ v := by
  have hsplit : (x ++ y.take extra) ++ y.drop extra = u ++ v := by
    rw [List.append_assoc, List.take_append_drop, h]
  have hdrop := (List.append_inj' hsplit (by rw [List.length_drop]; omega)).2
  rw [← hdrop, List.take_append_drop]

/-- Halves that are merged are merged as a whole. -/
theorem mergeHalves_perm {left right merged : List α} (hlength : left.length ≤ right.length)
    (h : mergeHalves before left right = some merged) : merged.Perm (left ++ right) := by
  obtain ⟨a, b, hleft, hright, hfront⟩ := mergeFirst_split before left.length left right
  obtain ⟨d, c, hright', hleft', hback⟩ :=
    mergeFirst_split (fun a b => before b a) left.length right.reverse left.reverse
  have hfrontLength := length_mergeFirst before left.length left right
  have hbackLength :=
    length_mergeFirst (fun a b => before b a) left.length right.reverse left.reverse
  unfold mergeHalves at h
  dsimp only at h
  generalize mergeFirst before left.length left right = front at *
  generalize mergeFirst (fun a b => before b a) left.length right.reverse left.reverse = back at *
  have hleftBack : left = back.right.reverse ++ c.reverse := by
    rw [← List.reverse_append, ← hleft', List.reverse_reverse]
  have hrightBack : right = back.left.reverse ++ d.reverse := by
    rw [← List.reverse_append, ← hright', List.reverse_reverse]
  have hleftLength := congrArg List.length hleft
  have hrightLength := congrArg List.length hright
  have hleftBackLength := congrArg List.length hleftBack
  have hrightBackLength := congrArg List.length hrightBack
  have hfrontPerm := hfront.length_eq
  have hbackPerm := hback.length_eq
  simp only [List.length_append, List.length_reverse] at *
  have hends (middle : List α) : (front.taken ++ middle ++ back.taken.reverse).Perm
      (a ++ b ++ middle ++ (c.reverse ++ d.reverse)) :=
    (hfront.append_right middle).append ((List.reverse_perm _).trans (hback.trans
      (List.perm_append_comm.trans
        ((List.reverse_perm c).symm.append (List.reverse_perm d).symm))))
  split at h
  · obtain rfl := Option.some.inj h
    have hleftRest : front.left = front.left.take 0 ++ c.reverse :=
      eq_take_append_of_append_eq (hleft.symm.trans hleftBack)
        (by rw [List.length_reverse]; omega)
    have hrightRest : front.right = front.right.take (right.length - left.length) ++ d.reverse :=
      eq_take_append_of_append_eq (hright.symm.trans hrightBack)
        (by rw [List.length_reverse]; omega)
    refine (hends _).trans ?_
    generalize front.right.take (right.length - left.length) = middle at *
    rw [hleft, hright, hleftRest, hrightRest]
    have hswap : (b ++ middle ++ c.reverse).Perm (c.reverse ++ (b ++ middle)) :=
      List.perm_append_comm
    simpa only [List.append_assoc, List.take_zero, List.nil_append] using
      (hswap.append_right d.reverse).append_left a
  · split at h
    · next hodd =>
      obtain rfl := Option.some.inj h
      have hleftRest : front.left = front.left.take 1 ++ c.reverse :=
        eq_take_append_of_append_eq (hleft.symm.trans hleftBack)
          (by rw [List.length_reverse]; omega)
      have hrightRest : front.right = front.right.take 0 ++ d.reverse :=
        eq_take_append_of_append_eq (hright.symm.trans hrightBack)
          (by rw [List.length_reverse]; omega)
      refine (hends _).trans ?_
      generalize front.left.take 1 = middle at *
      rw [hleft, hright, hleftRest, hrightRest]
      have hswap : (b ++ (middle ++ c.reverse)).Perm (middle ++ c.reverse ++ b) :=
        List.perm_append_comm
      simpa only [List.append_assoc, List.take_zero, List.nil_append] using
        (hswap.append_right d.reverse).append_left a
    · exact nomatch h

end EvolutionarySearch.Sorting
