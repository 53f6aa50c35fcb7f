import EvolutionarySearch.Sorting.Block
import EvolutionarySearch.Proofs.Sorting.Order

/-!
# Merges and blocks

Two lists in order have one merge, from whichever end it is taken. An insertion is the merge with a
list of one element, four elements are the merge of two pairs, and the two ends of a merge of halves
meet. So a block is sorted by merges alone, and never without a result.

* `sorts_mergeForward`, `sorts_mergeBackward` — a merge is the stable sort of its parts
* `mergeHalves_eq` — the ends of a merge meet
* `sortBlock_sorts` — every block is sorted
-/

namespace EvolutionarySearch.Sorting

variable {α β : Type} {before : α → α → Bool} {left right xs ys : List α}

/-! ## From one end -/

section OneEnd

@[simp] theorem mergeForward_nil_left (right : List α) : mergeForward before [] right = right :=
  List.nil_merge right

@[simp] theorem mergeForward_nil_right (left : List α) : mergeForward before left [] = left :=
  List.merge_right left

theorem mergeForward_cons (l r : α) (left right : List α) :
    mergeForward before (l :: left) (r :: right)
      = if before r l then r :: mergeForward before (l :: left) right
        else l :: mergeForward before left (r :: right) := by
  unfold mergeForward
  rw [List.cons_merge_cons]
  cases before r l <;> rfl

theorem mem_mergeForward {x : α} : x ∈ mergeForward before left right ↔ x ∈ left ∨ x ∈ right :=
  List.mem_merge

/-- A merge is the stable sort of its parts. -/
theorem sorts_mergeForward (h : RankOrder before) (hleft : Ordered before left)
    (hright : Ordered before right) :
    Sorts before (left ++ right) (mergeForward before left right) := by
  induction left generalizing right with
  | nil => exact ⟨by rwa [mergeForward_nil_left], by rw [mergeForward_nil_left]; exact .refl _⟩
  | cons l left ihleft =>
    obtain ⟨hl, hleft'⟩ := ordered_cons.mp hleft
    induction right with
    | nil =>
      rw [mergeForward_nil_right, List.append_nil]
      exact ⟨hleft, .refl _⟩
    | cons r right ihright =>
      obtain ⟨hr, hright'⟩ := ordered_cons.mp hright
      rw [mergeForward_cons]
      by_cases hbefore : before r l = true
      · -- `r` stands before all of the left list, so it passes none of its rank
        rw [if_pos hbefore]
        obtain ⟨hordered, hrearranges⟩ := ihright hright'
        have hpassed : ∀ x ∈ l :: left, before r x = true := by
          intro x hx
          rcases List.mem_cons.mp hx with rfl | hx
          · exact hbefore
          · exact h.before_of_before_of_not hbefore (hl x hx)
        refine ⟨ordered_cons.mpr ⟨?_, hordered⟩, ?_⟩
        · intro x hx
          rcases mem_mergeForward.mp hx with hx | hx
          · exact h.asymm _ _ (hpassed x hx)
          · exact hr x hx
        · intro x
          rw [List.filter_cons, hrearranges x, List.filter_append, List.filter_append,
            List.filter_cons (x := r)]
          split
          · next hlevel =>
            have hnone : (l :: left).filter (level before x) = [] :=
              filter_level_eq_nil fun y hy => .inl
                (h.before_of_not_of_before (level_eq_true.mp hlevel).2 (hpassed y hy))
            rw [hnone, List.nil_append, List.nil_append]
          · rfl
      · rw [if_neg hbefore]
        have hstays : before r l = false := Bool.eq_false_iff.mpr hbefore
        obtain ⟨hordered, hrearranges⟩ := ihleft hleft' hright
        refine ⟨ordered_cons.mpr ⟨?_, hordered⟩, ?_⟩
        · intro x hx
          rcases mem_mergeForward.mp hx with hx | hx
          · exact hl x hx
          · rcases List.mem_cons.mp hx with rfl | hx
            · exact hstays
            · exact h.trans_not hstays (hr x hx)
        · intro x
          rw [List.cons_append, List.filter_cons, List.filter_cons, hrearranges x]

theorem sorts_mergeBackward (h : RankOrder before) (hleft : Ordered before left)
    (hright : Ordered before right) :
    Sorts before (left ++ right) (mergeBackward before left right) := by
  have hback := sorts_mergeForward h.flip (ordered_reverse.mpr hright) (ordered_reverse.mpr hleft)
  refine ⟨?_, ?_⟩
  · exact List.pairwise_reverse.mpr hback.ordered
  · simpa [mergeBackward] using hback.rearranges.reverse

theorem mergeBackward_eq (h : RankOrder before) (hleft : Ordered before left)
    (hright : Ordered before right) :
    mergeBackward before left right = mergeForward before left right :=
  (sorts_mergeBackward h hleft hright).unique h (sorts_mergeForward h hleft hright)

theorem sorts_merge (h : RankOrder before) (hleft : Ordered before left)
    (hright : Ordered before right) : Sorts before (left ++ right) (merge before left right) := by
  unfold merge
  split
  · exact sorts_mergeForward h hleft hright
  · exact sorts_mergeBackward h hleft hright

end OneEnd

/-! ## Insertion -/

section Insertion

/-- An element is placed by a merge from the back. -/
theorem insertFromEnd_eq (x : α) (fromEnd : List α) :
    insertFromEnd before x fromEnd = mergeForward (fun a b => before b a) [x] fromEnd := by
  induction fromEnd with
  | nil => rw [insertFromEnd, mergeForward_nil_right]
  | cons last above ih =>
    rw [insertFromEnd, mergeForward_cons, ih, mergeForward_nil_left]

theorem sorts_insertAll (h : RankOrder before) {placed : List α} (hplaced : Ordered before placed)
    (xs : List α) : Sorts before (placed ++ xs) (insertAll before placed xs) := by
  induction xs generalizing placed with
  | nil => simpa [insertAll] using Sorts.mk hplaced (.refl _)
  | cons x xs ih =>
    have hone := sorts_mergeBackward h hplaced (ordered_singleton x)
    have hrest := ih hone.ordered
    have hsame : insertAll before (mergeBackward before placed [x]) xs
        = insertAll before placed (x :: xs) := by
      simp [insertAll, mergeBackward, insertFromEnd_eq]
    rw [hsame] at hrest
    refine hrest.of_rearranges ?_
    simpa using hone.rearranges.append (.refl xs)

theorem sorts_insertionSort (h : RankOrder before) (xs : List α) :
    Sorts before xs (insertionSort before xs) :=
  sorts_insertAll h ordered_nil xs

end Insertion

/-! ## From both ends -/

section BothEnds

/-- A merge of images is the image of a merge. -/
theorem mergeFirst_map (before : β → β → Bool) (f : α → β) (n : Nat) (left right : List α) :
    mergeFirst before n (left.map f) (right.map f)
      = let first := mergeFirst (fun a b => before (f a) (f b)) n left right
        ⟨first.taken.map f, first.left.map f, first.right.map f⟩ := by
  fun_induction mergeFirst (fun a b => before (f a) (f b)) n left right with
  | case1 => simp [mergeFirst]
  | case2 => simp [mergeFirst]
  | case3 n left hleft => cases left <;> simp [mergeFirst]
  | case4 n l left r right hbefore ih =>
    rw [List.map_cons] at ih
    simp [mergeFirst, hbefore, Merged.cons, ih]
  | case5 n l left r right hbefore ih =>
    rw [List.map_cons] at ih
    simp [mergeFirst, hbefore, Merged.cons, ih]

theorem mergeHalves_map (before : β → β → Bool) (f : α → β) (left right : List α) :
    mergeHalves before (left.map f) (right.map f)
      = (mergeHalves (fun a b => before (f a) (f b)) left right).map (·.map f) := by
  unfold mergeHalves
  simp only [← List.map_reverse, mergeFirst_map, List.length_map]
  split
  · simp
  · split
    · simp
    · rfl

/-- What a merge has taken, and the merge of what it has left. -/
theorem mergeFirst_eq (before : α → α → Bool) (n : Nat) (left right : List α) :
    (mergeFirst before n left right).taken = (mergeForward before left right).take n ∧
      mergeForward before (mergeFirst before n left right).left
        (mergeFirst before n left right).right = (mergeForward before left right).drop n := by
  fun_induction mergeFirst before n left right with
  | case1 => simp
  | case2 => simp
  | case3 => simp
  | case4 n l left r right hbefore ih => simp [mergeForward_cons, hbefore, Merged.cons, ih]
  | case5 n l left r right hbefore ih => simp [mergeForward_cons, hbefore, Merged.cons, ih]

/-- What a merge from the back has taken. -/
theorem mergeFirst_flip_taken (h : RankOrder before) (hleft : Ordered before left)
    (hright : Ordered before right) :
    (mergeFirst (fun a b => before b a) left.length right.reverse left.reverse).taken.reverse
      = (mergeForward before left right).drop right.length := by
  have hreverse : mergeForward (fun a b => before b a) right.reverse left.reverse
      = (mergeForward before left right).reverse := by
    rw [← mergeBackward_eq h hleft hright, mergeBackward, List.reverse_reverse]
  have hlength : (mergeForward before left right).length - left.length = right.length := by
    rw [(mergeForward_perm before left right).length_eq, List.length_append]
    omega
  rw [(mergeFirst_eq _ _ _ _).1, hreverse, List.take_reverse, List.reverse_reverse, hlength]

/-- Every element of two lists shows in which of them it is. -/
structure Marked (isLeft : α → Bool) (left right : List α) : Prop where
  left : ∀ x ∈ left, isLeft x = true
  right : ∀ x ∈ right, isLeft x = false

section Marked

variable {isLeft : α → Bool} (h : Marked isLeft left right)

include h

theorem Marked.reverse : Marked (!isLeft ·) right.reverse left.reverse where
  left := by simpa using h.right
  right := by simpa using h.left

theorem Marked.of_append {taken taken' left' right' : List α} (hleft : left = taken ++ left')
    (hright : right = taken' ++ right') : Marked isLeft left' right' where
  left x hx := h.left x (by simp [hleft, hx])
  right x hx := h.right x (by simp [hright, hx])

theorem Marked.countP_append : (left ++ right).countP isLeft = left.length := by
  rw [List.countP_append, List.countP_eq_length.mpr h.left,
    List.countP_eq_zero.mpr (by simpa using h.right), Nat.add_zero]

/-- What is missing from a part has been taken. -/
theorem Marked.countP_mergeFirst (before : α → α → Bool) (n : Nat) :
    (mergeFirst before n left right).taken.countP isLeft
        + (mergeFirst before n left right).left.length = left.length ∧
      (mergeFirst before n left right).taken.countP (!isLeft ·)
        + (mergeFirst before n left right).right.length = right.length := by
  obtain ⟨a, b, ha, hb, htaken⟩ := mergeFirst_split before n left right
  generalize mergeFirst before n left right = first at *
  have htook : Marked isLeft a b :=
    ⟨fun x hx => h.left x (by simp [ha, hx]), fun x hx => h.right x (by simp [hb, hx])⟩
  have hothers : (a ++ b).countP (!isLeft ·) = b.length := by
    have hcount := htook.reverse.countP_append
    rwa [← List.reverse_append, List.countP_reverse, List.length_reverse] at hcount
  rw [htaken.countP_eq, htaken.countP_eq, htook.countP_append, hothers, ha, hb]
  simp

/-- A merge begins with the head of the part that its mark names. -/
theorem Marked.head?_mergeForward {x : α}
    (hx : (mergeForward before left right).head? = some x) :
    (if isLeft x then left else right).head? = some x := by
  cases left with
  | nil =>
    rw [mergeForward_nil_left] at hx
    rw [if_neg (by simp [h.right x (List.mem_of_mem_head? hx)]), hx]
  | cons l left =>
    have hl := h.left l List.mem_cons_self
    cases right with
    | nil =>
      rw [mergeForward_nil_right] at hx
      rw [if_pos (h.left x (List.mem_of_mem_head? hx)), hx]
    | cons r right =>
      rw [mergeForward_cons] at hx
      split at hx <;> cases hx
      · rw [if_neg (by simp [h.right x])]; rfl
      · rw [if_pos hl]; rfl

/-- The two ends of a merge leave what is between them. -/
theorem Marked.unread (hrank : RankOrder before) (hleft : Ordered before left)
    (hright : Ordered before right) (hlength : left.length ≤ right.length) :
    (mergeFirst before left.length left right).left.length
        + (mergeFirst (fun a b => before b a) left.length right.reverse left.reverse).right.length
      = left.length + (((mergeForward before left right).drop left.length).take
          (right.length - left.length)).countP isLeft := by
  have hfront := (h.countP_mergeFirst before left.length).1
  have hback : ((mergeForward before left right).drop right.length).countP isLeft
      + (mergeFirst (fun a b => before b a) left.length right.reverse left.reverse).right.length
      = left.length := by
    rw [← mergeFirst_flip_taken hrank hleft hright, List.countP_reverse]
    simpa using (h.reverse.countP_mergeFirst (fun a b => before b a) left.length).2
  rw [(mergeFirst_eq _ _ _ _).1] at hfront
  have hall := h.countP_append
  rw [← (mergeForward_perm before left right).countP_eq,
    ← List.take_append_drop left.length (mergeForward before left right), List.countP_append,
    ← List.take_append_drop (right.length - left.length) ((mergeForward before left right).drop _),
    List.countP_append, List.drop_drop, Nat.add_sub_cancel' hlength] at hall
  omega

theorem Marked.mergeHalves_eq (hrank : RankOrder before) (hleft : Ordered before left)
    (hright : Ordered before right)
    (hlength : right.length = left.length ∨ right.length = left.length + 1) :
    mergeHalves before left right = some (mergeForward before left right) := by
  obtain ⟨hfront, hrest⟩ := mergeFirst_eq before left.length left right
  have hback := mergeFirst_flip_taken hrank hleft hright
  have hunread := h.unread hrank hleft hright (by omega)
  obtain ⟨a, b, ha, hb, -⟩ := mergeFirst_split before left.length left right
  have hmerged := (mergeForward_perm before left right).length_eq
  unfold mergeHalves
  dsimp only
  rw [hunread, hfront, hback]
  generalize mergeFirst before left.length left right = front at *
  generalize mergeForward before left right = merged at *
  rcases hlength with heven | hodd
  · rw [heven, Nat.sub_self, List.take_zero, List.take_zero, if_pos (by simp), List.append_nil,
      List.take_append_drop]
  · -- one element remains in the middle, and is taken from the part that has it
    rw [List.length_append] at hmerged
    obtain ⟨x, hx⟩ : ∃ x, (merged.drop left.length).head? = some x := by
      rw [List.head?_drop]
      exact ⟨_, List.getElem?_eq_getElem (by omega)⟩
    have hparts : merged.take left.length ++ [x] ++ merged.drop right.length = merged := by
      obtain ⟨rest, hdrop⟩ := List.head?_eq_some_iff.mp hx
      have hrest : merged.drop right.length = rest := by
        rw [hodd, ← List.drop_drop, hdrop]
        rfl
      rw [hrest, List.append_assoc, List.singleton_append, ← hdrop, List.take_append_drop]
    have hhead := (h.of_append ha hb).head?_mergeForward (hrest ▸ hx)
    rw [hodd, Nat.add_sub_cancel_left, List.take_one, hx, List.take_one, List.take_one, ← hodd]
    cases hside : isLeft x with
    | true =>
      have hfirst : front.left.head? = some x := by simpa [hside] using hhead
      rw [if_neg (by simp [hside]), if_pos (by simp [hside, hodd]), hfirst]
      exact congrArg some hparts
    | false =>
      have hfirst : front.right.head? = some x := by simpa [hside] using hhead
      rw [if_pos (by simp [hside]), hfirst]
      exact congrArg some hparts

end Marked

/-- The ends of a merge meet: every element can be marked with its part. -/
theorem mergeHalves_eq (h : RankOrder before) (hleft : Ordered before left)
    (hright : Ordered before right)
    (hlength : right.length = left.length ∨ right.length = left.length + 1) :
    mergeHalves before left right = some (mergeForward before left right) := by
  let mark (side : Bool) (xs : List α) : List (α × Bool) := xs.map fun x => (x, side)
  have hmap : ∀ side xs, (mark side xs).map Prod.fst = xs := by
    intro side xs
    simp [mark, Function.comp_def]
  have hordered : ∀ side {xs : List α}, Ordered before xs →
      Ordered (fun a b : α × Bool => before a.1 b.1) (mark side xs) :=
    fun side xs hxs => List.pairwise_map.mpr hxs
  have hsides : Marked Prod.snd (mark true left) (mark false right) :=
    ⟨by simp [mark], by simp [mark]⟩
  have hmarked := hsides.mergeHalves_eq (h.comap Prod.fst) (hordered true hleft)
    (hordered false hright) (by simpa [mark] using hlength)
  have hmerge : (mergeForward (fun a b : α × Bool => before a.1 b.1) (mark true left)
      (mark false right)).map Prod.fst
      = mergeForward before ((mark true left).map Prod.fst) ((mark false right).map Prod.fst) :=
    List.map_merge fun _ _ _ _ => rfl
  have hhalves := mergeHalves_map before Prod.fst (mark true left) (mark false right)
  rw [hmarked, Option.map_some, hmerge, hmap, hmap] at hhalves
  exact hhalves

end BothEnds

/-! ## Blocks -/

section Blocks

theorem sorts_sortTwo (h : RankOrder before) (a b : α) :
    Sorts before [a, b] [(sortTwo before a b).1, (sortTwo before a b).2] := by
  have hmerge := sorts_mergeForward h (ordered_singleton a) (ordered_singleton b)
  rw [mergeForward_cons, mergeForward_nil_left, mergeForward_nil_right] at hmerge
  unfold sortTwo
  split
  · next hba => rwa [if_pos hba] at hmerge
  · next hba => rwa [if_neg hba] at hmerge

/-- Five comparisons make the merge of two pairs. -/
theorem sortFour_eq (h : RankOrder before) (a b c d : α) :
    sortFour before a b c d = mergeForward before
      [(sortTwo before a b).1, (sortTwo before a b).2]
      [(sortTwo before c d).1, (sortTwo before c d).2] := by
  have hab := (ordered_cons.mp (sorts_sortTwo h a b).ordered).1 _ (List.mem_singleton_self _)
  have hcd := (ordered_cons.mp (sorts_sortTwo h c d).ordered).1 _ (List.mem_singleton_self _)
  unfold sortFour
  dsimp only
  generalize sortTwo before a b = one at *
  generalize sortTwo before c d = two at *
  obtain ⟨a, b⟩ := one
  obtain ⟨c, d⟩ := two
  simp only at hab hcd
  cases hca : before c a <;> cases hdb : before d b
  · cases hcb : before c b <;> simp [sortInner, sortTwo, mergeForward_cons, *]
  · have hcb : before c b = true := h.before_of_not_of_before hcd hdb
    simp [sortInner, sortTwo, mergeForward_cons, *]
  · have hda : before d a = false := h.trans_not hab hdb
    simp [sortInner, sortTwo, mergeForward_cons, *]
  · cases hda : before d a <;> simp [sortInner, sortTwo, mergeForward_cons, *]

theorem sorts_sortFour (h : RankOrder before) (a b c d : α) :
    Sorts before [a, b, c, d] (sortFour before a b c d) := by
  have hab := sorts_sortTwo h a b
  have hcd := sorts_sortTwo h c d
  rw [sortFour_eq h]
  exact (sorts_mergeForward h hab.ordered hcd.ordered).of_rearranges
    (hab.rearranges.append hcd.rearranges)

theorem sorts_sortHalf (h : RankOrder before) (xs : List α) :
    Sorts before xs (sortHalf before xs) := by
  unfold sortHalf
  split
  · next a b c d rest =>
    have hfour := sorts_sortFour h a b c d
    exact (sorts_insertAll h hfour.ordered rest).of_rearranges
      (hfour.rearranges.append (.refl rest))
  · exact sorts_insertionSort h _

/-- Every block is sorted. -/
theorem sortBlock_sorts (h : RankOrder before) : SortsAll before (sortBlock before) := by
  intro xs
  have hhalves : ∀ {sort : List α → List α}, (∀ xs, Sorts before xs (sort xs)) →
      (∀ xs, (sort xs).length = xs.length) →
      ∃ ys, mergeHalves before (sort (xs.take (xs.length / 2))) (sort (xs.drop (xs.length / 2)))
        = some ys ∧ Sorts before xs ys := by
    intro sort hsort hlength
    have hleft := hsort (xs.take (xs.length / 2))
    have hright := hsort (xs.drop (xs.length / 2))
    refine ⟨_, mergeHalves_eq h hleft.ordered hright.ordered ?_, ?_⟩
    · rw [hlength, hlength, List.length_take, List.length_drop]
      omega
    · refine (sorts_mergeForward h hleft.ordered hright.ordered).of_rearranges ?_
      simpa using hleft.rearranges.append hright.rearranges
  unfold sortBlock
  dsimp only
  split
  · next hshort =>
    refine ⟨xs, rfl, ?_, .refl xs⟩
    match xs, hshort with
    | [], _ => exact ordered_nil
    | [x], _ => exact ordered_singleton x
  · split
    · exact hhalves (sorts_insertionSort h) fun xs => (insertionSort_perm before xs).length_eq
    · exact hhalves (sorts_sortHalf h) fun xs => (sortHalf_perm before xs).length_eq

end Blocks

end EvolutionarySearch.Sorting
