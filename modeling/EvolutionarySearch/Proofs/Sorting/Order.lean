import EvolutionarySearch.Sorting.Merge

/-!
# Orders of ranks

A sort is only as good as its relation. Here the relation orders its elements by ranks, so that the
elements of one rank are alike for it, and are told apart only by where they stand.

* `First.append` — which element is the first of two lists in a row
* `Sorts.unique`, `Sorts.head` — there is one stable sort of a list, and what it puts first
* `sorts_mergeSort` — the merge sort of the library is stable in this sense
-/

namespace EvolutionarySearch.Sorting

variable {α β : Type} {before : α → α → Bool}

/-! ## Ranks -/

/--
A strict order of ranks. If one element must stand before another, then any third one must stand
behind the first or before the second.
-/
structure RankOrder (before : α → α → Bool) : Prop where
  asymm : ∀ a b, before a b = true → before b a = false
  split : ∀ a b c, before a c = true → before a b = true ∨ before b c = true

/-- Whether neither of two elements must stand before the other. -/
def level (before : α → α → Bool) (a b : α) : Bool := !before a b && !before b a

theorem level_eq_true {a b : α} :
    level before a b = true ↔ before a b = false ∧ before b a = false := by
  simp [level]

theorem level_eq_false {a b : α} :
    level before a b = false ↔ before a b = true ∨ before b a = true := by
  cases hab : before a b <;> cases hba : before b a <;> simp [level, hab, hba]

theorem level_flip (a : α) : level (fun a b => before b a) a = level before a := by
  funext b
  exact Bool.and_comm _ _

namespace RankOrder

variable (h : RankOrder before) {a b c : α}

include h

theorem irrefl (a : α) : before a a = false := by
  cases haa : before a a with
  | false => rfl
  | true => rw [← haa]; exact h.asymm a a haa

theorem level_self (a : α) : level before a a = true :=
  level_eq_true.mpr ⟨h.irrefl a, h.irrefl a⟩

theorem trans_not (hba : before b a = false) (hcb : before c b = false) : before c a = false := by
  cases hca : before c a with
  | false => rfl
  | true => rcases h.split c b a hca with hcb' | hba' <;> simp_all

theorem before_of_before_of_not (hab : before a b = true) (hcb : before c b = false) :
    before a c = true := by
  rcases h.split a c b hab with hac | hcb'
  · exact hac
  · simp [hcb] at hcb'

theorem before_of_not_of_before (hba : before b a = false) (hbc : before b c = true) :
    before a c = true := by
  rcases h.split b a c hbc with hba' | hac
  · simp [hba] at hba'
  · exact hac

theorem flip : RankOrder fun a b => before b a where
  asymm a b hab := h.asymm b a hab
  split a b c hac := (h.split c b a hac).symm

theorem comap (f : β → α) : RankOrder fun a b => before (f a) (f b) where
  asymm a b hab := h.asymm (f a) (f b) hab
  split a b c hac := h.split (f a) (f b) (f c) hac

end RankOrder

/-! ## Lists in order -/

/-- No element of a list must stand before an earlier one. -/
def Ordered (before : α → α → Bool) (xs : List α) : Prop :=
  xs.Pairwise fun a b => before b a = false

variable {xs ys zs xs' ys' : List α} {x y : α}

theorem ordered_nil : Ordered before ([] : List α) := .nil

theorem ordered_singleton (x : α) : Ordered before [x] := List.pairwise_singleton _ x

theorem ordered_cons :
    Ordered before (x :: xs) ↔ (∀ y ∈ xs, before y x = false) ∧ Ordered before xs :=
  List.pairwise_cons

theorem ordered_append :
    Ordered before (xs ++ ys) ↔
      Ordered before xs ∧ Ordered before ys ∧ ∀ x ∈ xs, ∀ y ∈ ys, before y x = false :=
  List.pairwise_append

theorem ordered_reverse :
    Ordered (fun a b => before b a) xs.reverse ↔ Ordered before xs :=
  List.pairwise_reverse

/-! ## Rearrangements -/

/-- A list holds the elements of another, and those of each rank in the same order. -/
def Rearranges (before : α → α → Bool) (ys xs : List α) : Prop :=
  ∀ x, ys.filter (level before x) = xs.filter (level before x)

namespace Rearranges

theorem refl (xs : List α) : Rearranges before xs xs := fun _ => rfl

theorem trans (h : Rearranges before zs ys) (h' : Rearranges before ys xs) :
    Rearranges before zs xs := fun x => (h x).trans (h' x)

theorem append (h : Rearranges before ys xs) (h' : Rearranges before ys' xs') :
    Rearranges before (ys ++ ys') (xs ++ xs') := by
  intro x
  rw [List.filter_append, List.filter_append, h x, h' x]

theorem mem_iff (hrank : RankOrder before) (h : Rearranges before ys xs) : x ∈ ys ↔ x ∈ xs := by
  have hself : ∀ zs : List α, x ∈ zs ↔ x ∈ zs.filter (level before x) := by
    intro zs
    simp [hrank.level_self x]
  rw [hself ys, hself xs, h x]

theorem reverse (h : Rearranges (fun a b => before b a) ys xs) :
    Rearranges before ys.reverse xs.reverse := by
  intro x
  rw [List.filter_reverse, List.filter_reverse, ← level_flip, h x]

end Rearranges

theorem filter_level_eq_nil (h : ∀ y ∈ ys, before x y = true ∨ before y x = true) :
    ys.filter (level before x) = [] := by
  rw [List.filter_eq_nil_iff]
  intro y hy
  simp [level_eq_false.mpr (h y hy)]

/-- A test that elements of one rank all pass or all fail keeps or drops a rank as a whole. -/
theorem filter_level_filter (test : α → Bool)
    (htest : ∀ a b, level before a b = true → test a = test b) (xs : List α) (x : α) :
    (xs.filter test).filter (level before x)
      = if test x then xs.filter (level before x) else [] := by
  have hcongr : ∀ y, (level before x y && test y) = (level before x y && test x) := by
    intro y
    cases hy : level before x y with
    | false => rfl
    | true => rw [htest x y hy]
  rw [List.filter_filter, funext hcongr]
  cases test x <;> simp

theorem rearranges_split (test : α → Bool)
    (htest : ∀ a b, level before a b = true → test a = test b) (xs : List α) :
    Rearranges before (xs.filter test ++ xs.filter fun y => !test y) xs := by
  intro x
  have hrest : ∀ a b, level before a b = true → (!test a) = !test b := by
    intro a b hab
    rw [htest a b hab]
  rw [List.filter_append, filter_level_filter test htest, filter_level_filter _ hrest]
  cases test x <;> simp

/-- Turning a strict descent round exchanges no two elements of one rank. -/
theorem rearranges_reverse_of_descent (hrank : RankOrder before)
    (h : xs.Pairwise fun a b => before b a = true) :
    Rearranges before xs.reverse xs := by
  induction xs with
  | nil => exact .refl _
  | cons x xs ih =>
    obtain ⟨hx, hxs⟩ := List.pairwise_cons.mp h
    intro y
    rw [List.reverse_cons, List.filter_append, ih hxs y, List.filter_cons]
    by_cases hlevel : level before y x = true
    · have hnone : xs.filter (level before y) = [] := by
        refine filter_level_eq_nil fun z hz => .inr ?_
        exact hrank.before_of_before_of_not (hx z hz) (level_eq_true.mp hlevel).1
      simp [hlevel, hnone]
    · simp [hlevel]

/-! ## The first of a list -/

/-- An element of a list stands before all that are ahead of it, and none that follow it does so. -/
def First (before : α → α → Bool) (xs : List α) (x : α) : Prop :=
  ∃ pre post, xs = pre ++ x :: post ∧ (∀ y ∈ pre, before x y = true) ∧
    ∀ y ∈ post, before y x = false

namespace First

theorem mem (h : First before xs x) : x ∈ xs := by
  obtain ⟨pre, post, rfl, -, -⟩ := h
  simp

theorem not_before (hrank : RankOrder before) (h : First before xs x) :
    ∀ y ∈ xs, before y x = false := by
  obtain ⟨pre, post, rfl, hpre, hpost⟩ := h
  intro y hy
  rcases List.mem_append.mp hy with hy | hy
  · exact hrank.asymm x y (hpre y hy)
  · rcases List.mem_cons.mp hy with rfl | hy
    · exact hrank.irrefl y
    · exact hpost y hy

/-- What stands before the first of a list stands before all of it. -/
theorem before_iff (hrank : RankOrder before) (h : First before xs x) :
    before y x = true ↔ ∀ z ∈ xs, before y z = true :=
  ⟨fun hyx z hz => hrank.before_of_before_of_not hyx (h.not_before hrank z hz),
    fun hall => hall x h.mem⟩

/-- The first of two lists in a row is that of the second only if it stands before the other. -/
theorem append (hrank : RankOrder before) (hx : First before xs x) (hy : First before ys y) :
    First before (xs ++ ys) (if before y x then y else x) := by
  have hall := hx.before_iff hrank (y := y)
  have hleast := hy.not_before hrank
  split
  · next hyx =>
    obtain ⟨pre, post, rfl, hpre, hpost⟩ := hy
    refine ⟨xs ++ pre, post, by simp, ?_, hpost⟩
    intro z hz
    rcases List.mem_append.mp hz with hz | hz
    · exact hall.mp hyx z hz
    · exact hpre z hz
  · next hyx =>
    obtain ⟨pre, post, rfl, hpre, hpost⟩ := hx
    refine ⟨pre, post ++ ys, by simp, hpre, ?_⟩
    intro z hz
    rcases List.mem_append.mp hz with hz | hz
    · exact hpost z hz
    · exact hrank.trans_not (Bool.eq_false_iff.mpr hyx) (hleast z hz)

theorem map {f : β → α} {zs : List β} {z : β} (h : First (fun a b => before (f a) (f b)) zs z) :
    First before (zs.map f) (f z) := by
  obtain ⟨pre, post, rfl, hpre, hpost⟩ := h
  exact ⟨pre.map f, post.map f, by simp, by simpa using hpre, by simpa using hpost⟩

theorem exists_of_map {f : β → α} {zs : List β} (h : First before (zs.map f) x) :
    ∃ z, f z = x ∧ First (fun a b => before (f a) (f b)) zs z := by
  obtain ⟨pre, post, hmap, hpre, hpost⟩ := h
  obtain ⟨pre', rest, rfl, rfl, hrest⟩ := List.map_eq_append_iff.mp hmap
  obtain ⟨z, post', rfl, rfl, rfl⟩ := List.map_eq_cons_iff.mp hrest
  exact ⟨z, rfl, pre', post', rfl, by simpa using hpre, by simpa using hpost⟩

/-- The first of a list is found by a search for an element that none stands before. -/
theorem find?_eq (hrank : RankOrder before) (h : First before xs x) :
    xs.find? (fun y => xs.all fun z => !before z y) = some x := by
  have hleast := h.not_before hrank
  obtain ⟨pre, post, rfl, hpre, hpost⟩ := h
  rw [List.find?_eq_some_iff_append]
  refine ⟨List.all_eq_true.mpr fun y hy => by simp [hleast y hy], pre, post, rfl, ?_⟩
  intro y hy
  simp [hpre y hy]

end First

/-! ## Stable sorts -/

/-- A list is the stable sort of another. -/
structure Sorts (before : α → α → Bool) (xs ys : List α) : Prop where
  ordered : Ordered before ys
  rearranges : Rearranges before ys xs

/-- A sort has a result for every list, which is the stable sort of it. -/
def SortsAll (before : α → α → Bool) (sort : List α → Option (List α)) : Prop :=
  ∀ xs, ∃ ys, sort xs = some ys ∧ Sorts before xs ys

namespace Sorts

theorem of_rearranges (h : Sorts before ys zs) (hxs : Rearranges before ys xs) :
    Sorts before xs zs := ⟨h.ordered, h.rearranges.trans hxs⟩

/-- What stands first in two orders of the same elements. -/
theorem head_level (hrank : RankOrder before) (h : Sorts before xs (x :: ys))
    (h' : Sorts before xs (y :: zs)) : level before x y = true := by
  have hx : x ∈ xs := (h.rearranges.mem_iff hrank).mp List.mem_cons_self
  have hy : y ∈ xs := (h'.rearranges.mem_iff hrank).mp List.mem_cons_self
  have hfirst : ∀ {a b : α} {as : List α}, Sorts before xs (a :: as) → b ∈ xs →
      before b a = false := by
    intro a b as ha hb
    rcases List.mem_cons.mp ((ha.rearranges.mem_iff hrank).mpr hb) with rfl | hb
    · exact hrank.irrefl b
    · exact (ordered_cons.mp ha.ordered).1 b hb
  exact level_eq_true.mpr ⟨hfirst h' hx, hfirst h hy⟩

theorem tail (h : Sorts before (x :: xs) (x :: ys)) : Sorts before xs ys where
  ordered := (ordered_cons.mp h.ordered).2
  rearranges := by
    intro y
    have hy := h.rearranges y
    rw [List.filter_cons, List.filter_cons] at hy
    split at hy
    · exact (List.cons.inj hy).2
    · exact hy

/-- There is one stable sort of a list. -/
theorem unique (hrank : RankOrder before) (h : Sorts before xs ys) (h' : Sorts before xs zs) :
    ys = zs := by
  induction ys generalizing xs zs with
  | nil =>
    cases zs with
    | nil => rfl
    | cons z zs =>
      have hz : z ∈ ([] : List α) :=
        (h.rearranges.mem_iff hrank).mpr ((h'.rearranges.mem_iff hrank).mp List.mem_cons_self)
      cases hz
  | cons y ys ih =>
    cases zs with
    | nil =>
      have hy : y ∈ ([] : List α) :=
        (h'.rearranges.mem_iff hrank).mpr ((h.rearranges.mem_iff hrank).mp List.mem_cons_self)
      cases hy
    | cons z zs =>
      -- the heads are of one rank, and are the first of that rank in both lists
      have hlevel := head_level hrank h h'
      have hfilter := (h.rearranges y).trans (h'.rearranges y).symm
      rw [List.filter_cons, List.filter_cons, if_pos (hrank.level_self y), if_pos hlevel] at hfilter
      obtain rfl : y = z := (List.cons.inj hfilter).1
      have hys : Sorts before (y :: ys) (y :: ys) := ⟨h.ordered, .refl _⟩
      have hzs : Sorts before (y :: ys) (y :: zs) :=
        ⟨h'.ordered, h'.rearranges.trans fun x => (h.rearranges x).symm⟩
      rw [ih hys.tail hzs.tail]

/-- A stable sort puts the first of the least elements in front. -/
theorem head (hrank : RankOrder before) (h : Sorts before xs (y :: ys)) : First before xs y := by
  have hleast : ∀ x ∈ xs, before x y = false := by
    intro x hx
    rcases List.mem_cons.mp ((h.rearranges.mem_iff hrank).mpr hx) with rfl | hx
    · exact hrank.irrefl x
    · exact (ordered_cons.mp h.ordered).1 x hx
  have hfilter := (h.rearranges y).symm
  rw [List.filter_cons, if_pos (hrank.level_self y), List.filter_eq_cons_iff] at hfilter
  obtain ⟨pre, post, rfl, hpre, -, -⟩ := hfilter
  refine ⟨pre, post, rfl, ?_, fun x hx => hleast x (by simp [hx])⟩
  intro x hx
  rcases level_eq_false.mp (Bool.eq_false_iff.mpr (hpre x hx)) with hbefore | hbefore
  · exact hbefore
  · simp [hleast x (List.mem_append_left _ hx)] at hbefore

end Sorts

/-- The merge sort of the library is a stable sort. -/
theorem sorts_mergeSort (hrank : RankOrder before) (xs : List α) :
    Sorts before xs (xs.mergeSort fun a b => !before b a) := by
  have htrans : ∀ a b c, (!before b a) = true → (!before c b) = true → (!before c a) = true := by
    intro a b c hab hbc
    simp only [Bool.not_eq_true'] at hab hbc ⊢
    exact hrank.trans_not hab hbc
  have htotal : ∀ a b, ((!before b a) || !before a b) = true := by
    intro a b
    cases hba : before b a with
    | false => rfl
    | true => simp [hrank.asymm b a hba]
  refine ⟨?_, ?_⟩
  · exact (List.pairwise_mergeSort htrans htotal xs).imp fun hab => by simpa using hab
  · intro x
    -- the elements of a rank are in order as they stand, so the sort keeps them as a sublist
    have hrow : (xs.filter (level before x)).Pairwise fun a b => (!before b a) = true := by
      refine List.pairwise_of_forall_mem_list fun a ha b hb => ?_
      have hxa := (level_eq_true.mp (List.mem_filter.mp ha).2).1
      have hbx := (level_eq_true.mp (List.mem_filter.mp hb).2).2
      simp [hrank.trans_not hxa hbx]
    have hkept := (List.sublist_mergeSort htrans htotal hrow List.filter_sublist).filter
      (level before x)
    rw [List.filter_filter] at hkept
    simp only [Bool.and_self] at hkept
    exact (hkept.eq_of_length ((List.mergeSort_perm xs _).filter _).length_eq.symm).symm

end EvolutionarySearch.Sorting
