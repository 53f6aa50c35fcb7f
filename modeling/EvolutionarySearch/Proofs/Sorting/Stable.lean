import EvolutionarySearch.Sorting.Stable
import EvolutionarySearch.Proofs.Sorting.Merge

/-!
# The sort is stable

Runs are cut, joined and settled, and long stretches are partitioned, in an order that depends on
the length of the list and on where its trends end. None of this shows in the result: at every point
a run holds its elements with those of each rank in their first order, and is sorted if it says so.

* `cut_fit`, `mergeRuns_fit` — what holds of the runs
* `partitionSort_sorts` — a partition around any of its elements
* `stableSort_eq_mergeSort` — the sort has a result for every list, and which
-/

namespace EvolutionarySearch.Sorting

variable {α : Type} {before : α → α → Bool} {sort : List α → Option (List α)} {xs ys : List α}

/-! ## Trends -/

section Trends

/-- What follows on from one element to the next follows on throughout. -/
theorem pairwise_chain (follows : α → α → Bool)
    (htrans : ∀ a b c, follows a b = true → follows b c = true → follows a c = true) (x : α)
    (xs : List α) :
    (x :: xs.take (chainLength follows x xs)).Pairwise fun a b => follows a b = true := by
  induction xs generalizing x with
  | nil => simp
  | cons y ys ih =>
    rw [chainLength]
    split
    · next hxy =>
      have hrest := ih y
      rw [List.take_succ_cons, List.pairwise_cons]
      refine ⟨?_, hrest⟩
      intro z hz
      rcases List.mem_cons.mp hz with rfl | hz
      · exact hxy
      · exact htrans x y z hxy ((List.pairwise_cons.mp hrest).1 z hz)
    · simp

/-- The direction of a trend shows in the trend alone. -/
theorem descends_take (before : α → α → Bool) (x : α) (xs : List α) :
    descends before x (xs.take (trendLength before x xs)) = descends before x xs := by
  cases xs <;> simp [trendLength, descends, chainLength]

theorem trend_sorts (h : RankOrder before) (x : α) (xs : List α) :
    Sorts before (x :: xs.take (trendLength before x xs))
      (Run.ofTrend before x (xs.take (trendLength before x xs))).items := by
  simp only [Run.ofTrend, descends_take]
  unfold trendLength
  cases descends before x xs with
  | true =>
    have hchain := pairwise_chain (fun last next => before next last == true) (by
      intro a b c hba hcb
      simp only [beq_true] at hba hcb ⊢
      exact h.before_of_before_of_not hcb (h.asymm b a hba)) x xs
    simp only [beq_true] at hchain ⊢
    exact ⟨List.pairwise_reverse.mpr (hchain.imp (h.asymm _ _)),
      rearranges_reverse_of_descent h hchain⟩
  | false =>
    have hchain := pairwise_chain (fun last next => before next last == false) (by
      intro a b c hba hcb
      simp only [beq_iff_eq] at hba hcb ⊢
      exact h.trans_not hba hcb) x xs
    exact ⟨hchain.imp fun hba => by simpa using hba, .refl _⟩

end Trends

/-! ## Runs -/

section Runs

/-- A run that is in order, if it is sorted, and else can be sorted. -/
def Run.Fit (before : α → α → Bool) (sort : List α → Option (List α)) (run : Run α) : Prop :=
  if run.sorted then Ordered before run.items else SortsAll before sort

theorem cut_fit (h : RankOrder before) {inBlocks : Bool}
    (hsort : inBlocks = false → SortsAll before sort) (good : Nat) (xs : List α) :
    ∃ runs, cut before inBlocks good xs = some runs ∧ (∀ run ∈ runs, run.Fit before sort) ∧
      Rearranges before (runs.flatMap Run.items) xs := by
  fun_induction cut before inBlocks good xs with
  | case1 => exact ⟨[], rfl, by simp, .refl _⟩
  | case2 x xs trend hgood ih =>
    obtain ⟨runs, hruns, hfit, hrest⟩ := ih
    have htrend := trend_sorts h x xs
    refine ⟨_, by rw [hruns]; rfl, ?_, ?_⟩
    · rw [List.forall_mem_cons]
      exact ⟨htrend.ordered, hfit⟩
    · have hall := htrend.rearranges.append hrest
      rwa [List.cons_append, List.take_append_drop] at hall
  | case3 x xs trend hgood hblocks ih =>
    obtain ⟨runs, hruns, hfit, hrest⟩ := ih
    obtain ⟨items, hitems, hblock⟩ := sortBlock_sorts h (x :: xs.take (blockLength - 1))
    refine ⟨_, by rw [hitems, hruns]; rfl, ?_, ?_⟩
    · rw [List.forall_mem_cons]
      exact ⟨hblock.ordered, hfit⟩
    · have hall := hblock.rearranges.append hrest
      rwa [List.cons_append, List.take_append_drop] at hall
  | case4 x xs trend hgood hblocks ih =>
    obtain ⟨runs, hruns, hfit, hrest⟩ := ih
    refine ⟨_, by rw [hruns]; rfl, ?_, ?_⟩
    · rw [List.forall_mem_cons]
      exact ⟨hsort (Bool.eq_false_iff.mpr hblocks), hfit⟩
    · have hall := (Rearranges.refl (x :: xs.take (good - 1))).append hrest
      rwa [List.cons_append, List.cons_append, List.take_append_drop] at hall

theorem Run.Fit.settle {run : Run α} (hfit : run.Fit before sort) :
    ∃ items, run.settle sort = some items ∧ Sorts before run.items items := by
  unfold Run.settle
  unfold Run.Fit at hfit
  split at hfit
  · next hsorted =>
    rw [if_pos hsorted]
    exact ⟨run.items, rfl, hfit, .refl _⟩
  · next hsorted =>
    rw [if_neg hsorted]
    exact hfit run.items

/-- Neighbours are joined to a run of the elements of both. -/
theorem Run.Fit.join (h : RankOrder before) {left right : Run α} (hleft : left.Fit before sort)
    (hright : right.Fit before sort) :
    ∃ joined, left.join before sort right = some joined ∧ joined.Fit before sort ∧
      Rearranges before joined.items (left.items ++ right.items) := by
  unfold Run.join
  split
  · obtain ⟨l, hl, hlsorts⟩ := hleft.settle
    obtain ⟨r, hr, hrsorts⟩ := hright.settle
    have hmerge := sorts_merge h hlsorts.ordered hrsorts.ordered
    refine ⟨⟨merge before l r, true⟩, by rw [hl, hr]; rfl, hmerge.ordered, ?_⟩
    exact hmerge.rearranges.trans (hlsorts.rearranges.append hrsorts.rearranges)
  · next hunsorted =>
    have hl : left.sorted ≠ true := by simp_all
    refine ⟨_, rfl, ?_, .refl _⟩
    unfold Run.Fit at hleft
    rwa [if_neg hl] at hleft

/-- The runs that wait on a stack can be joined. -/
def FitBelow (before : α → α → Bool) (sort : List α → Option (List α))
    (waiting : List (Run α × Nat)) : Prop :=
  ∀ entry ∈ waiting, entry.1.Fit before sort

theorem collapse_fit (h : RankOrder before) (height : Nat) {waiting : List (Run α × Nat)}
    {run : Run α} (hwaiting : FitBelow before sort waiting) (hrun : run.Fit before sort) :
    ∃ collapsed, collapse before sort height waiting run = some collapsed ∧
      FitBelow before sort collapsed.1 ∧ collapsed.2.Fit before sort ∧
      Rearranges before (itemsBelow collapsed.1 ++ collapsed.2.items)
        (itemsBelow waiting ++ run.items) := by
  induction waiting generalizing run with
  | nil => exact ⟨_, rfl, hwaiting, hrun, .refl _⟩
  | cons entry waiting ih =>
    obtain ⟨hentry, hrest⟩ := List.forall_mem_cons.mp hwaiting
    rw [collapse]
    split
    · obtain ⟨joined, hjoined, hfit, hitems⟩ := hentry.join h hrun
      obtain ⟨collapsed, hcollapsed, hbelow, htop, hall⟩ := ih hrest hfit
      refine ⟨collapsed, by rw [hjoined]; exact hcollapsed, hbelow, htop, ?_⟩
      rw [itemsBelow_cons, List.append_assoc]
      exact hall.trans ((Rearranges.refl _).append hitems)
    · exact ⟨_, rfl, hwaiting, hrun, .refl _⟩

theorem joinAll_fit (h : RankOrder before) {waiting : List (Run α × Nat)} {run : Run α}
    (hwaiting : FitBelow before sort waiting) (hrun : run.Fit before sort) :
    ∃ joined, waiting.foldlM (fun run left => left.1.join before sort run) run = some joined ∧
      joined.Fit before sort ∧
      Rearranges before joined.items (itemsBelow waiting ++ run.items) := by
  induction waiting generalizing run with
  | nil => exact ⟨run, rfl, hrun, .refl _⟩
  | cons entry waiting ih =>
    obtain ⟨hentry, hrest⟩ := List.forall_mem_cons.mp hwaiting
    obtain ⟨next, hnext, hfit, hitems⟩ := hentry.join h hrun
    obtain ⟨joined, hjoined, hjoinedFit, hall⟩ := ih hrest hfit
    refine ⟨joined, by rw [List.foldlM_cons, hnext]; exact hjoined, hjoinedFit, ?_⟩
    rw [itemsBelow_cons, List.append_assoc]
    exact hall.trans ((Rearranges.refl _).append hitems)

theorem mergeRuns_fit (h : RankOrder before) (n start : Nat) {waiting : List (Run α × Nat)}
    {run : Run α} {runs : List (Run α)} (hwaiting : FitBelow before sort waiting)
    (hrun : run.Fit before sort) (hruns : ∀ run ∈ runs, run.Fit before sort) :
    ∃ merged, mergeRuns before sort n start waiting run runs = some merged ∧
      merged.Fit before sort ∧ Rearranges before merged.items
        (itemsBelow waiting ++ run.items ++ runs.flatMap Run.items) := by
  induction runs generalizing start waiting run with
  | nil => simpa [mergeRuns] using joinAll_fit h hwaiting hrun
  | cons next runs ih =>
    obtain ⟨hnext, hrest⟩ := List.forall_mem_cons.mp hruns
    rw [mergeRuns]
    generalize start + run.items.length = boundary
    generalize nodeHeight n start boundary (boundary + next.items.length) = node
    obtain ⟨collapsed, hcollapsed, hbelow, htop, hitems⟩ := collapse_fit h node hwaiting hrun
    have hstack : FitBelow before sort ((collapsed.2, node) :: collapsed.1) :=
      List.forall_mem_cons.mpr ⟨htop, hbelow⟩
    obtain ⟨merged, hmerged, hfit, hall⟩ := ih boundary hstack hnext hrest
    refine ⟨merged, by rw [hcollapsed]; exact hmerged, hfit, ?_⟩
    rw [itemsBelow_cons, List.append_assoc] at hall
    rw [List.flatMap_cons]
    exact hall.trans (hitems.append (.refl _))

theorem sortRuns_sorts (h : RankOrder before) {inBlocks : Bool}
    (hsort : inBlocks = false → SortsAll before sort) :
    SortsAll before (sortRuns before inBlocks sort) := by
  intro xs
  obtain ⟨runs, hruns, hfit, hitems⟩ := cut_fit h hsort (goodLength xs.length) xs
  unfold sortRuns
  rw [hruns, Option.bind_some]
  cases runs with
  | nil => exact ⟨[], rfl, ordered_nil, hitems⟩
  | cons run runs =>
    obtain ⟨hrun, hrest⟩ := List.forall_mem_cons.mp hfit
    have hnone : FitBelow before sort [] := by simp [FitBelow]
    obtain ⟨merged, hmerged, hmergedFit, hall⟩ := mergeRuns_fit h xs.length 0 hnone hrun hrest
    obtain ⟨sorted, hsorted, hsorts⟩ := hmergedFit.settle
    refine ⟨sorted, by simp [hmerged, hsorted], hsorts.of_rearranges (hall.trans hitems)⟩

theorem sortByBlocks_sorts (h : RankOrder before) : SortsAll before (sortByBlocks before) :=
  sortRuns_sorts h fun hfalse => by cases hfalse

end Runs

/-! ## Partitions -/

section Partitions

variable (h : RankOrder before) (p : Pivoted α)

include h

theorem Pivoted.lower_eq : p.lower before = p.toList.filter (before · p.pivot) := by
  simp [lower, toList, h.irrefl]

theorem Pivoted.notLower_eq : p.notLower before = p.toList.filter (!before · p.pivot) := by
  simp [notLower, toList, h.irrefl]

theorem Pivoted.upper_eq : p.upper before = p.toList.filter (before p.pivot ·) := by
  simp [upper, toList, h.irrefl]

theorem Pivoted.notUpper_eq : p.notUpper before = p.toList.filter (!before p.pivot ·) := by
  simp [notUpper, toList, h.irrefl]

/-- Elements of one rank are on one side of every other element. -/
theorem RankOrder.before_congr {a b : α} (hab : level before a b = true) (c : α) :
    before a c = before b c ∧ before c a = before c b := by
  obtain ⟨hab, hba⟩ := level_eq_true.mp hab
  constructor
  · rw [Bool.eq_iff_iff]
    exact ⟨h.before_of_not_of_before hab, h.before_of_not_of_before hba⟩
  · rw [Bool.eq_iff_iff]
    exact ⟨fun hca => h.before_of_before_of_not hca hba,
      fun hcb => h.before_of_before_of_not hcb hab⟩

/-- What stands before a pivot, sorted, and then the rest, sorted. -/
theorem Pivoted.sorts_lower {lower rest : List α} (hlower : Sorts before (p.lower before) lower)
    (hrest : Sorts before (p.notLower before) rest) : Sorts before p.toList (lower ++ rest) := by
  rw [p.lower_eq h] at hlower
  rw [p.notLower_eq h] at hrest
  refine ⟨ordered_append.mpr ⟨hlower.ordered, hrest.ordered, ?_⟩, ?_⟩
  · intro a ha b hb
    have ha := List.mem_filter.mp ((hlower.rearranges.mem_iff h).mp ha)
    have hb := List.mem_filter.mp ((hrest.rearranges.mem_iff h).mp hb)
    exact h.asymm a b (h.before_of_before_of_not ha.2 (by simpa using hb.2))
  · exact (hlower.rearranges.append hrest.rearranges).trans
      (rearranges_split _ (fun a b hab => (h.before_congr hab p.pivot).1) p.toList)

/-- What is of the rank of a pivot that nothing stands before, and then the rest, sorted. -/
theorem Pivoted.sorts_upper (hleast : ∀ x ∈ p.toList, before x p.pivot = false) {upper : List α}
    (hupper : Sorts before (p.upper before) upper) :
    Sorts before p.toList (p.notUpper before ++ upper) := by
  rw [p.upper_eq h] at hupper
  rw [p.notUpper_eq h]
  refine ⟨ordered_append.mpr ⟨?_, hupper.ordered, ?_⟩, ?_⟩
  · refine List.pairwise_of_forall_mem_list fun a ha b hb => ?_
    obtain ⟨-, ha⟩ := List.mem_filter.mp ha
    obtain ⟨hb, -⟩ := List.mem_filter.mp hb
    exact h.trans_not (by simpa using ha) (hleast b hb)
  · intro a ha b hb
    have ha := List.mem_filter.mp ha
    have hb := List.mem_filter.mp ((hupper.rearranges.mem_iff h).mp hb)
    exact h.asymm a b (h.before_of_not_of_before (by simpa using ha.2) hb.2)
  · have hsplit : Rearranges before
        (p.toList.filter (!before p.pivot ·) ++ p.toList.filter (before p.pivot ·)) p.toList := by
      have hsides := rearranges_split (!before p.pivot ·)
        (fun a b hab => congrArg not (h.before_congr hab p.pivot).2) p.toList
      simpa only [Bool.not_not] using hsides
    exact ((Rearranges.refl _).append hupper.rearranges).trans hsplit

/-- A pivot is least if it stands not behind its ancestor, or if nothing is lower. -/
theorem Pivoted.least {ancestor : Option α}
    (hancestor : ∀ a ∈ ancestor, ∀ x ∈ p.toList, before x a = false)
    (hequal : (ancestor.any (fun a => !before a p.pivot) || (p.lower before).isEmpty) = true) :
    ∀ x ∈ p.toList, before x p.pivot = false := by
  intro x hx
  rcases Bool.or_eq_true_iff.mp hequal with hany | hempty
  · obtain ⟨a, ha, hpivot⟩ := (Option.any_eq_true _ _).mp hany
    exact h.trans_not (by simpa using hpivot) (hancestor a ha x hx)
  · rw [p.lower_eq h, List.isEmpty_iff, List.filter_eq_nil_iff] at hempty
    exact Bool.eq_false_iff.mpr (hempty x hx)

omit p in
/-- A list can be sorted by partition if nothing in it stands before its ancestor. -/
theorem partitionSort_sorts (limit : Nat) (ancestor : Option α) (xs : List α)
    (hancestor : ∀ a ∈ ancestor, ∀ x ∈ xs, before x a = false) :
    ∃ ys, partitionSort before limit ancestor xs = some ys ∧ Sorts before xs ys := by
  induction limit generalizing ancestor xs with
  | zero =>
    rw [partitionSort]
    split
    · exact sortBlock_sorts h xs
    · exact sortByBlocks_sorts h xs
  | succ limit ih =>
    cases xs with
    | nil => exact ⟨[], rfl, ordered_nil, .refl _⟩
    | cons x xs =>
      rw [partitionSort]
      split
      · exact sortBlock_sorts h (x :: xs)
      · next hlong =>
        have hwhole : (Pivoted.ofList before x xs).toList = x :: xs :=
          Pivoted.toList_ofList before (by unfold blockLength at hlong; omega)
        dsimp only
        generalize Pivoted.ofList before x xs = p at *
        rw [← hwhole] at hancestor ⊢
        split
        · next hequal =>
          obtain ⟨upper, hupper, hsorts⟩ := ih none (p.upper before) (by simp)
          exact ⟨p.notUpper before ++ upper, by simp [hupper],
            p.sorts_upper h (p.least h hancestor hequal) hsorts⟩
        · obtain ⟨lower, hlower, hlowerSorts⟩ := ih ancestor (p.lower before) (by
            intro a ha y hy
            rw [p.lower_eq h] at hy
            exact hancestor a ha y (List.mem_filter.mp hy).1)
          obtain ⟨rest, hrest, hrestSorts⟩ := ih (some p.pivot) (p.notLower before) (by
            intro a ha y hy
            obtain rfl : p.pivot = a := by simpa using ha
            rw [p.notLower_eq h] at hy
            simpa using (List.mem_filter.mp hy).2)
          exact ⟨lower ++ rest, by simp [hlower, hrest], p.sorts_lower h hlowerSorts hrestSorts⟩

omit p in
theorem sortLong_sorts : SortsAll before (sortLong before) :=
  fun xs => partitionSort_sorts h _ none xs (by simp)

end Partitions

/-! ## Any list -/

theorem stableSort_sorts (h : RankOrder before) : SortsAll before (stableSort before) := by
  intro xs
  unfold stableSort
  split
  · exact ⟨_, rfl, sorts_insertionSort h xs⟩
  · split
    · exact sortByBlocks_sorts h xs
    · exact sortRuns_sorts h (fun _ => sortLong_sorts h) xs

/-- The sort has a result for every list: that of the merge sort of the library. -/
theorem stableSort_eq_mergeSort (h : RankOrder before) (xs : List α) :
    stableSort before xs = some (xs.mergeSort fun a b => !before b a) := by
  obtain ⟨ys, hys, hsorts⟩ := stableSort_sorts h xs
  rw [hys, hsorts.unique h (sorts_mergeSort h xs)]

end EvolutionarySearch.Sorting
