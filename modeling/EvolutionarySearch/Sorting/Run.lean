import EvolutionarySearch.Sorting.Block

/-!
# Runs

A list is cut into runs, which are merged in pairs. Where the list is already ascending, or strictly
descending, for long enough, that stretch is a run. Elsewhere a run is a piece of fixed length: a
block, which is sorted at once, or a longer piece, which is left unsorted until it has to be merged
with a sorted one.

Which runs are merged first follows from where they meet. The boundary between two runs belongs to a
node of the binary tree over the whole list, found from the middles of the runs on both sides: the
higher the node, the later its merge.

`sortRuns_perm` says that a list sorted by its runs keeps its elements.
-/

namespace EvolutionarySearch.Sorting

variable {α : Type} (before : α → α → Bool)

/-- A stretch of the list. -/
structure Run (α : Type) where
  items : List α
  sorted : Bool

/-! ## Cutting -/

/-- How many elements of a list follow on from the one before, in the sense of a relation. -/
def chainLength (follows : α → α → Bool) : α → List α → Nat
  | _, [] => 0
  | last, x :: xs => if follows last x then chainLength follows x xs + 1 else 0

/-- Whether a list begins with a strict descent. -/
def descends (x : α) : List α → Bool
  | [] => false
  | y :: _ => before y x

/-- How many elements after the first the ascent or descent at the head of a list has. -/
def trendLength (x : α) (xs : List α) : Nat :=
  let descending := descends before x xs
  chainLength (fun last next => before next last == descending) x xs

/-- A piece sorted as it stands, or turned round when it is descending. -/
def Run.ofTrend (x : α) (xs : List α) : Run α where
  items := if descends before x xs then (x :: xs).reverse else x :: xs
  sorted := true

/--
Cuts a list into runs. A trend is a run when it has at least `good` elements. Any other run is a
sorted block, with `inBlocks`, or an unsorted piece of `good` elements.
-/
def cut (inBlocks : Bool) (good : Nat) : List α → Option (List (Run α))
  | [] => some []
  | x :: xs =>
    let trend := trendLength before x xs
    if good ≤ trend + 1 then
      (cut inBlocks good (xs.drop trend)).map (Run.ofTrend before x (xs.take trend) :: ·)
    else if inBlocks then
      (sortBlock before (x :: xs.take (blockLength - 1))).bind fun items =>
        (cut inBlocks good (xs.drop (blockLength - 1))).map (⟨items, true⟩ :: ·)
    else
      (cut inBlocks good (xs.drop (good - 1))).map (⟨x :: xs.take (good - 1), false⟩ :: ·)
termination_by xs => xs.length
decreasing_by all_goals simp only [List.length_drop, List.length_cons]; omega

theorem Run.ofTrend_perm (x : α) (xs : List α) :
    (Run.ofTrend before x xs).items.Perm (x :: xs) := by
  unfold Run.ofTrend
  dsimp only
  split
  · exact List.reverse_perm _
  · exact List.Perm.refl _

/-- The runs of a list hold its elements. -/
theorem cut_perm {inBlocks : Bool} {good : Nat} {xs : List α} {runs : List (Run α)}
    (h : cut before inBlocks good xs = some runs) : (runs.flatMap Run.items).Perm xs := by
  fun_induction cut before inBlocks good xs generalizing runs with
  | case1 => rw [← Option.some.inj h]; exact List.Perm.refl _
  | case2 x xs trend =>
    next ih =>
    obtain ⟨rest, hrest, rfl⟩ := Option.map_eq_some_iff.1 h
    have hall := (Run.ofTrend_perm before x (xs.take trend)).append (ih hrest)
    rwa [List.cons_append, List.take_append_drop] at hall
  | case3 x xs =>
    next ih =>
    obtain ⟨items, hitems, h⟩ := Option.bind_eq_some_iff.1 h
    obtain ⟨rest, hrest, rfl⟩ := Option.map_eq_some_iff.1 h
    have hall := (sortBlock_perm before hitems).append (ih hrest)
    rwa [List.cons_append, List.take_append_drop] at hall
  | case4 x xs =>
    next ih =>
    obtain ⟨rest, hrest, rfl⟩ := Option.map_eq_some_iff.1 h
    have hall := (List.Perm.refl (x :: xs.take (good - 1))).append (ih hrest)
    rwa [List.cons_append, List.cons_append, List.take_append_drop] at hall

/-! ## Merging -/

/-- The elements of a run in order. -/
def Run.settle (sortLong : List α → Option (List α)) (run : Run α) : Option (List α) :=
  if run.sorted then some run.items else sortLong run.items

/-- Joins neighbours. Two unsorted runs become one; any others are sorted and merged. -/
def Run.join (sortLong : List α → Option (List α)) (left right : Run α) : Option (Run α) :=
  if left.sorted || right.sorted then
    (left.settle sortLong).bind fun l =>
      (right.settle sortLong).map fun r => ⟨merge before l r, true⟩
  else some ⟨left.items ++ right.items, false⟩

/-- Whether a sort keeps the elements of every list. -/
def Keeps (sort : List α → Option (List α)) : Prop :=
  ∀ xs sorted, sort xs = some sorted → sorted.Perm xs

theorem Run.settle_perm {sortLong : List α → Option (List α)} (hsort : Keeps sortLong)
    {run : Run α} {items : List α} (h : run.settle sortLong = some items) :
    items.Perm run.items := by
  unfold Run.settle at h
  split at h
  · rw [Option.some.inj h]
  · exact hsort _ _ h

theorem Run.join_perm {sortLong : List α → Option (List α)} (hsort : Keeps sortLong)
    {left right joined : Run α} (h : left.join before sortLong right = some joined) :
    joined.items.Perm (left.items ++ right.items) := by
  unfold Run.join at h
  split at h
  · obtain ⟨l, hl, h⟩ := Option.bind_eq_some_iff.1 h
    obtain ⟨r, hr, rfl⟩ := Option.map_eq_some_iff.1 h
    exact (merge_perm before l r).trans
      ((Run.settle_perm hsort hl).append (Run.settle_perm hsort hr))
  · rw [← Option.some.inj h]

/--
The height of the node at which two neighbouring runs meet, for a list of `n` elements: the place of
the highest binary digit in which the middles of the runs differ, as fractions of the list.
-/
def nodeHeight (n start boundary stop : Nat) : Nat :=
  let scale := (0x4000000000000000 + n - 1) / n
  Nat.log2 ((scale * (start + boundary)) ^^^ (scale * (boundary + stop)))

/-- Joins the runs that wait on a stack to a run, as long as their nodes are not above a height. -/
def collapse (sortLong : List α → Option (List α)) (height : Nat) :
    List (Run α × Nat) → Run α → Option (List (Run α × Nat) × Run α)
  | [], run => some ([], run)
  | (left, node) :: waiting, run =>
    if node ≤ height then
      (left.join before sortLong run).bind (collapse sortLong height waiting)
    else some ((left, node) :: waiting, run)

/-- The elements of the runs on a stack, the highest first. -/
def itemsBelow (waiting : List (Run α × Nat)) : List α :=
  waiting.reverse.flatMap fun entry => entry.1.items

theorem itemsBelow_cons (entry : Run α × Nat) (waiting : List (Run α × Nat)) :
    itemsBelow (entry :: waiting) = itemsBelow waiting ++ entry.1.items := by
  simp only [itemsBelow, List.reverse_cons, List.flatMap_append, List.flatMap_singleton]

theorem collapse_perm {sortLong : List α → Option (List α)} (hsort : Keeps sortLong)
    {height : Nat} {waiting : List (Run α × Nat)} {run : Run α}
    {collapsed : List (Run α × Nat) × Run α}
    (h : collapse before sortLong height waiting run = some collapsed) :
    (itemsBelow collapsed.1 ++ collapsed.2.items).Perm (itemsBelow waiting ++ run.items) := by
  induction waiting generalizing run with
  | nil => rw [← Option.some.inj h]
  | cons entry waiting ih =>
    unfold collapse at h
    split at h
    · obtain ⟨joined, hjoined, h⟩ := Option.bind_eq_some_iff.1 h
      rw [itemsBelow_cons, List.append_assoc]
      exact (ih h).trans ((Run.join_perm before hsort hjoined).append_left _)
    · rw [← Option.some.inj h]

/--
Merges the runs of a list of `n` elements. The current run begins at `start`; those before it wait
on a stack, each with the node of the boundary behind it, the lowest node on top.
-/
def mergeRuns (sortLong : List α → Option (List α)) (n : Nat) :
    Nat → List (Run α × Nat) → Run α → List (Run α) → Option (Run α)
  | _, waiting, run, [] =>
    waiting.foldlM (fun run left => left.1.join before sortLong run) run
  | start, waiting, run, next :: runs =>
    let boundary := start + run.items.length
    let node := nodeHeight n start boundary (boundary + next.items.length)
    (collapse before sortLong node waiting run).bind fun collapsed =>
      mergeRuns sortLong n boundary ((collapsed.2, node) :: collapsed.1) next runs

theorem joinAll_perm {sortLong : List α → Option (List α)} (hsort : Keeps sortLong)
    {waiting : List (Run α × Nat)} {run joined : Run α}
    (h : waiting.foldlM (fun run left => left.1.join before sortLong run) run = some joined) :
    joined.items.Perm (itemsBelow waiting ++ run.items) := by
  induction waiting generalizing run with
  | nil => rw [← Option.some.inj h]; exact List.Perm.refl _
  | cons entry waiting ih =>
    obtain ⟨next, hnext, h⟩ := Option.bind_eq_some_iff.1 h
    rw [itemsBelow_cons, List.append_assoc]
    exact (ih h).trans ((Run.join_perm before hsort hnext).append_left _)

theorem mergeRuns_perm {sortLong : List α → Option (List α)} (hsort : Keeps sortLong)
    {n start : Nat} {waiting : List (Run α × Nat)} {run merged : Run α} {runs : List (Run α)}
    (h : mergeRuns before sortLong n start waiting run runs = some merged) :
    merged.items.Perm (itemsBelow waiting ++ run.items ++ runs.flatMap Run.items) := by
  induction runs generalizing start waiting run with
  | nil =>
    rw [List.flatMap_nil, List.append_nil]
    exact joinAll_perm before hsort h
  | cons next runs ih =>
    obtain ⟨collapsed, hcollapsed, h⟩ := Option.bind_eq_some_iff.1 h
    refine (ih h).trans ?_
    rw [itemsBelow_cons, List.flatMap_cons, List.append_assoc _ next.items]
    exact (collapse_perm before hsort hcollapsed).append_right _

/-- An estimate of the square root of a number: a power of two, improved once. -/
def roughRoot (n : Nat) : Nat :=
  let shift := (Nat.log2 n + 1) / 2
  ((1 <<< shift) + (n >>> shift)) / 2

/-- The least length of a trend that makes it a run. -/
def goodLength (n : Nat) : Nat := if n ≤ 4096 then min (n - n / 2) 64 else roughRoot n

/-- Sorts a list by its runs, those that are left unsorted by a sort of their own. -/
def sortRuns (inBlocks : Bool) (sortLong : List α → Option (List α)) (xs : List α) :
    Option (List α) :=
  (cut before inBlocks (goodLength xs.length) xs).bind fun
    | [] => some []
    | run :: runs =>
      (mergeRuns before sortLong xs.length 0 [] run runs).bind (Run.settle sortLong)

/-- A list sorted by its runs keeps its elements, if those left unsorted do. -/
theorem sortRuns_perm {inBlocks : Bool} {sortLong : List α → Option (List α)}
    (hsort : Keeps sortLong) : Keeps (sortRuns before inBlocks sortLong) := by
  intro xs sorted h
  obtain ⟨runs, hruns, h⟩ := Option.bind_eq_some_iff.1 h
  have hcut := cut_perm before hruns
  cases runs with
  | nil => rw [← Option.some.inj h]; exact hcut
  | cons run runs =>
    obtain ⟨merged, hmerged, h⟩ := Option.bind_eq_some_iff.1 h
    exact (Run.settle_perm hsort h).trans ((mergeRuns_perm before hsort hmerged).trans hcut)

/-- Sorts a list by runs of which none is left unsorted. -/
def sortByBlocks (xs : List α) : Option (List α) := sortRuns before true some xs

theorem sortByBlocks_perm : Keeps (sortByBlocks before) :=
  sortRuns_perm before fun _ _ h => by rw [Option.some.inj h]

end EvolutionarySearch.Sorting
