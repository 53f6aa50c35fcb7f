import EvolutionarySearch.Proofs.Search.Ascent
import EvolutionarySearch.Proofs.Search.Bound
import EvolutionarySearch.Proofs.Search.Slots
import Mathlib.Algebra.Order.Field.Basic
import Mathlib.Algebra.Order.Field.Rat
import Mathlib.Data.List.InsertIdx
import Mathlib.Order.Bounds.Defs

/-!
# Where a fitness stands in the history

A worse child is accepted by what share of the bests so far is at or above it. The history refuses
what is below its last entry, so it is in order, and the share can be read off the position at which
the child would be inserted: all entries before it are below the child, and none from there on is.

* `History.Built.ordered` — a history is in order however it has come about
* `Splits.unique`, `Splits.isLeast` — where a list is split by a fitness: at one place only, which
  is the leftmost at which the fitness can be inserted
* `Bounded.outranks` — what is worse than some parent has a best above it in the history
* `history_ranks` — positions and shares in any history, and in those of a search
-/

namespace EvolutionarySearch.Search

variable {ω Gene Fitness : Type} [Ord Fitness]

/-! ## Order -/

/-- Fitnesses none of which is below an earlier one. -/
def Ordered (values : List Fitness) : Prop := values.Pairwise fun a b => (compare a b).isLE = true

/-- A history with a first best to which others have been added and not been refused. -/
inductive History.Built : History Fitness → Prop where
  | first (fitness : Fitness) : Built (ofFirst fitness)
  | push {history next : History Fitness} {fitness : Fitness} (h : Built history)
    (hpush : history.push fitness = .ok next) : Built next

section Order

variable {history next : History Fitness} {fitness : Fitness}

theorem History.push_eq_ok (h : history.push fitness = .ok next) :
    (∀ last, history.values.back? = some last → (compare last fitness).isLE = true) ∧
      next = ⟨history.values.push fitness⟩ := by
  unfold push at h
  split at h
  · next hallowed =>
    cases h
    refine ⟨fun last hlast => ?_, rfl⟩
    rwa [hlast] at hallowed
  · cases h

theorem History.Built.pos (h : history.Built) : 0 < history.size := by
  cases h with
  | first fitness => exact Nat.one_pos
  | push h hpush =>
    obtain ⟨-, rfl⟩ := push_eq_ok hpush
    rw [size, Array.size_push]
    exact Nat.succ_pos _

theorem History.Built.ordered [Std.TransOrd Fitness] (h : history.Built) :
    Ordered history.values.toList := by
  induction h with
  | first fitness => exact List.pairwise_singleton _ _
  | push h hpush ih =>
    obtain ⟨hlast, rfl⟩ := push_eq_ok hpush
    exact pairwise_push (fun _ _ _ => Std.TransCmp.isLE_trans) ih hlast

end Order

/-! ## Splitting -/

/-- A fitness splits a list at a place: what is before it is below the fitness, and the rest not. -/
structure Splits (values : List Fitness) (probe : Fitness) (i : Nat) : Prop where
  le : i ≤ values.length
  below : ∀ past ∈ values.take i, compare past probe = .lt
  above : ∀ past ∈ values.drop i, compare past probe ≠ .lt

section Splitting

variable {values : List Fitness} {past probe fitter : Fitness} {i j : Nat}

/-- The entries below a fitness are as many as there are before the place where it splits. -/
theorem Splits.countP_isLT (h : Splits values probe i) :
    (values.countP fun past => (compare past probe).isLT) = i := by
  have hbelow : ((values.take i).countP fun past => (compare past probe).isLT) = i := by
    rw [List.countP_eq_length.mpr fun past hpast =>
      Ordering.isLT_iff_eq_lt.mpr (h.below past hpast), List.length_take_of_le h.le]
  have habove : ((values.drop i).countP fun past => (compare past probe).isLT) = 0 :=
    List.countP_eq_zero.mpr fun past hpast hlt =>
      h.above past hpast (Ordering.isLT_iff_eq_lt.mp hlt)
  conv_lhs => rw [← List.take_append_drop i values]
  rw [List.countP_append, hbelow, habove, Nat.add_zero]

/-- No list is split at two places. -/
theorem Splits.unique (hi : Splits values probe i) (hj : Splits values probe j) : i = j :=
  hi.countP_isLT.symm.trans hj.countP_isLT

theorem countP_isLT_add_countP_isGE (values : List Fitness) (probe : Fitness) :
    (values.countP fun past => (compare past probe).isLT)
      + (values.countP fun past => (compare past probe).isGE) = values.length := by
  rw [List.length_eq_countP_add_countP fun past => (compare past probe).isLT]
  congr 1
  refine List.countP_congr fun past _ => ?_
  cases compare past probe <;> decide

variable [Std.TransOrd Fitness]

/-- A list in order is split at the first entry that is not below the fitness. -/
theorem splits_findIdx (h : Ordered values) (probe : Fitness) :
    Splits values probe (values.findIdx fun past => !(compare past probe).isLT) := by
  induction values with
  | nil => exact ⟨Nat.le_refl _, by simp, by simp⟩
  | cons first rest ih =>
    obtain ⟨hfirst, hrest⟩ := List.pairwise_cons.mp h
    rw [List.findIdx_cons]
    by_cases hlt : compare first probe = .lt
    · obtain ⟨hle, hbelow, habove⟩ := ih hrest
      rw [Ordering.isLT_iff_eq_lt.mpr hlt]
      refine ⟨Nat.succ_le_succ hle, ?_, habove⟩
      rw [Bool.not_true, cond_false, List.take_succ_cons, List.forall_mem_cons]
      exact ⟨hlt, hbelow⟩
    · rw [Bool.eq_false_iff.mpr (mt Ordering.isLT_iff_eq_lt.mp hlt)]
      refine ⟨Nat.zero_le _, by simp, ?_⟩
      rw [Bool.not_false, cond_true, List.drop_zero, List.forall_mem_cons]
      -- what follows is no lower than the first entry
      exact ⟨hlt, fun past hpast hbelow =>
        hlt (Std.TransCmp.lt_of_isLE_of_lt (hfirst past hpast) hbelow)⟩

/-- A fitter one has no fewer entries below it. -/
theorem countP_isLT_le_of_isLE (hle : (compare probe fitter).isLE = true) :
    (values.countP fun past => (compare past probe).isLT)
      ≤ values.countP fun past => (compare past fitter).isLT := by
  refine List.countP_mono_left fun past _ hlt => ?_
  rw [Ordering.isLT_iff_eq_lt] at hlt ⊢
  exact Std.TransCmp.lt_of_lt_of_isLE hlt hle

/-! ## Inserting -/

omit [Ord Fitness] [Std.TransOrd Fitness] in
theorem insertIdx_eq_append (h : i ≤ values.length) :
    values.insertIdx i probe = values.take i ++ probe :: values.drop i := by
  induction values generalizing i with
  | nil =>
    rw [Nat.le_zero.mp h]
    rfl
  | cons first rest ih =>
    cases i with
    | zero => rfl
    | succ i =>
      rw [List.insertIdx_succ_cons, ih (Nat.le_of_succ_le_succ h)]
      rfl

omit [Std.TransOrd Fitness] in
/-- A fitness fits wherever nothing before it is above it, and nothing after it is below it. -/
theorem ordered_insertIdx_iff (h : Ordered values) (hi : i ≤ values.length) :
    Ordered (values.insertIdx i probe) ↔
      (∀ past ∈ values.take i, (compare past probe).isLE = true) ∧
        ∀ past ∈ values.drop i, (compare probe past).isLE = true := by
  have hparts : Ordered (values.take i ++ values.drop i) := by
    rwa [List.take_append_drop]
  obtain ⟨htake, hdrop, hcross⟩ := List.pairwise_append.mp hparts
  rw [insertIdx_eq_append hi, Ordered, List.pairwise_append, List.pairwise_cons]
  constructor
  · rintro ⟨-, ⟨hafter, -⟩, hbefore⟩
    exact ⟨fun past hpast => hbefore past hpast probe List.mem_cons_self, hafter⟩
  · rintro ⟨hbefore, hafter⟩
    refine ⟨htake, ⟨hafter, hdrop⟩, fun past hpast => ?_⟩
    rw [List.forall_mem_cons]
    exact ⟨hbefore past hpast, hcross past hpast⟩

/-- A fitness splits a list at the leftmost place at which it can be inserted in order. -/
theorem Splits.isLeast (h : Splits values probe i) (hvalues : Ordered values) :
    IsLeast {j | j ≤ values.length ∧ Ordered (values.insertIdx j probe)} i := by
  constructor
  · refine ⟨h.le, (ordered_insertIdx_iff hvalues h.le).mpr ⟨fun past hpast => ?_, ?_⟩⟩
    · rw [h.below past hpast]
      rfl
    · intro past hpast
      exact Std.OrientedCmp.isGE_iff_isLE.mp (Ordering.isGE_iff_ne_lt.mpr (h.above past hpast))
  · rintro j ⟨hj, hordered⟩
    refine Nat.le_of_not_lt fun hlt => ?_
    have hinside : j < values.length := Nat.lt_of_lt_of_le hlt h.le
    -- further to the left an entry below the fitness would come after it
    have hbelow := h.below values[j] (List.mem_take_iff_getElem.mpr ⟨j, by omega, rfl⟩)
    have hafter := ((ordered_insertIdx_iff hvalues hj).mp hordered).2 values[j]
      (List.mem_drop_iff_getElem.mpr ⟨0, by omega, rfl⟩)
    rw [Std.OrientedCmp.gt_of_lt hbelow] at hafter
    cases hafter

end Splitting

/-! ## Shares -/

/-- The bests at or above a fitness, as a fraction of all. -/
def History.fraction (history : History Fitness) (fitness : Fitness) : ℚ :=
  (history.values.toList.countP fun past => (compare past fitness).isGE) / history.size

/-- How the position and the share of a fitness go together with the order of a history. -/
structure History.Ranks (history : History Fitness) (probe : Fitness) : Prop where
  /-- The history is split at the position, and nowhere else. -/
  splits : ∀ i, Splits history.values.toList probe i ↔ i = history.position probe
  below : history.position probe
    = history.values.toList.countP fun past => (compare past probe).isLT
  leftmost : IsLeast
    {i | i ≤ history.size ∧ Ordered (history.values.toList.insertIdx i probe)}
    (history.position probe)
  above : history.atOrAbove probe
    = history.values.toList.countP fun past => (compare past probe).isGE
  /-- Nothing is lost by the subtraction. -/
  whole : history.position probe + history.atOrAbove probe = history.size
  share : history.share probe = (history.atOrAbove probe).toFloat / history.size.toFloat
  fraction : history.fraction probe
    = ((history.size : ℚ) - history.position probe) / history.size
  bounds : 0 ≤ history.fraction probe ∧ history.fraction probe ≤ 1
  antitone : ∀ fitter, (compare probe fitter).isLE = true →
    history.fraction fitter ≤ history.fraction probe

/-- Some best of a history is at or above a fitness. -/
structure History.Outranks (history : History Fitness) (probe : Fitness) : Prop where
  inside : history.position probe < history.size
  share : 1 / (history.size : ℚ) ≤ history.fraction probe

namespace History

variable [Std.TransOrd Fitness] {history : History Fitness} {past probe : Fitness}

theorem Built.splits (h : history.Built) (probe : Fitness) :
    Splits history.values.toList probe (history.position probe) :=
  splits_findIdx h.ordered probe

theorem Built.position_add_countP (h : history.Built) (probe : Fitness) :
    history.position probe + (history.values.toList.countP fun past => (compare past probe).isGE)
      = history.size := by
  rw [size, ← Array.length_toList, ← countP_isLT_add_countP_isGE _ probe,
    (h.splits probe).countP_isLT]

theorem Built.fraction_eq (h : history.Built) (probe : Fitness) :
    history.fraction probe = ((history.size : ℚ) - history.position probe) / history.size := by
  rw [fraction, ← h.position_add_countP probe, Nat.cast_add, add_sub_cancel_left]

theorem Built.atOrAbove_eq (h : history.Built) (probe : Fitness) :
    history.atOrAbove probe
      = history.values.toList.countP fun past => (compare past probe).isGE := by
  have hwhole := h.position_add_countP probe
  unfold atOrAbove
  omega

omit [Std.TransOrd Fitness] in
/-- There is always a best to compare with. -/
theorem Built.share_eq (h : history.Built) (probe : Fitness) :
    history.share probe = (history.atOrAbove probe).toFloat / history.size.toFloat := by
  have hfilled : history.values.isEmpty = false := by
    rw [Array.isEmpty_eq_false_iff_exists_mem]
    exact ⟨_, Array.getElem_mem h.pos⟩
  rw [share, hfilled, if_neg Bool.false_ne_true]

theorem Built.fraction_le_one (h : history.Built) (probe : Fitness) :
    history.fraction probe ≤ 1 := by
  have hwhole := h.position_add_countP probe
  rw [fraction, div_le_one (Nat.cast_pos.mpr h.pos), Nat.cast_le]
  omega

/-- A fitter one comes no earlier in the history, so no more bests are at or above it. -/
theorem Built.fraction_le (h : history.Built) {fitter : Fitness}
    (hle : (compare probe fitter).isLE = true) :
    history.fraction fitter ≤ history.fraction probe := by
  have hposition : history.position probe ≤ history.position fitter := by
    rw [← (h.splits probe).countP_isLT, ← (h.splits fitter).countP_isLT]
    exact countP_isLT_le_of_isLE hle
  rw [h.fraction_eq, h.fraction_eq]
  have hrest : (history.size : ℚ) - history.position fitter
      ≤ history.size - history.position probe :=
    sub_le_sub_left (Nat.cast_le.mpr hposition) _
  exact div_le_div_of_nonneg_right hrest (Nat.cast_nonneg _)

theorem Built.ranks (h : history.Built) (probe : Fitness) : history.Ranks probe where
  splits i := by
    constructor
    · intro hi
      exact hi.unique (h.splits probe)
    · rintro rfl
      exact h.splits probe
  below := (h.splits probe).countP_isLT.symm
  leftmost := (h.splits probe).isLeast h.ordered
  above := h.atOrAbove_eq probe
  whole := by
    rw [h.atOrAbove_eq]
    exact h.position_add_countP probe
  share := h.share_eq probe
  fraction := h.fraction_eq probe
  bounds := ⟨div_nonneg (Nat.cast_nonneg _) (Nat.cast_nonneg _), h.fraction_le_one probe⟩
  antitone _ hle := h.fraction_le hle

/-- It is enough that one of the bests is not below the fitness. -/
theorem Built.outranks (h : history.Built) (hpast : past ∈ history.values)
    (habove : compare past probe ≠ .lt) : history.Outranks probe := by
  have hwhole := h.position_add_countP probe
  have hcount : 0 < history.values.toList.countP fun past => (compare past probe).isGE :=
    List.countP_pos_iff.mpr
      ⟨past, Array.mem_toList_iff.mpr hpast, Ordering.isGE_iff_ne_lt.mpr habove⟩
  refine ⟨by omega, ?_⟩
  exact div_le_div_of_nonneg_right (Nat.one_le_cast.mpr hcount) (Nat.cast_nonneg _)

end History

/-! ## Searches -/

variable [Std.TransOrd Fitness] {s : Search Gene Fitness} {parent : Chromosome Gene Fitness}
  {fitness : Fitness} {r r' : Records Gene Fitness} {progress : Progress Gene Fitness}

/-- A search only adds to its history what the history accepts. -/
theorem Signal.built (h : Signal r r' progress) (hr : r.Coherent) (hbuilt : r.history.Built) :
    r'.history.Built := by
  cases h with
  | surpassed hphase hbest => exact hbuilt.push (hr.push_eq hbest)
  | _ => exact hbuilt

/-- What is worse than some parent is below the best, with which the history ends. -/
theorem Bounded.outranks (h : s.Bounded) (hs : s.records.Coherent) (hbuilt : s.history.Built)
    (hparent : parent ∈ s.pool) (hworse : compare fitness parent.fitness = .lt) :
    s.history.Outranks fitness := by
  have hbest : s.best.fitness ∈ s.history.values := Array.mem_of_back? hs
  have hle := Chromosome.not_beats_iff_isLE.mp (h parent hparent)
  have hbelow : compare fitness s.best.fitness = .lt := Std.TransCmp.lt_of_lt_of_isLE hworse hle
  refine hbuilt.outranks hbest ?_
  rw [Std.OrientedCmp.gt_of_lt hbelow]
  decide

variable [WordSource ω] [Clock ω] {p : Problem ω Gene Fitness} {cfg : Config} {v w : ω}
  {changes : List (ω → ω)} {past : List (Stride ω Gene Fitness)}

/-- What steps keep of a search and its history, and of its pool unless they overlook a refill. -/
structure Chronicled (p : Problem ω Gene Fitness) (cfg : Config)
    (past : List (Stride ω Gene Fitness)) (s : Search Gene Fitness) : Prop where
  turn : InTurn cfg (visitsOf cfg past) s
  sound : Sound p s
  built : s.history.Built
  bounded : (NeverRefills p ∨ ∀ stride ∈ past, ¬stride.Overlooks p cfg) → s.Bounded

theorem chronicled_opened (hstart : start p cfg w = (.ok s, v)) : Chronicled p cfg [] s where
  turn := inTurn_opened hstart
  sound := sound_opened (session_of_start hstart)
  built := by
    obtain ⟨-, first, -, rfl⟩ := start_eq_ok hstart
    exact .first _
  bounded _ := bounded_opened (session_of_start hstart)

theorem Chronicled.step (h : Chronicled p cfg past s) (w : ω) :
    Chronicled p cfg (past ++ [Search.stride p cfg s w]) (step p cfg s w).search where
  turn := h.turn.step_append p w
  sound := h.sound.step cfg w
  built := (step_signal p cfg w h.sound.coherent).built h.sound.coherent h.built
  bounded := by
    rintro (hp | hseen)
    · exact bounded_step h.sound.coherent (h.bounded (.inl hp)) (not_overlooks hp h.sound)
    · rw [List.forall_mem_append, List.forall_mem_singleton] at hseen
      exact bounded_step h.sound.coherent (h.bounded (.inr hseen.1)) hseen.2

/-- What is to be said of the histories of a search that has taken steps from a first one on. -/
structure HistoryRanked (p : Problem ω Gene Fitness) (cfg : Config) (opened : Search Gene Fitness)
    (strides : List (Stride ω Gene Fitness)) : Prop where
  ranks : ∀ i probe, (arrived opened (strides.take i)).history.Ranks probe
  worse : ∀ i, (NeverRefills p ∨ ∀ stride ∈ strides.take i, ¬stride.Overlooks p cfg) →
    ∀ parent ∈ (arrived opened (strides.take i)).pool, ∀ fitness,
      compare fitness parent.fitness = .lt →
        (arrived opened (strides.take i)).history.Outranks fitness
  /-- In particular whenever a child is worse than the parent that is visited. -/
  visited : ∀ earlier stride later, strides = earlier ++ stride :: later →
    (NeverRefills p ∨ ∀ other ∈ earlier, ¬other.Overlooks p cfg) →
      ∀ slot child, stride.challenger p cfg slot = some child →
        compare child.fitness stride.before.visited.fitness = .lt →
          stride.before.history.Outranks child.fitness

theorem historyRanked_of_walk (hstart : start p cfg w = (.ok s, v)) :
    HistoryRanked p cfg s (walk p cfg changes s v) := by
  have hopened := chronicled_opened hstart
  have harrived : ∀ i, Chronicled p cfg ((walk p cfg changes s v).take i)
      (arrived s ((walk p cfg changes s v).take i)) :=
    walk_arrives (fun _ _ u ht => ht.step u) hopened
  refine ⟨fun i probe => (harrived i).built.ranks probe, ?_, ?_⟩
  · intro i hseen parent hparent fitness hworse
    obtain ⟨-, hsound, hbuilt, hbounded⟩ := harrived i
    exact (hbounded hseen).outranks hsound.coherent hbuilt hparent hworse
  · intro earlier stride later hsplit hseen slot child hchild hworse
    obtain ⟨t, u, ht, rfl⟩ := walk_split (I := Chronicled p cfg)
      (fun _ _ u ht => ht.step u) hopened hsplit
    exact (ht.bounded hseen).outranks ht.sound.coherent ht.built
      (Array.mem_of_getElem? ht.turn.visited) hworse

/--
**A history knows where a fitness stands.** A history comes about from a first best to which others
are added, and none is refused. The position of a fitness in it is the number of bests below the
fitness: it is where the bests below it end, and the leftmost place at which it can be inserted in
order. It never exceeds the number of bests, so the share of the fitness is the exact fraction of
the bests that are at or above it, between 0 and 1, and a fitter one has no larger share.

All histories of a search are of this kind, after any number of steps, with any changes of the world
between them, and when it is pulled for answers. As long as no refill fitter than the best has been
overlooked, and so always without recombination, whatever is worse than some parent in the pool has
a best at or above it: its position is inside the history, and its share no less than that of a
single best.
-/
theorem history_ranks (p : Problem ω Gene Fitness) (cfg : Config) :
    (∀ history : History Fitness, history.Built → ∀ probe, history.Ranks probe) ∧
    (∀ changes w s v, start p cfg w = (.ok s, v) →
      HistoryRanked p cfg s (walk p cfg changes s v)) ∧
    ∀ steps changes w run, session p cfg steps changes w = .ok run →
      HistoryRanked p cfg run.opened run.strides :=
  ⟨fun _ h => h.ranks, fun _ _ _ _ hstart => historyRanked_of_walk hstart, fun _ _ _ _ h =>
    session_of_walk (Q := HistoryRanked p cfg) (fun _ _ _ hstart => historyRanked_of_walk hstart) h⟩

/-- Five bests, two of them equal. -/
def equalBests : History Nat := ⟨#[1, 3, 3, 5, 8]⟩

theorem built_equalBests : equalBests.Built := by
  have h₂ : (History.ofFirst 1).push 3 = .ok ⟨#[1, 3]⟩ := rfl
  have h₃ : (⟨#[1, 3]⟩ : History Nat).push 3 = .ok ⟨#[1, 3, 3]⟩ := rfl
  have h₄ : (⟨#[1, 3, 3]⟩ : History Nat).push 5 = .ok ⟨#[1, 3, 3, 5]⟩ := rfl
  have h₅ : (⟨#[1, 3, 3, 5]⟩ : History Nat).push 8 = .ok equalBests := rfl
  exact ((((.first 1 : History.Built _).push h₂).push h₃).push h₄).push h₅

/-- A script whose last child is between the two bests. -/
def childBetween : World Random.Cycle Script :=
  ⟨⟨[0x80000000], []⟩, { tick := 1, candidates := [[5]], children := [[8], [6]] }⟩

/--
Four of five bests are at or above the second, and so they are for the third, which equals it. A
child of the second best of a search is below that and above the first.
-/
theorem history_ranks_equalBests :
    ∃ run, session (scripted false) { timeLimit := some 2 } 4 [id, id, id] childBetween = .ok run ∧
      run.search.history.values = #[5, 8] ∧
      run.evaluated.map (·.fitness) = [5, 8, 6] ∧
      run.search.history.position 6 = 1 ∧
      equalBests.position 3 = 1 ∧ equalBests.fraction 3 = 4 / 5 ∧ equalBests.Ranks 3 ∧
      HistoryRanked (scripted false) { timeLimit := some 2 } run.opened run.strides := by
  have h : session (scripted false) { timeLimit := some 2 } 4 [id, id, id] childBetween
      = .ok _ := rfl
  obtain ⟨hranks, -, hsession⟩ := history_ranks (scripted false) { timeLimit := some 2 }
  have hrank := hranks equalBests built_equalBests 3
  exact ⟨_, h, rfl, rfl, rfl, rfl, rfl, hrank, hsession 4 [id, id, id] childBetween _ h⟩

end EvolutionarySearch.Search
