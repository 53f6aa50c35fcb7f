import EvolutionarySearch.Proofs.Search.Frame
import EvolutionarySearch.Proofs.Search.Recombination
import Mathlib.Data.List.Induction

/-!
# Visits in turn

A visit works on one slot. It breeds a child from the parent that sits there, and what is left in
the slot is decided between the two of them. It writes no other slot but that of a donor with which
the parent could not be combined. The slot is the one that is due after the visits before, so all
slots are worked on in turn.

* `InTurn.works` — what a visit reads and what it writes
* `visits_in_turn` — the slots on which the visits of a search work
-/

namespace EvolutionarySearch.Search

variable {ω Gene Fitness : Type}

/-! ## One visit -/

section Visits

variable [Ord Fitness] [WordSource ω]

/-- What is left in the slot of a parent for which an offspring has been bred. -/
inductive Settlement (cfg : Config) (r : Records Gene Fitness) (slot : Nat)
    (parent : Chromosome Gene Fitness) (offspring : Offspring Gene Fitness) (w : ω) :
    Chromosome Gene Fitness → Prop where
  /-- The child and its parent have met. -/
  | decided {c : Chromosome Gene Fitness}
    (hdecision : Decision cfg r parent offspring.child.chromosome w c) :
    Settlement cfg r slot parent offspring w c
  /-- The parent was its own donor. It has given way to the refill, and the child is worse. -/
  | displaced {fresh : Evaluation Gene Fitness} (hrefill : offspring.refill = some (slot, fresh))
    (hworse : compare offspring.child.chromosome.fitness parent.fitness = .lt) :
    Settlement cfg r slot parent offspring w fresh.chromosome

variable [Clock ω]

/-- A step works on a slot: it breeds from the parent there, and settles what is left there. -/
structure Stride.Works (p : Problem ω Gene Fitness) (cfg : Config) (stride : Stride ω Gene Fitness)
    (slot : Nat) (parent : Chromosome Gene Fitness) (bred : Breeding ω Gene Fitness) : Prop where
  inside : stride.before.pool[slot]? = some parent
  /-- The child is bred from this parent, as that of this slot. -/
  attempt : bred = breed p cfg.targetLength stride.before.repertoire stride.before.pool slot parent
    stride.world
  /-- The cursor comes to the slot, and is left there. -/
  cursor : stride.before.nextSlot = slot ∧ stride.taken.search.cursor = slot
  /-- Without a child nothing is written. -/
  barren : ∀ error, bred.outcome = .error error →
    stride.taken.search.pool = stride.before.pool ∧
      stride.taken.progress = .answered (.error error)
  /-- The genes of the child are this parent's mutated, or combined with others, or new. -/
  made : ∀ offspring, bred.outcome = .ok offspring →
    p.Bred cfg.targetLength parent.genes offspring.child.chromosome
  /-- Nothing is evaluated but the child, and before it the refill. -/
  evaluated : ∀ offspring, bred.outcome = .ok offspring →
    stride.taken.evaluated = offspring.evaluated
  settled : ∀ offspring, bred.outcome = .ok offspring →
    ∃ c, stride.taken.search.pool[slot]? = some c ∧
      Settlement cfg stride.before.records slot parent offspring bred.world c
  /-- All other slots are left as they are after the attempt. -/
  others : ∀ i, i ≠ slot → stride.taken.search.pool[i]? = (bred.leaves stride.before.pool)[i]?
  /-- So what is written is this slot, or that of an exhausted donor. -/
  writes : ∀ i, stride.taken.search.pool[i]? ≠ stride.before.pool[i]? →
    i = slot ∨ stride.before.exhausted p stride.world = some i

variable {p : Problem ω Gene Fitness} {cfg : Config} {s : Search Gene Fitness} {w : ω}
  {offspring : Offspring Gene Fitness} {visits : Nat}

/-- The contest of a visit settles its slot, whether or not the parent is still there. -/
theorem InTurn.settles (h : InTurn cfg visits s) (hvisits : (stride p cfg s w).visits cfg = true)
    (hbred : (s.brood p cfg w).outcome = .ok offspring) :
    ∃ c, (Search.step p cfg s w).search.pool[s.nextSlot]? = some c ∧
      Settlement cfg s.records s.nextSlot s.visited offspring (s.brood p cfg w).world c := by
  have hinformed := h.knowsParent p w hvisits offspring hbred
  have hverdict := (step_turn p cfg s w).verdict hvisits hbred
  have hslot : ((s.moved (s.brood p cfg w).notes).refill offspring).pool[s.nextSlot]?
      = if s.betrays w offspring.child.chromosome then offspring.refill.map (·.2.chromosome)
        else some s.visited :=
    (congrArg (·[s.nextSlot]?) hinformed.left).trans hinformed.slot
  rw [(brood_attempt p cfg s w).keeps_eq hbred] at hverdict
  cases hgone : s.betrays w offspring.child.chromosome with
  | false =>
    rw [hgone] at hverdict
    rw [hgone, if_neg Bool.false_ne_true] at hslot
    obtain ⟨c, hc, hdecision⟩ := hverdict.decision hslot
    rw [records_refill, records_moved] at hdecision
    exact ⟨c, hc, .decided hdecision⟩
  | true =>
    obtain ⟨fresh, hrefill⟩ := hinformed.gone_iff.mp hgone
    rw [hgone] at hverdict
    rw [hgone, if_pos rfl, hrefill] at hslot
    obtain ⟨c, hc, hsettled⟩ := hverdict.settles hslot nofun
    rw [records_refill, records_moved] at hsettled
    rcases hsettled with hdecision | ⟨-, hworse, rfl⟩
    · exact ⟨c, hc, .decided hdecision⟩
    · exact ⟨_, hc, .displaced hrefill hworse⟩

/-- A visit works on the slot that comes next. -/
theorem InTurn.works (h : InTurn cfg visits s) (hvisits : (stride p cfg s w).visits cfg = true) :
    (stride p cfg s w).Works p cfg s.nextSlot s.visited (s.brood p cfg w) where
  inside := h.visited
  attempt := rfl
  cursor := by
    rcases (step_turn p cfg s w).cursor with ⟨-, hcursor, -⟩ | ⟨hnone, -⟩
    · exact ⟨rfl, hcursor⟩
    · exact absurd (hvisits.symm.trans hnone) (by decide)
  barren error hbred := by
    show (Search.step p cfg s w).search.pool = s.pool ∧ (Search.step p cfg s w).progress = _
    rw [step_of_visits hvisits, visit_of_barren hbred]
    exact ⟨rfl, rfl⟩
  made offspring hbred := ((brood_attempt p cfg s w).bred hbred).2
  evaluated offspring hbred := ((step_turn p cfg s w).verdict hvisits hbred).evaluated_eq
  settled offspring hbred := h.settles hvisits hbred
  others i hi := by
    show (Search.step p cfg s w).search.pool[i]? = ((s.brood p cfg w).leaves s.pool)[i]?
    cases hbred : (s.brood p cfg w).outcome with
    | error error =>
      rw [Breeding.leaves_of_error hbred, step_of_visits hvisits, visit_of_barren hbred]
      rfl
    | ok offspring =>
      rw [Breeding.leaves_of_ok hbred s (s.brood p cfg w).notes]
      exact ((step_turn p cfg s w).verdict hvisits hbred).frame hi
  writes := (framed_stride p cfg s w).slots (Stride.visits_iff.mp hvisits).2.2

end Visits

/-! ## All visits -/

/-- The slots that are visited in steps, in their order. -/
def visitedSlots [Clock ω] (cfg : Config) (strides : List (Stride ω Gene Fitness)) : List Nat :=
  (strides.filter (·.visits cfg)).map (·.before.nextSlot)

section Slots

variable [Clock ω] {cfg : Config} {strides : List (Stride ω Gene Fitness)}

theorem visitedSlots_append (cfg : Config) (strides more : List (Stride ω Gene Fitness)) :
    visitedSlots cfg (strides ++ more) = visitedSlots cfg strides ++ visitedSlots cfg more := by
  simp [visitedSlots]

/-- The slots are visited in their order, if each is due when it is visited. -/
theorem visitedSlots_eq (h : ∀ past visit rest, strides = past ++ visit :: rest →
      visit.visits cfg = true →
      visit.before.nextSlot = slotInTurn cfg.poolSize (visitsOf cfg past)) :
    visitedSlots cfg strides
      = (List.range (visitsOf cfg strides)).map (slotInTurn cfg.poolSize) := by
  induction strides using List.reverseRecOn with
  | nil => rfl
  | append_singleton past stride ih =>
    have hpast := ih fun before visit rest hsplit =>
      h before visit (rest ++ [stride]) (by simp [hsplit])
    rw [visitedSlots_append, visitsOf_append, hpast]
    cases hvisits : stride.visits cfg with
    | true =>
      have hslot := h past stride [] rfl hvisits
      have hone : visitsOf cfg [stride] = 1 := by simp [visitsOf, hvisits]
      rw [hone, List.range_succ, List.map_append]
      simp [visitedSlots, hvisits, hslot]
    | false => simp [visitedSlots, visitsOf, hvisits]

theorem perm_visitedSlots (hpool : 0 < cfg.poolSize) (h : visitedSlots cfg strides
      = (List.range (visitsOf cfg strides)).map (slotInTurn cfg.poolSize))
    {i : Nat} (hi : i + cfg.poolSize ≤ visitsOf cfg strides) :
    (((visitedSlots cfg strides).drop i).take cfg.poolSize).Perm (List.range cfg.poolSize) := by
  have hround : ((List.range (visitsOf cfg strides)).drop i).take cfg.poolSize
      = List.range' i cfg.poolSize :=
    List.ext_getElem (by simp; omega) fun _ _ _ => by simp
  rw [h, ← List.map_drop, ← List.map_take, hround]
  exact perm_slotInTurn hpool i

end Slots

section Runs

variable [Ord Fitness] [WordSource ω] [Clock ω]

/-- How the slots of a search are visited. -/
structure VisitedInTurn (p : Problem ω Gene Fitness) (cfg : Config)
    (strides : List (Stride ω Gene Fitness)) : Prop where
  /-- Every visit works on the slot that is due after the visits before it. -/
  turns : ∀ past visit rest, strides = past ++ visit :: rest → visit.visits cfg = true →
    ∃ parent bred, visit.Works p cfg (slotInTurn cfg.poolSize (visitsOf cfg past)) parent bred
  slots : visitedSlots cfg strides
    = (List.range (visitsOf cfg strides)).map (slotInTurn cfg.poolSize)
  /-- Of as many visits in a row as there are slots, each slot has one. -/
  rounds : ∀ i, i + cfg.poolSize ≤ visitsOf cfg strides →
    (((visitedSlots cfg strides).drop i).take cfg.poolSize).Perm (List.range cfg.poolSize)
  /-- A full pool stays as large as it is. -/
  full : ∀ stride ∈ strides, cfg.poolSize ≤ stride.before.pool.size →
    stride.before.pool.size = cfg.poolSize ∧ stride.taken.search.pool.size = cfg.poolSize

variable {p : Problem ω Gene Fitness} {cfg : Config} {s : Search Gene Fitness} {w v : ω}
  {changes : List (ω → ω)} {visits : Nat}

theorem InTurn.full (h : InTurn cfg visits s) (p : Problem ω Gene Fitness) (w : ω)
    (hfull : cfg.poolSize ≤ s.pool.size) :
    s.pool.size = cfg.poolSize ∧ (Search.step p cfg s w).search.pool.size = cfg.poolSize := by
  have hsize : s.pool.size = cfg.poolSize := Nat.le_antisymm h.rounds.size_le hfull
  exact ⟨hsize, ((step_turn p cfg s w).size_of_full hfull).trans hsize⟩

/-- A visit of a walk works on the slot that is due after the visits before it. -/
theorem works_of_walk (hstart : start p cfg w = (.ok s, v))
    {past rest : List (Stride ω Gene Fitness)} {visit : Stride ω Gene Fitness}
    (hsplit : walk p cfg changes s v = past ++ visit :: rest) (hvisits : visit.visits cfg = true) :
    ∃ parent bred,
      visit.Works p cfg (slotInTurn cfg.poolSize (visitsOf cfg past)) parent bred := by
  obtain ⟨t, u, ht, rfl⟩ := walk_split (I := fun past t => InTurn cfg (visitsOf cfg past) t)
    (fun _ _ u ht => ht.step_append p u) (inTurn_opened hstart) hsplit
  rw [← ht.turn]
  exact ⟨_, _, ht.works hvisits⟩

theorem visitedInTurn_of_walk (hstart : start p cfg w = (.ok s, v)) :
    VisitedInTurn p cfg (walk p cfg changes s v) := by
  have hrounds := rounds_opened hstart
  have hpool : 0 < cfg.poolSize := Nat.lt_of_lt_of_le hrounds.pos hrounds.size_le
  have hslots : visitedSlots cfg (walk p cfg changes s v)
      = (List.range (visitsOf cfg (walk p cfg changes s v))).map (slotInTurn cfg.poolSize) := by
    refine visitedSlots_eq fun past visit rest hsplit hvisits => ?_
    obtain ⟨_, _, hworks⟩ := works_of_walk hstart hsplit hvisits
    exact hworks.cursor.1
  refine ⟨fun _ _ _ => works_of_walk hstart, hslots,
    fun i hi => perm_visitedSlots hpool hslots hi, ?_⟩
  exact walk_strides_of (I := fun past t => InTurn cfg (visitsOf cfg past) t)
    (fun _ _ u ht => ht.step_append p u) (inTurn_opened hstart) fun _ _ u ht => ht.full p u

/--
**The slots are visited in reverse round robin.** A search is started and takes any number of steps,
with any changes of the world between them, or it is pulled for answers. Whatever comes of its
visits, the first works on the lowest slot, the next on the highest, and so downwards and around:
the slot of a visit is minus the number of visits before it, modulo the number of slots.

The parent of a visit sits in that slot, and the child is bred from this parent. What is left in the
slot is decided between the two, and no other slot is written but that of a donor with which the
parent could not be combined. So the slot is always one of the pool, which keeps its size once it is
full, and as many visits in a row as there are slots go to each slot once.
-/
theorem visits_in_turn (p : Problem ω Gene Fitness) (cfg : Config) :
    (∀ changes w s v, start p cfg w = (.ok s, v) →
      VisitedInTurn p cfg (walk p cfg changes s v)) ∧
    ∀ steps changes w run, session p cfg steps changes w = .ok run →
      VisitedInTurn p cfg run.strides :=
  ⟨fun _ _ _ _ hstart => visitedInTurn_of_walk hstart, fun _ _ _ _ h =>
    session_of_walk (Q := fun _ strides => VisitedInTurn p cfg strides)
      (fun _ _ _ hstart => visitedInTurn_of_walk hstart) h⟩

/-- A script with time for three candidates and five children, the second of them a new best. -/
def fiveVisits : World Random.Cycle Script :=
  ⟨⟨[], []⟩,
    { tick := 1, candidates := [[3], [2], [7]], children := [[4], [9], [2], [6], [1]] }⟩

/--
Two visits before the new best is announced, and three after it. A better child takes the first slot
and then the third, an equal one the second, a better one the first again; the last child is worse.
-/
theorem visits_in_turn_fiveVisits :
    ∃ run, session (scripted false) { poolSize := 3, timeLimit := some 7 } 9 [id, id, id, id]
        fiveVisits = .ok run ∧
      run.answers = [announcement ⟨[3], 3, .create, 0⟩, announcement ⟨[7], 7, .create, 0⟩,
        announcement ⟨[9], 9, .mutate, 0⟩, some (.ok (.timedOut ⟨[9], 9, .mutate, 0⟩))] ∧
      visitedSlots { poolSize := 3, timeLimit := some 7 } run.strides = [0, 2, 1, 0, 2] ∧
      ((run.strides.filter (·.visits { poolSize := 3, timeLimit := some 7 })).map fun stride =>
          stride.taken.search.pool.toList.map fun c => (c.fitness, c.age))
        = [[(4, 0), (2, 0), (7, 0)], [(4, 0), (2, 0), (9, 0)], [(4, 0), (2, 1), (9, 0)],
          [(6, 0), (2, 1), (9, 0)], [(6, 0), (2, 1), (9, 0)]] ∧
      VisitedInTurn (scripted false) { poolSize := 3, timeLimit := some 7 } run.strides := by
  have h : session (scripted false) { poolSize := 3, timeLimit := some 7 } 9 [id, id, id, id]
      fiveVisits = .ok _ := rfl
  exact ⟨_, h, rfl, rfl, rfl, (visits_in_turn _ _).2 9 [id, id, id, id] fiveVisits _ h⟩

end Runs

end EvolutionarySearch.Search
