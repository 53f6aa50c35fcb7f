import EvolutionarySearch.Proofs.Random.Alike
import EvolutionarySearch.Proofs.Search.Refill

/-!
# The operators that a step calls

Between the world before a step and the world after it lie the words that are read and the calls of
the problem's own operators. `Passage` is such a way from one world to another, with the calls in
their order, and every step makes one. What depends on the number of the calls or on their answers
is then shown by induction on the way, with no further look at the steps.

* `Turn.passage` — the way of a step, with the one call of `create` that `creation` foretells, and
  with some call wherever a slot is filled or visited
-/

namespace EvolutionarySearch.Search

variable {ω Gene Fitness : Type}

/-! ## Calls -/

/-- A call of one of a problem's operators; what `create` has answered goes with it. -/
inductive Call (Gene : Type) where
  | create (answer : Option (List Gene))
  | mutate (parent : List Gene)
  | crossover (parent donor : List Gene)

/-- The answer of a call of `create`. -/
def Call.created? : Call Gene → Option (Option (List Gene))
  | .create answer => some answer
  | _ => none

/-- What the calls of `create` have answered. -/
def creations (calls : List (Call Gene)) : List (Option (List Gene)) :=
  calls.filterMap Call.created?

@[simp] theorem creations_nil : creations ([] : List (Call Gene)) = [] := rfl

@[simp] theorem creations_create (answer : Option (List Gene)) (calls : List (Call Gene)) :
    creations (.create answer :: calls) = answer :: creations calls := rfl

@[simp] theorem creations_mutate (parent : List Gene) (calls : List (Call Gene)) :
    creations (.mutate parent :: calls) = creations calls := rfl

@[simp] theorem creations_crossover (parent donor : List Gene) (calls : List (Call Gene)) :
    creations (.crossover parent donor :: calls) = creations calls := rfl

@[simp] theorem creations_append (calls more : List (Call Gene)) :
    creations (calls ++ more) = creations calls ++ creations more :=
  List.filterMap_append

/-- A way from a world, with the calls on it. Parents are combined only if the problem says so. -/
inductive Passage [WordSource ω] (p : Problem ω Gene Fitness) (w : ω) :
    List (Call Gene) → ω → Prop where
  | stay : Passage p w [] w
  | word32 {calls : List (Call Gene)} {v : ω} (h : Passage p w calls v) :
    Passage p w calls (WordSource.next32 v).2
  | word64 {calls : List (Call Gene)} {v : ω} (h : Passage p w calls v) :
    Passage p w calls (WordSource.next64 v).2
  | create {calls : List (Call Gene)} {v : ω} (h : Passage p w calls v) :
    Passage p w (calls ++ [.create (p.create v).1]) (p.create v).2
  | mutate {calls : List (Call Gene)} {v : ω} (h : Passage p w calls v) (parent : List Gene) :
    Passage p w (calls ++ [.mutate parent]) (p.mutate parent v).2
  | crossover {calls : List (Call Gene)} {v : ω} (h : Passage p w calls v)
    (hrecombines : p.recombines = true) (parent donor : List Gene) :
    Passage p w (calls ++ [.crossover parent donor]) (p.crossover parent donor v).2

section Passages

variable [WordSource ω] {p : Problem ω Gene Fitness} {w v : ω} {calls : List (Call Gene)}

theorem Passage.kept : KeptByWords (Passage p w calls) where
  next32 := .word32
  next64 := .word64

theorem passage_of_draw {repertoire : Repertoire} {strategy : Strategy}
    (h : repertoire.draw w = (strategy, v)) : Passage p w [] v := by
  have hdrawn : Passage p w [] (repertoire.draw w).2 := by
    unfold Repertoire.draw
    split
    · exact Passage.kept.below _ .stay
    · exact .stay
  rwa [h] at hdrawn

/-- Parents are combined only where the problem says so. -/
theorem passage_of_crossing {s : Search Gene Fitness} {answer : Option (List Gene)} {v' : ω}
    (hdraw : s.repertoire.draw w = (.crossover, v)) (hcross : crossing p s v = (answer, v'))
    (hs : s.repertoire.recombines = p.recombines) :
    ∃ donor, Passage p w [.crossover s.visited.genes donor] v' := by
  have hcrossed := (Passage.kept.below s.pool.size (passage_of_draw hdraw)).crossover
    (hs ▸ draw_recombines hdraw (by decide)) s.visited.genes
    (s.pool.getD (s.donor v) s.visited).genes
  rw [← crossing, hcross] at hcrossed
  exact ⟨_, hcrossed⟩

variable [Clock ω]

theorem Passage.generate (h : Passage p w calls v) (length : Nat) :
    Passage p w (calls ++ [.create (p.create v).1]) (p.generate length v).2 := by
  have hcreate := h.create
  unfold Problem.generate
  split
  · next genes v' hcreated =>
    rw [hcreated] at hcreate ⊢
    exact hcreate
  · next v' hcreated =>
    rw [hcreated] at hcreate ⊢
    dsimp only at hcreate ⊢
    split
    · exact hcreate
    · split
      · exact hcreate
      · exact Passage.kept.sample _ _ hcreate

theorem Passage.derive (h : Passage p w calls v) (parent : Chromosome Gene Fitness) :
    Passage p w (calls ++ [.mutate parent.genes]) (p.derive parent v).2 :=
  h.mutate parent.genes

end Passages

/-! ## Where candidates are created -/

variable [WordSource ω] [Clock ω]

/--
The world in which `create` is called while a child is bred: for the child itself, or for the slot
of a donor that could not be told from the parent.
-/
def broodCreation (p : Problem ω Gene Fitness) (s : Search Gene Fitness) (w : ω) : Option ω :=
  match s.repertoire.draw w with
  | (.crossover, w) =>
    match crossing p s w with
    | (some _, _) => none
    | (none, w) => some w
  | (.create, w) => some w
  | _ => none

/-- The world in which a step calls `create`: for a new slot, or while a child is bred. -/
def creation (p : Problem ω Gene Fitness) (cfg : Config) (s : Search Gene Fitness) (w : ω) :
    Option ω :=
  if s.phase = .running ∧ s.expired cfg w = false then
    if s.pool.size < cfg.poolSize then some w else broodCreation p s w
  else none

variable {p : Problem ω Gene Fitness} {cfg : Config} {s : Search Gene Fitness} {w : ω}

theorem creation_of_idle (h : ¬(s.phase = .running ∧ s.expired cfg w = false)) :
    creation p cfg s w = none :=
  if_neg h

theorem creation_of_room (hphase : s.phase = .running) (htime : s.expired cfg w = false)
    (hroom : s.pool.size < cfg.poolSize) : creation p cfg s w = some w := by
  unfold creation
  rw [if_pos ⟨hphase, htime⟩, if_pos hroom]

theorem creation_of_full (hphase : s.phase = .running) (htime : s.expired cfg w = false)
    (hfull : cfg.poolSize ≤ s.pool.size) : creation p cfg s w = broodCreation p s w := by
  unfold creation
  rw [if_pos ⟨hphase, htime⟩, if_neg (Nat.not_lt.mpr hfull)]

/-! ## The calls of a step -/

/-- Some operator is called for every child. -/
theorem Attempt.passage {bred : Breeding ω Gene Fitness} (h : Attempt p cfg s w bred)
    (hs : s.repertoire.recombines = p.recombines) :
    ∃ calls, Passage p w calls bred.world ∧ calls ≠ [] ∧
      creations calls = ((broodCreation p s w).map fun v => (p.create v).1).toList := by
  cases h with
  | combined hdraw hcross =>
    obtain ⟨donor, hcrossed⟩ := passage_of_crossing hdraw hcross hs
    exact ⟨_, hcrossed, by simp, by simp [broodCreation, hdraw, hcross]⟩
  | unmatched hdraw hcross hgen =>
    obtain ⟨donor, hcrossed⟩ := passage_of_crossing hdraw hcross hs
    exact ⟨_, hcrossed.generate cfg.targetLength, by simp, by simp [broodCreation, hdraw, hcross]⟩
  | refilled hdraw hcross hgen =>
    obtain ⟨donor, hcrossed⟩ := passage_of_crossing hdraw hcross hs
    exact ⟨_, (hcrossed.generate cfg.targetLength).derive s.visited, by simp,
      by simp [broodCreation, hdraw, hcross]⟩
  | uncreated hdraw hgen =>
    exact ⟨_, (passage_of_draw hdraw).generate cfg.targetLength, by simp,
      by simp [broodCreation, hdraw]⟩
  | created hdraw hgen =>
    exact ⟨_, (passage_of_draw hdraw).generate cfg.targetLength, by simp,
      by simp [broodCreation, hdraw]⟩
  | mutated hdraw hmutates =>
    refine ⟨_, (passage_of_draw hdraw).derive s.visited, by simp, ?_⟩
    rcases hmutates with rfl | rfl <;> simp [broodCreation, hdraw]

variable [Ord Fitness] {taken : Step ω Gene Fitness}

omit [WordSource ω] in
theorem world_promote (s : Search Gene Fitness) (c : Chromosome Gene Fitness) (w : ω)
    (evaluated : List (Evaluation Gene Fitness)) : (s.promote c w evaluated).world = w := by
  unfold promote
  dsimp only
  split <;> rfl

/-- A contest reads words and calls no operator. -/
theorem Verdict.kept {I : ω → Prop} {slot : Nat} {parent child : Chromosome Gene Fitness}
    {kept : Bool} {evaluated : List (Evaluation Gene Fitness)}
    (h : Verdict cfg s slot parent kept child w evaluated taken) (hkept : KeptByWords I)
    (hw : I w) : I taken.world := by
  cases h with
  | retired hworse hage hold =>
    unfold anneal
    dsimp only
    split <;> exact hkept.unit hw
  | surpassed hbetter hbest => rwa [world_promote]
  | _ => exact hw

theorem Turn.passage (h : Turn p cfg s w taken) (hs : s.repertoire.recombines = p.recombines) :
    ∃ calls, Passage p w calls taken.world ∧
      (s.phase = .running → s.expired cfg w = false → calls ≠ []) ∧
      creations calls = ((creation p cfg s w).map fun v => (p.create v).1).toList := by
  have hgenerated := (Passage.stay (p := p) (w := w)).generate cfg.targetLength
  cases h with
  | silent hphase =>
    rw [creation_of_idle (by simp [hphase])]
    exact ⟨[], .stay, by simp [hphase], rfl⟩
  | timedOut hphase hlate =>
    rw [creation_of_idle (by simp [hlate])]
    exact ⟨[], .stay, by simp [hlate], rfl⟩
  | announced hphase htime =>
    rw [creation_of_idle (by simp [hphase])]
    exact ⟨[], .stay, by simp [hphase], rfl⟩
  | unfilled hphase htime hroom hgen =>
    rw [creation_of_room hphase htime hroom]
    exact ⟨_, hgenerated, by simp, rfl⟩
  | filled hphase htime hroom hgen hbest =>
    rw [creation_of_room hphase htime hroom]
    exact ⟨_, hgenerated, by simp, rfl⟩
  | filledBest hphase htime hroom hgen hbest =>
    rw [creation_of_room hphase htime hroom, world_promote]
    exact ⟨_, hgenerated, by simp, rfl⟩
  | barren hphase htime hfull hbred =>
    rw [creation_of_full hphase htime hfull]
    obtain ⟨calls, hpassage, hsome, hcreated⟩ := (brood_attempt p cfg s w).passage hs
    exact ⟨calls, hpassage, fun _ _ => hsome, hcreated⟩
  | visit hphase htime hfull hbred hverdict =>
    rw [creation_of_full hphase htime hfull]
    obtain ⟨calls, hpassage, hsome, hcreated⟩ := (brood_attempt p cfg s w).passage hs
    exact ⟨calls, hverdict.kept Passage.kept hpassage, fun _ _ => hsome, hcreated⟩

end EvolutionarySearch.Search
