import EvolutionarySearch.Proofs.Search.Population

/-!
# The integrity of chromosomes

While a chromosome sits in the pool it is copied, aged and put back, and a child may come of another
operator than the one that was drawn. Its fitness has to remain that of its genes all the same, and
its tag the operator that has built it.

`Origin` follows a chromosome back to the step that has put it into its slot. From there on every
step has spared the slot.

* `inherited_genuine` — every candidate is genuine, whatever it was built from
* `Turn.origin` — a step gives an origin to what it puts into a slot, and keeps that of the others
* `chromosomes_integral` — the integrity of all chromosomes of a search, at any time
-/

namespace EvolutionarySearch.Search

variable {ω Gene Fitness : Type}

/-! ## Genuine chromosomes -/

/-- A chromosome has the fitness of its genes, and was built by the engine. -/
structure Problem.Genuine (p : Problem ω Gene Fitness) (c : Chromosome Gene Fitness) : Prop where
  fitness : c.fitness = p.fitness c.genes
  strategy : c.strategy ≠ .none

section Steps

variable [Ord Fitness] [WordSource ω] [Clock ω] {p : Problem ω Gene Fitness} {cfg : Config}
  {s : Search Gene Fitness} {w : ω} {c : Chromosome Gene Fitness} {slot : Nat}

omit [Ord Fitness] in
theorem Problem.Bred.genuine {length : Nat} {parent : List Gene} (h : p.Bred length parent c) :
    p.Genuine c := by
  refine ⟨h.fitness, fun hnone => ?_⟩
  have hmakes := h.makes
  rw [hnone] at hmakes
  cases hmakes

omit [Ord Fitness] in
theorem inherited_genuine (p : Problem ω Gene Fitness) (length : Nat) :
    Inherited p length p.Genuine where
  ageless _ := ⟨fun h => ⟨h.fitness, h.strategy⟩, fun h => ⟨h.fitness, h.strategy⟩⟩
  created _ _ hgen := (generate_bred hgen []).genuine
  bred _ _ _ h := h.genuine

/-! ## Origins -/

/-- A step leaves the chromosome of a slot where it is, up to its age. -/
def Stride.Spares (stride : Stride ω Gene Fitness) (slot : Nat) : Prop :=
  ∃ c d, stride.before.pool[slot]? = some c ∧ stride.taken.search.pool[slot]? = some d ∧
    d.ageless = c.ageless

/-- Where the chromosome of a slot comes from, and that it carries the tag of its origin. -/
inductive Origin (p : Problem ω Gene Fitness) (cfg : Config) (first : Chromosome Gene Fitness)
    (past : List (Stride ω Gene Fitness)) (slot : Nat) (c : Chromosome Gene Fitness) : Prop where
  /-- It is the candidate with which the search was opened. -/
  | first (hslot : slot = 0) (hsame : c.ageless = first.ageless) (htag : c.strategy = .create)
    (hspared : ∀ stride ∈ past, stride.Spares slot)
  /-- A step has put it there. -/
  | placed {earlier later : List (Stride ω Gene Fitness)} {stride : Stride ω Gene Fitness}
    {placement : Placement} {d : Chromosome Gene Fitness}
    (hpast : past = earlier ++ stride :: later)
    (hplaces : Places p cfg stride.before stride.world slot placement d)
    (hsame : c.ageless = d.ageless)
    (htag : c.strategy = placement.tag p stride.before stride.world)
    (hspared : ∀ other ∈ later, other.Spares slot)

variable {first d : Chromosome Gene Fitness} {past : List (Stride ω Gene Fitness)}

/-- What is spared keeps its origin. -/
theorem Origin.spared (h : Origin p cfg first past slot d)
    {stride : Stride ω Gene Fitness} (hbefore : stride.before.pool[slot]? = some d)
    (hafter : stride.taken.search.pool[slot]? = some c) (hsame : c.ageless = d.ageless) :
    Origin p cfg first (past ++ [stride]) slot c := by
  have hspares : stride.Spares slot := ⟨d, c, hbefore, hafter, hsame⟩
  have hstrategy : c.strategy = d.strategy := Chromosome.strategy_eq_of_ageless hsame
  cases h with
  | first hslot hfirst htag hspared =>
    exact .first hslot (hsame.trans hfirst) (hstrategy.trans htag)
      (forall_append_singleton hspared hspares)
  | @placed earlier later origin _ _ hpast hplaces horigin htag hspared =>
    have hlater : past ++ [stride] = earlier ++ origin :: (later ++ [stride]) := by
      rw [hpast, List.append_assoc, List.cons_append]
    exact .placed hlater hplaces (hsame.trans horigin) (hstrategy.trans htag)
      (forall_append_singleton hspared hspares)

theorem Turn.origin {taken : Step ω Gene Fitness} (h : Turn p cfg s w taken)
    (hpast : ∀ d, s.pool[slot]? = some d → Origin p cfg first past slot d)
    (hc : taken.search.pool[slot]? = some c) :
    Origin p cfg first (past ++ [⟨s, w, taken⟩]) slot c := by
  rcases h.slot hc with ⟨d, hd, hsame⟩ | ⟨placement, d, hplaces, hsame⟩
  · exact (hpast d hd).spared hd hc hsame
  · refine .placed rfl hplaces hsame ?_ (by simp)
    exact (Chromosome.strategy_eq_of_ageless hsame).trans hplaces.strategy

end Steps

/-! ## Searches -/

/-- What is to be said of the chromosomes of a search that has taken steps from a first one on. -/
structure Integrity [Ord Fitness] [WordSource ω] [Clock ω] (p : Problem ω Gene Fitness)
    (cfg : Config) (opened : Search Gene Fitness) (strides : List (Stride ω Gene Fitness)) : Prop
    where
  /-- All that is held or shown is genuine; the best and the answers have age zero. -/
  genuine : Throughout p.Genuine opened strides
  /-- Every candidate was built by the operator whose tag it carries, the parent being visited. -/
  bred : ∀ stride ∈ strides, ∀ candidate ∈ stride.taken.evaluated,
    p.Bred cfg.targetLength stride.before.visited.genes candidate.chromosome
  /-- Whatever sits in a slot, after any number of steps, has an origin and its tag. -/
  origin : ∀ i slot c, (arrived opened (strides.take i)).pool[slot]? = some c →
    Origin p cfg opened.best (strides.take i) slot c

variable [Ord Fitness] [WordSource ω] [Clock ω] {p : Problem ω Gene Fitness} {cfg : Config}
  {s : Search Gene Fitness} {w v : ω} {changes : List (ω → ω)}

theorem origin_opened (hstart : start p cfg w = (.ok s, v)) {slot : Nat}
    {c : Chromosome Gene Fitness} (hc : s.pool[slot]? = some c) :
    Origin p cfg s.best [] slot c := by
  obtain ⟨-, first, hgen, rfl⟩ := start_eq_ok hstart
  have hstrategy : first.chromosome.strategy = .create :=
    generate_strategy (w := w) (by rw [hgen])
  obtain ⟨hslot, rfl⟩ := slot_opening hc
  exact .first hslot rfl hstrategy (by simp)

/-- All that sits in the pool of a search, or ever sat there, has an origin in its past. -/
structure Traced (p : Problem ω Gene Fitness) (cfg : Config) (opened : Search Gene Fitness)
    (past : List (Stride ω Gene Fitness)) (s : Search Gene Fitness) : Prop where
  arrived : s = Search.arrived opened past
  origin : ∀ i slot c, (Search.arrived opened (past.take i)).pool[slot]? = some c →
    Origin p cfg opened.best (past.take i) slot c

theorem Traced.now {opened : Search Gene Fitness} {past : List (Stride ω Gene Fitness)}
    (h : Traced p cfg opened past s) {slot : Nat} {c : Chromosome Gene Fitness}
    (hc : s.pool[slot]? = some c) : Origin p cfg opened.best past slot c := by
  have hall := h.origin past.length slot c
  rw [List.take_length, ← h.arrived] at hall
  exact hall hc

theorem Traced.step {opened : Search Gene Fitness} {past : List (Stride ω Gene Fitness)}
    (h : Traced p cfg opened past s) :
    Traced p cfg opened (past ++ [stride p cfg s w]) (step p cfg s w).search where
  arrived := (arrived_append_singleton opened past (stride p cfg s w)).symm
  origin := by
    intro i slot c hc
    by_cases hi : i ≤ past.length
    · rw [List.take_append_of_le_length hi] at hc ⊢
      exact h.origin i slot c hc
    · rw [List.take_of_length_le (by simp; omega)] at hc ⊢
      rw [arrived_append_singleton] at hc
      exact (step_turn p cfg s w).origin (fun _ hd => h.now hd) hc

theorem traced_opened (hstart : start p cfg w = (.ok s, v)) :
    Traced p cfg s ([] : List (Stride ω Gene Fitness)) s where
  arrived := rfl
  origin i slot c hc := by
    rw [List.take_nil] at hc ⊢
    exact origin_opened hstart hc

theorem integrity_of_walk (hstart : start p cfg w = (.ok s, v)) :
    Integrity p cfg s (walk p cfg changes s v) := by
  obtain ⟨s', v', htraced⟩ := walk_induction (I := fun past t _ => Traced p cfg s past t)
    (fun _ _ _ h => h.step) changes (fun _ _ _ _ _ h => h) (traced_opened hstart)
  exact ⟨throughout_of_walk (inherited_genuine p cfg.targetLength) hstart, bred_of_walk,
    htraced.origin⟩

/-- The integrity of the chromosomes that are seen of a session. -/
structure Session.Sincere (p : Problem ω Gene Fitness) (cfg : Config)
    (run : Session ω Gene Fitness) : Prop where
  genuine : run.Holds p.Genuine
  origin : ∀ slot c, run.search.pool[slot]? = some c →
    Origin p cfg run.opened.best run.strides slot c

theorem sincere_of_integrity {steps : Nat} {run : Session ω Gene Fitness}
    (h : session p cfg steps changes w = .ok run)
    (hintegrity : Integrity p cfg run.opened run.strides) : run.Sincere p cfg where
  genuine := hintegrity.genuine.session h
  origin slot c hc := by
    have hall := hintegrity.origin run.strides.length slot c
    rw [List.take_length, ← search_eq_arrived h] at hall
    exact hall hc

/--
**The integrity of chromosomes.** A search is started and takes any number of steps, with any
changes of the world between them, or it is pulled for answers. At every moment all chromosomes that
it holds or has shown have the fitness of their genes and the tag of an operator; the best and the
answers have age zero. Whatever sits in a slot is the candidate with which the search was opened, or
a step has put it there and all steps since have spared it. It was created if the slot was filled or
refilled; it carries the operator of the child if it is one, also where a mutation stood in for a
combination; and it carries the tag of the best if it is a copy of the best.
-/
theorem chromosomes_integral (p : Problem ω Gene Fitness) (cfg : Config) :
    (∀ changes w s v, start p cfg w = (.ok s, v) →
      Integrity p cfg s (walk p cfg changes s v)) ∧
    ∀ steps changes w run, session p cfg steps changes w = .ok run →
      Integrity p cfg run.opened run.strides ∧ run.Sincere p cfg := by
  refine ⟨fun changes w s v hstart => integrity_of_walk hstart, ?_⟩
  intro steps changes w run h
  have hintegrity : Integrity p cfg run.opened run.strides :=
    session_of_walk (Q := Integrity p cfg) (fun _ _ _ hstart => integrity_of_walk hstart) h
  exact ⟨hintegrity, sincere_of_integrity h hintegrity⟩

/-- A script in which a mutation stands in for a combination, and the donor's slot is refilled. -/
def substitutedOperator : World Random.Cycle Script :=
  ⟨⟨[0x80000000], []⟩, { tick := 1, candidates := [[5], [4], [6]], children := [[5]] }⟩

/-- One slot holds a mutated child that is as good as its parent, the other a created refill. -/
theorem chromosomes_integral_substitutedOperator :
    ∃ run, session (scripted true) { poolSize := 2, timeLimit := some 3 } 4 [id, id]
        substitutedOperator = .ok run ∧
      run.search.pool = #[⟨[5], 5, .mutate, 1⟩, ⟨[6], 6, .create, 0⟩] ∧
      Integrity (scripted true) { poolSize := 2, timeLimit := some 3 } run.opened run.strides ∧
      run.Sincere (scripted true) { poolSize := 2, timeLimit := some 3 } := by
  have h : session (scripted true) { poolSize := 2, timeLimit := some 3 } 4 [id, id]
      substitutedOperator = .ok _ := rfl
  exact ⟨_, h, rfl, (chromosomes_integral _ _).2 4 [id, id] substitutedOperator _ h⟩

end EvolutionarySearch.Search
