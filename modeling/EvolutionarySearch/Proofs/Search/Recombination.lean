import EvolutionarySearch.Proofs.Search.Slots

/-!
# Recombination and the pool

A parent is combined with a donor of the pool. When the problem cannot tell the two apart, a fresh
candidate takes the slot of the donor, and the parent is mutated instead. In a pool of one slot the
parent is its own donor, and then it is gone by the time it meets the child: what is mutated is what
it was before.

The child alone does not say so, but the operator that was drawn for it, the size of the pool and
its tag do: `betrays` puts them together.

* `recombination` — what becomes of the child and of the pool in all three cases
* `Attempt.keeps_eq` — what the tag of a child says about the slot of its parent
* `recombine_ends` — recombination from end to end, and what a visit knows of it
-/

namespace EvolutionarySearch.Search

variable {ω Gene Fitness : Type}

/-! ## The pool after an attempt -/

/-- The pool after an attempt at a child: a refill is put into its slot. -/
def Breeding.leaves (bred : Breeding ω Gene Fitness) (pool : Array (Chromosome Gene Fitness)) :
    Array (Chromosome Gene Fitness) :=
  match bred.outcome with
  | .error _ => pool
  | .ok offspring =>
    match offspring.refill with
    | none => pool
    | some (slot, fresh) => pool.setIfInBounds slot fresh.chromosome

section Leaves

variable {bred : Breeding ω Gene Fitness} {pool : Array (Chromosome Gene Fitness)}

/-- No slot is lost or won. -/
theorem Breeding.size_leaves : (bred.leaves pool).size = pool.size := by
  unfold leaves
  split
  · rfl
  · split
    · rfl
    · exact Array.size_setIfInBounds

theorem Breeding.leaves_of_error {error : SearchError} (hbred : bred.outcome = .error error)
    (pool : Array (Chromosome Gene Fitness)) : bred.leaves pool = pool := by
  unfold leaves
  rw [hbred]

theorem Breeding.leaves_of_ok {offspring : Offspring Gene Fitness}
    (hbred : bred.outcome = .ok offspring) (s : Search Gene Fitness)
    (notes : Array (Note Fitness)) :
    bred.leaves s.pool = ((s.moved notes).refill offspring).pool := by
  unfold leaves refill
  rw [hbred]
  dsimp only
  cases offspring.refill with
  | none => rfl
  | some refill => rfl

end Leaves

/-! ## Any pool -/

section Recombining

variable [WordSource ω]

/-- The slot of the donor that is drawn for the parent in a slot. -/
def donorIn (pool : Array (Chromosome Gene Fitness)) (slot : Nat) (w : ω) : Nat :=
  donorSlot pool.size slot (Random.below pool.size w).1

variable [Clock ω]

/--
What becomes of a parent that is to be combined with its mate in the slot of the donor: the child
or the error, the pool that is left, and the world after it.
-/
inductive Recombination (p : Problem ω Gene Fitness) (length : Nat)
    (pool : Array (Chromosome Gene Fitness)) (parent mate : Chromosome Gene Fitness) (donor : Nat)
    (w : ω) :
    Except SearchError (Chromosome Gene Fitness) → Array (Chromosome Gene Fitness) → ω → Prop where
  /-- The child holds what the two are combined to. -/
  | combined {v : ω} {genes : List Gene}
    (hcross : p.crossover parent.genes mate.genes w = (some genes, v)) :
    Recombination p length pool parent mate donor w
      (.ok { genes := genes, fitness := p.fitness genes, strategy := .crossover }) pool v
  /-- A new candidate is in the slot of the donor, and in no other, and the parent is mutated. -/
  | refilled {v u : ω} {fresh : Evaluation Gene Fitness} {left : Array (Chromosome Gene Fitness)}
    (hcross : p.crossover parent.genes mate.genes w = (none, v))
    (hgen : p.generate length v = (.ok fresh, u)) (hcreated : fresh.chromosome.strategy = .create)
    (hleft : ∀ i, left[i]? = if i = donor then some fresh.chromosome else pool[i]?) :
    Recombination p length pool parent mate donor w
      (.ok
        { genes := (p.mutate parent.genes u).1
          fitness := p.fitness (p.mutate parent.genes u).1
          strategy := .mutate })
      left (p.mutate parent.genes u).2
  /-- There is no candidate for the slot of the donor. -/
  | failed {v u : ω} {error : SearchError}
    (hcross : p.crossover parent.genes mate.genes w = (none, v))
    (hgen : p.generate length v = (.error error, u)) :
    Recombination p length pool parent mate donor w (.error error) pool u

variable {p : Problem ω Gene Fitness} {length : Nat} {pool : Array (Chromosome Gene Fitness)}
  {slot : Nat} {parent : Chromosome Gene Fitness} {w : ω}

omit [Clock ω] in
theorem donorIn_lt (hslot : slot < pool.size) : donorIn pool slot w < pool.size :=
  donorSlot_lt (Random.below_lt (Nat.lt_of_le_of_lt (Nat.zero_le _) hslot) w)

omit [Clock ω] in
theorem donorIn_ne (hpool : 2 ≤ pool.size) : donorIn pool slot w ≠ slot :=
  donorSlot_ne hpool (Random.below_lt (by omega) w)

theorem recombination (hslot : slot < pool.size) {mate : Chromosome Gene Fitness}
    (hmate : pool[donorIn pool slot w]? = some mate) :
    Recombination p length pool parent mate (donorIn pool slot w) (Random.below pool.size w).2
      ((recombine p length pool slot parent w).outcome.map (·.child.chromosome))
      ((recombine p length pool slot parent w).leaves pool)
      (recombine p length pool slot parent w).world := by
  have hdonor : pool.getD (donorIn pool slot w) parent = mate := by
    rw [Array.getD_eq_getD_getElem?, hmate]
    rfl
  unfold recombine
  dsimp only
  rw [← donorIn, hdonor]
  cases hcross : p.crossover parent.genes mate.genes (Random.below pool.size w).2 with
  | mk answer v =>
    cases answer with
    | some genes => exact .combined hcross
    | none =>
      dsimp only
      cases hgen : p.generate length v with
      | mk outcome u =>
        cases outcome with
        | error error => exact .failed hcross hgen
        | ok fresh =>
          refine .refilled hcross hgen (generate_strategy (w := v) (by rw [hgen])) fun i => ?_
          by_cases hi : i = donorIn pool slot w
          · subst hi
            rw [if_pos rfl]
            show (pool.setIfInBounds _ fresh.chromosome)[donorIn pool slot w]? = _
            rw [Array.getElem?_setIfInBounds_self, if_pos (donorIn_lt hslot)]
          · rw [if_neg hi]
            exact Array.getElem?_setIfInBounds_ne (Ne.symm hi)

end Recombining

/-! ## The parent of a visit -/

section Visits

variable [WordSource ω]

/--
Whether a child betrays that its parent is gone: it was to be combined in a pool of one slot, and is
a mutation.
-/
def betrays (s : Search Gene Fitness) (w : ω) (child : Chromosome Gene Fitness) : Bool :=
  (s.repertoire.draw w).1 == .crossover && (s.pool.size == 1 && child.strategy == .mutate)

variable [Clock ω] {p : Problem ω Gene Fitness} {cfg : Config} {s : Search Gene Fitness} {w : ω}
  {bred : Breeding ω Gene Fitness} {offspring : Offspring Gene Fitness}

/-- The parent is gone when the child says so. -/
theorem Attempt.keeps_eq (h : Attempt p cfg s w bred) (hbred : bred.outcome = .ok offspring) :
    s.keeps offspring = !s.betrays w offspring.child.chromosome := by
  unfold Search.keeps betrays
  cases h with
  | combined hdraw hcross => cases hbred; simp [hdraw, Problem.evaluate]
  | refilled hdraw hcross hgen => cases hbred; simp [hdraw, Problem.derive, Problem.evaluate]
  | created hdraw hgen => cases hbred; simp [hdraw]
  | mutated hdraw hmutates =>
    cases hbred
    rcases hmutates with rfl | rfl <;> simp [hdraw]
  | unmatched | uncreated => cases hbred

theorem Attempt.refill_lt {slot : Nat} {fresh : Evaluation Gene Fitness}
    (h : Attempt p cfg s w bred) (hbred : bred.outcome = .ok offspring)
    (hrefill : offspring.refill = some (slot, fresh)) (hpool : 0 < s.pool.size) :
    slot < s.pool.size := by
  cases h with
  | refilled hdraw hcross hgen =>
    cases hbred
    cases hrefill
    exact donorSlot_lt (Random.below_lt hpool _)
  | combined | created | mutated => cases hbred; cases hrefill
  | unmatched | uncreated => cases hbred

/-- So it does exactly if the refill has taken the slot of the parent. -/
theorem Attempt.betrays_iff (h : Attempt p cfg s w bred) (hbred : bred.outcome = .ok offspring)
    (hslot : s.nextSlot < s.pool.size) :
    s.betrays w offspring.child.chromosome = true ↔
      ∃ fresh, offspring.refill = some (s.nextSlot, fresh) := by
  have hkeeps := h.keeps_eq hbred
  unfold Search.keeps at hkeeps
  rw [← Bool.not_inj hkeeps, Bool.and_eq_true, beq_iff_eq, Option.isSome_iff_exists]
  constructor
  · rintro ⟨hsingle, ⟨slot, fresh⟩, hrefill⟩
    have hlt := h.refill_lt hbred hrefill (by omega)
    have hsame : slot = s.nextSlot := by omega
    exact ⟨fresh, hsame ▸ hrefill⟩
  · rintro ⟨fresh, hrefill⟩
    obtain ⟨-, -, hne⟩ := h.refill hbred hrefill
    refine ⟨?_, _, hrefill⟩
    by_cases hmany : 2 ≤ s.pool.size
    · exact absurd rfl (hne hmany)
    · omega

end Visits

/-! ## From end to end -/

section Runs

variable [WordSource ω] [Clock ω]

/-- How the parent in a slot of a pool is recombined with its donor. -/
structure Recombined (p : Problem ω Gene Fitness) (length : Nat)
    (pool : Array (Chromosome Gene Fitness)) (slot : Nat) (parent mate : Chromosome Gene Fitness)
    (w : ω) (bred : Breeding ω Gene Fitness) : Prop where
  found : pool[donorIn pool slot w]? = some mate
  /-- The donor is another one than the parent where there is one. -/
  donor : 2 ≤ pool.size → donorIn pool slot w ≠ slot
  ends : Recombination p length pool parent mate (donorIn pool slot w) (Random.below pool.size w).2
    (bred.outcome.map (·.child.chromosome)) (bred.leaves pool) bred.world
  size : (bred.leaves pool).size = pool.size

variable [Ord Fitness]

/-- What a visit that has bred an offspring knows of the parent when it meets the child. -/
structure Stride.Informed (p : Problem ω Gene Fitness) (cfg : Config)
    (stride : Stride ω Gene Fitness) (bred : Breeding ω Gene Fitness)
    (offspring : Offspring Gene Fitness) : Prop where
  parent : stride.before.pool[stride.before.nextSlot]? = some stride.before.visited
  /-- What is recombined is the visited parent, in the pool as it is. -/
  recombined : (stride.before.repertoire.draw stride.world).1 = .crossover →
    bred = recombine p cfg.targetLength stride.before.pool stride.before.nextSlot
      stride.before.visited (stride.before.repertoire.draw stride.world).2
  left : ((stride.before.moved bred.notes).refill offspring).pool = bred.leaves stride.before.pool
  /-- The contest is told by the child whether the parent is still there. -/
  told : stride.taken = contest cfg ((stride.before.moved bred.notes).refill offspring)
    stride.before.nextSlot stride.before.visited
    (!stride.before.betrays stride.world offspring.child.chromosome) offspring.child.chromosome
    bred.world offspring.evaluated
  /-- It is gone exactly if the refill has taken its slot. -/
  gone_iff : stride.before.betrays stride.world offspring.child.chromosome = true ↔
    ∃ fresh, offspring.refill = some (stride.before.nextSlot, fresh)
  slot : (bred.leaves stride.before.pool)[stride.before.nextSlot]? =
    if stride.before.betrays stride.world offspring.child.chromosome then
      offspring.refill.map (·.2.chromosome)
    else some stride.before.visited

/-- A step that knows, if it is a visit that has bred an offspring, of the parent. -/
def Stride.KnowsParent (p : Problem ω Gene Fitness) (cfg : Config)
    (stride : Stride ω Gene Fitness) : Prop :=
  stride.visits cfg = true →
    ∀ offspring, (stride.before.brood p cfg stride.world).outcome = .ok offspring →
      stride.Informed p cfg (stride.before.brood p cfg stride.world) offspring

variable {p : Problem ω Gene Fitness} {cfg : Config} {s : Search Gene Fitness} {w : ω}
  {offspring : Offspring Gene Fitness} {visits : Nat}

omit [Ord Fitness] in
theorem brood_of_draw (hdraw : (s.repertoire.draw w).1 = .crossover) :
    s.brood p cfg w = recombine p cfg.targetLength s.pool s.nextSlot s.visited
      (s.repertoire.draw w).2 := by
  unfold brood breed
  cases hdrawn : s.repertoire.draw w with
  | mk strategy v =>
    rw [hdrawn] at hdraw
    cases hdraw
    rfl

theorem step_of_visits (hvisits : (stride p cfg s w).visits cfg = true) :
    step p cfg s w = visit p cfg s w := by
  have hsituation : s.phase = .running ∧ s.expired cfg w = false ∧ cfg.poolSize ≤ s.pool.size :=
    Stride.visits_iff.mp hvisits
  obtain ⟨hphase, htime, hfull⟩ := hsituation
  unfold step
  rw [hphase]
  dsimp only
  rw [htime, if_neg Bool.false_ne_true, if_neg (Nat.not_lt.mpr hfull)]

theorem visit_of_brood (hbred : (s.brood p cfg w).outcome = .ok offspring) :
    visit p cfg s w = contest cfg ((s.moved (s.brood p cfg w).notes).refill offspring) s.nextSlot
      s.visited (s.keeps offspring) offspring.child.chromosome (s.brood p cfg w).world
      offspring.evaluated := by
  rw [visit_eq, hbred]

theorem visit_of_barren {error : SearchError} (hbred : (s.brood p cfg w).outcome = .error error) :
    visit p cfg s w
      = (s.moved (s.brood p cfg w).notes).fail error (s.brood p cfg w).world := by
  rw [visit_eq, hbred]

theorem InTurn.knowsParent (h : InTurn cfg visits s) (p : Problem ω Gene Fitness) (w : ω) :
    (stride p cfg s w).KnowsParent p cfg := by
  intro hvisits offspring hbred
  change (s.brood p cfg w).outcome = .ok offspring at hbred
  have hattempt := brood_attempt p cfg s w
  have hkeeps := hattempt.keeps_eq hbred
  have hgone := hattempt.betrays_iff hbred h.nextSlot_lt
  have hleft := Breeding.leaves_of_ok hbred s (s.brood p cfg w).notes
  refine ⟨h.visited, brood_of_draw, hleft.symm, ?_, hgone, ?_⟩
  · show Search.step p cfg s w = _
    rw [step_of_visits hvisits, visit_of_brood hbred, hkeeps]
    rfl
  · show ((s.brood p cfg w).leaves s.pool)[s.nextSlot]? = _
    rw [hleft]
    split
    · next hbetrays =>
      -- the refill is all that is in the slot
      obtain ⟨fresh, hrefill⟩ := hgone.mp hbetrays
      rw [refill, hrefill]
      exact getElem?_settle_self (s := s.moved _) h.visited
    · next hsilent =>
      rw [getElem?_refill_of_keeps hbred]
      · exact h.visited
      · rw [hkeeps, Bool.not_eq_true', Bool.eq_false_iff]
        exact hsilent

theorem knowsParent_of_walk {changes : List (ω → ω)} {v : ω}
    (hstart : start p cfg w = (.ok s, v)) :
    ∀ stride ∈ walk p cfg changes s v, stride.KnowsParent p cfg :=
  walk_strides_of (I := fun past t => InTurn cfg (visitsOf cfg past) t)
    (fun _ _ u ht => ht.step_append p u) (inTurn_opened hstart) fun _ _ u ht => ht.knowsParent p u

/--
**Recombination from end to end.** A parent in any slot of any pool is to be recombined. The donor
is drawn from the pool, and is another one than the parent where there is one. If the problem
combines the two, the child holds just these genes and the pool is unchanged. If it does not, a new
candidate takes the slot of the donor and no other slot, and the child is a mutation of the parent
as it was before, even when it is its own donor; if there is no candidate, that is the error, and
the pool is unchanged.

A visit is told by the tag of the child whether the parent is still in its slot when it meets the
child. It is told that the parent is gone exactly if the refill has taken that very slot.
-/
theorem recombine_ends (p : Problem ω Gene Fitness) (cfg : Config) :
    (∀ length pool slot parent (w : ω), pool[slot]? = some parent →
      ∃ mate, Recombined p length pool slot parent mate w
        (recombine p length pool slot parent w)) ∧
    (∀ changes w s v, start p cfg w = (.ok s, v) →
      ∀ stride ∈ walk p cfg changes s v, stride.KnowsParent p cfg) ∧
    ∀ steps changes w run, session p cfg steps changes w = .ok run →
      ∀ stride ∈ run.strides, stride.KnowsParent p cfg := by
  refine ⟨?_, fun _ _ _ _ hstart => knowsParent_of_walk hstart, ?_⟩
  · intro length pool slot parent w hparent
    obtain ⟨hslot, -⟩ := Array.getElem?_eq_some_iff.mp hparent
    have hmate := Array.getElem?_eq_getElem (donorIn_lt (w := w) hslot)
    exact ⟨_, hmate, donorIn_ne, recombination hslot hmate, Breeding.size_leaves⟩
  · intro steps changes w run h
    exact session_of_walk (Q := fun _ strides => ∀ stride ∈ strides, stride.KnowsParent p cfg)
      (fun _ _ _ hstart => knowsParent_of_walk hstart) h

/-- A script for a pool of one slot: the candidates 50 and 0, and the child 51. -/
def ownDonor : World Random.Cycle Script :=
  ⟨⟨[0x80000000], []⟩, { candidates := [[50], [0]], children := [[51]] }⟩

/--
The parent 7 is its own donor, gives way to 50 and is mutated all the same. In a search the first
visit is told that the parent 50 is gone, and announces the child.
-/
theorem recombine_ends_ownDonor :
    (∃ mate, Recombined (scripted true) 1 #[⟨[7], 7, .create, 0⟩] 0 ⟨[7], 7, .create, 0⟩ mate
        ownDonor (recombine (scripted true) 1 #[⟨[7], 7, .create, 0⟩] 0 ⟨[7], 7, .create, 0⟩
          ownDonor)) ∧
      (recombine (scripted true) 1 #[⟨[7], 7, .create, 0⟩] 0 ⟨[7], 7, .create, 0⟩ ownDonor).leaves
        #[⟨[7], 7, .create, 0⟩] = #[⟨[50], 50, .create, 0⟩] ∧
      ∃ run, session (scripted true) {} 3 [id, id] ownDonor = .ok run ∧
        run.answers = [announcement ⟨[50], 50, .create, 0⟩, announcement ⟨[51], 51, .mutate, 0⟩] ∧
        ((run.strides.filter (·.visits {})).map fun stride =>
          stride.before.betrays stride.world ⟨[51], 51, .mutate, 0⟩) = [true] ∧
        ∀ stride ∈ run.strides, stride.KnowsParent (scripted true) {} := by
  have h : session (scripted true) {} 3 [id, id] ownDonor = .ok _ := rfl
  refine ⟨(recombine_ends _ {}).1 1 _ 0 _ _ rfl, rfl, _, h, rfl, rfl, ?_⟩
  exact (recombine_ends _ _).2.2 3 [id, id] ownDonor _ h

end Runs

end EvolutionarySearch.Search
