import EvolutionarySearch.Proofs.Search.Signal

/-!
# Refills

The pool is written from outside of the visited slot in one place only: a donor that its parent
could not be told from is replaced by a fresh candidate.

* `Attempt.refill` — when there is a refill, and that it spares the slot of the parent
* `refilled_eq_none` — without recombination, or when all parents can be combined, there is none
-/

namespace EvolutionarySearch.Search

variable {ω Gene Fitness : Type} [WordSource ω] [Clock ω] {p : Problem ω Gene Fitness}
  {cfg : Config} {s : Search Gene Fitness} {w : ω}

/-! ## Breeding -/

/-- A refill is due to parents that were to be combined and could not be. -/
theorem Attempt.refill {bred : Breeding ω Gene Fitness} {offspring : Offspring Gene Fitness}
    {slot : Nat} {fresh : Evaluation Gene Fitness} (h : Attempt p cfg s w bred)
    (hbred : bred.outcome = .ok offspring) (hrefill : offspring.refill = some (slot, fresh)) :
    s.repertoire.recombines = true ∧
      (∃ v, (p.crossover s.visited.genes (s.pool.getD slot s.visited).genes v).1 = none) ∧
      (2 ≤ s.pool.size → slot ≠ s.nextSlot) := by
  cases h with
  | refilled hdraw hcross hgen =>
    cases hbred
    cases hrefill
    refine ⟨draw_recombines hdraw (by decide), ⟨_, congrArg Prod.fst hcross⟩, ?_⟩
    intro hpool
    exact donorSlot_ne hpool (Random.below_lt (by omega) _)
  | combined | created | mutated => cases hbred; cases hrefill
  | unmatched | uncreated => cases hbred

/-! ## The refill of a step -/

/-- The slot that a step refills, and the candidate that it puts there. -/
def refilled (p : Problem ω Gene Fitness) (cfg : Config) (s : Search Gene Fitness) (w : ω) :
    Option (Nat × Evaluation Gene Fitness) :=
  if s.phase = .running ∧ s.expired cfg w = false ∧ cfg.poolSize ≤ s.pool.size then
    match (s.brood p cfg w).outcome with
    | .ok offspring => offspring.refill
    | .error _ => none
  else none

theorem refilled_of_visit (hphase : s.phase = .running) (htime : s.expired cfg w = false)
    (hfull : cfg.poolSize ≤ s.pool.size) {offspring : Offspring Gene Fitness}
    (hbred : (s.brood p cfg w).outcome = .ok offspring) :
    refilled p cfg s w = offspring.refill := by
  unfold refilled
  rw [if_pos ⟨hphase, htime, hfull⟩, hbred]

/-- Parents are never combined, or there are none that cannot be. -/
def NeverRefills (p : Problem ω Gene Fitness) : Prop :=
  p.recombines = false ∨ ∀ parent donor w, (p.crossover parent donor w).1.isSome = true

theorem refilled_eq_none (hp : NeverRefills p)
    (hs : s.repertoire.recombines = p.recombines) : refilled p cfg s w = none := by
  unfold refilled
  split
  · split
    · next offspring hbred =>
      cases hrefill : offspring.refill with
      | none => rfl
      | some refill =>
        obtain ⟨hrecombines, ⟨w', hnone⟩, -⟩ := (brood_attempt p cfg s w).refill hbred hrefill
        rcases hp with hp | hp
        · rw [hs, hp] at hrecombines
          cases hrecombines
        · have hsome := hp s.visited.genes (s.pool.getD refill.1 s.visited).genes w'
          rw [hnone] at hsome
          cases hsome
    · rfl
  · rfl

/-- A problem that never refills a slot does not do so in any session. -/
theorem refilled_eq_none_of_session [Ord Fitness] [Std.TransOrd Fitness] {steps : Nat}
    {changes : List (ω → ω)} {run : Session ω Gene Fitness} (hp : NeverRefills p)
    (h : session p cfg steps changes w = .ok run) :
    ∀ stride ∈ run.strides, refilled p cfg stride.before stride.world = none :=
  sound_strides h fun _ _ hs => refilled_eq_none hp hs.recombines

/-! ## The pool of a visit -/

/-- While the parent is still there, its slot has not been refilled. -/
theorem getElem?_refill_of_keeps {offspring : Offspring Gene Fitness}
    {notes : Array (Note Fitness)} (hbred : (s.brood p cfg w).outcome = .ok offspring)
    (hkeeps : s.keeps offspring = true) :
    ((s.moved notes).refill offspring).pool[s.nextSlot]? = s.pool[s.nextSlot]? := by
  unfold refill
  split
  · rfl
  · next donor fresh hrefill =>
    -- a single slot that is kept has no refill, and of several slots another is refilled
    have hsize : ¬s.pool.size = 1 := by
      intro hone
      simp [keeps, hone, hrefill] at hkeeps
    show (s.pool.setIfInBounds donor fresh.chromosome)[s.nextSlot]? = s.pool[s.nextSlot]?
    by_cases hpool : 2 ≤ s.pool.size
    · obtain ⟨-, -, hne⟩ := (brood_attempt p cfg s w).refill hbred hrefill
      exact Array.getElem?_setIfInBounds_ne (hne hpool)
    · have hempty : s.pool = #[] := Array.size_eq_zero_iff.mp (by omega)
      simp [hempty]

theorem mem_refill {offspring : Offspring Gene Fitness} {notes : Array (Note Fitness)}
    {c : Chromosome Gene Fitness} (hc : c ∈ ((s.moved notes).refill offspring).pool) :
    c ∈ s.pool ∨ ∃ slot fresh, offspring.refill = some (slot, fresh) ∧ c = fresh.chromosome := by
  unfold refill at hc
  split at hc
  · exact .inl hc
  · next slot fresh hrefill =>
    rcases Array.mem_or_eq_of_mem_setIfInBounds hc with hc | hc
    · exact .inl hc
    · exact .inr ⟨slot, fresh, hrefill, hc⟩

end EvolutionarySearch.Search
