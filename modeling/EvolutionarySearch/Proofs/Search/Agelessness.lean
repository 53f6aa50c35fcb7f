import EvolutionarySearch.Proofs.Search.Grading
import EvolutionarySearch.Proofs.Search.Visits

/-!
# Ages that make no difference

A maximal age makes parents grow older, but nothing asks for an age before a parent has come of it
and meets a worse child. Up to then a search goes as it would without a maximal age.

Searches are compared by what is left of them when all ages are forgotten. Nothing else is lost: if
they agree in that, they agree in everything but ages.

* `step_congr` — without a maximal age a step does not depend on ages
* `step_aging` — with a maximal age it is the same step, unless it decides a slot by age
* `aging_invisible` — searches with and without a maximal age, and how late they part at the earliest
-/

namespace EvolutionarySearch.Search

variable {ω Gene Fitness : Type}

/-! ## Breeding -/

section Breeding

variable {p : Problem ω Gene Fitness} {pool pool' : Array (Chromosome Gene Fitness)}
  {parent parent' : Chromosome Gene Fitness}

theorem derive_of_genes [Clock ω] (h : parent'.genes = parent.genes) (w : ω) :
    p.derive parent' w = p.derive parent w := by
  unfold Problem.derive
  rw [h]

/-- What is bred depends on the genes of the pool only. -/
theorem breed_of_genes [WordSource ω] [Clock ω] {length slot : Nat} {repertoire : Repertoire}
    (hpool : pool'.map (·.genes) = pool.map (·.genes)) (hparent : parent'.genes = parent.genes)
    (w : ω) :
    breed p length repertoire pool' slot parent' w = breed p length repertoire pool slot parent w := by
  have hsize : pool'.size = pool.size := by
    have hmapped := congrArg Array.size hpool
    rwa [Array.size_map, Array.size_map] at hmapped
  unfold breed recombine
  simp only [hsize, hparent, Indistinct.genes_getD hpool hparent, derive_of_genes hparent]

end Breeding

/-! ## Forgetting ages -/

/-- A search without the ages in its pool. -/
def ageless (s : Search Gene Fitness) : Search Gene Fitness :=
  { s with pool := s.pool.map Chromosome.ageless }

/-- A step without the ages that it leaves. -/
def Step.ageless (taken : Step ω Gene Fitness) : Step ω Gene Fitness :=
  { taken with search := taken.search.ageless }

/-- A step and its situation, without ages. -/
def Stride.ageless (stride : Stride ω Gene Fitness) : Stride ω Gene Fitness :=
  ⟨stride.before.ageless, stride.world, stride.taken.ageless⟩

/-- A pull without the ages that it leaves. -/
def Pull.ageless (pull : Pull ω Gene Fitness) : Pull ω Gene Fitness :=
  { pull with search := pull.search.ageless }

/-- A pull and its steps, without ages. -/
def Leg.ageless (leg : Leg ω Gene Fitness) : Leg ω Gene Fitness :=
  ⟨leg.strides.map Stride.ageless, leg.pull.ageless⟩

section Congruence

variable {s s' : Search Gene Fitness}

/-- Searches that are the same without ages differ in the pool at most. -/
theorem exists_pool_of_ageless (h : s.ageless = s'.ageless) :
    ∃ pool, s' = { s with pool := pool } ∧
      pool.map Chromosome.ageless = s.pool.map Chromosome.ageless := by
  cases s
  cases s'
  simp only [ageless, Search.mk.injEq] at h
  obtain ⟨rfl, hpool, rfl, rfl, rfl, rfl, rfl, rfl⟩ := h
  exact ⟨_, rfl, hpool.symm⟩

theorem ageless_settle (s : Search Gene Fitness) (slot : Nat) (c : Chromosome Gene Fitness) :
    (s.settle slot c).ageless = s.ageless.settle slot c.ageless := by
  unfold ageless settle
  simp only [Array.map_setIfInBounds]

theorem ageless_grown (s : Search Gene Fitness) (slot : Nat) (parent : Chromosome Gene Fitness)
    (kept : Bool) : (s.grown slot parent kept).ageless = s.ageless := by
  unfold grown setAge ageless
  split
  · congr 1
    refine Array.ext_getElem? fun i => ?_
    rw [Array.getElem?_map, Array.getElem?_map, Array.getElem?_modify]
    split
    · rw [Option.map_map]
      rfl
    · rfl
  · rfl

theorem settle_congr (h : s.ageless = s'.ageless) {c d : Chromosome Gene Fitness}
    (hc : c.ageless = d.ageless) (slot : Nat) :
    (s.settle slot c).ageless = (s'.settle slot d).ageless := by
  rw [ageless_settle, ageless_settle, h, hc]

theorem widened_congr (h : s.ageless = s'.ageless) (c : Chromosome Gene Fitness) :
    (s.widened c).ageless = (s'.widened c).ageless := by
  obtain ⟨pool, rfl, hpool⟩ := exists_pool_of_ageless h
  unfold widened ageless
  simp only [Array.map_push, hpool]

theorem refill_congr (h : s.ageless = s'.ageless) (offspring : Offspring Gene Fitness) :
    (s.refill offspring).ageless = (s'.refill offspring).ageless := by
  unfold refill
  split
  · exact h
  · exact settle_congr h rfl _

theorem size_congr (h : s.ageless = s'.ageless) : s'.pool.size = s.pool.size := by
  obtain ⟨pool, rfl, hpool⟩ := exists_pool_of_ageless h
  have hmapped := congrArg Array.size hpool
  rwa [Array.size_map, Array.size_map] at hmapped

theorem nextSlot_congr (h : s.ageless = s'.ageless) : s'.nextSlot = s.nextSlot := by
  have hsize := size_congr h
  obtain ⟨pool, rfl, -⟩ := exists_pool_of_ageless h
  unfold nextSlot
  rw [hsize]

theorem moved_congr (h : s.ageless = s'.ageless) (notes : Array (Note Fitness)) :
    (s.moved notes).ageless = (s'.moved notes).ageless := by
  have hslot := nextSlot_congr h
  obtain ⟨pool, rfl, hpool⟩ := exists_pool_of_ageless h
  unfold moved ageless report
  rw [hslot, hpool]

theorem best_congr (h : s.ageless = s'.ageless) : s'.best = s.best := by
  obtain ⟨pool, rfl, -⟩ := exists_pool_of_ageless h
  rfl

/-- The visited parents are the same without ages. -/
theorem visited_congr (h : s.ageless = s'.ageless) : s'.visited.ageless = s.visited.ageless := by
  have hslot := nextSlot_congr h
  obtain ⟨pool, rfl, hpool⟩ := exists_pool_of_ageless h
  have hparent : (pool.map Chromosome.ageless)[s.nextSlot]?
      = (s.pool.map Chromosome.ageless)[s.nextSlot]? := by rw [hpool]
  unfold visited
  rw [hslot, Array.getD_eq_getD_getElem?, Array.getD_eq_getD_getElem?]
  rw [Array.getElem?_map, Array.getElem?_map] at hparent
  cases hfirst : s.pool[s.nextSlot]? with
  | none =>
    rw [hfirst] at hparent
    rw [Option.map_eq_none_iff.mp hparent]
  | some c =>
    rw [hfirst] at hparent
    obtain ⟨d, hsecond, hsame⟩ := Option.map_eq_some_iff.mp hparent
    rw [hsecond]
    exact hsame

theorem brood_congr [WordSource ω] [Clock ω] (p : Problem ω Gene Fitness) (cfg : Config) (w : ω)
    (h : s.ageless = s'.ageless) : s'.brood p cfg w = s.brood p cfg w := by
  have hparent : s'.visited.genes = s.visited.genes :=
    Chromosome.genes_eq_of_ageless (visited_congr h)
  have hslot := nextSlot_congr h
  obtain ⟨pool, rfl, hpool⟩ := exists_pool_of_ageless h
  have hgenes : pool.map (·.genes) = s.pool.map (·.genes) := by
    have hmapped := congrArg (Array.map fun c : Chromosome Gene Fitness => c.genes) hpool
    rwa [Array.map_map, Array.map_map] at hmapped
  unfold brood
  rw [hslot]
  exact breed_of_genes hgenes hparent w

end Congruence

/-! ## Steps -/

section Steps

variable {s s' : Search Gene Fitness}

theorem proceed_congr (h : s.ageless = s'.ageless) (w : ω)
    (evaluated : List (Evaluation Gene Fitness)) :
    (s.proceed w evaluated).ageless = (s'.proceed w evaluated).ageless := by
  unfold proceed Step.ageless
  rw [h]

theorem fail_congr (h : s.ageless = s'.ageless) (error : SearchError) (w : ω) :
    (s.fail error w).ageless = (s'.fail error w).ageless := by
  obtain ⟨pool, rfl, hpool⟩ := exists_pool_of_ageless h
  unfold fail Step.ageless ageless
  simp only [hpool]

theorem timeOut_congr [Clock ω] (h : s.ageless = s'.ageless) (w : ω) :
    (s.timeOut w).ageless = (s'.timeOut w).ageless := by
  obtain ⟨pool, rfl, hpool⟩ := exists_pool_of_ageless h
  unfold timeOut Step.ageless ageless elapsed
  simp only [hpool]

theorem announce_congr (h : s.ageless = s'.ageless) (w : ω) :
    (s.announce w).ageless = (s'.announce w).ageless := by
  obtain ⟨pool, rfl, hpool⟩ := exists_pool_of_ageless h
  unfold announce Step.ageless ageless
  simp only [hpool]

variable [Ord Fitness] [Clock ω]

theorem promote_congr (h : s.ageless = s'.ageless) (c : Chromosome Gene Fitness) (w : ω)
    (evaluated : List (Evaluation Gene Fitness)) :
    (s.promote c w evaluated).ageless = (s'.promote c w evaluated).ageless := by
  obtain ⟨pool, rfl, hpool⟩ := exists_pool_of_ageless h
  unfold promote
  dsimp only [report]
  cases s.history.push c.fitness with
  | error error =>
    unfold fail Step.ageless ageless elapsed
    simp only [hpool]
  | ok history =>
    unfold Step.ageless ageless elapsed
    simp only [hpool]

variable [WordSource ω] {p : Problem ω Gene Fitness} {cfg : Config}

theorem fill_congr (h : s.ageless = s'.ageless) (w : ω) :
    (fill p cfg s w).ageless = (fill p cfg s' w).ageless := by
  have hbest := best_congr h
  unfold fill
  split
  · exact fail_congr h _ _
  · next candidate v hgen =>
    have hwidened := widened_congr h candidate.chromosome
    dsimp only
    by_cases hbetter : (compare candidate.chromosome.fitness s.best.fitness).isGT
    · rw [if_pos hbetter, if_pos (by rw [hbest]; exact hbetter)]
      exact promote_congr hwidened candidate.chromosome v [candidate]
    · rw [if_neg hbetter, if_neg (by rw [hbest]; exact hbetter)]
      exact proceed_congr hwidened v [candidate]

/-- Without a maximal age a contest asks for the fitness of the parent only. -/
theorem contest_congr (hage : cfg.maxAge = none) (h : s.ageless = s'.ageless)
    {parent parent' child : Chromosome Gene Fitness} (hparent : parent'.fitness = parent.fitness)
    (slot : Nat) (kept kept' : Bool) (w : ω) (evaluated : List (Evaluation Gene Fitness)) :
    (contest cfg s slot parent kept child w evaluated).ageless
      = (contest cfg s' slot parent' kept' child w evaluated).ageless := by
  have hbest := best_congr h
  unfold contest
  rw [hage, hparent]
  cases compare child.fitness parent.fitness with
  | lt => exact proceed_congr h w evaluated
  | eq =>
    have hsettled : (s.settle slot { child with age := parent.age + 1 }).ageless
        = (s'.settle slot { child with age := parent'.age + 1 }).ageless :=
      settle_congr h (by simp) slot
    exact proceed_congr hsettled w evaluated
  | gt =>
    have hsettled : (s.settle slot child).ageless = (s'.settle slot child).ageless :=
      settle_congr h rfl slot
    dsimp only
    rw [hbest]
    split
    · exact promote_congr hsettled child w evaluated
    · exact proceed_congr hsettled w evaluated

theorem visit_congr (hage : cfg.maxAge = none) (h : s.ageless = s'.ageless) (w : ω) :
    (visit p cfg s w).ageless = (visit p cfg s' w).ageless := by
  have hbrood := brood_congr p cfg w h
  have hmoved := moved_congr h (s.brood p cfg w).notes
  have hslot := nextSlot_congr h
  have hfitness := Chromosome.fitness_eq_of_ageless (visited_congr h)
  rw [visit_eq, visit_eq, hbrood, hslot]
  cases (s.brood p cfg w).outcome with
  | error error => exact fail_congr hmoved error _
  | ok offspring => exact contest_congr hage (refill_congr hmoved offspring) hfitness _ _ _ _ _

theorem step_congr (hage : cfg.maxAge = none) (h : s.ageless = s'.ageless) (w : ω) :
    (step p cfg s w).ageless = (step p cfg s' w).ageless := by
  have hsize := size_congr h
  have hphase : s'.phase = s.phase := by
    obtain ⟨pool, rfl, -⟩ := exists_pool_of_ageless h
    rfl
  have hexpired : s'.expired cfg w = s.expired cfg w := by
    obtain ⟨pool, rfl, -⟩ := exists_pool_of_ageless h
    rfl
  unfold step
  rw [hphase, hexpired, hsize]
  cases s.phase with
  | ended =>
    unfold Step.ageless
    rw [h]
  | opening =>
    dsimp only
    split
    · exact timeOut_congr h w
    · exact announce_congr h w
  | running =>
    dsimp only
    split
    · exact timeOut_congr h w
    · split
      · exact fill_congr h w
      · exact visit_congr hage h w

/-! ## Decisions by age -/

/-- The configuration with another maximal age. -/
def Config.aging (cfg : Config) (maxAge : Option Nat) : Config := { cfg with maxAge := maxAge }

/-- In a step a worse child meets a parent that has come of age. -/
def Stride.Decides (p : Problem ω Gene Fitness) (cfg : Config) (stride : Stride ω Gene Fitness) :
    Prop :=
  stride.visits cfg ∧ ∃ offspring maxAge,
    (stride.before.brood p cfg stride.world).outcome = .ok offspring ∧
      compare offspring.child.chromosome.fitness stride.before.visited.fitness = .lt ∧
      cfg.maxAge = some maxAge ∧ maxAge ≤ stride.before.visited.age + 1

/-- As long as no slot is decided by age a contest changes nothing but ages. -/
theorem contest_aging {slot : Nat} {parent child : Chromosome Gene Fitness} {kept : Bool} {w : ω}
    {evaluated : List (Evaluation Gene Fitness)}
    (h : ∀ maxAge, compare child.fitness parent.fitness = .lt → cfg.maxAge = some maxAge →
      parent.age + 1 < maxAge) :
    (contest cfg s slot parent kept child w evaluated).ageless
      = (contest (cfg.aging none) s slot parent kept child w evaluated).ageless := by
  unfold contest
  cases hcompare : compare child.fitness parent.fitness with
  | eq => rfl
  | gt => rfl
  | lt =>
    cases hage : cfg.maxAge with
    | none => rfl
    | some maxAge =>
      dsimp only [Config.aging]
      rw [if_pos (h maxAge hcompare hage)]
      exact proceed_congr (ageless_grown s slot parent kept) w evaluated

theorem visit_aging {w : ω} (hphase : s.phase = .running) (htime : s.expired cfg w = false)
    (hfull : cfg.poolSize ≤ s.pool.size) (h : ¬(stride p cfg s w).Decides p cfg) :
    (visit p cfg s w).ageless = (visit p (cfg.aging none) s w).ageless := by
  have hbrood : s.brood p (cfg.aging none) w = s.brood p cfg w := rfl
  rw [visit_eq, visit_eq, hbrood]
  cases hbred : (s.brood p cfg w).outcome with
  | error error => rfl
  | ok offspring =>
    refine contest_aging fun maxAge hworse hage => Nat.lt_of_not_le fun hold => h ?_
    have hvisits : (stride p cfg s w).visits cfg = true := by
      simp [Stride.visits, Stride.searches, stride, hphase, htime, hfull]
    exact ⟨hvisits, offspring, maxAge, hbred, hworse, hage, hold⟩

theorem step_aging {w : ω} (h : ¬(stride p cfg s w).Decides p cfg) :
    (step p cfg s w).ageless = (step p (cfg.aging none) s w).ageless := by
  have hexpired : s.expired (cfg.aging none) w = s.expired cfg w := rfl
  have hsize : (cfg.aging none).poolSize = cfg.poolSize := rfl
  unfold step
  rw [hexpired, hsize]
  cases hphase : s.phase with
  | ended => rfl
  | opening => rfl
  | running =>
    dsimp only
    by_cases hlate : s.expired cfg w
    · rw [if_pos hlate, if_pos hlate]
    · rw [if_neg hlate, if_neg hlate]
      by_cases hroom : s.pool.size < cfg.poolSize
      · rw [if_pos hroom, if_pos hroom]
        rfl
      · rw [if_neg hroom, if_neg hroom]
        exact visit_aging hphase (Bool.eq_false_iff.mpr hlate) (Nat.le_of_not_lt hroom) h

/-! ## In step -/

/-- Searches that differ in ages only go on doing so as long as no slot is decided by age. -/
theorem step_same {w : ω} (hs : s.ageless = s'.ageless)
    (h : ¬(stride p cfg s w).Decides p cfg) :
    (step p cfg s w).ageless = (step p (cfg.aging none) s' w).ageless :=
  (step_aging h).trans (step_congr rfl hs w)

omit [Ord Fitness] [Clock ω] [WordSource ω] in
theorem Step.of_ageless {taken taken' : Step ω Gene Fitness}
    (h : taken.ageless = taken'.ageless) :
    taken.search.ageless = taken'.search.ageless ∧ taken'.world = taken.world ∧
      taken'.progress = taken.progress := by
  cases taken
  cases taken'
  simp only [Step.ageless, Step.mk.injEq] at h
  obtain ⟨hsearch, rfl, rfl, -⟩ := h
  exact ⟨hsearch, rfl, rfl⟩

theorem stride_same {w : ω} (hs : s.ageless = s'.ageless)
    (h : ¬(stride p cfg s w).Decides p cfg) :
    (stride p (cfg.aging none) s' w).ageless = (stride p cfg s w).ageless := by
  unfold stride Stride.ageless
  dsimp only
  rw [step_same hs h, hs]

theorem walk_same {changes : List (ω → ω)} {w : ω} (hs : s.ageless = s'.ageless) {i : Nat}
    (h : ∀ stride ∈ (walk p cfg changes s w).take i, ¬stride.Decides p cfg) :
    ((walk p (cfg.aging none) changes s' w).take i).map Stride.ageless
      = ((walk p cfg changes s w).take i).map Stride.ageless := by
  induction changes generalizing s s' w i with
  | nil => rfl
  | cons change changes ih =>
    cases i with
    | zero => rfl
    | succ i =>
      simp only [walk, List.take_succ_cons, List.forall_mem_cons] at h
      obtain ⟨hfirst, hlater⟩ := h
      obtain ⟨hsearch, hworld, -⟩ := Step.of_ageless (step_same hs hfirst)
      simp only [walk, List.take_succ_cons, List.map_cons]
      rw [stride_same hs hfirst, hworld, ih hsearch hlater]

theorem next_same {steps : Nat} {w : ω} (hs : s.ageless = s'.ageless)
    (h : ∀ stride ∈ strides p cfg steps s w, ¬stride.Decides p cfg) :
    (next p (cfg.aging none) steps s' w).map Pull.ageless
        = (next p cfg steps s w).map Pull.ageless ∧
      (strides p (cfg.aging none) steps s' w).map Stride.ageless
        = (strides p cfg steps s w).map Stride.ageless := by
  induction steps generalizing s s' w with
  | zero => exact ⟨rfl, rfl⟩
  | succ steps ih =>
    have hfirst : ¬(stride p cfg s w).Decides p cfg := by
      refine h _ ?_
      rw [strides]
      split <;> exact List.mem_cons_self
    have hstride := stride_same hs hfirst
    obtain ⟨hsearch, hworld, hprogress⟩ := Step.of_ageless (step_same hs hfirst)
    simp only [next, strides, hprogress, hworld]
    cases hcase : (step p cfg s w).progress with
    | pending =>
      simp only [strides, hcase, List.forall_mem_cons] at h
      obtain ⟨hnext, hstrides⟩ := ih hsearch h.2
      exact ⟨hnext, by simp only [List.map_cons, hstride, hstrides]⟩
    | answered answer =>
      refine ⟨?_, by simp only [List.map_cons, hstride, List.map_nil]⟩
      simp only [Option.map_some, Pull.ageless, hsearch]
    | ended =>
      refine ⟨?_, by simp only [List.map_cons, hstride, List.map_nil]⟩
      simp only [Option.map_some, Pull.ageless, hsearch]

theorem legs_same {steps : Nat} {changes : List (ω → ω)} {w : ω} (hs : s.ageless = s'.ageless)
    {i : Nat} (hi : i ≤ (legs p cfg steps changes s w).length)
    (h : ∀ leg ∈ (legs p cfg steps changes s w).take i, ∀ stride ∈ leg.strides,
      ¬stride.Decides p cfg) :
    ((legs p (cfg.aging none) steps changes s' w).take i).map Leg.ageless
      = ((legs p cfg steps changes s w).take i).map Leg.ageless := by
  induction changes generalizing s s' w i with
  | nil => rfl
  | cons change changes ih =>
    cases i with
    | zero => rfl
    | succ i =>
      cases hnext : next p cfg steps s (change w) with
      | none => simp [legs, hnext] at hi
      | some pull =>
        simp only [legs, hnext, List.length_cons, Nat.add_le_add_iff_right] at hi
        simp only [legs, hnext, List.take_succ_cons, List.forall_mem_cons] at h
        obtain ⟨hfirst, hlater⟩ := h
        obtain ⟨hpull, hstrides⟩ := next_same hs hfirst
        rw [hnext] at hpull
        obtain ⟨pull', hnext', hsame⟩ := Option.map_eq_some_iff.mp hpull
        have hsearch : pull.search.ageless = pull'.search.ageless := by
          have hsearch := congrArg Pull.search hsame
          exact hsearch.symm
        have hworld : pull'.world = pull.world := by
          have hworld := congrArg Pull.world hsame
          exact hworld
        simp only [legs, hnext, hnext', List.take_succ_cons, List.map_cons]
        rw [hworld, ih hsearch hi hlater]
        simp only [Leg.ageless, hsame, hstrides]

end Steps

/-! ## Searches with and without a maximal age -/

variable [Ord Fitness] [WordSource ω] [Clock ω] {p : Problem ω Gene Fitness} {cfg : Config}

/-- How the steps of a search with a maximal age compare with those of one without. -/
structure Parting (p : Problem ω Gene Fitness) (cfg : Config) (maxAge : Nat)
    (aged unaged : List (Stride ω Gene Fitness)) : Prop where
  /-- Until a slot is decided by age the steps differ in ages only. -/
  together : ∀ i, (∀ stride ∈ aged.take i, ¬stride.Decides p (cfg.aging (some maxAge))) →
    (unaged.take i).map Stride.ageless = (aged.take i).map Stride.ageless
  /-- No slot is decided by age before so many visits. -/
  late : ∀ before visit after, aged = before ++ visit :: after →
    visit.Decides p (cfg.aging (some maxAge)) →
      (maxAge - 1) * cfg.poolSize ≤ visitsOf (cfg.aging (some maxAge)) before

/-- How a session with a maximal age compares with one without. -/
structure Session.PartsFrom (p : Problem ω Gene Fitness) (cfg : Config) (maxAge : Nat)
    (aged unaged : Session ω Gene Fitness) : Prop where
  opened : unaged.opened = aged.opened
  /-- Until a pull in which a slot is decided by age the pulls differ in ages only. -/
  together : ∀ i ≤ aged.legs.length,
    (∀ leg ∈ aged.legs.take i, ∀ stride ∈ leg.strides,
      ¬stride.Decides p (cfg.aging (some maxAge))) →
    unaged.answers.take i = aged.answers.take i ∧
      (unaged.legs.take i).map Leg.ageless = (aged.legs.take i).map Leg.ageless
  late : ∀ before visit after, aged.strides = before ++ visit :: after →
    visit.Decides p (cfg.aging (some maxAge)) →
      (maxAge - 1) * cfg.poolSize ≤ visitsOf (cfg.aging (some maxAge)) before

variable {maxAge : Nat} {changes : List (ω → ω)} {s : Search Gene Fitness} {w v : ω}

theorem late_of_walk (hstart : start p (cfg.aging (some maxAge)) w = (.ok s, v))
    {before after : List (Stride ω Gene Fitness)} {visit : Stride ω Gene Fitness}
    (hwalk : walk p (cfg.aging (some maxAge)) changes s v = before ++ visit :: after)
    (hdecides : visit.Decides p (cfg.aging (some maxAge))) :
    (maxAge - 1) * cfg.poolSize ≤ visitsOf (cfg.aging (some maxAge)) before := by
  have hbest : s.best.age = 0 := by
    obtain ⟨-, first, hgen, rfl⟩ := start_eq_ok hstart
    exact (generate_bred (w := w) (by rw [hgen]) []).age
  have hage := (rounds_opened hstart).age_le hbest hwalk
  obtain ⟨-, offspring, _, -, -, ⟨⟩, hold⟩ := hdecides
  calc (maxAge - 1) * cfg.poolSize
      ≤ visit.before.visited.age * cfg.poolSize := Nat.mul_le_mul_right _ (by omega)
    _ ≤ 0 + visitsOf (cfg.aging (some maxAge)) before := hage
    _ = visitsOf (cfg.aging (some maxAge)) before := Nat.zero_add _

theorem partsFrom_of_session {steps : Nat} {run : Session ω Gene Fitness}
    (h : session p (cfg.aging (some maxAge)) steps changes w = .ok run) :
    ∃ run', session p (cfg.aging none) steps changes w = .ok run' ∧
      run.PartsFrom p cfg maxAge run' := by
  obtain ⟨v, hstart, hlegs⟩ := session_eq_ok h
  obtain ⟨v', walked, hstart', -, hstrides⟩ := exists_walk_of_session h
  have hunaged : session p (cfg.aging none) steps changes w
      = .ok ⟨run.opened, legs p (cfg.aging none) steps changes run.opened v⟩ := by
    have hsame : start p (cfg.aging none) w = (.ok run.opened, v) := hstart
    unfold session
    rw [hsame]
    rfl
  refine ⟨_, hunaged, rfl, ?_, ?_⟩
  · intro i hi hyoung
    rw [hlegs] at hi hyoung
    have hsame : ((legs p (cfg.aging none) steps changes run.opened v).take i).map Leg.ageless
        = ((legs p (cfg.aging (some maxAge)) steps changes run.opened v).take i).map Leg.ageless :=
      legs_same rfl hi hyoung
    rw [← hlegs] at hsame
    refine ⟨?_, hsame⟩
    have hanswers := congrArg (List.map fun leg : Leg ω Gene Fitness => leg.pull.answer) hsame
    rw [List.map_map, List.map_map] at hanswers
    unfold Session.answers
    rw [← List.map_take, ← List.map_take]
    exact hanswers
  · intro before visit after hsplit hdecides
    rw [hstrides] at hsplit
    exact late_of_walk hstart' hsplit hdecides

/--
**A maximal age is invisible until it decides for the first time.** A search is started with a
maximal age and without one, all else being equal. As long as no slot has been decided by age, that
is, as long as no worse child has met a parent that has come of age, both take the same steps: they
begin and end in the same worlds, they evaluate the same candidates and give the same answers, and
the searches that they leave differ in nothing but the ages in their pools. And no slot is decided
by age in the first rounds of visits, of which there is one less than the maximal age.
-/
theorem aging_invisible (p : Problem ω Gene Fitness) (cfg : Config) (maxAge : Nat) :
    (∀ changes w s v, start p (cfg.aging none) w = (.ok s, v) →
      start p (cfg.aging (some maxAge)) w = (.ok s, v) ∧
        Parting p cfg maxAge (walk p (cfg.aging (some maxAge)) changes s v)
          (walk p (cfg.aging none) changes s v)) ∧
    ∀ steps changes w run, session p (cfg.aging (some maxAge)) steps changes w = .ok run →
      ∃ run', session p (cfg.aging none) steps changes w = .ok run' ∧
        run.PartsFrom p cfg maxAge run' := by
  refine ⟨?_, fun steps changes w run h => partsFrom_of_session h⟩
  intro changes w s v hstart
  have haged : start p (cfg.aging (some maxAge)) w = (.ok s, v) := hstart
  exact ⟨haged, fun i hyoung => walk_same rfl hyoung,
    fun before visit after hwalk hdecides => late_of_walk haged hwalk hdecides⟩

/-- A script in which one worse child is bred before the time is up. -/
def oneWorseChild : World Random.Cycle Script :=
  ⟨⟨[], []⟩, { tick := 1, candidates := [[5]], children := [[4]] }⟩

/-- The only parent has aged by one visit, and the next one would have decided about it. -/
theorem aging_invisible_oneWorseChild :
    ∃ run run', session (scripted false) (Config.aging { timeLimit := some 1 } (some 2)) 3 [id, id]
        oneWorseChild = .ok run ∧
      session (scripted false) (Config.aging { timeLimit := some 1 } none) 3 [id, id] oneWorseChild
        = .ok run' ∧
      run.search.pool = #[⟨[5], 5, .create, 1⟩] ∧ run'.search.pool = #[⟨[5], 5, .create, 0⟩] ∧
      run.PartsFrom (scripted false) { timeLimit := some 1 } 2 run' := by
  have h : session (scripted false) (Config.aging { timeLimit := some 1 } (some 2)) 3 [id, id]
      oneWorseChild = .ok _ := rfl
  have h' : session (scripted false) (Config.aging { timeLimit := some 1 } none) 3 [id, id]
      oneWorseChild = .ok _ := rfl
  obtain ⟨run', hrun', hparts⟩ :=
    (aging_invisible (scripted false) { timeLimit := some 1 } 2).2 3 [id, id] oneWorseChild _ h
  rw [h'] at hrun'
  cases hrun'
  exact ⟨_, _, h, h', rfl, rfl, hparts⟩

end EvolutionarySearch.Search
