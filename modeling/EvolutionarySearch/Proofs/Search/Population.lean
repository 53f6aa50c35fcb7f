import EvolutionarySearch.Proofs.Search.Conduct
import EvolutionarySearch.Proofs.Search.Refill
import EvolutionarySearch.Proofs.Search.Walk

/-!
# How chromosomes come into the pool

A chromosome of the pool was either there before the step, up to its age, or the step has put it
there. There are four ways to do so: a slot is new, a slot is refilled, a child takes the slot of
its parent, or a copy of the best does. In the first three the chromosome is a candidate that the
step has evaluated.

* `Turn.bred` — what holds of every candidate that a step evaluates
* `Attempt.operator` — a child carries the operator that was drawn for it, or a mutation in its place
* `Turn.slot` — what a step leaves in a slot, and how it came there
* `Turn.best_eq`, `Turn.answer_best` — the best is a candidate, and every answer shows the best
-/

namespace EvolutionarySearch

variable {ω Gene Fitness : Type}

/-- A chromosome apart from its age. -/
def Chromosome.ageless (c : Chromosome Gene Fitness) : Chromosome Gene Fitness := { c with age := 0 }

namespace Chromosome

@[simp] theorem ageless_ageless (c : Chromosome Gene Fitness) : c.ageless.ageless = c.ageless := rfl

@[simp] theorem ageless_withAge (c : Chromosome Gene Fitness) (age : Nat) :
    ({ c with age := age } : Chromosome Gene Fitness).ageless = c.ageless := rfl

/-- Nothing but the age is forgotten. -/
theorem ageless_eq_iff {c d : Chromosome Gene Fitness} :
    c.ageless = d.ageless ↔
      c.genes = d.genes ∧ c.fitness = d.fitness ∧ c.strategy = d.strategy := by
  cases c
  cases d
  simp [ageless]

theorem genes_eq_of_ageless {c d : Chromosome Gene Fitness} (h : c.ageless = d.ageless) :
    c.genes = d.genes :=
  (ageless_eq_iff.mp h).1

theorem fitness_eq_of_ageless {c d : Chromosome Gene Fitness} (h : c.ageless = d.ageless) :
    c.fitness = d.fitness :=
  (ageless_eq_iff.mp h).2.1

theorem strategy_eq_of_ageless {c d : Chromosome Gene Fitness} (h : c.ageless = d.ageless) :
    c.strategy = d.strategy :=
  (ageless_eq_iff.mp h).2.2

end Chromosome

namespace Search

/-! ## Candidates -/

section Candidates

variable [WordSource ω] [Clock ω] {p : Problem ω Gene Fitness} {cfg : Config}
  {s : Search Gene Fitness} {w : ω}

/-- An operator has built genes, from nothing or for a parent. -/
inductive Problem.Makes (p : Problem ω Gene Fitness) (length : Nat) (parent : List Gene) :
    Strategy → List Gene → Prop where
  | create {candidate : Evaluation Gene Fitness} {v : ω}
    (hgen : (p.generate length v).1 = .ok candidate) :
    p.Makes length parent .create candidate.chromosome.genes
  | mutate (v : ω) : p.Makes length parent .mutate (p.mutate parent v).1
  | crossover {donor genes : List Gene} {v : ω}
    (hcross : (p.crossover parent donor v).1 = some genes) :
    p.Makes length parent .crossover genes

/-- A candidate of a step in which a parent is visited. -/
structure Problem.Bred (p : Problem ω Gene Fitness) (length : Nat) (parent : List Gene)
    (c : Chromosome Gene Fitness) : Prop where
  makes : p.Makes length parent c.strategy c.genes
  fitness : c.fitness = p.fitness c.genes
  age : c.age = 0

theorem generate_bred {length : Nat} {candidate : Evaluation Gene Fitness}
    (hgen : (p.generate length w).1 = .ok candidate) (parent : List Gene) :
    p.Bred length parent candidate.chromosome := by
  refine ⟨?_, ?_, ?_⟩
  · rw [generate_strategy hgen]
    exact .create hgen
  all_goals
    unfold Problem.generate at hgen
    split at hgen
    · cases hgen; rfl
    · split at hgen
      · cases hgen
      · split at hgen <;> cases hgen
        rfl

theorem derive_bred (p : Problem ω Gene Fitness) (length : Nat) (parent : Chromosome Gene Fitness)
    (w : ω) : p.Bred length parent.genes (p.derive parent w).1.chromosome :=
  ⟨.mutate w, rfl, rfl⟩

theorem Offspring.forall_evaluated {offspring : Offspring Gene Fitness}
    {P : Evaluation Gene Fitness → Prop} :
    (∀ candidate ∈ offspring.evaluated, P candidate) ↔
      (∀ slot fresh, offspring.refill = some (slot, fresh) → P fresh) ∧ P offspring.child := by
  unfold Offspring.evaluated
  cases offspring.refill with
  | none => simp
  | some refill =>
    simp only [Option.map_some, Option.toList_some, List.cons_append, List.nil_append,
      List.forall_mem_cons, List.not_mem_nil, false_imp_iff, implies_true, and_true]
    refine and_congr_left fun _ => ⟨?_, fun hall => hall refill.1 refill.2 rfl⟩
    rintro hfresh slot fresh ⟨⟩
    exact hfresh

theorem Attempt.bred {bred : Breeding ω Gene Fitness} {offspring : Offspring Gene Fitness}
    (h : Attempt p cfg s w bred) (hbred : bred.outcome = .ok offspring) :
    (∀ slot fresh, offspring.refill = some (slot, fresh) →
        p.Bred cfg.targetLength s.visited.genes fresh.chromosome) ∧
      p.Bred cfg.targetLength s.visited.genes offspring.child.chromosome := by
  cases h with
  | combined hdraw hcross =>
    cases hbred
    exact ⟨by simp, .crossover (congrArg Prod.fst hcross), rfl, rfl⟩
  | refilled hdraw hcross hgen =>
    cases hbred
    refine ⟨?_, derive_bred p cfg.targetLength s.visited _⟩
    rintro slot fresh ⟨⟩
    exact generate_bred hgen _
  | created hdraw hgen => cases hbred; exact ⟨by simp, generate_bred hgen _⟩
  | mutated hdraw hmutates =>
    cases hbred
    exact ⟨by simp, derive_bred p cfg.targetLength s.visited _⟩
  | unmatched | uncreated => cases hbred

/--
The operator of the next child: the one that is drawn, and a mutation in the place of a combination
that is not possible.
-/
def operator (p : Problem ω Gene Fitness) (s : Search Gene Fitness) (w : ω) : Strategy :=
  match s.repertoire.draw w with
  | (.crossover, v) => if (crossing p s v).1.isSome then .crossover else .mutate
  | (.create, _) => .create
  | _ => .mutate

theorem Attempt.operator {bred : Breeding ω Gene Fitness} {offspring : Offspring Gene Fitness}
    (h : Attempt p cfg s w bred) (hbred : bred.outcome = .ok offspring) :
    offspring.child.chromosome.strategy = Search.operator p s w := by
  unfold Search.operator
  cases h with
  | combined hdraw hcross => cases hbred; simp [hdraw, hcross, Problem.evaluate]
  | refilled hdraw hcross hgen =>
    cases hbred; simp [hdraw, hcross, Problem.derive, Problem.evaluate]
  | created hdraw hgen => cases hbred; simp [hdraw, generate_strategy hgen]
  | mutated hdraw hmutates =>
    cases hbred
    rcases hmutates with rfl | rfl <;> simp [hdraw, Problem.derive, Problem.evaluate]
  | unmatched | uncreated => cases hbred

variable [Ord Fitness] {taken : Step ω Gene Fitness}

theorem Turn.bred (h : Turn p cfg s w taken) :
    ∀ candidate ∈ taken.evaluated,
      p.Bred cfg.targetLength s.visited.genes candidate.chromosome := by
  cases h with
  | filled hphase htime hroom hgen hbest =>
    simpa only [proceed, List.mem_singleton, forall_eq] using generate_bred hgen _
  | filledBest hphase htime hroom hgen hbest =>
    simpa only [evaluated_promote, List.mem_singleton, forall_eq] using generate_bred hgen _
  | visit hphase htime hfull hbred hverdict =>
    rw [hverdict.evaluated_eq]
    exact Offspring.forall_evaluated.mpr ((brood_attempt p cfg s w).bred hbred)
  | silent | timedOut | announced | unfilled | barren => simp [timeOut, announce, fail]

theorem bred_of_walk {changes : List (ω → ω)} :
    ∀ stride ∈ walk p cfg changes s w, ∀ candidate ∈ stride.taken.evaluated,
      p.Bred cfg.targetLength stride.before.visited.genes candidate.chromosome :=
  walk_strides fun s w => (step_turn p cfg s w).bred

/-! ## The best -/

omit [WordSource ω] in
theorem promote_best (c : Chromosome Gene Fitness) (w : ω)
    (evaluated : List (Evaluation Gene Fitness)) :
    (s.promote c w evaluated).search.best = s.best ∨
      (s.promote c w evaluated).search.best = c := by
  rcases (promote_cases s c w evaluated).2 with ⟨-, hrecords⟩ | ⟨-, hrecords⟩
  · exact .inr (congrArg Records.best hrecords)
  · exact .inl (congrArg Records.best hrecords)

theorem Verdict.best_eq {slot : Nat} {parent child : Chromosome Gene Fitness} {kept : Bool}
    {evaluated : List (Evaluation Gene Fitness)}
    (h : Verdict cfg s slot parent kept child w evaluated taken) :
    taken.search.best = s.best ∨ taken.search.best = child := by
  have hgrown : (s.grown slot parent kept).best = s.best :=
    congrArg Records.best (records_grown s slot parent kept)
  cases h with
  | dropped hworse hage => exact .inl rfl
  | endured hworse hage hyoung => exact .inl hgrown
  | retired hworse hage hold =>
    exact .inl ((congrArg Records.best (records_anneal _ slot child w)).trans hgrown)
  | replaced hequal => exact .inl rfl
  | climbed hbetter hbest => exact .inl rfl
  | surpassed hbetter hbest => exact promote_best (s := s.settle slot child) child w evaluated

/-- The best after a step is the best before it, or a candidate of the step. -/
theorem Turn.best_eq (h : Turn p cfg s w taken) :
    taken.search.best = s.best ∨
      ∃ candidate ∈ taken.evaluated, taken.search.best = candidate.chromosome := by
  cases h with
  | silent hphase => exact .inl rfl
  | timedOut hphase hlate => exact .inl rfl
  | announced hphase htime => exact .inl rfl
  | unfilled hphase htime hroom hgen => exact .inl rfl
  | filled hphase htime hroom hgen hbest => exact .inl rfl
  | @filledBest hphase htime hroom candidate hgen hbest =>
    refine (promote_best (s := s.widened _) _ _ _).imp_right fun hcrowned => ?_
    exact ⟨candidate, by simp [evaluated_promote], hcrowned⟩
  | barren hphase htime hfull hbred => exact .inl rfl
  | @visit hphase htime hfull offspring hbred _ hverdict =>
    have hrecords : ((s.moved (s.brood p cfg w).notes).refill offspring).records = s.records := by
      simp
    refine hverdict.best_eq.imp (fun hsame => ?_) fun hcrowned => ?_
    · rw [hsame]
      exact congrArg Records.best hrecords
    · rw [hverdict.evaluated_eq]
      exact ⟨offspring.child, List.mem_append_right _ List.mem_cons_self, hcrowned⟩

/-- The best is as new as when it was built. -/
theorem Turn.best_age (h : Turn p cfg s w taken) (hs : s.best.age = 0) :
    taken.search.best.age = 0 := by
  rcases h.best_eq with hsame | ⟨candidate, hmem, hcrowned⟩
  · rw [hsame]
    exact hs
  · rw [hcrowned]
    exact (h.bred candidate hmem).age

/-- Every answer shows the best that the step leaves. -/
theorem Turn.answer_best {answer : Improvement Gene Fitness} (h : Turn p cfg s w taken)
    (hanswer : taken.progress = .answered (.ok answer)) :
    answer.chromosome = taken.search.best := by
  have hpromoted : ∀ (t : Search Gene Fitness) c v evaluated,
      (t.promote c v evaluated : Step ω Gene Fitness).progress = .answered (.ok answer) →
      answer.chromosome = (t.promote c v evaluated).search.best := by
    intro t c v evaluated hpromoted
    rcases (promote_cases t c v evaluated).2 with ⟨hbetter, hrecords⟩ | ⟨hrefused, -⟩
    · rw [hbetter] at hpromoted
      cases hpromoted
      exact (congrArg Records.best hrecords).symm
    · rw [hrefused] at hpromoted
      cases hpromoted
  cases h with
  | timedOut hphase hlate => cases hanswer; rfl
  | announced hphase htime => cases hanswer; rfl
  | filledBest hphase htime hroom hgen hbest => exact hpromoted _ _ _ _ hanswer
  | visit hphase htime hfull hbred hverdict =>
    cases hverdict with
    | surpassed hbetter hbest => exact hpromoted _ _ _ _ hanswer
    | dropped | endured | retired | replaced | climbed => cases hanswer
  | silent | unfilled | filled | barren => cases hanswer

end Candidates

/-! ## Slots -/

section Slots

variable {s : Search Gene Fitness} {c d : Chromosome Gene Fitness} {i : Nat}

theorem slot_opening {first : Chromosome Gene Fitness} {recombines : Bool} {started : Duration}
    (h : (opening first recombines started).pool[i]? = some c) : i = 0 ∧ c = first := by
  unfold opening at h
  rw [List.getElem?_toArray] at h
  cases i with
  | zero => exact ⟨rfl, (Option.some.inj h).symm⟩
  | succ i => cases h

theorem slot_settle {slot : Nat} (h : (s.settle slot d).pool[i]? = some c) :
    (i = slot ∧ c = d) ∨ s.pool[i]? = some c := by
  unfold settle at h
  by_cases heq : slot = i
  · subst heq
    rw [Array.getElem?_setIfInBounds_self] at h
    split at h
    · exact .inl ⟨rfl, (Option.some.inj h).symm⟩
    · cases h
  · rw [Array.getElem?_setIfInBounds_ne heq] at h
    exact .inr h

theorem slot_widened (h : (s.widened d).pool[i]? = some c) :
    (i = s.pool.size ∧ c = d) ∨ s.pool[i]? = some c := by
  unfold widened at h
  rw [Array.getElem?_push] at h
  split at h
  · next heq => exact .inl ⟨heq, (Option.some.inj h).symm⟩
  · exact .inr h

theorem slot_grown {slot : Nat} {parent : Chromosome Gene Fitness} {kept : Bool}
    (h : (s.grown slot parent kept).pool[i]? = some c) :
    ∃ d, s.pool[i]? = some d ∧ c.ageless = d.ageless := by
  unfold grown setAge at h
  split at h
  · rw [Array.getElem?_modify] at h
    split at h
    · obtain ⟨d, hd, rfl⟩ := Option.map_eq_some_iff.mp h
      exact ⟨d, hd, rfl⟩
    · exact ⟨c, h, rfl⟩
  · exact ⟨c, h, rfl⟩

theorem slot_refill {offspring : Offspring Gene Fitness}
    (h : (s.refill offspring).pool[i]? = some c) :
    (∃ fresh, offspring.refill = some (i, fresh) ∧ c = fresh.chromosome) ∨
      s.pool[i]? = some c := by
  unfold refill at h
  split at h
  · exact .inr h
  · next slot fresh hrefill =>
    rcases slot_settle h with ⟨rfl, hc⟩ | hc
    · exact .inl ⟨fresh, hrefill, hc⟩
    · exact .inr hc

/-- How a step puts a chromosome into a slot. -/
inductive Placement where
  /-- The slot is new. -/
  | filled
  /-- The slot is that of a donor, and is refilled. -/
  | refilled
  /-- A child takes the slot of its parent. -/
  | child
  /-- A copy of the best takes the slot of an old parent. -/
  | reinstated
  deriving DecidableEq

variable [WordSource ω] [Ord Fitness]

/-- How a chromosome wins the slot of a parent, at age zero. -/
inductive Wins (cfg : Config) (r : Records Gene Fitness) (parent child : Chromosome Gene Fitness)
    (w : ω) : Placement → Chromosome Gene Fitness → Prop where
  /-- The child is no worse than its parent. -/
  | fit (hfit : compare child.fitness parent.fitness ≠ .lt) : Wins cfg r parent child w .child child
  /-- The child is worse, and the lot is for it. -/
  | accepted {maxAge : Nat} (hworse : compare child.fitness parent.fitness = .lt)
    (hage : cfg.maxAge = some maxAge) (hold : maxAge ≤ parent.age + 1)
    (hlot : (Random.unit w).1 < r.history.acceptance child.fitness) :
    Wins cfg r parent child w .child child
  /-- The child is worse, and the lot is against it. -/
  | reinstated {maxAge : Nat} (hworse : compare child.fitness parent.fitness = .lt)
    (hage : cfg.maxAge = some maxAge) (hold : maxAge ≤ parent.age + 1)
    (hlot : ¬(Random.unit w).1 < r.history.acceptance child.fitness) :
    Wins cfg r parent child w .reinstated r.best.ageless

theorem slot_anneal {slot : Nat} {child : Chromosome Gene Fitness} {w : ω}
    (h : (s.anneal slot child w).1.pool[i]? = some c) :
    s.pool[i]? = some c ∨ i = slot ∧
      (((Random.unit w).1 < s.history.acceptance child.fitness ∧ c = child) ∨
        (¬(Random.unit w).1 < s.history.acceptance child.fitness ∧ c = s.best.ageless)) := by
  unfold anneal at h
  dsimp only at h
  split at h
  · next hlot =>
    rcases slot_settle h with ⟨rfl, hc⟩ | hc
    · exact .inr ⟨rfl, .inl ⟨hlot, hc⟩⟩
    · exact .inl hc
  · next hlot =>
    rcases slot_settle h with ⟨rfl, hc⟩ | hc
    · exact .inr ⟨rfl, .inr ⟨hlot, hc⟩⟩
    · exact .inl hc

variable [Clock ω] {cfg : Config} {w : ω} {taken : Step ω Gene Fitness}

/-- A contest leaves every slot as it is, up to age, unless somebody has won it. -/
theorem Verdict.slot {slot : Nat} {parent child : Chromosome Gene Fitness} {kept : Bool}
    {evaluated : List (Evaluation Gene Fitness)}
    (h : Verdict cfg s slot parent kept child w evaluated taken)
    (hc : taken.search.pool[i]? = some c) :
    (∃ d, s.pool[i]? = some d ∧ c.ageless = d.ageless) ∨
      i = slot ∧ ∃ placement d, Wins cfg s.records parent child w placement d ∧
        c.ageless = d.ageless := by
  cases h with
  | dropped hworse hage => exact .inl ⟨c, hc, rfl⟩
  | endured hworse hage hyoung => exact .inl (slot_grown hc)
  | retired hworse hage hold =>
    have hrecords := records_grown s slot parent kept
    have hhistory : (s.grown slot parent kept).history = s.history :=
      congrArg Records.history hrecords
    have hbest : (s.grown slot parent kept).best = s.best := congrArg Records.best hrecords
    have hcases := slot_anneal (s := s.grown slot parent kept) hc
    rw [hhistory, hbest] at hcases
    rcases hcases with hc | ⟨hi, ⟨hlot, rfl⟩ | ⟨hlot, rfl⟩⟩
    · exact .inl (slot_grown hc)
    · exact .inr ⟨hi, _, _, .accepted hworse hage hold hlot, rfl⟩
    · exact .inr ⟨hi, _, _, .reinstated hworse hage hold hlot, rfl⟩
  | replaced hequal =>
    rcases slot_settle hc with ⟨hi, rfl⟩ | hc
    · exact .inr ⟨hi, _, _, .fit (by simp [hequal]), rfl⟩
    · exact .inl ⟨c, hc, rfl⟩
  | climbed hbetter hbest =>
    rcases slot_settle hc with ⟨hi, rfl⟩ | hc
    · exact .inr ⟨hi, _, _, .fit fun hlt => Chromosome.not_beats_of_lt hlt hbetter, rfl⟩
    · exact .inl ⟨c, hc, rfl⟩
  | surpassed hbetter hbest =>
    rw [pool_promote] at hc
    rcases slot_settle hc with ⟨hi, rfl⟩ | hc
    · exact .inr ⟨hi, _, _, .fit fun hlt => Chromosome.not_beats_of_lt hlt hbetter, rfl⟩
    · exact .inl ⟨c, hc, rfl⟩

variable {p : Problem ω Gene Fitness}

/-- A step puts a chromosome into a slot. -/
inductive Places (p : Problem ω Gene Fitness) (cfg : Config) (s : Search Gene Fitness) (w : ω)
    (slot : Nat) : Placement → Chromosome Gene Fitness → Prop where
  | filled {candidate : Evaluation Gene Fitness} (hroom : s.pool.size < cfg.poolSize)
    (hslot : slot = s.pool.size) (hgen : (p.generate cfg.targetLength w).1 = .ok candidate) :
    Places p cfg s w slot .filled candidate.chromosome
  | refilled {fresh : Evaluation Gene Fitness}
    (hrefilled : Search.refilled p cfg s w = some (slot, fresh)) :
    Places p cfg s w slot .refilled fresh.chromosome
  | won {offspring : Offspring Gene Fitness} {placement : Placement}
    {c : Chromosome Gene Fitness} (hslot : slot = s.nextSlot)
    (hbred : (s.brood p cfg w).outcome = .ok offspring)
    (hwins : Wins cfg s.records s.visited offspring.child.chromosome (s.brood p cfg w).world
      placement c) :
    Places p cfg s w slot placement c

/-- A step leaves every slot as it is, up to age, unless it has put something there. -/
theorem Turn.slot (h : Turn p cfg s w taken) (hc : taken.search.pool[i]? = some c) :
    (∃ d, s.pool[i]? = some d ∧ c.ageless = d.ageless) ∨
      ∃ placement d, Places p cfg s w i placement d ∧ c.ageless = d.ageless := by
  cases h with
  | silent hphase => exact .inl ⟨c, hc, rfl⟩
  | timedOut hphase hlate => exact .inl ⟨c, hc, rfl⟩
  | announced hphase htime => exact .inl ⟨c, hc, rfl⟩
  | unfilled hphase htime hroom hgen => exact .inl ⟨c, hc, rfl⟩
  | barren hphase htime hfull hbred => exact .inl ⟨c, hc, rfl⟩
  | filled hphase htime hroom hgen hbest =>
    rcases slot_widened hc with ⟨hi, rfl⟩ | hc
    · exact .inr ⟨_, _, .filled hroom hi hgen, rfl⟩
    · exact .inl ⟨c, hc, rfl⟩
  | filledBest hphase htime hroom hgen hbest =>
    rw [pool_promote] at hc
    rcases slot_widened hc with ⟨hi, rfl⟩ | hc
    · exact .inr ⟨_, _, .filled hroom hi hgen, rfl⟩
    · exact .inl ⟨c, hc, rfl⟩
  | @visit hphase htime hfull offspring hbred _ hverdict =>
    have hrecords : ((s.moved (s.brood p cfg w).notes).refill offspring).records = s.records := by
      simp
    rcases hverdict.slot hc with ⟨d, hd, hsame⟩ | ⟨hi, placement, d, hwins, hsame⟩
    · rcases slot_refill hd with ⟨fresh, hrefill, rfl⟩ | hd
      · refine .inr ⟨_, _, .refilled ?_, hsame⟩
        rw [refilled_of_visit hphase htime hfull hbred, hrefill]
      · exact .inl ⟨d, hd, hsame⟩
    · rw [hrecords] at hwins
      exact .inr ⟨placement, d, .won hi hbred hwins, hsame⟩

omit [Ord Fitness] in
theorem offspring_of_refilled {refill : Nat × Evaluation Gene Fitness}
    (h : Search.refilled p cfg s w = some refill) :
    ∃ offspring, (s.brood p cfg w).outcome = .ok offspring ∧ offspring.refill = some refill := by
  unfold Search.refilled at h
  split at h
  · split at h
    · next offspring hbred => exact ⟨offspring, hbred, h⟩
    · cases h
  · cases h

omit [Ord Fitness] in
theorem Attempt.refill_strategy {bred : Breeding ω Gene Fitness}
    {offspring : Offspring Gene Fitness} {slot : Nat} {fresh : Evaluation Gene Fitness}
    (h : Attempt p cfg s w bred) (hbred : bred.outcome = .ok offspring)
    (hrefill : offspring.refill = some (slot, fresh)) : fresh.chromosome.strategy = .create := by
  cases h with
  | refilled hdraw hcross hgen => cases hbred; cases hrefill; exact generate_strategy hgen
  | combined | created | mutated => cases hbred; cases hrefill
  | unmatched | uncreated => cases hbred

/-- The operator that a chromosome carries when it is put into a slot. -/
def Placement.tag (p : Problem ω Gene Fitness) (s : Search Gene Fitness) (w : ω) :
    Placement → Strategy
  | .filled => .create
  | .refilled => .create
  | .child => s.operator p w
  | .reinstated => s.best.strategy

theorem Places.strategy {slot : Nat} {placement : Placement}
    (h : Places p cfg s w slot placement c) : c.strategy = placement.tag p s w := by
  cases h with
  | filled hroom hslot hgen => exact generate_strategy hgen
  | refilled hrefilled =>
    obtain ⟨offspring, hbred, hrefill⟩ := offspring_of_refilled hrefilled
    exact (brood_attempt p cfg s w).refill_strategy hbred hrefill
  | won hslot hbred hwins =>
    cases hwins with
    | fit | accepted => exact (brood_attempt p cfg s w).operator hbred
    | reinstated => rfl

/-- What a step puts into a slot is one of its candidates, or a copy of the best. -/
theorem Places.bred {slot : Nat} {placement : Placement}
    (h : Places p cfg s w slot placement c) :
    p.Bred cfg.targetLength s.visited.genes c ∨ c = s.best.ageless := by
  cases h with
  | filled hroom hslot hgen => exact .inl (generate_bred hgen _)
  | refilled hrefilled =>
    obtain ⟨offspring, hbred, hrefill⟩ := offspring_of_refilled hrefilled
    exact .inl (((brood_attempt p cfg s w).bred hbred).1 _ _ hrefill)
  | won hslot hbred hwins =>
    cases hwins with
    | fit | accepted => exact .inl ((brood_attempt p cfg s w).bred hbred).2
    | reinstated => exact .inr rfl

end Slots

/-! ## Populations -/

/-- Something holds of all that a search holds, and the best is as new. -/
structure Holds (P : Chromosome Gene Fitness → Prop) (s : Search Gene Fitness) : Prop where
  pool : ∀ c ∈ s.pool, P c
  best : P s.best
  age : s.best.age = 0

theorem Holds.visited {P : Chromosome Gene Fitness → Prop} {s : Search Gene Fitness}
    (h : s.Holds P) : P s.visited := by
  unfold Search.visited
  rw [Array.getD_eq_getD_getElem?]
  cases hslot : s.pool[s.nextSlot]? with
  | none => exact h.best
  | some parent => exact h.pool parent (Array.mem_of_getElem? hslot)

variable [Ord Fitness] [WordSource ω] [Clock ω]

/--
What does not depend on the age, holds of what is built from nothing and is passed on by every
operator, so that it holds of a whole population if it holds of its members.
-/
structure Inherited (p : Problem ω Gene Fitness) (length : Nat)
    (P : Chromosome Gene Fitness → Prop) : Prop where
  ageless : ∀ c, P c.ageless ↔ P c
  created : ∀ w candidate, (p.generate length w).1 = .ok candidate → P candidate.chromosome
  bred : ∀ parent c, P parent → p.Bred length parent.genes c → P c

variable {p : Problem ω Gene Fitness} {cfg : Config} {P : Chromosome Gene Fitness → Prop}
  {s : Search Gene Fitness} {w : ω}

theorem Turn.holds {taken : Step ω Gene Fitness} (h : Turn p cfg s w taken)
    (hP : Inherited p cfg.targetLength P) (hs : s.Holds P) : taken.search.Holds P := by
  have hbred : ∀ c, p.Bred cfg.targetLength s.visited.genes c → P c :=
    fun c => hP.bred s.visited c hs.visited
  refine ⟨?_, ?_, h.best_age hs.age⟩
  · intro c hc
    obtain ⟨i, hi⟩ := Array.mem_iff_getElem?.mp hc
    rw [← hP.ageless c]
    rcases h.slot hi with ⟨d, hd, hsame⟩ | ⟨placement, d, hplaces, hsame⟩
    · rw [hsame, hP.ageless d]
      exact hs.pool d (Array.mem_of_getElem? hd)
    · rw [hsame, hP.ageless d]
      rcases hplaces.bred with hd | rfl
      · exact hbred d hd
      · exact (hP.ageless _).mpr hs.best
  · rcases h.best_eq with hsame | ⟨candidate, hmem, hcrowned⟩
    · rw [hsame]
      exact hs.best
    · rw [hcrowned]
      exact hbred _ (h.bred candidate hmem)

/-- Something holds of all that is held and shown while steps are taken from a first search on. -/
structure Throughout (P : Chromosome Gene Fitness → Prop) (opened : Search Gene Fitness)
    (strides : List (Stride ω Gene Fitness)) : Prop where
  opened : opened.Holds P
  before : ∀ stride ∈ strides, stride.before.Holds P
  after : ∀ stride ∈ strides, stride.taken.search.Holds P
  shown : ∀ stride ∈ strides, ∀ answer, stride.taken.progress = .answered (.ok answer) →
    P answer.chromosome ∧ answer.chromosome.age = 0

omit [Ord Fitness] [WordSource ω] [Clock ω] in
/-- What holds throughout holds of the search at which the steps have arrived. -/
theorem Throughout.arrived {opened : Search Gene Fitness} {strides : List (Stride ω Gene Fitness)}
    (h : Throughout P opened strides) : (Search.arrived opened strides).Holds P := by
  unfold Search.arrived
  cases hlast : strides.getLast? with
  | none => exact h.opened
  | some last => exact h.after last (List.mem_of_getLast? hlast)

omit [Ord Fitness] in
theorem holds_opened (hP : Inherited p cfg.targetLength P) {v : ω}
    (hstart : start p cfg w = (.ok s, v)) : s.Holds P := by
  obtain ⟨-, first, hgen, rfl⟩ := start_eq_ok hstart
  have hfirst := hP.created w first (by rw [hgen])
  refine ⟨?_, hfirst, (generate_bred (w := w) (by rw [hgen]) []).age⟩
  intro c hc
  rw [Array.mem_singleton.mp hc]
  exact hfirst

theorem Throughout.step {opened : Search Gene Fitness} {past : List (Stride ω Gene Fitness)}
    (h : Throughout P opened past) (hP : Inherited p cfg.targetLength P) (hs : s.Holds P) :
    Throughout P opened (past ++ [stride p cfg s w]) := by
  have hnext : (Search.step p cfg s w).search.Holds P := (step_turn p cfg s w).holds hP hs
  refine ⟨h.opened, forall_append_singleton h.before hs, forall_append_singleton h.after hnext,
    forall_append_singleton h.shown ?_⟩
  intro answer hanswer
  rw [(step_turn p cfg s w).answer_best hanswer]
  exact ⟨hnext.best, hnext.age⟩

theorem throughout_of_walk {changes : List (ω → ω)} {v : ω}
    (hP : Inherited p cfg.targetLength P) (hstart : start p cfg w = (.ok s, v)) :
    Throughout P s (walk p cfg changes s v) := by
  have hopened := holds_opened hP hstart
  obtain ⟨s', v', -, hall⟩ := walk_induction
    (I := fun past t _ => t.Holds P ∧ Throughout P s past)
    (fun past t u ⟨ht, hpast⟩ => ⟨(step_turn p cfg t u).holds hP ht, hpast.step hP ht⟩)
    changes (fun _ _ _ _ _ h => h)
    ⟨hopened, hopened, by simp, by simp, by simp⟩
  exact hall

variable {steps : Nat} {changes : List (ω → ω)} {run : Session ω Gene Fitness}

theorem exists_stride_of_answer (h : session p cfg steps changes w = .ok run)
    {answer : Except SearchError (Improvement Gene Fitness)} (hmem : some answer ∈ run.answers) :
    ∃ stride ∈ run.strides, stride.taken.progress = .answered answer := by
  rw [answers_eq h] at hmem
  obtain ⟨stride, hstride, hmem⟩ := List.mem_flatMap.mp hmem
  refine ⟨stride, hstride, ?_⟩
  cases hprogress : stride.taken.progress <;> simp [hprogress, Progress.answers] at hmem
  rw [hmem]

/-- Something holds of all that is seen of a session. -/
structure Session.Holds (P : Chromosome Gene Fitness → Prop) (run : Session ω Gene Fitness) : Prop
    where
  held : run.search.Holds P
  shown : ∀ answer, some (.ok answer) ∈ run.answers →
    P answer.chromosome ∧ answer.chromosome.age = 0

/-- What holds throughout the steps of a session holds of what is seen of it. -/
theorem Throughout.session (hall : Throughout P run.opened run.strides)
    (h : session p cfg steps changes w = .ok run) : run.Holds P where
  held := by
    rw [search_eq_arrived h]
    exact hall.arrived
  shown answer hmem := by
    obtain ⟨stride, hstride, hanswer⟩ := exists_stride_of_answer h hmem
    exact hall.shown stride hstride answer hanswer

end Search

end EvolutionarySearch
