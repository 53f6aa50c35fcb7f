import EvolutionarySearch.Search.Step
import EvolutionarySearch.Proofs.Fitness

/-!
# What a step can do

`step` is inverted once, case by case. `Turn` lists everything a step can be, with the condition of
each case. A visit begins with an attempt at a child and ends with the contest of the child and its
parent, and `Attempt` and `Verdict` do the same for these. Whatever every step keeps is then shown
by cases on `Turn`.

* `brood_attempt`, `contest_verdict`, `step_turn` — the lists are complete
-/

namespace EvolutionarySearch.Search

variable {ω Gene Fitness : Type}

/-! ## Visits -/

/-- The parent of the next visit. -/
def visited (s : Search Gene Fitness) : Chromosome Gene Fitness := s.pool.getD s.nextSlot s.best

/-- The attempt of the next visit at a child. -/
def brood [WordSource ω] [Clock ω] (p : Problem ω Gene Fitness) (cfg : Config)
    (s : Search Gene Fitness) (w : ω) : Breeding ω Gene Fitness :=
  breed p cfg.targetLength s.repertoire s.pool s.nextSlot s.visited w

/-- The search after an attempt at a child, before the slot is decided. -/
def moved (s : Search Gene Fitness) (notes : Array (Note Fitness)) : Search Gene Fitness :=
  { s.report notes with cursor := s.nextSlot }

/-- Whether the parent still sits in its slot when it meets the child. -/
def keeps (s : Search Gene Fitness) (offspring : Offspring Gene Fitness) : Bool :=
  !(s.pool.size == 1 && offspring.refill.isSome)

/-! ## Attempts -/

section Attempts

variable [WordSource ω]

/-- The slot of the donor that is drawn for the next visit. -/
def donor (s : Search Gene Fitness) (w : ω) : Nat :=
  donorSlot s.pool.size s.nextSlot (Random.below s.pool.size w).1

/-- The attempt to combine the visited parent with the donor that is drawn for it. -/
def crossing (p : Problem ω Gene Fitness) (s : Search Gene Fitness) (w : ω) :
    Option (List Gene) × ω :=
  p.crossover s.visited.genes (s.pool.getD (s.donor w) s.visited).genes
    (Random.below s.pool.size w).2

variable [Clock ω]

/-- How an attempt at a child ends. -/
inductive Attempt (p : Problem ω Gene Fitness) (cfg : Config) (s : Search Gene Fitness) (w : ω) :
    Breeding ω Gene Fitness → Prop where
  /-- The parent and the donor are combined. -/
  | combined {v v' : ω} {genes : List Gene} (hdraw : s.repertoire.draw w = (.crossover, v))
    (hcross : crossing p s v = (some genes, v')) :
    Attempt p cfg s w
      { outcome := .ok { child := p.evaluate .crossover genes v' }, world := v' }
  /-- The two cannot be told apart, and there is no candidate for the donor's slot. -/
  | unmatched {v v' : ω} (hdraw : s.repertoire.draw w = (.crossover, v))
    (hcross : crossing p s v = (none, v')) {error : SearchError}
    (hgen : (p.generate cfg.targetLength v').1 = .error error) :
    Attempt p cfg s w
      { outcome := .error error
        notes := #[.donorExhausted (s.donor v)]
        world := (p.generate cfg.targetLength v').2 }
  /-- The two cannot be told apart, and the donor's slot is refilled. -/
  | refilled {v v' : ω} (hdraw : s.repertoire.draw w = (.crossover, v))
    (hcross : crossing p s v = (none, v')) {fresh : Evaluation Gene Fitness}
    (hgen : (p.generate cfg.targetLength v').1 = .ok fresh) :
    Attempt p cfg s w
      { outcome := .ok
          { child := (p.derive s.visited (p.generate cfg.targetLength v').2).1
            refill := some (s.donor v, fresh) }
        notes := #[.donorExhausted (s.donor v)]
        world := (p.derive s.visited (p.generate cfg.targetLength v').2).2 }
  /-- No child could be created. -/
  | uncreated {v : ω} (hdraw : s.repertoire.draw w = (.create, v)) {error : SearchError}
    (hgen : (p.generate cfg.targetLength v).1 = .error error) :
    Attempt p cfg s w
      { outcome := .error error, world := (p.generate cfg.targetLength v).2 }
  /-- A child is created. -/
  | created {v : ω} (hdraw : s.repertoire.draw w = (.create, v))
    {child : Evaluation Gene Fitness}
    (hgen : (p.generate cfg.targetLength v).1 = .ok child) :
    Attempt p cfg s w
      { outcome := .ok { child := child }, world := (p.generate cfg.targetLength v).2 }
  /-- The parent is mutated. -/
  | mutated {strategy : Strategy} {v : ω} (hdraw : s.repertoire.draw w = (strategy, v))
    (hmutates : strategy = .mutate ∨ strategy = .none) :
    Attempt p cfg s w
      { outcome := .ok { child := (p.derive s.visited v).1 }, world := (p.derive s.visited v).2 }

theorem recombine_attempt {p : Problem ω Gene Fitness} {cfg : Config} {s : Search Gene Fitness}
    {w v : ω} (hdraw : s.repertoire.draw w = (.crossover, v)) :
    Attempt p cfg s w (recombine p cfg.targetLength s.pool s.nextSlot s.visited v) := by
  unfold recombine
  dsimp only
  rw [← donor, ← crossing]
  cases hcross : crossing p s v with
  | mk answer v' =>
    cases answer with
    | some genes => exact .combined hdraw hcross
    | none =>
      dsimp only
      -- `Attempt` speaks of the whole result of `generate`
      cases hgen : p.generate cfg.targetLength v' with
      | mk outcome v'' =>
        cases outcome with
        | error error =>
          have h := Attempt.unmatched hdraw hcross (congrArg Prod.fst hgen)
          rwa [hgen] at h
        | ok fresh =>
          have h := Attempt.refilled hdraw hcross (congrArg Prod.fst hgen)
          rwa [hgen] at h

theorem brood_attempt (p : Problem ω Gene Fitness) (cfg : Config) (s : Search Gene Fitness)
    (w : ω) : Attempt p cfg s w (s.brood p cfg w) := by
  unfold brood breed
  cases hdraw : s.repertoire.draw w with
  | mk strategy v =>
    cases strategy with
    | crossover => exact recombine_attempt hdraw
    | create =>
      dsimp only
      cases hgen : (p.generate cfg.targetLength v).1 with
      | error error => exact .uncreated hdraw hgen
      | ok child => exact .created hdraw hgen
    | mutate => exact .mutated hdraw (.inl rfl)
    | none => exact .mutated hdraw (.inr rfl)

omit [Clock ω] in
/-- Without recombination children are mutated. -/
theorem draw_of_plain {repertoire : Repertoire} (h : repertoire.recombines = false) (w : ω) :
    repertoire.draw w = (.mutate, w) := by
  unfold Repertoire.draw
  rw [h]
  rfl

omit [Clock ω] in
/-- What is drawn is a mutation, or there is a choice. -/
theorem draw_recombines {repertoire : Repertoire} {strategy : Strategy} {w v : ω}
    (h : repertoire.draw w = (strategy, v)) (hstrategy : strategy ≠ .mutate) :
    repertoire.recombines = true := by
  cases hplain : repertoire.recombines with
  | true => rfl
  | false =>
    rw [draw_of_plain hplain] at h
    exact absurd (congrArg Prod.fst h).symm hstrategy

end Attempts

/-! ## Contests -/

/-- The search with the parent in a slot one visit older, if the parent is still there. -/
def grown (s : Search Gene Fitness) (slot : Nat) (parent : Chromosome Gene Fitness) (kept : Bool) :
    Search Gene Fitness :=
  if kept then s.setAge slot (parent.age + 1) else s

/-- How a contest of a child with its parent ends. -/
inductive Verdict [Ord Fitness] [WordSource ω] [Clock ω] (cfg : Config) (s : Search Gene Fitness)
    (slot : Nat) (parent : Chromosome Gene Fitness) (kept : Bool)
    (child : Chromosome Gene Fitness) (w : ω) (evaluated : List (Evaluation Gene Fitness)) :
    Step ω Gene Fitness → Prop where
  /-- A worse child is dropped, and ages do not count. -/
  | dropped (hworse : compare child.fitness parent.fitness = .lt) (hage : cfg.maxAge = none) :
    Verdict cfg s slot parent kept child w evaluated (s.proceed w evaluated)
  /-- A worse child is dropped, and its parent is older. -/
  | endured {maxAge : Nat} (hworse : compare child.fitness parent.fitness = .lt)
    (hage : cfg.maxAge = some maxAge) (hyoung : parent.age + 1 < maxAge) :
    Verdict cfg s slot parent kept child w evaluated
      ((s.grown slot parent kept).proceed w evaluated)
  /-- A worse child meets a parent of the maximal age, and the slot is decided by lot. -/
  | retired {maxAge : Nat} (hworse : compare child.fitness parent.fitness = .lt)
    (hage : cfg.maxAge = some maxAge) (hold : maxAge ≤ parent.age + 1) :
    Verdict cfg s slot parent kept child w evaluated
      (((s.grown slot parent kept).anneal slot child w).1.proceed
        ((s.grown slot parent kept).anneal slot child w).2 evaluated)
  /-- An equal child takes the slot. -/
  | replaced (hequal : compare child.fitness parent.fitness = .eq) :
    Verdict cfg s slot parent kept child w evaluated
      ((s.settle slot { child with age := parent.age + 1 }).proceed w evaluated)
  /-- A better child takes the slot and leaves the best where it is. -/
  | climbed (hbetter : child.Beats parent) (hbest : ¬child.Beats s.best) :
    Verdict cfg s slot parent kept child w evaluated ((s.settle slot child).proceed w evaluated)
  /-- A better child takes the slot and is the new best. -/
  | surpassed (hbetter : child.Beats parent) (hbest : child.Beats s.best) :
    Verdict cfg s slot parent kept child w evaluated
      ((s.settle slot child).promote child w evaluated)

variable [Ord Fitness] [WordSource ω] [Clock ω]

theorem contest_verdict (cfg : Config) (s : Search Gene Fitness) (slot : Nat)
    (parent : Chromosome Gene Fitness) (kept : Bool) (child : Chromosome Gene Fitness) (w : ω)
    (evaluated : List (Evaluation Gene Fitness)) :
    Verdict cfg s slot parent kept child w evaluated
      (contest cfg s slot parent kept child w evaluated) := by
  unfold contest
  split
  · next hworse =>
    split
    · next hage => exact .dropped hworse hage
    · next maxAge hage =>
      dsimp only
      by_cases hyoung : parent.age + 1 < maxAge
      · rw [if_pos hyoung]
        exact .endured hworse hage hyoung
      · rw [if_neg hyoung]
        exact .retired hworse hage (Nat.le_of_not_lt hyoung)
  · next hequal => exact .replaced hequal
  · next hbetter =>
    dsimp only
    by_cases hbest : child.Beats s.best
    · rw [if_pos (Chromosome.isGT_iff_beats.mpr hbest)]
      exact .surpassed hbetter hbest
    · rw [if_neg fun hgt => hbest (Chromosome.isGT_iff_beats.mp hgt)]
      exact .climbed hbetter hbest

/-! ## Steps -/

/-- The search with one more slot. -/
def widened (s : Search Gene Fitness) (c : Chromosome Gene Fitness) : Search Gene Fitness :=
  { s with pool := s.pool.push c }

/-- What a step can be. -/
inductive Turn (p : Problem ω Gene Fitness) (cfg : Config) (s : Search Gene Fitness) (w : ω) :
    Step ω Gene Fitness → Prop where
  /-- The search had ended. -/
  | silent (hphase : s.phase = .ended) :
    Turn p cfg s w { search := s, world := w, progress := .ended }
  /-- The deadline has passed. -/
  | timedOut (hphase : s.phase ≠ .ended) (hlate : s.expired cfg w = true) :
    Turn p cfg s w (s.timeOut w)
  /-- The first candidate is announced. -/
  | announced (hphase : s.phase = .opening) (htime : s.expired cfg w = false) :
    Turn p cfg s w (s.announce w)
  /-- No candidate could be built for a new slot. -/
  | unfilled (hphase : s.phase = .running) (htime : s.expired cfg w = false)
    (hroom : s.pool.size < cfg.poolSize) {error : SearchError}
    (hgen : (p.generate cfg.targetLength w).1 = .error error) :
    Turn p cfg s w (s.fail error (p.generate cfg.targetLength w).2)
  /-- A new slot is filled. -/
  | filled (hphase : s.phase = .running) (htime : s.expired cfg w = false)
    (hroom : s.pool.size < cfg.poolSize) {candidate : Evaluation Gene Fitness}
    (hgen : (p.generate cfg.targetLength w).1 = .ok candidate)
    (hbest : ¬candidate.chromosome.Beats s.best) :
    Turn p cfg s w ((s.widened candidate.chromosome).proceed (p.generate cfg.targetLength w).2
      [candidate])
  /-- A new slot is filled with a new best. -/
  | filledBest (hphase : s.phase = .running) (htime : s.expired cfg w = false)
    (hroom : s.pool.size < cfg.poolSize) {candidate : Evaluation Gene Fitness}
    (hgen : (p.generate cfg.targetLength w).1 = .ok candidate)
    (hbest : candidate.chromosome.Beats s.best) :
    Turn p cfg s w ((s.widened candidate.chromosome).promote candidate.chromosome
      (p.generate cfg.targetLength w).2 [candidate])
  /-- No child could be bred. -/
  | barren (hphase : s.phase = .running) (htime : s.expired cfg w = false)
    (hfull : cfg.poolSize ≤ s.pool.size) {error : SearchError}
    (hbred : (s.brood p cfg w).outcome = .error error) :
    Turn p cfg s w ((s.moved (s.brood p cfg w).notes).fail error (s.brood p cfg w).world)
  /-- A slot is visited. -/
  | visit (hphase : s.phase = .running) (htime : s.expired cfg w = false)
    (hfull : cfg.poolSize ≤ s.pool.size) {offspring : Offspring Gene Fitness}
    (hbred : (s.brood p cfg w).outcome = .ok offspring) {taken : Step ω Gene Fitness}
    (hverdict : Verdict cfg ((s.moved (s.brood p cfg w).notes).refill offspring) s.nextSlot
      s.visited (s.keeps offspring) offspring.child.chromosome (s.brood p cfg w).world
      offspring.evaluated taken) :
    Turn p cfg s w taken

variable {p : Problem ω Gene Fitness} {cfg : Config}

theorem fill_turn {s : Search Gene Fitness} {w : ω} (hphase : s.phase = .running)
    (htime : s.expired cfg w = false) (hroom : s.pool.size < cfg.poolSize) :
    Turn p cfg s w (fill p cfg s w) := by
  -- `Turn` speaks of the whole result of `generate`, of which `split` has named the parts
  unfold fill
  split
  · next error w' hgen =>
    have h := Turn.unfilled (p := p) hphase htime hroom (by rw [hgen])
    rw [hgen] at h
    exact h
  · next candidate w' hgen =>
    dsimp only
    by_cases hbest : candidate.chromosome.Beats s.best
    · rw [if_pos (Chromosome.isGT_iff_beats.mpr hbest)]
      have h := Turn.filledBest (p := p) hphase htime hroom (by rw [hgen]) hbest
      rw [hgen] at h
      exact h
    · rw [if_neg fun hgt => hbest (Chromosome.isGT_iff_beats.mp hgt)]
      have h := Turn.filled (p := p) hphase htime hroom (by rw [hgen]) hbest
      rw [hgen] at h
      exact h

/-- A visit fails with its attempt at a child, or ends with a contest. -/
theorem visit_eq (p : Problem ω Gene Fitness) (cfg : Config) (s : Search Gene Fitness) (w : ω) :
    visit p cfg s w =
      match (s.brood p cfg w).outcome with
      | .error error => (s.moved (s.brood p cfg w).notes).fail error (s.brood p cfg w).world
      | .ok offspring =>
        contest cfg ((s.moved (s.brood p cfg w).notes).refill offspring) s.nextSlot s.visited
          (s.keeps offspring) offspring.child.chromosome (s.brood p cfg w).world
          offspring.evaluated :=
  rfl

theorem visit_turn {s : Search Gene Fitness} {w : ω} (hphase : s.phase = .running)
    (htime : s.expired cfg w = false) (hfull : cfg.poolSize ≤ s.pool.size) :
    Turn p cfg s w (visit p cfg s w) := by
  rw [visit_eq]
  split
  · next error hbred => exact .barren hphase htime hfull hbred
  · next offspring hbred => exact .visit hphase htime hfull hbred (contest_verdict ..)

theorem step_turn (p : Problem ω Gene Fitness) (cfg : Config) (s : Search Gene Fitness) (w : ω) :
    Turn p cfg s w (step p cfg s w) := by
  unfold step
  split
  · next hphase => exact .silent hphase
  · next hphase =>
    by_cases hlate : s.expired cfg w = true
    · rw [if_pos hlate]
      exact .timedOut (by rw [hphase]; decide) hlate
    · rw [if_neg hlate]
      exact .announced hphase (Bool.eq_false_iff.mpr hlate)
  · next hphase =>
    by_cases hlate : s.expired cfg w = true
    · rw [if_pos hlate]
      exact .timedOut (by rw [hphase]; decide) hlate
    · rw [if_neg hlate]
      have htime : s.expired cfg w = false := Bool.eq_false_iff.mpr hlate
      by_cases hroom : s.pool.size < cfg.poolSize
      · rw [if_pos hroom]
        exact fill_turn hphase htime hroom
      · rw [if_neg hroom]
        exact visit_turn hphase htime (Nat.le_of_not_lt hroom)

end EvolutionarySearch.Search
