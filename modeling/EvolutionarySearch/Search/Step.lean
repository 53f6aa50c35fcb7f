import EvolutionarySearch.Search.Basic
import EvolutionarySearch.Search.Breeding

/-!
# One step of a search

A step is what happens between two looks at the clock: the announcement of the first candidate, the
filling of one slot of the pool, or the visit of one slot. Every step is total, and it either leaves
the search to go on or gives an answer.

## A visit

The child of the visited parent is compared with that parent.

* A worse child is dropped. With a maximal age the parent is a visit older, and once it has reached
  that age the slot is decided by lot: the child may have it, with the probability that the history
  gives, and else a copy of the best takes it.
* An equal child takes the slot and inherits the age, one visit older.
* A better child takes the slot with age zero. If it also beats the best it becomes the best, which
  is an answer.
-/

namespace EvolutionarySearch.Search

variable {ω Gene Fitness : Type}

/-- Whether a step ends with an answer. -/
inductive Progress (Gene Fitness : Type) where
  /-- The search goes on. -/
  | pending
  /-- The search answers. -/
  | answered (answer : Except SearchError (Improvement Gene Fitness))
  /-- The search had ended before. -/
  | ended

/-- The result of a step. -/
structure Step (ω Gene Fitness : Type) where
  search : Search Gene Fitness
  world : ω
  progress : Progress Gene Fitness
  /-- The candidates that the step has evaluated, in order. -/
  evaluated : List (Evaluation Gene Fitness) := []

/-! ## Answers -/

/-- Ends the search with an error. -/
def fail (s : Search Gene Fitness) (error : SearchError) (w : ω) : Step ω Gene Fitness where
  search := { s with phase := .ended }
  world := w
  progress := .answered (.error error)

/-- Ends the search at its time limit, with the best so far. -/
def timeOut [Clock ω] (s : Search Gene Fitness) (w : ω) : Step ω Gene Fitness where
  search :=
    { s with
      phase := .ended
      notes := s.notes.push (.timeLimitReached (s.elapsed w) s.best.fitness) }
  world := w
  progress := .answered (.ok (.timedOut s.best))

/-- Announces the first candidate. -/
def announce (s : Search Gene Fitness) (w : ω) : Step ω Gene Fitness where
  search :=
    { s with phase := .running, repertoire := s.repertoire.credit s.best.strategy }
  world := w
  progress := .answered (.ok (.better s.best))

/-- Goes on without an answer. -/
def proceed (s : Search Gene Fitness) (w : ω) (evaluated : List (Evaluation Gene Fitness)) :
    Step ω Gene Fitness where
  search := s
  world := w
  progress := .pending
  evaluated := evaluated

variable [Ord Fitness]

/-- Makes a candidate the best, which is an answer. -/
def promote [Clock ω] (s : Search Gene Fitness) (c : Chromosome Gene Fitness) (w : ω)
    (evaluated : List (Evaluation Gene Fitness)) : Step ω Gene Fitness :=
  let s := s.report #[.newBest c.fitness c.strategy (s.elapsed w)]
  match s.history.push c.fitness with
  | .error error => { s.fail error w with evaluated := evaluated }
  | .ok history =>
    { search :=
        { s with
          history := history
          repertoire := s.repertoire.credit c.strategy
          best := c }
      world := w
      progress := .answered (.ok (.better c))
      evaluated := evaluated }

variable [WordSource ω] [Clock ω]

/-! ## Filling the pool -/

/-- Builds a candidate for a new slot of the pool. -/
def fill (p : Problem ω Gene Fitness) (cfg : Config) (s : Search Gene Fitness) (w : ω) :
    Step ω Gene Fitness :=
  match p.generate cfg.targetLength w with
  | (.error error, w) => s.fail error w
  | (.ok candidate, w) =>
    let c := candidate.chromosome
    let filled := { s with pool := s.pool.push c }
    if (compare c.fitness s.best.fitness).isGT then filled.promote c w [candidate]
    else filled.proceed w [candidate]

/-! ## Visiting a slot -/

/--
Decides a slot whose parent has reached the maximal age: a worse child is accepted with the
probability that the history gives, and a copy of the best takes the slot otherwise.
-/
def anneal (s : Search Gene Fitness) (slot : Nat) (child : Chromosome Gene Fitness) (w : ω) :
    Search Gene Fitness × ω :=
  let probability := s.history.acceptance child.fitness
  let drawn := Random.unit w
  if drawn.1 < probability then
    ((s.report #[.acceptedWorse slot child.fitness probability]).settle slot child, drawn.2)
  else (s.settle slot { s.best with age := 0 }, drawn.2)

/--
Compares a child with the parent that was visited and settles the slot. The parent is `kept` unless
its own slot was refilled while the child was bred.
-/
def contest (cfg : Config) (s : Search Gene Fitness) (slot : Nat)
    (parent : Chromosome Gene Fitness) (kept : Bool) (child : Chromosome Gene Fitness) (w : ω)
    (evaluated : List (Evaluation Gene Fitness)) : Step ω Gene Fitness :=
  match compare child.fitness parent.fitness with
  | .lt =>
    match cfg.maxAge with
    | none => s.proceed w evaluated
    | some maxAge =>
      let age := parent.age + 1
      let aged := if kept then s.setAge slot age else s
      if age < maxAge then aged.proceed w evaluated
      else
        let annealed := aged.anneal slot child w
        annealed.1.proceed annealed.2 evaluated
  | .eq => (s.settle slot { child with age := parent.age + 1 }).proceed w evaluated
  | .gt =>
    let settled := s.settle slot child
    if (compare child.fitness s.best.fitness).isGT then settled.promote child w evaluated
    else settled.proceed w evaluated

/-- Puts the refill of an offspring, if there is one, into its slot. -/
def refill (s : Search Gene Fitness) (offspring : Offspring Gene Fitness) : Search Gene Fitness :=
  match offspring.refill with
  | none => s
  | some (slot, fresh) => s.settle slot fresh.chromosome

/-- Visits the next slot: breeds a child of its parent and settles the slot. -/
def visit (p : Problem ω Gene Fitness) (cfg : Config) (s : Search Gene Fitness) (w : ω) :
    Step ω Gene Fitness :=
  let slot := s.nextSlot
  let parent := s.pool.getD slot s.best
  let bred := breed p cfg.targetLength s.repertoire s.pool slot parent w
  let moved := { s.report bred.notes with cursor := slot }
  match bred.outcome with
  | .error error => moved.fail error bred.world
  | .ok offspring =>
    let kept := !(s.pool.size == 1 && offspring.refill.isSome)
    contest cfg (moved.refill offspring) slot parent kept offspring.child.chromosome bred.world
      offspring.evaluated

/-! ## Any step -/

/-- One step of a search. A deadline is checked before each. -/
def step (p : Problem ω Gene Fitness) (cfg : Config) (s : Search Gene Fitness) (w : ω) :
    Step ω Gene Fitness :=
  match s.phase with
  | .ended => { search := s, world := w, progress := .ended }
  | .opening => if s.expired cfg w then s.timeOut w else s.announce w
  | .running =>
    if s.expired cfg w then s.timeOut w
    else if s.pool.size < cfg.poolSize then fill p cfg s w
    else visit p cfg s w

end EvolutionarySearch.Search
