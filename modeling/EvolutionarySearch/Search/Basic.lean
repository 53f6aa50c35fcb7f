import EvolutionarySearch.Search.Config
import EvolutionarySearch.Search.Problem
import EvolutionarySearch.Search.History
import EvolutionarySearch.Search.Repertoire
import EvolutionarySearch.Search.Note

/-!
# The state of a search

A search holds a pool of parents, the best chromosome so far and the records by which it adapts. It
is started with one candidate, fills its pool up to the configured size, and from then on visits the
slots of the pool in turn, downwards and around.

Nothing in a search depends on how its steps are grouped: it can be left after any answer and taken
up again.
-/

namespace EvolutionarySearch

/-- How far a search has come. -/
inductive Search.Phase where
  /-- The first candidate has been built and not been announced. -/
  | opening
  /-- The pool is being filled, or searched once it is full. -/
  | running
  /-- The search has answered for the last time. -/
  | ended
  deriving DecidableEq, Repr

/-- The state of a search. -/
structure Search (Gene Fitness : Type) where
  phase : Search.Phase
  /-- The parents. -/
  pool : Array (Chromosome Gene Fitness)
  /-- The best chromosome so far. -/
  best : Chromosome Gene Fitness
  /-- The fitness of every best so far. -/
  history : Search.History Fitness
  /-- The operators by which the bests were built. -/
  repertoire : Search.Repertoire
  /-- The slot of the last visit; one before the first visit. -/
  cursor : Nat
  /-- The clock's reading at the start. -/
  started : Duration
  /-- What has been reported. -/
  notes : Array (Search.Note Fitness)

namespace Search

variable {ω Gene Fitness : Type}

/-- The state of a search that has built its first candidate. -/
def opening (first : Chromosome Gene Fitness) (recombines : Bool) (started : Duration) :
    Search Gene Fitness where
  phase := .opening
  pool := #[first]
  best := first
  history := History.ofFirst first.fitness
  repertoire := Repertoire.initial recombines
  cursor := 1
  started := started
  notes := #[]

/--
Starts a search: reads the clock and builds the first candidate. It fails when the configuration is
invalid or the candidate cannot be built.
-/
def start [WordSource ω] [Clock ω] (p : Problem ω Gene Fitness) (cfg : Config) (w : ω) :
    Except SearchError (Search Gene Fitness) × ω :=
  match cfg.validate with
  | .error cause => (.error (.invalidConfig cause), w)
  | .ok () =>
    let generated := p.generate cfg.targetLength w
    (generated.1.map fun first => opening first.chromosome p.recombines (Clock.now w),
      generated.2)

/-- The time since the start. -/
def elapsed [Clock ω] (s : Search Gene Fitness) (w : ω) : Duration := Clock.since s.started w

/-- Whether the time limit has passed: strictly more time has gone by. -/
def expired [Clock ω] (s : Search Gene Fitness) (cfg : Config) (w : ω) : Bool :=
  cfg.timeLimit.any fun limit => limit < s.elapsed w

/-- The slot of the next visit: one below the last, and from the lowest to the highest. -/
def nextSlot (s : Search Gene Fitness) : Nat :=
  if s.cursor = 0 then s.pool.size - 1 else s.cursor - 1

theorem nextSlot_lt {s : Search Gene Fitness} (hpool : 0 < s.pool.size)
    (hcursor : s.cursor ≤ s.pool.size) : s.nextSlot < s.pool.size := by
  unfold nextSlot
  split <;> omega

/-- Puts a chromosome into a slot. -/
def settle (s : Search Gene Fitness) (slot : Nat) (c : Chromosome Gene Fitness) :
    Search Gene Fitness :=
  { s with pool := s.pool.setIfInBounds slot c }

/-- Sets the age of the chromosome in a slot. -/
def setAge (s : Search Gene Fitness) (slot age : Nat) : Search Gene Fitness :=
  { s with pool := s.pool.modify slot fun c => { c with age := age } }

/-- Adds notes to the report. -/
def report (s : Search Gene Fitness) (notes : Array (Note Fitness)) : Search Gene Fitness :=
  { s with notes := s.notes ++ notes }

end Search

end EvolutionarySearch
