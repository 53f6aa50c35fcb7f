import EvolutionarySearch.Search.Next
import EvolutionarySearch.World

/-!
# Running a search

A run starts a search, shows every answer and stops at the first that reaches the optimal fitness,
or when the time is up. It has a report also when it fails: what was noted, and the world it leaves
behind.
-/

namespace EvolutionarySearch.Search

variable {ω Gene Fitness : Type}

/-- What a run has found. -/
structure Outcome (Gene Fitness : Type) where
  best : Chromosome Gene Fitness
  /-- Whether the run ended by the time limit and not by the optimum. -/
  timedOut : Bool
  /-- The number of improvements, the first candidate included. -/
  improvements : Nat
  /-- The time from the start of the search to the end of the run. -/
  elapsed : Duration
  /-- The fitness of every improvement. -/
  reached : Array Fitness
  /-- How often each operator was on the list of the repertoire. -/
  usage : Usage

/-- The end of a run. -/
structure Report (ω Gene Fitness : Type) where
  outcome : Except SearchError (Outcome Gene Fitness)
  /-- What was noted on the way. -/
  notes : Array (Note Fitness)
  world : ω

variable [Clock ω]

/-- The report of a run that fails with an error. -/
def failed (s : Search Gene Fitness) (error : SearchError) (w : ω) : Report ω Gene Fitness :=
  ⟨.error error, s.notes, w⟩

/-- The report of a run that ends with a chromosome. -/
def finished (s : Search Gene Fitness) (best : Chromosome Gene Fitness) (timedOut : Bool)
    (reached : Array Fitness) (w : ω) : Report ω Gene Fitness where
  outcome := .ok
    { best := best
      timedOut := timedOut
      improvements := reached.size
      elapsed := s.elapsed w
      reached := reached
      usage := s.repertoire.usage }
  notes := s.notes
  world := w

variable [Ord Fitness] [WordSource ω]

/--
Pulls answers from a search until the run ends, at most a number of `pulls` of `steps` steps each.
The fitness of the improvements so far is collected on the way.
-/
def pursue (p : Problem ω Gene Fitness) (cfg : Config) (steps : Nat) :
    Nat → Search Gene Fitness → Array Fitness → ω → Option (Report ω Gene Fitness)
  | 0, _, _, _ => none
  | pulls + 1, s, reached, w =>
    match next p cfg steps s w with
    | none => none
    | some ⟨none, s, w⟩ => some (s.failed .exhausted w)
    | some ⟨some (.error error), s, w⟩ => some (s.failed error w)
    | some ⟨some (.ok (.timedOut best)), s, w⟩ =>
      some (s.finished best true reached (p.display best (s.elapsed w) w))
    | some ⟨some (.ok (.better c)), s, w⟩ =>
      let shown := p.display c (s.elapsed w) w
      let reached := reached.push c.fitness
      if (compare c.fitness p.optimal).isLT then pursue p cfg steps pulls s reached shown
      else
        some ((s.report #[.optimumReached c.fitness reached.size]).finished c false reached shown)

/--
Runs a search to its end in a world. The run has no result if it does not end within `steps` answers
of `steps` steps each.
-/
def run (p : Problem ω Gene Fitness) (cfg : Config) (steps : Nat) (w : ω) :
    Option (Report ω Gene Fitness) :=
  match start p cfg w with
  | (.error error, w) => some ⟨.error error, #[], w⟩
  | (.ok s, w) => pursue p cfg steps steps s #[] w

/--
Runs a search with the random source that its configuration seeds, in given surroundings. The seed
`fresh` is used when the configuration has none.
-/
def runSeeded {σ : Type} [Clock σ] (p : Problem (World Random.Keystream σ) Gene Fitness)
    (cfg : Config) (fresh : UInt64) (steps : Nat) (surroundings : σ) :
    Option (Report (World Random.Keystream σ) Gene Fitness) :=
  run p cfg steps ⟨cfg.source fresh, surroundings⟩

end EvolutionarySearch.Search
