import EvolutionarySearch.Tournament.Generation
import EvolutionarySearch.World

/-!
# Running a tournament

A tournament makes its first population from nothing, plays as many generations as its configuration
says and answers with its champion. It fails in the first generation whose members cannot be ranked.
-/

namespace EvolutionarySearch.Tournament

variable {ω Member Key : Type}

/-- What a tournament has found. -/
structure Outcome (Member : Type) where
  best : Member
  /-- Its record in the generation in which it became the best. -/
  bestRecord : Record
  bestGeneration : Nat
  /-- How often the champion was replaced, the first one included. -/
  improvements : Nat
  /-- The counts of every generation. -/
  counts : Array Counts

/-- The end of a run. -/
structure Report (ω Member : Type) where
  outcome : Except SearchError (Outcome Member)
  /-- What was noted on the way. -/
  notes : Array Note
  world : ω

/-- The result of a tournament: its champion, if it has one. -/
def outcome (t : Tournament Member Key) : Except SearchError (Outcome Member) :=
  match t.champion with
  | none => .error .exhausted
  | some champion => .ok
      { best := champion.entrant.member
        bestRecord := champion.entrant.record
        bestGeneration := champion.generation
        improvements := t.improvements
        counts := t.counts }

variable [PartialCompare Key]

/-- Runs a tournament in a world. -/
def run (p : Problem ω Member Key) (cfg : Config) (w : ω) : Report ω Member :=
  match cfg.validate with
  | .error cause => ⟨.error (.invalidConfig cause), #[], w⟩
  | .ok () =>
    let members := generateAll p cfg.populationSize w
    let played := playGenerations p cfg cfg.maxGenerations 1
      { population := freshPopulation members.1 } members.2
    let t := played.tournament
    if played.stuck then ⟨.error .contradictoryKeys, t.notes, played.world⟩
    else ⟨t.outcome, t.notes.push (.finished cfg.maxGenerations t.improvements), played.world⟩

/--
Runs a tournament with the random source that its configuration seeds, in given surroundings. The
seed `fresh` is used when the configuration has none.
-/
def runSeeded {σ : Type} (p : Problem (World Random.Keystream σ) Member Key) (cfg : Config)
    (fresh : UInt64) (surroundings : σ) : Report (World Random.Keystream σ) Member :=
  run p cfg ⟨cfg.source fresh, surroundings⟩

end EvolutionarySearch.Tournament
