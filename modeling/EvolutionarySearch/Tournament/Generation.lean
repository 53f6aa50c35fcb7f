import EvolutionarySearch.Tournament.Config
import EvolutionarySearch.Tournament.Ranking
import EvolutionarySearch.Tournament.Breeding
import EvolutionarySearch.Tournament.Note

/-!
# Generations

In a generation a round is played, the members are ranked, the top member becomes the champion if
its key beats the champion's, and the best members breed the next population. The key of a champion
is that of the generation in which it became one.
-/

namespace EvolutionarySearch

/-! ## The state -/

/-- The counts of one generation. -/
structure Tournament.Counts where
  generation : Nat
  /-- The members that have competed. -/
  members : Nat
  /-- The games that were played. -/
  games : Nat
  /-- The results in all records; every game is recorded twice. -/
  results : Nat
  deriving DecidableEq, Repr

/-- The best member so far. -/
structure Tournament.Champion (Member Key : Type) where
  entrant : Tournament.Entrant Member
  key : Key
  /-- The generation in which it became the best. -/
  generation : Nat

/-- The state of a tournament between two generations. -/
structure Tournament (Member Key : Type) where
  population : Array (Tournament.Entrant Member)
  champion : Option (Tournament.Champion Member Key) := none
  /-- How often the champion was replaced, the first one included. -/
  improvements : Nat := 0
  /-- The counts of every generation so far. -/
  counts : Array Tournament.Counts := #[]
  /-- What has been reported. -/
  notes : Array Tournament.Note := #[]

namespace Tournament

variable {ω Member Key : Type}

/-! ## One generation -/

/-- The counts of a generation after its round. -/
def Counts.ofRound (generation games : Nat) (population : Array (Entrant Member)) : Counts where
  generation := generation
  members := population.size
  games := games
  results := population.foldl (fun count entrant => count + entrant.record.total) 0

variable [PartialCompare Key]

/-- Whether a key makes its member the champion: there is none yet, or it beats the champion's. -/
def improvesOn (champion : Option (Champion Member Key)) (key : Key) : Bool :=
  champion.all fun champion => beats key champion.key

/-- Lets the top of a ranking challenge the champion. A new champion is shown. -/
def challenge (p : Problem ω Member Key) (generation : Nat) (top : Key × Entrant Member)
    (t : Tournament Member Key) (w : ω) : Tournament Member Key × ω :=
  if improvesOn t.champion top.1 then
    ({ t with
        champion := some ⟨top.2, top.1, generation⟩
        improvements := t.improvements + 1
        notes := t.notes.push (.newChampion generation top.2.record) },
      p.display top.2.member top.2.record generation w)
  else (t, w)

/-- Lets the best of a ranking challenge the champion and breed the next population. -/
def breedRanked (p : Problem ω Member Key) (cfg : Config) (generation : Nat)
    (ranked : List (Key × Entrant Member)) (t : Tournament Member Key) (w : ω) :
    Tournament Member Key × ω :=
  let challenged := match ranked with
    | [] => (t, w)
    | top :: _ => challenge p generation top t w
  let parents := (ranked.take cfg.numParents).map fun entry => entry.2.member
  let bred := nextPopulation p parents challenged.2
  ({ challenged.1 with population := bred.1 }, bred.2)

/-- Plays one generation and breeds the next, if the members can be ranked. -/
def playGeneration (p : Problem ω Member Key) (cfg : Config) (generation : Nat)
    (t : Tournament Member Key) (w : ω) : Option (Tournament Member Key × ω) :=
  let round := holdRound p cfg.parallel t.population
  let counted := { t with counts := t.counts.push (.ofRound generation round.2 round.1) }
  (ranking p round.1).map fun ranked => breedRanked p cfg generation ranked counted w

/-- How far a tournament has come. -/
structure Progress (ω Member Key : Type) where
  tournament : Tournament Member Key
  world : ω
  /-- Whether the members of the next generation could not be ranked. -/
  stuck : Bool

/-- Plays a number of generations, counted on from a given one. -/
def playGenerations (p : Problem ω Member Key) (cfg : Config) :
    Nat → Nat → Tournament Member Key → ω → Progress ω Member Key
  | 0, _, t, w => ⟨t, w, false⟩
  | count + 1, generation, t, w =>
    match playGeneration p cfg generation t w with
    | none => ⟨t, w, true⟩
    | some (t, w) => playGenerations p cfg count (generation + 1) t w

end Tournament

end EvolutionarySearch
