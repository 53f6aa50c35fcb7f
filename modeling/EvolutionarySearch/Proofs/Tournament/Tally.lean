import EvolutionarySearch.Proofs.Tournament.Champion

/-!
# Tallies

A record is a tally: it only counts how often each result has come up. So of the games of a round it
matters which ones a member takes part in, and not in which order they are counted.

* `getElem?_recordGames` — the record at a place is the tally of the results at that place
* `recordGames_perm` — the order of the games does not matter
* `round_unordered` — nor does it matter whether they are played in turn or all at once
-/

namespace EvolutionarySearch.Tournament

variable {ω Member Key : Type}

/-! ## Records -/

/-- A record to which the results of a list are added. -/
def Record.tally (record : Record) (results : List GameResult) : Record where
  wins := record.wins + results.count .win
  ties := record.ties + results.count .tie
  losses := record.losses + results.count .loss

theorem Record.add_tally (record : Record) (result : GameResult) (results : List GameResult) :
    (record.add result).tally results = record.tally (result :: results) := by
  cases result <;> simp [add, tally, Nat.add_right_comm, Nat.add_assoc]

theorem Record.tally_perm (record : Record) {results results' : List GameResult}
    (h : results.Perm results') : record.tally results = record.tally results' := by
  simp only [tally, h.count_eq]

theorem foldl_entrant_add (entrant : Entrant Member) (results : List GameResult) :
    results.foldl Entrant.add entrant
      = { entrant with record := entrant.record.tally results } := by
  induction results generalizing entrant with
  | nil => rfl
  | cons result results ih => rw [List.foldl_cons, ih, Entrant.add, Record.add_tally]

/-! ## The results of a place -/

/-- The results that a game has for the member at a place: none, if it is not a game of theirs. -/
def Game.resultsAt (place : Nat) (game : Game) : List GameResult :=
  (if game.first = place then [game.result] else []) ++
    (if game.second = place then [game.result.mirror] else [])

/-- The results of a list of games for the member at a place, in the order of the games. -/
def resultsAt (place : Nat) (games : List Game) : List GameResult :=
  games.flatMap (·.resultsAt place)

theorem getElem?_recordGame (population : Array (Entrant Member)) (game : Game) (place : Nat) :
    (recordGame population game)[place]?
      = population[place]?.map fun entrant => (game.resultsAt place).foldl Entrant.add entrant := by
  simp only [recordGame, Game.resultsAt, Array.getElem?_modify]
  by_cases hfirst : game.first = place <;> by_cases hsecond : game.second = place <;>
    simp [hfirst, hsecond, Function.comp_def]

/-- Of a list of games, a record counts the results at its place. -/
theorem getElem?_recordGames (population : Array (Entrant Member)) (games : List Game)
    (place : Nat) :
    (recordGames population games)[place]? = population[place]?.map fun entrant =>
      { entrant with record := entrant.record.tally (resultsAt place games) } := by
  simp only [← foldl_entrant_add]
  unfold recordGames resultsAt
  induction games generalizing population with
  | nil => simp
  | cons game games ih =>
    rw [List.foldl_cons, ih, getElem?_recordGame, Option.map_map]
    simp only [Function.comp_def, List.flatMap_cons, List.foldl_append]

/-- The order in which games are counted does not matter. -/
theorem recordGames_perm (population : Array (Entrant Member)) {games games' : List Game}
    (h : games.Perm games') : recordGames population games = recordGames population games' := by
  refine Array.ext_getElem? fun place => ?_
  have hresults : (resultsAt place games).Perm (resultsAt place games') := h.flatMap_right _
  simp only [getElem?_recordGames, Record.tally_perm _ hresults]

/-! ## Playing at once -/

/-- The tasks are read in the order of their players, and each holds the games of its player. -/
theorem gamesAtOnce_eq (p : Problem ω Member Key) (population : Array (Entrant Member)) :
    gamesAtOnce p population = gamesInTurn p population := by
  simp only [gamesAtOnce, gamesInTurn, orderedPairs, List.flatMap_map, List.map_flatMap]
  rfl

/-- A round comes to the same, however its games are played and in whichever order they count. -/
theorem holdRound_eq (p : Problem ω Member Key) (parallel : Bool)
    (population : Array (Entrant Member)) {games : List Game}
    (h : games.Perm (gamesInTurn p population)) :
    holdRound p parallel population = (recordGames population games, games.length) := by
  have hplayed : (if parallel then gamesAtOnce p population else gamesInTurn p population)
      = gamesInTurn p population := by rw [gamesAtOnce_eq, ite_self]
  rw [holdRound, hplayed, recordGames_perm population h, h.length_eq]

variable [PartialCompare Key]

theorem playGeneration_parallel (p : Problem ω Member Key) (cfg : Config) (parallel : Bool)
    (generation : Nat) (t : Tournament Member Key) (w : ω) :
    playGeneration p { cfg with parallel } generation t w
      = playGeneration p cfg generation t w := by
  have hround : holdRound p parallel t.population = holdRound p cfg.parallel t.population := by
    rw [holdRound_eq p parallel _ (.refl _), holdRound_eq p cfg.parallel _ (.refl _)]
  simp only [playGeneration, hround]
  rfl

theorem playGenerations_parallel (p : Problem ω Member Key) (cfg : Config) (parallel : Bool)
    (count generation : Nat) (t : Tournament Member Key) (w : ω) :
    playGenerations p { cfg with parallel } count generation t w
      = playGenerations p cfg count generation t w := by
  induction count generalizing generation t w with
  | zero => rfl
  | succ count ih =>
    rw [playGenerations, playGenerations, playGeneration_parallel]
    cases playGeneration p cfg generation t w with
    | none => rfl
    | some played => exact ih (generation + 1) played.1 played.2

/-- A run comes to the same, however the games of its rounds are played. -/
theorem run_parallel (p : Problem ω Member Key) (cfg : Config) (parallel : Bool) (w : ω) :
    run p { cfg with parallel } w = run p cfg w := by
  simp only [run, playGenerations_parallel]
  rfl

/--
**The order of the games does not matter.** Whatever order the games of a round are counted in,
every member has the record that it has when they are counted in turn, and that the round gives it,
played in either way; and a tournament has the same end, outcome and notes and world, whether its
games are played at once or in turn.
-/
theorem round_unordered (p : Problem ω Member Key) (population : Array (Entrant Member))
    {games : List Game} (h : games.Perm (gamesInTurn p population)) (cfg : Config) (w : ω) :
    recordGames population games = recordGames population (gamesInTurn p population) ∧
      gamesAtOnce p population = gamesInTurn p population ∧
      (∀ parallel, holdRound p parallel population
        = (recordGames population games, games.length)) ∧
      run p { cfg with parallel := true } w = run p { cfg with parallel := false } w :=
  ⟨recordGames_perm population h, gamesAtOnce_eq p population,
    fun parallel => holdRound_eq p parallel population h, by
    rw [run_parallel p cfg true, run_parallel p cfg false]⟩

/-- Three members, the second of them with a game behind it and the others equal. -/
def threeMembers : Array (Entrant Nat) :=
  #[{ member := 12 }, { member := 31, record := { wins := 1 } }, { member := 12 }]

/-- Their games, the last of them first. -/
def gamesBackward : List Game := (gamesInTurn scripted threeMembers).reverse

/--
Counted from the last to the first, the six games give the second member four wins, which it has
beside the one from before, and each of the others two ties and two losses; in turn they do as well.
-/
theorem round_unordered_threeMembers :
    gamesBackward.map (fun game => (game.first, game.second, game.result))
        = [(2, 1, .loss), (2, 0, .tie), (1, 2, .win), (1, 0, .win), (0, 2, .tie), (0, 1, .loss)] ∧
      recordGames threeMembers gamesBackward = #[{ member := 12, record := ⟨0, 2, 2⟩ },
        { member := 31, record := ⟨5, 0, 0⟩ }, { member := 12, record := ⟨0, 2, 2⟩ }] ∧
      recordGames threeMembers gamesBackward
        = recordGames threeMembers (gamesInTurn scripted threeMembers) ∧
      gamesAtOnce scripted threeMembers = gamesInTurn scripted threeMembers ∧
      (∀ parallel, holdRound scripted parallel threeMembers
        = (recordGames threeMembers gamesBackward, gamesBackward.length)) ∧
      run scripted { threeGenerations with parallel := true } tiedNewcomers
        = run scripted { threeGenerations with parallel := false } tiedNewcomers := by
  refine ⟨by decide, by decide, ?_⟩
  exact round_unordered scripted threeMembers (List.reverse_perm _) threeGenerations tiedNewcomers

end EvolutionarySearch.Tournament
