import EvolutionarySearch.Proofs.Tournament.Champion
import EvolutionarySearch.Proofs.Tournament.Succession
import EvolutionarySearch.Proofs.Tournament.Tally
import Mathlib.Algebra.BigOperators.Fin
import Mathlib.Algebra.Group.Even

/-!
# The balance of a round

In a round a member meets every other member twice, once moving first and once moving second. Its
record is the count of what comes of these games. Every game is a win for one side and a loss for
the other, or a tie for both, so that over all members the wins are as many as the losses.

* `count_resultsAt` — the results of a place in a round, counted opponent by opponent
* `sum_score_mirror` — what is won by some is lost by others
* `run_balanced` — the records and the counts of all seasons of a run
-/

namespace EvolutionarySearch.Tournament

open Finset

variable {ω Member Key : Type} {n : Nat}

/-! ## Scores -/

section Scores

variable (p : Problem ω Member Key) (members : Fin n → Member)

/-- How many games of a member that moves first have a result. -/
def leading (place : Fin n) (result : GameResult) : Nat :=
  #{other | other ≠ place ∧ p.compete (members place) (members other) = result}

/-- How many games of a member that moves second have a result. -/
def following (place : Fin n) (result : GameResult) : Nat :=
  #{other | other ≠ place ∧ p.compete (members other) (members place) = result}

/-- How often a member comes to a result; moving second, it comes to the mirrored one. -/
def score (place : Fin n) (result : GameResult) : Nat :=
  leading p members place result + following p members place result.mirror

/-- The record of a round. -/
def earned (place : Fin n) : Record :=
  ⟨score p members place .win, score p members place .tie, score p members place .loss⟩

theorem sum_following (result : GameResult) :
    ∑ place, following p members place result = ∑ place, leading p members place result := by
  simp only [following, leading, card_filter]
  rw [sum_comm]
  simp only [ne_comm]

/-- What is won by some is lost by others. -/
theorem sum_score_mirror (result : GameResult) :
    ∑ place, score p members place result.mirror = ∑ place, score p members place result := by
  have htwice : result.mirror.mirror = result := by cases result <;> rfl
  simp only [score, sum_add_distrib, sum_following, htwice]
  exact Nat.add_comm _ _

theorem even_sum_score_tie : Even (∑ place, score p members place .tie) := by
  simp only [score, sum_add_distrib, GameResult.mirror, sum_following]
  exact ⟨_, rfl⟩

/-- Every game has one result. -/
theorem card_results (place : Fin n) (result : Fin n → GameResult) :
    #{other | other ≠ place ∧ result other = .win} + #{other | other ≠ place ∧ result other = .tie}
      + #{other | other ≠ place ∧ result other = .loss} = n - 1 := by
  have hothers : #{other : Fin n | other ≠ place} = n - 1 := by
    rw [filter_ne', card_erase_of_mem (mem_univ place), card_univ, Fintype.card_fin]
  rw [← hothers]
  simp only [card_filter, ← sum_add_distrib]
  refine sum_congr rfl fun other _ => ?_
  cases result other <;> by_cases hother : other = place <;> simp [hother]

theorem total_earned (place : Fin n) : (earned p members place).total = 2 * (n - 1) := by
  have hleading : leading p members place .win + leading p members place .tie
      + leading p members place .loss = n - 1 :=
    card_results place fun other => p.compete (members place) (members other)
  have hfollowing : following p members place .win + following p members place .tie
      + following p members place .loss = n - 1 :=
    card_results place fun other => p.compete (members other) (members place)
  simp only [earned, Record.total, score, GameResult.mirror]
  omega

end Scores

/-! ## Rounds -/

section Rounds

variable (p : Problem ω Member Key) (population : Array (Entrant Member))

/-- The member at a place of a population. -/
def memberAt (place : Fin population.size) : Member := population[place].member

/-- The games of a round, couple by couple. -/
theorem gamesInTurn_eq :
    gamesInTurn p population = (couples population.size).map fun c =>
      ⟨c.1, c.2, p.compete (memberAt population c.1) (memberAt population c.2)⟩ := by
  have hmembers : population.toList.map (·.member) = List.ofFn (memberAt population) :=
    List.ext_getElem (by simp) fun i _ _ => by simp [memberAt]
  rw [gamesInTurn, placed, hmembers, orderedPairs_zipIdx, List.map_map]
  rfl

theorem length_gamesInTurn :
    (gamesInTurn p population).length = population.size * (population.size - 1) := by
  rw [gamesInTurn_eq, List.length_map, length_couples]

theorem Game.count_resultsAt (game : Game) (place : Nat) (result : GameResult) :
    (game.resultsAt place).count result
      = (if game.first = place ∧ game.result = result then 1 else 0)
        + (if game.second = place ∧ game.result = result.mirror then 1 else 0) := by
  have hmirror : game.result.mirror = result ↔ game.result = result.mirror := by
    cases game.result <;> cases result <;> decide
  rw [Game.resultsAt, List.count_append]
  by_cases hfirst : game.first = place <;> by_cases hsecond : game.second = place <;>
    simp [hfirst, hsecond, hmirror, List.count_singleton, beq_eq_decide]

/-- The couples with a place in front and those with it behind, by the other place. -/
theorem sum_couples_at (place : Fin n) (met : Fin n → Fin n → GameResult) (x y : GameResult) :
    ((couples n).map fun c => (if c.1 = place ∧ met c.1 c.2 = x then 1 else 0)
        + (if c.2 = place ∧ met c.1 c.2 = y then 1 else 0)).sum
      = #{other | other ≠ place ∧ met place other = x}
        + #{other | other ≠ place ∧ met other place = y} := by
  -- a couple has the place in front or behind, never both, so the two indicators separate
  have hsplit : ∀ a b : Fin n,
      (if b ≠ a then (if a = place ∧ met a b = x then 1 else 0)
        + (if b = place ∧ met a b = y then 1 else 0) else 0)
      = (if a = place then (if b ≠ place ∧ met place b = x then 1 else 0) else 0)
        + (if b = place then (if a ≠ place ∧ met a place = y then 1 else 0) else 0) := by
    intro a b
    have hflip : place = a ↔ a = place := eq_comm
    by_cases ha : a = place <;> by_cases hb : b = place <;> simp [ha, hb, hflip]
  simp only [sum_couples, hsplit, sum_add_distrib, card_filter]
  congr 1
  · rw [sum_comm]
    simp
  · simp

/-- The results of a place in a round, opponent by opponent. -/
theorem count_resultsAt (place : Fin population.size) (result : GameResult) :
    (resultsAt place (gamesInTurn p population)).count result
      = score p (memberAt population) place result := by
  rw [gamesInTurn_eq, resultsAt, List.flatMap_map, List.count_flatMap]
  simp only [Function.comp_def, Game.count_resultsAt, Fin.val_inj]
  exact sum_couples_at place
    (fun a b => p.compete (memberAt population a) (memberAt population b)) result result.mirror

/-- After a round without results before it, every record is what its member has earned. -/
theorem toList_holdRound (parallel : Bool)
    (hcleared : ∀ entrant ∈ population, entrant.record = {}) :
    (holdRound p parallel population).1.toList = List.ofFn fun place =>
      ⟨memberAt population place, earned p (memberAt population) place⟩ := by
  rw [holdRound_eq p parallel population (.refl _)]
  refine List.ext_getElem (by simp [size_recordGames]) fun place hplace _ => ?_
  rw [Array.length_toList, size_recordGames] at hplace
  have hrecord : population[place].record = {} := hcleared _ (Array.getElem_mem hplace)
  have htally := getElem?_recordGames population (gamesInTurn p population) place
  rw [Array.getElem?_eq_getElem hplace, Option.map_some, hrecord] at htally
  rw [Array.getElem_toList, List.getElem_ofFn]
  refine Option.some.inj ((Array.getElem?_eq_getElem _).symm.trans (htally.trans ?_))
  have hcount := count_resultsAt p population ⟨place, hplace⟩
  simp only at hcount
  simp only [Record.tally, hcount, earned, Nat.zero_add]
  rfl

end Rounds

/-! ## Seasons -/

/-- The counts of a season with a number of members. -/
def Counts.full (n generation : Nat) : Counts := ⟨generation, n, n * (n - 1), 2 * n * (n - 1)⟩

/-- The round of a season with `n` members, in its records and its counts. -/
structure Balanced (p : Problem ω Member Key) (cfg : Config) (n : Nat)
    (season : Season ω Member Key) : Prop where
  size : season.before.population.size = n
  cleared : ∀ entrant ∈ season.before.population, entrant.record = {}
  records : season.entrants p cfg = List.ofFn fun place =>
    ⟨memberAt season.before.population place, earned p (memberAt season.before.population) place⟩
  totals : ∀ entrant ∈ season.entrants p cfg, entrant.record.total = 2 * (n - 1)
  wins : ((season.entrants p cfg).map (·.record.wins)).sum
    = ((season.entrants p cfg).map (·.record.losses)).sum
  ties : Even ((season.entrants p cfg).map (·.record.ties)).sum
  games : (holdRound p cfg.parallel season.before.population).2 = n * (n - 1)
  counts : Counts.ofRound season.generation (holdRound p cfg.parallel season.before.population).2
    (holdRound p cfg.parallel season.before.population).1 = .full n season.generation

/-- The counts of a round in which all records have one total. -/
theorem Counts.ofRound_eq {population : Array (Entrant Member)} {n total : Nat}
    (generation games : Nat) (hsize : population.size = n)
    (htotals : ∀ entrant ∈ population.toList, entrant.record.total = total) :
    Counts.ofRound generation games population = ⟨generation, n, games, n * total⟩ := by
  have hresults : population.foldl (fun count entrant => count + entrant.record.total) 0
      = n * total := by
    have hsum : (population.toList.map (·.record.total)).sum = n * total := by
      rw [List.sum_eq_card_nsmul _ total (by simpa using htotals), List.length_map,
        Array.length_toList, hsize, smul_eq_mul]
    rw [← hsum, List.sum_eq_foldl, List.foldl_map, Array.foldl_toList]
  rw [Counts.ofRound, hresults, hsize]

theorem Fielded.balanced {cfg : Config} {season : Season ω Member Key}
    (h : Fielded cfg season.before.population) (p : Problem ω Member Key) :
    Balanced p cfg (cfg.numParents ^ 2 + 1) season := by
  have hrecords := toList_holdRound p season.before.population cfg.parallel h.cleared
  have htotals : ∀ entrant ∈ season.entrants p cfg,
      entrant.record.total = 2 * (season.before.population.size - 1) := by
    intro entrant hentrant
    rw [Season.entrants, hrecords] at hentrant
    obtain ⟨place, rfl⟩ := List.mem_ofFn.mp hentrant
    exact total_earned p _ place
  have hgames : (holdRound p cfg.parallel season.before.population).2
      = season.before.population.size * (season.before.population.size - 1) := by
    rw [holdRound_eq p cfg.parallel _ (.refl _)]
    exact length_gamesInTurn p _
  rw [← h.size]
  refine ⟨rfl, h.cleared, hrecords, htotals, ?_, ?_, hgames, ?_⟩
  · rw [Season.entrants, hrecords, List.map_ofFn, List.map_ofFn, List.sum_ofFn, List.sum_ofFn]
    exact (sum_score_mirror p (memberAt season.before.population) .win).symm
  · rw [Season.entrants, hrecords, List.map_ofFn, List.sum_ofFn]
    exact even_sum_score_tie p _
  · rw [Counts.ofRound_eq _ _ (season.length_entrants p cfg) htotals, hgames, Counts.full]
    congr 1
    ring

section Runs

variable [PartialCompare Key] {p : Problem ω Member Key} {cfg : Config}

/-- What holds between two seasons: a fresh field, and the counts of all seasons before. -/
structure Kept (cfg : Config) (generation : Nat) (t : Tournament Member Key) : Prop where
  fielded : Fielded cfg t.population
  started : 0 < generation
  counts : t.counts.toList
    = (List.range' 1 (generation - 1)).map (.full (cfg.numParents ^ 2 + 1))
  crowned : 1 < generation → t.champion ≠ none

theorem kept_step {season : Season ω Member Key} {t : Tournament Member Key} {w : ω}
    (h : Kept cfg season.generation season.before) (hleaves : season.Leaves p cfg t w) :
    Kept cfg (season.generation + 1) t := by
  obtain ⟨top, rest, hcloses⟩ := hleaves.closes (by rw [h.fielded.size]; omega)
  refine ⟨hleaves.fielded h.fielded, Nat.succ_pos _, ?_, fun _ => hcloses.crowned⟩
  obtain ⟨earlier, hearlier⟩ : ∃ earlier, season.generation = earlier + 1 :=
    Nat.exists_eq_add_one.mpr h.started
  have hcounts := h.counts
  rw [hearlier, Nat.add_sub_cancel] at hcounts
  rw [hcloses.counts, (h.fielded.balanced p).counts, Array.toList_push, hcounts, hearlier,
    Nat.add_sub_cancel, List.range'_concat, List.map_append]
  simp [Nat.add_comm]

/--
**The records of a tournament balance.** In every season of a run all records start empty and end as
the count of two games against every other member; over all members the wins are as many as the
losses and the ties are even. There is an entry with these counts for every generation in order,
unless the keys of the members cannot be put in order, which ends the run.
-/
theorem run_balanced (p : Problem ω Member Key) (cfg : Config) (hvalid : cfg.validate = .ok ())
    (w : ω) :
    (∀ season ∈ history p cfg w, Balanced p cfg (cfg.numParents ^ 2 + 1) season) ∧
      (history p cfg w).map (·.generation) = List.range' 1 (history p cfg w).length ∧
      ((∃ outcome, (run p cfg w).outcome = .ok outcome ∧
          (history p cfg w).length = cfg.maxGenerations ∧
          outcome.counts.toList
            = (List.range' 1 cfg.maxGenerations).map (.full (cfg.numParents ^ 2 + 1))) ∨
        ((run p cfg w).outcome = .error .contradictoryKeys ∧
          ¬Std.TransCmp (compareKeys Key) ∧
          ∃ last, (history p cfg w).getLast? = some last ∧
            ranking p (holdRound p cfg.parallel last.before.population).1 = none)) := by
  have hopened : Kept cfg 1 (opened p cfg w).1 :=
    ⟨opened_fielded hvalid w, Nat.one_pos, rfl, fun h => absurd h (Nat.lt_irrefl 1)⟩
  obtain ⟨hseasons, hplayed⟩ := seasons_induction p cfg
    (I := fun generation t _ => Kept cfg generation t) (fun _ _ _ h hleaves => kept_step h hleaves)
    cfg.maxGenerations hopened (w := (opened p cfg w).2)
  refine ⟨fun season hseason => (hseasons season hseason).fielded.balanced p,
    generations_seasons .., ?_⟩
  -- how the run ends decides which of the two alternatives holds
  have hrun := run_eq (p := p) hvalid w
  dsimp only at hrun
  cases seasons_end p cfg cfg.maxGenerations 1 (opened p cfg w).1 (opened p cfg w).2 with
  | complete hstuck hlength =>
    left
    have hkept := hplayed hstuck
    rw [hstuck, if_neg Bool.false_ne_true] at hrun
    obtain ⟨champion, hchampion⟩ := Option.ne_none_iff_exists'.mp
      (hkept.crowned (by have := generations_pos hvalid; omega))
    rw [outcome, hchampion] at hrun
    exact ⟨_, by rw [hrun], hlength, by simpa using hkept.counts⟩
  | unranked hstuck hlast hranking =>
    right
    rw [hstuck, if_pos rfl] at hrun
    refine ⟨by rw [hrun], fun htrans => ?_, _, hlast, hranking⟩
    have hfielded := (hseasons _ (List.mem_of_getLast? hlast)).fielded
    exact hfielded.ranking_ne_none p hranking

/-! ## A field with equals -/

/-- Numbers, of which the higher wins, and of equal ones the first to move. -/
def movingFirst : Problem Script Nat Nat :=
  { scripted with compete a b := if b ≤ a then .win else .loss }

/-- Twenty games in each generation; equal members win against each other by moving first. -/
theorem run_balanced_equalNewcomers :
    ∃ outcome, (run movingFirst twoGenerations equalNewcomers).outcome = .ok outcome ∧
      outcome.counts.toList = [⟨1, 5, 20, 40⟩, ⟨2, 5, 20, 40⟩] ∧
      (history movingFirst twoGenerations equalNewcomers).head?.map (fun season =>
        (season.entrants movingFirst twoGenerations).map (·.record))
        = some [⟨3, 0, 5⟩, ⟨6, 0, 2⟩, ⟨3, 0, 5⟩, ⟨8, 0, 0⟩, ⟨0, 0, 8⟩] ∧
      ∀ season ∈ history movingFirst twoGenerations equalNewcomers,
        Balanced movingFirst twoGenerations 5 season := by
  obtain ⟨hseasons, -, ⟨outcome, houtcome, -, hcounts⟩ | ⟨-, hlawless, -⟩⟩ :=
    run_balanced movingFirst twoGenerations rfl equalNewcomers
  · exact ⟨outcome, houtcome, hcounts, by decide +kernel, hseasons⟩
  · exact absurd (inferInstanceAs (Std.TransCmp (compareKeys Nat))) hlawless

end Runs

end EvolutionarySearch.Tournament
