import EvolutionarySearch.Proofs.Tournament.Balance

/-!
# What a tournament can count

A configuration passes if its population can be counted in 64 bits. A round has nearly as many games
as the square of that population, and each game is recorded twice. So games and results can be
counted for far fewer parents than pass. Every season has the same counts; here the number of
parents is found from which on each of them is too large.

* `le_iff_of_between` — where a sequence that never falls exceeds a bound
* `Season.Countable` — all that is counted in a season fits in 64 bits
* `counted_iff_numParents` — up to how many parents it does, and each count by itself
* `tooManyGames_overflows` — a configuration that passes, and whose games cannot be counted
-/

namespace EvolutionarySearch.Tournament

variable {ω Member Key : Type}

/-! ## Bounds -/

theorem le_iff_of_between {f : Nat → Nat} (hf : Monotone f) {bound b : Nat} (hb : f b ≤ bound)
    (hnext : bound < f (b + 1)) (k : Nat) : f k ≤ bound ↔ k ≤ b :=
  ⟨fun h => Nat.le_of_lt_succ (hf.reflect_lt (Nat.lt_of_le_of_lt h hnext)),
    fun h => (hf h).trans hb⟩

theorem members_le_maxCount_iff (k : Nat) : k ^ 2 + 1 ≤ Config.maxCount ↔ k ≤ 4294967295 :=
  le_iff_of_between (f := fun k => k ^ 2 + 1) (fun a b h => by dsimp only; gcongr)
    (by decide) (by decide) k

theorem totals_le_maxCount_iff (k : Nat) : 2 * k ^ 2 ≤ Config.maxCount ↔ k ≤ 3037000499 :=
  le_iff_of_between (f := fun k => 2 * k ^ 2) (fun a b h => by dsimp only; gcongr)
    (by decide) (by decide) k

theorem games_le_maxCount_iff (k : Nat) : (k ^ 2 + 1) * k ^ 2 ≤ Config.maxCount ↔ k ≤ 65535 :=
  le_iff_of_between (f := fun k => (k ^ 2 + 1) * k ^ 2) (fun a b h => by dsimp only; gcongr)
    (by decide) (by decide) k

theorem results_le_maxCount_iff (k : Nat) : 2 * (k ^ 2 + 1) * k ^ 2 ≤ Config.maxCount ↔ k ≤ 55108 :=
  le_iff_of_between (f := fun k => 2 * (k ^ 2 + 1) * k ^ 2) (fun a b h => by dsimp only; gcongr)
    (by decide) (by decide) k

/-! ## Seasons -/

/-- The number of games for which room is made before a round is played. -/
def Season.room (season : Season ω Member Key) : Nat :=
  season.before.population.size * (season.before.population.size - 1)

/-- The counts of a season after its round. -/
def Season.counts (p : Problem ω Member Key) (cfg : Config) (season : Season ω Member Key) :
    Counts :=
  let round := holdRound p cfg.parallel season.before.population
  .ofRound season.generation round.2 round.1

/-- All that is counted in a season fits in 64 bits. -/
structure Season.Countable (p : Problem ω Member Key) (cfg : Config)
    (season : Season ω Member Key) : Prop where
  members : (season.counts p cfg).members ≤ Config.maxCount
  room : season.room ≤ Config.maxCount
  games : (season.counts p cfg).games ≤ Config.maxCount
  totals : ∀ entrant ∈ season.entrants p cfg, entrant.record.total ≤ Config.maxCount
  results : (season.counts p cfg).results ≤ Config.maxCount

section Counts

variable {p : Problem ω Member Key} {cfg : Config} {k : Nat} {season : Season ω Member Key}
  (h : Balanced p cfg (k ^ 2 + 1) season)

include h

theorem Balanced.room_eq : season.room = (k ^ 2 + 1) * k ^ 2 := by
  rw [Season.room, h.size, Nat.add_sub_cancel]

theorem Balanced.counts_eq : season.counts p cfg
    = ⟨season.generation, k ^ 2 + 1, (k ^ 2 + 1) * k ^ 2, 2 * (k ^ 2 + 1) * k ^ 2⟩ := by
  rw [Season.counts, h.counts, Counts.full, Nat.add_sub_cancel]

/-- There is a member, and all have the same total. -/
theorem Balanced.totals_le_iff {bound : Nat} :
    (∀ entrant ∈ season.entrants p cfg, entrant.record.total ≤ bound) ↔ 2 * k ^ 2 ≤ bound := by
  have htotals := h.totals
  rw [Nat.add_sub_cancel] at htotals
  constructor
  · intro hall
    have hlength : 0 < (season.entrants p cfg).length := by
      rw [h.records, List.length_ofFn, h.size]
      exact Nat.succ_pos _
    have hmem := List.getElem_mem hlength
    rw [← htotals _ hmem]
    exact hall _ hmem
  · intro hle entrant hentrant
    rw [htotals entrant hentrant]
    exact hle

theorem Balanced.countable_iff (hmembers : k ^ 2 + 1 ≤ Config.maxCount) :
    season.Countable p cfg ↔ k ≤ 55108 := by
  constructor
  · intro hcount
    have hresults := hcount.results
    rw [h.counts_eq] at hresults
    exact (results_le_maxCount_iff k).mp hresults
  · intro hk
    constructor
    · rwa [h.counts_eq]
    · rw [h.room_eq]
      exact (games_le_maxCount_iff k).mpr (by omega)
    · rw [h.counts_eq]
      exact (games_le_maxCount_iff k).mpr (by omega)
    · exact h.totals_le_iff.mpr ((totals_le_maxCount_iff k).mpr (by omega))
    · rw [h.counts_eq]
      exact (results_le_maxCount_iff k).mpr hk

end Counts

section Runs

variable [PartialCompare Key]

theorem history_ne_nil {p : Problem ω Member Key} {cfg : Config} (hvalid : cfg.validate = .ok ())
    (w : ω) : history p cfg w ≠ [] := by
  have hpos := generations_pos hvalid
  intro hnil
  have hhead := head?_seasons p cfg cfg.maxGenerations 1 (opened p cfg w).1 (opened p cfg w).2
  rw [← history, hnil, if_neg (Nat.ne_of_gt hpos)] at hhead
  cases hhead

/--
**What a configuration that passes can count.** It has 4294967295 parents at most, and a population
that can be counted. In every season the results of one member can be counted up to 3037000499
parents, the games up to 65535, and the results of all members, with them everything, up to 55108.
There is a season, so with more parents there is a count that does not fit.
-/
theorem counted_iff_numParents (p : Problem ω Member Key) (cfg : Config)
    (hvalid : cfg.validate = .ok ()) (w : ω) :
    cfg.numParents ≤ 4294967295 ∧ cfg.populationSize = cfg.numParents ^ 2 + 1 ∧
      cfg.populationSize ≤ Config.maxCount ∧ history p cfg w ≠ [] ∧
      ∀ season ∈ history p cfg w,
        (season.room ≤ Config.maxCount ↔ cfg.numParents ≤ 65535) ∧
        ((season.counts p cfg).games ≤ Config.maxCount ↔ cfg.numParents ≤ 65535) ∧
        ((∀ entrant ∈ season.entrants p cfg, entrant.record.total ≤ Config.maxCount) ↔
          cfg.numParents ≤ 3037000499) ∧
        ((season.counts p cfg).results ≤ Config.maxCount ↔ cfg.numParents ≤ 55108) ∧
        (season.Countable p cfg ↔ cfg.numParents ≤ 55108) := by
  have hsize := populationSize_eq hvalid
  have hcounted : cfg.populationSize ≤ Config.maxCount := Nat.min_le_right _ _
  have hmembers : cfg.numParents ^ 2 + 1 ≤ Config.maxCount := hsize ▸ hcounted
  refine ⟨(members_le_maxCount_iff _).mp hmembers, hsize, hcounted, history_ne_nil hvalid w,
    fun season hseason => ?_⟩
  have hbalanced := (history_fielded hvalid w season hseason).balanced p
  rw [hbalanced.room_eq, hbalanced.counts_eq]
  exact ⟨games_le_maxCount_iff _, games_le_maxCount_iff _,
    hbalanced.totals_le_iff.trans (totals_le_maxCount_iff _), results_le_maxCount_iff _,
    hbalanced.countable_iff hmembers⟩

/-- The most parents for which everything can be counted. -/
def mostParents : Config := { numParents := 55108 }

/-- There is a season, and all that is counted in any of them fits. -/
theorem counted_iff_numParents_mostParents :
    mostParents.validate = .ok () ∧ mostParents.populationSize = 3036891665 ∧
      history movingFirst mostParents equalNewcomers ≠ [] ∧
      ∀ season ∈ history movingFirst mostParents equalNewcomers,
        season.Countable movingFirst mostParents := by
  have hvalid : mostParents.validate = .ok () := by decide
  obtain ⟨-, hsize, -, hsome, hall⟩ :=
    counted_iff_numParents movingFirst mostParents hvalid equalNewcomers
  refine ⟨hvalid, hsize, hsome, fun season hseason => ?_⟩
  obtain ⟨-, -, -, -, hcount⟩ := hall season hseason
  exact hcount.mpr (by decide)

/-- The least number of parents with more games than can be counted. -/
def tooManyGames : Config := { numParents := 65536 }

/-- It passes, and there is a season for whose games no room can be made. -/
theorem tooManyGames_overflows :
    tooManyGames.validate = .ok () ∧ tooManyGames.populationSize = 4294967297 ∧
      Config.maxCount = 18446744073709551615 ∧
      ∃ season ∈ history movingFirst tooManyGames equalNewcomers,
        season.room = 18446744078004518912 ∧ ¬season.Countable movingFirst tooManyGames := by
  have hvalid : tooManyGames.validate = .ok () := by decide
  obtain ⟨season, hseason⟩ :=
    List.exists_mem_of_ne_nil _ (history_ne_nil (p := movingFirst) hvalid equalNewcomers)
  have hbalanced := (history_fielded hvalid equalNewcomers season hseason).balanced movingFirst
  have hroom : season.room = 18446744078004518912 := hbalanced.room_eq
  refine ⟨hvalid, by decide, by decide, season, hseason, hroom, fun hcount => ?_⟩
  have hfits := hcount.room
  rw [hroom] at hfits
  exact absurd hfits (by decide)

end Runs

end EvolutionarySearch.Tournament
