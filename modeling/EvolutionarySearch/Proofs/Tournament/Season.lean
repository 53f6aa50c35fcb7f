import EvolutionarySearch.Tournament.Run
import EvolutionarySearch.Proofs.Sorting.Stable

/-!
# Seasons

A season is a generation of a tournament that is played, with the situation in which it starts. All
that a tournament comes to can be read off its seasons: the members with their records, and which of
them is ranked first.

* `playGeneration_plays` — what one season does to the champion and to the journal of displays
-/

namespace EvolutionarySearch.Tournament

variable {ω Member Key : Type}

/-! ## Keys -/

/-- The comparison of keys by which members are ranked. -/
def compareKeys (Key : Type) [PartialCompare Key] (a b : Key) : Ordering :=
  (PartialCompare.partialCompare a b).getD .eq

theorem beats_iff [PartialCompare Key] {a b : Key} :
    beats a b = true ↔ compareKeys Key a b = .gt := by
  unfold beats compareKeys
  cases PartialCompare.partialCompare a b with
  | none => simp
  | some order => cases order <;> simp

theorem rankOrder_beats [PartialCompare Key] [Std.TransCmp (compareKeys Key)] :
    Sorting.RankOrder (beats : Key → Key → Bool) where
  asymm a b hab := by
    have hba := Std.OrientedCmp.lt_of_gt (beats_iff.mp hab)
    rw [Bool.eq_false_iff, ne_eq, beats_iff, hba]
    simp
  split a b c hac := by
    by_cases hab : beats a b = true
    · exact .inl hab
    · have hle : (compareKeys Key b a).isGE = true := by
        rw [Std.OrientedCmp.isGE_iff_isLE]
        rw [beats_iff] at hab
        cases hcmp : compareKeys Key a b <;> simp_all
      exact .inr (beats_iff.mpr (Std.TransCmp.gt_of_isGE_of_gt hle (beats_iff.mp hac)))

/-- The key of a member with its record. -/
def Problem.rank (p : Problem ω Member Key) (entrant : Entrant Member) : Key :=
  p.key entrant.member entrant.record

/-- Whether the key of one member is strictly above that of another. -/
def Problem.outranks [PartialCompare Key] (p : Problem ω Member Key) (a b : Entrant Member) :
    Bool :=
  beats (p.rank a) (p.rank b)

theorem rankOrder_outranks [PartialCompare Key] [Std.TransCmp (compareKeys Key)]
    (p : Problem ω Member Key) : Sorting.RankOrder p.outranks :=
  rankOrder_beats.comap p.rank

/-! ## Displays -/

/-- A log in the world, with an entry for every call of the display of a problem and no other. -/
structure Journal (p : Problem ω Member Key) (log : ω → List (Member × Record × Nat)) : Prop where
  generated : ∀ w, log (p.generate w).2 = log w
  crossed : ∀ a b w, log (p.crossover a b w).2 = log w
  written : ∀ member record generation w,
    log (p.display member record generation w) = log w ++ [(member, record, generation)]

section Silence

variable {p : Problem ω Member Key} {log : ω → List (Member × Record × Nat)} (hlog : Journal p log)

include hlog

theorem Journal.generateAll (count : Nat) (w : ω) : log (generateAll p count w).2 = log w := by
  induction count generalizing w with
  | zero => rfl
  | succ count ih => rw [Tournament.generateAll, ih, hlog.generated]

theorem Journal.crossAll (pairs : List (Member × Member)) (w : ω) :
    log (crossAll p pairs w).2 = log w := by
  induction pairs generalizing w with
  | nil => rfl
  | cons pair pairs ih => rw [Tournament.crossAll, ih, hlog.crossed]

theorem Journal.nextPopulation (parents : List Member) (w : ω) :
    log (nextPopulation p parents w).2 = log w := by
  rw [Tournament.nextPopulation]
  exact (hlog.generated _).trans (hlog.crossAll _ w)

end Silence

/-! ## Populations -/

theorem size_freshPopulation (members : List Member) :
    (freshPopulation members).size = members.length := by
  simp [freshPopulation]

theorem length_generateAll (p : Problem ω Member Key) (count : Nat) (w : ω) :
    (generateAll p count w).1.length = count := by
  induction count generalizing w with
  | zero => rfl
  | succ count ih => rw [generateAll, List.length_cons, ih]

/-- There is always the newcomer. -/
theorem size_nextPopulation_pos (p : Problem ω Member Key) (parents : List Member) (w : ω) :
    0 < (nextPopulation p parents w).1.size := by
  simp only [nextPopulation, size_freshPopulation, List.length_append, List.length_singleton]
  omega

/-! ## Seasons -/

/-- A generation in the situation in which it is played. -/
structure Season (ω Member Key : Type) where
  generation : Nat
  before : Tournament Member Key
  world : ω

/-- The members of a season with the records of its round, in the order of the population. -/
def Season.entrants (p : Problem ω Member Key) (cfg : Config) (season : Season ω Member Key) :
    List (Entrant Member) :=
  (holdRound p cfg.parallel season.before.population).1.toList

variable [PartialCompare Key]

/-- The seasons that are played from a generation on. -/
def seasons (p : Problem ω Member Key) (cfg : Config) :
    Nat → Nat → Tournament Member Key → ω → List (Season ω Member Key)
  | 0, _, _, _ => []
  | count + 1, generation, t, w =>
    ⟨generation, t, w⟩ ::
      match playGeneration p cfg generation t w with
      | none => []
      | some (t, w) => seasons p cfg count (generation + 1) t w

/-- The state in which the seasons of a run begin, and the world. -/
def opened (p : Problem ω Member Key) (cfg : Config) (w : ω) : Tournament Member Key × ω :=
  let members := generateAll p cfg.populationSize w
  ({ population := freshPopulation members.1 }, members.2)

/-- The seasons of a run. -/
def history (p : Problem ω Member Key) (cfg : Config) (w : ω) : List (Season ω Member Key) :=
  seasons p cfg cfg.maxGenerations 1 (opened p cfg w).1 (opened p cfg w).2

theorem run_eq {p : Problem ω Member Key} {cfg : Config} (hvalid : cfg.validate = .ok ()) (w : ω) :
    run p cfg w =
      let played := playGenerations p cfg cfg.maxGenerations 1 (opened p cfg w).1 (opened p cfg w).2
      let t := played.tournament
      if played.stuck then ⟨.error .contradictoryKeys, t.notes, played.world⟩
      else
        ⟨t.outcome, t.notes.push (.finished cfg.maxGenerations t.improvements), played.world⟩ := by
  unfold run
  rw [hvalid]
  rfl

omit [PartialCompare Key] in
theorem opened_populated (p : Problem ω Member Key) (cfg : Config) (w : ω) :
    0 < (opened p cfg w).1.population.size := by
  have hsize : 0 < cfg.populationSize := by
    simp only [Config.populationSize, Config.maxCount, UInt64.size]
    omega
  rwa [opened, size_freshPopulation, length_generateAll]

/-- What a season does, in which `top` is ranked first. -/
structure Plays (p : Problem ω Member Key) (cfg : Config) (season : Season ω Member Key)
    (top : Entrant Member) (t : Tournament Member Key) (w : ω) : Prop where
  first : Sorting.First p.outranks (season.entrants p cfg) top
  populated : 0 < t.population.size
  champion : t.champion =
    if improvesOn season.before.champion (p.rank top) then
      some ⟨top, p.rank top, season.generation⟩
    else season.before.champion
  improvements : t.improvements
    = season.before.improvements + if improvesOn season.before.champion (p.rank top) then 1 else 0
  written : ∀ log, Journal p log → log w = log season.world ++
    if improvesOn season.before.champion (p.rank top) then
      [(top.member, top.record, season.generation)]
    else []

variable [Std.TransCmp (compareKeys Key)] {p : Problem ω Member Key} {cfg : Config}

/-- The members of a population can be ranked, and the first of the highest comes first. -/
theorem ranking_first {population : Array (Entrant Member)} (hpopulation : 0 < population.size) :
    ∃ top rest, ranking p population = some ((p.rank top, top) :: rest) ∧
      Sorting.First p.outranks population.toList top := by
  have hrank := rankOrder_beats.comap (Prod.fst : Key × Entrant Member → Key)
  obtain ⟨ranked, hranked, hsorts⟩ := Sorting.stableSort_sorts hrank
    (population.toList.map fun entrant => (p.rank entrant, entrant))
  cases ranked with
  | nil =>
    have hlength := (ranking_perm hranked).length_eq
    simp at hlength
    omega
  | cons first rest =>
    obtain ⟨top, rfl, htop⟩ := (hsorts.head hrank).exists_of_map
    exact ⟨top, rest, hranked, htop⟩

theorem playGeneration_plays (p : Problem ω Member Key) (cfg : Config) (generation : Nat)
    {t : Tournament Member Key} (hpopulation : 0 < t.population.size) (w : ω) :
    ∃ top t' w', playGeneration p cfg generation t w = some (t', w') ∧
      Plays p cfg ⟨generation, t, w⟩ top t' w' := by
  have hround : 0 < (holdRound p cfg.parallel t.population).1.size := by
    simpa [holdRound, size_recordGames] using hpopulation
  obtain ⟨top, rest, hranking, hfirst⟩ := ranking_first (p := p) hround
  refine ⟨top, _, _, by rw [playGeneration, hranking, Option.map_some], hfirst, ?_, ?_, ?_, ?_⟩
  · exact size_nextPopulation_pos p _ _
  · simp only [breedRanked, challenge]
    split <;> rfl
  · simp only [breedRanked, challenge]
    split <;> rfl
  · intro log hlog
    simp only [breedRanked, hlog.nextPopulation, challenge]
    split
    · exact hlog.written ..
    · simp

end EvolutionarySearch.Tournament
