import EvolutionarySearch.Proofs.Tournament.Season
import EvolutionarySearch.Proofs.Tournament.Couples
import Mathlib.Tactic.Ring

/-!
# One season after the other

A season is played in the situation that the season before has left. This holds whatever the keys
are; only if they cannot be put in order, there is a season that leaves nothing, and it is the last.

* `Season.Leaves.closes` — what is left after a season, read off its standings
* `isChain_seasons`, `seasons_end` — the seasons of a run, and how it ends
* `Season.Leaves.fielded` — every season starts with a full population without results
-/

namespace EvolutionarySearch

/-! ## Sorting what is mapped -/

/-- A stable sort of mapped elements is a stable sort of the elements, if none are identified. -/
theorem Sorting.Sorts.of_map {α β : Type} {before : β → β → Bool} {f : α → β} {xs ys : List α}
    (hf : Function.Injective f) (h : Sorting.Sorts before (xs.map f) (ys.map f)) :
    Sorting.Sorts (fun a b => before (f a) (f b)) xs ys where
  ordered := List.pairwise_map.mp h.ordered
  rearranges x := by
    have hlevel := h.rearranges (f x)
    rw [List.filter_map, List.filter_map] at hlevel
    exact List.map_injective_iff.mpr hf hlevel

namespace Tournament

variable {ω Member Key : Type}

/-! ## Populations -/

theorem cleared_freshPopulation {members : List Member} {entrant : Entrant Member}
    (h : entrant ∈ freshPopulation members) : entrant.record = {} := by
  simp only [freshPopulation, List.mem_toArray, List.mem_map] at h
  obtain ⟨member, -, rfl⟩ := h
  rfl

theorem length_crossAll (p : Problem ω Member Key) (pairs : List (Member × Member)) (w : ω) :
    (crossAll p pairs w).1.length = pairs.length := by
  induction pairs generalizing w with
  | nil => rfl
  | cons pair pairs ih => rw [crossAll, List.length_cons, List.length_cons, ih]

/-- The children, their parents and the newcomer. -/
theorem size_nextPopulation (p : Problem ω Member Key) (parents : List Member) (w : ω) :
    (nextPopulation p parents w).1.size = parents.length ^ 2 + 1 := by
  have hpairs : (orderedPairs parents.zipIdx).length = parents.length * (parents.length - 1) := by
    conv_lhs => rw [← List.ofFn_get parents]
    rw [orderedPairs_zipIdx, List.length_map, length_couples]
  simp only [nextPopulation, size_freshPopulation, List.length_append, length_crossAll,
    List.length_map, hpairs, List.length_singleton]
  rcases Nat.eq_zero_or_pos parents.length with hnone | hsome
  · simp [hnone]
  · obtain ⟨n, hn⟩ : ∃ n, parents.length = n + 1 := Nat.exists_eq_add_one.mpr hsome
    rw [hn, Nat.add_sub_cancel]
    ring

/-- A population as it stands before a round: complete, and without results. -/
structure Fielded (cfg : Config) (population : Array (Entrant Member)) : Prop where
  size : population.size = cfg.numParents ^ 2 + 1
  cleared : ∀ entrant ∈ population, entrant.record = {}

theorem populationSize_eq {cfg : Config} (hvalid : cfg.validate = .ok ()) :
    cfg.populationSize = cfg.numParents ^ 2 + 1 := by
  unfold Config.validate at hvalid
  split at hvalid
  · cases hvalid
  · split at hvalid
    · cases hvalid
    · split at hvalid
      · cases hvalid
      · next hcounted =>
        rw [Config.populationSize, Nat.min_eq_left (Nat.not_lt.mp hcounted), pow_two]

theorem opened_fielded {p : Problem ω Member Key} {cfg : Config} (hvalid : cfg.validate = .ok ())
    (w : ω) : Fielded cfg (opened p cfg w).1.population where
  size := by
    rw [opened, size_freshPopulation, length_generateAll, populationSize_eq hvalid]
  cleared _ h := cleared_freshPopulation h

/-! ## What a season leaves -/

/-- The world of a season after its first, `top`, has challenged the champion. -/
def Season.presented [PartialCompare Key] (p : Problem ω Member Key)
    (season : Season ω Member Key) (top : Entrant Member) : ω :=
  if improvesOn season.before.champion (p.rank top) then
    p.display top.member top.record season.generation season.world
  else season.world

variable [PartialCompare Key] {p : Problem ω Member Key} {cfg : Config}
  {season : Season ω Member Key} {t : Tournament Member Key} {w : ω}

/-- A season can be ranked, and leaves a tournament and a world. -/
def Season.Leaves (p : Problem ω Member Key) (cfg : Config) (season : Season ω Member Key)
    (t : Tournament Member Key) (w : ω) : Prop :=
  playGeneration p cfg season.generation season.before season.world = some (t, w)

/-- A ranking is the population in some order, the stable one if the keys can be put in order. -/
theorem ranking_standings {population : Array (Entrant Member)}
    {ranked : List (Key × Entrant Member)} (h : ranking p population = some ranked) :
    ∃ standings : List (Entrant Member),
      ranked = standings.map (fun entrant => (p.rank entrant, entrant)) ∧
        standings.Perm population.toList ∧
        (Std.TransCmp (compareKeys Key) →
          Sorting.Sorts p.outranks population.toList standings) := by
  -- the keys that are sorted along with the entrants can be made again from these
  have hkeys : ranked = (ranked.map (·.2)).map fun entrant => (p.rank entrant, entrant) := by
    rw [List.map_map]
    refine (List.map_id ranked).symm.trans (List.map_congr_left fun entry hentry => ?_)
    have hranked := (Sorting.stableSort_perm _ _ _ h).mem_iff.mp hentry
    obtain ⟨entrant, -, rfl⟩ := List.mem_map.mp hranked
    rfl
  refine ⟨ranked.map (·.2), hkeys, ranking_perm h, fun htrans => ?_⟩
  have hrank := rankOrder_beats.comap (Prod.fst : Key × Entrant Member → Key)
  obtain ⟨ranked', hranked', hsorts⟩ := Sorting.stableSort_sorts hrank
    (population.toList.map fun entrant => (p.rank entrant, entrant))
  obtain rfl : ranked' = ranked := Option.some.inj (hranked'.symm.trans h)
  rw [hkeys] at hsorts
  have hinjective : Function.Injective fun entrant => (p.rank entrant, entrant) :=
    fun _ _ hab => congrArg Prod.snd hab
  exact (hsorts.of_map hinjective :)

theorem counts_challenge (p : Problem ω Member Key) (generation : Nat)
    (top : Key × Entrant Member) (t : Tournament Member Key) (w : ω) :
    (challenge p generation top t w).1.counts = t.counts := by
  unfold challenge
  split <;> rfl

theorem challenge_world (p : Problem ω Member Key) (generation : Nat) (top : Key × Entrant Member)
    (t : Tournament Member Key) (w : ω) :
    (challenge p generation top t w).2 = if improvesOn t.champion top.1 then
      p.display top.2.member top.2.record generation w else w := by
  unfold challenge
  split <;> rfl

theorem champion_challenge_ne_none (p : Problem ω Member Key) (generation : Nat)
    (top : Key × Entrant Member) (t : Tournament Member Key) (w : ω) :
    (challenge p generation top t w).1.champion ≠ none := by
  unfold challenge
  split
  · simp
  · next hkept =>
    intro hnone
    exact hkept (by rw [show t.champion = none from hnone]; rfl)

omit [PartialCompare Key] in
theorem Season.length_entrants (p : Problem ω Member Key) (cfg : Config)
    (season : Season ω Member Key) :
    (season.entrants p cfg).length = season.before.population.size := by
  simp [Season.entrants, holdRound, size_recordGames]

/-- What a season leaves, in which `top` is ranked first, and then the `rest`. -/
structure Season.Closes (p : Problem ω Member Key) (cfg : Config) (season : Season ω Member Key)
    (top : Entrant Member) (rest : List (Entrant Member)) (t : Tournament Member Key) (w : ω) :
    Prop where
  perm : (top :: rest).Perm (season.entrants p cfg)
  stable : Std.TransCmp (compareKeys Key) →
    Sorting.Sorts p.outranks (season.entrants p cfg) (top :: rest)
  bred : (t.population, w) = nextPopulation p
    (((top :: rest).take cfg.numParents).map (·.member)) (season.presented p top)
  counts : t.counts = season.before.counts.push
    (.ofRound season.generation (holdRound p cfg.parallel season.before.population).2
      (holdRound p cfg.parallel season.before.population).1)
  crowned : t.champion ≠ none

theorem Season.Leaves.closes (h : season.Leaves p cfg t w)
    (hpopulation : 0 < season.before.population.size) :
    ∃ top rest, season.Closes p cfg top rest t w := by
  obtain ⟨ranked, hranked, hbred⟩ := Option.map_eq_some_iff.mp h
  obtain ⟨standings, rfl, hperm, hstable⟩ := ranking_standings hranked
  cases standings with
  | nil =>
    have hsize := hperm.length_eq.trans (season.length_entrants p cfg)
    rw [List.length_nil] at hsize
    omega
  | cons top rest =>
    obtain ⟨ht : _ = t, hw : _ = w⟩ := Prod.ext_iff.mp hbred
    refine ⟨top, rest, hperm, hstable, ?_, ?_, ?_⟩
    · have hparents : (((top :: rest).map fun entrant => (p.rank entrant, entrant)).take
          cfg.numParents).map (fun entry => entry.2.member)
            = ((top :: rest).take cfg.numParents).map (·.member) := by
        rw [← List.map_take, List.map_map]
        rfl
      rw [← ht, ← hw, Season.presented]
      simp only [breedRanked, hparents]
      simp only [List.map_cons, challenge_world]
    · rw [← ht]
      exact counts_challenge ..
    · rw [← ht]
      exact champion_challenge_ne_none p season.generation _ _ season.world

/-- There are always enough members to breed. -/
theorem Season.Closes.numParents_le {top : Entrant Member} {rest : List (Entrant Member)}
    (h : season.Closes p cfg top rest t w) (hfielded : Fielded cfg season.before.population) :
    cfg.numParents ≤ (top :: rest).length := by
  rw [h.perm.length_eq, season.length_entrants, hfielded.size]
  exact (Nat.le_self_pow two_ne_zero _).trans (Nat.le_succ _)

/-- A season leaves a full population without results. -/
theorem Season.Leaves.fielded (h : season.Leaves p cfg t w)
    (hfielded : Fielded cfg season.before.population) : Fielded cfg t.population := by
  obtain ⟨top, rest, hcloses⟩ := h.closes (by rw [hfielded.size]; omega)
  obtain ⟨hpopulation : t.population = _, -⟩ := Prod.ext_iff.mp hcloses.bred
  refine ⟨?_, fun entrant hentrant => ?_⟩
  · rw [hpopulation, size_nextPopulation, List.length_map, List.length_take,
      Nat.min_eq_left (hcloses.numParents_le hfielded)]
  · rw [hpopulation] at hentrant
    exact cleared_freshPopulation hentrant

/-- A full population can be ranked, if the keys can be put in order. -/
theorem Fielded.ranking_ne_none [Std.TransCmp (compareKeys Key)] (p : Problem ω Member Key)
    (hfielded : Fielded cfg season.before.population) :
    ranking p (holdRound p cfg.parallel season.before.population).1 ≠ none := by
  have hround : 0 < (holdRound p cfg.parallel season.before.population).1.size := by
    rw [holdRound, size_recordGames, hfielded.size]
    exact Nat.succ_pos _
  obtain ⟨top, rest, hranked, -⟩ := ranking_first (p := p) hround
  rw [hranked]
  exact Option.some_ne_none _

/-! ## Seasons in a row -/

theorem head?_seasons (p : Problem ω Member Key) (cfg : Config) (count generation : Nat)
    (t : Tournament Member Key) (w : ω) :
    (seasons p cfg count generation t w).head?
      = if count = 0 then none else some ⟨generation, t, w⟩ := by
  cases count <;> simp [seasons]

theorem generations_seasons (p : Problem ω Member Key) (cfg : Config) (count generation : Nat)
    (t : Tournament Member Key) (w : ω) :
    (seasons p cfg count generation t w).map (·.generation)
      = List.range' generation (seasons p cfg count generation t w).length := by
  induction count generalizing generation t w with
  | zero => rfl
  | succ count ih =>
    rw [seasons]
    cases playGeneration p cfg generation t w with
    | none => rfl
    | some played =>
      rw [List.map_cons, List.length_cons, List.range'_succ]
      exact congrArg (generation :: ·) (ih ..)

/-- Each season starts from what the one before has left, one generation later. -/
theorem isChain_seasons (p : Problem ω Member Key) (cfg : Config) (count generation : Nat)
    (t : Tournament Member Key) (w : ω) :
    (seasons p cfg count generation t w).IsChain fun season next =>
      next.generation = season.generation + 1 ∧ season.Leaves p cfg next.before next.world := by
  induction count generalizing generation t w with
  | zero => exact .nil
  | succ count ih =>
    rw [seasons]
    cases hplayed : playGeneration p cfg generation t w with
    | none => exact .singleton _
    | some played =>
      refine List.isChain_cons.mpr ⟨fun next hnext => ?_, ih ..⟩
      rw [head?_seasons] at hnext
      split at hnext
      · cases hnext
      · cases hnext
        exact ⟨rfl, hplayed⟩

/-- How a number of generations come to an end: after the last, or in one that cannot be ranked. -/
inductive Ends (p : Problem ω Member Key) (cfg : Config) (count : Nat)
    (all : List (Season ω Member Key)) (played : Progress ω Member Key) : Prop where
  | complete (hstuck : played.stuck = false) (hlength : all.length = count)
  | unranked (hstuck : played.stuck = true) {last : Season ω Member Key}
    (hlast : all.getLast? = some last)
    (hranking : ranking p (holdRound p cfg.parallel last.before.population).1 = none)

theorem seasons_end (p : Problem ω Member Key) (cfg : Config) (count generation : Nat)
    (t : Tournament Member Key) (w : ω) :
    Ends p cfg count (seasons p cfg count generation t w)
      (playGenerations p cfg count generation t w) := by
  induction count generalizing generation t w with
  | zero => exact .complete rfl rfl
  | succ count ih =>
    rw [seasons, playGenerations]
    cases hplayed : playGeneration p cfg generation t w with
    | none => exact .unranked rfl rfl (Option.map_eq_none_iff.mp hplayed)
    | some played =>
      cases ih (generation + 1) played.1 played.2 with
      | complete hstuck hlength => exact .complete hstuck (congrArg (· + 1) hlength)
      | unranked hstuck hlast hranking =>
        exact .unranked hstuck (by simp [List.getLast?_cons, hlast]) hranking

/-- What seasons keep holds of every season, and of the tournament that is complete. -/
theorem seasons_induction (p : Problem ω Member Key) (cfg : Config)
    {I : Nat → Tournament Member Key → ω → Prop}
    (hstep : ∀ (season : Season ω Member Key) t w,
      I season.generation season.before season.world → season.Leaves p cfg t w →
        I (season.generation + 1) t w)
    (count : Nat) {generation : Nat} (hstart : I generation t w) :
    (∀ season ∈ seasons p cfg count generation t w,
      I season.generation season.before season.world) ∧
    ((playGenerations p cfg count generation t w).stuck = false →
      I (generation + count) (playGenerations p cfg count generation t w).tournament
        (playGenerations p cfg count generation t w).world) := by
  induction count generalizing generation t w with
  | zero => exact ⟨by simp [seasons], fun _ => hstart⟩
  | succ count ih =>
    rw [seasons, playGenerations]
    cases hplayed : playGeneration p cfg generation t w with
    | none => exact ⟨by simpa using hstart, by simp⟩
    | some played =>
      obtain ⟨hall, hend⟩ := ih (hstep ⟨generation, t, w⟩ _ _ hstart hplayed)
      refine ⟨by simpa using ⟨hstart, hall⟩, fun hstuck => ?_⟩
      rw [show generation + (count + 1) = generation + 1 + count by omega]
      exact hend hstuck

theorem history_fielded {p : Problem ω Member Key} {cfg : Config}
    (hvalid : cfg.validate = .ok ()) (w : ω) :
    ∀ season ∈ history p cfg w, Fielded cfg season.before.population :=
  (seasons_induction p cfg (I := fun _ t _ => Fielded cfg t.population)
    (fun _ _ _ hfielded hleaves => hleaves.fielded hfielded) cfg.maxGenerations
    (opened_fielded hvalid w)).1

end Tournament

end EvolutionarySearch
