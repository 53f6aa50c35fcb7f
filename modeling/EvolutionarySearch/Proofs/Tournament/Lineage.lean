import EvolutionarySearch.Proofs.Tournament.Champion
import EvolutionarySearch.Proofs.Tournament.Succession

/-!
# Lineage

Of the members of a season only the first ranks have heirs. Their children are bred couple by couple
in the order of the ranks, then they themselves follow, and at last a newcomer; all of them enter
the next season without results.

* `crossAll_threads` — one child of each pair, the world threaded through
* `nextPopulation_bred` — the population that ranked parents leave
* `history_breeds` — what is bred in every season of a run
-/

namespace EvolutionarySearch.Tournament

variable {ω Member Key : Type} {n : Nat}

/-! ## Children -/

/-- Each child is bred in the world that the children before it have left. -/
theorem crossAll_threads (p : Problem ω Member Key) (pairs : List (Member × Member)) (w : ω) :
    ∃ worlds : Nat → ω, worlds 0 = w ∧ worlds pairs.length = (crossAll p pairs w).2 ∧
      (∀ k (hk : k < pairs.length),
        worlds (k + 1) = (p.crossover pairs[k].1 pairs[k].2 (worlds k)).2) ∧
      (crossAll p pairs w).1
        = pairs.mapIdx fun k pair => (p.crossover pair.1 pair.2 (worlds k)).1 := by
  induction pairs generalizing w with
  | nil => exact ⟨fun _ => w, rfl, rfl, by simp, rfl⟩
  | cons pair pairs ih =>
    obtain ⟨worlds, hstart, hend, hthread, hchildren⟩ := ih (p.crossover pair.1 pair.2 w).2
    refine ⟨fun k => k.casesOn w worlds, rfl, hend, ?_, ?_⟩
    · rintro (_ | k) hk
      · exact hstart
      · exact hthread k (by simpa using hk)
    · rw [crossAll, List.mapIdx_cons, ← hchildren]
      rfl

/-! ## Parents -/

theorem exists_ofFn {α : Type} {xs : List α} (h : xs.length = n) :
    ∃ entry : Fin n → α, xs = List.ofFn entry := by
  subst h
  exact ⟨xs.get, (List.ofFn_get xs).symm⟩

/--
A population that ranked parents leave: a child of every couple of them, in the lexicographic order
of their ranks, then the parents, and a newcomer; `worlds` are the worlds between the children.
-/
structure Bred (p : Problem ω Member Key) (parents : Fin n → Member) (w : ω)
    (order : List (Fin n × Fin n)) (worlds : Nat → ω) (population : Array (Entrant Member))
    (w' : ω) : Prop where
  ordered : order.Pairwise (Prod.Lex (· < ·) (· < ·))
  complete : ∀ a b, (a, b) ∈ order ↔ a ≠ b
  start : worlds 0 = w
  threaded : ∀ k (hk : k < order.length),
    worlds (k + 1) = (p.crossover (parents order[k].1) (parents order[k].2) (worlds k)).2
  members : population.toList =
    (order.mapIdx fun k c => ⟨(p.crossover (parents c.1) (parents c.2) (worlds k)).1, {}⟩)
      ++ (List.ofFn fun rank => ⟨parents rank, {}⟩)
      ++ [⟨(p.generate (worlds order.length)).1, {}⟩]
  survivors : ∀ rank : Fin n, population[n * (n - 1) + rank]? = some ⟨parents rank, {}⟩
  world : w' = (p.generate (worlds order.length)).2

theorem nextPopulation_bred (p : Problem ω Member Key) (parents : Fin n → Member) (w : ω) :
    ∃ order worlds, Bred p parents w order worlds (nextPopulation p (List.ofFn parents) w).1
      (nextPopulation p (List.ofFn parents) w).2 := by
  have hpairs : (orderedPairs (List.ofFn parents).zipIdx).map (fun pair => (pair.1.1, pair.2.1))
      = (couples n).map fun c => (parents c.1, parents c.2) := by
    rw [orderedPairs_zipIdx, List.map_map]
    rfl
  -- the couples of ranks are bred in the order in which a round lists the couples of places
  obtain ⟨worlds, hstart, hend, hthread, hchildren⟩ :=
    crossAll_threads p ((couples n).map fun c => (parents c.1, parents c.2)) w
  rw [List.length_map] at hend
  have hborn : ((crossAll p ((couples n).map fun c => (parents c.1, parents c.2)) w).1.map
      fun member => ({ member } : Entrant Member)) = (couples n).mapIdx fun k c =>
        ⟨(p.crossover (parents c.1) (parents c.2) (worlds k)).1, {}⟩ := by
    rw [hchildren]
    exact List.ext_getElem (by simp) fun k _ _ => by simp
  have hmembers : (nextPopulation p (List.ofFn parents) w).1.toList =
      ((couples n).mapIdx fun k c =>
          ⟨(p.crossover (parents c.1) (parents c.2) (worlds k)).1, {}⟩)
        ++ (List.ofFn fun rank => ⟨parents rank, {}⟩)
        ++ [⟨(p.generate (worlds (couples n).length)).1, {}⟩] := by
    simp only [nextPopulation, hpairs, ← hend, freshPopulation, List.map_append, hborn,
      List.map_ofFn, List.map_singleton]
    rfl
  refine ⟨couples n, worlds, pairwise_couples n, fun a b => mem_couples, hstart, ?_, hmembers,
    ?_, ?_⟩
  · intro k hk
    have hnext := hthread k (by simpa using hk)
    simp only [List.getElem_map] at hnext
    exact hnext
  · intro rank
    rw [← Array.getElem?_toList, hmembers, List.append_assoc,
      List.getElem?_append_right (by simp [length_couples]), List.length_mapIdx, length_couples,
      Nat.add_sub_cancel_left, List.getElem?_append_left (by simp)]
    simp
  · simp only [nextPopulation, hpairs, ← hend]

/-! ## Seasons -/

section Seasons

variable [PartialCompare Key] {p : Problem ω Member Key} {cfg : Config}
  {season : Season ω Member Key} {t : Tournament Member Key} {w : ω}

/-- What a season leaves to the next: of its standings, the first ranks breed and stay. -/
structure Heirs (p : Problem ω Member Key) (cfg : Config) (season : Season ω Member Key)
    (t : Tournament Member Key) (w : ω) : Prop where
  size : t.population.size = cfg.numParents ^ 2 + 1
  cleared : ∀ entrant ∈ t.population, entrant.record = {}
  bred : ∃ top rest, (top :: rest).Perm (season.entrants p cfg) ∧
    (Std.TransCmp (compareKeys Key) →
      Sorting.Sorts p.outranks (season.entrants p cfg) (top :: rest)) ∧
    ∃ parents : Fin cfg.numParents → Member,
      ((top :: rest).take cfg.numParents).map (·.member) = List.ofFn parents ∧
      ∃ order worlds, Bred p parents (season.presented p top) order worlds t.population w

theorem Season.Leaves.heirs (hleaves : season.Leaves p cfg t w)
    (hfielded : Fielded cfg season.before.population) : Heirs p cfg season t w := by
  obtain ⟨hsize, hcleared⟩ := hleaves.fielded hfielded
  obtain ⟨top, rest, hcloses⟩ := hleaves.closes (by rw [hfielded.size]; omega)
  have hlength : (((top :: rest).take cfg.numParents).map (·.member)).length = cfg.numParents := by
    rw [List.length_map, List.length_take, Nat.min_eq_left (hcloses.numParents_le hfielded)]
  obtain ⟨parents, hparents⟩ := exists_ofFn hlength
  obtain ⟨order, worlds, hbred⟩ := nextPopulation_bred p parents (season.presented p top)
  rw [← hparents, ← hcloses.bred] at hbred
  exact ⟨hsize, hcleared, top, rest, hcloses.perm, hcloses.stable, parents, hparents, order, worlds,
    hbred⟩

/--
**The best breed and stay.** Whatever season of a run is over, its population is followed by a
child of every couple of its first ranks, in the order of the ranks, then by these parents, then by
a newcomer, all without results; and that is the population of the next season. If the keys can be
put in order, then the ranks are those of the stable descending order, and every season is over.
-/
theorem history_breeds (p : Problem ω Member Key) (cfg : Config) (hvalid : cfg.validate = .ok ())
    (w : ω) :
    (∀ season ∈ history p cfg w, ∀ t w', season.Leaves p cfg t w' → Heirs p cfg season t w') ∧
      (history p cfg w).IsChain (fun season next => next.generation = season.generation + 1 ∧
        season.Leaves p cfg next.before next.world) ∧
      (Std.TransCmp (compareKeys Key) →
        (history p cfg w).map (·.generation) = List.range' 1 cfg.maxGenerations ∧
          ∀ season ∈ history p cfg w, ∃ t w', season.Leaves p cfg t w') := by
  have hfielded := history_fielded (p := p) hvalid w
  refine ⟨fun season hseason t w' hleaves => hleaves.heirs (hfielded season hseason),
    isChain_seasons .., fun htrans => ⟨?_, fun season hseason => ?_⟩⟩
  · cases seasons_end p cfg cfg.maxGenerations 1 (opened p cfg w).1 (opened p cfg w).2 with
    | complete hstuck hlength =>
      rw [history, generations_seasons, hlength]
    | unranked hstuck hlast hranking =>
      exact absurd hranking ((hfielded _ (List.mem_of_getLast? hlast)).ranking_ne_none p)
  · obtain ⟨ranked, hranked⟩ :=
      Option.ne_none_iff_exists'.mp ((hfielded season hseason).ranking_ne_none p)
    exact ⟨_, _, by rw [Season.Leaves, playGeneration, hranked, Option.map_some]⟩

/-! ## A field with equals -/

/-- Numbers that show who their parents are. -/
def descending : Problem Script Nat Nat :=
  { scripted with crossover a b script := (100 * a + b, script) }

/-- Of three members with the second highest key the first breeds. -/
theorem history_breeds_equalNewcomers :
    (history descending twoGenerations equalNewcomers)[1]?.map (·.before.population.toList)
        = some [⟨3112, {}⟩, ⟨1231, {}⟩, ⟨31, {}⟩, ⟨12, {}⟩, ⟨40, {}⟩] ∧
      ∀ season ∈ history descending twoGenerations equalNewcomers, ∃ t w,
        season.Leaves descending twoGenerations t w ∧
          Heirs descending twoGenerations season t w := by
  obtain ⟨hheirs, -, hcomplete⟩ := history_breeds descending twoGenerations rfl equalNewcomers
  obtain ⟨-, hover⟩ := hcomplete (inferInstanceAs (Std.TransCmp (compareKeys Nat)))
  refine ⟨by decide +kernel, fun season hseason => ?_⟩
  obtain ⟨t, w, hleaves⟩ := hover season hseason
  exact ⟨t, w, hleaves, hheirs season hseason t w hleaves⟩

end Seasons

end EvolutionarySearch.Tournament
