import EvolutionarySearch.Proofs.Tournament.Season

/-!
# The champion of a tournament

The first of a ranking challenges the champion of the seasons before, and only a strictly higher key
makes it the new one. So ties are decided twice in the same way: in a season by the place in the
population, and between seasons by time.

* `Reigns.challenged` — one challenge
* `run_crowned` — the champion of a run among all members of all its seasons
-/

namespace EvolutionarySearch.Tournament

variable {ω Member Key : Type} [PartialCompare Key]

/-! ## What is seen of the seasons -/

/-- The members of seasons with their generations, in the order of their appearance. -/
def contenders (p : Problem ω Member Key) (cfg : Config) (seasons : List (Season ω Member Key)) :
    List (Nat × Entrant Member) :=
  seasons.flatMap fun season => (season.entrants p cfg).map fun entrant =>
    (season.generation, entrant)

/-- The first member of a season whose key no other key of the season is above. -/
def Season.leader? (p : Problem ω Member Key) (cfg : Config) (season : Season ω Member Key) :
    Option (Entrant Member) :=
  (season.entrants p cfg).find? fun entrant =>
    (season.entrants p cfg).all fun other => !p.outranks other entrant

/-- The leaders whose keys are above all keys of all seasons before theirs, and of the past. -/
def breakthroughs (p : Problem ω Member Key) (cfg : Config) :
    List (Nat × Entrant Member) → List (Season ω Member Key) → List (Nat × Entrant Member)
  | _, [] => []
  | past, season :: rest =>
    let leaders := (season.leader? p cfg).toList.filter fun leader =>
      past.all fun other => p.outranks leader other.2
    leaders.map (fun leader => (season.generation, leader)) ++
      breakthroughs p cfg (past ++ contenders p cfg [season]) rest

/-! ## Challenges -/

/-- The champion is the first of the past with the highest key, if there is a past. -/
def Reigns (p : Problem ω Member Key) (past : List (Nat × Entrant Member)) :
    Option (Champion Member Key) → Prop
  | none => past = []
  | some champion => champion.key = p.rank champion.entrant ∧
      Sorting.First (fun a b => p.outranks a.2 b.2) past (champion.generation, champion.entrant)

section Challenges

variable [Std.TransCmp (compareKeys Key)] {p : Problem ω Member Key} {cfg : Config}
  {past : List (Nat × Entrant Member)} {season : Season ω Member Key} {top : Entrant Member}

theorem rankOrder_appearances (p : Problem ω Member Key) :
    Sorting.RankOrder fun a b : Nat × Entrant Member => p.outranks a.2 b.2 :=
  (rankOrder_outranks p).comap Prod.snd

theorem Season.leader?_eq (h : Sorting.First p.outranks (season.entrants p cfg) top) :
    season.leader? p cfg = some top :=
  h.find?_eq (rankOrder_outranks p)

/-- A member improves on the champion if and only if its key is above all keys of the past. -/
theorem Reigns.improvesOn_eq {champion : Option (Champion Member Key)}
    (h : Reigns p past champion) (top : Entrant Member) :
    improvesOn champion (p.rank top) = past.all fun other => p.outranks top other.2 := by
  cases champion with
  | none =>
    obtain rfl : past = [] := h
    rfl
  | some champion =>
    obtain ⟨hkey, hfirst⟩ := h
    have hall := hfirst.before_iff (rankOrder_appearances p) (y := (0, top))
    rw [Bool.eq_iff_iff, List.all_eq_true, ← hall]
    simp [improvesOn, hkey, Problem.outranks]

/-- After a challenge the champion is the first with the highest key of one season more. -/
theorem Reigns.challenged {champion : Option (Champion Member Key)} (h : Reigns p past champion)
    (htop : Sorting.First p.outranks (season.entrants p cfg) top) :
    Reigns p (past ++ contenders p cfg [season])
      (if improvesOn champion (p.rank top) then some ⟨top, p.rank top, season.generation⟩
        else champion) := by
  have hseason : Sorting.First (fun a b : Nat × Entrant Member => p.outranks a.2 b.2)
      (contenders p cfg [season]) (season.generation, top) := by
    rw [contenders, List.flatMap_singleton]
    exact Sorting.First.map (f := fun entrant => (season.generation, entrant)) htop
  cases champion with
  | none =>
    obtain rfl : past = [] := h
    exact ⟨rfl, hseason⟩
  | some champion =>
    obtain ⟨hkey, hfirst⟩ := h
    have hboth := hfirst.append (rankOrder_appearances p) hseason
    have himproves : improvesOn (some champion) (p.rank top) = p.outranks top champion.entrant := by
      simp [improvesOn, hkey, Problem.outranks]
    rw [himproves]
    split
    · next hbeats => rw [if_pos hbeats] at hboth; exact ⟨rfl, hboth⟩
    · next hbeats => rw [if_neg hbeats] at hboth; exact ⟨hkey, hboth⟩

/-- The first of a season is a breakthrough if and only if it improves on the champion. -/
theorem breakthroughs_cons {champion : Option (Champion Member Key)} (h : Reigns p past champion)
    (htop : Sorting.First p.outranks (season.entrants p cfg) top)
    (rest : List (Season ω Member Key)) :
    breakthroughs p cfg past (season :: rest) =
      (if improvesOn champion (p.rank top) then [(season.generation, top)] else [])
        ++ breakthroughs p cfg (past ++ contenders p cfg [season]) rest := by
  rw [breakthroughs, Season.leader?_eq htop, h.improvesOn_eq top]
  cases hall : past.all fun other => p.outranks top other.2 <;> simp [hall]

end Challenges

/-! ## Runs -/

section Runs

/-- What is displayed of a breakthrough. -/
def shownOf (breakthrough : Nat × Entrant Member) : Member × Record × Nat :=
  (breakthrough.2.member, breakthrough.2.record, breakthrough.1)

/-- What a number of seasons come to, after the members of the `past`. -/
structure Comes (p : Problem ω Member Key) (cfg : Config) (past : List (Nat × Entrant Member))
    (all : List (Season ω Member Key)) (t : Tournament Member Key) (w : ω)
    (played : Progress ω Member Key) : Prop where
  ranked : played.stuck = false
  reigns : Reigns p (past ++ contenders p cfg all) played.tournament.champion
  improvements :
    played.tournament.improvements = t.improvements + (breakthroughs p cfg past all).length
  written : ∀ log, Journal p log →
    log played.world = log w ++ (breakthroughs p cfg past all).map shownOf

variable [Std.TransCmp (compareKeys Key)] {p : Problem ω Member Key} {cfg : Config}
  {past : List (Nat × Entrant Member)} {season : Season ω Member Key} {top : Entrant Member}
  {t : Tournament Member Key} {w : ω} {played : Progress ω Member Key}
  {rest : List (Season ω Member Key)}

theorem Comes.cons (hplays : Plays p cfg season top t w)
    (hreigns : Reigns p past season.before.champion)
    (hrest : Comes p cfg (past ++ contenders p cfg [season]) rest t w played) :
    Comes p cfg past (season :: rest) season.before season.world played where
  ranked := hrest.ranked
  reigns := by
    have hall := hrest.reigns
    rwa [List.append_assoc, contenders, contenders, ← List.flatMap_append] at hall
  improvements := by
    rw [hrest.improvements, hplays.improvements, breakthroughs_cons hreigns hplays.first,
      List.length_append, Nat.add_assoc]
    split <;> rfl
  written log hlog := by
    rw [hrest.written log hlog, hplays.written log hlog, breakthroughs_cons hreigns hplays.first]
    split <;> simp [shownOf]

theorem playGenerations_comes (cfg : Config) (count generation : Nat)
    (hpopulation : 0 < t.population.size) (hreigns : Reigns p past t.champion) (w : ω) :
    Comes p cfg past (seasons p cfg count generation t w) t w
        (playGenerations p cfg count generation t w) ∧
      (seasons p cfg count generation t w).map (·.generation) = List.range' generation count := by
  induction count generalizing generation t w past with
  | zero =>
    refine ⟨⟨rfl, ?_, rfl, ?_⟩, rfl⟩
    · simpa [seasons, contenders, playGenerations] using hreigns
    · intro log hlog
      simp [seasons, breakthroughs, playGenerations]
  | succ count ih =>
    obtain ⟨top, t', w', hplayed, hplays⟩ := playGeneration_plays p cfg generation hpopulation w
    have hnext : Reigns p (past ++ contenders p cfg [⟨generation, t, w⟩]) t'.champion := by
      rw [hplays.champion]
      exact hreigns.challenged hplays.first
    obtain ⟨hrest, hgenerations⟩ := ih (generation + 1) hplays.populated hnext w'
    simp only [seasons, playGenerations, hplayed]
    exact ⟨hrest.cons hplays hreigns, by simp [hgenerations, List.range'_succ]⟩

omit [PartialCompare Key] [Std.TransCmp (compareKeys Key)] in
theorem generations_pos (hvalid : cfg.validate = .ok ()) : 0 < cfg.maxGenerations := by
  refine Nat.pos_of_ne_zero fun hnone => ?_
  unfold Config.validate at hvalid
  rw [if_pos hnone] at hvalid
  split at hvalid <;> cases hvalid

omit [Std.TransCmp (compareKeys Key)] in
/-- The first season has members. -/
theorem contenders_ne_nil {count : Nat} (hcount : 0 < count) (generation : Nat)
    (hpopulation : 0 < t.population.size) (w : ω) :
    contenders p cfg (seasons p cfg count generation t w) ≠ [] := by
  have hentrants : 0 < (Season.entrants p cfg ⟨generation, t, w⟩).length := by
    simpa [Season.entrants, holdRound, size_recordGames] using hpopulation
  cases count with
  | zero => cases hcount
  | succ count =>
    intro hnone
    rw [seasons, contenders, List.flatMap_cons, List.append_eq_nil_iff,
      List.map_eq_nil_iff] at hnone
    simp [hnone.1] at hentrants

/-- What a run makes of its seasons. -/
structure Crowned (p : Problem ω Member Key) (cfg : Config) (w : ω) (outcome : Outcome Member) :
    Prop where
  generations : (history p cfg w).map (·.generation) = List.range' 1 cfg.maxGenerations
  /-- The best is the first of all members of all generations that none outranks. -/
  best : Sorting.First (fun a b => p.outranks a.2 b.2) (contenders p cfg (history p cfg w))
    (outcome.bestGeneration, ⟨outcome.best, outcome.bestRecord⟩)
  improvements : outcome.improvements = (breakthroughs p cfg [] (history p cfg w)).length
  shown : ∀ log, Journal p log →
    log (run p cfg w).world = log w ++ (breakthroughs p cfg [] (history p cfg w)).map shownOf

/--
**A tournament crowns the first of its highest members.** With a configuration that passes, every
run has a champion: of all members of all generations the first whose key no other is above. It
improves in the generations in which a key is above all earlier ones, and shows their leaders.
-/
theorem run_crowned (p : Problem ω Member Key) (cfg : Config) (hvalid : cfg.validate = .ok ())
    (w : ω) :
    ∃ outcome, (run p cfg w).outcome = .ok outcome ∧ Crowned p cfg w outcome := by
  have hopened : Reigns p [] (opened p cfg w).1.champion := rfl
  have hpopulation := opened_populated p cfg w
  obtain ⟨hcomes, hgenerations⟩ := playGenerations_comes cfg cfg.maxGenerations 1 hpopulation
    hopened (opened p cfg w).2
  have hsome : contenders p cfg (history p cfg w) ≠ [] :=
    contenders_ne_nil (generations_pos hvalid) 1 hpopulation _
  have hrun := run_eq (p := p) hvalid w
  dsimp only at hrun
  rw [hcomes.ranked, if_neg (by simp)] at hrun
  have hreigns := hcomes.reigns
  have himprovements := hcomes.improvements
  have hwritten := hcomes.written
  generalize playGenerations p cfg cfg.maxGenerations 1 (opened p cfg w).1 (opened p cfg w).2
    = played at *
  cases hchampion : played.tournament.champion with
  | none =>
    rw [hchampion] at hreigns
    exact absurd hreigns hsome
  | some champion =>
    rw [hchampion] at hreigns
    obtain ⟨-, hfirst⟩ := hreigns
    refine ⟨⟨champion.entrant.member, champion.entrant.record, champion.generation,
      played.tournament.improvements, played.tournament.counts⟩,
      by rw [hrun, outcome, hchampion], hgenerations, hfirst, ?_, ?_⟩
    · exact himprovements.trans (Nat.zero_add _)
    · intro log hlog
      have hstart : log (opened p cfg w).2 = log w := hlog.generateAll _ w
      rw [hrun, ← hstart]
      exact hwritten log hlog

end Runs

/-! ## Scripts -/

/-- Newcomers that are written down beforehand, and what has been shown. -/
structure Script where
  newcomers : List Nat
  shown : List (Nat × Record × Nat) := []

instance : PartialCompare Nat where
  partialCompare a b := some (compare a b)

instance : Std.TransCmp (compareKeys Nat) :=
  inferInstanceAs (Std.TransCmp (compare : Nat → Nat → Ordering))

/-- Numbers, of which the higher wins, ranked by their tens. -/
def scripted : Problem Script Nat Nat where
  generate script := (script.newcomers.headD 0, { script with newcomers := script.newcomers.tail })
  crossover a b script := (max a b, script)
  compete a b := if b < a then .win else if a < b then .loss else .tie
  key member _ := member / 10
  display member record generation script :=
    { script with shown := script.shown ++ [(member, record, generation)] }

theorem journal_scripted : Journal scripted Script.shown where
  generated _ := rfl
  crossed _ _ _ := rfl
  written _ _ _ _ := rfl

/-- A script in which three members tie before one is higher. -/
def tiedNewcomers : Script := { newcomers := [12, 15, 18, 31] }

/-- Three generations of two members each. -/
def threeGenerations : Config := { numParents := 1, maxGenerations := 3, parallel := false }

/-- A script in which three of the first five members tie for the second rank, two of them equal. -/
def equalNewcomers : Script := { newcomers := [12, 15, 12, 31, 7, 40, 3] }

/-- Two generations of five members each. -/
def twoGenerations : Config := { numParents := 2, maxGenerations := 2, parallel := false }

/-- The first of three equal keys stays the champion, although it loses, up to a higher key. -/
theorem run_crowned_tiedNewcomers :
    ∃ outcome, (run scripted threeGenerations tiedNewcomers).outcome = .ok outcome ∧
      outcome.best = 31 ∧ outcome.bestGeneration = 3 ∧ outcome.improvements = 2 ∧
      (run scripted threeGenerations tiedNewcomers).world.shown
        = [(12, ⟨0, 0, 2⟩, 1), (31, ⟨2, 0, 0⟩, 3)] ∧
      Crowned scripted threeGenerations tiedNewcomers outcome := by
  obtain ⟨outcome, houtcome, hcrowned⟩ := run_crowned scripted threeGenerations rfl tiedNewcomers
  have hfound : (run scripted threeGenerations tiedNewcomers).outcome
      = .ok ⟨31, ⟨2, 0, 0⟩, 3, 2, _⟩ := rfl
  rw [hfound] at houtcome
  cases houtcome
  exact ⟨_, hfound, rfl, rfl, rfl, hcrowned.shown _ journal_scripted, hcrowned⟩

end EvolutionarySearch.Tournament
