import EvolutionarySearch.Proofs.Tournament.Champion
import EvolutionarySearch.Proofs.Tournament.Succession

/-!
# Longer tournaments

How long a tournament is to last matters only at its end. So a longer one begins with all the
seasons of a shorter one, in the same worlds, and goes on where that one stops. In the seasons that
it adds the champion either stays or has to make way for a later member with a higher key.

* `seasons_take`, `playGenerations_add` — a longer tournament goes through the shorter one
* `Season.Leaves.succeeds` — what one season does to the counts and the champion
* `run_extends` — the results of a shorter and a longer tournament
-/

namespace EvolutionarySearch.Tournament

variable {ω Member Key : Type}

/-- The configuration with another number of generations. -/
def Config.lasting (cfg : Config) (generations : Nat) : Config :=
  { cfg with maxGenerations := generations }

theorem Config.validate_lasting {cfg : Config} {g g' : Nat} (hle : g ≤ g')
    (h : (cfg.lasting g).validate = .ok ()) : (cfg.lasting g').validate = .ok () := by
  have hg : 0 < g := generations_pos h
  have hg' : 0 < g' := Nat.lt_of_lt_of_le hg hle
  rw [← h]
  simp only [validate, lasting, Nat.ne_of_gt hg, Nat.ne_of_gt hg', if_false]
  rfl

/-! ## The same seasons -/

section Seasons

variable [PartialCompare Key] {p : Problem ω Member Key} {cfg : Config}

theorem playGenerations_lasting (p : Problem ω Member Key) (cfg : Config)
    (g count generation : Nat) (t : Tournament Member Key) (w : ω) :
    playGenerations p (cfg.lasting g) count generation t w
      = playGenerations p cfg count generation t w := by
  have hseason : ∀ generation t w,
      playGeneration p (cfg.lasting g) generation t w = playGeneration p cfg generation t w :=
    fun _ _ _ => rfl
  induction count generalizing generation t w with
  | zero => rfl
  | succ count ih => simp only [playGenerations, hseason, ih]

theorem seasons_lasting (p : Problem ω Member Key) (cfg : Config) (g count generation : Nat)
    (t : Tournament Member Key) (w : ω) :
    seasons p (cfg.lasting g) count generation t w = seasons p cfg count generation t w := by
  have hseason : ∀ generation t w,
      playGeneration p (cfg.lasting g) generation t w = playGeneration p cfg generation t w :=
    fun _ _ _ => rfl
  induction count generalizing generation t w with
  | zero => rfl
  | succ count ih => simp only [seasons, hseason, ih]

/-- Fewer seasons are the first of more. -/
theorem seasons_take {count count' : Nat} (hle : count ≤ count') (generation : Nat)
    (t : Tournament Member Key) (w : ω) :
    (seasons p cfg count' generation t w).take count = seasons p cfg count generation t w := by
  induction count generalizing count' generation t w with
  | zero => rfl
  | succ count ih =>
    obtain ⟨more, rfl⟩ : ∃ more, count' = more + 1 := ⟨count' - 1, by omega⟩
    simp only [seasons, List.take_succ_cons]
    cases playGeneration p cfg generation t w with
    | none => simp
    | some played => simp only [ih (Nat.le_of_succ_le_succ hle)]

/-- More generations are played from where fewer have ended. -/
theorem playGenerations_add (count more generation : Nat) (t : Tournament Member Key) (w : ω)
    (h : (playGenerations p cfg count generation t w).stuck = false) :
    playGenerations p cfg (count + more) generation t w =
      playGenerations p cfg more (generation + count)
        (playGenerations p cfg count generation t w).tournament
        (playGenerations p cfg count generation t w).world := by
  induction count generalizing generation t w with
  | zero => simp [playGenerations]
  | succ count ih =>
    have hcount : count + 1 + more = count + more + 1 := by omega
    have hgeneration : generation + (count + 1) = generation + 1 + count := by omega
    rw [hcount, hgeneration]
    simp only [playGenerations] at h ⊢
    cases hplayed : playGeneration p cfg generation t w with
    | none => rw [hplayed] at h; cases h
    | some played =>
      rw [hplayed] at h
      exact ih (generation + 1) played.1 played.2 h

end Seasons

/-! ## Succession -/

section Succession

variable [PartialCompare Key] {p : Problem ω Member Key} {cfg : Config}
  {season : Season ω Member Key} {t t' t'' : Tournament Member Key} {w : ω}
  {generation later : Nat}

/-- What becomes of a tournament in the seasons from a generation on. -/
structure Succeeds (generation : Nat) (t t' : Tournament Member Key) : Prop where
  counts : t.counts.toList <+: t'.counts.toList
  /-- The champion stays, or another one has come in these seasons, with a higher key. -/
  reign : (t'.champion = t.champion ∧ t'.improvements = t.improvements) ∨
    (t.improvements < t'.improvements ∧ ∃ champion, t'.champion = some champion ∧
      generation ≤ champion.generation ∧ improvesOn t.champion champion.key = true)

theorem Succeeds.improvements_le (h : Succeeds generation t t') :
    t.improvements ≤ t'.improvements := by
  rcases h.reign with ⟨-, hsame⟩ | ⟨hmore, -⟩
  · exact Nat.le_of_eq hsame.symm
  · exact Nat.le_of_lt hmore

theorem Succeeds.refl (generation : Nat) (t : Tournament Member Key) : Succeeds generation t t :=
  ⟨List.prefix_refl _, .inl ⟨rfl, rfl⟩⟩

/-- Of two champions the second is the first, or a later one with a higher key. -/
theorem Succeeds.same_or_beats (h : Succeeds generation t t')
    {champion champion' : Champion Member Key} (hchampion : t.champion = some champion)
    (hchampion' : t'.champion = some champion') :
    (champion' = champion ∧ t'.improvements = t.improvements) ∨
      (generation ≤ champion'.generation ∧ beats champion'.key champion.key = true) := by
  rcases h.reign with ⟨hsame, himprovements⟩ | ⟨-, later, hlater, hlate, hbeats⟩
  · rw [hchampion, hchampion'] at hsame
    exact .inl ⟨Option.some.inj hsame, himprovements⟩
  · obtain rfl : champion' = later := Option.some.inj (hchampion'.symm.trans hlater)
    rw [hchampion] at hbeats
    exact .inr ⟨hlate, hbeats⟩

variable [Std.TransCmp (compareKeys Key)]

theorem improvesOn_trans {champion : Option (Champion Member Key)} {a b : Key}
    (ha : improvesOn champion a = true) (hab : beats b a = true) : improvesOn champion b = true := by
  cases champion with
  | none => rfl
  | some champion =>
    have hkey : beats a champion.key = true := ha
    exact beats_iff.mpr (Std.TransCmp.gt_trans (beats_iff.mp hab) (beats_iff.mp hkey))

theorem Succeeds.trans (h : Succeeds generation t t') (h' : Succeeds later t' t'')
    (hle : generation ≤ later) : Succeeds generation t t'' := by
  refine ⟨h.counts.trans h'.counts, ?_⟩
  rcases h'.reign with ⟨hchampion, himprovements⟩ | ⟨hmore, champion, hchampion, hlater, hkey⟩
  · rw [hchampion, himprovements]
    exact h.reign
  · refine .inr ⟨Nat.lt_of_le_of_lt h.improvements_le hmore, champion, hchampion,
      Nat.le_trans hle hlater, ?_⟩
    rcases h.reign with ⟨hsame, -⟩ | ⟨-, earlier, hearlier, -, hfirst⟩
    · rwa [hsame] at hkey
    · rw [hearlier] at hkey
      exact improvesOn_trans hfirst hkey

theorem Season.Leaves.plays (h : season.Leaves p cfg t w)
    (hpopulation : 0 < season.before.population.size) : ∃ top, Plays p cfg season top t w := by
  obtain ⟨top, t', w', hplayed, hplays⟩ :=
    playGeneration_plays p cfg season.generation hpopulation season.world
  rw [Season.Leaves, hplayed] at h
  cases h
  exact ⟨top, hplays⟩

/-- A season adds its counts, and may replace the champion by one with a higher key. -/
theorem Season.Leaves.succeeds (h : season.Leaves p cfg t w)
    (hpopulation : 0 < season.before.population.size) :
    Succeeds season.generation season.before t := by
  obtain ⟨_, _, hcloses⟩ := h.closes hpopulation
  obtain ⟨top, hplays⟩ := h.plays hpopulation
  refine ⟨?_, ?_⟩
  · rw [hcloses.counts, Array.toList_push]
    exact List.prefix_append _ _
  · rw [hplays.champion, hplays.improvements]
    by_cases hbetter : improvesOn season.before.champion (p.rank top) = true
    · rw [if_pos hbetter, if_pos hbetter]
      exact .inr ⟨Nat.lt_succ_self _, _, rfl, Nat.le_refl _, hbetter⟩
    · rw [if_neg hbetter, if_neg hbetter]
      exact .inl ⟨rfl, rfl⟩

/-- What every season does is done by any number of them. -/
theorem playGenerations_succeeds (count generation : Nat) (hpopulation : 0 < t.population.size)
    (w : ω) (hranked : (playGenerations p cfg count generation t w).stuck = false) :
    0 < (playGenerations p cfg count generation t w).tournament.population.size ∧
      Succeeds generation t (playGenerations p cfg count generation t w).tournament := by
  have hstep : ∀ (season : Season ω Member Key) u v,
      (generation ≤ season.generation ∧ 0 < season.before.population.size ∧
        Succeeds generation t season.before) → season.Leaves p cfg u v →
      generation ≤ season.generation + 1 ∧ 0 < u.population.size ∧ Succeeds generation t u := by
    rintro season u v ⟨hle, hsome, hsucceeds⟩ hleaves
    obtain ⟨top, hplays⟩ := hleaves.plays hsome
    exact ⟨Nat.le_succ_of_le hle, hplays.populated,
      hsucceeds.trans (hleaves.succeeds hsome) hle⟩
  have hall := seasons_induction p cfg
    (I := fun later u _ => generation ≤ later ∧ 0 < u.population.size ∧ Succeeds generation t u)
    hstep count (w := w) ⟨Nat.le_refl _, hpopulation, .refl generation t⟩
  exact (hall.2 hranked).2

end Succession

/-! ## Runs -/

/-- What the result of a longer tournament keeps of the result of a shorter one. -/
structure Outcome.Extends [PartialCompare Key] (p : Problem ω Member Key) (generations : Nat)
    (short long : Outcome Member) : Prop where
  counts : short.counts.toList <+: long.counts.toList
  /-- The key of the best has not become lower. -/
  key : (compareKeys Key (p.key short.best short.bestRecord)
    (p.key long.best long.bestRecord)).isLE = true
  improvements : short.improvements ≤ long.improvements
  /-- A best that is found before the shorter one ends is the best of both. -/
  same : long.bestGeneration ≤ generations →
    long.best = short.best ∧ long.bestRecord = short.bestRecord ∧
      long.bestGeneration = short.bestGeneration ∧ long.improvements = short.improvements

section Runs

variable [PartialCompare Key] [Std.TransCmp (compareKeys Key)] {p : Problem ω Member Key}
  {cfg : Config} {g g' : Nat} {w : ω}

/-- The state after a number of generations. -/
def after (p : Problem ω Member Key) (cfg : Config) (g : Nat) (w : ω) :
    Progress ω Member Key :=
  playGenerations p cfg g 1 (opened p cfg w).1 (opened p cfg w).2

theorem after_comes (p : Problem ω Member Key) (cfg : Config) (g : Nat) (w : ω) :
    Comes p cfg [] (seasons p cfg g 1 (opened p cfg w).1 (opened p cfg w).2) (opened p cfg w).1
      (opened p cfg w).2 (after p cfg g w) := by
  have hopened : Reigns p [] (opened p cfg w).1.champion := rfl
  exact (playGenerations_comes cfg g 1 (opened_populated p cfg w) hopened _).1

/-- The result of a run is that of its champion, whose key is made from its record. -/
theorem run_lasting (hvalid : (cfg.lasting g).validate = .ok ()) (w : ω) :
    ∃ champion, (after p cfg g w).tournament.champion = some champion ∧
      champion.key = p.rank champion.entrant ∧
      (run p (cfg.lasting g) w).outcome = .ok
        { best := champion.entrant.member
          bestRecord := champion.entrant.record
          bestGeneration := champion.generation
          improvements := (after p cfg g w).tournament.improvements
          counts := (after p cfg g w).tournament.counts } := by
  have hsome : contenders p cfg (seasons p cfg g 1 (opened p cfg w).1 (opened p cfg w).2) ≠ [] :=
    contenders_ne_nil (generations_pos hvalid) 1 (opened_populated p cfg w) _
  have hreigns := (after_comes p cfg g w).reigns
  have hrun := run_eq (p := p) hvalid w
  rw [playGenerations_lasting] at hrun
  have hafter : playGenerations p cfg (cfg.lasting g).maxGenerations 1
      (opened p (cfg.lasting g) w).1 (opened p (cfg.lasting g) w).2 = after p cfg g w := rfl
  rw [hafter] at hrun
  dsimp only at hrun
  rw [(after_comes p cfg g w).ranked, if_neg Bool.false_ne_true] at hrun
  cases hchampion : (after p cfg g w).tournament.champion with
  | none =>
    rw [hchampion] at hreigns
    exact absurd hreigns hsome
  | some champion =>
    rw [hchampion] at hreigns
    exact ⟨champion, rfl, hreigns.1, by rw [hrun, outcome, hchampion]⟩

/--
**A longer tournament extends a shorter one.** With keys that can be put in order, a tournament of
more generations begins with the seasons of one of fewer. Its counts begin with the counts of that
one, it has improved at least as often, and the key of its best is at least as high. If its best was
found while the shorter one lasted, both have the same best with the same record, generation and
number of improvements.
-/
theorem run_extends (p : Problem ω Member Key) (cfg : Config) {g g' : Nat} (hle : g ≤ g')
    (hvalid : (cfg.lasting g).validate = .ok ()) (w : ω) :
    history p (cfg.lasting g) w = (history p (cfg.lasting g') w).take g ∧
      ∃ short long, (run p (cfg.lasting g) w).outcome = .ok short ∧
        (run p (cfg.lasting g') w).outcome = .ok long ∧ short.Extends p g long := by
  obtain ⟨champion, hchampion, hkey, hshort⟩ := run_lasting (p := p) hvalid w
  obtain ⟨champion', hchampion', hkey', hlong⟩ :=
    run_lasting (p := p) (Config.validate_lasting hle hvalid) w
  obtain ⟨more, rfl⟩ : ∃ more, g' = g + more := ⟨g' - g, by omega⟩
  have hfirst : 0 < (after p cfg g w).tournament.population.size :=
    (playGenerations_succeeds g 1 (opened_populated p cfg w) _ (after_comes p cfg g w).ranked).1
  have hadd : after p cfg (g + more) w = playGenerations p cfg more (1 + g)
      (after p cfg g w).tournament (after p cfg g w).world :=
    playGenerations_add g more 1 _ _ (after_comes p cfg g w).ranked
  have hsucceeds : Succeeds (1 + g) (after p cfg g w).tournament
      (after p cfg (g + more) w).tournament := by
    rw [hadd]
    exact (playGenerations_succeeds more (1 + g) hfirst _
      (hadd ▸ (after_comes p cfg (g + more) w).ranked)).2
  refine ⟨?_, _, _, hshort, hlong, hsucceeds.counts, ?_, hsucceeds.improvements_le, ?_⟩
  · rw [history, history, seasons_lasting, seasons_lasting]
    exact (seasons_take hle 1 _ _).symm
  · rw [← Problem.rank, ← Problem.rank, ← hkey, ← hkey']
    rcases hsucceeds.same_or_beats hchampion hchampion' with ⟨rfl, -⟩ | ⟨-, hbeats⟩
    · have hself : compareKeys Key champion'.key champion'.key = .eq := Std.ReflCmp.compare_self
      rw [hself]
      rfl
    · rw [Std.OrientedCmp.lt_of_gt (beats_iff.mp hbeats)]
      rfl
  · intro hearly
    rcases hsucceeds.same_or_beats hchampion hchampion' with ⟨rfl, himprovements⟩ | ⟨hlate, -⟩
    · exact ⟨rfl, rfl, rfl, himprovements⟩
    · dsimp only at hearly
      omega

/-- The third generation brings a new champion, and the fourth leaves it where it is. -/
theorem run_extends_tiedNewcomers :
    ∃ two three four, (run scripted (threeGenerations.lasting 2) tiedNewcomers).outcome = .ok two ∧
      (run scripted (threeGenerations.lasting 3) tiedNewcomers).outcome = .ok three ∧
      (run scripted (threeGenerations.lasting 4) tiedNewcomers).outcome = .ok four ∧
      two.best = 12 ∧ three.best = 31 ∧ four.best = 31 ∧
      two.Extends scripted 2 three ∧ three.Extends scripted 3 four := by
  obtain ⟨-, two, three, htwo, hthree, hfirst⟩ :=
    run_extends scripted threeGenerations (show 2 ≤ 3 by decide) rfl tiedNewcomers
  obtain ⟨-, three', four, hthree', hfour, hsecond⟩ :=
    run_extends scripted threeGenerations (show 3 ≤ 4 by decide) rfl tiedNewcomers
  obtain rfl : three = three' := by
    rw [hthree] at hthree'
    exact Except.ok.inj hthree'
  have htwo' : (run scripted (threeGenerations.lasting 2) tiedNewcomers).outcome
      = .ok ⟨12, ⟨0, 0, 2⟩, 1, 1, _⟩ := rfl
  have hthree' : (run scripted (threeGenerations.lasting 3) tiedNewcomers).outcome
      = .ok ⟨31, ⟨2, 0, 0⟩, 3, 2, _⟩ := rfl
  have hfour' : (run scripted (threeGenerations.lasting 4) tiedNewcomers).outcome
      = .ok ⟨31, ⟨2, 0, 0⟩, 3, 2, _⟩ := rfl
  rw [htwo] at htwo'
  rw [hthree] at hthree'
  rw [hfour] at hfour'
  cases htwo'
  cases hthree'
  cases hfour'
  exact ⟨_, _, _, htwo, hthree, hfour, rfl, rfl, rfl, hfirst, hsecond⟩

end Runs

end EvolutionarySearch.Tournament
