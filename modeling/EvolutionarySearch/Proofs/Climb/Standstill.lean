import EvolutionarySearch.Proofs.Climb.Contract

/-!
# Climbs that stand still

An attempt that depends on nothing but its feature value finds the same candidate whenever it is
repeated. A round that keeps the best keeps the next feature value too, so the round after it is the
same round once more: a climb with such attempts never gets past a round that finds nothing better.

* `Ran.currentBest_eq` — the best is that of any round that was rejected
* `Ran.prefix_of_over` — a climb from a world has only one way to go
* `rejection_final` — what a rejected round means for the result of a climb
-/

namespace EvolutionarySearch.Climb

variable {ω Candidate : Type}

/-- Every attempt finds a candidate, which depends on the feature value and on nothing else. -/
def Repeatable (p : Problem ω Candidate) (answer : Nat → Candidate) : Prop :=
  ∀ feature w, (p.attempt feature w).outcome = .ok (answer feature)

/-- The configuration with another limit on the rounds. -/
def Config.within (cfg : Config) (limit : Option Nat) : Config :=
  { cfg with maxRounds := limit }

/-- One of the rounds has been rejected. -/
def Stuck (p : Problem ω Candidate) (rounds : List (Round ω Candidate)) : Prop :=
  ∃ r ∈ rounds, r.accepted p = false

variable {p : Problem ω Candidate} {cfg : Config} {w : ω} {first first' found : Candidate}
  {rounds more all : List (Round ω Candidate)} {r : Round ω Candidate} {limit : Nat}
  {later : Option Nat}

/-! ## One way to go -/

/-- A further round was due when it was run. -/
theorem Ran.due_of_append (hran : Ran p cfg w first (rounds ++ r :: more)) :
    Due p cfg first rounds := by
  generalize hall : rounds ++ r :: more = all at hran
  induction hran generalizing more with
  | opened => simp at hall
  | @round before found hran hdue hfound ih =>
    rcases List.eq_nil_or_concat more with rfl | ⟨init, last, rfl⟩
    · obtain ⟨rfl, -⟩ := List.append_singleton_inj.mp hall
      exact hdue
    · have hinit : (rounds ++ r :: init) ++ [last]
          = before ++ [dueRound p cfg w first before found] := by
        simpa using hall
      exact ih (List.append_singleton_inj.mp hinit).1

/-- Of two courses of a climb from one world the longer extends the shorter. -/
theorem Ran.prefix_of_length_le (hran : Ran p cfg w first rounds) (hall : Ran p cfg w first all)
    (hle : rounds.length ≤ all.length) : rounds <+: all := by
  induction hall generalizing rounds with
  | opened =>
    obtain rfl := List.eq_nil_of_length_eq_zero (Nat.le_zero.mp hle)
    exact List.prefix_refl _
  | @round before other hbefore _ hother ih =>
    by_cases hshort : rounds.length ≤ before.length
    · exact (ih hran hshort).trans (List.prefix_append ..)
    · cases hran with
      | opened => exact absurd (Nat.zero_le _) hshort
      | @round earlier found hearlier _ hfound =>
        -- both end with the same attempt, after the same rounds
        simp only [List.length_append, List.length_singleton] at hle hshort
        have hsame : earlier = before :=
          (ih hearlier (by omega)).eq_of_length (by omega)
        subst hsame
        obtain rfl := Except.ok.inj (hfound.symm.trans hother)
        exact List.prefix_refl _

/-- A climb that is over has run all the rounds that it can run. -/
theorem Ran.prefix_of_over (hran : Ran p cfg w first rounds) (hall : Ran p cfg w first' all)
    (hover : ¬Due p cfg first' all) : first = first' ∧ rounds <+: all := by
  obtain rfl := Except.ok.inj (hran.opens.symm.trans hall.opens)
  refine ⟨rfl, ?_⟩
  by_cases hle : rounds.length ≤ all.length
  · exact hran.prefix_of_length_le hall hle
  · obtain ⟨rest, rfl⟩ := hall.prefix_of_length_le hran (by omega)
    cases rest with
    | nil => simp at hle
    | cons r rest => exact absurd hran.due_of_append hover

/-- Rounds that are within one limit can be run within any other that leaves room for them. -/
theorem Ran.within (hran : Ran p cfg w first rounds)
    (hroom : ∀ limit ∈ later, rounds.length ≤ limit) : Ran p (cfg.within later) w first rounds := by
  induction hran with
  | opened hfirst => exact .opened hfirst
  | @round rounds found _ hdue hfound ih =>
    have hleft : ∀ limit ∈ later, rounds.length < limit := by
      intro limit hlimit
      have hfits := hroom limit hlimit
      rw [List.length_append, List.length_singleton] at hfits
      exact hfits
    exact .round (ih fun limit hlimit => Nat.le_of_lt (hleft limit hlimit))
      ⟨hdue.unfinished, hleft⟩ hfound

/-! ## After a rejected round -/

theorem accepted_eq_nil (h : ∀ r ∈ rounds, r.accepted p = false) : accepted p rounds = [] :=
  List.filter_eq_nil_iff.mpr fun r hr => by simp [h r hr]

/-- The state of a climb when all that was run since has been rejected. -/
theorem climbAfter_append (hrejected : ∀ r ∈ more, r.accepted p = false) :
    climbAfter p cfg first (rounds ++ more)
      = { climbAfter p cfg first rounds with rounds := rounds.length + more.length } := by
  simp [climbAfter, currentBest, accepted_eq_nil hrejected]

theorem Stuck.append (hstuck : Stuck p rounds) (more : List (Round ω Candidate)) :
    Stuck p (rounds ++ more) := by
  obtain ⟨r, hr, hrejected⟩ := hstuck
  exact ⟨r, List.mem_append_left _ hr, hrejected⟩

section Repeatable

variable {answer : Nat → Candidate} (hp : Repeatable p answer)

include hp

theorem Ran.found_eq (hran : Ran p cfg w first rounds) (hr : r ∈ rounds) :
    r.found = answer (r.feature p) :=
  Except.ok.inj ((hran.each r hr).2.symm.trans (hp _ _))

/-- A round that starts where a rejected one has started repeats its attempt. -/
theorem Ran.dueRound_rejected (hran : Ran p cfg w first rounds) (hr : r ∈ rounds)
    (hrejected : r.accepted p = false) (hbest : currentBest p first rounds = r.best)
    (hfound : (dueAttempt p cfg w first rounds).outcome = .ok found) :
    (dueRound p cfg w first rounds found).accepted p = false := by
  have hagain : answer (p.nextFeature (currentBest p first rounds)) = found :=
    Except.ok.inj ((hp _ _).symm.trans hfound)
  have hsame : found = r.found := by
    rw [← hagain, hran.found_eq hp hr, hbest]
    rfl
  show p.improves (currentBest p first rounds) found = false
  rw [hbest, hsame]
  exact hrejected

/-- A rejected round leaves the best as it was, and so does every round after it. -/
theorem Ran.currentBest_eq (hran : Ran p cfg w first rounds) (hr : r ∈ rounds)
    (hrejected : r.accepted p = false) : currentBest p first rounds = r.best := by
  induction hran with
  | opened => cases hr
  | @round rounds found hran _ hfound ih =>
    rw [currentBest_append_singleton]
    rcases List.mem_append.mp hr with hr | hr
    · rw [hran.dueRound_rejected hp hr hrejected (ih hr) hfound]
      exact ih hr
    · rw [List.mem_singleton.mp hr] at hrejected ⊢
      rw [hrejected]
      rfl

/-- Once a round is rejected, all later rounds are. -/
theorem Ran.pairwise_rejected (hran : Ran p cfg w first rounds) :
    rounds.Pairwise fun r later => r.accepted p = false → later.accepted p = false := by
  induction hran with
  | opened => exact .nil
  | @round rounds found hran _ hfound ih =>
    refine List.pairwise_append.mpr ⟨ih, List.pairwise_singleton _ _, ?_⟩
    intro r hr later hlater hrejected
    rw [List.mem_singleton.mp hlater]
    exact hran.dueRound_rejected hp hr hrejected (hran.currentBest_eq hp hr hrejected) hfound

theorem Ran.rejected_of_stuck (hran : Ran p cfg w first (rounds ++ more))
    (hstuck : Stuck p rounds) : ∀ r ∈ more, r.accepted p = false := by
  obtain ⟨rejected, hmem, hrejected⟩ := hstuck
  intro r hr
  exact (List.pairwise_append.mp (hran.pairwise_rejected hp)).2.2 rejected hmem r hr hrejected

/-- The best of a climb that stands still is not optimal. -/
theorem Ran.unfinished_of_stuck (hran : Ran p cfg w first rounds) (hstuck : Stuck p rounds) :
    p.optimal (currentBest p first rounds) = false := by
  obtain ⟨r, hr, hrejected⟩ := hstuck
  rw [hran.currentBest_eq hp hr hrejected]
  exact (hran.each r hr).1

/-- Every round of a climb that has found the optimum has replaced the best. -/
theorem Ran.accepted_eq_self (hran : Ran p cfg w first rounds)
    (hoptimal : p.optimal (currentBest p first rounds) = true) : accepted p rounds = rounds := by
  refine List.filter_eq_self.mpr fun r hr => ?_
  refine eq_true_of_ne_false fun hrejected => ?_
  have hunfinished := hran.unfinished_of_stuck hp ⟨r, hr, hrejected⟩
  rw [hoptimal] at hunfinished
  cases hunfinished

/-- A climb without a limit that stands still can go on for any number of rounds. -/
theorem Ran.extend_of_stuck (hran : Ran p cfg w first rounds) (hstuck : Stuck p rounds)
    (hlimit : cfg.maxRounds = none) (n : Nat) :
    ∃ more, more.length = n ∧ Ran p cfg w first (rounds ++ more) := by
  induction n with
  | zero => exact ⟨[], rfl, by simpa using hran⟩
  | succ n ih =>
    obtain ⟨more, hlength, hmore⟩ := ih
    have hdue : Due p cfg first (rounds ++ more) :=
      ⟨hmore.unfinished_of_stuck hp (hstuck.append more), by simp [hlimit]⟩
    have hnext := Ran.round hmore hdue (hp _ _)
    rw [List.append_assoc] at hnext
    exact ⟨_, by simp [hlength], hnext⟩

/-- A climb in which every attempt finds a candidate ends with a result. -/
theorem Repeatable.run_ends {looks : Nat} {ended : Attempt ω (Outcome Candidate)}
    (hended : run p cfg looks w = some ended) :
    ∃ first all, Ran p cfg w first all ∧ ¬Due p cfg first all ∧
      ended.outcome = .ok ((climbAfter p cfg first all).outcome p) ∧
      ended.world = worldAfter p cfg w all := by
  rcases Climb.run_ends hended with hover | ⟨error, made, -, hfails, -⟩
  · exact hover
  · cases hfails with
    | atOnce hfailed => cases (hp _ _).symm.trans hfailed
    | later _ _ hfailed => cases (hp _ _).symm.trans hfailed

end Repeatable

/-! ## The result of a climb -/

/-- What follows when one of the rounds of a climb has been rejected. -/
structure StandsStill (p : Problem ω Candidate) (cfg : Config) (w : ω) (first : Candidate)
    (rounds : List (Round ω Candidate)) : Prop where
  /-- However the climb goes on, only the number of rounds changes. -/
  settled : ∀ more, Ran p cfg w first (rounds ++ more) →
    climbAfter p cfg first (rounds ++ more)
      = { climbAfter p cfg first rounds with rounds := rounds.length + more.length }
  /-- It ends at the limit, short of an optimum. -/
  spent : ∀ looks ended, run p cfg looks w = some ended → ∃ limit,
    cfg.maxRounds = some limit ∧ ended.outcome = .ok
      { best := (climbAfter p cfg first rounds).best
        rounds := limit
        improvements := (climbAfter p cfg first rounds).features.size - 1
        reachedOptimal := false
        features := (climbAfter p cfg first rounds).features }
  /-- Without a limit it does not end: it has no result, and goes on for any number of rounds. -/
  endless : cfg.maxRounds = none → ∀ n,
    run p cfg n w = none ∧ ∃ more, more.length = n ∧ Ran p cfg w first (rounds ++ more)

theorem Ran.standsStill {answer : Nat → Candidate} (hp : Repeatable p answer)
    (hran : Ran p cfg w first rounds) (hstuck : Stuck p rounds) :
    StandsStill p cfg w first rounds := by
  have hsettled : ∀ more, Ran p cfg w first (rounds ++ more) →
      climbAfter p cfg first (rounds ++ more)
        = { climbAfter p cfg first rounds with rounds := rounds.length + more.length } :=
    fun more hmore => climbAfter_append (hmore.rejected_of_stuck hp hstuck)
  have hspent : ∀ looks ended, run p cfg looks w = some ended → ∃ limit,
      cfg.maxRounds = some limit ∧ ended.outcome = .ok
        { best := (climbAfter p cfg first rounds).best
          rounds := limit
          improvements := (climbAfter p cfg first rounds).features.size - 1
          reachedOptimal := false
          features := (climbAfter p cfg first rounds).features } := by
    intro looks ended hended
    obtain ⟨first', all, hall, hover, houtcome, -⟩ := hp.run_ends hended
    obtain ⟨rfl, more, rfl⟩ := hran.prefix_of_over hall hover
    have hunfinished := hall.unfinished_of_stuck hp (hstuck.append more)
    refine ⟨_, hall.spends hover hunfinished, ?_⟩
    have hbest : (climbAfter p cfg first rounds).best = currentBest p first (rounds ++ more) :=
      (congrArg Climb.best (hsettled more hall)).symm
    rw [houtcome, hsettled more hall, List.length_append]
    simp [outcome, hbest, hunfinished]
  refine ⟨hsettled, hspent, fun hlimit n => ⟨?_, hran.extend_of_stuck hp hstuck hlimit n⟩⟩
  cases hended : run p cfg n w with
  | none => rfl
  | some ended =>
    obtain ⟨limit, hsome, -⟩ := hspent n ended hended
    rw [hlimit] at hsome
    cases hsome

/-- What the result of a climb with a limit says of the climb with a later limit, or without one. -/
structure Foretells (p : Problem ω Candidate) (cfg : Config) (w : ω) (later : Option Nat)
    (ended : Attempt ω (Outcome Candidate)) (result : Outcome Candidate) : Prop where
  /-- The feature values go on from those of the result. -/
  features : ∀ looks ended', run p (cfg.within later) looks w = some ended' →
    ∃ result', ended'.outcome = .ok result' ∧ result.features.toList <+: result'.features.toList
  /-- With an optimum found, the result is the same. -/
  same : result.reachedOptimal = true → ∃ enough, ∀ looks ≥ enough, ∃ log,
    run p (cfg.within later) looks w
      = some { outcome := .ok result, log := log, world := ended.world }

/-- The feature values of a climb go on from those after some of its rounds. -/
theorem features_prefix (first : Candidate) (h : rounds <+: all) :
    (climbAfter p cfg first rounds).features.toList
      <+: (climbAfter p cfg first all).features.toList := by
  obtain ⟨more, rfl⟩ := h
  simp [climbAfter]

theorem Repeatable.foretells {answer : Nat → Candidate} (hp : Repeatable p answer)
    (hlater : ∀ more ∈ later, limit ≤ more) {looks : Nat} {ended : Attempt ω (Outcome Candidate)}
    (hended : run p (cfg.within (some limit)) looks w = some ended) :
    ∃ result, ended.outcome = .ok result ∧ Foretells p cfg w later ended result := by
  obtain ⟨first, rounds, hran, hover, houtcome, hworld⟩ := hp.run_ends hended
  -- whatever is within the limit is also within the later one
  have hlong : Ran p (cfg.within later) w first rounds :=
    hran.within fun more hmore => Nat.le_trans (hran.length_le limit rfl) (hlater more hmore)
  refine ⟨_, houtcome, ?_, ?_⟩
  · intro looks' ended' hended'
    obtain ⟨first', all, hall, hover', houtcome', -⟩ := hp.run_ends hended'
    obtain ⟨rfl, hprefix⟩ := hlong.prefix_of_over hall hover'
    exact ⟨_, houtcome', features_prefix first hprefix⟩
  · intro hoptimal
    have hover' : ¬Due p (cfg.within later) first rounds := by
      intro hdue
      have hfound : p.optimal (currentBest p first rounds) = true := hoptimal
      rw [hdue.unfinished] at hfound
      cases hfound
    rw [hworld]
    exact hlong.returned hover'

/--
**A climb with repeatable attempts never recovers from a rejected round.** Its result has as many
improvements as rounds whenever the optimum is found. After a rejected round the best and the
feature values stay as they are: the climb ends at its limit, and never without one. And what it
finds within a limit it also finds within every later one, and without: the feature values go on
from there, and the result stays if it is an optimum. With a limit there is a result.
-/
theorem rejection_final {answer : Nat → Candidate} (hp : Repeatable p answer) (cfg : Config)
    (w : ω) :
    (∀ looks ended, run p cfg looks w = some ended → ∃ result, ended.outcome = .ok result ∧
        (result.reachedOptimal = true → result.rounds = result.improvements)) ∧
      (∀ first rounds, Ran p cfg w first rounds → Stuck p rounds →
        StandsStill p cfg w first rounds) ∧
      (∀ limit later, (∀ more ∈ later, limit ≤ more) →
        ∀ looks ended, run p (cfg.within (some limit)) looks w = some ended →
          ∃ result, ended.outcome = .ok result ∧ Foretells p cfg w later ended result) ∧
      ∀ limit, (run p (cfg.within (some limit)) (limit + 1) w).isSome := by
  refine ⟨?_, fun first rounds hran hstuck => hran.standsStill hp hstuck,
    fun limit later hlater looks ended hended => hp.foretells hlater hended,
    fun limit => isSome_run rfl⟩
  intro looks ended hended
  obtain ⟨first, all, hall, -, houtcome, -⟩ := hp.run_ends hended
  refine ⟨_, houtcome, fun hoptimal => ?_⟩
  simp [outcome, climbAfter, hall.accepted_eq_self hp hoptimal]

/-- Looks for a goal; no attempt finds anything below 3. The world counts the attempts. -/
def floored (goal : Nat) : Problem Nat Nat where
  attempt feature w := { outcome := .ok (max feature 3), world := w + 1 }
  improves best found := found < best
  optimal best := best == goal
  nextFeature best := best - 1

/-- The goal 1 is out of reach, so that the third round is rejected and the climb does not end. The
goal 3 is found in two rounds, with a limit of two and without one. -/
theorem rejection_final_floored :
    Repeatable (floored 1) (max · 3) ∧
      (∀ looks, run (floored 1) { initialFeature := 5 } looks 0 = none) ∧
      ∃ ended, run (floored 3) { initialFeature := 5, maxRounds := some 2 } 3 0 = some ended ∧
        ∃ result, ended.outcome = .ok result ∧ result.features = #[5, 4, 3] ∧
          result.rounds = result.improvements ∧
          ∃ enough, ∀ looks ≥ enough, ∃ log, run (floored 3) { initialFeature := 5 } looks 0
            = some { outcome := .ok result, log := log, world := 3 } := by
  have hrepeatable : ∀ goal, Repeatable (floored goal) (max · 3) := fun _ _ _ => rfl
  have hran : Ran (floored 1) { initialFeature := 5 } 0 5 _ :=
    .round (.round (.round (.opened rfl) ⟨rfl, by simp⟩ rfl) ⟨rfl, by simp⟩ rfl)
      ⟨rfl, by simp⟩ rfl
  have hended : run (floored 3) { initialFeature := 5, maxRounds := some 2 } 3 0 = some _ := rfl
  obtain ⟨-, -, hforetells, -⟩ := rejection_final (hrepeatable 3) { initialFeature := 5 } 0
  obtain ⟨result, hresult, hsame⟩ := hforetells 2 none (by simp) 3 _ hended
  obtain rfl := Except.ok.inj hresult
  refine ⟨hrepeatable 1, fun looks => ?_, _, hended, _, rfl, rfl, rfl, hsame.same rfl⟩
  have hstill := (rejection_final (hrepeatable 1) { initialFeature := 5 } 0).2.1 5 _ hran
    ⟨_, List.mem_append_right _ List.mem_cons_self, rfl⟩
  exact (hstill.endless rfl looks).1

end EvolutionarySearch.Climb
