import EvolutionarySearch.Proofs.Climb.Rounds

/-!
# The contract of a climb

A climb runs as many rounds as are due and returns what they have come to, unless an attempt fails:
then it returns the error of that attempt, and the problem receives no further call.

* `run_ends` — a climb ends after as many rounds as are due, or with an attempt that fails
* `run_follows` — a climb gets to the state after all rounds that it can have behind it
* `isSome_run` — a climb with a limit returns
* `run_climbs` — the result of a climb, and the failure of one
-/

namespace EvolutionarySearch.Climb

variable {ω Candidate : Type}

/-! ## Following a climb -/

section Runs

variable {p : Problem ω Candidate} {cfg : Config} {w : ω} {first : Candidate}
  {rounds : List (Round ω Candidate)} {error : SearchError}

/-- What a climb does from the state after its rounds: it ends after as many rounds as are due, or
with an attempt that fails. -/
theorem pursue_follows {looks : Nat} {log : Array Log.Line}
    {ended : Attempt ω (Outcome Candidate)} (hran : Ran p cfg w first rounds)
    (hended : pursue p cfg looks (climbAfter p cfg first rounds) log (worldAfter p cfg w rounds)
      = some ended) :
    (∃ all, Ran p cfg w first all ∧ ¬Due p cfg first all
        ∧ ended.outcome = .ok ((climbAfter p cfg first all).outcome p)
        ∧ ended.world = worldAfter p cfg w all)
      ∨ ∃ error made, ended.outcome = .error error ∧ Fails p cfg w error made
        ∧ ended.world = performAll p w made := by
  induction looks generalizing rounds log with
  | zero => simp [pursue] at hended
  | succ looks ih =>
    rw [pursue] at hended
    split at hended
    · next hover =>
      obtain rfl := Option.some.inj hended
      refine .inl ⟨rounds, hran, fun hdue => ?_, rfl, rfl⟩
      rw [isOver_climbAfter.2 hdue] at hover
      exact Bool.noConfusion hover
    · next hover =>
      have hdue := isOver_climbAfter.1 (eq_false_of_ne_true hover)
      dsimp only at hended
      cases htried : (dueAttempt p cfg w first rounds).outcome with
      | error error =>
        obtain ⟨houtcome, hworld⟩ := round_climbAfter_error htried
        rw [houtcome, hworld] at hended
        obtain rfl := Option.some.inj hended
        exact .inr ⟨error, _, rfl, .later hran hdue htried, rfl⟩
      | ok found =>
        obtain ⟨houtcome, hworld⟩ := round_climbAfter htried
        rw [houtcome, hworld] at hended
        exact ih (.round hran hdue htried) hended

/-- A climb that can have these rounds behind it gets to the state after them, one look for each. -/
theorem run_follows (hran : Ran p cfg w first rounds) : ∃ log, ∀ looks,
    run p cfg (rounds.length + looks) w
      = pursue p cfg looks (climbAfter p cfg first rounds) log (worldAfter p cfg w rounds) := by
  induction hran with
  | opened hfirst =>
    refine ⟨(p.attempt cfg.initialFeature w).log, fun looks => ?_⟩
    simp only [run, hfirst, List.length_nil, Nat.zero_add]
    rfl
  | @round rounds found hran hdue hfound ih =>
    -- of the looks that are left after the earlier rounds this round takes the first
    obtain ⟨log, hlog⟩ := ih
    obtain ⟨houtcome, hworld⟩ := round_climbAfter hfound
    refine ⟨log ++ (round p (climbAfter p cfg first rounds) (worldAfter p cfg w rounds)).log,
      fun looks => ?_⟩
    have hlength : (rounds ++ [dueRound p cfg w first rounds found]).length + looks
        = rounds.length + (looks + 1) := by simp; omega
    rw [hlength, hlog, pursue, if_neg (by simp [isOver_climbAfter.2 hdue])]
    dsimp only
    rw [houtcome, hworld]

/-- How a climb ends: after as many rounds as are due, or with an attempt that fails. -/
theorem run_ends {looks : Nat} {ended : Attempt ω (Outcome Candidate)}
    (hended : run p cfg looks w = some ended) :
    (∃ first all, Ran p cfg w first all ∧ ¬Due p cfg first all
        ∧ ended.outcome = .ok ((climbAfter p cfg first all).outcome p)
        ∧ ended.world = worldAfter p cfg w all)
      ∨ ∃ error made, ended.outcome = .error error ∧ Fails p cfg w error made
        ∧ ended.world = performAll p w made := by
  rw [run] at hended
  cases hfirst : (p.attempt cfg.initialFeature w).outcome with
  | error error =>
    rw [hfirst] at hended
    obtain rfl := Option.some.inj hended
    exact .inr ⟨error, _, rfl, .atOnce hfirst, rfl⟩
  | ok first =>
    rw [hfirst] at hended
    rcases pursue_follows (.opened hfirst) hended with hover | hfailed
    · exact .inl ⟨first, hover⟩
    · exact .inr hfailed

/-- A climb whose rounds are over returns their result. -/
theorem Ran.returned (hran : Ran p cfg w first rounds) (hover : ¬Due p cfg first rounds) :
    ∃ looks, ∀ more ≥ looks, ∃ log, run p cfg more w
      = some { outcome := .ok ((climbAfter p cfg first rounds).outcome p), log := log
               world := worldAfter p cfg w rounds } := by
  obtain ⟨log, hlog⟩ := run_follows hran
  have hisOver : (climbAfter p cfg first rounds).isOver p cfg = true :=
    eq_true_of_ne_false fun h => hover (isOver_climbAfter.1 h)
  refine ⟨rounds.length + 1, fun more hmore => ?_⟩
  obtain ⟨looks, rfl⟩ := Nat.exists_eq_add_of_le hmore
  rw [Nat.add_assoc, Nat.add_comm 1, hlog, pursue, if_pos hisOver]
  exact ⟨log, rfl⟩

/-- A climb whose attempt fails returns the error of that attempt. -/
theorem Fails.returned {made : List (Call Candidate)} (hfails : Fails p cfg w error made) :
    ∃ looks, ∀ more ≥ looks, ∃ log, run p cfg more w
      = some { outcome := .error error, log := log, world := performAll p w made } := by
  cases hfails with
  | atOnce hfailed =>
    refine ⟨0, fun more _ => ⟨(p.attempt cfg.initialFeature w).log, ?_⟩⟩
    rw [run]
    simp only [hfailed]
    rfl
  | @later first rounds error hran hdue hfailed =>
    obtain ⟨log, hlog⟩ := run_follows hran
    obtain ⟨houtcome, hworld⟩ := round_climbAfter_error hfailed
    refine ⟨rounds.length + 1, fun more hmore => ?_⟩
    obtain ⟨looks, rfl⟩ := Nat.exists_eq_add_of_le hmore
    rw [Nat.add_assoc, Nat.add_comm 1, hlog, pursue, if_neg (by simp [isOver_climbAfter.2 hdue])]
    dsimp only
    rw [houtcome, hworld]
    exact ⟨_, rfl⟩

/-! ## Climbs with a limit -/

theorem rounds_of_round {c c' : Climb Candidate} (h : (round p c w).outcome = .ok c') :
    c'.rounds = c.rounds + 1 := by
  simp only [round, judge] at h
  split at h
  · cases h
  · split at h <;> (cases h; rfl)

theorem isSome_pursue {limit looks : Nat} {c : Climb Candidate}
    (hlimit : cfg.maxRounds = some limit) (hlooks : limit ≤ c.rounds + looks)
    (log : Array Log.Line) (w : ω) : (pursue p cfg (looks + 1) c log w).isSome := by
  induction looks generalizing c log w with
  | zero =>
    have hused : limit ≤ c.rounds := hlooks
    have hover : c.isOver p cfg = true := by simp [isOver, hlimit, hused]
    rw [pursue, if_pos hover]
    rfl
  | succ looks ih =>
    rw [pursue]
    split
    · rfl
    · dsimp only
      split
      · rfl
      · next hround =>
        exact ih (by rw [rounds_of_round hround]; omega) _ _

/-- A climb with a limit returns, with one look more than the limit has rounds. -/
theorem isSome_run {limit : Nat} (hlimit : cfg.maxRounds = some limit) :
    (run p cfg (limit + 1) w).isSome := by
  rw [run]
  split
  · rfl
  · exact isSome_pursue hlimit (Nat.le_add_left ..) _ _

/-! ## The contract of a run -/

/-- What the result of a climb says about its rounds, and about the world that the climb leaves. -/
structure Climbed (p : Problem ω Candidate) (cfg : Config) (w : ω) (first : Candidate)
    (rounds : List (Round ω Candidate)) (result : Outcome Candidate) (w' : ω) : Prop where
  ran : Ran p cfg w first rounds
  /-- The first best is what the first attempt answers. -/
  opens : (p.attempt cfg.initialFeature w).outcome = .ok first
  /-- The rounds that replace the best lead from each best to the next: they attempt the feature
  value that follows the former, and find the latter, which improves on it. -/
  climbs : ∀ i r, (accepted p rounds)[i]? = some r →
    (bests p first rounds)[i]? = some r.best ∧ (bests p first rounds)[i + 1]? = some r.found
      ∧ (p.attempt (p.nextFeature r.best) r.world).outcome = .ok r.found
      ∧ p.improves r.best r.found = true
  best : (bests p first rounds).getLast? = some result.best
  features : result.features.toList = cfg.initialFeature :: (accepted p rounds).map (·.feature p)
  improvements : (bests p first rounds).length = result.improvements + 1
  /-- Exactly the bests after the first are displayed, in their order and with their feature
  values. -/
  displays : (calls p cfg rounds).filterMap (·.displayed?)
    = ((bests p first rounds).zip result.features.toList).tail
  /-- No round starts with an optimal best. -/
  unfinished : ∀ r ∈ rounds, p.optimal r.best = false
  attempts : (calls p cfg rounds).countP (·.displayed?.isNone) = result.rounds + 1
  within : ∀ limit ∈ cfg.maxRounds, result.rounds ≤ limit
  reached : result.reachedOptimal = p.optimal result.best
  spent : result.reachedOptimal = false → cfg.maxRounds = some result.rounds
  /-- The problem has received these calls, and no other. -/
  received : w' = performAll p w (calls p cfg rounds)
  written : ∀ log : ω → List (Call Candidate), Journal p log →
    log w' = log w ++ calls p cfg rounds

/-- A climb that is over with a best that is not optimal has used up its rounds. -/
theorem Ran.spends (hran : Ran p cfg w first rounds) (hover : ¬Due p cfg first rounds)
    (hunfinished : p.optimal (currentBest p first rounds) = false) :
    cfg.maxRounds = some rounds.length := by
  cases hlimit : cfg.maxRounds with
  | none => exact absurd ⟨hunfinished, by simp [hlimit]⟩ hover
  | some limit =>
    have hle : rounds.length ≤ limit := hran.length_le limit hlimit
    have hnlt : ¬rounds.length < limit := fun hlt => hover
      ⟨hunfinished, fun other hother => by
        rw [hlimit] at hother
        exact Option.some.inj hother ▸ hlt⟩
    rw [Nat.le_antisymm hle (Nat.not_lt.1 hnlt)]

/-- A climb with no further round due has the result that the rounds determine. -/
theorem Ran.climbed (hran : Ran p cfg w first rounds) (hover : ¬Due p cfg first rounds) :
    Climbed p cfg w first rounds ((climbAfter p cfg first rounds).outcome p)
      (worldAfter p cfg w rounds) where
  ran := hran
  opens := hran.opens
  climbs _ _ := hran.climbs
  best := getLast?_bests p first rounds
  features := rfl
  improvements := by simp [outcome, climbAfter, bests]
  displays := by
    rw [filterMap_calls]
    simp [outcome, climbAfter, bests, List.zip_map']
  unfinished r hr := (hran.each r hr).1
  attempts := countP_calls p cfg rounds
  within := hran.length_le
  reached := rfl
  spent := hran.spends hover
  received := rfl
  written _ hlog := hlog.performAll _ _

end Runs

/-- A climb that returns a result has rounds that lead to it: each best after the first is what a
round has found at the feature value that follows its predecessor, and improves on it; the feature
values, the counts and the displays are those of these rounds; none of them starts with an optimal
best, or beyond the limit; and the climb ends short of an optimum only at the limit. A climb that
returns an error has made no call after the first attempt that fails, whose error it is. And a climb
does return: a result once no further round is due, the error of an attempt that fails, and one of
the two if it has a limit. -/
theorem run_climbs (p : Problem ω Candidate) (cfg : Config) (w : ω) :
    (∀ looks ended result, run p cfg looks w = some ended → ended.outcome = .ok result →
        ∃ first rounds, Climbed p cfg w first rounds result ended.world)
      ∧ (∀ looks ended error, run p cfg looks w = some ended → ended.outcome = .error error →
          ∃ made, Fails p cfg w error made ∧ ended.world = performAll p w made
            ∧ ∀ log : ω → List (Call Candidate), Journal p log → log ended.world = log w ++ made)
      ∧ (∀ first rounds, Ran p cfg w first rounds → ¬Due p cfg first rounds →
          ∃ looks, ∀ more ≥ looks, ∃ log, run p cfg more w
            = some { outcome := .ok ((climbAfter p cfg first rounds).outcome p), log := log
                     world := worldAfter p cfg w rounds })
      ∧ (∀ error made, Fails p cfg w error made →
          ∃ looks, ∀ more ≥ looks, ∃ log, run p cfg more w
            = some { outcome := .error error, log := log, world := performAll p w made })
      ∧ ∀ limit, cfg.maxRounds = some limit → (run p cfg (limit + 1) w).isSome := by
  refine ⟨fun looks ended result hended hresult => ?_,
    fun looks ended error hended herror => ?_, fun first rounds hran hover => hran.returned hover,
    fun error made hfails => hfails.returned, fun limit hlimit => isSome_run hlimit⟩
  · rcases run_ends hended with ⟨first, rounds, hran, hover, houtcome, hworld⟩
      | ⟨error, made, houtcome, -, -⟩
    · obtain rfl := Except.ok.inj (hresult.symm.trans houtcome)
      exact ⟨first, rounds, hworld ▸ hran.climbed hover⟩
    · exact nomatch hresult.symm.trans houtcome
  · rcases run_ends hended with ⟨first, rounds, -, -, houtcome, -⟩
      | ⟨other, made, houtcome, hfails, hworld⟩
    · exact nomatch herror.symm.trans houtcome
    · obtain rfl := Except.error.inj (herror.symm.trans houtcome)
      exact ⟨made, hfails, hworld, fun log hlog => hworld ▸ hlog.performAll made w⟩

/-! ## A problem with scripted answers -/

/-- A world that knows the answers to come, and the calls so far. -/
structure Script where
  answers : List (Except SearchError Nat)
  calls : List (Call Nat) := []

/-- Looks for 3, below the best so far; what an attempt answers does not depend on its feature. -/
def scripted : Problem Script Nat where
  attempt feature w :=
    { outcome := w.answers.headD (.error .exhausted)
      world := { answers := w.answers.tail, calls := w.calls ++ [.attempt feature] } }
  improves best found := found < best
  optimal best := best == 3
  nextFeature best := best - 1
  display found feature w := { w with calls := w.calls ++ [.display found feature] }

theorem journal_scripted : Journal scripted Script.calls where
  written call w := by cases call <;> rfl

/-- Three rounds of which one finds nothing better, and a climb whose fourth attempt fails. -/
theorem run_climbs_scripted :
    (∃ first rounds, Climbed scripted { initialFeature := 10 }
        { answers := [.ok 10, .ok 7, .ok 8, .ok 3] } first rounds
        { best := 3, rounds := 3, improvements := 2, reachedOptimal := true
          features := #[10, 9, 6] }
        { answers := []
          calls := [.attempt 10, .attempt 9, .display 7 9, .attempt 6, .attempt 6, .display 3 6] })
      ∧ Fails scripted { initialFeature := 10, maxRounds := some 9 }
          { answers := [.ok 10, .ok 7, .ok 8] } .exhausted
          [.attempt 10, .attempt 9, .display 7 9, .attempt 6, .attempt 6]
      ∧ ∃ looks, ∀ more ≥ looks, ∃ log, run scripted { initialFeature := 10, maxRounds := some 9 }
          more { answers := [.ok 10, .ok 7, .ok 8] }
        = some
          { outcome := .error .exhausted, log := log
            world :=
              { answers := []
                calls := [.attempt 10, .attempt 9, .display 7 9, .attempt 6, .attempt 6] } } := by
  have hclimbed := (run_climbs scripted { initialFeature := 10 }
    { answers := [.ok 10, .ok 7, .ok 8, .ok 3] }).1 4 _ _ rfl rfl
  obtain ⟨-, hfails, -, hreturns, -⟩ := run_climbs scripted
    { initialFeature := 10, maxRounds := some 9 } { answers := [.ok 10, .ok 7, .ok 8] }
  obtain ⟨made, hmade, -, hwritten⟩ := hfails 4 _ _ rfl rfl
  obtain rfl := hwritten _ journal_scripted
  exact ⟨hclimbed, hmade, hreturns _ _ hmade⟩

end EvolutionarySearch.Climb
