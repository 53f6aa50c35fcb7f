import EvolutionarySearch.Climb.Run
import Mathlib.Data.List.Basic

/-!
# The rounds of a climb

A climb is told by its first candidate and its rounds: which best and world each round started with,
and what its attempt has found. From these everything else follows: the bests and their feature
values, the calls that the problem has received, and the state and the world after the rounds.
Attempts may depend on the world in any way.

* `countP_calls`, `filterMap_calls` — the calls of a climb, read off its rounds
* `round_climbAfter` — one more round leads to the state and the world after it
* `Ran.climbs` — the rounds that replace the best lead from each best to the next
-/

namespace EvolutionarySearch.Climb

variable {ω Candidate : Type}

/-! ## Calls -/

/-- A call that the problem receives and that may change the world. -/
inductive Call (Candidate : Type) where
  | attempt (feature : Nat)
  | display (candidate : Candidate) (feature : Nat)
  deriving DecidableEq, Repr

/-- What a call displays. -/
def Call.displayed? : Call Candidate → Option (Candidate × Nat)
  | .attempt _ => none
  | .display candidate feature => some (candidate, feature)

/-- The world after a call. -/
def Call.perform (p : Problem ω Candidate) (w : ω) : Call Candidate → ω
  | .attempt feature => (p.attempt feature w).world
  | .display candidate feature => p.display candidate feature w

/-- The world after calls in a row. -/
def performAll (p : Problem ω Candidate) (w : ω) (calls : List (Call Candidate)) : ω :=
  calls.foldl (Call.perform p) w

@[simp] theorem performAll_append (p : Problem ω Candidate) (w : ω)
    (calls more : List (Call Candidate)) :
    performAll p w (calls ++ more) = performAll p (performAll p w calls) more :=
  List.foldl_append

/-- A log in the world, with an entry for every call of the problem and no other. -/
structure Journal (p : Problem ω Candidate) (log : ω → List (Call Candidate)) : Prop where
  written : ∀ call w, log (call.perform p w) = log w ++ [call]

theorem Journal.performAll {p : Problem ω Candidate} {log : ω → List (Call Candidate)}
    (hlog : Journal p log) (calls : List (Call Candidate)) (w : ω) :
    log (performAll p w calls) = log w ++ calls := by
  induction calls generalizing w with
  | nil => simp [Climb.performAll]
  | cons call calls ih =>
    have hrest := ih (call.perform p w)
    rw [hlog.written, List.append_assoc] at hrest
    exact hrest

/-! ## Rounds -/

/-- A round: the best and the world it starts with, and what its attempt has found. -/
structure Round (ω Candidate : Type) where
  best : Candidate
  world : ω
  found : Candidate

section Rounds

variable (p : Problem ω Candidate)

/-- The feature value that a round attempts. -/
def Round.feature (r : Round ω Candidate) : Nat := p.nextFeature r.best

/-- Whether what a round has found replaces the best. -/
def Round.accepted (r : Round ω Candidate) : Bool := p.improves r.best r.found

/-- The calls of a round: its attempt, and a display if the best is replaced. -/
def Round.calls (r : Round ω Candidate) : List (Call Candidate) :=
  .attempt (r.feature p) :: if r.accepted p then [.display r.found (r.feature p)] else []

/-- The rounds that have replaced the best. -/
def accepted (rounds : List (Round ω Candidate)) : List (Round ω Candidate) :=
  rounds.filter (·.accepted p)

@[simp] theorem accepted_append (rounds more : List (Round ω Candidate)) :
    accepted p (rounds ++ more) = accepted p rounds ++ accepted p more :=
  List.filter_append ..

/-- The bests of a climb, from its first candidate on. -/
def bests (first : Candidate) (rounds : List (Round ω Candidate)) : List Candidate :=
  first :: (accepted p rounds).map (·.found)

/-- The best after a number of rounds. -/
def currentBest (first : Candidate) (rounds : List (Round ω Candidate)) : Candidate :=
  ((accepted p rounds).map (·.found)).getLastD first

theorem getLast?_bests (first : Candidate) (rounds : List (Round ω Candidate)) :
    (bests p first rounds).getLast? = some (currentBest p first rounds) := by
  rw [bests, currentBest, List.getLast?_cons, List.getLastD_eq_getLast?]

theorem accepted_singleton (r : Round ω Candidate) :
    accepted p [r] = if r.accepted p then [r] else [] :=
  List.filter_cons

theorem currentBest_append_singleton (first : Candidate) (rounds : List (Round ω Candidate))
    (r : Round ω Candidate) : currentBest p first (rounds ++ [r])
      = if r.accepted p then r.found else currentBest p first rounds := by
  rw [currentBest, accepted_append, accepted_singleton]
  by_cases haccepted : r.accepted p <;> simp [haccepted, currentBest]

/-- All calls of a climb, in their order. -/
def calls (cfg : Config) (rounds : List (Round ω Candidate)) : List (Call Candidate) :=
  .attempt cfg.initialFeature :: rounds.flatMap (·.calls p)

theorem calls_append_singleton (cfg : Config) (rounds : List (Round ω Candidate))
    (r : Round ω Candidate) : calls p cfg (rounds ++ [r]) = calls p cfg rounds ++ r.calls p := by
  simp [calls]

/-- Every round makes one attempt, and the climb makes one before them. -/
theorem countP_calls (cfg : Config) (rounds : List (Round ω Candidate)) :
    (calls p cfg rounds).countP (·.displayed?.isNone) = rounds.length + 1 := by
  have hround : ∀ r : Round ω Candidate, (r.calls p).countP (·.displayed?.isNone) = 1 := by
    intro r
    unfold Round.calls
    split <;> rfl
  have hrounds : (rounds.flatMap (·.calls p)).countP (·.displayed?.isNone) = rounds.length := by
    induction rounds with
    | nil => rfl
    | cons r rounds ih =>
      rw [List.flatMap_cons, List.countP_append, hround, ih, List.length_cons, Nat.add_comm]
  rw [calls, List.countP_cons_of_pos rfl, hrounds]

/-- What is displayed are the bests after the first, with their feature values. -/
theorem filterMap_calls (cfg : Config) (rounds : List (Round ω Candidate)) :
    (calls p cfg rounds).filterMap (·.displayed?)
      = (accepted p rounds).map fun r => (r.found, r.feature p) := by
  rw [calls, List.filterMap_cons_none rfl]
  induction rounds with
  | nil => rfl
  | cons r rounds ih =>
    rw [List.flatMap_cons, List.filterMap_append, ih]
    unfold accepted Round.calls
    by_cases haccepted : r.accepted p <;> simp [haccepted, Call.displayed?]

/-- The state of a climb after its rounds. -/
def climbAfter (cfg : Config) (first : Candidate) (rounds : List (Round ω Candidate)) :
    Climb Candidate where
  best := currentBest p first rounds
  features := (cfg.initialFeature :: (accepted p rounds).map (·.feature p)).toArray
  rounds := rounds.length

/-- The world of a climb after its rounds. -/
def worldAfter (cfg : Config) (w : ω) (rounds : List (Round ω Candidate)) : ω :=
  performAll p w (calls p cfg rounds)

end Rounds

/-! ## What a climb does -/

section Runs

variable (p : Problem ω Candidate) (cfg : Config) (w : ω)

/-- Whether a further round is to be run: the best is not optimal, and rounds are left. -/
structure Due (first : Candidate) (rounds : List (Round ω Candidate)) : Prop where
  unfinished : p.optimal (currentBest p first rounds) = false
  within : ∀ limit ∈ cfg.maxRounds, rounds.length < limit

/-- The feature value that is attempted after these rounds. -/
def dueFeature (first : Candidate) (rounds : List (Round ω Candidate)) : Nat :=
  p.nextFeature (currentBest p first rounds)

/-- The attempt after these rounds. -/
def dueAttempt (first : Candidate) (rounds : List (Round ω Candidate)) : Attempt ω Candidate :=
  p.attempt (dueFeature p first rounds) (worldAfter p cfg w rounds)

/-- The round after these rounds, if its attempt finds a candidate. -/
def dueRound (first : Candidate) (rounds : List (Round ω Candidate)) (found : Candidate) :
    Round ω Candidate where
  best := currentBest p first rounds
  world := worldAfter p cfg w rounds
  found := found

/-- Which rounds a climb from a world can have behind it, after a first candidate. -/
inductive Ran (first : Candidate) : List (Round ω Candidate) → Prop where
  | opened : (p.attempt cfg.initialFeature w).outcome = .ok first → Ran first []
  | round {rounds : List (Round ω Candidate)} {found : Candidate} :
    Ran first rounds → Due p cfg first rounds →
    (dueAttempt p cfg w first rounds).outcome = .ok found →
    Ran first (rounds ++ [dueRound p cfg w first rounds found])

/-- With which error a climb from a world fails, and all calls that it has made by then: the last of
them is the attempt that has failed, and every attempt before it has found a candidate. -/
inductive Fails : SearchError → List (Call Candidate) → Prop where
  | atOnce {error : SearchError} : (p.attempt cfg.initialFeature w).outcome = .error error →
    Fails error [.attempt cfg.initialFeature]
  | later {first : Candidate} {rounds : List (Round ω Candidate)} {error : SearchError} :
    Ran p cfg w first rounds → Due p cfg first rounds →
    (dueAttempt p cfg w first rounds).outcome = .error error →
    Fails error (calls p cfg rounds ++ [.attempt (dueFeature p first rounds)])

variable {p cfg w} {first found : Candidate} {rounds : List (Round ω Candidate)}
  {error : SearchError}

theorem isOver_climbAfter : (climbAfter p cfg first rounds).isOver p cfg = false
    ↔ Due p cfg first rounds := by
  have hleft : ∀ limit, (decide (limit ≤ (climbAfter p cfg first rounds).rounds)) = false
      ↔ rounds.length < limit := fun limit => decide_eq_false_iff_not.trans Nat.not_le
  rw [isOver, Bool.or_eq_false_iff, Option.any_eq_false]
  simp only [hleft]
  exact ⟨fun ⟨hunfinished, hwithin⟩ => ⟨hunfinished, hwithin⟩,
    fun ⟨hunfinished, hwithin⟩ => ⟨hunfinished, hwithin⟩⟩

/-- The state after one more round. -/
theorem climbAfter_dueRound :
    climbAfter p cfg first (rounds ++ [dueRound p cfg w first rounds found])
    = if p.improves (currentBest p first rounds) found then
        { best := found
          features := (climbAfter p cfg first rounds).features.push (dueFeature p first rounds)
          rounds := rounds.length + 1 }
      else { climbAfter p cfg first rounds with rounds := rounds.length + 1 } := by
  have haccepted : (dueRound p cfg w first rounds found).accepted p
      = p.improves (currentBest p first rounds) found := rfl
  rw [climbAfter, currentBest_append_singleton, accepted_append, accepted_singleton, haccepted,
    List.length_append]
  by_cases himproves : p.improves (currentBest p first rounds) found
  · simp only [himproves, if_true, climbAfter]
    simp [dueRound, dueFeature, Round.feature]
  · simp [himproves, climbAfter]

/-- The world after one more round. -/
theorem worldAfter_dueRound :
    worldAfter p cfg w (rounds ++ [dueRound p cfg w first rounds found])
    = if p.improves (currentBest p first rounds) found then
        p.display found (dueFeature p first rounds) (dueAttempt p cfg w first rounds).world
      else (dueAttempt p cfg w first rounds).world := by
  have haccepted : (dueRound p cfg w first rounds found).accepted p
      = p.improves (currentBest p first rounds) found := rfl
  rw [worldAfter, calls_append_singleton, performAll_append, Round.calls, haccepted]
  split <;> rfl

/-- A round whose attempt finds a candidate leads to the state and the world after that round. -/
theorem round_climbAfter (hfound : (dueAttempt p cfg w first rounds).outcome = .ok found) :
    let ran := round p (climbAfter p cfg first rounds) (worldAfter p cfg w rounds)
    let more := rounds ++ [dueRound p cfg w first rounds found]
    ran.outcome = .ok (climbAfter p cfg first more) ∧ ran.world = worldAfter p cfg w more := by
  have htried : p.attempt (p.nextFeature (climbAfter p cfg first rounds).best)
      (worldAfter p cfg w rounds) = dueAttempt p cfg w first rounds := rfl
  dsimp only
  rw [climbAfter_dueRound, worldAfter_dueRound]
  simp only [round, htried, hfound]
  by_cases himproves : p.improves (currentBest p first rounds) found
  · simp [judge, climbAfter, himproves, dueFeature]
  · simp [judge, climbAfter, himproves]

/-- A round whose attempt fails has its error, and ends in its world. -/
theorem round_climbAfter_error
    (herror : (dueAttempt p cfg w first rounds).outcome = .error error) :
    let ran := round p (climbAfter p cfg first rounds) (worldAfter p cfg w rounds)
    ran.outcome = .error error ∧ ran.world
      = performAll p w (calls p cfg rounds ++ [.attempt (dueFeature p first rounds)]) := by
  have htried : p.attempt (p.nextFeature (climbAfter p cfg first rounds).best)
      (worldAfter p cfg w rounds) = dueAttempt p cfg w first rounds := rfl
  dsimp only
  rw [performAll_append]
  simp only [round, htried, herror]
  exact ⟨trivial, rfl⟩

/-! ## What holds of the rounds -/

theorem Ran.opens (hran : Ran p cfg w first rounds) :
    (p.attempt cfg.initialFeature w).outcome = .ok first := by
  induction hran with
  | opened hfirst => exact hfirst
  | round _ _ _ ih => exact ih

/-- Every round starts with a best that is not optimal, and finds what its attempt answers. -/
theorem Ran.each (hran : Ran p cfg w first rounds) : ∀ r ∈ rounds,
    p.optimal r.best = false ∧ (p.attempt (r.feature p) r.world).outcome = .ok r.found := by
  induction hran with
  | opened => simp
  | round _ hdue hfound ih =>
    intro r hr
    rcases List.mem_append.1 hr with hr | hr
    · exact ih r hr
    · rw [List.mem_singleton.1 hr]
      exact ⟨hdue.unfinished, hfound⟩

theorem Ran.length_le (hran : Ran p cfg w first rounds) :
    ∀ limit ∈ cfg.maxRounds, rounds.length ≤ limit := by
  cases hran with
  | opened => simp
  | round _ hdue _ =>
    intro limit hlimit
    rw [List.length_append, List.length_singleton]
    exact hdue.within limit hlimit

/-- The rounds that have replaced the best start with the bests but the last, in their order. -/
theorem Ran.starts (hran : Ran p cfg w first rounds) :
    (accepted p rounds).map (·.best) = (bests p first rounds).dropLast := by
  induction hran with
  | opened => rfl
  | @round rounds found _ _ _ ih =>
    have hbests : bests p first (rounds ++ [dueRound p cfg w first rounds found])
        = bests p first rounds
          ++ (accepted p [dueRound p cfg w first rounds found]).map (·.found) := by
      simp [bests]
    rw [accepted_append, List.map_append, ih, hbests, accepted_singleton]
    -- a round that replaces the best starts with the last of the bests, which is now followed
    split
    · rw [List.map_singleton, List.map_singleton, List.dropLast_concat]
      exact List.dropLast_append_getLast? _ (getLast?_bests p first rounds)
    · simp

/-- A round that replaces the best leads from its place among the bests to the next. -/
theorem Ran.climbs (hran : Ran p cfg w first rounds) {i : Nat} {r : Round ω Candidate}
    (hr : (accepted p rounds)[i]? = some r) :
    (bests p first rounds)[i]? = some r.best ∧ (bests p first rounds)[i + 1]? = some r.found
      ∧ (p.attempt (p.nextFeature r.best) r.world).outcome = .ok r.found
      ∧ p.improves r.best r.found = true := by
  obtain ⟨hmem, haccepted⟩ := List.mem_filter.1 (List.mem_of_getElem? hr)
  have hstart : (bests p first rounds).dropLast[i]? = some r.best := by
    rw [← hran.starts, List.getElem?_map, hr]
    rfl
  rw [List.getElem?_dropLast] at hstart
  split at hstart
  · refine ⟨hstart, ?_, (hran.each r hmem).2, haccepted⟩
    rw [bests, List.getElem?_cons_succ, List.getElem?_map, hr]
    rfl
  · exact nomatch hstart

end Runs

end EvolutionarySearch.Climb
