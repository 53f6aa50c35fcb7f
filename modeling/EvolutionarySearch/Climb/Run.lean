import EvolutionarySearch.Climb.Basic

/-!
# Climbing

A climb attempts one feature value after the other, each derived from the best candidate so far, and
keeps a candidate only if it improves on the best. It ends when the best is optimal, when the rounds
are used up, or with the first attempt that fails.

A climb need not end: an attempt that answers as before leads back to the same feature value. So a
climb is followed for a number of looks at its state, one before each round, and has no result if it
is not over by then; `pursue_mono` says that more looks never change a result.
-/

namespace EvolutionarySearch.Climb

variable {ω Candidate : Type}

/-- What a climb has found. -/
structure Outcome (Candidate : Type) where
  best : Candidate
  rounds : Nat
  /-- How often the best was replaced. -/
  improvements : Nat
  /-- Whether the best is optimal. -/
  reachedOptimal : Bool
  /-- The feature value of every best, the first included. -/
  features : Array Nat
  deriving DecidableEq, Repr

/-- The result of a climb that is over. -/
def outcome (p : Problem ω Candidate) (c : Climb Candidate) : Outcome Candidate where
  best := c.best
  rounds := c.rounds
  improvements := c.features.size - 1
  reachedOptimal := p.optimal c.best
  features := c.features

/-! ## A round -/

/-- The log line of an improvement. -/
def improvementLine (round feature : Nat) : Log.Line :=
  ⟨.debug, "hill climb round " ++ toString round ++ ": improvement at feature value "
    ++ toString feature⟩

/-- Ends a round with the candidate of its attempt: the best is replaced, and shown, or kept. -/
def judge (p : Problem ω Candidate) (c : Climb Candidate) (feature : Nat) (candidate : Candidate)
    (w : ω) : Attempt ω (Climb Candidate) :=
  let round := c.rounds + 1
  if p.improves c.best candidate then
    { outcome := .ok { best := candidate, features := c.features.push feature, rounds := round }
      log := #[improvementLine round feature]
      world := p.display candidate feature w }
  else { outcome := .ok { c with rounds := round }, world := w }

/-- One round: attempts the next feature value and judges the candidate. -/
def round (p : Problem ω Candidate) (c : Climb Candidate) (w : ω) : Attempt ω (Climb Candidate) :=
  let feature := p.nextFeature c.best
  let tried := p.attempt feature w
  match tried.outcome with
  | .error error => { outcome := .error error, log := tried.log, world := tried.world }
  | .ok candidate =>
    let judged := judge p c feature candidate tried.world
    { judged with log := tried.log ++ judged.log }

/-! ## A run -/

/-- Climbs on until the climb is over, with what was logged before. -/
def pursue (p : Problem ω Candidate) (cfg : Config) :
    Nat → Climb Candidate → Array Log.Line → ω → Option (Attempt ω (Outcome Candidate))
  | 0, _, _, _ => none
  | looks + 1, c, log, w =>
    if c.isOver p cfg then some { outcome := .ok (c.outcome p), log := log, world := w }
    else
      let ran := round p c w
      match ran.outcome with
      | .error error => some { outcome := .error error, log := log ++ ran.log, world := ran.world }
      | .ok c => pursue p cfg looks c (log ++ ran.log) ran.world

/-- More looks leave a result as it is. -/
theorem pursue_mono {p : Problem ω Candidate} {cfg : Config} {looks more : Nat}
    {c : Climb Candidate} {log : Array Log.Line} {w : ω} {ended : Attempt ω (Outcome Candidate)}
    (hle : looks ≤ more) (h : pursue p cfg looks c log w = some ended) :
    pursue p cfg more c log w = some ended := by
  induction looks generalizing more c log w with
  | zero => simp [pursue] at h
  | succ looks ih =>
    obtain ⟨rest, rfl⟩ : ∃ rest, more = rest + 1 := ⟨more - 1, by omega⟩
    rw [pursue] at h ⊢
    split at h
    · next hover => rw [if_pos hover]; exact h
    · next hover =>
      rw [if_neg hover]
      dsimp only at h ⊢
      split at h
      · exact h
      · exact ih (by omega) h

/-- Climbs from the initial feature value, for a number of looks at the state. -/
def run (p : Problem ω Candidate) (cfg : Config) (looks : Nat) (w : ω) :
    Option (Attempt ω (Outcome Candidate)) :=
  let first := p.attempt cfg.initialFeature w
  match first.outcome with
  | .error error => some { outcome := .error error, log := first.log, world := first.world }
  | .ok candidate => pursue p cfg looks (opening cfg.initialFeature candidate) first.log first.world

end EvolutionarySearch.Climb
