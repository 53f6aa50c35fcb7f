import EvolutionarySearch.Chromosome
import EvolutionarySearch.Decimal
import EvolutionarySearch.Duration
import EvolutionarySearch.Log

/-!
# Notes of a search

What a search reports while it runs, and the line that each note becomes in a log.
-/

namespace EvolutionarySearch.Search

/-- Something worth reporting. -/
inductive Note (Fitness : Type) where
  /-- A new global best, after the first one. -/
  | newBest (fitness : Fitness) (strategy : Strategy) (elapsed : Duration)
  /-- A donor that its parent could not be told from. -/
  | donorExhausted (slot : Nat)
  /-- A worse child that took its parent's slot. -/
  | acceptedWorse (slot : Nat) (fitness : Fitness) (probability : Float)
  /-- The end by the time limit. -/
  | timeLimitReached (elapsed : Duration) (fitness : Fitness)
  /-- The end by the optimum. -/
  | optimumReached (fitness : Fitness) (improvements : Nat)

/-- The log line of a note. A fitness is written by `describe`. -/
def Note.line {Fitness : Type} (describe : Fitness → String) : Note Fitness → Log.Line
  | .newBest fitness strategy elapsed =>
    ⟨.debug, "new best " ++ describe fitness ++ " via " ++ strategy.name ++ " after "
      ++ Duration.text elapsed⟩
  | .donorExhausted slot =>
    ⟨.trace, "donor " ++ toString slot ++ " exhausted, replacing it with a new candidate"⟩
  | .acceptedWorse slot fitness probability =>
    ⟨.trace, "slot " ++ toString slot ++ ": accepted worse child " ++ describe fitness
      ++ " (p = " ++ Decimal.ofFloat 3 probability ++ ")"⟩
  | .timeLimitReached elapsed fitness =>
    ⟨.info, "time limit reached after " ++ Duration.text elapsed ++ ", best fitness "
      ++ describe fitness⟩
  | .optimumReached fitness improvements =>
    ⟨.info, "reached optimal fitness " ++ describe fitness ++ " after " ++ toString improvements
      ++ " improvements"⟩

end EvolutionarySearch.Search
