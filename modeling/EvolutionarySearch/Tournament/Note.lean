import EvolutionarySearch.Tournament.Record
import EvolutionarySearch.Log

/-!
# Notes of a tournament

What a tournament reports while it runs, and the line that each note becomes in a log.
-/

namespace EvolutionarySearch.Tournament

/-- Something worth reporting. -/
inductive Note where
  /-- A new champion. -/
  | newChampion (generation : Nat) (record : Record)
  /-- The end of the last generation. -/
  | finished (generations improvements : Nat)
  deriving DecidableEq, Repr

/-- The text of a record, field by field. -/
def Record.text (record : Record) : String :=
  "Record \x7b wins: " ++ toString record.wins ++ ", ties: " ++ toString record.ties
    ++ ", losses: " ++ toString record.losses ++ " \x7d"

/-- The log line of a note. -/
def Note.line : Note → Log.Line
  | .newChampion generation record =>
    ⟨.debug, "generation " ++ toString generation ++ ": new best with record " ++ record.text⟩
  | .finished generations improvements =>
    ⟨.info, "tournament finished after " ++ toString generations ++ " generations, "
      ++ toString improvements ++ " improvements"⟩

end EvolutionarySearch.Tournament
