/-!
# Log lines

The engines report what they do as notes in their own terms, collected with the result of a run.
A note becomes text only here: a level and a line.
-/

namespace EvolutionarySearch.Log

/-- How much a line matters. -/
inductive Level where
  | info
  | debug
  | trace
  deriving DecidableEq, Repr

/-- The name of a level. -/
def Level.name : Level → String
  | .info => "INFO"
  | .debug => "DEBUG"
  | .trace => "TRACE"

/-- One line of a log. -/
structure Line where
  level : Level
  text : String
  deriving DecidableEq, Repr

end EvolutionarySearch.Log
