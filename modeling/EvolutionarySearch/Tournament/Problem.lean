import EvolutionarySearch.Tournament.Record

/-!
# Problems of a tournament

A tournament needs no measure of quality, only games: how a member is made, how two are crossed, and
who wins when two meet. A member's rank comes from a key, made from the member and its record. Keys
need only be comparable in part; of two that are not, neither beats the other.
-/

namespace EvolutionarySearch.Tournament

/-- A comparison that may have no answer. -/
class PartialCompare (κ : Type) where
  partialCompare : κ → κ → Option Ordering

/-- Whether the first key is strictly above the second. -/
def beats {κ : Type} [PartialCompare κ] (a b : κ) : Bool :=
  PartialCompare.partialCompare a b == some .gt

/-- A tournament problem over the worlds `ω`. -/
structure Problem (ω Member Key : Type) where
  /-- Makes a member from nothing. -/
  generate : ω → Member × ω
  /-- Breeds a child of two parents, mutation included. -/
  crossover : Member → Member → ω → Member × ω
  /-- Plays a game, the first member moving first. -/
  compete : Member → Member → GameResult
  /-- What a member is ranked by. -/
  key : Member → Record → Key
  /-- Shows a member that has become the best, with its record and the generation. -/
  display : Member → Record → Nat → ω → ω := fun _ _ _ w => w

end EvolutionarySearch.Tournament
