import EvolutionarySearch.Duration

/-!
# Clocks

Time is read from the state of the world, never from outside, so that elapsed times and deadlines
are functions of the run. Readings count nanoseconds from an origin of the clock's own.
-/

namespace EvolutionarySearch

/-- A state that can tell the time. -/
class Clock (ω : Type) where
  /-- The nanoseconds since the clock's origin. -/
  now : ω → Duration

/-- The time since an earlier reading; zero if the clock has gone back. -/
def Clock.since {ω : Type} [Clock ω] (start : Duration) (w : ω) : Duration := Clock.now w - start

end EvolutionarySearch
