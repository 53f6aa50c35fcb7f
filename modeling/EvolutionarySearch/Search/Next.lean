import EvolutionarySearch.Search.Step

/-!
# The answers of a search

A search is pulled for one answer after the other. A pull takes steps until one gives an answer. A
search need never answer again, so a pull is given the number of steps that it may take, and has no
result if they do not suffice; `next_mono` says that more steps never change a result.
-/

namespace EvolutionarySearch.Search

variable {ω Gene Fitness : Type} [Ord Fitness] [WordSource ω] [Clock ω]

/-- The result of a pull. -/
structure Pull (ω Gene Fitness : Type) where
  /-- The answer, or `none` from a search that has ended. -/
  answer : Option (Except SearchError (Improvement Gene Fitness))
  search : Search Gene Fitness
  world : ω

/-- Pulls the next answer, within a number of steps. -/
def next (p : Problem ω Gene Fitness) (cfg : Config) :
    Nat → Search Gene Fitness → ω → Option (Pull ω Gene Fitness)
  | 0, _, _ => none
  | steps + 1, s, w =>
    let taken := step p cfg s w
    match taken.progress with
    | .pending => next p cfg steps taken.search taken.world
    | .answered answer => some ⟨some answer, taken.search, taken.world⟩
    | .ended => some ⟨none, taken.search, taken.world⟩

/-- More steps leave a result as it is. -/
theorem next_mono {p : Problem ω Gene Fitness} {cfg : Config} {steps more : Nat}
    {s : Search Gene Fitness} {w : ω} {pull : Pull ω Gene Fitness} (hle : steps ≤ more)
    (h : next p cfg steps s w = some pull) : next p cfg more s w = some pull := by
  induction steps generalizing more s w with
  | zero => simp [next] at h
  | succ steps ih =>
    obtain ⟨rest, rfl⟩ : ∃ rest, more = rest + 1 := ⟨more - 1, by omega⟩
    simp only [next] at h ⊢
    cases hprogress : (step p cfg s w).progress with
    | pending =>
      rw [hprogress] at h
      exact ih (by omega) h
    | answered answer => rw [hprogress] at h; exact h
    | ended => rw [hprogress] at h; exact h

end EvolutionarySearch.Search
