import EvolutionarySearch.Proofs.Search.Mirror
import EvolutionarySearch.Proofs.Search.Session

/-!
# Journals of what is shown

The calls of a problem's display can be seen in a world that keeps a journal of them. Nothing else
may be written there: neither the draws nor the other operators of the problem can tell a journal
from another, so they leave it alone. Every problem can be given a world with a journal.

* `Journal.next`, `Journal.start` — a search itself writes nothing
* `journal_journaled` — a problem with a journal
-/

namespace EvolutionarySearch.Search

variable {ω Gene Fitness : Type}

/-- A log in the world, with an entry for every call of the display of a problem and no other. -/
structure Journal [WordSource ω] (p : Problem ω Gene Fitness)
    (log : ω → List (Chromosome Gene Fitness)) : Prop where
  silent : ∀ entries, Indistinct p fun w w' => w = w' ∧ log w = entries
  written : ∀ c time w, log (p.display c time w) = log w ++ [c]

/-! ## What a search leaves alone -/

/-- A search is its own mirror image. -/
theorem Mirrors.refl (s : Search Gene Fitness) : s.Mirrors id s where
  phase := rfl
  pool := by
    have hid : (Chromosome.graded id : Chromosome Gene Fitness → _) = id := rfl
    rw [hid, Array.map_id]
  best := rfl
  history := by simp [History.graded]
  repertoire := rfl
  cursor := rfl

section Silence

variable [WordSource ω] [Clock ω] {p : Problem ω Gene Fitness}
  {log : ω → List (Chromosome Gene Fitness)} (hlog : Journal p log) (cfg : Config)

include hlog

theorem Journal.start (w : ω) : log (start p cfg w).2 = log w := by
  have hgen := (hlog.silent (log w)).generate id p.display cfg.targetLength (w := w) ⟨rfl, rfl⟩
  unfold Search.start
  split
  · rfl
  · exact hgen.world.2

variable [Ord Fitness]

/-- A step beside itself, in two worlds that are one, leaves the journal as it is. -/
theorem Journal.step (s : Search Gene Fitness) (w : ω) :
    log (step p cfg s w).world = log w :=
  have hmirrors := (Mirrors.refl s).step (fun _ _ => rfl) (hlog.silent (log w)) p.display cfg
    cfg.timeLimit cfg.timeLimit ⟨rfl, rfl⟩ fun _ => rfl
  hmirrors.world.2

theorem Journal.next {steps : Nat} {s : Search Gene Fitness} {w : ω} {pull : Pull ω Gene Fitness}
    (h : next p cfg steps s w = some pull) : log pull.world = log w :=
  next_induction (I := fun _ _ v => log v = log w)
    (fun _ s v hv => (hlog.step cfg s v).trans hv) [] rfl h

end Silence

/-! ## Worlds with a journal -/

/-- A world beside which a journal is kept. -/
structure Journaled (ω Entry : Type) where
  world : ω
  entries : List Entry := []

instance {Entry : Type} [WordSource ω] : WordSource (Journaled ω Entry) where
  next32 w := ((WordSource.next32 w.world).1, { w with world := (WordSource.next32 w.world).2 })
  next64 w := ((WordSource.next64 w.world).1, { w with world := (WordSource.next64 w.world).2 })

instance {Entry : Type} [Clock ω] : Clock (Journaled ω Entry) where
  now w := Clock.now w.world

/-- The problem with a display that also writes into the journal. -/
def Problem.journaled (p : Problem ω Gene Fitness) :
    Problem (Journaled ω (Chromosome Gene Fitness)) Gene Fitness where
  geneSet := p.geneSet
  fitness := p.fitness
  optimal := p.optimal
  create w := ((p.create w.world).1, { w with world := (p.create w.world).2 })
  mutate genes w := ((p.mutate genes w.world).1, { w with world := (p.mutate genes w.world).2 })
  recombines := p.recombines
  crossover parent donor w :=
    ((p.crossover parent donor w.world).1,
      { w with world := (p.crossover parent donor w.world).2 })
  display c time w := ⟨p.display c time w.world, w.entries ++ [c]⟩

theorem journal_journaled [WordSource ω] (p : Problem ω Gene Fitness) :
    Journal p.journaled Journaled.entries where
  silent entries := by
    refine { next32 := ?_, next64 := ?_, create := ?_, mutate := ?_, crossover := ?_ }
    · rintro w _ ⟨rfl, hentries⟩
      exact ⟨rfl, rfl, hentries⟩
    · rintro w _ ⟨rfl, hentries⟩
      exact ⟨rfl, rfl, hentries⟩
    · rintro w _ ⟨rfl, hentries⟩
      exact ⟨rfl, rfl, hentries⟩
    · rintro w _ genes ⟨rfl, hentries⟩
      exact ⟨rfl, rfl, hentries⟩
    · rintro w _ parent donor ⟨rfl, hentries⟩
      exact ⟨rfl, rfl, hentries⟩
  written _ _ _ := rfl

end EvolutionarySearch.Search
