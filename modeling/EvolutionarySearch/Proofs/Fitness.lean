import EvolutionarySearch.Chromosome

/-!
# Fitter chromosomes

Chromosomes are compared by their fitness and by nothing else. The fitness is only required to be
totally preordered: two chromosomes may be equally fit and differ.

* `Chromosome.Beats.trans_not_beats`, `Chromosome.not_beats_trans` — the strict order and its
  complement can be chained
-/

namespace EvolutionarySearch

variable {Gene Fitness : Type} [Ord Fitness] {a b c : Chromosome Gene Fitness}

/-- One chromosome is strictly fitter than another. -/
def Chromosome.Beats (a b : Chromosome Gene Fitness) : Prop :=
  compare a.fitness b.fitness = .gt

instance : Decidable (a.Beats b) :=
  inferInstanceAs (Decidable (compare a.fitness b.fitness = .gt))

namespace Chromosome

theorem isGT_iff_beats : (compare a.fitness b.fitness).isGT = true ↔ a.Beats b :=
  Ordering.isGT_iff_eq_gt

theorem not_beats_of_lt (h : compare a.fitness b.fitness = .lt) : ¬a.Beats b := by
  unfold Beats
  rw [h]
  decide

theorem not_beats_of_eq (h : compare a.fitness b.fitness = .eq) : ¬a.Beats b := by
  unfold Beats
  rw [h]
  decide

theorem not_beats_iff_isLE : ¬a.Beats b ↔ (compare a.fitness b.fitness).isLE = true := by
  unfold Beats
  cases compare a.fitness b.fitness <;> decide

variable [Std.TransOrd Fitness]

theorem not_beats_of_fitness_eq (h : a.fitness = b.fitness) : ¬a.Beats b := by
  refine not_beats_of_eq ?_
  rw [h]
  exact Std.ReflOrd.compare_self

theorem not_beats_self (a : Chromosome Gene Fitness) : ¬a.Beats a := not_beats_of_fitness_eq rfl

/-- The loser is not above the winner, also in the other direction of the comparison. -/
theorem Beats.isLE (h : a.Beats b) : (compare b.fitness a.fitness).isLE = true := by
  rw [Std.OrientedCmp.lt_of_gt h]
  rfl

theorem Beats.trans (hab : a.Beats b) (hbc : b.Beats c) : a.Beats c :=
  Std.TransCmp.gt_trans hab hbc

/-- Whoever beats a chromosome beats all that do not. -/
theorem Beats.trans_not_beats (hab : a.Beats b) (hcb : ¬c.Beats b) : a.Beats c := by
  have hle : (compare b.fitness c.fitness).isGE = true :=
    Std.OrientedCmp.isGE_iff_isLE.mpr (not_beats_iff_isLE.mp hcb)
  exact Std.TransCmp.gt_of_gt_of_isGE hab hle

theorem not_beats_trans (hab : ¬a.Beats b) (hbc : ¬b.Beats c) : ¬a.Beats c :=
  fun hac => hbc (by
    have hba : (compare b.fitness a.fitness).isGE = true :=
      Std.OrientedCmp.isGE_iff_isLE.mpr (not_beats_iff_isLE.mp hab)
    exact Std.TransCmp.gt_of_isGE_of_gt hba hac)

theorem Beats.not_beats (hab : a.Beats b) : ¬b.Beats a :=
  fun hba => not_beats_self a (hab.trans hba)

end Chromosome

end EvolutionarySearch
