import EvolutionarySearch.Proofs.Random.Attained
import EvolutionarySearch.Proofs.Search.GeneSpace
import Mathlib.Data.List.NodupEquivFin

/-!
# When changing one gene changes anything

Of two entries of the gene set one is meant to be another gene than the current one. The entries are
drawn from two distinct places, which does not make them distinct genes: an entry that occurs twice
may be drawn twice, and nothing has changed if it is the current gene.

* `replacement_eq_self_iff` — a gene is kept if and only if both entries are that gene
* `vary_eq_self_iff` — which draws change nothing
* `vary_ne_self`, `exists_vary_eq_self` — a gene with one entry is changed whatever the source, and
  a gene with two is not changed from some source
-/

namespace EvolutionarySearch.GeneSet

variable {ω Gene : Type} [BEq Gene] [LawfulBEq Gene] {geneSet : GeneSet Gene}
  {genes : List Gene} {current : Gene}

/-! ## Two distinct genes -/

omit [BEq Gene] [LawfulBEq Gene] in
/-- Two distinct genes are two entries at least. -/
theorem two_le_size {a b : Gene} (ha : a ∈ geneSet) (hb : b ∈ geneSet) (hne : a ≠ b) :
    2 ≤ geneSet.size := by
  obtain ⟨i, hi, rfl⟩ := Array.mem_iff_getElem.mp ha
  obtain ⟨j, hj, rfl⟩ := Array.mem_iff_getElem.mp hb
  have hplaces : i ≠ j := fun h => hne (by subst h; rfl)
  omega

/-! ## What is kept -/

section Kept

variable [WordSource ω] {w : ω}

theorem replacement_eq_self_iff (h : 2 ≤ geneSet.size) :
    (replacement geneSet current w).1 = current ↔
      geneSet[(Random.pair geneSet.size w).1.1]? = some current ∧
        geneSet[(Random.pair geneSet.size w).1.2]? = some current := by
  obtain ⟨hfirst, hsecond⟩ := Random.pair_lt h w
  unfold replacement
  rw [if_neg (by omega)]
  dsimp only
  rw [Array.getD_eq_getD_getElem?, Array.getD_eq_getD_getElem?, Array.getElem?_eq_getElem hfirst,
    Array.getElem?_eq_getElem hsecond, Option.getD_some, Option.getD_some, Option.some.injEq,
    Option.some.injEq]
  split
  · next hsame => exact (and_iff_right (eq_of_beq hsame)).symm
  · next hother =>
    have hne : geneSet[(Random.pair geneSet.size w).1.1] ≠ current :=
      fun hsame => hother (beq_iff_eq.mpr hsame)
    exact ⟨fun hsame => absurd hsame hne, fun hsame => absurd hsame.1 hne⟩

omit [BEq Gene] [LawfulBEq Gene] in
theorem set_eq_self_iff {i : Nat} (hcurrent : genes[i]? = some current) (gene : Gene) :
    genes.set i gene = genes ↔ gene = current := by
  obtain ⟨hi, rfl⟩ := List.getElem?_eq_some_iff.mp hcurrent
  constructor
  · intro hsame
    have hgene : (genes.set i gene)[i]? = genes[i]? := by rw [hsame]
    rw [List.getElem?_set_self hi, List.getElem?_eq_getElem hi] at hgene
    exact Option.some.inj hgene
  · rintro rfl
    exact List.set_getElem_self hi

/-- Nothing is changed by draws that find the current gene twice. -/
theorem vary_eq_self_iff (h : 2 ≤ geneSet.size)
    (hcurrent : genes[(Random.below genes.length w).1]? = some current) :
    (vary geneSet genes w).1 = genes ↔
      geneSet[(Random.pair geneSet.size (Random.below genes.length w).2).1.1]? = some current ∧
        geneSet[(Random.pair geneSet.size (Random.below genes.length w).2).1.2]?
          = some current := by
  rw [vary_of_drawn (by omega) hcurrent, set_eq_self_iff hcurrent, replacement_eq_self_iff h]

end Kept

/-! ## Entries that occur twice -/

omit [BEq Gene] [LawfulBEq Gene] in
/-- A gene has two entries if and only if it is found in two places. -/
theorem duplicate_iff {gene : Gene} :
    geneSet.toList.Duplicate gene ↔
      ∃ i j : Nat, i ≠ j ∧ geneSet[i]? = some gene ∧ geneSet[j]? = some gene := by
  rw [List.duplicate_iff_exists_distinct_get]
  constructor
  · rintro ⟨i, j, hij, hi, hj⟩
    have hplaces : (i : Nat) ≠ j := by omega
    refine ⟨i, j, hplaces, ?_, ?_⟩
    · rw [hi, ← Array.getElem?_toList, List.getElem?_eq_getElem i.isLt, List.get_eq_getElem]
    · rw [hj, ← Array.getElem?_toList, List.getElem?_eq_getElem j.isLt, List.get_eq_getElem]
  · rintro ⟨i, j, hne, hi, hj⟩
    rw [← Array.getElem?_toList] at hi hj
    obtain ⟨hi, hgene⟩ := List.getElem?_eq_some_iff.mp hi
    obtain ⟨hj, hsame⟩ := List.getElem?_eq_some_iff.mp hj
    rcases Nat.lt_or_gt_of_ne hne with hlt | hlt
    · exact ⟨⟨i, hi⟩, ⟨j, hj⟩, hlt, hgene.symm, hsame.symm⟩
    · exact ⟨⟨j, hj⟩, ⟨i, hi⟩, hlt, hsame.symm, hgene.symm⟩

theorem vary_ne_self [WordSource ω] {w : ω} (h : 2 ≤ geneSet.size) (hgenes : genes ≠ [])
    (hsingle : ∀ gene ∈ genes, ¬geneSet.toList.Duplicate gene) :
    (vary geneSet genes w).1 ≠ genes := by
  intro hsame
  have hposition := Random.below_lt (List.length_pos_iff.mpr hgenes) w
  obtain ⟨hfirst, hsecond⟩ :=
    (vary_eq_self_iff h (List.getElem?_eq_getElem hposition)).mp hsame
  refine hsingle _ (List.getElem_mem hposition) (duplicate_iff.mpr ⟨_, _, ?_, hfirst, hsecond⟩)
  exact Random.pair_distinct h _

/-- A gene with two entries is replaced by itself, from some source. -/
theorem exists_vary_eq_self {gene : Gene} (h : 2 ≤ geneSet.size)
    (hset : geneSet.size ≤ UInt32.size) (hlength : genes.length ≤ UInt64.size)
    (hmem : gene ∈ genes) (htwice : geneSet.toList.Duplicate gene) :
    ∃ w : Random.Cycle, (vary geneSet genes w).1 = genes := by
  obtain ⟨position, hposition, rfl⟩ := List.getElem_of_mem hmem
  obtain ⟨i, j, hne, hi, hj⟩ := duplicate_iff.mp htwice
  obtain ⟨hilt, -⟩ := Array.getElem?_eq_some_iff.mp hi
  obtain ⟨hjlt, -⟩ := Array.getElem?_eq_some_iff.mp hj
  obtain ⟨first, hfirst⟩ := Random.attains_below hlength hposition
  obtain ⟨second, hsecond⟩ := Random.attains_pair hset hilt hjlt hne
  have hpair := hsecond [] []
  rw [List.append_nil] at hpair
  have hcurrent : genes[(Random.below genes.length
      (⟨[], first ++ second⟩ : Random.Cycle)).1]? = some genes[position] := by
    rw [hfirst]
    exact List.getElem?_eq_getElem hposition
  refine ⟨_, (vary_eq_self_iff h hcurrent).mpr ?_⟩
  rw [hfirst, hpair]
  exact ⟨hi, hj⟩

/--
**A gene that has one entry is always changed, and one that has two is not.** Some genes are to be
varied, by a gene set that holds two distinct genes at least. They are left as they are by exactly
the draws that find the current gene twice. That never happens, whatever the source, if no gene of
the sequence has two entries in the gene set. If one has, it happens from some source.
-/
theorem vary_changes (hgenes : genes ≠ []) {a b : Gene} (ha : a ∈ geneSet) (hb : b ∈ geneSet)
    (hne : a ≠ b) :
    (∀ (ω : Type) [WordSource ω] (w : ω), ∃ current,
      genes[(Random.below genes.length w).1]? = some current ∧
        ((vary geneSet genes w).1 = genes ↔
          geneSet[(Random.pair geneSet.size (Random.below genes.length w).2).1.1]? = some current ∧
            geneSet[(Random.pair geneSet.size (Random.below genes.length w).2).1.2]?
              = some current)) ∧
    ((∀ gene ∈ genes, ¬geneSet.toList.Duplicate gene) →
      ∀ (ω : Type) [WordSource ω] (w : ω), (vary geneSet genes w).1 ≠ genes) ∧
    (geneSet.size ≤ UInt32.size → genes.length ≤ UInt64.size →
      ∀ gene ∈ genes, geneSet.toList.Duplicate gene →
        ∃ w : Random.Cycle, (vary geneSet genes w).1 = genes) := by
  have hsize := two_le_size ha hb hne
  refine ⟨?_, fun hsingle ω _ w => vary_ne_self hsize hgenes hsingle,
    fun hset hlength gene hmem htwice => exists_vary_eq_self hsize hset hlength hmem htwice⟩
  intro ω _ w
  have hcurrent := List.getElem?_eq_getElem (Random.below_lt (List.length_pos_iff.mpr hgenes) w)
  exact ⟨_, hcurrent, vary_eq_self_iff hsize hcurrent⟩

/-- A source from which the first two of three entries are drawn. -/
def firstTwo : Random.Cycle := ⟨[0x60000000], []⟩

/-- The gene set holds 1 and 2, but 1 twice, and 1 is replaced by 1. That cannot happen to 2. -/
theorem vary_changes_repeatedEntry :
    1 ∈ #[1, 1, 2] ∧ 2 ∈ #[1, 1, 2] ∧ 1 ≠ 2 ∧ (vary #[1, 1, 2] [1] firstTwo).1 = [1] ∧
      (∃ w : Random.Cycle, (vary #[1, 1, 2] [1] w).1 = [1]) ∧
      ∀ (ω : Type) [WordSource ω] (w : ω), (vary #[1, 1, 2] [2] w).1 ≠ [2] := by
  have hone : 1 ∈ #[1, 1, 2] := by simp
  have htwo : 2 ∈ #[1, 1, 2] := by simp
  have hne : 1 ≠ 2 := by decide
  have honly : ¬(#[1, 1, 2].toList).Duplicate 2 := by
    rw [List.duplicate_iff_two_le_count]
    decide
  refine ⟨hone, htwo, hne, rfl, ?_, ?_⟩
  · exact (vary_changes (by decide) hone htwo hne).2.2 (by decide) (by decide) 1 (by decide)
      (.cons_mem (by decide))
  · refine (vary_changes (by decide) hone htwo hne).2.1 fun gene hgene => ?_
    rwa [List.mem_singleton.mp hgene]

end EvolutionarySearch.GeneSet
