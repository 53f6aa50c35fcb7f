import EvolutionarySearch.Random.Shuffle

/-!
# Gene sets

The legal genes of a problem, and the two operators that need nothing else: sampling a sequence of
genes, and changing one gene of a sequence. Both can be used inside the operators of a problem.

A gene set is an array: a gene may occur in it more than once and is then as many times as likely.

`length_sample` and `length_vary` say how long the results are.
-/

namespace EvolutionarySearch

/-- The legal genes, in order and with repetitions. -/
abbrev GeneSet (Gene : Type) := Array Gene

namespace GeneSet

variable {ω Gene : Type} [WordSource ω]

/-! ## Sampling -/

/--
A number of blocks, each a shuffle of the block before it, one after the other. The first block is a
shuffle of the given one.
-/
def shuffledBlocks : Nat → Array Gene → ω → List Gene × ω
  | 0, _, w => ([], w)
  | blocks + 1, block, w =>
    let shuffled := Random.shuffle block w
    let rest := shuffledBlocks blocks shuffled.1 shuffled.2
    (shuffled.1.toList ++ rest.1, rest.2)

theorem length_shuffledBlocks (blocks : Nat) (block : Array Gene) (w : ω) :
    (shuffledBlocks blocks block w).1.length = blocks * block.size := by
  induction blocks generalizing block w with
  | zero => rw [shuffledBlocks, List.length_nil, Nat.zero_mul]
  | succ blocks ih =>
    have hsize : (Random.shuffle block w).1.size = block.size :=
      (Random.shuffle_perm block w).size_eq
    rw [shuffledBlocks, List.length_append, Array.length_toList, ih, hsize, Nat.succ_mul,
      Nat.add_comm]

/--
Samples a sequence of genes of a given length in shuffled blocks of the gene set, the last one cut
off. So no entry of the gene set is used again before all have been used. An empty gene set gives no
genes.
-/
def sample (geneSet : GeneSet Gene) (length : Nat) (w : ω) : List Gene × ω :=
  if geneSet.isEmpty then ([], w)
  else
    let blocks := (length + geneSet.size - 1) / geneSet.size
    let sampled := shuffledBlocks blocks geneSet w
    (sampled.1.take length, sampled.2)

/-- A gene set that is not empty gives as many genes as were asked for. -/
theorem length_sample {geneSet : GeneSet Gene} (h : 0 < geneSet.size) (length : Nat) (w : ω) :
    (sample geneSet length w).1.length = length := by
  have hempty : ¬geneSet.isEmpty := by
    rw [Array.isEmpty_iff_size_eq_zero]
    omega
  have hmod := Nat.mod_lt (length + geneSet.size - 1) h
  have hsplit := Nat.div_add_mod (length + geneSet.size - 1) geneSet.size
  rw [Nat.mul_comm] at hsplit
  rw [sample, if_neg hempty, List.length_take, length_shuffledBlocks]
  omega

/-! ## Changing one gene -/

variable [BEq Gene]

/--
A gene to stand in the place of `current`: of two distinct entries of the gene set, the first one
unless it equals the current gene. The only entry of a singleton set is taken without a draw.
-/
def replacement (geneSet : GeneSet Gene) (current : Gene) (w : ω) : Gene × ω :=
  if geneSet.size ≤ 1 then (geneSet.getD 0 current, w)
  else
    let picks := Random.pair geneSet.size w
    let gene := geneSet.getD picks.1.1 current
    (if gene == current then geneSet.getD picks.1.2 current else gene, picks.2)

/--
Replaces the gene at a random position by one of the gene set. Nothing is changed, and nothing
drawn, when either is empty.
-/
def vary (geneSet : GeneSet Gene) (genes : List Gene) (w : ω) : List Gene × ω :=
  if geneSet.isEmpty then (genes, w)
  else match genes with
    | [] => ([], w)
    | first :: _ =>
      let position := Random.below genes.length w
      let gene := replacement geneSet (genes.getD position.1 first) position.2
      (genes.set position.1 gene.1, gene.2)

theorem length_vary (geneSet : GeneSet Gene) (genes : List Gene) (w : ω) :
    (vary geneSet genes w).1.length = genes.length := by
  unfold vary
  split
  · rfl
  · split
    · rfl
    · exact List.length_set

end GeneSet

end EvolutionarySearch
