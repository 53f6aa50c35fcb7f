import EvolutionarySearch.GeneSet
import EvolutionarySearch.Random.Cycle

/-!
# Sampling in blocks

Genes are sampled block by block. Each pass shuffles the block of the pass before it, in place, and
takes as many genes of it as are still missing. However often that is done, a block is a permutation
of the gene set, so the genes of the set are used up evenly.

`Sampling` is that loop. `GeneSet.sample` counts the blocks beforehand and cuts the last one off.

* `Sampling.run_eq` — the loop and the count of blocks come to the same
* `take_shuffledBlocks` — every block is a permutation of the first one
* `InBlocks.count_bounds` — how often an entry is used in blocks
* `sample_in_blocks` — the loop ends with as many genes as were asked for, in blocks
-/

namespace EvolutionarySearch.GeneSet

variable {ω Gene : Type}

/-! ## The loop -/

section Loop

/-- How far a loop has come that samples genes. -/
structure Sampling (ω Gene : Type) where
  genes : List Gene
  /-- The block that has been shuffled last. -/
  block : Array Gene
  world : ω

/-- Before the first pass. -/
def Sampling.begin (geneSet : GeneSet Gene) (w : ω) : Sampling ω Gene := ⟨[], geneSet, w⟩

variable [WordSource ω] {length : Nat} {sampling : Sampling ω Gene}

/-- One pass: the block is shuffled in place, and gives as many genes as are missing. -/
def Sampling.pass (length : Nat) (sampling : Sampling ω Gene) : Sampling ω Gene :=
  let shuffled := Random.shuffle sampling.block sampling.world
  let missing := length - sampling.genes.length
  { genes := sampling.genes ++ shuffled.1.toList.take (min missing sampling.block.size)
    block := shuffled.1
    world := shuffled.2 }

/-- A number of passes. -/
def Sampling.run (length : Nat) : Nat → Sampling ω Gene → Sampling ω Gene
  | 0, sampling => sampling
  | passes + 1, sampling => run length passes (sampling.pass length)

theorem Sampling.genes_pass (h : sampling.genes.length ≤ length) :
    (sampling.pass length).genes
      = (sampling.genes
          ++ (Random.shuffle sampling.block sampling.world).1.toList).take length := by
  have hsize : (Random.shuffle sampling.block sampling.world).1.toList.length
      = sampling.block.size := by
    rw [Array.length_toList, (Random.shuffle_perm sampling.block sampling.world).size_eq]
  unfold pass
  rw [List.take_append, List.take_of_length_le h, ← hsize]
  dsimp only
  rw [← List.take_take, List.take_length]

omit [WordSource ω] in
/-- What is cut off twice might as well be cut off once. -/
theorem take_take_append (xs ys : List Gene) (n : Nat) :
    (xs.take n ++ ys).take n = (xs ++ ys).take n := by
  have hmissing : n - min n xs.length = n - xs.length := by omega
  rw [List.take_append, List.take_append, List.take_take, Nat.min_self, List.length_take,
    hmissing]

/-- The loop takes the blocks one after the other, and cuts them off at the end. -/
theorem Sampling.run_eq (passes : Nat) {sampling : Sampling ω Gene}
    (h : sampling.genes.length ≤ length) :
    (sampling.run length passes).genes
        = (sampling.genes
            ++ (shuffledBlocks passes sampling.block sampling.world).1).take length ∧
      (sampling.run length passes).world
        = (shuffledBlocks passes sampling.block sampling.world).2 := by
  induction passes generalizing sampling with
  | zero => simp [run, shuffledBlocks, List.take_of_length_le h]
  | succ passes ih =>
    have hpass := genes_pass h
    have hle : (sampling.pass length).genes.length ≤ length := by
      rw [hpass, List.length_take]
      exact Nat.min_le_left _ _
    obtain ⟨hgenes, hworld⟩ := ih hle
    refine ⟨?_, hworld⟩
    rw [run, hgenes, hpass, shuffledBlocks, take_take_append, List.append_assoc]
    rfl

theorem Sampling.run_begin (geneSet : GeneSet Gene) (w : ω) (length passes : Nat) :
    ((begin geneSet w).run length passes).genes
        = (shuffledBlocks passes geneSet w).1.take length ∧
      ((begin geneSet w).run length passes).world = (shuffledBlocks passes geneSet w).2 := by
  have hnone : (begin geneSet w).genes.length ≤ length := Nat.zero_le _
  exact run_eq passes hnone

end Loop

/-! ## Blocks -/

section Blocks

/-- The number of blocks that a length takes, the last one counted in full. -/
def blocks (geneSet : GeneSet Gene) (length : Nat) : Nat :=
  (length + geneSet.size - 1) / geneSet.size

/-- So many blocks are needed and no more. -/
theorem lt_blocks_iff {geneSet : GeneSet Gene} (h : 0 < geneSet.size) (length k : Nat) :
    k < geneSet.blocks length ↔ k * geneSet.size < length := by
  have hle : k + 1 ≤ geneSet.blocks length
      ↔ (k + 1) * geneSet.size ≤ length + geneSet.size - 1 := Nat.le_div_iff_mul_le h
  rw [Nat.add_mul] at hle
  omega

/-- Every block is a permutation of the first one. -/
theorem take_shuffledBlocks [WordSource ω] {blocks k : Nat} (hk : k < blocks)
    (block : Array Gene) (w : ω) :
    (((shuffledBlocks blocks block w).1.drop (k * block.size)).take block.size).Perm
      block.toList := by
  induction blocks generalizing block k w with
  | zero => cases hk
  | succ blocks ih =>
    have hperm := Random.shuffle_perm block w
    have hsize : (Random.shuffle block w).1.toList.length = block.size := by
      rw [Array.length_toList, hperm.size_eq]
    cases k with
    | zero =>
      rw [shuffledBlocks, Nat.zero_mul, List.drop_zero, List.take_left' hsize]
      exact hperm.toList
    | succ k =>
      -- the rest are blocks that begin with the one that was shuffled last
      have hrest := ih (Nat.lt_of_succ_lt_succ hk) (Random.shuffle block w).1
        (Random.shuffle block w).2
      rw [hperm.size_eq] at hrest
      rw [shuffledBlocks, Nat.succ_mul, Nat.add_comm, ← List.drop_drop, List.drop_left' hsize]
      exact hrest.trans hperm.toList

/-- Genes in blocks that are permutations of the gene set, the last one cut off. -/
structure InBlocks (geneSet : GeneSet Gene) (genes : List Gene) : Prop where
  full : ∀ k, (k + 1) * geneSet.size ≤ genes.length →
    ((genes.drop (k * geneSet.size)).take geneSet.size).Perm geneSet.toList
  /-- What is left after the full blocks is the beginning of a block. -/
  rest : ∃ block : List Gene, block.Perm geneSet.toList ∧
    genes.drop (genes.length / geneSet.size * geneSet.size) <+: block

variable {geneSet : GeneSet Gene} {genes : List Gene}

theorem sample_eq [WordSource ω] (h : 0 < geneSet.size) (length : Nat) (w : ω) :
    sample geneSet length w = ((shuffledBlocks (geneSet.blocks length) geneSet w).1.take length,
      (shuffledBlocks (geneSet.blocks length) geneSet w).2) := by
  have hempty : ¬geneSet.isEmpty := by
    rw [Array.isEmpty_iff_size_eq_zero]
    omega
  rw [sample, if_neg hempty]
  rfl

theorem inBlocks_sample [WordSource ω] (h : 0 < geneSet.size) (length : Nat) (w : ω) :
    InBlocks geneSet (sample geneSet length w).1 := by
  have hlength := length_sample h length w
  constructor
  · intro k hk
    rw [hlength, Nat.add_mul] at hk
    have hneeded := (lt_blocks_iff h length k).mpr (by omega)
    rw [sample_eq h, List.drop_take, List.take_take, Nat.min_eq_left (by omega)]
    exact take_shuffledBlocks hneeded geneSet w
  · rw [hlength, sample_eq h, List.drop_take]
    have hsplit := Nat.div_add_mod length geneSet.size
    have hmod := Nat.mod_lt length h
    rw [Nat.mul_comm] at hsplit
    by_cases hexact : length % geneSet.size = 0
    · refine ⟨geneSet.toList, List.Perm.refl _, ?_⟩
      have hnone : length - length / geneSet.size * geneSet.size = 0 := by omega
      rw [hnone, List.take_zero]
      exact List.nil_prefix
    · have hneeded := (lt_blocks_iff h length (length / geneSet.size)).mpr (by omega)
      refine ⟨_, take_shuffledBlocks hneeded geneSet w, ?_⟩
      exact List.take_prefix_take_left (by omega)

/-! ## How often an entry is used -/

theorem InBlocks.count_take [BEq Gene] (h : InBlocks geneSet genes) (gene : Gene) {k : Nat}
    (hk : k * geneSet.size ≤ genes.length) :
    (genes.take (k * geneSet.size)).count gene = k * geneSet.count gene := by
  induction k with
  | zero => simp
  | succ k ih =>
    have hblock := (h.full k hk).count_eq gene
    rw [Nat.add_mul] at hk
    have hearlier := ih (by omega)
    rw [Nat.add_mul, Nat.one_mul, List.take_add, List.count_append, hearlier, hblock,
      Array.count_toList, Nat.succ_mul]

/-- An entry is used once in every full block for each of its places, and once more at most. -/
theorem InBlocks.count_bounds [BEq Gene] (h : InBlocks geneSet genes) (hpos : 0 < geneSet.size)
    (gene : Gene) :
    geneSet.count gene * (genes.length / geneSet.size) ≤ genes.count gene ∧
      genes.count gene ≤ geneSet.count gene * geneSet.blocks genes.length := by
  obtain ⟨block, hblock, hrest⟩ := h.rest
  have hsplit := Nat.div_add_mod genes.length geneSet.size
  rw [Nat.mul_comm] at hsplit
  have hfull : (genes.take (genes.length / geneSet.size * geneSet.size)).count gene
      = genes.length / geneSet.size * geneSet.count gene := h.count_take gene (by omega)
  have hcount : genes.count gene = genes.length / geneSet.size * geneSet.count gene
      + (genes.drop (genes.length / geneSet.size * geneSet.size)).count gene := by
    rw [← hfull, ← List.count_append, List.take_append_drop]
  rw [Nat.mul_comm, Nat.mul_comm (geneSet.count gene), hcount]
  refine ⟨Nat.le_add_right _ _, ?_⟩
  by_cases hexact : genes.length % geneSet.size = 0
  · -- there is no block that is cut off
    have hnone : genes.drop (genes.length / geneSet.size * geneSet.size) = [] :=
      List.drop_of_length_le (by omega)
    rw [hnone, List.count_nil, Nat.add_zero]
    exact Nat.mul_le_mul_right _ (Nat.div_le_div_right (by omega))
  · have hlast : (genes.drop (genes.length / geneSet.size * geneSet.size)).count gene
        ≤ geneSet.count gene := by
      rw [← Array.count_toList, ← hblock.count_eq gene]
      exact hrest.sublist.count_le gene
    have hone := (lt_blocks_iff hpos genes.length (genes.length / geneSet.size)).mpr (by omega)
    calc _ ≤ (genes.length / geneSet.size + 1) * geneSet.count gene := by
          rw [Nat.succ_mul]
          exact Nat.add_le_add_left hlast _
      _ ≤ _ := Nat.mul_le_mul_right _ hone

end Blocks

/--
**Genes are sampled in blocks.** A gene set is not empty, and may hold a gene more than once. The
loop that shuffles a block in place, and takes what is missing, goes on for as many passes as the
length takes blocks, and no longer. What it has then is what is sampled: as many genes as were asked
for. Every full block of them is a permutation of the gene set, and what is left is the beginning of
one. So a gene is used once in every full block for each of its entries, and once more at most.
-/
theorem sample_in_blocks [WordSource ω] {geneSet : GeneSet Gene} (h : 0 < geneSet.size)
    (length : Nat) (w : ω) :
    (∀ passes, ((Sampling.begin geneSet w).run length passes).genes.length < length ↔
        passes < geneSet.blocks length) ∧
      ((Sampling.begin geneSet w).run length (geneSet.blocks length)).genes
        = (sample geneSet length w).1 ∧
      ((Sampling.begin geneSet w).run length (geneSet.blocks length)).world
        = (sample geneSet length w).2 ∧
      (sample geneSet length w).1.length = length ∧
      InBlocks geneSet (sample geneSet length w).1 ∧
      ∀ [BEq Gene] (gene : Gene),
        geneSet.count gene * (length / geneSet.size) ≤ (sample geneSet length w).1.count gene ∧
          (sample geneSet length w).1.count gene
            ≤ geneSet.count gene * geneSet.blocks length := by
  have hlength := length_sample h length w
  have hblocks := inBlocks_sample h length w
  have hrun := Sampling.run_begin geneSet w length
  refine ⟨fun passes => ?_, ?_, ?_, hlength, hblocks, fun gene => ?_⟩
  · rw [(hrun passes).1, lt_blocks_iff h, List.length_take, length_shuffledBlocks]
    omega
  · rw [(hrun _).1, sample_eq h]
  · rw [(hrun _).2, sample_eq h]
  · have hbounds := hblocks.count_bounds h gene
    rwa [hlength] at hbounds

/-- A source of three words. -/
def threeWords : Random.Cycle := ⟨[0x40000012, 0x4000001B, 0x40000009], []⟩

/--
From two entries for 1 and one for 2 seven genes are sampled: two blocks and the beginning of a
third. So 1 is used as seldom as it can be, and 2 as often.
-/
theorem sample_in_blocks_sevenGenes :
    0 < #[1, 1, 2].size ∧ (sample #[1, 1, 2] 7 threeWords).1 = [1, 2, 1, 1, 1, 2, 2] ∧
      InBlocks #[1, 1, 2] (sample #[1, 1, 2] 7 threeWords).1 ∧
      2 * (7 / 3) ≤ (sample #[1, 1, 2] 7 threeWords).1.count 1 ∧
      (sample #[1, 1, 2] 7 threeWords).1.count 2 ≤ 1 * blocks #[1, 1, 2] 7 := by
  obtain ⟨-, -, -, -, hblocks, hcount⟩ :=
    sample_in_blocks (show 0 < #[1, 1, 2].size by decide) 7 threeWords
  exact ⟨by decide, rfl, hblocks, (hcount 1).1, (hcount 2).2⟩

end EvolutionarySearch.GeneSet
