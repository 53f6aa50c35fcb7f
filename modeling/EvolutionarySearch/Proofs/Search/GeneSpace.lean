import EvolutionarySearch.Proofs.Search.Population
import Mathlib.Data.List.Nodup

/-!
# The space that is searched

A problem without operators of its own samples its candidates from the gene set, and changes one
gene at a time. So it should never leave the sequences of the right length over the gene set, and a
child should be a neighbour of its parent. Nor does it help to ask for recombination: no two parents
can be combined, and a refill and a mutation stand in for the child.

* `mem_sample`, `vary_eq_set` — where the genes of the two operators come from
* `replacement_ne` — a gene is replaced by another one if the entries of the gene set are distinct
* `inherited_within` — the space is closed under the operators
* `search_confined` — a search stays in its space, and its mutations are neighbours of their parents
-/

namespace EvolutionarySearch

variable {ω Gene Fitness : Type}

/-! ## Sampling -/

namespace GeneSet

section Sampling

variable [WordSource ω] {geneSet : GeneSet Gene} {gene : Gene}

theorem mem_of_mem_shuffledBlocks {blocks : Nat} {block : Array Gene} {w : ω}
    (h : gene ∈ (shuffledBlocks blocks block w).1) : gene ∈ block := by
  induction blocks generalizing block w with
  | zero => cases h
  | succ blocks ih =>
    have hshuffled : ∀ {gene : Gene}, gene ∈ (Random.shuffle block w).1 → gene ∈ block :=
      (Random.shuffle_perm block w).mem_iff.mp
    rcases List.mem_append.mp h with h | h
    · exact hshuffled (Array.mem_toList_iff.mp h)
    · exact hshuffled (ih h)

theorem mem_sample {length : Nat} {w : ω} (h : gene ∈ (sample geneSet length w).1) :
    gene ∈ geneSet := by
  unfold sample at h
  split at h
  · cases h
  · exact mem_of_mem_shuffledBlocks (List.mem_of_mem_take h)

end Sampling

/-! ## Changing one gene -/

section Changing

variable [WordSource ω] [BEq Gene] {geneSet : GeneSet Gene}

/-- A replacement is one of two entries, the second one only if the first is the current gene. -/
theorem replacement_eq (h : 2 ≤ geneSet.size) (current : Gene) (w : ω) :
    ∃ (i j : Nat) (hi : i < geneSet.size) (hj : j < geneSet.size), i ≠ j ∧
      (replacement geneSet current w).1
        = if geneSet[i] == current then geneSet[j] else geneSet[i] := by
  obtain ⟨hfirst, hsecond⟩ := Random.pair_lt h w
  refine ⟨_, _, hfirst, hsecond, Random.pair_distinct h w, ?_⟩
  unfold replacement
  rw [if_neg (by omega)]
  simp only [Array.getD_eq_getD_getElem?, Array.getElem?_eq_getElem hfirst,
    Array.getElem?_eq_getElem hsecond, Option.getD_some]

theorem replacement_mem (h : 0 < geneSet.size) (current : Gene) (w : ω) :
    (replacement geneSet current w).1 ∈ geneSet := by
  by_cases hsingle : geneSet.size ≤ 1
  · unfold replacement
    rw [if_pos hsingle, Array.getD_eq_getD_getElem?, Array.getElem?_eq_getElem h]
    exact Array.getElem_mem h
  · obtain ⟨i, j, hi, hj, -, hgene⟩ := replacement_eq (Nat.lt_of_not_le hsingle) current w
    rw [hgene]
    split
    · exact Array.getElem_mem hj
    · exact Array.getElem_mem hi

/-- Of two distinct entries one at least is another gene than the current one. -/
theorem replacement_ne [LawfulBEq Gene] (h : 2 ≤ geneSet.size) (hdistinct : geneSet.toList.Nodup)
    (current : Gene) (w : ω) : (replacement geneSet current w).1 ≠ current := by
  obtain ⟨i, j, hi, hj, hne, hgene⟩ := replacement_eq h current w
  rw [hgene]
  split
  · next heq =>
    rw [← eq_of_beq heq]
    intro hsame
    rw [← Array.getElem_toList, ← Array.getElem_toList] at hsame
    exact hne (hdistinct.getElem_inj_iff.mp hsame).symm
  · next hother => exact fun hsame => hother (beq_iff_eq.mpr hsame)

/-- The gene at the position that is drawn is replaced, and no other. -/
theorem vary_of_drawn (hset : 0 < geneSet.size) {genes : List Gene} {current : Gene} {w : ω}
    (hcurrent : genes[(Random.below genes.length w).1]? = some current) :
    (vary geneSet genes w).1 = genes.set (Random.below genes.length w).1
      (replacement geneSet current (Random.below genes.length w).2).1 := by
  have hempty : ¬geneSet.isEmpty := by
    rw [Array.isEmpty_iff_size_eq_zero]
    omega
  cases genes with
  | nil => cases hcurrent
  | cons first rest =>
    unfold vary
    rw [if_neg hempty]
    dsimp only
    rw [List.getD_eq_getElem?_getD, hcurrent, Option.getD_some]

/-- One gene at most is replaced, by an entry of the gene set. -/
theorem vary_eq_set (hset : 0 < geneSet.size) {genes : List Gene} (hgenes : 0 < genes.length)
    (w : ω) : ∃ (i : Nat) (v : ω) (h : i < genes.length),
      (vary geneSet genes w).1 = genes.set i (replacement geneSet genes[i] v).1 :=
  have hposition := Random.below_lt hgenes w
  ⟨_, _, hposition, vary_of_drawn hset (List.getElem?_eq_getElem hposition)⟩

end Changing

end GeneSet

/-! ## Neighbours -/

/-- The number of positions at which two sequences of genes differ. -/
def distance [BEq Gene] (genes genes' : List Gene) : Nat :=
  (genes.zip genes').countP fun pair => pair.1 != pair.2

section Distance

variable [BEq Gene] [LawfulBEq Gene]

@[simp] theorem distance_self (genes : List Gene) : distance genes genes = 0 := by
  unfold distance
  induction genes with
  | nil => rfl
  | cons first rest ih => simp [ih]

theorem distance_set {genes : List Gene} {i : Nat} (h : i < genes.length) (gene : Gene) :
    distance genes (genes.set i gene) = if genes[i] == gene then 0 else 1 := by
  induction genes generalizing i with
  | nil => cases h
  | cons first rest ih =>
    cases i with
    | zero =>
      have hrest := distance_self rest
      unfold distance at hrest ⊢
      by_cases heq : first = gene <;> simp [hrest, heq]
    | succ i =>
      have hrest := ih (Nat.lt_of_succ_lt_succ h)
      unfold distance at hrest ⊢
      simpa using hrest

end Distance

namespace Search

/-! ## Problems without operators of their own -/

variable [WordSource ω] [BEq Gene] {p : Problem ω Gene Fitness}

/-- A problem leaves all operators to the engine. It may ask for recombination. -/
structure Problem.Plain (p : Problem ω Gene Fitness) : Prop where
  create : ∀ w, p.create w = (none, w)
  mutate : ∀ genes w, p.mutate genes w = GeneSet.vary p.geneSet genes w
  crossover : ∀ parent donor w, p.crossover parent donor w = (none, w)

/-- The genes of a chromosome are of the gene set, and as many as there should be. -/
structure Problem.Within (p : Problem ω Gene Fitness) (length : Nat)
    (c : Chromosome Gene Fitness) : Prop where
  length : c.genes.length = length
  mem : ∀ gene ∈ c.genes, gene ∈ p.geneSet

section Candidates

variable [Clock ω] {length : Nat}

/-- There are a gene set and a length if a candidate can be sampled, and it is sampled from them. -/
theorem generate_within (hp : p.Plain) {w : ω} {candidate : Evaluation Gene Fitness}
    (hgen : (p.generate length w).1 = .ok candidate) :
    (0 < p.geneSet.size ∧ 0 < length) ∧ p.Within length candidate.chromosome := by
  unfold Problem.generate at hgen
  rw [hp.create w] at hgen
  dsimp only at hgen
  split at hgen
  · cases hgen
  · next hset =>
    split at hgen
    · cases hgen
    · next hlength =>
      have hsize : 0 < p.geneSet.size := by
        rw [Array.isEmpty_iff_size_eq_zero] at hset
        omega
      cases hgen
      exact ⟨⟨hsize, Nat.pos_of_ne_zero hlength⟩, GeneSet.length_sample hsize length w,
        fun gene hmem => GeneSet.mem_sample hmem⟩

omit [Clock ω] in
theorem vary_within (hset : 0 < p.geneSet.size) (hlength : 0 < length)
    {parent c : Chromosome Gene Fitness} (hparent : p.Within length parent) {w : ω}
    (hc : c.genes = (GeneSet.vary p.geneSet parent.genes w).1) : p.Within length c := by
  have hgenes : 0 < parent.genes.length := by rw [hparent.length]; exact hlength
  refine ⟨?_, ?_⟩
  · rw [hc, GeneSet.length_vary, hparent.length]
  · obtain ⟨i, v, hi, hvary⟩ := GeneSet.vary_eq_set hset hgenes w
    rw [hc, hvary]
    intro gene hmem
    rcases List.mem_or_eq_of_mem_set hmem with hmem | rfl
    · exact hparent.mem gene hmem
    · exact GeneSet.replacement_mem hset _ v

/-- The space is closed under the operators. -/
theorem inherited_within (hp : p.Plain) (hset : 0 < p.geneSet.size) (hlength : 0 < length) :
    Inherited p length (p.Within length) where
  ageless _ := ⟨fun h => ⟨h.length, h.mem⟩, fun h => ⟨h.length, h.mem⟩⟩
  created _ _ hgen := (generate_within hp hgen).2
  bred parent c hparent hbred := by
    have hmakes := hbred.makes
    generalize hgenes : c.genes = genes at hmakes
    generalize c.strategy = strategy at hmakes
    cases hmakes with
    | create hgen =>
      have hcreated := (generate_within hp hgen).2
      exact ⟨by rw [hgenes, hcreated.length], by rw [hgenes]; exact hcreated.mem⟩
    | mutate v =>
      rw [hp.mutate] at hgenes
      exact vary_within hset hlength hparent hgenes
    | crossover hcross =>
      rw [hp.crossover] at hcross
      cases hcross

/-- A mutation is a neighbour of its parent, and another chromosome if there are other genes. -/
theorem bred_near [LawfulBEq Gene] (hp : p.Plain) (hset : 0 < p.geneSet.size)
    (hlength : 0 < length) {parent c : Chromosome Gene Fitness} (hparent : p.Within length parent)
    (hbred : p.Bred length parent.genes c) (hmutate : c.strategy = .mutate) :
    distance parent.genes c.genes ≤ 1 ∧
      (2 ≤ p.geneSet.size → p.geneSet.toList.Nodup → distance parent.genes c.genes = 1) := by
  have hgenes : 0 < parent.genes.length := by rw [hparent.length]; exact hlength
  obtain ⟨w, hc⟩ : ∃ w, c.genes = (GeneSet.vary p.geneSet parent.genes w).1 := by
    have hmakes := hbred.makes
    rw [hmutate] at hmakes
    generalize c.genes = genes at hmakes
    cases hmakes with
    | mutate v => exact ⟨v, congrArg Prod.fst (hp.mutate parent.genes v)⟩
  obtain ⟨i, v, hi, hvary⟩ := GeneSet.vary_eq_set hset hgenes w
  rw [hc, hvary, distance_set hi]
  refine ⟨?_, fun hsize hdistinct => if_neg ?_⟩
  · split <;> omega
  · intro hsame
    exact GeneSet.replacement_ne hsize hdistinct parent.genes[i] v (eq_of_beq hsame).symm

end Candidates

/-! ## Searches -/

variable [Ord Fitness] [Clock ω] {cfg : Config} {s : Search Gene Fitness} {w v : ω}
  {changes : List (ω → ω)}

/-- What is to be said of a search in the space of a gene set. -/
structure Confined (p : Problem ω Gene Fitness) (cfg : Config) (opened : Search Gene Fitness)
    (strides : List (Stride ω Gene Fitness)) : Prop where
  /-- All that is held or shown is in the space. -/
  within : Throughout (p.Within cfg.targetLength) opened strides
  /-- So is every candidate, also one that is dropped at once. -/
  evaluated : ∀ stride ∈ strides, ∀ candidate ∈ stride.taken.evaluated,
    p.Within cfg.targetLength candidate.chromosome
  /-- A mutation differs from its parent in one place at most. -/
  near : ∀ stride ∈ strides, ∀ candidate ∈ stride.taken.evaluated,
    candidate.chromosome.strategy = .mutate →
      distance stride.before.visited.genes candidate.chromosome.genes ≤ 1
  /-- It differs in one place if the gene set has several entries, and no two of them equal. -/
  other : 2 ≤ p.geneSet.size → p.geneSet.toList.Nodup → ∀ stride ∈ strides,
    ∀ candidate ∈ stride.taken.evaluated, candidate.chromosome.strategy = .mutate →
      distance stride.before.visited.genes candidate.chromosome.genes = 1

theorem confined_of_walk [LawfulBEq Gene] (hp : p.Plain) (hstart : start p cfg w = (.ok s, v)) :
    Confined p cfg s (walk p cfg changes s v) := by
  obtain ⟨-, first, hgen, -⟩ := start_eq_ok hstart
  obtain ⟨⟨hset, hlength⟩, -⟩ := generate_within (w := w) hp (by rw [hgen])
  have hinherited := inherited_within hp hset hlength
  have hwithin : Throughout (p.Within cfg.targetLength) s (walk p cfg changes s v) :=
    throughout_of_walk hinherited hstart
  have hparent := fun stride hstride => (hwithin.before stride hstride).visited
  have hnear := fun stride hstride candidate hcandidate =>
    bred_near hp hset hlength (hparent stride hstride)
      (bred_of_walk stride hstride candidate hcandidate)
  refine ⟨hwithin, ?_, ?_, ?_⟩
  · intro stride hstride candidate hcandidate
    exact hinherited.bred _ _ (hparent stride hstride)
      (bred_of_walk stride hstride candidate hcandidate)
  · intro stride hstride candidate hcandidate hmutate
    exact (hnear stride hstride candidate hcandidate hmutate).1
  · intro hsize hdistinct stride hstride candidate hcandidate hmutate
    exact (hnear stride hstride candidate hcandidate hmutate).2 hsize hdistinct

/--
**A search stays in its gene space.** A problem has no operators of its own and may ask for
recombination or not. At every moment of a search each chromosome that it holds or has shown has as
many genes as the configuration says, all of them from the gene set. Every mutated child differs
from its parent in one place at most, and in exactly one if the gene set has at least two entries
that are all distinct.
-/
theorem search_confined [LawfulBEq Gene] (cfg : Config) (hp : p.Plain) :
    (∀ changes w s v, start p cfg w = (.ok s, v) →
      Confined p cfg s (walk p cfg changes s v)) ∧
    ∀ steps changes w run, session p cfg steps changes w = .ok run →
      Confined p cfg run.opened run.strides ∧ run.Holds (p.Within cfg.targetLength) := by
  refine ⟨fun changes w s v hstart => confined_of_walk hp hstart, ?_⟩
  intro steps changes w run h
  have hconfined : Confined p cfg run.opened run.strides :=
    session_of_walk (Q := Confined p cfg) (fun _ _ _ hstart => confined_of_walk hp hstart) h
  exact ⟨hconfined, hconfined.within.session h⟩

/-- Lamps are to be switched on, one at a time. Recombination is asked for, without an operator. -/
def lamps : Problem (World Random.Cycle Script) Bool Nat :=
  { Problem.sampling #[false, true] (fun genes => genes.count true) 3 with recombines := true }

/-- Three lamps, and words for which the second step draws the missing recombination. -/
def threeLamps : World Random.Cycle Script := ⟨⟨[0x80000000, 0xC0000000], []⟩, {}⟩

/-- A refill is sampled and a second lamp is switched on by the mutation that stands in. -/
theorem search_confined_threeLamps :
    ∃ run, session lamps { targetLength := 3, poolSize := 2 } 3 [id, id] threeLamps = .ok run ∧
      run.answers = [announcement ⟨[true, false, false], 1, .create, 0⟩,
        announcement ⟨[true, true, false], 2, .mutate, 0⟩] ∧
      Confined lamps { targetLength := 3, poolSize := 2 } run.opened run.strides ∧
      run.Holds (lamps.Within 3) := by
  have h : session lamps { targetLength := 3, poolSize := 2 } 3 [id, id] threeLamps = .ok _ := rfl
  have hp : lamps.Plain := ⟨fun _ => rfl, fun _ _ => rfl, fun _ _ _ => rfl⟩
  exact ⟨_, h, rfl, (search_confined _ hp).2 3 [id, id] threeLamps _ h⟩

end Search

end EvolutionarySearch
