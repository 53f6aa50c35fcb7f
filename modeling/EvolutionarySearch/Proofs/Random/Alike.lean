import EvolutionarySearch.GeneSet

/-!
# Worlds that supply the same words

Two worlds may differ and still supply the same words, for instance if only their clocks differ. For
a relation between worlds that is kept while words are read, everything that is drawn from related
worlds is the same, and leaves them related.

* `SameWords.below`, `SameWords.unit`, `SameWords.shuffle`, `SameWords.sample` — what is drawn
* `KeptByWords.below`, `KeptByWords.unit`, `KeptByWords.sample` — what is kept while it is drawn
-/

namespace EvolutionarySearch

variable {ω α β : Type}

/-- Two results that correspond, and leave their worlds alike. -/
structure Matching (alike : ω → ω → Prop) (R : α → β → Prop) (x : α × ω) (y : β × ω) : Prop where
  value : R x.1 y.1
  world : alike x.2 y.2

theorem Matching.exists_eq {alike : ω → ω → Prop} {R : α → β → Prop} {x : α × ω} {y : β × ω}
    (h : Matching alike R x y) :
    ∃ a b w w', x = (a, w) ∧ y = (b, w') ∧ R a b ∧ alike w w' :=
  ⟨x.1, y.1, x.2, y.2, rfl, rfl, h.value, h.world⟩

theorem Matching.of_eq (read : ω → α × ω) {w w' : ω} (h : w = w') :
    Matching Eq Eq (read w) (read w') := by
  subst h
  exact ⟨rfl, rfl⟩

/-- Alike worlds supply the same words and stay alike. -/
structure SameWords [WordSource ω] (alike : ω → ω → Prop) : Prop where
  next32 {w w' : ω} (h : alike w w') :
    Matching alike Eq (WordSource.next32 w) (WordSource.next32 w')
  next64 {w w' : ω} (h : alike w w') :
    Matching alike Eq (WordSource.next64 w) (WordSource.next64 w')

variable {alike : ω → ω → Prop} {w w' : ω}

/-! ## Numbers -/

theorem Matching.scale {next : ω → Nat × ω}
    (hnext : ∀ {v v'}, alike v v' → Matching alike Eq (next v) (next v')) (words n : Nat)
    (h : alike w w') :
    Matching alike Eq (Random.scale words next n w) (Random.scale words next n w') := by
  obtain ⟨hfirst, hworld⟩ := hnext h
  obtain ⟨hsecond, hafter⟩ := hnext hworld
  unfold Random.scale
  dsimp only
  rw [← hfirst, ← hsecond]
  split
  · exact ⟨rfl, hafter⟩
  · exact ⟨rfl, hworld⟩

namespace SameWords

variable [WordSource ω] (hwords : SameWords alike)

include hwords

theorem word32 (h : alike w w') : Matching alike Eq (Random.word32 w) (Random.word32 w') :=
  ⟨congrArg UInt32.toNat (hwords.next32 h).value, (hwords.next32 h).world⟩

theorem word64 (h : alike w w') : Matching alike Eq (Random.word64 w) (Random.word64 w') :=
  ⟨congrArg UInt64.toNat (hwords.next64 h).value, (hwords.next64 h).world⟩

theorem below32 (n : Nat) (h : alike w w') :
    Matching alike Eq (Random.below32 n w) (Random.below32 n w') :=
  Matching.scale hwords.word32 _ n h

theorem below (n : Nat) (h : alike w w') :
    Matching alike Eq (Random.below n w) (Random.below n w') := by
  unfold Random.below
  split
  · exact hwords.below32 n h
  · exact Matching.scale hwords.word64 _ n h

theorem unit (h : alike w w') : Matching alike Eq (Random.unit w) (Random.unit w') := by
  obtain ⟨hword, hworld⟩ := hwords.next64 h
  refine ⟨?_, hworld⟩
  unfold Random.unit
  rw [hword]

/-! ## Shuffles -/

theorem nextDigit (m : Nat) (digits : Random.IndexDigits) (h : alike w w') :
    Matching alike Eq (digits.next m w) (digits.next m w') := by
  unfold Random.IndexDigits.next
  split
  · obtain ⟨hdrawn, hworld⟩ := hwords.below32 (Random.widen 32 m (m + 1)).1 h
    refine ⟨?_, hworld⟩
    simp only [Random.IndexDigits.draw, hdrawn]
  · exact ⟨rfl, h⟩

theorem shuffleFrom (steps i : Nat) (digits : Random.IndexDigits) (xs : Array α)
    (h : alike w w') :
    Matching alike Eq (Random.shuffleFrom steps i digits xs w)
      (Random.shuffleFrom steps i digits xs w') := by
  induction steps generalizing i digits xs w w' with
  | zero => exact ⟨rfl, h⟩
  | succ steps ih =>
    obtain ⟨hdigit, hworld⟩ := hwords.nextDigit (i + 1) digits h
    simp only [Random.shuffleFrom, ← hdigit]
    exact ih _ _ _ hworld

theorem shuffle (xs : Array α) (h : alike w w') :
    Matching alike Eq (Random.shuffle xs w) (Random.shuffle xs w') :=
  hwords.shuffleFrom _ _ _ xs h

/-! ## Samples -/

theorem shuffledBlocks (blocks : Nat) (block : Array α) (h : alike w w') :
    Matching alike Eq (GeneSet.shuffledBlocks blocks block w)
      (GeneSet.shuffledBlocks blocks block w') := by
  induction blocks generalizing block w w' with
  | zero => exact ⟨rfl, h⟩
  | succ blocks ih =>
    obtain ⟨hblock, hworld⟩ := hwords.shuffle block h
    obtain ⟨hrest, hafter⟩ := ih (Random.shuffle block w).1 hworld
    simp only [GeneSet.shuffledBlocks, ← hblock]
    exact ⟨by rw [hrest], hafter⟩

theorem sample (geneSet : GeneSet α) (length : Nat) (h : alike w w') :
    Matching alike Eq (GeneSet.sample geneSet length w) (GeneSet.sample geneSet length w') := by
  unfold GeneSet.sample
  split
  · exact ⟨rfl, h⟩
  · obtain ⟨hblocks, hworld⟩ :=
      hwords.shuffledBlocks ((length + geneSet.size - 1) / geneSet.size) geneSet h
    exact ⟨by dsimp only; rw [hblocks], hworld⟩

end SameWords

/-! ## Properties of one world -/

/-- A property of worlds that reading a word leaves as it is. -/
structure KeptByWords [WordSource ω] (I : ω → Prop) : Prop where
  next32 {w : ω} (h : I w) : I (WordSource.next32 w).2
  next64 {w : ω} (h : I w) : I (WordSource.next64 w).2

namespace KeptByWords

variable [WordSource ω] {I : ω → Prop} (hkept : KeptByWords I)

include hkept

/-- Beside itself, a world that has the property is alike. -/
theorem sameWords : SameWords fun w w' => w = w' ∧ I w where
  next32 := by
    rintro w _ ⟨rfl, h⟩
    exact ⟨rfl, rfl, hkept.next32 h⟩
  next64 := by
    rintro w _ ⟨rfl, h⟩
    exact ⟨rfl, rfl, hkept.next64 h⟩

theorem below (n : Nat) (h : I w) : I (Random.below n w).2 :=
  (hkept.sameWords.below n ⟨rfl, h⟩).world.2

theorem unit (h : I w) : I (Random.unit w).2 :=
  (hkept.sameWords.unit ⟨rfl, h⟩).world.2

theorem sample (geneSet : GeneSet α) (length : Nat) (h : I w) :
    I (GeneSet.sample geneSet length w).2 :=
  (hkept.sameWords.sample geneSet length ⟨rfl, h⟩).world.2

end KeptByWords

end EvolutionarySearch
