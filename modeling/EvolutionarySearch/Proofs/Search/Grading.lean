import EvolutionarySearch.Search.Breeding
import EvolutionarySearch.Search.History
import EvolutionarySearch.Proofs.Random.Alike

/-!
# Graded problems and alike worlds

Fitness enters a search through comparisons only, so it may be replaced by any grade that compares
in the same way. The world enters through the words that it supplies and the operators of the
problem, and through the clock, which no candidate depends on. Here both are varied at once: the
attempts at a child of a problem and of the graded problem correspond, in worlds that the problem
cannot tell apart.

* `Indistinct.generate`, `Indistinct.derive`, `Indistinct.breed` — what is built corresponds
* `History.push_graded`, `History.acceptance_graded` — the history goes by comparisons
-/

namespace EvolutionarySearch

variable {ω Gene Fitness Grade : Type}

/-! ## Grades -/

/-- The chromosome with a grade in the place of its fitness. -/
def Chromosome.graded (f : Fitness → Grade) (c : Chromosome Gene Fitness) :
    Chromosome Gene Grade where
  genes := c.genes
  fitness := f c.fitness
  strategy := c.strategy
  age := c.age

/-- The answer with a grade in the place of the fitness. -/
def Improvement.graded (f : Fitness → Grade) :
    Improvement Gene Fitness → Improvement Gene Grade
  | .better c => .better (c.graded f)
  | .timedOut c => .timedOut (c.graded f)

namespace Search

/-- A grade that compares as the fitness does. -/
def Faithful [Ord Fitness] [Ord Grade] (f : Fitness → Grade) : Prop :=
  ∀ a b, compare (f a) (f b) = compare a b

/-- The problem with a grade in the place of its fitness. -/
def Problem.graded (f : Fitness → Grade)
    (display : Chromosome Gene Grade → Duration → ω → ω) (p : Problem ω Gene Fitness) :
    Problem ω Gene Grade where
  geneSet := p.geneSet
  fitness genes := f (p.fitness genes)
  optimal := f p.optimal
  create := p.create
  mutate := p.mutate
  recombines := p.recombines
  crossover := p.crossover
  display := display

/-- The history with grades in the place of fitnesses. -/
def History.graded (f : Fitness → Grade) (history : History Fitness) : History Grade :=
  ⟨history.values.map f⟩

section History

variable [Ord Fitness] [Ord Grade] {f : Fitness → Grade}

theorem History.push_graded (hf : Faithful f) (history : History Fitness) (fitness : Fitness) :
    (history.graded f).push (f fitness) = (history.push fitness).map (History.graded f) := by
  have hlast : ((history.graded f).values.back?.all fun last => (compare last (f fitness)).isLE)
      = history.values.back?.all fun last => (compare last fitness).isLE := by
    show ((history.values.map f).back?.all fun last => (compare last (f fitness)).isLE) = _
    rw [Array.back?_map]
    cases history.values.back? with
    | none => rfl
    | some last => exact congrArg Ordering.isLE (hf last fitness)
  unfold History.push
  rw [hlast]
  split
  · show Except.ok _ = Except.ok _
    unfold History.graded
    rw [Array.map_push]
  · rfl

theorem History.acceptance_graded (hf : Faithful f) (history : History Fitness)
    (fitness : Fitness) :
    (history.graded f).acceptance (f fitness) = history.acceptance fitness := by
  have hposition : (history.graded f).position (f fitness) = history.position fitness := by
    unfold History.position History.graded
    rw [Array.toList_map, List.findIdx_map]
    congr 1
    funext past
    show (!(compare (f past) (f fitness)).isLT) = !(compare past fitness).isLT
    rw [hf]
  have hsize : (history.graded f).size = history.size := Array.size_map
  have hempty : (history.graded f).values.isEmpty = history.values.isEmpty := by
    show (history.values.map f).isEmpty = _
    rw [← Array.isEmpty_toList, Array.toList_map, List.isEmpty_map, Array.isEmpty_toList]
  unfold History.acceptance History.share History.atOrAbove
  rw [hposition, hsize, hempty]

end History

/-! ## Candidates -/

/-- Worlds that neither the draws nor the operators of a problem can tell apart. -/
structure Indistinct [WordSource ω] (p : Problem ω Gene Fitness) (alike : ω → ω → Prop) : Prop
    extends SameWords alike where
  create {w w' : ω} (h : alike w w') : Matching alike Eq (p.create w) (p.create w')
  mutate {w w' : ω} (genes : List Gene) (h : alike w w') :
    Matching alike Eq (p.mutate genes w) (p.mutate genes w')
  crossover {w w' : ω} (parent donor : List Gene) (h : alike w w') :
    Matching alike Eq (p.crossover parent donor w) (p.crossover parent donor w')

theorem Indistinct.refl [WordSource ω] (p : Problem ω Gene Fitness) : Indistinct p Eq where
  next32 h := .of_eq _ h
  next64 h := .of_eq _ h
  create h := .of_eq _ h
  mutate _ h := .of_eq _ h
  crossover _ _ h := .of_eq _ h

/-- Two outcomes that correspond, or fail with the same error. -/
inductive SameOutcome {α β : Type} (R : α → β → Prop) :
    Except SearchError α → Except SearchError β → Prop where
  | ok {a : α} {b : β} (h : R a b) : SameOutcome R (.ok a) (.ok b)
  | error (error : SearchError) : SameOutcome R (.error error) (.error error)

theorem SameOutcome.imp {α β : Type} {R S : α → β → Prop} (hsub : ∀ a b, R a b → S a b)
    {x : Except SearchError α} {y : Except SearchError β} (h : SameOutcome R x y) :
    SameOutcome S x y := by
  cases h with
  | ok h => exact .ok (hsub _ _ h)
  | error error => exact .error error

theorem SameOutcome.of_ok {α β : Type} {R : α → β → Prop} {x : Except SearchError α}
    {y : Except SearchError β} {a : α} {b : β} (h : SameOutcome R x y) (hx : x = .ok a)
    (hy : y = .ok b) : R a b := by
  subst hx hy
  cases h with
  | ok h => exact h

/-- The same candidate, whenever the two have been evaluated. -/
def Evaluation.Mirrors (f : Fitness → Grade) (candidate : Evaluation Gene Fitness)
    (candidate' : Evaluation Gene Grade) : Prop :=
  candidate'.chromosome = candidate.chromosome.graded f

/-- The same child, with the same refill. -/
structure Offspring.Mirrors (f : Fitness → Grade) (offspring : Offspring Gene Fitness)
    (offspring' : Offspring Gene Grade) : Prop where
  child : offspring.child.Mirrors f offspring'.child
  refill : Option.Rel (fun refill refill' => refill'.1 = refill.1 ∧ refill.2.Mirrors f refill'.2)
    offspring.refill offspring'.refill

theorem Offspring.Mirrors.isSome_refill {f : Fitness → Grade} {offspring : Offspring Gene Fitness}
    {offspring' : Offspring Gene Grade} (h : offspring.Mirrors f offspring') :
    offspring'.refill.isSome = offspring.refill.isSome := by
  have hrefill := h.refill
  generalize offspring.refill = refill at hrefill ⊢
  generalize offspring'.refill = refill' at hrefill ⊢
  cases hrefill with
  | none => rfl
  | some hsame => rfl

/-- Attempts with the same outcome, which leave their worlds alike. -/
structure Breeding.Mirrors (f : Fitness → Grade) (alike : ω → ω → Prop)
    (bred : Breeding ω Gene Fitness) (bred' : Breeding ω Gene Grade) : Prop where
  outcome : SameOutcome (Offspring.Mirrors f) bred.outcome bred'.outcome
  world : alike bred.world bred'.world

variable [WordSource ω] [Clock ω] {p : Problem ω Gene Fitness} {f : Fitness → Grade}
  {display : Chromosome Gene Grade → Duration → ω → ω} {alike : ω → ω → Prop} {w w' : ω}

omit [WordSource ω] in
theorem evaluate_mirrors (strategy : Strategy) {genes genes' : List Gene} (hgenes : genes = genes')
    (w w' : ω) :
    (p.evaluate strategy genes w).Mirrors f
      ((p.graded f display).evaluate strategy genes' w') := by
  subst hgenes
  rfl

namespace Indistinct

variable (hp : Indistinct p alike) (f : Fitness → Grade)
  (display : Chromosome Gene Grade → Duration → ω → ω)

include hp

theorem generate (length : Nat) (h : alike w w') :
    Matching alike (SameOutcome (Evaluation.Mirrors f)) (p.generate length w)
      ((p.graded f display).generate length w') := by
  obtain ⟨created, _, v, v', hfirst, hsecond, rfl, hworld⟩ := (hp.create h).exists_eq
  have hgraded : (p.graded f display).create w' = (created, v') := hsecond
  unfold Problem.generate
  rw [hfirst, hgraded]
  cases created with
  | some genes => exact ⟨.ok rfl, hworld⟩
  | none =>
    show Matching alike _ (if p.geneSet.isEmpty then _ else _) (if p.geneSet.isEmpty then _ else _)
    split
    · exact ⟨.error _, hworld⟩
    · split
      · exact ⟨.error _, hworld⟩
      · obtain ⟨hsampled, hafter⟩ := hp.sample p.geneSet length hworld
        exact ⟨.ok (evaluate_mirrors _ hsampled _ _), hafter⟩

theorem derive {parent : Chromosome Gene Fitness} {parent' : Chromosome Gene Grade}
    (hgenes : parent'.genes = parent.genes) (h : alike w w') :
    Matching alike (Evaluation.Mirrors f) (p.derive parent w)
      ((p.graded f display).derive parent' w') := by
  obtain ⟨hmutated, hworld⟩ := hp.mutate parent.genes h
  have hgraded : (p.graded f display).mutate parent'.genes w' = p.mutate parent.genes w' :=
    congrArg (p.mutate · w') hgenes
  unfold Problem.derive
  rw [hgraded]
  exact ⟨evaluate_mirrors _ hmutated _ _, hworld⟩

omit hp [WordSource ω] [Clock ω] in
/-- Pools with the same genes have the same genes in every slot. -/
theorem genes_getD {pool : Array (Chromosome Gene Fitness)} {pool' : Array (Chromosome Gene Grade)}
    (hpool : pool'.map (·.genes) = pool.map (·.genes)) {parent : Chromosome Gene Fitness}
    {parent' : Chromosome Gene Grade} (hgenes : parent'.genes = parent.genes) (slot : Nat) :
    (pool'.getD slot parent').genes = (pool.getD slot parent).genes := by
  have hslot : (pool'.map (·.genes))[slot]? = (pool.map (·.genes))[slot]? := by rw [hpool]
  rw [Array.getElem?_map, Array.getElem?_map] at hslot
  rw [Array.getD_eq_getD_getElem?, Array.getD_eq_getD_getElem?]
  cases hfirst : pool[slot]? with
  | none =>
    rw [hfirst] at hslot
    rw [Option.map_eq_none_iff.mp hslot]
    exact hgenes
  | some c =>
    rw [hfirst] at hslot
    obtain ⟨c', hsecond, hc⟩ := Option.map_eq_some_iff.mp hslot
    rw [hsecond]
    exact hc

/-- Recombination reads the genes of its pool and nothing else. -/
theorem recombine (length slot : Nat) {pool : Array (Chromosome Gene Fitness)}
    {pool' : Array (Chromosome Gene Grade)}
    (hpool : pool'.map (·.genes) = pool.map (·.genes)) {parent : Chromosome Gene Fitness}
    {parent' : Chromosome Gene Grade} (hgenes : parent'.genes = parent.genes) (h : alike w w') :
    (Search.recombine p length pool slot parent w).Mirrors f alike
      (Search.recombine (p.graded f display) length pool' slot parent' w') := by
  have hsize : pool'.size = pool.size := by
    have hmapped := congrArg Array.size hpool
    rwa [Array.size_map, Array.size_map] at hmapped
  obtain ⟨drawn, _, v, v', hfirst, hsecond, rfl, hworld⟩ := (hp.below pool.size h).exists_eq
  obtain ⟨crossed, _, u, u', hcrossed, hcrossed', rfl, hafter⟩ :=
    (hp.crossover parent.genes (pool.getD (donorSlot pool.size slot drawn) parent).genes
      hworld).exists_eq
  have hgraded : (p.graded f display).crossover parent'.genes
      (pool'.getD (donorSlot pool.size slot drawn) parent').genes v' = (crossed, u') := by
    rw [genes_getD hpool hgenes, hgenes]
    exact hcrossed'
  unfold Search.recombine
  dsimp only
  rw [hsize, hfirst, hsecond, hcrossed, hgraded]
  cases crossed with
  | some genes => exact ⟨.ok ⟨rfl, .none⟩, hafter⟩
  | none =>
    obtain ⟨built, built', t, t', hgen, hgen', hsame, hlater⟩ :=
      (hp.generate f display length hafter).exists_eq
    dsimp only
    rw [hgen, hgen']
    cases hsame with
    | error error => exact ⟨.error error, hlater⟩
    | ok hfresh =>
      obtain ⟨hchild, hlast⟩ := hp.derive f display hgenes hlater
      exact ⟨.ok ⟨hchild, .some ⟨rfl, hfresh⟩⟩, hlast⟩

omit [Clock ω] in
theorem draw (repertoire : Repertoire) (h : alike w w') :
    Matching alike Eq (repertoire.draw w) (repertoire.draw w') := by
  unfold Repertoire.draw
  split
  · obtain ⟨hdrawn, hworld⟩ := hp.below repertoire.used.size h
    exact ⟨by dsimp only; rw [hdrawn], hworld⟩
  · exact ⟨rfl, h⟩

/-- What is bred depends on the genes of the pool, and on the world through words and operators. -/
theorem breed (length slot : Nat) (repertoire : Repertoire)
    {pool : Array (Chromosome Gene Fitness)} {pool' : Array (Chromosome Gene Grade)}
    (hpool : pool'.map (·.genes) = pool.map (·.genes)) {parent : Chromosome Gene Fitness}
    {parent' : Chromosome Gene Grade} (hgenes : parent'.genes = parent.genes) (h : alike w w') :
    (Search.breed p length repertoire pool slot parent w).Mirrors f alike
      (Search.breed (p.graded f display) length repertoire pool' slot parent' w') := by
  obtain ⟨strategy, _, v, v', hfirst, hsecond, rfl, hworld⟩ := (hp.draw repertoire h).exists_eq
  -- both a mutation and an operator from outside the engine end in `derive`
  have hmutated : (Breeding.mk (.ok { child := (p.derive parent v).1 }) #[]
      (p.derive parent v).2 : Breeding ω Gene Fitness).Mirrors f alike
      (.mk (.ok { child := ((p.graded f display).derive parent' v').1 }) #[]
        ((p.graded f display).derive parent' v').2) := by
    obtain ⟨hchild, hafter⟩ := hp.derive f display hgenes hworld
    exact ⟨.ok ⟨hchild, .none⟩, hafter⟩
  unfold Search.breed
  rw [hfirst, hsecond]
  cases strategy with
  | crossover => exact hp.recombine f display length slot hpool hgenes hworld
  | create =>
    obtain ⟨built, built', u, u', hgen, hgen', hsame, hafter⟩ :=
      (hp.generate f display length hworld).exists_eq
    dsimp only
    rw [hgen, hgen']
    cases hsame with
    | error error => exact ⟨.error error, hafter⟩
    | ok hchild => exact ⟨.ok ⟨hchild, .none⟩, hafter⟩
  | mutate => exact hmutated
  | none => exact hmutated

end Indistinct

end Search

end EvolutionarySearch
