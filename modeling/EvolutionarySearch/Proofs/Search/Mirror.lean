import EvolutionarySearch.Search.Step
import EvolutionarySearch.Proofs.Search.Grading

/-!
# Searches in step

Two searches mirror each other if one is the other with its fitnesses graded. When they were started
and what they have noted does not count. As long as their deadlines agree, searches that mirror each
other go on doing so, step by step, in worlds that the problem cannot tell apart.

* `Mirrors.step` — a step of mirrored searches, with the same answer
-/

namespace EvolutionarySearch.Search

variable {ω Gene Fitness Grade : Type}

/-- The configuration with another time limit. -/
def Config.within (cfg : Config) (limit : Option Duration) : Config :=
  { cfg with timeLimit := limit }

/-- The same progress, with a grade in the place of the fitness. -/
def Progress.graded (f : Fitness → Grade) : Progress Gene Fitness → Progress Gene Grade
  | .pending => .pending
  | .answered answer => .answered (answer.map (Improvement.graded f))
  | .ended => .ended

/-- The second search is the first with its fitnesses graded. -/
structure Mirrors (f : Fitness → Grade) (s : Search Gene Fitness) (s' : Search Gene Grade) :
    Prop where
  phase : s'.phase = s.phase
  pool : s'.pool = s.pool.map (Chromosome.graded f)
  best : s'.best = s.best.graded f
  history : s'.history = s.history.graded f
  repertoire : s'.repertoire = s.repertoire
  cursor : s'.cursor = s.cursor

/-- Steps with the same answer, to mirrored searches in worlds that are alike. -/
structure Step.Mirrors (f : Fitness → Grade) (alike : ω → ω → Prop)
    (taken : Step ω Gene Fitness) (taken' : Step ω Gene Grade) : Prop where
  search : taken.search.Mirrors f taken'.search
  world : alike taken.world taken'.world
  progress : taken'.progress = taken.progress.graded f

variable {f : Fitness → Grade} {alike : ω → ω → Prop} {s : Search Gene Fitness}
  {s' : Search Gene Grade} {w w' : ω}

namespace Mirrors

/-! ## Changing a search -/

theorem opening (f : Fitness → Grade) (first : Chromosome Gene Fitness) (recombines : Bool)
    (started started' : Duration) :
    (Search.opening first recombines started).Mirrors f
      (Search.opening (first.graded f) recombines started') where
  phase := rfl
  pool := by simp [Search.opening]
  best := rfl
  history := by
    show (⟨#[f first.fitness]⟩ : History Grade) = ⟨#[first.fitness].map f⟩
    simp
  repertoire := rfl
  cursor := rfl

variable (hs : s.Mirrors f s')

include hs

theorem report (notes : Array (Note Fitness)) (notes' : Array (Note Grade)) :
    (s.report notes).Mirrors f (s'.report notes') :=
  { hs with }

theorem settle (slot : Nat) (c : Chromosome Gene Fitness) :
    (s.settle slot c).Mirrors f (s'.settle slot (c.graded f)) :=
  { hs with
    pool := by
      show s'.pool.setIfInBounds slot (c.graded f) = _
      rw [hs.pool, ← Array.map_setIfInBounds]
      rfl }

theorem setAge (slot age : Nat) : (s.setAge slot age).Mirrors f (s'.setAge slot age) :=
  { hs with
    pool := by
      show s'.pool.modify slot (fun c => { c with age := age })
        = (s.pool.modify slot fun c => { c with age := age }).map (Chromosome.graded f)
      rw [hs.pool]
      refine Array.ext_getElem? fun i => ?_
      rw [Array.getElem?_modify, Array.getElem?_map, Array.getElem?_map, Array.getElem?_modify]
      split
      · cases s.pool[i]? <;> rfl
      · rfl }

theorem refill {offspring : Offspring Gene Fitness} {offspring' : Offspring Gene Grade}
    (hoffspring : offspring.Mirrors f offspring') :
    (s.refill offspring).Mirrors f (s'.refill offspring') := by
  obtain ⟨-, hrefill⟩ := hoffspring
  unfold Search.refill
  generalize offspring.refill = refill at hrefill
  generalize offspring'.refill = refill' at hrefill
  cases hrefill with
  | none => exact hs
  | @some refill refill' hrefill =>
    obtain ⟨hslot, hfresh⟩ := hrefill
    obtain ⟨slot, fresh⟩ := refill
    obtain ⟨slot', fresh'⟩ := refill'
    have hc : fresh'.chromosome = fresh.chromosome.graded f := hfresh
    dsimp only at hslot ⊢
    subst hslot
    rw [hc]
    exact hs.settle slot' fresh.chromosome

theorem ended : ({ s with phase := .ended } : Search Gene Fitness).Mirrors f
    { s' with phase := .ended } :=
  { hs with phase := rfl }

theorem nextSlot : s'.nextSlot = s.nextSlot := by
  unfold Search.nextSlot
  rw [hs.cursor, hs.pool, Array.size_map]

/-! ## Steps -/

theorem fail (error : SearchError) (hw : alike w w') :
    Step.Mirrors f alike (s.fail error w) (s'.fail error w') :=
  ⟨hs.ended, hw, rfl⟩

theorem proceed (hw : alike w w') (evaluated : List (Evaluation Gene Fitness))
    (evaluated' : List (Evaluation Gene Grade)) :
    Step.Mirrors f alike (s.proceed w evaluated) (s'.proceed w' evaluated') :=
  ⟨hs, hw, rfl⟩

theorem announce (hw : alike w w') : Step.Mirrors f alike (s.announce w) (s'.announce w') where
  search :=
    { hs with
      phase := rfl
      repertoire := by
        show s'.repertoire.credit s'.best.strategy = s.repertoire.credit s.best.strategy
        rw [hs.repertoire, hs.best]
        rfl }
  world := hw
  progress := by
    show Progress.answered (.ok (.better s'.best)) = .answered (.ok (.better (s.best.graded f)))
    rw [hs.best]

theorem timeOut [Clock ω] (hw : alike w w') :
    Step.Mirrors f alike (s.timeOut w) (s'.timeOut w') where
  search := { hs with phase := rfl }
  world := hw
  progress := by
    show Progress.answered (.ok (.timedOut s'.best)) = .answered (.ok (.timedOut (s.best.graded f)))
    rw [hs.best]

variable [Ord Fitness] [Ord Grade] (hf : Faithful f)

include hf

theorem promote [Clock ω] (c : Chromosome Gene Fitness) (hw : alike w w')
    (evaluated : List (Evaluation Gene Fitness)) (evaluated' : List (Evaluation Gene Grade)) :
    Step.Mirrors f alike (s.promote c w evaluated) (s'.promote (c.graded f) w' evaluated') := by
  have hpush : History.push s'.history (c.graded f).fitness
      = (History.push s.history c.fitness).map (History.graded f) := by
    rw [hs.history]
    exact History.push_graded hf _ _
  have hreported := hs.report #[.newBest c.fitness c.strategy (s.elapsed w)]
    #[.newBest (c.graded f).fitness (c.graded f).strategy (s'.elapsed w')]
  unfold Search.promote
  dsimp only [Search.report]
  rw [hpush]
  cases History.push s.history c.fitness with
  | error error => exact ⟨hreported.ended, hw, rfl⟩
  | ok history =>
    refine ⟨{ hreported with best := rfl, history := rfl, repertoire := ?_ }, hw, rfl⟩
    show s'.repertoire.credit c.strategy = s.repertoire.credit c.strategy
    rw [hs.repertoire]

theorem anneal [WordSource ω] (hwords : SameWords alike) (slot : Nat)
    (child : Chromosome Gene Fitness) (hw : alike w w') :
    Matching alike (Mirrors f) (s.anneal slot child w) (s'.anneal slot (child.graded f) w') := by
  obtain ⟨drawn, _, v, v', hfirst, hsecond, rfl, hworld⟩ := (hwords.unit hw).exists_eq
  -- the same lot is drawn, and by the history its chance is the same
  have hprobability : s'.history.acceptance (child.graded f).fitness
      = s.history.acceptance child.fitness := by
    rw [hs.history]
    exact History.acceptance_graded hf _ _
  unfold Search.anneal
  dsimp only
  rw [hfirst, hsecond, hprobability]
  dsimp only
  split
  · exact ⟨(hs.report _ _).settle slot child, hworld⟩
  · refine ⟨?_, hworld⟩
    rw [hs.best]
    exact hs.settle slot { s.best with age := 0 }

theorem contest [WordSource ω] [Clock ω] (hwords : SameWords alike) (cfg : Config)
    (limit limit' : Option Duration) (slot : Nat) (parent : Chromosome Gene Fitness) (kept : Bool)
    (child : Chromosome Gene Fitness) (hw : alike w w')
    (evaluated : List (Evaluation Gene Fitness)) (evaluated' : List (Evaluation Gene Grade)) :
    Step.Mirrors f alike
      (Search.contest (cfg.within limit) s slot parent kept child w evaluated)
      (Search.contest (cfg.within limit') s' slot (parent.graded f) kept (child.graded f) w'
        evaluated') := by
  have hparent : compare (child.graded f).fitness (parent.graded f).fitness
      = compare child.fitness parent.fitness := hf _ _
  have hbest : compare (child.graded f).fitness s'.best.fitness
      = compare child.fitness s.best.fitness := by
    rw [hs.best]
    exact hf _ _
  have hage : (parent.graded f).age = parent.age := rfl
  unfold Search.contest
  dsimp only [Config.within]
  rw [hparent, hbest, hage]
  split
  · split
    · exact hs.proceed hw _ _
    · have haged : (if kept then s.setAge slot (parent.age + 1) else s).Mirrors f
          (if kept then s'.setAge slot (parent.age + 1) else s') := by
        split
        · exact hs.setAge slot _
        · exact hs
      split
      · exact haged.proceed hw _ _
      · obtain ⟨hannealed, hworld⟩ := haged.anneal hf hwords slot child hw
        exact hannealed.proceed hworld _ _
  · exact (hs.settle slot { child with age := parent.age + 1 }).proceed hw _ _
  · split
    · exact (hs.settle slot child).promote hf child hw _ _
    · exact (hs.settle slot child).proceed hw _ _

variable [WordSource ω] [Clock ω] {p : Problem ω Gene Fitness} (hp : Indistinct p alike)
  (display : Chromosome Gene Grade → Duration → ω → ω) (cfg : Config)
  (limit limit' : Option Duration)

include hp

theorem fill (hw : alike w w') :
    Step.Mirrors f alike (Search.fill p (cfg.within limit) s w)
      (Search.fill (p.graded f display) (cfg.within limit') s' w') := by
  obtain ⟨built, built', v, v', hgen, hgen', hsame, hworld⟩ :=
    (hp.generate f display cfg.targetLength hw).exists_eq
  unfold Search.fill
  dsimp only [Config.within]
  rw [hgen, hgen']
  cases hsame with
  | error error => exact hs.fail error hworld
  | @ok candidate candidate' hcandidate =>
    have hc : candidate'.chromosome = candidate.chromosome.graded f := hcandidate
    have hbest : compare (candidate.chromosome.graded f).fitness s'.best.fitness
        = compare candidate.chromosome.fitness s.best.fitness := by
      rw [hs.best]
      exact hf _ _
    have hwidened :
        ({ s with pool := s.pool.push candidate.chromosome } : Search Gene Fitness).Mirrors f
          { s' with pool := s'.pool.push (candidate.chromosome.graded f) } :=
      { hs with
        pool := by
          show s'.pool.push _ = (s.pool.push _).map _
          rw [hs.pool, Array.map_push] }
    dsimp only
    rw [hc, hbest]
    split
    · exact hwidened.promote hf _ hworld _ _
    · exact hwidened.proceed hworld _ _

theorem visit (hw : alike w w') :
    Step.Mirrors f alike (Search.visit p (cfg.within limit) s w)
      (Search.visit (p.graded f display) (cfg.within limit') s' w') := by
  have hparent : s'.pool.getD s'.nextSlot s'.best = (s.pool.getD s.nextSlot s.best).graded f := by
    rw [hs.nextSlot, hs.pool, hs.best, Array.getD_eq_getD_getElem?, Array.getD_eq_getD_getElem?,
      Array.getElem?_map, Option.getD_map]
  have hpool : s'.pool.map (·.genes) = s.pool.map (·.genes) := by
    rw [hs.pool, Array.map_map]
    rfl
  have hbred : (Search.breed p cfg.targetLength s.repertoire s.pool s.nextSlot
      (s.pool.getD s.nextSlot s.best) w).Mirrors f alike
      (Search.breed (p.graded f display) cfg.targetLength s.repertoire s'.pool s.nextSlot
        ((s.pool.getD s.nextSlot s.best).graded f) w') :=
    hp.breed f display _ _ _ hpool rfl hw
  have hsize : s'.pool.size = s.pool.size := by rw [hs.pool, Array.size_map]
  -- what is bred is all that a visit takes from the world and from the pool beside its slot
  unfold Search.visit
  dsimp only [Config.within]
  rw [hparent, hs.nextSlot, hs.repertoire, hsize]
  obtain ⟨houtcome, hworld⟩ := hbred
  generalize Search.breed p cfg.targetLength s.repertoire s.pool s.nextSlot
    (s.pool.getD s.nextSlot s.best) w = bred at houtcome hworld ⊢
  generalize Search.breed (p.graded f display) cfg.targetLength s.repertoire s'.pool s.nextSlot
    ((s.pool.getD s.nextSlot s.best).graded f) w' = bred' at houtcome hworld ⊢
  obtain ⟨outcome, notes, v⟩ := bred
  obtain ⟨outcome', notes', v'⟩ := bred'
  have hmoved : ({ s.report notes with cursor := s.nextSlot } : Search Gene Fitness).Mirrors f
      { s'.report notes' with cursor := s.nextSlot } :=
    { hs.report notes notes' with cursor := rfl }
  dsimp only at houtcome hworld ⊢
  cases houtcome with
  | error error => exact hmoved.fail error hworld
  | @ok offspring offspring' hoffspring =>
    have hchild : offspring'.child.chromosome = offspring.child.chromosome.graded f :=
      hoffspring.child
    dsimp only
    rw [hchild, hoffspring.isSome_refill]
    exact (hmoved.refill hoffspring).contest hf hp.toSameWords cfg limit limit' _ _ _ _ hworld _ _

/-- Mirrored searches take mirrored steps, if their deadlines have both passed or both not. -/
theorem step (hw : alike w w')
    (hlate : s.phase ≠ .ended →
      s'.expired (cfg.within limit') w' = s.expired (cfg.within limit) w) :
    Step.Mirrors f alike (Search.step p (cfg.within limit) s w)
      (Search.step (p.graded f display) (cfg.within limit') s' w') := by
  have hroom : (s'.pool.size < (cfg.within limit').poolSize)
      = (s.pool.size < (cfg.within limit).poolSize) := by
    rw [hs.pool, Array.size_map]
    rfl
  unfold Search.step
  rw [hs.phase]
  simp only [hroom]
  cases hphase : s.phase with
  | ended => exact ⟨hs, hw, rfl⟩
  | opening =>
    dsimp only
    rw [hlate (by rw [hphase]; decide)]
    split
    · exact hs.timeOut hw
    · exact hs.announce hw
  | running =>
    dsimp only
    rw [hlate (by rw [hphase]; decide)]
    split
    · exact hs.timeOut hw
    · split
      · exact hs.fill hf hp display cfg limit limit' hw
      · exact hs.visit hf hp display cfg limit limit' hw

end Mirrors

end EvolutionarySearch.Search
