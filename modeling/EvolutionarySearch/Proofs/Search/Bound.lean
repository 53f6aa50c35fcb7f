import EvolutionarySearch.Proofs.Search.Refill

/-!
# The best and the pool

The best is meant to be the best of all that the search holds. Every way into the pool keeps it so
but one: the candidate that refills a slot is not compared with the best. What is said here is that
this is the only way in which the best can fall behind the pool.

* `Turn.beats_best` — whatever beats the best after a step has come as its refill
* `bounded_iff_not_overlooks` — the best bounds the pool throughout a session exactly when no refill
  is overlooked
-/

namespace EvolutionarySearch.Search

variable {ω Gene Fitness : Type} [Ord Fitness] {s : Search Gene Fitness}
  {c : Chromosome Gene Fitness}

/-- No chromosome in the pool is fitter than the best. -/
def Bounded (s : Search Gene Fitness) : Prop := ∀ c ∈ s.pool, ¬c.Beats s.best

/-! ## Writing a slot -/

omit [Ord Fitness] in
theorem mem_settle {slot : Nat} {d : Chromosome Gene Fitness} (hc : c ∈ (s.settle slot d).pool) :
    c ∈ s.pool ∨ c = d :=
  Array.mem_or_eq_of_mem_setIfInBounds hc

omit [Ord Fitness] in
theorem mem_grown {slot : Nat} {parent : Chromosome Gene Fitness} {kept : Bool}
    (hc : c ∈ (s.grown slot parent kept).pool) :
    c ∈ s.pool ∨ (kept = true ∧ ∃ d, s.pool[slot]? = some d ∧ c.fitness = d.fitness) := by
  unfold grown at hc
  split at hc
  · next hkept =>
    obtain ⟨i, hi⟩ := Array.mem_iff_getElem?.mp hc
    unfold setAge at hi
    rw [Array.getElem?_modify] at hi
    split at hi
    · next heq =>
      subst heq
      obtain ⟨d, hd, rfl⟩ := Option.map_eq_some_iff.mp hi
      exact .inr ⟨hkept, d, hd, rfl⟩
    · exact .inl (Array.mem_of_getElem? hi)
  · exact .inl hc

variable [WordSource ω]

theorem mem_anneal {slot : Nat} {child : Chromosome Gene Fitness} {w : ω}
    (hc : c ∈ (s.anneal slot child w).1.pool) :
    c ∈ s.pool ∨ c = child ∨ c = { s.best with age := 0 } := by
  unfold anneal at hc
  dsimp only at hc
  split at hc
  · rcases mem_settle hc with hc | hc
    · exact .inl hc
    · exact .inr (.inl hc)
  · rcases mem_settle hc with hc | hc
    · exact .inl hc
    · exact .inr (.inr hc)

variable [Clock ω] [Std.TransOrd Fitness] {p : Problem ω Gene Fitness} {cfg : Config} {w : ω}

omit [WordSource ω] [Clock ω] in
/-- The best never gets worse. -/
theorem Signal.not_beats {r r' : Records Gene Fitness} {progress : Progress Gene Fitness}
    (h : Signal r r' progress) (hc : ¬c.Beats r.best) : ¬c.Beats r'.best := by
  cases h with
  | silent hphase => exact hc
  | timedOut hphase => exact hc
  | refused hphase herror => exact hc
  | announced hphase => exact hc
  | pending hphase => exact hc
  | surpassed hphase hbest => exact (hbest.trans_not_beats hc).not_beats

/-! ## Contests -/

/--
What beats the best after a contest has been in the pool before it. The parent must not beat the
best, nor what sits in its slot while it is kept.
-/
theorem Verdict.mem_of_beats {slot : Nat} {parent child : Chromosome Gene Fitness} {kept : Bool}
    {evaluated : List (Evaluation Gene Fitness)} {taken : Step ω Gene Fitness}
    (h : Verdict cfg s slot parent kept child w evaluated taken) (hs : s.records.Coherent)
    (hparent : ¬parent.Beats s.best)
    (hkept : kept = true → ∀ d, s.pool[slot]? = some d → ¬d.Beats s.best)
    (hc : c ∈ taken.search.pool) (hbeats : c.Beats taken.search.best) : c ∈ s.pool := by
  have hgrown : (s.grown slot parent kept).best = s.best :=
    congrArg Records.best (records_grown s slot parent kept)
  -- an older parent is still no fitter than the best
  have hold : c ∈ (s.grown slot parent kept).pool → c.Beats s.best → c ∈ s.pool := by
    intro hc hbeats
    rcases mem_grown hc with hc | ⟨hkeeps, d, hd, hfitness⟩
    · exact hc
    · unfold Chromosome.Beats at hbeats
      rw [hfitness] at hbeats
      exact absurd hbeats (hkept hkeeps d hd)
  cases h with
  | dropped hworse hage => exact hc
  | endured hworse hage hyoung =>
    refine hold hc ?_
    rw [← hgrown]
    exact hbeats
  | retired hworse hage hyoung =>
    have hbest : ((s.grown slot parent kept).anneal slot child w).1.best = s.best :=
      (congrArg Records.best (records_anneal _ slot child w)).trans hgrown
    rw [proceed, hbest] at hbeats
    rcases mem_anneal hc with hc | rfl | rfl
    · exact hold hc hbeats
    · exact absurd hbeats (Chromosome.not_beats_trans (Chromosome.not_beats_of_lt hworse) hparent)
    · rw [hgrown] at hbeats
      exact absurd hbeats (Chromosome.not_beats_of_fitness_eq rfl)
  | replaced hequal =>
    rcases mem_settle hc with hc | rfl
    · exact hc
    · exact absurd hbeats (Chromosome.not_beats_trans (Chromosome.not_beats_of_eq hequal) hparent)
  | climbed hbetter hbest =>
    rcases mem_settle hc with hc | rfl
    · exact hc
    · exact absurd hbeats hbest
  | surpassed hbetter hbest =>
    rw [promote_eq (s := s.settle slot child) hs hbest] at hc hbeats
    rcases mem_settle hc with hc | rfl
    · exact hc
    · exact absurd hbeats (Chromosome.not_beats_self _)

/-! ## Steps -/

omit [WordSource ω] [Clock ω] in
theorem Bounded.visited (hbounded : s.Bounded) : ¬s.visited.Beats s.best := by
  unfold Search.visited
  rw [Array.getD_eq_getD_getElem?]
  cases hslot : s.pool[s.nextSlot]? with
  | none => exact Chromosome.not_beats_self _
  | some parent => exact hbounded parent (Array.mem_of_getElem? hslot)

/-- Whatever beats the best after a step has come as the refill of that step. -/
theorem Turn.beats_best {taken : Step ω Gene Fitness} (h : Turn p cfg s w taken)
    (hs : s.records.Coherent) (hbounded : s.Bounded) (hc : c ∈ taken.search.pool)
    (hbeats : c.Beats taken.search.best) :
    ∃ slot fresh, refilled p cfg s w = some (slot, fresh) ∧ c = fresh.chromosome := by
  -- the best never gets worse, so what beats it now cannot have been in the pool before
  have hmember : c ∉ s.pool :=
    fun hc => (h.signal hs).not_beats (hbounded c hc) hbeats
  cases h with
  | silent hphase => exact absurd hc hmember
  | timedOut hphase hlate => exact absurd hc hmember
  | announced hphase htime => exact absurd hc hmember
  | unfilled hphase htime hroom hgen => exact absurd hc hmember
  | barren hphase htime hfull hbred => exact absurd hc hmember
  | filled hphase htime hroom hgen hbest =>
    rcases Array.mem_push.mp hc with hc | rfl
    · exact absurd hc hmember
    · exact absurd hbeats hbest
  | filledBest hphase htime hroom hgen hbest =>
    rw [promote_eq (s := s.widened _) hs hbest] at hc hbeats
    rcases Array.mem_push.mp hc with hc | rfl
    · exact absurd hc hmember
    · exact absurd hbeats (Chromosome.not_beats_self _)
  | @visit hphase htime hfull offspring hbred _ hverdict =>
    have hrecords : ((s.moved (s.brood p cfg w).notes).refill offspring).records = s.records := by
      simp
    have hbest : ((s.moved (s.brood p cfg w).notes).refill offspring).best = s.best :=
      congrArg Records.best hrecords
    -- the contest brings nothing in that beats the best, so it was there when the slot was decided
    have hprepared : c ∈ ((s.moved (s.brood p cfg w).notes).refill offspring).pool := by
      refine hverdict.mem_of_beats (by rw [hrecords]; exact hs) ?_ ?_ hc hbeats
      · rw [hbest]
        exact hbounded.visited
      · intro hkept d hd
        rw [getElem?_refill_of_keeps hbred hkept] at hd
        rw [hbest]
        exact hbounded d (Array.mem_of_getElem? hd)
    rw [refilled_of_visit hphase htime hfull hbred]
    rcases mem_refill hprepared with hc | hrefill
    · exact absurd hc hmember
    · exact hrefill

/-- A step overlooks the candidate with which it refills a slot if that is fitter than the best. -/
def Stride.Overlooks (p : Problem ω Gene Fitness) (cfg : Config) (stride : Stride ω Gene Fitness) :
    Prop :=
  ∃ slot fresh, refilled p cfg stride.before stride.world = some (slot, fresh) ∧
    fresh.chromosome ∈ stride.taken.search.pool ∧
    fresh.chromosome.Beats stride.taken.search.best

/-- A step leaves the bound of the pool intact unless it overlooks a refill. -/
theorem bounded_step (hs : s.records.Coherent) (hbounded : s.Bounded)
    (hseen : ¬(stride p cfg s w).Overlooks p cfg) : (step p cfg s w).search.Bounded := by
  intro c hc hbeats
  obtain ⟨slot, fresh, hrefilled, rfl⟩ :=
    (step_turn p cfg s w).beats_best hs hbounded hc hbeats
  exact hseen ⟨slot, fresh, hrefilled, hc, hbeats⟩

omit [Std.TransOrd Fitness] in
/-- Without refills there is none to overlook. -/
theorem not_overlooks (hp : NeverRefills p) (hs : Sound p s) :
    ¬(stride p cfg s w).Overlooks p cfg := by
  rintro ⟨slot, fresh, hrefilled, -⟩
  cases hrefilled.symm.trans (refilled_eq_none hp hs.recombines)

/-! ## Sessions -/

variable {steps : Nat} {changes : List (ω → ω)} {run : Session ω Gene Fitness}

theorem bounded_opened (h : session p cfg steps changes w = .ok run) : run.opened.Bounded := by
  obtain ⟨w', hstart, -⟩ := session_eq_ok h
  obtain ⟨-, first, -, hopened⟩ := start_eq_ok hstart
  intro c hc
  rw [hopened] at hc ⊢
  rw [List.mem_singleton.mp (Array.mem_def.mp hc)]
  exact Chromosome.not_beats_self _

/-- As long as no refill is overlooked the best bounds the pool. -/
theorem bounded_of_not_overlooks (h : session p cfg steps changes w = .ok run)
    (hseen : ∀ stride ∈ run.strides, ¬stride.Overlooks p cfg) :
    run.search.Bounded ∧ ∀ stride ∈ run.strides, stride.taken.search.Bounded := by
  have hinv := sound_induction
    (I := fun past s => (∀ stride ∈ past, ¬stride.Overlooks p cfg) →
      s.Bounded ∧ ∀ stride ∈ past, stride.taken.search.Bounded) h ?_ ?_
  · exact hinv hseen
  · exact fun _ => ⟨bounded_opened h, fun _ hstride => by cases hstride⟩
  · intro past s w hs hpast hseen
    obtain ⟨hbounded, hall⟩ :=
      hpast fun stride hstride => hseen stride (List.mem_append_left _ hstride)
    have hnext : (step p cfg s w).search.Bounded :=
      bounded_step hs.coherent hbounded (hseen _ (List.mem_append_right _ List.mem_cons_self))
    refine ⟨hnext, ?_⟩
    intro stride hstride
    rcases List.mem_append.mp hstride with hstride | hstride
    · exact hall stride hstride
    · rw [List.mem_singleton.mp hstride]
      exact hnext

theorem not_overlooks_of_neverRefills (hp : NeverRefills p)
    (h : session p cfg steps changes w = .ok run) :
    ∀ stride ∈ run.strides, ¬stride.Overlooks p cfg :=
  sound_strides h fun _ _ hs => not_overlooks hp hs

/--
**The best bounds the pool exactly as long as no refill is overlooked.** It bounds the pool of a
search that has just been opened. It bounds the pool after every step of a session if and only if no
step refills a slot with a candidate that is fitter than the best which the step leaves. So it does
at the end of every session in which that has not happened, and always if the problem never refills
a slot.
-/
theorem bounded_iff_not_overlooks (h : session p cfg steps changes w = .ok run) :
    run.opened.Bounded ∧
      ((∀ stride ∈ run.strides, stride.taken.search.Bounded) ↔
        ∀ stride ∈ run.strides, ¬stride.Overlooks p cfg) ∧
      ((∀ stride ∈ run.strides, ¬stride.Overlooks p cfg) → run.search.Bounded) ∧
      (NeverRefills p → run.search.Bounded) := by
  refine ⟨bounded_opened h, ⟨?_, fun hseen => (bounded_of_not_overlooks h hseen).2⟩,
    fun hseen => (bounded_of_not_overlooks h hseen).1,
    fun hp => (bounded_of_not_overlooks h (not_overlooks_of_neverRefills hp h)).1⟩
  rintro hbounded stride hstride ⟨slot, fresh, -, hmem, hbeats⟩
  exact hbounded stride hstride _ hmem hbeats

/-- A script in which the second candidate refills the only slot and its parent's child is worse. -/
def overlookedCandidate : World Random.Cycle Script :=
  ⟨⟨[0x80000000], []⟩, { tick := 1, candidates := [[5], [10]], children := [[4]] }⟩

/--
A search that ends with the best 5 while its pool holds 10. So one of its steps has overlooked a
refill.
-/
theorem overlooks_overlookedCandidate :
    ∃ run, session (scripted true) { timeLimit := some 2 } 3 [id, id] overlookedCandidate
        = .ok run ∧
      run.answers = [announcement ⟨[5], 5, .create, 0⟩,
        some (.ok (.timedOut ⟨[5], 5, .create, 0⟩))] ∧
      run.search.pool = #[⟨[10], 10, .create, 0⟩] ∧
      ∃ stride ∈ run.strides, stride.Overlooks (scripted true) { timeLimit := some 2 } := by
  have h : session (scripted true) { timeLimit := some 2 } 3 [id, id] overlookedCandidate
      = .ok _ := rfl
  refine ⟨_, h, rfl, rfl, ?_⟩
  refine Classical.byContradiction fun hseen => ?_
  have hbounded := (bounded_iff_not_overlooks h).2.2.1 fun stride hstride hoverlooks =>
    hseen ⟨stride, hstride, hoverlooks⟩
  exact hbounded ⟨[10], 10, .create, 0⟩ (Array.mem_singleton.mpr rfl) rfl

end EvolutionarySearch.Search
