import EvolutionarySearch.Proofs.Search.Bound

/-!
# What is announced

While no slot is refilled, the announcements can be told from the evaluated candidates alone: a
candidate is announced exactly if it is fitter than all that were evaluated before it. Most children
are compared with their parent only. That this suffices is due to the bound of the pool.

* `Turn.announces` — a step announces its candidate if and only if it beats the best
* `bests_eq_strictMaxima` — the announcements of a session are the strict maxima of its candidates
-/

namespace EvolutionarySearch.Search

variable {ω Gene Fitness : Type} [Ord Fitness]

/-! ## Strict maxima -/

/-- The chromosomes of a sequence that are fitter than all before them and all of the past. -/
def strictMaxima (past : List (Chromosome Gene Fitness)) :
    List (Chromosome Gene Fitness) → List (Chromosome Gene Fitness)
  | [] => []
  | c :: rest =>
    if ∀ d ∈ past, c.Beats d then c :: strictMaxima (past ++ [c]) rest
    else strictMaxima (past ++ [c]) rest

theorem strictMaxima_append_singleton (past cs : List (Chromosome Gene Fitness))
    (c : Chromosome Gene Fitness) :
    strictMaxima past (cs ++ [c])
      = strictMaxima past cs ++ if ∀ d ∈ past ++ cs, c.Beats d then [c] else [] := by
  induction cs generalizing past with
  | nil =>
    simp only [List.nil_append, strictMaxima, List.append_nil]
  | cons first rest ih =>
    have hpast : past ++ [first] ++ rest = past ++ first :: rest := by simp
    rw [List.cons_append, strictMaxima, strictMaxima, ih, hpast]
    split <;> rfl

/-- What beats the best of a sequence is its next strict maximum. -/
theorem strictMaxima_append_of_beats [Std.TransOrd Fitness] {cs : List (Chromosome Gene Fitness)}
    {best c : Chromosome Gene Fitness} (hmaximal : ∀ d ∈ cs, ¬d.Beats best) (h : c.Beats best) :
    strictMaxima [] (cs ++ [c]) = strictMaxima [] cs ++ [c] := by
  rw [strictMaxima_append_singleton, if_pos]
  intro d hd
  exact h.trans_not_beats (hmaximal d hd)

theorem strictMaxima_append_of_not_beats {cs : List (Chromosome Gene Fitness)}
    {best c : Chromosome Gene Fitness} (hmem : best ∈ cs) (h : ¬c.Beats best) :
    strictMaxima [] (cs ++ [c]) = strictMaxima [] cs := by
  rw [strictMaxima_append_singleton, if_neg, List.append_nil]
  exact fun hall => h (hall best hmem)

/-! ## Steps -/

variable [WordSource ω] [Clock ω] [Std.TransOrd Fitness] {p : Problem ω Gene Fitness}
  {cfg : Config} {s : Search Gene Fitness} {w : ω}

/-- What a step says about the one candidate that it has evaluated, if any. -/
inductive Weighing (s : Search Gene Fitness) (taken : Step ω Gene Fitness) : Prop where
  | idle (hnone : taken.evaluated = []) (hsilent : bests taken.progress.answers = [])
    (hbest : taken.search.best = s.best)
  | passed {candidate : Evaluation Gene Fitness} (hone : taken.evaluated = [candidate])
    (hsilent : bests taken.progress.answers = []) (hbest : taken.search.best = s.best)
    (hweak : ¬candidate.chromosome.Beats s.best)
  | announced {candidate : Evaluation Gene Fitness} (hone : taken.evaluated = [candidate])
    (hanswers : bests taken.progress.answers = [candidate.chromosome])
    (hbest : taken.search.best = candidate.chromosome)
    (hbeats : candidate.chromosome.Beats s.best)

omit [WordSource ω] [Clock ω] in
/-- A weighing adds one candidate to a sequence, and an announcement to its strict maxima. -/
theorem Weighing.append {taken : Step ω Gene Fitness} {cs : List (Chromosome Gene Fitness)}
    (h : Weighing s taken) (hmem : s.best ∈ cs) (hmaximal : ∀ c ∈ cs, ¬c.Beats s.best) :
    taken.search.best ∈ cs ++ taken.evaluated.map (·.chromosome) ∧
      (∀ c ∈ cs ++ taken.evaluated.map (·.chromosome), ¬c.Beats taken.search.best) ∧
      strictMaxima [] (cs ++ taken.evaluated.map (·.chromosome))
        = strictMaxima [] cs ++ bests taken.progress.answers := by
  cases h with
  | idle hnone hsilent hbest =>
    rw [hnone, hsilent, hbest, List.map_nil, List.append_nil, List.append_nil]
    exact ⟨hmem, hmaximal, rfl⟩
  | passed hone hsilent hbest hweak =>
    rw [hone, hsilent, hbest, List.map_singleton, List.append_nil]
    refine ⟨List.mem_append_left _ hmem, ?_, strictMaxima_append_of_not_beats hmem hweak⟩
    intro c hc
    rcases List.mem_append.mp hc with hc | hc
    · exact hmaximal c hc
    · rw [List.mem_singleton.mp hc]
      exact hweak
  | announced hone hanswers hbest hbeats =>
    rw [hone, hanswers, hbest, List.map_singleton]
    refine ⟨List.mem_append_right _ (List.mem_singleton.mpr rfl), ?_,
      strictMaxima_append_of_beats hmaximal hbeats⟩
    intro c hc
    rcases List.mem_append.mp hc with hc | hc
    · exact (hbeats.trans_not_beats (hmaximal c hc)).not_beats
    · rw [List.mem_singleton.mp hc]
      exact Chromosome.not_beats_self _

/-- A contest announces the child if and only if it beats the best. -/
theorem Verdict.announces {slot : Nat} {parent : Chromosome Gene Fitness} {kept : Bool}
    {child : Evaluation Gene Fitness} {taken : Step ω Gene Fitness}
    (h : Verdict cfg s slot parent kept child.chromosome w [child] taken)
    (hs : s.records.Coherent) (hparent : ¬parent.Beats s.best) : Weighing s taken := by
  have hgrown : (s.grown slot parent kept).best = s.best :=
    congrArg Records.best (records_grown s slot parent kept)
  cases h with
  | dropped hworse hage =>
    exact .passed rfl rfl rfl
      (Chromosome.not_beats_trans (Chromosome.not_beats_of_lt hworse) hparent)
  | endured hworse hage hyoung =>
    exact .passed rfl rfl hgrown
      (Chromosome.not_beats_trans (Chromosome.not_beats_of_lt hworse) hparent)
  | retired hworse hage hold =>
    have hbest : ((s.grown slot parent kept).anneal slot child.chromosome w).1.best = s.best :=
      (congrArg Records.best (records_anneal _ slot child.chromosome w)).trans hgrown
    exact .passed rfl rfl hbest
      (Chromosome.not_beats_trans (Chromosome.not_beats_of_lt hworse) hparent)
  | replaced hequal =>
    exact .passed rfl rfl rfl
      (Chromosome.not_beats_trans (Chromosome.not_beats_of_eq hequal) hparent)
  | climbed hbetter hbest => exact .passed rfl rfl rfl hbest
  | surpassed hbetter hbest =>
    rw [promote_eq (s := s.settle slot child.chromosome) hs hbest]
    exact .announced rfl rfl rfl hbest

/--
A step without a refill announces the candidate that it has evaluated if and only if the candidate
beats the best. The first candidate apart, nothing else is announced.
-/
theorem Turn.announces {taken : Step ω Gene Fitness} (h : Turn p cfg s w taken)
    (hs : s.records.Coherent) (hbounded : s.Bounded) (hphase : s.phase ≠ .opening)
    (hrefilled : refilled p cfg s w = none) : Weighing s taken := by
  cases h with
  | silent hended => exact .idle rfl rfl rfl
  | timedOut hended hlate => exact .idle rfl rfl rfl
  | announced hopening htime => exact absurd hopening hphase
  | unfilled hrunning htime hroom hgen => exact .idle rfl rfl rfl
  | barren hrunning htime hfull hbred => exact .idle rfl rfl rfl
  | filled hrunning htime hroom hgen hbest => exact .passed rfl rfl rfl hbest
  | filledBest hrunning htime hroom hgen hbest =>
    rw [promote_eq (s := s.widened _) hs hbest]
    exact .announced rfl rfl rfl hbest
  | @visit hrunning htime hfull offspring hbred _ hverdict =>
    rw [refilled_of_visit hrunning htime hfull hbred] at hrefilled
    -- without a refill the pool is as it was, and the child is the only candidate
    have hprepared : (s.moved (s.brood p cfg w).notes).refill offspring
        = s.moved (s.brood p cfg w).notes := by
      unfold refill
      rw [hrefilled]
    have hone : offspring.evaluated = [offspring.child] := by
      unfold Offspring.evaluated
      rw [hrefilled]
      rfl
    rw [hprepared, hone] at hverdict
    have hweighing := hverdict.announces hs hbounded.visited
    cases hweighing with
    | idle hnone hsilent hbest => exact .idle hnone hsilent hbest
    | passed hone hsilent hbest hweak => exact .passed hone hsilent hbest hweak
    | announced hone hanswers hbest hbeats => exact .announced hone hanswers hbest hbeats

omit [Std.TransOrd Fitness] in
/-- The first step announces the first candidate or ends the search. -/
theorem Turn.opens {taken : Step ω Gene Fitness} (h : Turn p cfg s w taken)
    (hopening : s.phase = .opening) :
    taken.evaluated = [] ∧ taken.search.best = s.best ∧
      (taken.progress.answers = [some (.ok (.timedOut s.best))] ∨
        taken.progress.answers = [announcement s.best]) := by
  have hrunning : s.phase ≠ .running := by
    rw [hopening]
    decide
  cases h with
  | silent hended => rw [hopening] at hended; cases hended
  | timedOut hended hlate => exact ⟨rfl, rfl, .inl rfl⟩
  | announced hphase htime => exact ⟨rfl, rfl, .inr rfl⟩
  | unfilled hphase htime hroom hgen => exact absurd hphase hrunning
  | filled hphase htime hroom hgen hbest => exact absurd hphase hrunning
  | filledBest hphase htime hroom hgen hbest => exact absurd hphase hrunning
  | barren hphase htime hfull hbred => exact absurd hphase hrunning
  | visit hphase htime hfull hbred hverdict => exact absurd hphase hrunning

/-! ## Sessions -/

/-- What the candidates that have been evaluated say about a search, and about its answers. -/
structure Weighed (first : Chromosome Gene Fitness) (past : List (Stride ω Gene Fitness))
    (s : Search Gene Fitness) : Prop where
  bounded : s.Bounded
  mem : s.best ∈ first :: evaluatedBy past
  maximal : ∀ c ∈ first :: evaluatedBy past, ¬c.Beats s.best
  opened : s.phase = .opening → past = [] ∧ s.best = first
  /-- Unless the search has timed out at once it has announced the strict maxima. -/
  maxima : s.phase ≠ .opening →
    (∃ c, (answersBy past).head? = some (some (.ok (.timedOut c)))) ∨
      bests (answersBy past) = strictMaxima [] (first :: evaluatedBy past)

variable {first : Chromosome Gene Fitness} {past : List (Stride ω Gene Fitness)}

theorem Weighed.step_opening (hs : Sound p s) (hpast : Weighed first past s)
    (hbounded : (step p cfg s w).search.Bounded) (hopening : s.phase = .opening) :
    Weighed first (past ++ [stride p cfg s w]) (step p cfg s w).search := by
  obtain ⟨rfl, rfl⟩ := hpast.opened hopening
  obtain ⟨hnone, hbest, hanswers⟩ := (step_turn p cfg s w).opens hopening
  have hevaluated : evaluatedBy ([] ++ [stride p cfg s w]) = [] := by
    simp [stride, hnone]
  have hanswered : answersBy ([] ++ [stride p cfg s w]) = (step p cfg s w).progress.answers :=
    answersBy_singleton _
  refine ⟨hbounded, ?_, ?_, ?_, ?_⟩
  · rw [hbest]
    exact List.mem_cons_self
  · rw [hevaluated, hbest]
    intro c hc
    rw [List.mem_singleton.mp hc]
    exact Chromosome.not_beats_self _
  · exact fun hstill => absurd hstill (step_signal p cfg w hs.coherent).phase_ne_opening
  · intro _
    rw [hevaluated, hanswered]
    rcases hanswers with hanswers | hanswers
    · exact .inl ⟨s.best, by rw [hanswers]; rfl⟩
    · exact .inr (by rw [hanswers]; simp [bests, announcement, Answer.best?, strictMaxima])

theorem Weighed.step (hs : Sound p s) (hpast : Weighed first past s)
    (hrefilled : refilled p cfg s w = none) :
    Weighed first (past ++ [stride p cfg s w]) (step p cfg s w).search := by
  have hbounded : (Search.step p cfg s w).search.Bounded := by
    refine bounded_step hs.coherent hpast.bounded ?_
    rintro ⟨slot, fresh, hsome, -⟩
    rw [stride, hrefilled] at hsome
    cases hsome
  by_cases hopening : s.phase = .opening
  · exact hpast.step_opening hs hbounded hopening
  have hevaluated : first :: evaluatedBy (past ++ [stride p cfg s w])
      = first :: evaluatedBy past ++ (Search.step p cfg s w).evaluated.map (·.chromosome) := by
    rw [evaluatedBy_append, evaluatedBy_singleton, stride, List.cons_append]
  have hanswered : answersBy (past ++ [stride p cfg s w])
      = answersBy past ++ (Search.step p cfg s w).progress.answers := by
    rw [answersBy_append, answersBy_singleton, stride]
  have hweighing :=
    (step_turn p cfg s w).announces hs.coherent hpast.bounded hopening hrefilled
  -- the best stands for all earlier candidates, so beating it is being a strict maximum
  obtain ⟨hmem, hmaximal, hnext⟩ := hweighing.append hpast.mem hpast.maximal
  rw [← hevaluated] at hmem hmaximal hnext
  refine ⟨hbounded, hmem, hmaximal, ?_, ?_⟩
  · exact fun hstill => absurd hstill (step_signal p cfg w hs.coherent).phase_ne_opening
  · intro _
    rw [hanswered, hnext, bests_append]
    rcases hpast.maxima hopening with ⟨c, hc⟩ | hmaxima
    · exact .inl ⟨c, by rw [List.head?_append, hc]; rfl⟩
    · exact .inr (by rw [hmaxima])

theorem weighed_of_session {steps : Nat} {changes : List (ω → ω)} {run : Session ω Gene Fitness}
    (h : session p cfg steps changes w = .ok run)
    (hrefilled : ∀ stride ∈ run.strides, refilled p cfg stride.before stride.world = none) :
    Weighed run.opened.best run.strides run.search := by
  have hinv := sound_induction
    (I := fun past s =>
      (∀ stride ∈ past, refilled p cfg stride.before stride.world = none) →
        Weighed run.opened.best past s) h ?_ ?_
  · exact hinv hrefilled
  · intro _
    obtain ⟨w', hstart, -⟩ := session_eq_ok h
    obtain ⟨-, first, -, hopened⟩ := start_eq_ok hstart
    refine ⟨bounded_opened h, List.mem_cons_self, ?_, fun _ => ⟨rfl, rfl⟩, ?_⟩
    · intro c hc
      rw [List.mem_singleton.mp hc]
      exact Chromosome.not_beats_self _
    · rw [hopened]
      exact fun hphase => absurd rfl hphase
  · intro past s w hs hpast hrefilled
    have hearlier := hpast fun stride hstride => hrefilled stride (List.mem_append_left _ hstride)
    refine hearlier.step hs ?_
    exact hrefilled (stride p cfg s w) (List.mem_append_right _ List.mem_cons_self)

/--
**The announcements are the strict maxima of the candidates.** While no slot is refilled, and unless
the search has timed out before the announcement of its first candidate, a candidate has been
announced exactly if it is fitter than all that were evaluated before it. The best is among the
candidates and none of them is fitter.
-/
theorem bests_eq_strictMaxima {steps : Nat} {changes : List (ω → ω)}
    {run : Session ω Gene Fitness} {answer : Answer Gene Fitness}
    (h : session p cfg steps changes w = .ok run)
    (hrefills : NeverRefills p ∨
      ∀ stride ∈ run.strides, refilled p cfg stride.before stride.world = none)
    (hfirst : run.answers.head? = some answer) (htime : ∀ c, answer ≠ some (.ok (.timedOut c))) :
    bests run.answers = strictMaxima [] run.evaluated ∧ run.search.best ∈ run.evaluated ∧
      ∀ c ∈ run.evaluated, ¬c.Beats run.search.best := by
  have hrefilled : ∀ stride ∈ run.strides,
      refilled p cfg stride.before stride.world = none := by
    rcases hrefills with hp | hrefilled
    · exact refilled_eq_none_of_session hp h
    · exact hrefilled
  have hweighed := weighed_of_session h hrefilled
  rw [answers_eq h] at hfirst ⊢
  refine ⟨?_, hweighed.mem, hweighed.maximal⟩
  have hphase : run.search.phase ≠ .opening := by
    intro hopening
    rw [(hweighed.opened hopening).1] at hfirst
    cases hfirst
  rcases hweighed.maxima hphase with ⟨c, hc⟩ | hmaxima
  · rw [hfirst] at hc
    exact absurd (Option.some.inj hc) (htime c)
  · exact hmaxima

/-- A script with children worse than their parents, as good as them, and better. -/
def manyChildren : World Random.Cycle Script :=
  ⟨⟨[], []⟩,
    { candidates := [[5], [3]], children := [[4], [4], [5], [4], [6], [6], [8]] }⟩

/-- Three of nine candidates are announced, and two children are better than their parent only. -/
theorem bests_eq_strictMaxima_manyChildren :
    ∃ run, session (scripted false) { poolSize := 2, maxAge := some 5 } 9 [id, id, id] manyChildren
        = .ok run ∧
      run.evaluated.map (·.fitness) = [5, 3, 4, 4, 5, 4, 6, 6, 8] ∧
      (strictMaxima [] run.evaluated).map (·.fitness) = [5, 6, 8] ∧
      bests run.answers = strictMaxima [] run.evaluated ∧ run.search.best ∈ run.evaluated ∧
      ∀ c ∈ run.evaluated, ¬c.Beats run.search.best := by
  have h : session (scripted false) { poolSize := 2, maxAge := some 5 } 9 [id, id, id] manyChildren
      = .ok _ := rfl
  refine ⟨_, h, rfl, by decide, ?_⟩
  exact bests_eq_strictMaxima h (.inl (.inl rfl)) rfl (fun _ h => by cases h)

end EvolutionarySearch.Search
