import EvolutionarySearch.Proofs.Search.Conduct
import EvolutionarySearch.Proofs.Search.Truncation

/-!
# Grades in the place of fitness

A search compares fitnesses and does nothing else with them. So a problem may be given grades that
compare as its fitnesses do: its searches go through the same steps, draw the same words and give
the same answers, with a grade wherever there was a fitness.

The two searches may even go on in different worlds, as long as neither the draws, the operators nor
the clock tell them apart; the displays, which show a fitness or a grade, may write what they like.

* `InStep.step`, `InStep.next`, `InStep.legs` — a step, a pull and all pulls of searches in step
* `search_graded` — sessions and runs of a graded problem
-/

namespace EvolutionarySearch.Search

variable {ω Gene Fitness Grade : Type}

/-! ## Searches in step -/

/-- The second search is the first with its fitnesses graded, and has started at the same time. -/
structure InStep (f : Fitness → Grade) (s : Search Gene Fitness) (s' : Search Gene Grade) : Prop
    extends s.Mirrors f s' where
  started : s'.started = s.started

/-- Worlds that are alike show the same time. -/
def SameTime [Clock ω] (alike : ω → ω → Prop) : Prop :=
  ∀ w w', alike w w' → (Clock.now w' : Duration) = Clock.now w

/-- A display that does to the world, with a grade, what another one does with a fitness. -/
def SameDisplay (f : Fitness → Grade) (alike : ω → ω → Prop)
    (shows : Chromosome Gene Fitness → Duration → ω → ω)
    (display : Chromosome Gene Grade → Duration → ω → ω) : Prop :=
  ∀ c time w w', alike w w' → alike (shows c time w) (display (c.graded f) time w')

/-- The outcome with a grade in the place of the fitness. -/
def Outcome.graded (f : Fitness → Grade) (outcome : Outcome Gene Fitness) :
    Outcome Gene Grade where
  best := outcome.best.graded f
  timedOut := outcome.timedOut
  improvements := outcome.improvements
  elapsed := outcome.elapsed
  reached := outcome.reached.map f
  usage := outcome.usage

/-- Pulls with the same answer, of searches that stay in step. -/
structure Pull.Graded (f : Fitness → Grade) (alike : ω → ω → Prop) (pull : Pull ω Gene Fitness)
    (pull' : Pull ω Gene Grade) : Prop where
  answer : pull'.answer = pull.answer.map (Except.map (Improvement.graded f))
  search : pull.search.InStep f pull'.search
  world : alike pull.world pull'.world

/-- Sessions with the same answers, whose searches are in step after every pull. -/
structure Session.Graded (f : Fitness → Grade) (alike : ω → ω → Prop)
    (session : Session ω Gene Fitness) (session' : Session ω Gene Grade) : Prop where
  opened : session.opened.InStep f session'.opened
  pulls : List.Forall₂ (fun leg leg' => leg.pull.Graded f alike leg'.pull) session.legs
    session'.legs

/-- Reports with the same outcome, but for what has been noted. -/
structure Report.Graded (f : Fitness → Grade) (alike : ω → ω → Prop)
    (report : Report ω Gene Fitness) (report' : Report ω Gene Grade) : Prop where
  outcome : report'.outcome = report.outcome.map (Outcome.graded f)
  world : alike report.world report'.world

variable {f : Fitness → Grade} {alike : ω → ω → Prop} {s : Search Gene Fitness}
  {s' : Search Gene Grade} {w w' : ω} [Ord Fitness] [Ord Grade] [WordSource ω] [Clock ω]
  {p : Problem ω Gene Fitness} {display : Chromosome Gene Grade → Duration → ω → ω} {cfg : Config}
  {steps : Nat}

namespace InStep

omit [Ord Fitness] [Ord Grade] [WordSource ω] in
theorem elapsed (h : s.InStep f s') (htime : SameTime alike) (hw : alike w w') :
    s'.elapsed w' = s.elapsed w := by
  unfold Search.elapsed Clock.since
  rw [h.started, htime w w' hw]

omit [Ord Fitness] [Ord Grade] [WordSource ω] in
theorem finished (h : s.InStep f s') (htime : SameTime alike) (hw : alike w w')
    (best : Chromosome Gene Fitness) (timedOut : Bool) (reached : Array Fitness) :
    (s.finished best timedOut reached w).Graded f alike
      (s'.finished (best.graded f) timedOut (reached.map f) w') where
  outcome := by
    simp [Search.finished, Outcome.graded, Except.map, h.elapsed htime hw, h.repertoire]
  world := hw

variable (hf : Faithful f) (hp : Indistinct p alike) (htime : SameTime alike) (display cfg)

include hf hp htime

theorem step (h : s.InStep f s') (hw : alike w w') :
    (Search.step p cfg s w).search.InStep f
        (Search.step (p.graded f display) cfg s' w').search ∧
      alike (Search.step p cfg s w).world (Search.step (p.graded f display) cfg s' w').world ∧
      (Search.step (p.graded f display) cfg s' w').progress
        = (Search.step p cfg s w).progress.graded f := by
  -- both deadlines are read off the same time
  have hlate : s'.expired cfg w' = s.expired cfg w := by
    unfold expired
    rw [h.elapsed htime hw]
  obtain ⟨hmirrors, hworld, hprogress⟩ := h.toMirrors.step hf hp display cfg cfg.timeLimit
    cfg.timeLimit hw fun _ => hlate
  exact ⟨⟨hmirrors, step_started.trans (h.started.trans step_started.symm)⟩, hworld, hprogress⟩

theorem next (h : s.InStep f s') (hw : alike w w') (steps : Nat) :
    Option.Rel (Pull.Graded f alike) (Search.next p cfg steps s w)
      (Search.next (p.graded f display) cfg steps s' w') := by
  induction steps generalizing s s' w w' with
  | zero => exact .none
  | succ steps ih =>
    obtain ⟨hsearch, hworld, hprogress⟩ := h.step display cfg hf hp htime hw
    simp only [Search.next]
    rw [hprogress]
    cases (Search.step p cfg s w).progress with
    | pending => exact ih hsearch hworld
    | answered answer => exact .some ⟨rfl, hsearch, hworld⟩
    | ended => exact .some ⟨rfl, hsearch, hworld⟩

/-! ## Sessions -/

theorem legs (h : s.InStep f s') (hw : alike w w') (steps : Nat) {changes changes' : List (ω → ω)}
    (hchanges : List.Forall₂ (SameChange alike) changes changes') :
    List.Forall₂ (fun leg leg' => leg.pull.Graded f alike leg'.pull)
      (Search.legs p cfg steps changes s w)
      (Search.legs (p.graded f display) cfg steps changes' s' w') := by
  induction hchanges generalizing s s' w w' with
  | nil => exact .nil
  | @cons change change' changes changes' hchange _ ih =>
    have hnext := h.next display cfg hf hp htime (hchange w w' hw) steps
    simp only [Search.legs]
    generalize Search.next p cfg steps s (change w) = pull at hnext
    generalize Search.next (p.graded f display) cfg steps s' (change' w') = pull' at hnext
    cases hnext with
    | none => exact .nil
    | some hpull => exact .cons hpull (ih hpull.search hpull.world)

end InStep

section Starts

variable (hp : Indistinct p alike) (htime : SameTime alike) (f display cfg)

include hp htime

omit [Ord Fitness] [Ord Grade] in
/-- Two searches that are started in alike worlds start in step, or fail with the same error. -/
theorem InStep.start (hw : alike w w') :
    Matching alike (SameOutcome (InStep f)) (Search.start p cfg w)
      (Search.start (p.graded f display) cfg w') := by
  obtain ⟨built, built', v, v', hgen, hgen', hsame, hworld⟩ :=
    (hp.generate f display cfg.targetLength hw).exists_eq
  unfold Search.start
  split
  · exact ⟨.error _, hw⟩
  · dsimp only
    rw [hgen, hgen']
    cases hsame with
    | error error => exact ⟨.error error, hworld⟩
    | @ok first first' hfirst =>
      have hchromosome : first'.chromosome = first.chromosome.graded f := hfirst
      refine ⟨.ok ?_, hworld⟩
      dsimp only
      rw [hchromosome]
      exact ⟨.opening f _ _ _ _, htime w w' hw⟩

variable (hf : Faithful f)

include hf

theorem Session.graded (hw : alike w w') (steps : Nat) {changes changes' : List (ω → ω)}
    (hchanges : List.Forall₂ (SameChange alike) changes changes') :
    SameOutcome (Session.Graded f alike) (session p cfg steps changes w)
      (session (p.graded f display) cfg steps changes' w') := by
  obtain ⟨started, started', v, v', hfirst, hsecond, hsame, hworld⟩ :=
    (InStep.start f display cfg hp htime hw).exists_eq
  unfold session
  rw [hfirst, hsecond]
  cases hsame with
  | error error => exact .error error
  | ok hstep => exact .ok ⟨hstep, hstep.legs display cfg hf hp htime hworld steps hchanges⟩

/-! ## Runs -/

variable (hdisplay : SameDisplay f alike p.display display)

include hdisplay

theorem InStep.pursue (h : s.InStep f s') (hw : alike w w') (steps pulls : Nat)
    (reached : Array Fitness) :
    Option.Rel (Report.Graded f alike) (Search.pursue p cfg steps pulls s reached w)
      (Search.pursue (p.graded f display) cfg steps pulls s' (reached.map f) w') := by
  induction pulls generalizing s s' w w' reached with
  | zero => exact .none
  | succ pulls ih =>
    have hnext := h.next display cfg hf hp htime hw steps
    simp only [Search.pursue]
    generalize Search.next p cfg steps s w = pull at hnext
    generalize Search.next (p.graded f display) cfg steps s' w' = pull' at hnext
    cases hnext with
    | none => exact .none
    | @some pull pull' hpull =>
      obtain ⟨hanswer, hsearch, hworld⟩ := hpull
      obtain ⟨answer, t, v⟩ := pull
      obtain ⟨answer', t', v'⟩ := pull'
      dsimp only at hanswer hsearch hworld
      subst hanswer
      rcases answer with _ | error | c | best
      · exact .some ⟨rfl, hworld⟩
      · exact .some ⟨rfl, hworld⟩
      · have hshown : alike (p.display c (t.elapsed v) v)
            (display (c.graded f) (t'.elapsed v') v') := by
          rw [hsearch.elapsed htime hworld]
          exact hdisplay c _ v v' hworld
        have hreached : (reached.map f).push (c.graded f).fitness
            = (reached.push c.fitness).map f := Array.map_push.symm
        have hoptimal : compare (c.graded f).fitness (p.graded f display).optimal
            = compare c.fitness p.optimal := hf _ _
        simp only [Option.map_some, Except.map, Improvement.graded]
        rw [hoptimal, hreached]
        split
        · exact ih hsearch hshown _
        · have hreported : InStep f
              (t.report #[.optimumReached c.fitness (reached.push c.fitness).size])
              (t'.report #[.optimumReached (c.graded f).fitness
                ((reached.push c.fitness).map f).size]) :=
            ⟨hsearch.toMirrors.report _ _, hsearch.started⟩
          exact .some (hreported.finished htime hshown c false _)
      · have hshown : alike (p.display best (t.elapsed v) v)
            (display (best.graded f) (t'.elapsed v') v') := by
          rw [hsearch.elapsed htime hworld]
          exact hdisplay best _ v v' hworld
        exact .some (hsearch.finished htime hshown best true reached)

theorem Report.graded (hw : alike w w') (steps : Nat) :
    Option.Rel (Report.Graded f alike) (run p cfg steps w)
      (run (p.graded f display) cfg steps w') := by
  obtain ⟨started, started', v, v', hfirst, hsecond, hsame, hworld⟩ :=
    (InStep.start f display cfg hp htime hw).exists_eq
  unfold run
  rw [hfirst, hsecond]
  cases hsame with
  | error error => exact .some ⟨rfl, hworld⟩
  | ok hstep =>
    have hpursued := hstep.pursue f display cfg hp htime hf hdisplay hworld steps steps #[]
    rwa [Array.map_empty] at hpursued

end Starts

/--
**A search uses fitness through its order only.** Let a grade compare as the fitness does, and start
a problem and the graded problem in worlds that neither the draws, the operators nor the clock tell
apart, for instance in one world. Then both fail with the same error, or both sessions give the same
answers with every fitness graded, and after each pull the two searches hold the same, graded, in
worlds that are still alike. Runs have the same outcome, graded, if the displays leave such worlds
alike.
-/
theorem search_graded (hf : Faithful f) (hp : Indistinct p alike) (htime : SameTime alike)
    (display : Chromosome Gene Grade → Duration → ω → ω) (cfg : Config) (steps : Nat)
    (hw : alike w w') :
    (∀ changes changes', List.Forall₂ (SameChange alike) changes changes' →
        SameOutcome (Session.Graded f alike) (session p cfg steps changes w)
          (session (p.graded f display) cfg steps changes' w')) ∧
      (SameDisplay f alike p.display display →
        Option.Rel (Report.Graded f alike) (run p cfg steps w)
          (run (p.graded f display) cfg steps w')) :=
  ⟨fun _ _ hchanges => Session.graded f display cfg hp htime hf hw steps hchanges,
    fun hdisplay => Report.graded f display cfg hp htime hf hdisplay hw steps⟩

/-- Grades that are twice as far apart. -/
def spread (n : Nat) : Nat := 2 * n + 1

theorem faithful_spread : Faithful spread := by
  intro a b
  simp only [spread, compare, compareOfLessAndEq]
  grind

/-- A script in which the first child is as good as the optimum, once for numbers and once for
grades: a session up to the last candidate, and a run up to the optimum. -/
theorem search_graded_spread :
    ∃ run run' report report',
      session (scripted false) { poolSize := 3 } 4 [id, id] threeCandidates = .ok run ∧
      session ((scripted false).graded spread fun _ _ w => w) { poolSize := 3 } 4 [id, id]
        threeCandidates = .ok run' ∧
      run'.answers = [announcement ⟨[3], 7, .create, 0⟩, announcement ⟨[7], 15, .create, 0⟩] ∧
      run.Graded spread Eq run' ∧
      Search.run (scripted false) { poolSize := 3 } 9 reachedOptimum.world = some report ∧
      Search.run ((scripted false).graded spread fun _ _ w => w) { poolSize := 3 } 9
        reachedOptimum.world = some report' ∧
      report'.outcome.toOption.map (·.reached) = some #[7, 15, 201] ∧
      report.Graded spread Eq report' := by
  have hplain : session (scripted false) { poolSize := 3 } 4 [id, id] threeCandidates = .ok _ := rfl
  have hgraded : session ((scripted false).graded spread fun _ _ w => w) { poolSize := 3 } 4
      [id, id] threeCandidates = .ok _ := rfl
  have hrun : Search.run (scripted false) { poolSize := 3 } 9 reachedOptimum.world = some _ := rfl
  have hrun' : Search.run ((scripted false).graded spread fun _ _ w => w) { poolSize := 3 } 9
      reachedOptimum.world = some _ := rfl
  have hsame := fun steps (w : World Random.Cycle Script) =>
    search_graded faithful_spread (Indistinct.refl (scripted false))
      (fun _ _ h => congrArg Clock.now h.symm) (fun _ _ w => w) { poolSize := 3 } steps (Eq.refl w)
  have hchanges : List.Forall₂ (SameChange Eq)
      [id, id] [(id : World Random.Cycle Script → World Random.Cycle Script), id] :=
    .cons (fun _ _ h => h) (.cons (fun _ _ h => h) .nil)
  have hsession := ((hsame 4 threeCandidates).1 _ _ hchanges).of_ok hplain hgraded
  have hreport := (hsame 9 reachedOptimum.world).2 fun _ _ _ _ h => h
  rw [hrun, hrun'] at hreport
  exact ⟨_, _, _, _, hplain, hgraded, rfl, hsession, hrun, hrun', rfl,
    Option.rel_some_some.mp hreport⟩

end EvolutionarySearch.Search
