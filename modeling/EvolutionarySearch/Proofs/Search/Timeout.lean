import EvolutionarySearch.Proofs.Search.Conduct

/-!
# Runs that time out

A run that ends by the time limit is meant to have missed the optimum. The optimum is looked for
among the announcements only, and a candidate is announced by the step that has built it, except for
the first one: the clock is read between its construction and its announcement. So an optimum that
is built first can be returned as a timeout, and no other can.

* `next_of_unannounced` — the pull by which the first candidate is announced, or the time is up
* `timedOut_cases` — a timeout is below the optimum, or it is a belated optimum
* `timeouts_degraded` — which runs return a timeout that is below the optimum
-/

namespace EvolutionarySearch.Search

variable {ω Gene Fitness : Type} [Ord Fitness] [Clock ω] {p : Problem ω Gene Fitness}
  {report : Report ω Gene Fitness} {outcome : Outcome Gene Fitness}

/-- A run that is reported as timed out has ended with just that answer. -/
theorem Concludes.of_timedOut {reached : List Fitness} {pull : Pull ω Gene Fitness}
    (h : Concludes p reached pull report) (houtcome : report.outcome = .ok outcome)
    (htimed : outcome.timedOut = true) :
    pull.answer = some (.ok (.timedOut outcome.best)) ∧ outcome.reached = reached.toArray := by
  cases h with
  | exhausted hanswer => cases houtcome
  | refused hanswer => cases houtcome
  | timedOut hanswer =>
    cases houtcome
    exact ⟨hanswer, rfl⟩
  | optimal hanswer hs hoptimal =>
    cases houtcome
    cases htimed

variable [WordSource ω] {cfg : Config} {s : Search Gene Fitness} {w w' : ω} {steps : Nat}

/-! ## The first pull -/

/-- The first candidate is announced, unless the time is up by then. -/
theorem next_of_unannounced (p : Problem ω Gene Fitness) (cfg : Config) (steps : Nat) (w : ω)
    (hphase : s.phase = .opening) :
    next p cfg (steps + 1) s w = some
      (if s.expired cfg w = true then ⟨some (.ok (.timedOut s.best)), (s.timeOut w).search, w⟩
      else ⟨announcement s.best, (s.announce w).search, w⟩) := by
  simp only [next, step, hphase]
  by_cases hexpired : s.expired cfg w = true
  · rw [if_pos hexpired, if_pos hexpired]
    rfl
  · rw [if_neg hexpired, if_neg hexpired]
    rfl

/-- The first pull is answered with a timeout only if the time is up. -/
theorem expired_of_next {pull : Pull ω Gene Fitness} {best : Chromosome Gene Fitness}
    (hphase : s.phase = .opening) (h : next p cfg steps s w = some pull)
    (hanswer : pull.answer = some (.ok (.timedOut best))) : s.expired cfg w = true := by
  obtain ⟨rest, rfl⟩ := exists_steps_of_next h
  rw [next_of_unannounced p cfg rest w hphase] at h
  by_cases hexpired : s.expired cfg w = true
  · exact hexpired
  · rw [if_neg hexpired] at h
    cases h
    cases hanswer

/-- If nothing is announced before the last pull, that is the first one. -/
theorem Course.next_of_nil {early : List (Leg ω Gene Fitness)} {last : Leg ω Gene Fitness}
    (h : Course p cfg steps s w [] early last) : next p cfg steps s w = some last.pull := by
  obtain rfl : early = [] := List.map_eq_nil_iff.mp h.answers
  have hlegs := h.legs
  simp only [displays, List.map_nil, Search.legs, id, List.nil_append] at hlegs
  cases hnext : next p cfg steps s w with
  | none => simp [hnext] at hlegs
  | some pull =>
    rw [hnext] at hlegs
    rw [← (List.cons.inj hlegs).1]

/-- A run that returns a chromosome has started a search and followed it. -/
theorem exists_course_of_run (h : run p cfg steps w = some report)
    (houtcome : report.outcome = .ok outcome) :
    ∃ s w' found early last, start p cfg w = (.ok s, w') ∧
      Course p cfg steps s w' found early last ∧
      Concludes p (found.map (·.fitness)) last.pull report := by
  unfold run at h
  split at h
  · cases h
    cases houtcome
  · next s w' hstart =>
    obtain ⟨found, early, last, hcourse, hend⟩ := pursue_course h
    exact ⟨s, w', found, early, last, hstart, hcourse, by simpa using hend⟩

/-! ## Belated optima -/

/-- The first candidate reaches the optimum, but the time is up before it is announced. -/
structure Belated (p : Problem ω Gene Fitness) (cfg : Config) (w : ω) (s : Search Gene Fitness)
    (w' : ω) : Prop where
  started : start p cfg w = (.ok s, w')
  expired : s.expired cfg w' = true
  optimal : compare s.best.fitness p.optimal ≠ .lt

/-- A run returns the first candidate as a timeout, without any improvement. -/
def ReturnsUnannounced (p : Problem ω Gene Fitness) (cfg : Config) (steps : Nat) (w : ω)
    (first : Chromosome Gene Fitness) : Prop :=
  ∃ report outcome, run p cfg steps w = some report ∧ report.outcome = .ok outcome ∧
    outcome.timedOut = true ∧ outcome.best = first ∧ outcome.reached = #[]

/-- A belated optimum is returned as a timeout by every run that may take a step. -/
theorem Belated.returned (h : Belated p cfg w s w') (steps : Nat) :
    ReturnsUnannounced p cfg (steps + 1) w s.best := by
  obtain ⟨-, first, -, hopening⟩ := start_eq_ok h.started
  have hnext := next_of_unannounced p cfg steps w' (s := s) (by rw [hopening]; rfl)
  rw [if_pos h.expired] at hnext
  have hrun : run p cfg (steps + 1) w = some ((s.timeOut w').search.finished s.best true #[]
      (p.display s.best ((s.timeOut w').search.elapsed w') w')) := by
    simp only [run, h.started, pursue, hnext]
  exact ⟨_, _, hrun, rfl, rfl, rfl, rfl⟩

variable [Std.TransOrd Fitness]

/-- A timeout carries the last announcement, or the first candidate if there was none. -/
theorem Course.best_of_timedOut {found : List (Chromosome Gene Fitness)}
    {early : List (Leg ω Gene Fitness)} {last : Leg ω Gene Fitness}
    {best : Chromosome Gene Fitness} (h : Course p cfg steps s w found early last)
    (hs : s.records.Coherent) (hphase : s.phase = .opening)
    (hanswer : last.pull.answer = some (.ok (.timedOut best))) : best = found.getLastD s.best := by
  rcases h.last_answer hs hphase with ⟨c, hlast, -⟩ | ⟨-, hlast | ⟨error, -, hlast⟩⟩
  · cases hanswer.symm.trans hlast
  · cases hanswer.symm.trans hlast
    rfl
  · cases hanswer.symm.trans hlast

/-- A timeout is below the optimum, unless it is a belated optimum. -/
theorem timedOut_cases (h : run p cfg steps w = some report)
    (houtcome : report.outcome = .ok outcome) (htimed : outcome.timedOut = true) :
    compare outcome.best.fitness p.optimal = .lt ∨ ∃ s w', Belated p cfg w s w' := by
  obtain ⟨s, w', found, early, last, hstart, hcourse, hend⟩ := exists_course_of_run h houtcome
  obtain ⟨hanswer, -⟩ := hend.of_timedOut houtcome htimed
  obtain ⟨-, first, -, hopening⟩ := start_eq_ok hstart
  have hphase : s.phase = .opening := by rw [hopening]; rfl
  have hbest : outcome.best = found.getLastD s.best :=
    hcourse.best_of_timedOut (by rw [hopening]; rfl) hphase hanswer
  rcases List.eq_nil_or_concat found with rfl | ⟨earlier, c, rfl⟩
  · -- nothing has been announced, so the timeout carries the first candidate
    by_cases hbelow : compare outcome.best.fitness p.optimal = .lt
    · exact .inl hbelow
    · have hexpired := expired_of_next hphase hcourse.next_of_nil hanswer
      rw [hbest] at hbelow
      exact .inr ⟨s, w', hstart, hexpired, hbelow⟩
  · -- the last announcement would have ended the run if it were not below the optimum
    rw [List.concat_eq_append, List.getLastD_concat] at hbest
    rw [hbest]
    exact .inl (hcourse.below c (by simp))

/--
**A timeout is a degraded result, unless the optimum is belated.** What a run returns as timed out
is below the optimum, if and only if it is not the case that the first candidate reaches the optimum
and the time is up before it is announced. In that case every run that may take a step ends, and
returns just that candidate as timed out.
-/
theorem timeouts_degraded (p : Problem ω Gene Fitness) (cfg : Config) (w : ω) :
    (∀ steps report outcome, run p cfg steps w = some report → report.outcome = .ok outcome →
      outcome.timedOut = true →
        (compare outcome.best.fitness p.optimal = .lt ↔ ¬∃ s w', Belated p cfg w s w')) ∧
    ∀ s w', Belated p cfg w s w' → ∀ steps, ReturnsUnannounced p cfg (steps + 1) w s.best := by
  refine ⟨?_, fun s w' hbelated => hbelated.returned⟩
  intro steps report outcome hrun houtcome htimed
  constructor
  · rintro hbelow ⟨s, w', hbelated⟩
    cases steps with
    | zero =>
      simp only [run, hbelated.started, pursue] at hrun
      cases hrun
    | succ steps =>
      obtain ⟨report', outcome', hrun', houtcome', -, hbest, -⟩ := hbelated.returned steps
      cases hrun.symm.trans hrun'
      cases houtcome.symm.trans houtcome'
      exact hbelated.optimal (hbest ▸ hbelow)
  · intro hpunctual
    exact (timedOut_cases hrun houtcome htimed).resolve_right hpunctual

/-- A script in which the first candidate is the optimum, and takes two moments to build. -/
def belatedOptimum : World Random.Cycle Script :=
  ⟨⟨[], []⟩, { tick := 2, candidates := [[100]] }⟩

/-- With a limit of one moment the optimum is returned as a timeout. -/
theorem timeouts_degraded_belatedOptimum :
    ∃ report, run (scripted false) { timeLimit := some 1 } 1 belatedOptimum = some report ∧
      report.outcome.toOption.map (fun outcome => (outcome.timedOut, outcome.best))
        = some (true, ⟨[100], 100, .create, 0⟩) ∧
      ∃ s w', Belated (scripted false) { timeLimit := some 1 } belatedOptimum s w' := by
  have h : run (scripted false) { timeLimit := some 1 } 1 belatedOptimum = some _ := rfl
  refine ⟨_, h, rfl, ?_⟩
  refine Classical.byContradiction fun hpunctual => ?_
  have hbelow := ((timeouts_degraded (scripted false) { timeLimit := some 1 } belatedOptimum).1
    1 _ _ h rfl rfl).mpr hpunctual
  cases hbelow

end EvolutionarySearch.Search
