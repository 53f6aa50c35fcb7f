import EvolutionarySearch.Proofs.Search.Signal

/-!
# The order of the answers

Whatever is pulled from a search has one shape: new bests, each fitter than the one before, then at
most one last answer, then nothing.

* `answers_grammar` — the shape of the answers of every session
-/

namespace EvolutionarySearch.Search

variable {ω Gene Fitness : Type}

/--
What may come after the new bests: nothing as yet, or a last answer and no other after it. A timeout
carries the last of the bests.
-/
inductive Ending (last : Chromosome Gene Fitness) : List (Answer Gene Fitness) → Prop where
  | unended : Ending last []
  | timedOut (silent : Nat) :
    Ending last (some (.ok (.timedOut last)) :: List.replicate silent none)
  | refused (silent : Nat) {error : SearchError} (herror : Unbuildable error) :
    Ending last (some (.error error) :: List.replicate silent none)

variable [Ord Fitness] [WordSource ω] [Clock ω] {p : Problem ω Gene Fitness} {cfg : Config}
  {steps : Nat} {changes : List (ω → ω)} {s : Search Gene Fitness} {w : ω}

/-! ## After the end -/

theorem next_of_ended (hphase : s.phase = .ended) :
    next p cfg (steps + 1) s w = some ⟨none, s, w⟩ := by
  simp only [next, step, hphase]

theorem answers_of_ended (hphase : s.phase = .ended) :
    (legs p cfg (steps + 1) changes s w).map (·.pull.answer)
      = List.replicate changes.length none := by
  induction changes generalizing w with
  | nil => rfl
  | cons change changes ih =>
    simp only [legs, next_of_ended hphase, List.map_cons, ih, List.length_cons,
      List.replicate_succ]

/-- A pull with a result has taken a step. -/
theorem exists_steps_of_next {pull : Pull ω Gene Fitness}
    (h : next p cfg steps s w = some pull) :
    ∃ rest, steps = rest + 1 := by
  cases steps with
  | zero => cases h
  | succ rest => exact ⟨rest, rfl⟩

/-- After a pull that has ended the search every other is answered, with nothing. -/
theorem silent_of_ended {run : Session ω Gene Fitness} {earlier later : List (Leg ω Gene Fitness)}
    {leg : Leg ω Gene Fitness} (h : session p cfg steps changes w = .ok run)
    (hlegs : run.legs = earlier ++ leg :: later) (hended : leg.pull.search.phase = .ended) :
    (∀ other ∈ later, other.pull.answer = none) ∧ run.legs.length = changes.length := by
  obtain ⟨w', -, hall⟩ := session_eq_ok h
  obtain ⟨s, v, hnext, -⟩ := exists_next_of_mem_legs (hall ▸ hlegs ▸ List.mem_append_cons_self)
  obtain ⟨rest, rfl⟩ := exists_steps_of_next hnext
  obtain ⟨remaining, hlater, hlength⟩ := exists_legs_after (hall.symm.trans hlegs)
  have hsilent : later.map (·.pull.answer) = List.replicate remaining.length none :=
    hlater ▸ answers_of_ended hended
  constructor
  · intro other hother
    exact List.eq_of_mem_replicate (hsilent ▸ List.mem_map_of_mem hother)
  · have hcount := congrArg List.length hsilent
    simp only [List.length_map, List.length_replicate] at hcount
    simp only [hlegs, List.length_append, List.length_cons]
    omega

/-! ## Before the end -/

variable [Std.TransOrd Fitness] {pull : Pull ω Gene Fitness}

/-- A running search gives a new best or ends. -/
theorem next_of_running (hs : s.records.Coherent) (hphase : s.phase = .running)
    (h : next p cfg steps s w = some pull) :
    (∃ c, c.Beats s.best ∧ pull.answer = announcement c ∧
        pull.search.records = s.records.crowned c) ∨
      (pull.search.phase = .ended ∧
        (pull.answer = some (.ok (.timedOut s.best)) ∨
          ∃ error, Unbuildable error ∧ pull.answer = some (.error error))) := by
  have hsignal := next_signal hs h
  have hrunning : s.records.phase = .running := hphase
  have hend : pull.search.records.phase = pull.search.phase := rfl
  rw [← hend]
  generalize hrecords : pull.search.records = r at hsignal
  generalize hprogress : pull.progress = progress at hsignal
  cases hsignal with
  | silent hphase => rw [hrunning] at hphase; cases hphase
  | timedOut hphase => exact .inr ⟨rfl, .inl (Pull.progress_eq_answered.mp hprogress)⟩
  | refused hphase herror =>
    exact .inr ⟨rfl, .inr ⟨_, herror, Pull.progress_eq_answered.mp hprogress⟩⟩
  | announced hphase => rw [hrunning] at hphase; cases hphase
  | pending hphase => unfold Pull.progress at hprogress; split at hprogress <;> cases hprogress
  | surpassed hphase hbest =>
    exact .inl ⟨_, hbest, Pull.progress_eq_answered.mp hprogress, rfl⟩

/-- A search that has not announced its first candidate does so or runs out of time. -/
theorem next_of_opening (hs : s.records.Coherent) (hphase : s.phase = .opening)
    (h : next p cfg steps s w = some pull) :
    (pull.answer = announcement s.best ∧ pull.search.phase = .running ∧
        pull.search.best = s.best) ∨
      (pull.search.phase = .ended ∧ pull.answer = some (.ok (.timedOut s.best))) := by
  have hsignal := next_signal hs h
  have hopening : s.records.phase = .opening := hphase
  have hend : pull.search.records.phase = pull.search.phase := rfl
  have hbest : pull.search.records.best = pull.search.best := rfl
  rw [← hend, ← hbest]
  generalize hrecords : pull.search.records = r at hsignal
  generalize hprogress : pull.progress = progress at hsignal
  cases hsignal with
  | silent hphase => rw [hopening] at hphase; cases hphase
  | timedOut hphase => exact .inr ⟨rfl, Pull.progress_eq_answered.mp hprogress⟩
  | refused hphase herror => rw [hopening] at hphase; cases hphase
  | announced hphase => exact .inl ⟨Pull.progress_eq_answered.mp hprogress, rfl, rfl⟩
  | pending hphase => rw [hopening] at hphase; cases hphase
  | surpassed hphase hbest => rw [hopening] at hphase; cases hphase

/-- A pull leaves the best that it announces, or else the best as it was. -/
theorem best_of_next (hs : s.records.Coherent)
    (h : next p cfg steps s w = some pull) :
    (bests [pull.answer]).getLastD s.best = pull.search.best := by
  have hsignal := next_signal hs h
  have hbest : pull.search.records.best = pull.search.best := rfl
  have hrecords : s.records.best = s.best := rfl
  rw [← hbest, ← hrecords]
  generalize pull.search.records = r at hsignal
  unfold Pull.progress at hsignal
  cases hanswer : pull.answer with
  | none =>
    rw [hanswer] at hsignal
    cases hsignal
    rfl
  | some answer =>
    rw [hanswer] at hsignal
    cases hsignal <;> rfl

/-- The answers of a running search. -/
theorem answers_of_running (p : Problem ω Gene Fitness) (cfg : Config) (steps : Nat)
    (changes : List (ω → ω)) (w : ω) (hs : s.records.Coherent) (hphase : s.phase = .running) :
    ∃ found ending,
      (legs p cfg steps changes s w).map (·.pull.answer) = found.map announcement ++ ending ∧
      Ending (found.getLastD s.best) ending ∧
      (s.best :: found).Pairwise (fun a b => b.Beats a) ∧
      (ending ≠ [] → found.length + ending.length = changes.length) := by
  induction changes generalizing s w with
  | nil => exact ⟨[], [], rfl, .unended, List.pairwise_singleton _ _, fun h => absurd rfl h⟩
  | cons change changes ih =>
    cases hnext : next p cfg steps s (change w) with
    | none =>
      refine ⟨[], [], ?_, .unended, List.pairwise_singleton _ _, fun h => absurd rfl h⟩
      simp only [legs, hnext, List.map_nil, List.append_nil]
    | some pull =>
      simp only [legs, hnext, List.map_cons]
      rcases next_of_running hs hphase hnext with ⟨c, hc, hanswer, hrecords⟩ | ⟨hend, hanswer⟩
      · -- the rest of the session is that of a running search with the best `c`
        have hbest : pull.search.best = c := congrArg Records.best hrecords
        have hrunning : pull.search.phase = .running :=
          (congrArg Records.phase hrecords).trans hphase
        have hcoherent : pull.search.records.Coherent := (next_signal hs hnext).coherent hs
        obtain ⟨found, ending, hanswers, hending, hpairwise, hlength⟩ :=
          ih pull.world hcoherent hrunning
        rw [hbest] at hending hpairwise
        refine ⟨c :: found, ending, ?_, ?_, ?_, ?_⟩
        · rw [hanswers, hanswer, List.map_cons, List.cons_append]
        · rwa [List.getLastD_cons]
        · refine List.pairwise_cons.mpr ⟨?_, hpairwise⟩
          intro d hd
          rcases List.mem_cons.mp hd with rfl | hd
          · exact hc
          · exact ((List.pairwise_cons.mp hpairwise).1 d hd).trans hc
        · intro h
          have := hlength h
          simp only [List.length_cons]
          omega
      · -- the last answer, and nothing after it
        obtain ⟨rest, rfl⟩ := exists_steps_of_next hnext
        rw [answers_of_ended hend]
        rcases hanswer with hanswer | ⟨error, herror, hanswer⟩
        · refine ⟨[], _, List.nil_append _ |>.symm, ?_, List.pairwise_singleton _ _, ?_⟩
          · rw [hanswer]
            exact .timedOut _
          · simp
        · refine ⟨[], _, List.nil_append _ |>.symm, ?_, List.pairwise_singleton _ _, ?_⟩
          · rw [hanswer]
            exact .refused _ herror
          · simp

/-- The answers of a search that has not announced its first candidate. -/
theorem answers_of_opening (p : Problem ω Gene Fitness) (cfg : Config) (steps : Nat)
    (changes : List (ω → ω)) (w : ω) (hs : s.records.Coherent) (hphase : s.phase = .opening) :
    ∃ found ending,
      (legs p cfg steps changes s w).map (·.pull.answer) = found.map announcement ++ ending ∧
      Ending (found.getLastD s.best) ending ∧
      (found = [] → ending = [] ∨ ending.head? = some (some (.ok (.timedOut s.best)))) ∧
      found.Pairwise (fun a b => b.Beats a) ∧
      (ending ≠ [] → found.length + ending.length = changes.length) := by
  cases changes with
  | nil => exact ⟨[], [], rfl, .unended, fun _ => .inl rfl, .nil, fun h => absurd rfl h⟩
  | cons change changes =>
    cases hnext : next p cfg steps s (change w) with
    | none =>
      refine ⟨[], [], ?_, .unended, fun _ => .inl rfl, .nil, fun h => absurd rfl h⟩
      simp only [legs, hnext, List.map_nil, List.append_nil]
    | some pull =>
      simp only [legs, hnext, List.map_cons]
      rcases next_of_opening hs hphase hnext with ⟨hanswer, hrunning, hbest⟩ | ⟨hend, hanswer⟩
      · obtain ⟨found, ending, hanswers, hending, hpairwise, hlength⟩ :=
          answers_of_running p cfg steps changes pull.world
            ((next_signal hs hnext).coherent hs) hrunning
        rw [hbest] at hending hpairwise
        refine ⟨s.best :: found, ending, ?_, ?_, fun h => (by cases h), hpairwise, ?_⟩
        · rw [hanswers, hanswer, List.map_cons, List.cons_append]
        · rwa [List.getLastD_cons]
        · intro h
          have := hlength h
          simp only [List.length_cons]
          omega
      · obtain ⟨rest, rfl⟩ := exists_steps_of_next hnext
        rw [answers_of_ended hend, hanswer]
        refine ⟨[], _, List.nil_append _ |>.symm, .timedOut _, fun _ => .inr rfl, .nil, ?_⟩
        simp

/-- After the announcement of a new best the search holds just that. -/
theorem best_of_announcement (hs : s.records.Coherent) :
    ∀ leg ∈ legs p cfg steps changes s w, ∀ c, leg.pull.answer = announcement c →
      leg.pull.search.best = c := by
  induction changes generalizing s w with
  | nil => intro leg hleg; cases hleg
  | cons change changes ih =>
    cases hnext : next p cfg steps s (change w) with
    | none => simp only [legs, hnext]; intro leg hleg; cases hleg
    | some pull =>
      simp only [legs, hnext]
      intro leg hleg c hanswer
      rcases List.mem_cons.mp hleg with rfl | hleg
      · have hbest := best_of_next hs hnext
        rw [hanswer] at hbest
        exact hbest.symm
      · exact ih ((next_signal hs hnext).coherent hs) leg hleg c hanswer

/-! ## Sessions -/

/-- The answers of a session with a first candidate, after a number of pulls. -/
structure Grammatical (first : Chromosome Gene Fitness) (pulls : Nat)
    (run : Session ω Gene Fitness) (found : List (Chromosome Gene Fitness))
    (ending : List (Answer Gene Fitness)) : Prop where
  /-- The new bests come first. -/
  answers : run.answers = found.map announcement ++ ending
  /-- A timeout carries the last of the new bests, or the first candidate. -/
  last : Ending (found.getLastD first) ending
  /-- Only a timeout is answered before all new bests. -/
  unannounced : found = [] → ending = [] ∨ ending.head? = some (some (.ok (.timedOut first)))
  increasing : found.Pairwise fun a b => b.Beats a
  /-- After the last answer every pull is answered at once, with nothing. -/
  silent : ending ≠ [] → run.answers.length = pulls
  /-- What is announced is what the search then holds. -/
  held : ∀ leg ∈ run.legs, ∀ c, leg.pull.answer = announcement c → leg.pull.search.best = c

/--
**The answers of every session have one shape.** They are new bests, each fitter than the one
before, then at most one timeout or error, then nothing, however long the session goes on.
-/
theorem answers_grammar {run : Session ω Gene Fitness}
    (h : session p cfg steps changes w = .ok run) :
    ∃ first found ending, (p.generate cfg.targetLength w).1 = .ok first ∧
      Grammatical first.chromosome changes.length run found ending := by
  obtain ⟨w', hstart, hlegs⟩ := session_eq_ok h
  obtain ⟨-, first, hgen, hopened⟩ := start_eq_ok hstart
  have hcoherent : run.opened.records.Coherent := (sound_opened h).coherent
  have hphase : run.opened.phase = .opening := by rw [hopened]; rfl
  have hbest : run.opened.best = first.chromosome := by rw [hopened]; rfl
  obtain ⟨found, ending, hanswers, hending, hfirst, hpairwise, hlength⟩ :=
    answers_of_opening p cfg steps changes w' hcoherent hphase
  rw [← hlegs] at hanswers
  rw [hbest] at hending hfirst
  refine ⟨first, found, ending, by rw [hgen], hanswers, hending, hfirst, hpairwise, ?_, ?_⟩
  · intro h
    rw [Session.answers, hanswers, List.length_append, List.length_map]
    exact hlength h
  · rw [hlegs]
    exact best_of_announcement hcoherent

/-- A script with time for three candidates. -/
def threeCandidates : World Random.Cycle Script :=
  ⟨⟨[], []⟩, { candidates := [[3], [2], [7]] }⟩

/-- Two new bests while the pool is filled, then a timeout and nothing. -/
theorem answers_grammar_threeCandidates :
    ∃ run, session (scripted false) { poolSize := 3, timeLimit := some 5 } 4
        [id, id, wait 9, id, id] threeCandidates = .ok run ∧
      run.answers =
        [announcement ⟨[3], 3, .create, 0⟩, announcement ⟨[7], 7, .create, 0⟩,
          some (.ok (.timedOut ⟨[7], 7, .create, 0⟩)), none, none] ∧
      ∃ first found ending, ((scripted false).generate 0 threeCandidates).1 = .ok first ∧
        Grammatical first.chromosome 5 run found ending :=
  have h : session (scripted false) { poolSize := 3, timeLimit := some 5 } 4
      [id, id, wait 9, id, id] threeCandidates = .ok _ := rfl
  ⟨_, h, rfl, answers_grammar h⟩

end EvolutionarySearch.Search
