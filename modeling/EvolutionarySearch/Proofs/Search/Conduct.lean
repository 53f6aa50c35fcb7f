import EvolutionarySearch.Search.Run
import EvolutionarySearch.Proofs.Search.Grammar
import EvolutionarySearch.Proofs.Search.Journal
import EvolutionarySearch.Proofs.Search.Ledger

/-!
# What a run makes of the answers

A run is a session in which every answer is displayed before the next pull, and which stops at the
first answer that is not below the optimum. So its outcome can be read off the answers of that
session, and of the answers the shape is known.

* `pursue_course` — the pulls of a run are a session
* `evaluated_of_announcement` — a new best is the last candidate that has been evaluated
* `run_accounts` — the outcome of a run, read off its session
-/

namespace EvolutionarySearch.Search

variable {ω Gene Fitness : Type}

/-! ## Displays -/

section Displays

variable [Clock ω]

/-- The world after an answer has been displayed, at the time of the display. -/
def Pull.shown (p : Problem ω Gene Fitness) (pull : Pull ω Gene Fitness) (w : ω) : ω :=
  match pull.answer with
  | some (.ok (.better c)) => p.display c (pull.search.elapsed w) w
  | some (.ok (.timedOut c)) => p.display c (pull.search.elapsed w) w
  | _ => w

/-- What happens before each pull of a run: nothing, and then the display of the answer before. -/
def displays (p : Problem ω Gene Fitness) (early : List (Leg ω Gene Fitness)) : List (ω → ω) :=
  id :: early.map fun leg => leg.pull.shown p

variable [WordSource ω] {p : Problem ω Gene Fitness} {pull : Pull ω Gene Fitness}
  {log : ω → List (Chromosome Gene Fitness)} {c : Chromosome Gene Fitness}

theorem Journal.shown (hlog : Journal p log) (w : ω)
    (hanswer : pull.answer = announcement c ∨ pull.answer = some (.ok (.timedOut c))) :
    log (pull.shown p w) = log w ++ [c] := by
  unfold Pull.shown
  rcases hanswer with hanswer | hanswer <;> rw [hanswer] <;> exact hlog.written ..

end Displays

/-! ## The pulls of a run -/

/-- How the last pull of a run ends it, with what was `reached` before. -/
inductive Concludes [Ord Fitness] [Clock ω] (p : Problem ω Gene Fitness)
    (reached : List Fitness) (pull : Pull ω Gene Fitness) : Report ω Gene Fitness → Prop where
  | exhausted (hanswer : pull.answer = none) :
    Concludes p reached pull (pull.search.failed .exhausted pull.world)
  | refused {error : SearchError} (hanswer : pull.answer = some (.error error)) :
    Concludes p reached pull (pull.search.failed error pull.world)
  | timedOut {best : Chromosome Gene Fitness}
    (hanswer : pull.answer = some (.ok (.timedOut best))) :
    Concludes p reached pull
      (pull.search.finished best true reached.toArray (pull.shown p pull.world))
  | optimal {best : Chromosome Gene Fitness} {s : Search Gene Fitness}
    (hanswer : pull.answer = announcement best) (hs : s.records = pull.search.records)
    (hoptimal : compare best.fitness p.optimal ≠ .lt) :
    Concludes p reached pull
      (s.finished best false (reached.toArray.push best.fitness) (pull.shown p pull.world))

section Courses

variable [Ord Fitness] [WordSource ω] [Clock ω] {p : Problem ω Gene Fitness} {cfg : Config}
  {steps : Nat} {s : Search Gene Fitness} {w : ω} {c : Chromosome Gene Fitness}
  {found : List (Chromosome Gene Fitness)} {early : List (Leg ω Gene Fitness)}
  {last : Leg ω Gene Fitness}

/-- The pulls of a run: all that are before the last announce something below the optimum. -/
structure Course (p : Problem ω Gene Fitness) (cfg : Config) (steps : Nat)
    (s : Search Gene Fitness) (w : ω) (found : List (Chromosome Gene Fitness))
    (early : List (Leg ω Gene Fitness)) (last : Leg ω Gene Fitness) : Prop where
  legs : legs p cfg steps (displays p early) s w = early ++ [last]
  answers : early.map (·.pull.answer) = found.map announcement
  below : ∀ c ∈ found, compare c.fitness p.optimal = .lt
  written : ∀ log, Journal p log → log last.pull.world = log w ++ found

theorem Course.single {pull : Pull ω Gene Fitness} (h : next p cfg steps s w = some pull) :
    Course p cfg steps s w [] [] ⟨strides p cfg steps s w, pull⟩ where
  legs := by simp [displays, Search.legs, h]
  answers := rfl
  below := by simp
  written log hlog := by simp [hlog.next cfg h]

/-- A course goes on after a display as it would have started from there. -/
theorem Course.cons {pull : Pull ω Gene Fitness} (h : next p cfg steps s w = some pull)
    (hanswer : pull.answer = announcement c) (hc : compare c.fitness p.optimal = .lt)
    (hrest : Course p cfg steps pull.search (pull.shown p pull.world) found early last) :
    Course p cfg steps s w (c :: found) (⟨strides p cfg steps s w, pull⟩ :: early) last where
  legs := by
    have hlegs := hrest.legs
    simp only [displays, Search.legs, id] at hlegs
    simp only [displays, List.map_cons, Search.legs, id, h, hlegs, List.cons_append]
  answers := by simp [hanswer, hrest.answers]
  below := by
    intro d hd
    rcases List.mem_cons.mp hd with rfl | hd
    · exact hc
    · exact hrest.below d hd
  written log hlog := by
    rw [hrest.written log hlog, hlog.shown _ (.inl hanswer), hlog.next cfg h]
    simp

theorem pursue_course {pulls : Nat} {reached : Array Fitness} {report : Report ω Gene Fitness}
    (h : pursue p cfg steps pulls s reached w = some report) :
    ∃ found early last, Course p cfg steps s w found early last ∧
      Concludes p (reached.toList ++ found.map (·.fitness)) last.pull report := by
  induction pulls generalizing s reached w with
  | zero => cases h
  | succ pulls ih =>
    unfold pursue at h
    split at h
    · cases h
    · next hnext =>
      cases h
      exact ⟨[], [], _, .single hnext, .exhausted rfl⟩
    · next hnext =>
      cases h
      exact ⟨[], [], _, .single hnext, .refused rfl⟩
    · next best s' w' hnext =>
      cases h
      have hend : Concludes p reached.toList ⟨some (.ok (.timedOut best)), s', w'⟩ _ :=
        .timedOut rfl
      exact ⟨[], [], _, .single hnext, by simpa [Pull.shown] using hend⟩
    · next c s' w' hnext =>
      dsimp only at h
      by_cases hc : compare c.fitness p.optimal = .lt
      · rw [if_pos (by rw [hc]; rfl)] at h
        obtain ⟨found, early, last, hcourse, hend⟩ := ih h
        refine ⟨c :: found, _, last, .cons hnext rfl hc hcourse, ?_⟩
        simpa using hend
      · rw [if_neg fun hlt => hc (Ordering.isLT_iff_eq_lt.mp hlt)] at h
        cases h
        have hend : Concludes p reached.toList ⟨announcement c, s', w'⟩ _ :=
          .optimal (s := s'.report #[.optimumReached c.fitness (reached.push c.fitness).size])
            rfl rfl hc
        exact ⟨[], [], _, .single hnext, by simpa [Pull.shown, announcement] using hend⟩

end Courses

/-! ## The last candidate -/

section Candidates

variable [Ord Fitness] [WordSource ω] [Clock ω] {p : Problem ω Gene Fitness} {cfg : Config}
  {steps : Nat} {s : Search Gene Fitness} {w : ω} {c : Chromosome Gene Fitness}
  {taken : Step ω Gene Fitness} {changes : List (ω → ω)} {pulled : Session ω Gene Fitness}

omit [WordSource ω] in
theorem evaluated_promote (s : Search Gene Fitness) (c : Chromosome Gene Fitness) (w : ω)
    (evaluated : List (Evaluation Gene Fitness)) :
    (s.promote c w evaluated).evaluated = evaluated := by
  unfold promote
  dsimp only
  split <;> rfl

theorem Verdict.evaluated_eq {slot : Nat} {parent child : Chromosome Gene Fitness} {kept : Bool}
    {evaluated : List (Evaluation Gene Fitness)}
    (h : Verdict cfg s slot parent kept child w evaluated taken) : taken.evaluated = evaluated := by
  cases h with
  | surpassed hbetter hbest => exact evaluated_promote ..
  | _ => rfl

/-- A step announces the first candidate, or the last one that it has evaluated. -/
theorem Turn.evaluated_last (h : Turn p cfg s w taken)
    (hanswer : taken.progress = .answered (.ok (.better c))) :
    (s.phase = .opening ∧ c = s.best ∧ taken.evaluated = []) ∨
      (taken.evaluated.map (·.chromosome)).getLast? = some c := by
  cases h with
  | announced hphase htime => cases hanswer; exact .inl ⟨hphase, rfl, rfl⟩
  | filledBest hphase htime hroom hgen hbest =>
    rw [promote_announces hanswer, evaluated_promote]
    exact .inr rfl
  | visit hphase htime hfull hbred hverdict =>
    rw [hverdict.provenance hanswer, hverdict.evaluated_eq]
    exact .inr (by simp [Offspring.evaluated])
  | silent | timedOut | unfilled | filled | barren => cases hanswer

/-- What steps that end with an announcement have evaluated ends with what they announce. -/
def Candid (first : Chromosome Gene Fitness) (past : List (Stride ω Gene Fitness)) : Prop :=
  ∀ before stride c, past = before ++ [stride] →
    stride.taken.progress = .answered (.ok (.better c)) →
      (first :: evaluatedBy past).getLast? = some c

theorem candid_of_session (h : session p cfg steps changes w = .ok pulled) :
    Candid pulled.opened.best pulled.strides := by
  refine (session_induction
    (I := fun past s => (s.phase = .opening → evaluatedBy past = [] ∧
      s.best = pulled.opened.best) ∧ Candid pulled.opened.best past) ?_ h ?_).2
  · rintro past s w ⟨hopening, hpast⟩
    refine ⟨fun hphase => absurd hphase (step_turn p cfg s w).entry.phase_ne_opening, ?_⟩
    intro before last c hlast hanswer
    obtain ⟨rfl, rfl⟩ := List.append_singleton_inj.mp hlast
    rw [evaluatedBy_append, evaluatedBy_singleton]
    rcases (step_turn p cfg s w).evaluated_last hanswer with ⟨hphase, rfl, hnone⟩ | hc
    · obtain ⟨hpast, hbest⟩ := hopening hphase
      have hstride : (stride p cfg s w).taken.evaluated = [] := hnone
      simp [hpast, hbest, hstride]
    · have hstride : ((stride p cfg s w).taken.evaluated.map (·.chromosome)).getLast? = some c := hc
      rw [← List.cons_append, List.getLast?_append, hstride]
      rfl
  · refine ⟨fun _ => ⟨rfl, rfl⟩, ?_⟩
    intro before last c hlast
    simp at hlast

/-- A session that ends with an announcement ends with the step that has evaluated the new best. -/
theorem evaluated_of_announcement {early : List (Leg ω Gene Fitness)} {last : Leg ω Gene Fitness}
    (h : session p cfg steps changes w = .ok pulled) (hlast : pulled.legs = early ++ [last])
    (hanswer : last.pull.answer = announcement c) :
    pulled.evaluated.getLast? = some c ∧ ∃ before final, pulled.strides = before ++ [final] ∧
      final.taken.progress = .answered (.ok (.better c)) := by
  obtain ⟨before, final, hstrides, hends, -⟩ :=
    exists_last_of_mem_legs h (hlast ▸ List.mem_append_right _ List.mem_cons_self)
  have hannounced : final.taken.progress = .answered (.ok (.better c)) :=
    hends.progress.trans (Pull.progress_eq_answered.mpr hanswer)
  have hall : pulled.strides = early.flatMap (·.strides) ++ before ++ [final] := by
    rw [Session.strides, hlast, List.flatMap_append, List.flatMap_singleton, hstrides,
      List.append_assoc]
  exact ⟨candid_of_session h _ final c hall hannounced, _, final, hall, hannounced⟩

end Candidates

/-! ## Runs -/

section Runs

variable [Ord Fitness] [WordSource ω] [Clock ω] {p : Problem ω Gene Fitness} {cfg : Config}
  {steps : Nat} {w : ω} {pulled : Session ω Gene Fitness} {early : List (Leg ω Gene Fitness)}
  {last : Leg ω Gene Fitness}

/-- What the outcome of a run says of its session, in which `found` has been announced. -/
structure Accounts (p : Problem ω Gene Fitness) (pulled : Session ω Gene Fitness)
    (found : List (Chromosome Gene Fitness)) (outcome : Outcome Gene Fitness) : Prop where
  answers : pulled.answers = found.map announcement ++
    if outcome.timedOut then [some (.ok (.timedOut outcome.best))] else []
  reached : outcome.reached.toList = found.map (·.fitness)
  rising : outcome.reached.toList.Pairwise fun a b => compare a b = .lt
  improvements : outcome.improvements = found.length
  usage : outcome.usage = pulled.search.repertoire.usage
  /-- The optimum is the last that is announced and the last that is evaluated. -/
  optimal : outcome.timedOut = false → ∃ earlier, found = earlier ++ [outcome.best] ∧
    (∀ c ∈ earlier, compare c.fitness p.optimal = .lt) ∧
    compare outcome.best.fitness p.optimal ≠ .lt ∧
    pulled.evaluated.getLast? = some outcome.best ∧
    ∃ before final, pulled.strides = before ++ [final] ∧
      final.taken.progress = .answered (.ok (.better outcome.best))
  /-- A timeout returns the last announcement, or the first candidate. -/
  late : outcome.timedOut = true → (∀ c ∈ found, compare c.fitness p.optimal = .lt) ∧
    outcome.best = found.getLastD pulled.opened.best

/-- A session in which every answer is displayed before the next pull. -/
structure Displayed (p : Problem ω Gene Fitness) (cfg : Config) (steps : Nat) (w : ω)
    (pulled : Session ω Gene Fitness) (early : List (Leg ω Gene Fitness))
    (last : Leg ω Gene Fitness) : Prop where
  session : session p cfg steps (displays p early) w = .ok pulled
  legs : pulled.legs = early ++ [last]
  first : (p.generate cfg.targetLength w).1.map (·.chromosome) = .ok pulled.opened.best

/-- What a run reports. -/
inductive Reports (p : Problem ω Gene Fitness) (cfg : Config) (steps : Nat) (w : ω)
    (report : Report ω Gene Fitness) : Prop where
  /-- No search could be started. -/
  | unstarted {error : SearchError} (hstart : (start p cfg w).1 = .error error)
    (houtcome : report.outcome = .error error) (herror : error ≠ .exhausted)
  /-- The last answer is an error, which is not displayed. -/
  | refused {pulled : Session ω Gene Fitness} {early : List (Leg ω Gene Fitness)}
    {last : Leg ω Gene Fitness} (hpulled : Displayed p cfg steps w pulled early last)
    {error : SearchError} (houtcome : report.outcome = .error error) (herror : error ≠ .exhausted)
    {found : List (Chromosome Gene Fitness)}
    (hanswers : pulled.answers = found.map announcement ++ [some (.error error)])
    (hworld : report.world = last.pull.world)
    (hshown : ∀ log, Journal p log → log report.world = log w ++ found)
  /-- The last answer is the optimum or a timeout, which is displayed. -/
  | ended {pulled : Session ω Gene Fitness} {early : List (Leg ω Gene Fitness)}
    {last : Leg ω Gene Fitness} (hpulled : Displayed p cfg steps w pulled early last)
    {outcome : Outcome Gene Fitness} (houtcome : report.outcome = .ok outcome)
    {found : List (Chromosome Gene Fitness)} (haccounts : Accounts p pulled found outcome)
    (hworld : report.world = last.pull.shown p last.pull.world)
    (hshown : ∀ log, Journal p log → log report.world
      = log w ++ found ++ if outcome.timedOut then [outcome.best] else [])

omit [Ord Fitness] in
/-- The announcements of a session are those of its answers. -/
theorem bests_announcements (found : List (Chromosome Gene Fitness)) :
    bests (found.map announcement) = found := by
  induction found with
  | nil => rfl
  | cons c found ih => exact congrArg (c :: ·) ih

omit [Ord Fitness] [WordSource ω] [Clock ω] in
theorem Ending.bests_eq {best : Chromosome Gene Fitness} {ending : List (Answer Gene Fitness)}
    (h : Ending best ending) : bests ending = [] := by
  have hsilent : ∀ n, bests (List.replicate n (none : Answer Gene Fitness)) = [] := by
    intro n
    simp [bests, Answer.best?]
  cases h with
  | unended => rfl
  | timedOut n => exact hsilent n
  | refused n herror => exact hsilent n

omit [Ord Fitness] in
/-- A start fails for its configuration, or for want of a first candidate. -/
theorem start_ne_exhausted {error : SearchError} (h : (start p cfg w).1 = .error error) :
    error ≠ .exhausted := by
  rintro rfl
  unfold start at h
  split at h
  · cases h
  · dsimp only at h
    cases hgen : (p.generate cfg.targetLength w).1 with
    | ok first => rw [hgen] at h; cases h
    | error refused =>
      rw [hgen] at h
      cases h
      rcases generate_unbuildable hgen with h | h <;> cases h

omit [Ord Fitness] [WordSource ω] [Clock ω] in
/-- The only answer after the new bests is a timeout or an error. -/
theorem Ending.of_singleton {best : Chromosome Gene Fitness} {answer : Answer Gene Fitness}
    (h : Ending best [answer]) :
    answer = some (.ok (.timedOut best)) ∨
      ∃ error, Unbuildable error ∧ answer = some (.error error) := by
  generalize hending : [answer] = ending at h
  cases h with
  | unended => cases hending
  | timedOut silent => exact .inl (List.cons.inj hending).1
  | refused silent herror => exact .inr ⟨_, herror, (List.cons.inj hending).1⟩

variable [Std.TransOrd Fitness]

/-- The last answer of a run announces one more new best, or is a timeout or an error. -/
theorem Course.last_answer {found : List (Chromosome Gene Fitness)} {s : Search Gene Fitness}
    (hcourse : Course p cfg steps s w found early last) (hs : s.records.Coherent)
    (hphase : s.phase = .opening) :
    (∃ c, last.pull.answer = announcement c ∧ (found ++ [c]).Pairwise fun a b => b.Beats a) ∨
      (found.Pairwise (fun a b => b.Beats a) ∧
        (last.pull.answer = some (.ok (.timedOut (found.getLastD s.best))) ∨
          ∃ error, Unbuildable error ∧ last.pull.answer = some (.error error))) := by
  obtain ⟨all, ending, hanswers, hending, -, hrising, -⟩ :=
    answers_of_opening p cfg steps (displays p early) w hs hphase
  rw [hcourse.legs, List.map_append, hcourse.answers, List.map_singleton] at hanswers
  have hall : all = found ++ (Answer.best? last.pull.answer).toList := by
    have hbests := congrArg bests hanswers
    rw [bests_append, bests_append, bests_announcements, bests_announcements, bests_singleton,
      hending.bests_eq, List.append_nil] at hbests
    exact hbests.symm
  by_cases hlast : ∃ c, last.pull.answer = announcement c
  · obtain ⟨c, hlast⟩ := hlast
    rw [hlast] at hall
    subst hall
    exact .inl ⟨c, hlast, hrising⟩
  · have hnone : Answer.best? last.pull.answer = none := by
      cases hbest : Answer.best? last.pull.answer with
      | none => rfl
      | some c =>
        refine absurd ⟨c, ?_⟩ hlast
        unfold Answer.best? at hbest
        split at hbest <;> cases hbest
        assumption
    rw [hnone, Option.toList_none, List.append_nil] at hall
    subst hall
    rw [List.append_cancel_left_eq] at hanswers
    subst hanswers
    exact .inr ⟨hrising, hending.of_singleton⟩

omit [WordSource ω] [Clock ω] [Std.TransOrd Fitness] in
/-- The fitnesses of new bests rise strictly if each beats the one before. -/
theorem rising_of_beats [Std.OrientedOrd Fitness] {found : List (Chromosome Gene Fitness)}
    (h : found.Pairwise fun a b => b.Beats a) :
    (found.map (·.fitness)).Pairwise fun a b => compare a b = .lt :=
  List.pairwise_map.mpr (h.imp Std.OrientedCmp.lt_of_gt)

/-- What a run reports follows from the answer that ends it. -/
theorem Concludes.reports {found : List (Chromosome Gene Fitness)} {w' : ω}
    {report : Report ω Gene Fitness}
    (h : Concludes p (found.map (·.fitness)) last.pull report)
    (hpulled : Displayed p cfg steps w pulled early last)
    (hstart : ∀ log, Journal p log → log w' = log w)
    (hcourse : Course p cfg steps pulled.opened w' found early last) :
    Reports p cfg steps w report := by
  have hanswers : pulled.answers = found.map announcement ++ [last.pull.answer] := by
    rw [Session.answers, hpulled.legs, List.map_append, hcourse.answers, List.map_singleton]
  have hsearch : pulled.search = last.pull.search := by
    simp [Session.search, hpulled.legs]
  have hwritten : ∀ log, Journal p log → log last.pull.world = log w ++ found :=
    fun log hlog => (hcourse.written log hlog).trans (by rw [hstart log hlog])
  obtain ⟨w₀, hopened, -⟩ := session_eq_ok hpulled.session
  obtain ⟨-, first, -, hopening⟩ := start_eq_ok hopened
  have hlast := hcourse.last_answer (sound_opened hpulled.session).coherent (by rw [hopening]; rfl)
  cases h with
  | exhausted hanswer => simp [hanswer, announcement] at hlast
  | @refused error hanswer =>
    obtain ⟨-, herror⟩ : found.Pairwise (fun a b => b.Beats a) ∧ Unbuildable error := by
      simpa [hanswer, announcement] using hlast
    refine .refused hpulled rfl ?_ (hanswer ▸ hanswers) rfl hwritten
    rcases herror with rfl | rfl <;> simp
  | @timedOut best hanswer =>
    obtain ⟨hrising, hbest⟩ :
        found.Pairwise (fun a b => b.Beats a) ∧ best = found.getLastD pulled.opened.best := by
      simpa [hanswer, announcement] using hlast
    have haccounts : Accounts p pulled found
        ⟨best, true, found.length, last.pull.search.elapsed (last.pull.shown p last.pull.world),
          (found.map (·.fitness)).toArray, last.pull.search.repertoire.usage⟩ :=
      { answers := by rw [hanswers, hanswer]; rfl
        reached := rfl
        rising := rising_of_beats hrising
        improvements := rfl
        usage := by rw [hsearch]
        optimal := by simp
        late := fun _ => ⟨hcourse.below, hbest⟩ }
    refine .ended hpulled rfl (by simpa using haccounts) rfl ?_
    intro log hlog
    simp [finished, hlog.shown _ (.inr hanswer), hwritten log hlog]
  | @optimal best s hanswer hs hoptimal =>
    have hrising : (found ++ [best]).Pairwise fun a b => b.Beats a := by
      simpa [hanswer, announcement] using hlast
    have haccounts : Accounts p pulled (found ++ [best])
        ⟨best, false, found.length + 1, s.elapsed (last.pull.shown p last.pull.world),
          (found.map (·.fitness)).toArray.push best.fitness, s.repertoire.usage⟩ :=
      { answers := by simp [hanswers, hanswer]
        reached := by simp
        rising := by simpa using rising_of_beats hrising
        improvements := by simp
        usage := by rw [hsearch]; exact congrArg (fun r => r.repertoire.usage) hs
        optimal := fun _ => ⟨found, rfl, hcourse.below, hoptimal,
          evaluated_of_announcement hpulled.session hpulled.legs hanswer⟩
        late := by simp }
    refine .ended hpulled rfl (by simpa using haccounts) rfl ?_
    intro log hlog
    simp [finished, hlog.shown _ (.inl hanswer), hwritten log hlog]

/--
**The outcome of a run is what its answers say.** A run that ends is a session in which every answer
is displayed before the next pull. It ends with the first announcement that is not below the
optimum, with a timeout, or with an error of the search, and is never out of answers before.
-/
theorem run_accounts {report : Report ω Gene Fitness} (h : run p cfg steps w = some report) :
    Reports p cfg steps w report := by
  unfold run at h
  split at h
  · next error w' hstart =>
    cases h
    exact .unstarted (by rw [hstart]) rfl (start_ne_exhausted (by rw [hstart]))
  · next s w' hstart =>
    obtain ⟨found, early, last, hcourse, hend⟩ := pursue_course h
    have hsession : session p cfg steps (displays p early) w = .ok ⟨s, early ++ [last]⟩ := by
      simp [session, hstart, hcourse.legs, Except.map]
    have hw : ∀ log, Journal p log → log w' = log w := by
      intro log hlog
      have hsame := hlog.start cfg w
      rwa [hstart] at hsame
    have hfirst : (p.generate cfg.targetLength w).1.map (·.chromosome) = .ok s.best := by
      obtain ⟨-, first, hgen, rfl⟩ := start_eq_ok hstart
      rw [hgen]
      rfl
    exact Concludes.reports (by simpa using hend) ⟨hsession, rfl, hfirst⟩ hw hcourse

end Runs

/-- A script in which the fourth candidate is as good as the optimum. -/
def reachedOptimum : Journaled (World Random.Cycle Script) (Chromosome Nat Nat) :=
  ⟨⟨⟨[], []⟩, { candidates := [[3], [2], [7]], children := [[100], [101]] }⟩, []⟩

/-- Three improvements, each displayed once, and no second child. -/
theorem run_accounts_reachedOptimum :
    ∃ report, run (scripted false).journaled { poolSize := 3 } 9 reachedOptimum = some report ∧
      report.outcome.toOption.map (·.reached) = some #[3, 7, 100] ∧
      report.world.entries.map (·.fitness) = [3, 7, 100] ∧
      report.world.world.surroundings.children = [[101]] ∧
      Reports (scripted false).journaled { poolSize := 3 } 9 reachedOptimum report :=
  have h : run (scripted false).journaled { poolSize := 3 } 9 reachedOptimum = some _ := rfl
  ⟨_, h, rfl, rfl, rfl, run_accounts h⟩

end EvolutionarySearch.Search
