import EvolutionarySearch.Proofs.Search.Signal

/-!
# What is recorded of the new bests

A new best is announced, its fitness goes into the history and its operator into the repertoire. The
first candidate is in the history from the start, and in the repertoire once it is announced. So the
three records could drift apart, and what is said here is that they never do.

Nothing here depends on the order of the fitnesses. `Entry` therefore says less than `Signal`, but
of every search: a new best may also be refused, which ends the search and records nothing.

* `Turn.provenance` — what kind of chromosome a step announces
* `Turn.size_le` — the pool never shrinks, so no slot is filled after the first visit
* `Turn.entry` — a step records what it announces
* `ledger_agrees` — the records after any number of pulls, read off the announcements
-/

namespace EvolutionarySearch.Search

variable {ω Gene Fitness : Type}

/-! ## Operators -/

section Operators

variable [WordSource ω] [Clock ω] {p : Problem ω Gene Fitness} {length slot : Nat} {w : ω}

theorem generate_strategy {candidate : Evaluation Gene Fitness}
    (h : (p.generate length w).1 = .ok candidate) : candidate.chromosome.strategy = .create := by
  unfold Problem.generate at h
  split at h
  · cases h; rfl
  · split at h
    · cases h
    · split at h <;> cases h
      rfl

theorem Attempt.strategy {cfg : Config} {s : Search Gene Fitness} {bred : Breeding ω Gene Fitness}
    {offspring : Offspring Gene Fitness} (h : Attempt p cfg s w bred)
    (hbred : bred.outcome = .ok offspring) :
    offspring.child.chromosome.strategy ≠ .none ∧
      (s.repertoire.recombines = false → offspring.child.chromosome.strategy = .mutate) := by
  cases h with
  | combined hdraw hcross =>
    cases hbred
    have hchoice := draw_recombines hdraw (by decide)
    simp [Problem.evaluate, hchoice]
  | created hdraw hgen =>
    cases hbred
    have hchoice := draw_recombines hdraw (by decide)
    simp [generate_strategy hgen, hchoice]
  | refilled hdraw hcross hgen => cases hbred; simp [Problem.derive, Problem.evaluate]
  | mutated hdraw hmutates => cases hbred; simp [Problem.derive, Problem.evaluate]
  | unmatched | uncreated => cases hbred

end Operators

/-! ## Announcements -/

/-- A step before the first visit, which announces the first candidate or fills a slot. -/
def Stride.Builds (cfg : Config) (stride : Stride ω Gene Fitness) : Prop :=
  stride.before.phase = .opening ∨ stride.before.pool.size < cfg.poolSize

section Steps

variable [Ord Fitness] [Clock ω] {s : Search Gene Fitness} {c d : Chromosome Gene Fitness} {w : ω}
  {evaluated : List (Evaluation Gene Fitness)}

/-- A promotion leaves the pool alone, and is recorded unless the history refuses it. -/
theorem promote_cases (s : Search Gene Fitness) (c : Chromosome Gene Fitness) (w : ω)
    (evaluated : List (Evaluation Gene Fitness)) :
    (s.promote c w evaluated).search.pool = s.pool ∧
      (((s.promote c w evaluated).progress = .answered (.ok (.better c)) ∧
          (s.promote c w evaluated).search.records = s.records.crowned c) ∨
        ((s.promote c w evaluated).progress = .answered (.error .unorderedHistory) ∧
          (s.promote c w evaluated).search.records = { s.records with phase := .ended })) := by
  have hpush : s.history.push c.fitness = .ok ⟨s.history.values.push c.fitness⟩ ∨
      s.history.push c.fitness = .error .unorderedHistory := by
    unfold History.push
    split
    · exact .inl rfl
    · exact .inr rfl
  unfold promote
  dsimp only [report]
  rcases hpush with hpush | hpush <;> rw [hpush]
  · exact ⟨rfl, .inl ⟨rfl, rfl⟩⟩
  · exact ⟨rfl, .inr ⟨rfl, rfl⟩⟩

theorem promote_announces (h : (s.promote c w evaluated).progress = .answered (.ok (.better d))) :
    d = c := by
  rcases (promote_cases s c w evaluated).2 with ⟨hanswer, -⟩ | ⟨hanswer, -⟩ <;>
    rw [hanswer] at h <;> cases h
  rfl

theorem pool_promote : (s.promote c w evaluated).search.pool = s.pool :=
  (promote_cases s c w evaluated).1

variable [WordSource ω] {p : Problem ω Gene Fitness} {cfg : Config} {taken : Step ω Gene Fitness}

theorem Verdict.provenance {slot : Nat} {parent child : Chromosome Gene Fitness} {kept : Bool}
    (h : Verdict cfg s slot parent kept child w evaluated taken)
    (hanswer : taken.progress = .answered (.ok (.better d))) : d = child := by
  cases h with
  | surpassed hbetter hbest => exact promote_announces hanswer
  | _ => cases hanswer

/--
A step announces the first candidate, a candidate for a new slot, or a child. Without recombination
only the last are mutations, and all of them are.
-/
theorem Turn.provenance (h : Turn p cfg s w taken)
    (hrecombines : s.repertoire.recombines = p.recombines)
    (hanswer : taken.progress = .answered (.ok (.better d))) :
    (s.phase = .opening ∧ d = s.best) ∨
      (s.phase = .running ∧ s.pool.size < cfg.poolSize ∧ d.strategy = .create) ∨
      (s.phase = .running ∧ cfg.poolSize ≤ s.pool.size ∧ d.strategy ≠ .none ∧
        (p.recombines = false → d.strategy = .mutate)) := by
  cases h with
  | silent hphase => cases hanswer
  | timedOut hphase hlate => cases hanswer
  | announced hphase htime => cases hanswer; exact .inl ⟨hphase, rfl⟩
  | unfilled hphase htime hroom hgen => cases hanswer
  | filled hphase htime hroom hgen hbest => cases hanswer
  | filledBest hphase htime hroom hgen hbest =>
    rw [promote_announces hanswer]
    exact .inr (.inl ⟨hphase, hroom, generate_strategy hgen⟩)
  | barren hphase htime hfull hbred => cases hanswer
  | visit hphase htime hfull hbred hverdict =>
    obtain ⟨hknown, hplain⟩ := (brood_attempt p cfg s w).strategy hbred
    rw [hverdict.provenance hanswer]
    rw [hrecombines] at hplain
    exact .inr (.inr ⟨hphase, hfull, hknown, hplain⟩)

/-! ## The size of the pool -/

omit [Ord Fitness] [Clock ω] [WordSource ω] in
theorem size_grown (s : Search Gene Fitness) (slot : Nat) (parent : Chromosome Gene Fitness)
    (kept : Bool) : (s.grown slot parent kept).pool.size = s.pool.size := by
  unfold grown setAge
  split <;> simp

omit [Clock ω] in
theorem size_anneal (s : Search Gene Fitness) (slot : Nat) (child : Chromosome Gene Fitness)
    (w : ω) : (s.anneal slot child w).1.pool.size = s.pool.size := by
  unfold anneal settle report
  dsimp only
  split <;> simp

omit [Ord Fitness] [Clock ω] [WordSource ω] in
theorem size_refill (s : Search Gene Fitness) (offspring : Offspring Gene Fitness) :
    (s.refill offspring).pool.size = s.pool.size := by
  unfold refill settle
  split <;> simp

theorem Verdict.size_eq {slot : Nat} {parent child : Chromosome Gene Fitness} {kept : Bool}
    (h : Verdict cfg s slot parent kept child w evaluated taken) :
    taken.search.pool.size = s.pool.size := by
  cases h with
  | dropped hworse hage => rfl
  | endured hworse hage hyoung => exact size_grown s slot parent kept
  | retired hworse hage hold => simp [proceed, size_anneal, size_grown]
  | replaced hequal => simp [proceed, settle]
  | climbed hbetter hbest => simp [proceed, settle]
  | surpassed hbetter hbest => simp [pool_promote, settle]

theorem Turn.size_le (h : Turn p cfg s w taken) : s.pool.size ≤ taken.search.pool.size := by
  cases h with
  | silent hphase => exact Nat.le_refl _
  | timedOut hphase hlate => exact Nat.le_refl _
  | announced hphase htime => exact Nat.le_refl _
  | unfilled hphase htime hroom hgen => exact Nat.le_refl _
  | filled hphase htime hroom hgen hbest => simp [proceed, widened]
  | filledBest hphase htime hroom hgen hbest => simp [pool_promote, widened]
  | barren hphase htime hfull hbred => exact Nat.le_refl _
  | visit hphase htime hfull hbred hverdict => simp [hverdict.size_eq, size_refill, moved, report]

end Steps

/-! ## Records -/

theorem bests_singleton (answer : Answer Gene Fitness) : bests [answer] = answer.best?.toList := by
  unfold bests
  cases h : answer.best? <;> simp [h]

theorem used_credit {repertoire : Repertoire} {strategy : Strategy} (h : strategy ≠ .none) :
    (repertoire.credit strategy).used.toList = repertoire.used.toList ++ [strategy] := by
  unfold Repertoire.credit
  simp [h]

/-- The history of a search with a first candidate, after a number of announcements. -/
def chronicle (first : Chromosome Gene Fitness) (found : List (Chromosome Gene Fitness)) :
    List Fitness :=
  if found.isEmpty then [first.fitness] else found.map (·.fitness)

/-- The records of a search that has announced what is `found`. -/
structure Recorded (p : Problem ω Gene Fitness) (first : Chromosome Gene Fitness)
    (found : List (Chromosome Gene Fitness)) (r : Records Gene Fitness) : Prop where
  opened : r.phase = .opening → found = [] ∧ r.best = first
  running : r.phase = .running → found ≠ []
  used : r.repertoire.used.toList
    = (Repertoire.initial p.recombines).used.toList ++ found.map (·.strategy)
  known : ∀ c ∈ found, c.strategy ≠ .none
  history : r.history.values.toList = chronicle first found

/-- How an announcement goes together with what becomes of the records. -/
inductive Entry (r : Records Gene Fitness) :
    Records Gene Fitness → Progress Gene Fitness → Prop where
  | silent (hphase : r.phase = .ended) : Entry r r .ended
  | pending (hphase : r.phase = .running) : Entry r r .pending
  | closed {answer : Except SearchError (Improvement Gene Fitness)}
    (hanswer : ∀ c, answer ≠ .ok (.better c)) :
    Entry r { r with phase := .ended } (.answered answer)
  | announced (hphase : r.phase = .opening) :
    Entry r { r with phase := .running, repertoire := r.repertoire.credit r.best.strategy }
      (.answered (.ok (.better r.best)))
  | surpassed (hphase : r.phase = .running) (c : Chromosome Gene Fitness) :
    Entry r (r.crowned c) (.answered (.ok (.better c)))

section Entries

variable {p : Problem ω Gene Fitness} {first : Chromosome Gene Fitness}
  {found : List (Chromosome Gene Fitness)} {r r' : Records Gene Fitness}
  {progress : Progress Gene Fitness}

theorem Entry.phase_ne_opening (h : Entry r r' progress) : r'.phase ≠ .opening := by
  cases h with
  | silent hphase => simp [hphase]
  | pending hphase => simp [hphase]
  | closed hanswer => simp
  | announced hphase => simp
  | surpassed hphase c => simp [Records.crowned, hphase]

theorem Entry.recombines (h : Entry r r' progress) :
    r'.repertoire.recombines = r.repertoire.recombines := by
  cases h with
  | announced hphase => dsimp only [Repertoire.credit]; split <;> rfl
  | surpassed hphase c => dsimp only [Records.crowned, Repertoire.credit]; split <;> rfl
  | _ => rfl

theorem Entry.started (h : Entry r r' progress) : r'.started = r.started := by
  cases h <;> rfl

theorem Recorded.entry (h : Recorded p first found r) (hfirst : first.strategy ≠ .none)
    (hentry : Entry r r' progress)
    (hknown : ∀ c, r.phase = .running → progress = .answered (.ok (.better c)) →
      c.strategy ≠ .none) :
    Recorded p first (found ++ bests progress.answers) r' := by
  cases hentry with
  | silent hphase => simpa [Progress.answers, bests_singleton, Answer.best?] using h
  | pending hphase => simpa [Progress.answers, bests] using h
  | @closed answer hanswer =>
    have hnone : bests (Progress.answered answer).answers = [] := by
      rcases answer with error | (c | c)
      · simp [Progress.answers, bests_singleton, Answer.best?]
      · exact absurd rfl (hanswer c)
      · simp [Progress.answers, bests_singleton, Answer.best?]
    rw [hnone, List.append_nil]
    exact ⟨by simp, by simp, h.used, h.known, h.history⟩
  | announced hphase =>
    -- the first candidate has been in the history all the time
    obtain ⟨rfl, rfl⟩ := h.opened hphase
    constructor <;>
      simp [Progress.answers, bests_singleton, Answer.best?, h.used, h.history, chronicle,
        used_credit hfirst]
    exact hfirst
  | surpassed hphase c =>
    have hc := hknown c hphase rfl
    have hfound := h.running hphase
    constructor <;>
      simp [Progress.answers, bests_singleton, Answer.best?, h.used, h.history, chronicle,
        Records.crowned, used_credit hc, hfound, hphase]
    rintro d (hd | rfl)
    · exact h.known d hd
    · exact hc

variable [Ord Fitness] [Clock ω] {s : Search Gene Fitness} {c : Chromosome Gene Fitness} {w : ω}

theorem promote_entry (hphase : s.phase = .running)
    (evaluated : List (Evaluation Gene Fitness)) :
    Entry s.records (s.promote c w evaluated).search.records
      (s.promote c w evaluated).progress := by
  rcases (promote_cases s c w evaluated).2 with ⟨hanswer, hrecords⟩ | ⟨hanswer, hrecords⟩ <;>
    rw [hanswer, hrecords]
  · exact .surpassed hphase c
  · exact .closed (by simp)

variable [WordSource ω] {cfg : Config} {taken : Step ω Gene Fitness}

theorem Verdict.entry {slot : Nat} {parent child : Chromosome Gene Fitness} {kept : Bool}
    {evaluated : List (Evaluation Gene Fitness)}
    (h : Verdict cfg s slot parent kept child w evaluated taken) (hphase : s.phase = .running) :
    Entry s.records taken.search.records taken.progress := by
  have hgoes : Entry s.records s.records .pending := .pending hphase
  cases h with
  | dropped hworse hage => exact hgoes
  | endured hworse hage hyoung => simpa [proceed] using hgoes
  | retired hworse hage hold => simpa [proceed] using hgoes
  | replaced hequal => exact hgoes
  | climbed hbetter hbest => exact hgoes
  | surpassed hbetter hbest => exact promote_entry (s := s.settle slot child) hphase evaluated

theorem Turn.entry (h : Turn p cfg s w taken) :
    Entry s.records taken.search.records taken.progress := by
  cases h with
  | silent hphase => exact .silent hphase
  | timedOut hphase hlate => exact .closed (by simp)
  | announced hphase htime => exact .announced hphase
  | unfilled hphase htime hroom hgen => exact .closed (by simp)
  | filled hphase htime hroom hgen hbest => exact .pending hphase
  | filledBest hphase htime hroom hgen hbest => exact promote_entry (s := s.widened _) hphase _
  | barren hphase htime hfull hbred => exact .closed (by simp)
  | visit hphase htime hfull hbred hverdict =>
    have hsame : ∀ offspring notes,
        ((s.moved notes).refill offspring).records = s.records := by simp
    have hentry := hverdict.entry ((congrArg Records.phase (hsame _ _)).trans hphase)
    rwa [hsame] at hentry

/-- No step sets another time for the start. -/
theorem step_started : (step p cfg s w).search.started = s.started :=
  (step_turn p cfg s w).entry.started

end Entries

/-! ## Sessions -/

theorem mem_bests_answers {progress : Progress Gene Fitness} {c : Chromosome Gene Fitness} :
    c ∈ bests progress.answers ↔ progress = .answered (.ok (.better c)) := by
  cases progress with
  | pending => simp [Progress.answers, bests]
  | ended => simp [Progress.answers, bests_singleton, Answer.best?]
  | answered answer =>
    rcases answer with error | (d | d)
    · simp [Progress.answers, bests_singleton, Answer.best?]
    · simpa [Progress.answers, bests_singleton, Answer.best?] using eq_comm
    · simp [Progress.answers, bests_singleton, Answer.best?]

variable [Ord Fitness] [WordSource ω] [Clock ω] {p : Problem ω Gene Fitness} {cfg : Config}
  {steps : Nat} {changes : List (ω → ω)} {run : Session ω Gene Fitness} {s : Search Gene Fitness}
  {w : ω} {first : Chromosome Gene Fitness}
  {past building visiting : List (Stride ω Gene Fitness)}

/-- The steps of a session in their order: those that build the pool, and those that visit it. -/
structure Staged (p : Problem ω Gene Fitness) (cfg : Config) (s : Search Gene Fitness)
    (building visiting : List (Stride ω Gene Fitness)) : Prop where
  builds : ∀ stride ∈ building, stride.Builds cfg
  visits : ∀ stride ∈ visiting, ¬stride.Builds cfg
  full : visiting ≠ [] → s.phase ≠ .opening ∧ cfg.poolSize ≤ s.pool.size
  created : ∀ c ∈ bests (answersBy building), c.strategy = .create
  mutated : p.recombines = false → ∀ c ∈ bests (answersBy visiting), c.strategy = .mutate

theorem Recorded.step (h : Recorded p first (bests (answersBy past)) s.records)
    (hrecombines : s.repertoire.recombines = p.recombines) (hfirst : first.strategy = .create) :
    Recorded p first (bests (answersBy (past ++ [stride p cfg s w])))
      (step p cfg s w).search.records := by
  rw [answersBy_append, bests_append, answersBy_singleton]
  refine h.entry (by simp [hfirst]) (step_turn p cfg s w).entry ?_
  intro c hrunning hanswer
  have hphase : s.phase = .running := hrunning
  rcases (step_turn p cfg s w).provenance hrecombines hanswer with
    ⟨hopening, -⟩ | ⟨-, -, hcreate⟩ | ⟨-, -, hknown, -⟩
  · simp [hphase] at hopening
  · simp [hcreate]
  · exact hknown

/-- A step that builds the pool comes before every visit, and all else is a visit. -/
theorem Staged.step (h : Staged p cfg s building visiting)
    (hrecombines : s.repertoire.recombines = p.recombines)
    (hopened : s.phase = .opening → s.best.strategy = .create) :
    ∃ building' visiting',
      building ++ visiting ++ [stride p cfg s w] = building' ++ visiting' ∧
        Staged p cfg (step p cfg s w).search building' visiting' := by
  have hkinds : ∀ c, (Search.step p cfg s w).progress = .answered (.ok (.better c)) → _ :=
    fun c hanswer => (step_turn p cfg s w).provenance hrecombines hanswer
  have hsize := (step_turn p cfg s w).size_le
  have hphase : (Search.step p cfg s w).search.phase ≠ .opening :=
    (step_turn p cfg s w).entry.phase_ne_opening
  by_cases hbuilds : (stride p cfg s w).Builds cfg
  · -- no slot has been visited yet
    obtain rfl : visiting = [] := by
      refine Classical.byContradiction fun hsome => ?_
      obtain ⟨hopening, hfull⟩ := h.full hsome
      rcases hbuilds with hbuilds | hbuilds
      · exact hopening hbuilds
      · exact absurd hbuilds (Nat.not_lt.mpr hfull)
    refine ⟨building ++ [stride p cfg s w], [], by simp, ?_, by simp, by simp, ?_,
      by simp [answersBy, bests]⟩
    · simpa [or_imp, forall_and] using ⟨h.builds, hbuilds⟩
    · intro c hc
      rw [answersBy_append, bests_append, answersBy_singleton] at hc
      rcases List.mem_append.mp hc with hc | hc
      · exact h.created c hc
      · rcases hkinds c (mem_bests_answers.mp hc) with
          ⟨hopening, rfl⟩ | ⟨-, -, hcreate⟩ | ⟨hrunning, hfull, -⟩
        · exact hopened hopening
        · exact hcreate
        · rcases hbuilds with hbuilds | hbuilds
          · simp [stride, hrunning] at hbuilds
          · exact absurd hbuilds (Nat.not_lt.mpr hfull)
  · have hfull : cfg.poolSize ≤ s.pool.size := Nat.not_lt.mp fun hroom => hbuilds (.inr hroom)
    refine ⟨building, visiting ++ [stride p cfg s w], by simp, h.builds, ?_, ?_, h.created, ?_⟩
    · simpa [or_imp, forall_and] using ⟨h.visits, hbuilds⟩
    · exact fun _ => ⟨hphase, Nat.le_trans hfull hsize⟩
    · intro hplain c hc
      rw [answersBy_append, bests_append, answersBy_singleton] at hc
      rcases List.mem_append.mp hc with hc | hc
      · exact h.mutated hplain c hc
      · rcases hkinds c (mem_bests_answers.mp hc) with
          ⟨hopening, -⟩ | ⟨-, hroom, -⟩ | ⟨-, -, -, hmutate⟩
        · exact absurd (.inl hopening) hbuilds
        · exact absurd (.inr hroom) hbuilds
        · exact hmutate hplain

theorem recorded_of_session (h : session p cfg steps changes w = .ok run) :
    ∃ first building visiting, (p.generate cfg.targetLength w).1 = .ok first ∧
      Recorded p first.chromosome (bests (answersBy run.strides)) run.search.records ∧
      run.strides = building ++ visiting ∧ Staged p cfg run.search building visiting := by
  obtain ⟨w', hstart, -⟩ := session_eq_ok h
  obtain ⟨-, first, hgen, hopened⟩ := start_eq_ok hstart
  have hbuilt : (p.generate cfg.targetLength w).1 = .ok first := by rw [hgen]
  have hfirst : first.chromosome.strategy = .create := generate_strategy hbuilt
  have hinv := session_induction
    (I := fun past s => s.repertoire.recombines = p.recombines ∧
      Recorded p first.chromosome (bests (answersBy past)) s.records ∧
      ∃ building visiting, past = building ++ visiting ∧ Staged p cfg s building visiting) ?_ h ?_
  · obtain ⟨-, hrecorded, building, visiting, hstrides, hstaged⟩ := hinv
    exact ⟨first, building, visiting, hbuilt, hrecorded, hstrides, hstaged⟩
  · rintro past s w ⟨hrecombines, hrecorded, building, visiting, rfl, hstaged⟩
    refine ⟨(step_turn p cfg s w).entry.recombines.trans hrecombines,
      hrecorded.step hrecombines hfirst, hstaged.step hrecombines fun hopening => ?_⟩
    rw [← hfirst]
    exact congrArg Chromosome.strategy (hrecorded.opened hopening).2
  · rw [hopened]
    refine ⟨rfl, ⟨by simp [answersBy, bests, records, opening], ?_, ?_, ?_, ?_⟩, [], [], rfl, ?_⟩
    · simp [records, opening]
    · simp [answersBy, bests, records, opening]
    · simp [answersBy, bests]
    · simp [answersBy, bests, records, opening, chronicle, History.ofFirst]
    · constructor <;> simp [answersBy, bests]

/-- Every operator on a list is counted once, if none is from outside the engine. -/
theorem count_strategies {used : List Strategy} (h : ∀ strategy ∈ used, strategy ≠ .none) :
    used.count .create + used.count .mutate + used.count .crossover = used.length := by
  induction used with
  | nil => rfl
  | cons strategy used ih =>
    have hrest := ih fun other hother => h other (List.mem_cons_of_mem _ hother)
    have hhead := h strategy List.mem_cons_self
    cases strategy <;> simp at hhead ⊢ <;> omega

/-- The operators on the list of the repertoire at the end of a session. -/
def Session.operators (run : Session ω Gene Fitness) : List Strategy :=
  run.search.repertoire.used.toList

/-- What the records of a search say after a session with a first candidate. -/
structure Ledger (p : Problem ω Gene Fitness) (cfg : Config) (first : Chromosome Gene Fitness)
    (run : Session ω Gene Fitness) : Prop where
  operators : run.operators = .mutate ::
    ((if p.recombines then [.crossover] else []) ++ (bests run.answers).map (·.strategy))
  history : run.search.history.values.toList
    = if (bests run.answers).isEmpty then [first.fitness] else (bests run.answers).map (·.fitness)
  usage : run.search.repertoire.usage
    = ⟨run.operators.count .create, run.operators.count .mutate, run.operators.count .crossover⟩
  total : run.search.repertoire.usage.total
    = (bests run.answers).length + if p.recombines then 2 else 1
  /-- Without recombination the operators follow from the stages of the search. -/
  plain : p.recombines = false → ∃ building visiting,
    run.strides = building ++ visiting ∧ (∀ stride ∈ building, stride.Builds cfg) ∧
      (∀ stride ∈ visiting, ¬stride.Builds cfg) ∧
      run.operators = .mutate :: (List.replicate (bests (answersBy building)).length .create ++
        List.replicate (bests (answersBy visiting)).length .mutate)

/--
**The records agree with the announcements.** After any number of pulls, the list of the repertoire
holds its seed and the operators of the new bests in order, the history holds their fitnesses, or
that of the first candidate while nothing is announced, and the usage counts the list.
-/
theorem ledger_agrees (h : session p cfg steps changes w = .ok run) :
    ∃ first, (p.generate cfg.targetLength w).1 = .ok first ∧
      Ledger p cfg first.chromosome run := by
  obtain ⟨first, building, visiting, hgen, hrecorded, hstrides, hstaged⟩ := recorded_of_session h
  rw [← answers_eq h] at hrecorded
  have hused : run.operators = .mutate ::
      ((if p.recombines then [.crossover] else []) ++ (bests run.answers).map (·.strategy)) := by
    have hused := hrecorded.used
    cases hcase : p.recombines <;>
      simpa [records, Repertoire.initial, Session.operators, hcase] using hused
  have hknown : ∀ strategy ∈ run.operators, strategy ≠ .none := by
    rw [hused]
    intro strategy hstrategy
    simp only [List.mem_cons, List.mem_append, List.mem_map] at hstrategy
    rcases hstrategy with rfl | hseed | ⟨c, hc, rfl⟩
    · decide
    · cases hcase : p.recombines <;> simp_all
    · exact hrecorded.known c hc
  refine ⟨first, hgen, hused, hrecorded.history, by simp [Repertoire.usage, Session.operators],
    ?_, ?_⟩
  · have htotal : run.search.repertoire.usage.total = run.operators.length := by
      rw [← count_strategies hknown]
      simp [Repertoire.usage, Usage.total, Session.operators]
    rw [htotal, hused]
    cases p.recombines <;> simp
  · intro hplain
    refine ⟨building, visiting, hstrides, hstaged.builds, hstaged.visits, ?_⟩
    -- the announcements are those of the two stages, and each stage has one operator
    have hcreated : (bests (answersBy building)).map (·.strategy)
        = List.replicate (bests (answersBy building)).length .create := by
      simpa [List.map_eq_replicate_iff] using hstaged.created
    have hmutated : (bests (answersBy visiting)).map (·.strategy)
        = List.replicate (bests (answersBy visiting)).length .mutate := by
      simpa [List.map_eq_replicate_iff] using hstaged.mutated hplain
    rw [hused, answers_eq h, hstrides, answersBy_append, bests_append, List.map_append, hcreated,
      hmutated]
    simp [hplain]

/-- A script in which the first candidate is surpassed in the pool, and then by a child. -/
def risingCandidates : World Random.Cycle Script :=
  ⟨⟨[], []⟩, { candidates := [[3], [2], [7]], children := [[6], [9]] }⟩

/-- Three announcements beside the seed of the list, and a fourth pull that is out of time. -/
theorem ledger_agrees_risingCandidates :
    ∃ run, session (scripted false) { poolSize := 3, timeLimit := some 5 } 9
        [id, id, id, wait 9] risingCandidates = .ok run ∧
      run.operators = [.mutate, .create, .create, .mutate] ∧
      run.search.history.values.toList = [3, 7, 9] ∧
      ∃ first, ((scripted false).generate 0 risingCandidates).1 = .ok first ∧
        Ledger (scripted false) { poolSize := 3, timeLimit := some 5 } first.chromosome run :=
  have h : session (scripted false) { poolSize := 3, timeLimit := some 5 } 9
      [id, id, id, wait 9] risingCandidates = .ok _ := rfl
  ⟨_, h, rfl, rfl, ledger_agrees h⟩

end EvolutionarySearch.Search
