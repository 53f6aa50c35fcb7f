import EvolutionarySearch.Proofs.Search.Session
import EvolutionarySearch.Proofs.Search.Turn

/-!
# What a step shows

Beside its pool a search keeps records: the best, the history and the repertoire. `Signal` says how
an answer and a change of the records go together. It holds of a step as well as of a pull, since
nothing is recorded while no answer is given.

A history that does not end with the fitness of the best might refuse a new best, so `Coherent`
goes along.

* `Turn.signal`, `next_signal` — every step and every pull gives a signal
* `Signal.coherent` — the history goes on ending with the best
* `sound_induction` — induction over a session, in which every search is known to be `Sound`
* `sound_strides` — and what it says of the steps one by one
-/

namespace EvolutionarySearch.Search

variable {ω Gene Fitness : Type} {s : Search Gene Fitness}

/-! ## Errors -/

/-- The errors of a candidate that cannot be built. -/
def Unbuildable (error : SearchError) : Prop :=
  error = .emptyGeneSet ∨ error = .invalidConfig .zeroTargetLength

theorem generate_unbuildable [WordSource ω] [Clock ω] {p : Problem ω Gene Fitness} {length : Nat}
    {w : ω}
    {error : SearchError} (h : (p.generate length w).1 = .error error) : Unbuildable error := by
  unfold Problem.generate at h
  split at h
  · cases h
  · split at h
    · cases h; exact .inl rfl
    · split at h
      · cases h; exact .inr rfl
      · cases h

theorem Attempt.unbuildable [WordSource ω] [Clock ω] {p : Problem ω Gene Fitness} {cfg : Config}
    {w : ω} {bred : Breeding ω Gene Fitness} {error : SearchError} (h : Attempt p cfg s w bred)
    (herror : bred.outcome = .error error) : Unbuildable error := by
  cases h with
  | unmatched hdraw hcross hgen => cases herror; exact generate_unbuildable hgen
  | uncreated hdraw hgen => cases herror; exact generate_unbuildable hgen
  | combined | refilled | created | mutated => cases herror

/-! ## Records -/

/-- A search without its pool, its cursor and its notes. -/
structure Records (Gene Fitness : Type) where
  phase : Phase
  best : Chromosome Gene Fitness
  history : History Fitness
  repertoire : Repertoire
  started : Duration

/-- The records of a search. -/
def records (s : Search Gene Fitness) : Records Gene Fitness :=
  ⟨s.phase, s.best, s.history, s.repertoire, s.started⟩

/-- The records with a new best. -/
def Records.crowned (r : Records Gene Fitness) (c : Chromosome Gene Fitness) :
    Records Gene Fitness :=
  { r with
    best := c
    history := ⟨r.history.values.push c.fitness⟩
    repertoire := r.repertoire.credit c.strategy }

/-- The last fitness in the history is that of the best. -/
def Records.Coherent (r : Records Gene Fitness) : Prop :=
  r.history.values.back? = some r.best.fitness

@[simp]
theorem records_settle (s : Search Gene Fitness) (slot : Nat) (c : Chromosome Gene Fitness) :
    (s.settle slot c).records = s.records := rfl

@[simp]
theorem records_widened (s : Search Gene Fitness) (c : Chromosome Gene Fitness) :
    (s.widened c).records = s.records := rfl

@[simp]
theorem records_moved (s : Search Gene Fitness) (notes : Array (Note Fitness)) :
    (s.moved notes).records = s.records := rfl

@[simp]
theorem records_refill (s : Search Gene Fitness) (offspring : Offspring Gene Fitness) :
    (s.refill offspring).records = s.records := by
  unfold refill
  split <;> rfl

@[simp]
theorem records_grown (s : Search Gene Fitness) (slot : Nat) (parent : Chromosome Gene Fitness)
    (kept : Bool) : (s.grown slot parent kept).records = s.records := by
  unfold grown
  split <;> rfl

variable [Ord Fitness]

@[simp]
theorem records_anneal [WordSource ω] (s : Search Gene Fitness) (slot : Nat)
    (child : Chromosome Gene Fitness) (w : ω) :
    (s.anneal slot child w).1.records = s.records := by
  unfold anneal
  dsimp only
  split <;> rfl

/-! ## A new best -/

/-- The search after a new best. -/
def crowned [Clock ω] (s : Search Gene Fitness) (c : Chromosome Gene Fitness) (w : ω) :
    Search Gene Fitness :=
  { s.report #[.newBest c.fitness c.strategy (s.elapsed w)] with
    history := ⟨s.history.values.push c.fitness⟩
    repertoire := s.repertoire.credit c.strategy
    best := c }

/-- A chromosome that beats the best is never refused by the history. -/
theorem Records.Coherent.push_eq [Std.TransOrd Fitness] {r : Records Gene Fitness}
    (hr : r.Coherent) {c : Chromosome Gene Fitness} (hc : c.Beats r.best) :
    r.history.push c.fitness = .ok ⟨r.history.values.push c.fitness⟩ := by
  have hlast : r.history.values.back? = some r.best.fitness := hr
  have hallowed :
      r.history.values.back?.all (fun last => (compare last c.fitness).isLE) = true := by
    rw [hlast]
    exact hc.isLE
  exact if_pos hallowed

/-- It becomes the best. -/
theorem promote_eq [Clock ω] [Std.TransOrd Fitness] (hs : s.records.Coherent)
    {c : Chromosome Gene Fitness} (hc : c.Beats s.best) (w : ω)
    (evaluated : List (Evaluation Gene Fitness)) :
    s.promote c w evaluated =
      { search := s.crowned c w
        world := w
        progress := .answered (.ok (.better c))
        evaluated := evaluated } := by
  have hpush : History.push s.history c.fitness = .ok ⟨s.history.values.push c.fitness⟩ :=
    hs.push_eq hc
  unfold promote
  dsimp only [report]
  rw [hpush]
  rfl

/-! ## Signals -/

/-- How an answer goes together with what becomes of the records. -/
inductive Signal (r : Records Gene Fitness) :
    Records Gene Fitness → Progress Gene Fitness → Prop where
  /-- The search had ended. -/
  | silent (hphase : r.phase = .ended) : Signal r r .ended
  /-- The search ends with the best it has. -/
  | timedOut (hphase : r.phase ≠ .ended) :
    Signal r { r with phase := .ended } (.answered (.ok (.timedOut r.best)))
  /-- The search ends with an error. -/
  | refused (hphase : r.phase = .running) {error : SearchError} (herror : Unbuildable error) :
    Signal r { r with phase := .ended } (.answered (.error error))
  /-- The first candidate is announced. -/
  | announced (hphase : r.phase = .opening) :
    Signal r { r with phase := .running, repertoire := r.repertoire.credit r.best.strategy }
      (.answered (.ok (.better r.best)))
  /-- The search goes on. -/
  | pending (hphase : r.phase = .running) : Signal r r .pending
  /-- A new best is found. -/
  | surpassed (hphase : r.phase = .running) {c : Chromosome Gene Fitness} (hbest : c.Beats r.best) :
    Signal r (r.crowned c) (.answered (.ok (.better c)))

theorem Signal.coherent {r r' : Records Gene Fitness} {progress : Progress Gene Fitness}
    (h : Signal r r' progress) (hr : r.Coherent) : r'.Coherent := by
  cases h with
  | silent hphase => exact hr
  | timedOut hphase => exact hr
  | refused hphase herror => exact hr
  | announced hphase => exact hr
  | pending hphase => exact hr
  | surpassed hphase hbest => exact Array.back?_push

theorem Signal.recombines {r r' : Records Gene Fitness} {progress : Progress Gene Fitness}
    (h : Signal r r' progress) : r'.repertoire.recombines = r.repertoire.recombines := by
  have hcredit : ∀ strategy,
      (r.repertoire.credit strategy).recombines = r.repertoire.recombines := by
    intro strategy
    unfold Repertoire.credit
    split <;> rfl
  cases h with
  | silent hphase => rfl
  | timedOut hphase => rfl
  | refused hphase herror => rfl
  | announced hphase => exact hcredit _
  | pending hphase => rfl
  | surpassed hphase hbest => exact hcredit _

theorem Signal.started {r r' : Records Gene Fitness} {progress : Progress Gene Fitness}
    (h : Signal r r' progress) : r'.started = r.started := by
  cases h <;> rfl

/-- The first candidate is dealt with once and for all. -/
theorem Signal.phase_ne_opening {r r' : Records Gene Fitness} {progress : Progress Gene Fitness}
    (h : Signal r r' progress) : r'.phase ≠ .opening := by
  intro hopening
  cases h with
  | silent hphase => rw [hphase] at hopening; cases hopening
  | timedOut hphase => cases hopening
  | refused hphase herror => cases hopening
  | announced hphase => cases hopening
  | pending hphase => rw [hphase] at hopening; cases hopening
  | surpassed hphase hbest => rw [Records.crowned, hphase] at hopening; cases hopening

variable [WordSource ω] [Clock ω] [Std.TransOrd Fitness] {p : Problem ω Gene Fitness}
  {cfg : Config} {w : ω}

theorem Verdict.signal {slot : Nat} {parent child : Chromosome Gene Fitness} {kept : Bool}
    {evaluated : List (Evaluation Gene Fitness)} {taken : Step ω Gene Fitness}
    (h : Verdict cfg s slot parent kept child w evaluated taken) (hs : s.records.Coherent)
    (hphase : s.phase = .running) : Signal s.records taken.search.records taken.progress := by
  have hgoes : Signal s.records s.records .pending := .pending hphase
  cases h with
  | dropped hworse hage => exact hgoes
  | endured hworse hage hyoung => simpa [proceed] using hgoes
  | retired hworse hage hold => simpa [proceed] using hgoes
  | replaced hequal => exact hgoes
  | climbed hbetter hbest => exact hgoes
  | surpassed hbetter hbest =>
    rw [promote_eq (s := s.settle slot child) hs hbest]
    exact .surpassed hphase hbest

theorem Turn.signal {taken : Step ω Gene Fitness} (h : Turn p cfg s w taken)
    (hs : s.records.Coherent) : Signal s.records taken.search.records taken.progress := by
  cases h with
  | silent hphase => exact .silent hphase
  | timedOut hphase hlate => exact .timedOut hphase
  | announced hphase htime => exact .announced hphase
  | unfilled hphase htime hroom hgen => exact .refused hphase (generate_unbuildable hgen)
  | filled hphase htime hroom hgen hbest => exact .pending hphase
  | filledBest hphase htime hroom hgen hbest =>
    rw [promote_eq (s := s.widened _) hs hbest]
    exact .surpassed hphase hbest
  | barren hphase htime hfull hbred =>
    exact .refused hphase ((brood_attempt p cfg s w).unbuildable hbred)
  | visit hphase htime hfull hbred hverdict =>
    -- neither the attempt nor the refill is recorded
    have hsame : ∀ offspring notes,
        ((s.moved notes).refill offspring).records = s.records := by simp
    have hsignal := hverdict.signal (by rw [hsame]; exact hs)
      ((congrArg Records.phase (hsame _ _)).trans hphase)
    rwa [hsame] at hsignal

theorem step_signal (p : Problem ω Gene Fitness) (cfg : Config) (w : ω)
    (hs : s.records.Coherent) :
    Signal s.records (step p cfg s w).search.records (step p cfg s w).progress :=
  (step_turn p cfg s w).signal hs

/-! ## Pulls -/

/-- The progress that ends a pull. -/
def Pull.progress (pull : Pull ω Gene Fitness) : Progress Gene Fitness :=
  match pull.answer with
  | some answer => .answered answer
  | none => .ended

omit [Ord Fitness] [WordSource ω] [Clock ω] [Std.TransOrd Fitness] in
theorem Pull.progress_eq_answered {pull : Pull ω Gene Fitness}
    {answer : Except SearchError (Improvement Gene Fitness)} :
    pull.progress = .answered answer ↔ pull.answer = some answer := by
  unfold Pull.progress
  cases pull.answer <;> simp

/-- A step with which a pull ends. -/
structure Stride.Ends (last : Stride ω Gene Fitness) (pull : Pull ω Gene Fitness) : Prop where
  progress : last.taken.progress = pull.progress
  search : last.taken.search = pull.search
  world : last.taken.world = pull.world

omit [Std.TransOrd Fitness] in
/-- A pull answers with its last step. -/
theorem exists_last_stride {steps : Nat} {pull : Pull ω Gene Fitness}
    (h : next p cfg steps s w = some pull) :
    ∃ before last, strides p cfg steps s w = before ++ [last] ∧ last.Ends pull := by
  induction steps generalizing s w with
  | zero => cases h
  | succ steps ih =>
    simp only [next] at h
    cases hprogress : (step p cfg s w).progress with
    | pending =>
      rw [hprogress] at h
      obtain ⟨before, last, hstrides, hlast⟩ := ih h
      refine ⟨stride p cfg s w :: before, last, ?_, hlast⟩
      simp only [strides, hprogress, hstrides, List.cons_append]
    | answered answer =>
      rw [hprogress] at h
      cases h
      exact ⟨[], stride p cfg s w, by simp [strides, hprogress], hprogress, rfl, rfl⟩
    | ended =>
      rw [hprogress] at h
      cases h
      exact ⟨[], stride p cfg s w, by simp [strides, hprogress], hprogress, rfl, rfl⟩

/-- Nothing is recorded by a step without an answer. -/
theorem records_of_pending (hs : s.records.Coherent)
    (hprogress : (step p cfg s w).progress = .pending) :
    (step p cfg s w).search.records = s.records := by
  have hsignal := step_signal p cfg w hs
  rw [hprogress] at hsignal
  generalize (step p cfg s w).search.records = r at hsignal
  cases hsignal
  rfl

/-- A pull gives one signal, however many steps it takes. -/
theorem next_signal {steps : Nat} {pull : Pull ω Gene Fitness} (hs : s.records.Coherent)
    (h : next p cfg steps s w = some pull) :
    Signal s.records pull.search.records pull.progress := by
  induction steps generalizing s w with
  | zero => cases h
  | succ steps ih =>
    have hsignal := step_signal p cfg w hs
    simp only [next] at h
    cases hprogress : (step p cfg s w).progress with
    | pending =>
      rw [hprogress] at h
      have hsame := records_of_pending hs hprogress
      have hrest := ih (by rw [hsame]; exact hs) h
      rwa [hsame] at hrest
    | answered answer =>
      rw [hprogress] at h hsignal
      cases h
      exact hsignal
    | ended =>
      rw [hprogress] at h hsignal
      cases h
      exact hsignal

/-! ## Sessions -/

/-- What holds of every search that has been opened for a problem. -/
structure Sound (p : Problem ω Gene Fitness) (s : Search Gene Fitness) : Prop where
  coherent : s.records.Coherent
  recombines : s.repertoire.recombines = p.recombines

theorem Sound.step (hs : Sound p s) (cfg : Config) (w : ω) :
    Sound p (step p cfg s w).search where
  coherent := (step_signal p cfg w hs.coherent).coherent hs.coherent
  recombines := (step_signal p cfg w hs.coherent).recombines.trans hs.recombines

variable {steps : Nat} {changes : List (ω → ω)} {run : Session ω Gene Fitness}

omit [Std.TransOrd Fitness] in
theorem sound_opened (h : session p cfg steps changes w = .ok run) : Sound p run.opened := by
  obtain ⟨w', hstart, -⟩ := session_eq_ok h
  obtain ⟨-, first, -, hopened⟩ := start_eq_ok hstart
  rw [hopened]
  exact ⟨rfl, rfl⟩

omit [Std.TransOrd Fitness] in
/-- Every pull of a session ends with one of its steps. -/
theorem exists_last_of_mem_legs (h : session p cfg steps changes w = .ok run)
    {leg : Leg ω Gene Fitness} (hleg : leg ∈ run.legs) :
    ∃ before last, leg.strides = before ++ [last] ∧ last.Ends leg.pull ∧ last ∈ run.strides := by
  obtain ⟨w', -, hlegs⟩ := session_eq_ok h
  obtain ⟨s, v, hnext, hstrides⟩ := exists_next_of_mem_legs (hlegs ▸ hleg)
  obtain ⟨before, last, hlast, hends⟩ := exists_last_stride hnext
  rw [← hstrides] at hlast
  exact ⟨before, last, hlast, hends, List.mem_flatMap.mpr ⟨leg, hleg, by simp [hlast]⟩⟩

/-- What holds at the start, and is kept by every step of a sound search, holds at the end. -/
theorem sound_induction {I : List (Stride ω Gene Fitness) → Search Gene Fitness → Prop}
    (h : session p cfg steps changes w = .ok run) (hstart : I [] run.opened)
    (hstep : ∀ past s w, Sound p s → I past s →
      I (past ++ [stride p cfg s w]) (Search.step p cfg s w).search) :
    I run.strides run.search := by
  have hall : Sound p run.search ∧ I run.strides run.search := by
    refine session_induction (I := fun past s => Sound p s ∧ I past s) ?_ h ?_
    · rintro past s w ⟨hs, hpast⟩
      exact ⟨hs.step cfg w, hstep past s w hs hpast⟩
    · exact ⟨sound_opened h, hstart⟩
  exact hall.2

/-- What every step of a sound search does is done by all steps of a session. -/
theorem sound_strides {P : Stride ω Gene Fitness → Prop}
    (h : session p cfg steps changes w = .ok run)
    (hstep : ∀ s w, Sound p s → P (stride p cfg s w)) : ∀ stride ∈ run.strides, P stride := by
  refine sound_induction (I := fun past _ => ∀ stride ∈ past, P stride) h (by simp) ?_
  intro past s w hs hpast stride hstride
  rcases List.mem_append.mp hstride with hstride | hstride
  · exact hpast stride hstride
  · rw [List.mem_singleton.mp hstride]
    exact hstep s w hs

end EvolutionarySearch.Search
