import EvolutionarySearch.Proofs.Search.Ledger

/-!
# The history is never refused

A new best is found by comparison with the best so far, and is checked again, against the last entry
of the history, when it is appended there. The pool may hold worse, refilled and reinstated
chromosomes, and even some that are fitter than the best; none of this matters, since the history
and the best are only ever changed together.

* `Signal.ascending` — the history goes on rising strictly
* `Stride.Submits.beats` — what is submitted to the history beats the best
* `history_ascends` — the check never fails
-/

namespace EvolutionarySearch.Search

variable {ω Gene Fitness : Type} [Ord Fitness]

/-- A history that rises strictly up to what compares as the best does. -/
def Ascending (s : Search Gene Fitness) : Prop :=
  s.history.values.toList.Pairwise (fun a b => compare a b = .lt) ∧
    ∃ last, s.history.values.back? = some last ∧ compare last s.best.fitness = .eq

/-- A step that submits a chromosome to the history as the new best. -/
def Stride.Submits [Clock ω] (stride : Stride ω Gene Fitness) (c : Chromosome Gene Fitness) :
    Prop :=
  ∃ (s : Search Gene Fitness) (w : ω) (evaluated : List (Evaluation Gene Fitness)),
    s.records = stride.before.records ∧ stride.taken = s.promote c w evaluated

/-! ## Rising histories -/

section Rising

omit [Ord Fitness] in
/-- A list that is in order up to its last element can be continued by whatever follows that. -/
theorem pairwise_push {R : Fitness → Fitness → Prop} (htrans : ∀ a b c, R a b → R b c → R a c)
    {values : Array Fitness} {next : Fitness} (hvalues : values.toList.Pairwise R)
    (hnext : ∀ last, values.back? = some last → R last next) :
    (values.push next).toList.Pairwise R := by
  rw [Array.toList_push, List.pairwise_append]
  refine ⟨hvalues, List.pairwise_singleton _ _, ?_⟩
  intro a ha b hb
  rw [List.mem_singleton] at hb
  subst hb
  have hsome : values.toList.getLast? = some _ :=
    List.getLast?_eq_some_getLast (List.ne_nil_of_mem ha)
  rw [Array.getLast?_toList] at hsome
  have hlast := hnext _ hsome
  rw [← Array.getLast?_toList, List.getLast?_eq_some_iff] at hsome
  obtain ⟨init, hinit⟩ := hsome
  generalize values.toList.getLast _ = last at *
  rw [hinit] at ha hvalues
  rcases List.mem_append.mp ha with ha | ha
  · have hbelow := (List.pairwise_append.mp hvalues).2.2 a ha last (by simp)
    exact htrans a last b hbelow hlast
  · rwa [List.mem_singleton.mp ha]

variable [Std.TransOrd Fitness] {r r' : Records Gene Fitness} {progress : Progress Gene Fitness}

theorem Signal.ascending (h : Signal r r' progress) (hr : r.Coherent)
    (hvalues : r.history.values.toList.Pairwise fun a b => compare a b = .lt) :
    r'.history.values.toList.Pairwise fun a b => compare a b = .lt := by
  cases h with
  | surpassed hphase hbest =>
    refine pairwise_push (fun _ _ _ => Std.TransCmp.lt_trans) hvalues fun last hlast => ?_
    rw [← Option.some.inj (hr.symm.trans hlast)]
    exact Std.OrientedCmp.lt_of_gt hbest
  | _ => exact hvalues

/-- The history of a coherent search ends with the fitness of the best. -/
theorem Records.Coherent.ends {s : Search Gene Fitness} (hs : s.records.Coherent) :
    ∃ last, s.history.values.back? = some last ∧ compare last s.best.fitness = .eq :=
  ⟨s.best.fitness, hs, Std.ReflOrd.compare_self⟩

end Rising

/-! ## Submissions -/

variable [WordSource ω] [Clock ω] {p : Problem ω Gene Fitness} {cfg : Config}
  {s : Search Gene Fitness} {c : Chromosome Gene Fitness} {w : ω} {taken : Step ω Gene Fitness}

theorem Verdict.submits {slot : Nat} {parent child : Chromosome Gene Fitness} {kept : Bool}
    {evaluated : List (Evaluation Gene Fitness)}
    (h : Verdict cfg s slot parent kept child w evaluated taken) :
    (∃ s' : Search Gene Fitness,
        s'.records = s.records ∧ taken = s'.promote child w evaluated) ∨
      taken.search.records = s.records := by
  cases h with
  | surpassed hbetter hbest => exact .inl ⟨s.settle slot child, rfl, rfl⟩
  | retired hworse hage hold => exact .inr (by simp [proceed])
  | endured hworse hage hyoung => exact .inr (by simp [proceed])
  | _ => exact .inr rfl

/-- A step that submits nothing to the history leaves it as it is. -/
theorem Turn.submits (h : Turn p cfg s w taken) :
    (∃ c, (⟨s, w, taken⟩ : Stride ω Gene Fitness).Submits c) ∨
      taken.search.history = s.history := by
  cases h with
  | filledBest hphase htime hroom hgen hbest =>
    exact .inl ⟨_, s.widened _, _, _, rfl, rfl⟩
  | visit hphase htime hfull hbred hverdict =>
    have hsame : ∀ offspring notes,
        ((s.moved notes).refill offspring).records = s.records := by simp
    rcases hverdict.submits with ⟨s', hrecords, htaken⟩ | hrecords
    · exact .inl ⟨_, s', _, _, hrecords.trans (hsame _ _), htaken⟩
    · exact .inr (congrArg Records.history (hrecords.trans (hsame _ _)))
  | _ => exact .inr rfl

variable [Std.TransOrd Fitness]

/-- Whatever a step submits to the history beats the best. -/
theorem Stride.Submits.beats (h : (stride p cfg s w).Submits c) (hs : s.records.Coherent) :
    c.Beats s.best := by
  obtain ⟨s', w', evaluated, hrecords, htaken⟩ := h
  have hsignal := step_signal p cfg w hs
  have hstep : step p cfg s w = s'.promote c w' evaluated := htaken
  rw [hstep] at hsignal
  rcases (promote_cases s' c w' evaluated).2 with ⟨hanswer, hcrowned⟩ | ⟨hrefused, -⟩
  · rw [hanswer, hcrowned, hrecords] at hsignal
    have hcrown : (stride p cfg s w).before.records = s.records := rfl
    rw [hcrown] at hsignal
    generalize hr : s.records.crowned c = r at hsignal
    cases hsignal with
    | announced hphase =>
      -- an announcement leaves the history alone, and a promotion does not
      have hsize := congrArg (fun r : Records Gene Fitness => r.history.values.size) hr
      simp [Records.crowned] at hsize
    | surpassed hphase hbest => exact hbest
  · rw [hrefused] at hsignal
    generalize (s'.promote c w' evaluated).search.records = r at hsignal
    cases hsignal with
    | refused hphase herror => rcases herror with herror | herror <;> cases herror

theorem step_ne_refused (hs : s.records.Coherent) :
    (step p cfg s w).progress ≠ .answered (.error .unorderedHistory) := by
  intro hrefused
  have hsignal := step_signal p cfg w hs
  rw [hrefused] at hsignal
  generalize (step p cfg s w).search.records = r at hsignal
  cases hsignal with
  | refused hphase herror => rcases herror with herror | herror <;> cases herror

/-! ## Sessions -/

/-- What a step does with the history: whatever it submits is above the last entry and accepted. -/
structure Stride.Orderly (stride : Stride ω Gene Fitness) : Prop where
  before : stride.before.Ascending
  after : stride.taken.search.Ascending
  submitted : ∀ c, stride.Submits c →
    (∃ last, stride.before.history.values.back? = some last ∧ compare last c.fitness = .lt) ∧
      stride.before.history.push c.fitness
        = .ok ⟨stride.before.history.values.push c.fitness⟩
  silent : (∀ c, ¬stride.Submits c) → stride.taken.search.history = stride.before.history
  accepted : stride.taken.progress ≠ .answered (.error .unorderedHistory)

theorem orderly_stride (hs : s.records.Coherent)
    (hvalues : s.history.values.toList.Pairwise fun a b => compare a b = .lt) :
    (stride p cfg s w).Orderly where
  before := ⟨hvalues, hs.ends⟩
  after :=
    have hsignal := step_signal p cfg w hs
    ⟨hsignal.ascending hs hvalues, (hsignal.coherent hs).ends⟩
  submitted := by
    intro c hc
    have hbeats := hc.beats hs
    exact ⟨⟨_, hs, Std.OrientedCmp.lt_of_gt hbeats⟩, hs.push_eq hbeats⟩
  silent := by
    intro hnone
    rcases (step_turn p cfg s w).submits with ⟨c, hc⟩ | hsame
    · exact absurd hc (hnone c)
    · exact hsame
  accepted := step_ne_refused hs

/--
**The history rises strictly, and accepts whatever is submitted to it.** This holds after every step
of every session: a chromosome that is submitted is strictly above the last entry, which compares as
the best does.
-/
theorem history_ascends {steps : Nat} {changes : List (ω → ω)} {run : Session ω Gene Fitness}
    (h : session p cfg steps changes w = .ok run) :
    run.search.Ascending ∧ ∀ stride ∈ run.strides, stride.Orderly := by
  refine sound_induction
    (I := fun past s => s.Ascending ∧ ∀ stride ∈ past, stride.Orderly) h ?_ ?_
  · obtain ⟨w', hstart, -⟩ := session_eq_ok h
    obtain ⟨-, first, -, hopened⟩ := start_eq_ok hstart
    refine ⟨⟨?_, (sound_opened h).coherent.ends⟩, by simp⟩
    simp [hopened, opening, History.ofFirst]
  · rintro past s w hs ⟨hascending, hpast⟩
    have horderly : (stride p cfg s w).Orderly := orderly_stride hs.coherent hascending.1
    refine ⟨horderly.after, ?_⟩
    intro stride hstride
    rcases List.mem_append.mp hstride with hstride | hstride
    · exact hpast stride hstride
    · rwa [List.mem_singleton.mp hstride]

/-- A script in which two slots are refilled, one of them with a candidate above the best. -/
def overtakenBest : World Random.Cycle Script :=
  ⟨⟨[0x80000000], []⟩,
    { candidates := [[5], [3], [9], [1], [0]], children := [[4], [8], [6]] }⟩

/-- While the pool holds 9 and the best is 5, the child 6 is accepted. -/
theorem history_ascends_overtakenBest :
    ∃ run, session (scripted true) { poolSize := 2 } 5 [id, id] overtakenBest = .ok run ∧
      run.evaluated.map (·.fitness) = [5, 3, 9, 4, 1, 8, 0, 6] ∧
      run.search.history.values.toList = [5, 6] ∧
      run.search.Ascending ∧ ∀ stride ∈ run.strides, stride.Orderly :=
  have h : session (scripted true) { poolSize := 2 } 5 [id, id] overtakenBest = .ok _ := rfl
  ⟨_, h, rfl, rfl, history_ascends h⟩

end EvolutionarySearch.Search
