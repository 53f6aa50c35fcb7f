import EvolutionarySearch.Proofs.Search.Conduct
import EvolutionarySearch.Proofs.Search.Deadline
import EvolutionarySearch.Proofs.Search.Truncation
import EvolutionarySearch.Proofs.Search.Walk

/-!
# Evaluations after a deadline

The deadline is checked before every step, and a step evaluates one candidate. So a search that runs
over its time should evaluate one candidate too many at most. There is one kind of step that
evaluates two: when a parent and its donor cannot be told apart, a fresh candidate is built for the
donor's slot and then the child, with no look at the clock in between.

The changes of the world along a walk are arbitrary, as long as they do not set the clock back. So
the time that an evaluation takes is part of what is said here.

* `Turn.yields` — what a step evaluates, and when
* `Overrun.step` — how many late evaluations there are after a step
* `late_evaluations` — the late evaluations of every search, and when there are two
-/

namespace EvolutionarySearch.Search

variable {ω Gene Fitness : Type}

/-! ## Candidates of a step -/

/-- The candidates whose evaluation began after a deadline. -/
def late (deadline : Duration) (evaluated : List (Evaluation Gene Fitness)) :
    List (Evaluation Gene Fitness) :=
  evaluated.filter fun candidate => deadline < candidate.began

section Candidates

variable [WordSource ω] [Clock ω] {p : Problem ω Gene Fitness} {cfg : Config}
  {s : Search Gene Fitness} {w : ω}

/-- A candidate is evaluated as soon as it is built. -/
theorem generate_began {length : Nat} {candidate : Evaluation Gene Fitness}
    (h : (p.generate length w).1 = .ok candidate) :
    candidate.began = Clock.now (p.generate length w).2 := by
  unfold Problem.generate at h ⊢
  split at h
  · cases h; rfl
  · split at h
    · cases h
    · next hgenes =>
      split at h
      · cases h
      · next hlength =>
        cases h
        simp only [hgenes, hlength, if_false, Bool.false_eq_true]
        rfl

/-- The child of a visit is evaluated last, and after the refill if there is one. -/
theorem Attempt.began {bred : Breeding ω Gene Fitness} {offspring : Offspring Gene Fitness}
    (hp : Paced p 0) (h : Attempt p cfg s w bred) (hbred : bred.outcome = .ok offspring) :
    offspring.child.began = Clock.now bred.world ∧
      ∀ slot fresh, offspring.refill = some (slot, fresh) →
        fresh.began ≤ offspring.child.began := by
  cases h with
  | combined hdraw hcross => cases hbred; exact ⟨rfl, by simp⟩
  | created hdraw hgen => cases hbred; exact ⟨generate_began hgen, by simp⟩
  | mutated hdraw hmutates => cases hbred; exact ⟨rfl, by simp⟩
  | @refilled v v' hdraw hcross fresh hgen =>
    cases hbred
    refine ⟨rfl, ?_⟩
    rintro slot _ ⟨⟩
    rw [generate_began hgen]
    exact hp.mutate s.visited.genes (p.generate cfg.targetLength v').2
  | unmatched | uncreated => cases hbred

/-- The candidates that a step evaluates: none, one, or a refill and then a child. -/
inductive Yields (p : Problem ω Gene Fitness) (cfg : Config) (s : Search Gene Fitness) (w : ω)
    (taken : Step ω Gene Fitness) : Prop where
  | none (hevaluated : taken.evaluated = []) (hrefilled : refilled p cfg s w = none)
  | one {candidate : Evaluation Gene Fitness} (hevaluated : taken.evaluated = [candidate])
    (hrefilled : refilled p cfg s w = none) (hbegan : candidate.began ≤ Clock.now taken.world)
  | two {slot : Nat} {fresh child : Evaluation Gene Fitness}
    (hevaluated : taken.evaluated = [fresh, child])
    (hrefilled : refilled p cfg s w = some (slot, fresh)) (horder : fresh.began ≤ child.began)
    (hbegan : child.began ≤ Clock.now taken.world)

theorem refilled_of_idle (h : ¬(s.phase = .running ∧ s.expired cfg w = false)) :
    refilled p cfg s w = none :=
  if_neg fun hvisits => h ⟨hvisits.1, hvisits.2.1⟩

theorem refilled_of_room (h : s.pool.size < cfg.poolSize) : refilled p cfg s w = none :=
  if_neg fun hvisits => Nat.not_lt.mpr hvisits.2.2 h

/-- An operator that takes some time takes no less than none. -/
theorem Paced.unhurried {d : Duration} (hp : Paced p d) : Paced p 0 where
  next32 := hp.next32
  next64 := hp.next64
  create w := Nat.le_of_add_right_le (hp.create w)
  mutate genes w := Nat.le_of_add_right_le (hp.mutate genes w)
  crossover hrecombines parent donor w :=
    Nat.le_of_add_right_le (hp.crossover hrecombines parent donor w)
  display := hp.display

theorem Paced.keeps {d : Duration} (hp : Paced p d) (time : Duration) :
    KeptByWords fun v : ω => time ≤ Clock.now v where
  next32 h := Nat.le_trans h (hp.next32 _)
  next64 h := Nat.le_trans h (hp.next64 _)

variable [Ord Fitness] {taken : Step ω Gene Fitness}

theorem Turn.yields (hp : Paced p 0) (h : Turn p cfg s w taken) : Yields p cfg s w taken := by
  cases h with
  | silent hphase => exact .none rfl (refilled_of_idle (by simp [hphase]))
  | timedOut hphase hlate => exact .none rfl (refilled_of_idle (by simp [hlate]))
  | announced hphase htime => exact .none rfl (refilled_of_idle (by simp [hphase]))
  | unfilled hphase htime hroom hgen => exact .none rfl (refilled_of_room hroom)
  | filled hphase htime hroom hgen hbest =>
    exact .one rfl (refilled_of_room hroom) (Nat.le_of_eq (generate_began hgen))
  | filledBest hphase htime hroom hgen hbest =>
    refine .one (evaluated_promote ..) (refilled_of_room hroom) ?_
    rw [world_promote]
    exact Nat.le_of_eq (generate_began hgen)
  | barren hphase htime hfull hbred =>
    refine .none rfl ?_
    unfold refilled
    simp [hbred]
  | @visit hphase htime hfull offspring hbred _ hverdict =>
    obtain ⟨hchild, horder⟩ := (brood_attempt p cfg s w).began hp hbred
    have hbegan : offspring.child.began ≤ Clock.now taken.world :=
      hverdict.kept (hp.keeps _) (Nat.le_of_eq hchild)
    have hrefilled := refilled_of_visit hphase htime hfull hbred
    have hevaluated : taken.evaluated = offspring.evaluated := hverdict.evaluated_eq
    unfold Offspring.evaluated at hevaluated
    cases hrefill : offspring.refill with
    | none =>
      rw [hrefill] at hrefilled hevaluated
      exact .one hevaluated hrefilled hbegan
    | some refill =>
      rw [hrefill] at hrefilled hevaluated
      exact .two hevaluated hrefilled (horder _ _ hrefill) hbegan

end Candidates

/-! ## Steps after a deadline -/

section Deadlines

variable [Ord Fitness] [WordSource ω] [Clock ω] {p : Problem ω Gene Fitness} {cfg : Config}
  {s : Search Gene Fitness} {w : ω} {limit deadline : Duration}

omit [Ord Fitness] [WordSource ω] in
theorem expired_iff (hlimit : cfg.timeLimit = some limit) :
    s.expired cfg w = true ↔ s.started + limit < Clock.now w := by
  unfold expired elapsed Clock.since
  rw [hlimit, Option.any_some, decide_eq_true_iff]
  exact Nat.lt_sub_iff_add_lt'

/-- A step that begins late is the timeout, unless the search had ended. -/
theorem step_of_expired (h : s.expired cfg w = true) :
    (step p cfg s w).evaluated = [] ∧
      (s.phase ≠ .ended → (step p cfg s w).progress = .answered (.ok (.timedOut s.best))) := by
  by_cases hphase : s.phase = .ended
  · exact ⟨by simp [step, hphase], fun hopen => absurd hphase hopen⟩
  · have hlate : (stride p cfg s w).Late cfg := ⟨hphase, h⟩
    rw [step_of_late hlate]
    exact ⟨rfl, fun _ => rfl⟩

/-- A step refills a slot with a candidate whose evaluation begins after a deadline. -/
def Stride.RefillsLate (p : Problem ω Gene Fitness) (cfg : Config) (deadline : Duration)
    (stride : Stride ω Gene Fitness) : Prop :=
  ∃ slot fresh, refilled p cfg stride.before stride.world = some (slot, fresh) ∧
    deadline < fresh.began

omit [Ord Fitness] in
theorem not_refillsLate {stride : Stride ω Gene Fitness}
    (h : refilled p cfg stride.before stride.world = none) :
    ¬stride.RefillsLate p cfg deadline := by
  rintro ⟨slot, fresh, hsome, -⟩
  rw [h] at hsome
  cases hsome

/-- The candidates that have been evaluated, from a first one on. -/
def evaluations (first : Evaluation Gene Fitness) (past : List (Stride ω Gene Fitness)) :
    List (Evaluation Gene Fitness) :=
  first :: past.flatMap (·.taken.evaluated)

omit [Ord Fitness] [WordSource ω] [Clock ω] in
theorem late_append (deadline : Duration) (first : Evaluation Gene Fitness)
    (past : List (Stride ω Gene Fitness)) (stride : Stride ω Gene Fitness) :
    late deadline (evaluations first (past ++ [stride]))
      = late deadline (evaluations first past) ++ late deadline stride.taken.evaluated := by
  unfold late evaluations
  rw [← List.filter_append, List.flatMap_append, List.flatMap_singleton, List.cons_append]

/--
What a search has evaluated after its deadline. The second candidate is the child of a step that has
refilled a slot when it was late already.
-/
inductive Overrun (p : Problem ω Gene Fitness) (cfg : Config) (deadline : Duration)
    (past : List (Stride ω Gene Fitness)) (now : Duration) : List (Evaluation Gene Fitness) → Prop
    where
  | none (hcalm : ∀ stride ∈ past, ¬stride.RefillsLate p cfg deadline) :
    Overrun p cfg deadline past now []
  | one (hcalm : ∀ stride ∈ past, ¬stride.RefillsLate p cfg deadline) (hnow : deadline < now)
    (candidate : Evaluation Gene Fitness) : Overrun p cfg deadline past now [candidate]
  | two (hrefill : ∃ stride ∈ past, stride.RefillsLate p cfg deadline) (hnow : deadline < now)
    (fresh child : Evaluation Gene Fitness) : Overrun p cfg deadline past now [fresh, child]

variable {first : Evaluation Gene Fitness} {past : List (Stride ω Gene Fitness)}
  {overdue : List (Evaluation Gene Fitness)} {now : Duration}

omit [Ord Fitness] in
theorem Overrun.wait {now' : Duration} (h : Overrun p cfg deadline past now overdue)
    (hle : now ≤ now') : Overrun p cfg deadline past now' overdue := by
  cases h with
  | none hcalm => exact .none hcalm
  | one hcalm hnow candidate => exact .one hcalm (Nat.lt_of_lt_of_le hnow hle) candidate
  | two hrefill hnow fresh child => exact .two hrefill (Nat.lt_of_lt_of_le hnow hle) fresh child

omit [Ord Fitness] in
/-- A step without a refill does not bring a second candidate. -/
theorem Overrun.calm (h : Overrun p cfg deadline past now overdue)
    {stride : Stride ω Gene Fitness}
    (hrefilled : refilled p cfg stride.before stride.world = Option.none) :
    Overrun p cfg deadline (past ++ [stride]) now overdue := by
  cases h with
  | none hcalm => exact .none (forall_append_singleton hcalm (not_refillsLate hrefilled))
  | one hcalm hnow candidate =>
    exact .one (forall_append_singleton hcalm (not_refillsLate hrefilled)) hnow candidate
  | two hrefill hnow fresh child =>
    obtain ⟨other, hmem, hrefill⟩ := hrefill
    exact .two ⟨other, List.mem_append_left _ hmem, hrefill⟩ hnow fresh child

omit [Ord Fitness] in
/-- A step that begins in time evaluates one candidate late, or two if its refill is late already. -/
theorem Yields.overrun {taken : Step ω Gene Fitness} (h : Yields p cfg s w taken)
    (hcalm : ∀ stride ∈ past, ¬stride.RefillsLate p cfg deadline) :
    Overrun p cfg deadline (past ++ [⟨s, w, taken⟩]) (Clock.now taken.world)
      (late deadline taken.evaluated) := by
  cases h with
  | none hevaluated hrefilled =>
    rw [hevaluated]
    exact (Overrun.none hcalm).calm hrefilled
  | @one candidate hevaluated hrefilled hbegan =>
    rw [hevaluated]
    by_cases hlate : deadline < candidate.began
    · have hone : late deadline [candidate] = [candidate] := by simp [late, hlate]
      rw [hone]
      exact (Overrun.one hcalm (Nat.lt_of_lt_of_le hlate hbegan) candidate).calm hrefilled
    · have hnone : late deadline [candidate] = [] := by simp [late, hlate]
      rw [hnone]
      exact (Overrun.none hcalm).calm hrefilled
  | @two slot fresh child hevaluated hrefilled horder hbegan =>
    rw [hevaluated]
    by_cases hfresh : deadline < fresh.began
    · -- what is evaluated after a late refill is late as well
      have hchild : deadline < child.began := Nat.lt_of_lt_of_le hfresh horder
      have htwo : late deadline [fresh, child] = [fresh, child] := by simp [late, hfresh, hchild]
      rw [htwo]
      exact .two ⟨_, List.mem_append_right _ List.mem_cons_self, slot, fresh, hrefilled, hfresh⟩
        (Nat.lt_of_lt_of_le hchild hbegan) fresh child
    · have hspared : ¬Stride.RefillsLate p cfg deadline ⟨s, w, taken⟩ := by
        rintro ⟨other, fresh', hsome, hlate⟩
        rw [hrefilled] at hsome
        cases hsome
        exact hfresh hlate
      have hall := forall_append_singleton hcalm hspared
      by_cases hchild : deadline < child.began
      · have hone : late deadline [fresh, child] = [child] := by simp [late, hfresh, hchild]
        rw [hone]
        exact .one hall (Nat.lt_of_lt_of_le hchild hbegan) child
      · have hnone : late deadline [fresh, child] = [] := by simp [late, hfresh, hchild]
        rw [hnone]
        exact .none hall

theorem Overrun.step (hp : Paced p 0) (hlimit : cfg.timeLimit = some limit)
    (hdeadline : s.started + limit = deadline) (hs : s.repertoire.recombines = p.recombines)
    (h : Overrun p cfg deadline past (Clock.now w) (late deadline (evaluations first past))) :
    Overrun p cfg deadline (past ++ [stride p cfg s w]) (Clock.now (Search.step p cfg s w).world)
      (late deadline (evaluations first (past ++ [stride p cfg s w]))) := by
  have hclock : Clock.now w ≤ Clock.now (Search.step p cfg s w).world := by
    have hpaced : Clock.now w + searchesOf cfg [stride p cfg s w] * 0
        ≤ Clock.now (Search.step p cfg s w).world := hp.step hs
    simpa using hpaced
  rw [late_append]
  by_cases hlate : deadline < Clock.now w
  · -- the check before the step fails, so nothing is evaluated any more
    have hexpired : s.expired cfg w = true := (expired_iff hlimit).mpr (hdeadline ▸ hlate)
    have hnothing : late deadline (stride p cfg s w).taken.evaluated = [] := by
      show late deadline (Search.step p cfg s w).evaluated = []
      rw [(step_of_expired hexpired).1]
      rfl
    rw [hnothing, List.append_nil]
    exact (h.calm (refilled_of_idle (by simp [stride, hexpired]))).wait hclock
  · generalize late deadline (evaluations first past) = overdue at h
    cases h with
    | none hcalm => exact ((step_turn p cfg s w).yields hp).overrun hcalm
    | one hcalm hnow candidate => exact absurd hnow hlate
    | two hrefill hnow fresh child => exact absurd hnow hlate

/-! ## Searches with a time limit -/

/-- What is to be said of every step of a search with a deadline. -/
structure Stride.Punctual (p : Problem ω Gene Fitness) (cfg : Config) (deadline : Duration)
    (stride : Stride ω Gene Fitness) : Prop where
  /-- After the deadline nothing is evaluated: the step is the timeout of a search still open. -/
  stops : deadline < Clock.now stride.world →
    stride.taken.evaluated = [] ∧ (stride.before.phase ≠ .ended →
      stride.taken.progress = .answered (.ok (.timedOut stride.before.best)))
  /-- One candidate is evaluated at most, or two if the first of them refills a slot. -/
  each : stride.taken.evaluated.length ≤ 1 ∨ ∃ slot fresh child,
    refilled p cfg stride.before stride.world = some (slot, fresh) ∧
      stride.taken.evaluated = [fresh, child]
  never : NeverRefills p → ¬stride.RefillsLate p cfg deadline

/-- What is to be said of the evaluations of a search with a deadline. -/
structure Overtime (p : Problem ω Gene Fitness) (cfg : Config) (deadline : Duration)
    (first : Evaluation Gene Fitness) (strides : List (Stride ω Gene Fitness)) : Prop where
  punctual : ∀ stride ∈ strides, stride.Punctual p cfg deadline
  atMostTwo : (late deadline (evaluations first strides)).length ≤ 2
  /-- There is a second late evaluation exactly if a slot is refilled when it is late already. -/
  two_iff : (late deadline (evaluations first strides)).length = 2 ↔
    ∃ stride ∈ strides, stride.RefillsLate p cfg deadline
  atMostOne : NeverRefills p → (late deadline (evaluations first strides)).length ≤ 1

omit [Ord Fitness] in
/-- What has been evaluated late tells whether a slot was refilled late. -/
theorem Overrun.overtime {strides : List (Stride ω Gene Fitness)}
    (h : Overrun p cfg deadline strides now (late deadline (evaluations first strides)))
    (hpunctual : ∀ stride ∈ strides, stride.Punctual p cfg deadline) :
    Overtime p cfg deadline first strides := by
  generalize hlate : late deadline (evaluations first strides) = overdue at h
  refine ⟨hpunctual, ?_, ?_, fun hnever => ?_⟩ <;> rw [hlate]
  · cases h <;> simp
  · cases h with
    | none hcalm | one hcalm hnow candidate => simpa using hcalm
    | two hrefill hnow fresh child => simpa using hrefill
  · cases h with
    | none hcalm | one hcalm hnow candidate => simp
    | two hrefill hnow fresh child =>
      obtain ⟨stride, hmem, hrefill⟩ := hrefill
      exact absurd hrefill ((hpunctual stride hmem).never hnever)

/-- A search under way, with the deadline and the operators that it was started with. -/
structure Underway (p : Problem ω Gene Fitness) (limit deadline : Duration)
    (s : Search Gene Fitness) : Prop where
  deadline : s.started + limit = deadline
  recombines : s.repertoire.recombines = p.recombines

theorem Underway.step (h : Underway p limit deadline s) (cfg : Config) (w : ω) :
    Underway p limit deadline (step p cfg s w).search where
  deadline := by rw [step_started, h.deadline]
  recombines := (step_turn p cfg s w).entry.recombines.trans h.recombines

theorem Underway.punctual (h : Underway p limit deadline s) (hp : Paced p 0)
    (hlimit : cfg.timeLimit = some limit) : (stride p cfg s w).Punctual p cfg deadline where
  stops hlate := step_of_expired ((expired_iff hlimit).mpr (h.deadline ▸ hlate))
  each := by
    cases (step_turn p cfg s w).yields hp with
    | none hevaluated hrefilled => exact .inl (by simp [stride, hevaluated])
    | one hevaluated hrefilled hbegan => exact .inl (by simp [stride, hevaluated])
    | two hevaluated hrefilled horder hbegan => exact .inr ⟨_, _, _, hrefilled, hevaluated⟩
  never hnever := not_refillsLate (refilled_eq_none hnever h.recombines)

theorem overtime_of_walk {changes : List (ω → ω)} {v : ω} (hp : Paced p 0)
    (hlimit : cfg.timeLimit = some limit)
    (hchanges : ∀ change ∈ changes, ∀ u : ω, Clock.now u ≤ Clock.now (change u))
    (hstart : start p cfg w = (.ok s, v)) :
    ∃ first, (p.generate cfg.targetLength w).1 = .ok first ∧
      Overtime p cfg (Clock.now w + limit) first (walk p cfg changes s v) := by
  obtain ⟨-, first, hgen, hopened⟩ := start_eq_ok hstart
  have hbuilt : (p.generate cfg.targetLength w).1 = .ok first := by rw [hgen]
  have hbegan : first.began = Clock.now v := by
    have hnow := generate_began hbuilt
    rwa [hgen] at hnow
  have hstarted : Underway p limit (Clock.now w + limit) s := by
    rw [hopened]
    exact ⟨rfl, rfl⟩
  -- the first candidate may itself be late
  have hfirst : Overrun p cfg (Clock.now w + limit) [] (Clock.now v)
      (late (Clock.now w + limit) (evaluations first ([] : List (Stride ω Gene Fitness)))) := by
    by_cases hlate : Clock.now w + limit < first.began
    · simpa [late, evaluations, hlate] using Overrun.one (by simp) (hbegan ▸ hlate) first
    · simpa [late, evaluations, hlate] using Overrun.none (by simp)
  obtain ⟨s', v', -, hpunctual, hoverrun⟩ := walk_induction
    (I := fun past s v => Underway p limit (Clock.now w + limit) s ∧
      (∀ stride ∈ past, stride.Punctual p cfg (Clock.now w + limit)) ∧
      Overrun p cfg (Clock.now w + limit) past (Clock.now v)
        (late (Clock.now w + limit) (evaluations first past)))
    (fun past s v ⟨hs, hpast, hoverrun⟩ => ⟨hs.step cfg v,
      forall_append_singleton hpast (hs.punctual hp hlimit),
      hoverrun.step hp hlimit hs.deadline hs.recombines⟩)
    changes
    (fun change hmem past s v ⟨hs, hpast, hoverrun⟩ =>
      ⟨hs, hpast, hoverrun.wait (hchanges change hmem v)⟩)
    ⟨hstarted, by simp, hfirst⟩
  exact ⟨first, hbuilt, hoverrun.overtime hpunctual⟩

/--
**After the deadline one candidate is evaluated at most, or two if one of them refills a slot.** A
search has a time limit, and nothing sets the clock back. Once the limit has passed no step is begun
but the timeout, so what is evaluated late is evaluated by the step in progress. That is one
candidate, except when the step refills the slot of a donor and is late already when it does so:
then the child is evaluated late as well. It makes no difference how often the search is pulled, and
how much time goes by between its steps.
-/
theorem late_evaluations (hp : Paced p 0) (hlimit : cfg.timeLimit = some limit) :
    (∀ changes s w v, (∀ change ∈ changes, ∀ u : ω, Clock.now u ≤ Clock.now (change u)) →
      start p cfg w = (.ok s, v) →
      ∃ first, (p.generate cfg.targetLength w).1 = .ok first ∧
        Overtime p cfg (Clock.now w + limit) first (walk p cfg changes s v)) ∧
    ∀ steps changes w run, (∀ change ∈ changes, ∀ u : ω, Clock.now u ≤ Clock.now (change u)) →
      session p cfg steps changes w = .ok run →
      ∃ first, (p.generate cfg.targetLength w).1 = .ok first ∧
        Overtime p cfg (Clock.now w + limit) first run.strides := by
  refine ⟨fun changes s w v hchanges hstart => overtime_of_walk hp hlimit hchanges hstart, ?_⟩
  intro steps changes w run hchanges h
  obtain ⟨v, walked, hstart, hwalked, hstrides⟩ := exists_walk_of_session h
  rw [hstrides]
  refine overtime_of_walk hp hlimit ?_ hstart
  intro change hmem u
  rcases hwalked change hmem with rfl | hmem
  · exact Nat.le_refl _
  · exact hchanges change hmem u

/-- A script with a candidate that refills the only slot, and a child worse than its parent. -/
def lateRefill : Timed (World Random.Cycle Script) :=
  ⟨⟨⟨[0x80000000], []⟩, { candidates := [[5], [4]], children := [[4]] }⟩, 0⟩

/--
The deadline passes while parents are combined in vain. The candidate for the slot and the child are
both evaluated after it.
-/
theorem late_evaluations_lateRefill :
    ∃ run, session ((scripted true).slowed 1000) { timeLimit := some 1500 } 3 [id, id] lateRefill
        = .ok run ∧
      run.answers = [announcement ⟨[5], 5, .create, 0⟩,
        some (.ok (.timedOut ⟨[5], 5, .create, 0⟩))] ∧
      (run.strides.flatMap (·.taken.evaluated)).map (·.began) = [3000, 4000] ∧
      (∃ stride ∈ run.strides,
        stride.RefillsLate ((scripted true).slowed 1000) { timeLimit := some 1500 } 1500) ∧
      ∃ first, (((scripted true).slowed 1000).generate 0 lateRefill).1 = .ok first ∧
        Overtime ((scripted true).slowed 1000) { timeLimit := some 1500 } 1500 first
          run.strides := by
  have h : session ((scripted true).slowed 1000) { timeLimit := some 1500 } 3 [id, id] lateRefill
      = .ok _ := rfl
  have hlimit : Config.timeLimit { timeLimit := some 1500 } = some 1500 := rfl
  obtain ⟨first, hgen, hovertime⟩ :=
    (late_evaluations (paced_slowed (scripted true) 1000).unhurried hlimit).2 3 [id, id] lateRefill
      _ (by simp) h
  refine ⟨_, h, rfl, rfl, ?_, first, hgen, hovertime⟩
  refine hovertime.two_iff.mp ?_
  cases hgen
  rfl

end Deadlines

end EvolutionarySearch.Search
