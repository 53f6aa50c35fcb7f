import EvolutionarySearch.Search.Next
import EvolutionarySearch.Random.Cycle
import EvolutionarySearch.World

/-!
# Sessions

A session is a search that is started and then pulled a number of times. Whatever happens outside of
the search before a pull is given as a change of the world: time passes, or whoever holds the search
has used the source or the problem for something else.

All that can be observed of a session is the list of its legs, one for every pull that has a result,
and a leg is taken apart into strides, one for every step. A pull without a result in the allowed
number of steps ends the session.

* `session_induction` — what holds of a search as it is opened, and is kept by every step, holds at
  the end of every session
* `session_world_induction` — the same for what also depends on the world
* `answers_eq` — the answers of the pulls are the answers of the steps
-/

namespace EvolutionarySearch.Search

variable {ω Gene Fitness : Type}

/-- The answer of a pull. -/
abbrev Answer (Gene Fitness : Type) := Option (Except SearchError (Improvement Gene Fitness))

/-- The answer that announces a new best. -/
def announcement (c : Chromosome Gene Fitness) : Answer Gene Fitness := some (.ok (.better c))

/-- A step with the situation in which it is taken. -/
structure Stride (ω Gene Fitness : Type) where
  before : Search Gene Fitness
  world : ω
  taken : Step ω Gene Fitness

/-- A pull with its steps. -/
structure Leg (ω Gene Fitness : Type) where
  strides : List (Stride ω Gene Fitness)
  pull : Pull ω Gene Fitness

/-- A search that has been started, and the pulls since. -/
structure Session (ω Gene Fitness : Type) where
  opened : Search Gene Fitness
  legs : List (Leg ω Gene Fitness)

/-! ## What is seen of a session -/

/-- The answers of the pulls. -/
def Session.answers (session : Session ω Gene Fitness) : List (Answer Gene Fitness) :=
  session.legs.map (·.pull.answer)

/-- The steps of all pulls. -/
def Session.strides (session : Session ω Gene Fitness) : List (Stride ω Gene Fitness) :=
  session.legs.flatMap (·.strides)

/-- The search after the last pull. -/
def Session.search (session : Session ω Gene Fitness) : Search Gene Fitness :=
  (session.legs.map (·.pull.search)).getLastD session.opened

/-- The candidates that steps have evaluated. -/
def evaluatedBy (strides : List (Stride ω Gene Fitness)) : List (Chromosome Gene Fitness) :=
  strides.flatMap fun stride => stride.taken.evaluated.map (·.chromosome)

/-- The candidates that a session has evaluated, from the first one on. -/
def Session.evaluated (session : Session ω Gene Fitness) : List (Chromosome Gene Fitness) :=
  session.opened.best :: evaluatedBy session.strides

/-- The chromosome that an answer announces as a new best. -/
def Answer.best? : Answer Gene Fitness → Option (Chromosome Gene Fitness)
  | some (.ok (.better c)) => some c
  | _ => none

/-- The new bests among answers. -/
def bests (answers : List (Answer Gene Fitness)) : List (Chromosome Gene Fitness) :=
  answers.filterMap Answer.best?

theorem bests_append (answers more : List (Answer Gene Fitness)) :
    bests (answers ++ more) = bests answers ++ bests more :=
  List.filterMap_append

/-- The answers of a step: one or none. -/
def Progress.answers : Progress Gene Fitness → List (Answer Gene Fitness)
  | .pending => []
  | .answered answer => [some answer]
  | .ended => [none]

/-- The answers that steps have given. -/
def answersBy (strides : List (Stride ω Gene Fitness)) : List (Answer Gene Fitness) :=
  strides.flatMap (·.taken.progress.answers)

@[simp] theorem evaluatedBy_append (strides more : List (Stride ω Gene Fitness)) :
    evaluatedBy (strides ++ more) = evaluatedBy strides ++ evaluatedBy more :=
  List.flatMap_append

@[simp] theorem answersBy_append (strides more : List (Stride ω Gene Fitness)) :
    answersBy (strides ++ more) = answersBy strides ++ answersBy more :=
  List.flatMap_append

@[simp] theorem evaluatedBy_singleton (stride : Stride ω Gene Fitness) :
    evaluatedBy [stride] = stride.taken.evaluated.map (·.chromosome) :=
  List.flatMap_singleton _ _

theorem answersBy_cons (stride : Stride ω Gene Fitness) (strides : List (Stride ω Gene Fitness)) :
    answersBy (stride :: strides) = stride.taken.progress.answers ++ answersBy strides :=
  List.flatMap_cons

@[simp] theorem answersBy_singleton (stride : Stride ω Gene Fitness) :
    answersBy [stride] = stride.taken.progress.answers :=
  List.flatMap_singleton _ _

/-! ## How a session goes -/

variable [Ord Fitness] [WordSource ω] [Clock ω]

/-- A step in a situation. -/
def stride (p : Problem ω Gene Fitness) (cfg : Config) (s : Search Gene Fitness) (w : ω) :
    Stride ω Gene Fitness :=
  ⟨s, w, step p cfg s w⟩

/-- The steps of a pull. -/
def strides (p : Problem ω Gene Fitness) (cfg : Config) :
    Nat → Search Gene Fitness → ω → List (Stride ω Gene Fitness)
  | 0, _, _ => []
  | steps + 1, s, w =>
    let taken := step p cfg s w
    match taken.progress with
    | .pending => stride p cfg s w :: strides p cfg steps taken.search taken.world
    | _ => [stride p cfg s w]

/-- Pulls in turn, each within a number of steps and after a change of the world. -/
def legs (p : Problem ω Gene Fitness) (cfg : Config) (steps : Nat) :
    List (ω → ω) → Search Gene Fitness → ω → List (Leg ω Gene Fitness)
  | [], _, _ => []
  | change :: changes, s, w =>
    match next p cfg steps s (change w) with
    | none => []
    | some pull =>
      ⟨strides p cfg steps s (change w), pull⟩ ::
        legs p cfg steps changes pull.search pull.world

/-- The session of a search that is started in a world and pulled once after each change. -/
def session (p : Problem ω Gene Fitness) (cfg : Config) (steps : Nat) (changes : List (ω → ω))
    (w : ω) : Except SearchError (Session ω Gene Fitness) :=
  let started := start p cfg w
  started.1.map fun s => ⟨s, legs p cfg steps changes s started.2⟩

variable {p : Problem ω Gene Fitness} {cfg : Config} {steps : Nat} {s : Search Gene Fitness} {w : ω}

/-! ## Starting -/

omit [Ord Fitness] in
/-- A search that is started has built its first candidate. -/
theorem start_eq_ok {w' : ω} (h : start p cfg w = (.ok s, w')) :
    cfg.validate = .ok () ∧
      ∃ first, p.generate cfg.targetLength w = (.ok first, w') ∧
        s = opening first.chromosome p.recombines (Clock.now w) := by
  unfold start at h
  split at h
  · cases h
  · next hvalid =>
    refine ⟨hvalid, ?_⟩
    dsimp only at h
    cases hgen : p.generate cfg.targetLength w with
    | mk outcome world =>
      rw [hgen] at h
      cases outcome with
      | error error => cases h
      | ok first => cases h; exact ⟨first, rfl, rfl⟩

theorem session_eq_ok {changes : List (ω → ω)} {run : Session ω Gene Fitness}
    (h : session p cfg steps changes w = .ok run) :
    ∃ w', start p cfg w = (.ok run.opened, w') ∧
      run.legs = legs p cfg steps changes run.opened w' := by
  unfold session at h
  dsimp only at h
  cases hstart : (start p cfg w).1 with
  | error error => rw [hstart] at h; cases h
  | ok s =>
    rw [hstart] at h
    cases h
    exact ⟨(start p cfg w).2, Prod.ext hstart rfl, rfl⟩

/-! ## Pulls -/

/-- The pulls of a session are pulls of its search. -/
theorem exists_next_of_mem_legs {changes : List (ω → ω)} {leg : Leg ω Gene Fitness}
    (h : leg ∈ legs p cfg steps changes s w) :
    ∃ s' w', next p cfg steps s' w' = some leg.pull ∧ leg.strides = strides p cfg steps s' w' := by
  induction changes generalizing s w with
  | nil => cases h
  | cons change changes ih =>
    cases hnext : next p cfg steps s (change w) with
    | none => simp [legs, hnext] at h
    | some pull =>
      simp only [legs, hnext] at h
      rcases List.mem_cons.mp h with rfl | h
      · exact ⟨s, change w, hnext, rfl⟩
      · exact ih h

/-- After any of its pulls a session goes on as it would have started from there. -/
theorem exists_legs_after {changes : List (ω → ω)} {earlier later : List (Leg ω Gene Fitness)}
    {leg : Leg ω Gene Fitness}
    (h : legs p cfg steps changes s w = earlier ++ leg :: later) :
    ∃ rest, later = legs p cfg steps rest leg.pull.search leg.pull.world ∧
      changes.length = earlier.length + 1 + rest.length := by
  induction changes generalizing s w earlier with
  | nil => simp [legs] at h
  | cons change changes ih =>
    cases hnext : next p cfg steps s (change w) with
    | none => simp [legs, hnext] at h
    | some pull =>
      simp only [legs, hnext] at h
      cases earlier with
      | nil =>
        obtain ⟨rfl, rfl⟩ := List.cons.inj h
        exact ⟨changes, rfl, by simp; omega⟩
      | cons first earlier =>
        obtain ⟨rest, hlater, hlength⟩ := ih (List.cons.inj h).2
        exact ⟨rest, hlater, by simp; omega⟩

/-! ## Induction -/

section Induction

variable {I : List (Stride ω Gene Fitness) → Search Gene Fitness → ω → Prop}
  (hstep : ∀ past s w, I past s w →
    I (past ++ [stride p cfg s w]) (step p cfg s w).search (step p cfg s w).world)

include hstep

theorem next_induction (past : List (Stride ω Gene Fitness)) {pull : Pull ω Gene Fitness}
    (hs : I past s w) (h : next p cfg steps s w = some pull) :
    I (past ++ strides p cfg steps s w) pull.search pull.world := by
  induction steps generalizing past s w with
  | zero => cases h
  | succ steps ih =>
    have hnext := hstep past s w hs
    simp only [next] at h
    cases hprogress : (step p cfg s w).progress with
    | pending =>
      -- the rest of the pull starts with this step in its past
      rw [hprogress] at h
      have hrest := ih _ hnext h
      rw [List.append_assoc, List.singleton_append] at hrest
      simpa only [strides, hprogress] using hrest
    | answered answer =>
      rw [hprogress] at h
      cases h
      simpa only [strides, hprogress] using hnext
    | ended =>
      rw [hprogress] at h
      cases h
      simpa only [strides, hprogress] using hnext

theorem legs_induction (steps : Nat) {changes : List (ω → ω)}
    (hchange : ∀ change ∈ changes, ∀ past s w, I past s w → I past s (change w))
    {past : List (Stride ω Gene Fitness)} (hs : I past s w) :
    ∃ v, I (past ++ (legs p cfg steps changes s w).flatMap (·.strides))
      (((legs p cfg steps changes s w).map (·.pull.search)).getLastD s) v := by
  induction changes generalizing past s w with
  | nil =>
    refine ⟨w, ?_⟩
    simpa only [legs, List.flatMap_nil, List.append_nil, List.map_nil, List.getLastD_nil] using hs
  | cons change changes ih =>
    have hchanged := hchange change List.mem_cons_self past s w hs
    cases hnext : next p cfg steps s (change w) with
    | none =>
      refine ⟨change w, ?_⟩
      simpa only [legs, hnext, List.flatMap_nil, List.append_nil, List.map_nil,
        List.getLastD_nil] using hchanged
    | some pull =>
      obtain ⟨v, hrest⟩ := ih (fun other hother => hchange other (List.mem_cons_of_mem _ hother))
        (next_induction hstep past hchanged hnext)
      rw [List.append_assoc] at hrest
      refine ⟨v, ?_⟩
      simpa only [legs, hnext, List.flatMap_cons, List.map_cons, List.getLastD_cons] using hrest

/-- An invariant that also speaks of the world has to be kept by the changes before the pulls. -/
theorem session_world_induction {changes : List (ω → ω)} {run : Session ω Gene Fitness}
    (h : session p cfg steps changes w = .ok run)
    (hchange : ∀ change ∈ changes, ∀ past s w, I past s w → I past s (change w))
    (hstart : ∀ v, start p cfg w = (.ok run.opened, v) → I [] run.opened v) :
    ∃ v, I run.strides run.search v := by
  obtain ⟨w', hopened, hlegs⟩ := session_eq_ok h
  have hall := legs_induction hstep steps hchange (hstart w' hopened)
  rw [← hlegs] at hall
  exact hall

omit hstep in
theorem session_induction {I : List (Stride ω Gene Fitness) → Search Gene Fitness → Prop}
    (hstep : ∀ past s w, I past s → I (past ++ [stride p cfg s w]) (step p cfg s w).search)
    {changes : List (ω → ω)} {run : Session ω Gene Fitness}
    (h : session p cfg steps changes w = .ok run) (hstart : I [] run.opened) :
    I run.strides run.search := by
  have hall := session_world_induction (I := fun past s _ => I past s) hstep h
    (fun _ _ _ _ _ hs => hs) fun _ _ => hstart
  exact hall.elim fun _ hs => hs

end Induction

/-! ## Answers -/

theorem answers_strides {pull : Pull ω Gene Fitness} (h : next p cfg steps s w = some pull) :
    answersBy (strides p cfg steps s w) = [pull.answer] := by
  induction steps generalizing s w with
  | zero => cases h
  | succ steps ih =>
    simp only [next] at h
    cases hprogress : (step p cfg s w).progress with
    | pending =>
      rw [hprogress] at h
      simp only [strides, hprogress, answersBy_cons, ih h]
      simp only [stride, hprogress, Progress.answers, List.nil_append]
    | answered answer =>
      rw [hprogress] at h
      cases h
      simp only [strides, hprogress, answersBy_singleton, stride, Progress.answers]
    | ended =>
      rw [hprogress] at h
      cases h
      simp only [strides, hprogress, answersBy_singleton, stride, Progress.answers]

theorem answers_legs {changes : List (ω → ω)} :
    answersBy ((legs p cfg steps changes s w).flatMap (·.strides))
      = (legs p cfg steps changes s w).map (·.pull.answer) := by
  induction changes generalizing s w with
  | nil => rfl
  | cons change changes ih =>
    cases hnext : next p cfg steps s (change w) with
    | none =>
      simp only [legs, hnext, List.flatMap_nil, List.map_nil]
      rfl
    | some pull =>
      simp only [legs, hnext, List.flatMap_cons, answersBy_append, List.map_cons, ih,
        answers_strides hnext, List.singleton_append]

/-- The answers of a session are those of its steps. -/
theorem answers_eq {changes : List (ω → ω)} {run : Session ω Gene Fitness}
    (h : session p cfg steps changes w = .ok run) :
    run.answers = answersBy run.strides := by
  obtain ⟨w', -, hlegs⟩ := session_eq_ok h
  unfold Session.answers Session.strides
  rw [hlegs, answers_legs]

/-! ## Scripts -/

/-- Surroundings that are written down beforehand. -/
structure Script where
  now : Duration := 0
  /-- The time that an operator takes. -/
  tick : Duration := 0
  /-- The genes of the next candidates that are built from nothing. -/
  candidates : List (List Nat) := []
  /-- The genes of the next children. -/
  children : List (List Nat) := []

instance : Clock Script where
  now := Script.now

/-- A problem that follows a script, in which no two parents can be combined. -/
def scripted (recombines : Bool) : Problem (World Random.Cycle Script) Nat Nat where
  geneSet := #[]
  fitness genes := genes.headD 0
  optimal := 100
  create w :=
    let script := w.surroundings
    (script.candidates.head?,
      { w with surroundings :=
        { script with now := script.now + script.tick, candidates := script.candidates.tail } })
  mutate genes w :=
    let script := w.surroundings
    (script.children.headD genes,
      { w with surroundings :=
        { script with now := script.now + script.tick, children := script.children.tail } })
  recombines := recombines

/-- Time that passes between two pulls. -/
def wait (time : Duration) (w : World Random.Cycle Script) : World Random.Cycle Script :=
  { w with surroundings := { w.surroundings with now := w.surroundings.now + time } }

end EvolutionarySearch.Search
