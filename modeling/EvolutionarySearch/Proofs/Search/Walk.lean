import EvolutionarySearch.Proofs.Search.Session

/-!
# Walks

A walk is a search that takes one step after the other, each after a change of the world. In a
session the world changes between two pulls only. Here it may change between any two steps, so that
time can also pass while the last candidate of a step is evaluated. And no step is missing: a walk
is as long as the list of its changes.

* `walk_induction` — what holds of a search, and is kept by steps and changes, holds along a walk
* `walk_arrives`, `walk_split` — what then holds where a walk arrives, and before any of its steps
* `exists_walk_of_session`, `session_of_walk` — the steps of every session are a walk
-/

namespace EvolutionarySearch.Search

variable {ω Gene Fitness : Type}

/-- The search to which steps have led from a first one. -/
def arrived (opened : Search Gene Fitness) (past : List (Stride ω Gene Fitness)) :
    Search Gene Fitness :=
  (past.getLast?.map (·.taken.search)).getD opened

@[simp] theorem arrived_append_singleton (opened : Search Gene Fitness)
    (past : List (Stride ω Gene Fitness)) (stride : Stride ω Gene Fitness) :
    arrived opened (past ++ [stride]) = stride.taken.search := by
  simp [arrived]

theorem arrived_cons (opened : Search Gene Fitness) (stride : Stride ω Gene Fitness)
    (later : List (Stride ω Gene Fitness)) :
    arrived opened (stride :: later) = arrived stride.taken.search later := by
  cases later <;> simp [arrived, List.getLast?_cons]

variable [Ord Fitness] [WordSource ω] [Clock ω]

/-- Steps in a row, each after a change of the world. -/
def walk (p : Problem ω Gene Fitness) (cfg : Config) :
    List (ω → ω) → Search Gene Fitness → ω → List (Stride ω Gene Fitness)
  | [], _, _ => []
  | change :: changes, s, w =>
    let taken := step p cfg s (change w)
    stride p cfg s (change w) :: walk p cfg changes taken.search taken.world

variable {p : Problem ω Gene Fitness} {cfg : Config} {steps : Nat} {changes : List (ω → ω)}
  {s : Search Gene Fitness} {w : ω}

@[simp] theorem length_walk : (walk p cfg changes s w).length = changes.length := by
  induction changes generalizing s w with
  | nil => rfl
  | cons change changes ih => simp [walk, ih]

/-- What every step does is done by all steps of a walk. -/
theorem walk_strides {P : Stride ω Gene Fitness → Prop} (hstep : ∀ s w, P (stride p cfg s w)) :
    ∀ stride ∈ walk p cfg changes s w, P stride := by
  induction changes generalizing s w with
  | nil => simp [walk]
  | cons change changes ih =>
    rw [walk, List.forall_mem_cons]
    exact ⟨hstep s (change w), ih⟩

/-! ## Induction -/

section Induction

variable {I : List (Stride ω Gene Fitness) → Search Gene Fitness → ω → Prop}
  (hstep : ∀ past s w, I past s w →
    I (past ++ [stride p cfg s w]) (step p cfg s w).search (step p cfg s w).world)

include hstep

theorem walk_induction_after
    (hchange : ∀ change ∈ changes, ∀ past s w, I past s w → I past s (change w))
    {past : List (Stride ω Gene Fitness)} (hs : I past s w) :
    ∃ s' v, I (past ++ walk p cfg changes s w) s' v := by
  induction changes generalizing past s w with
  | nil => exact ⟨s, w, by simpa [walk] using hs⟩
  | cons change changes ih =>
    have hnext := hstep past s (change w) (hchange change List.mem_cons_self past s w hs)
    obtain ⟨s', v, hrest⟩ :=
      ih (fun other hother => hchange other (List.mem_cons_of_mem _ hother)) hnext
    exact ⟨s', v, by simpa [walk] using hrest⟩

theorem walk_induction (changes : List (ω → ω))
    (hchange : ∀ change ∈ changes, ∀ past s w, I past s w → I past s (change w))
    (hs : I [] s w) : ∃ s' v, I (walk p cfg changes s w) s' v :=
  walk_induction_after hstep hchange hs

end Induction

/-! ## The way of a walk -/

theorem take_walk (i : Nat) :
    (walk p cfg changes s w).take i = walk p cfg (changes.take i) s w := by
  induction changes generalizing s w i with
  | nil => simp [walk]
  | cons change changes ih =>
    cases i with
    | zero => rfl
    | succ i => simp only [walk, List.take_succ_cons, ih]

/-- Every step of a walk is taken from where the steps before it have arrived. -/
theorem exists_arrival {earlier later : List (Stride ω Gene Fitness)}
    {taken : Stride ω Gene Fitness} (h : walk p cfg changes s w = earlier ++ taken :: later) :
    ∃ v, taken = stride p cfg (arrived s earlier) v := by
  induction changes generalizing s w earlier with
  | nil => simp [walk] at h
  | cons change changes ih =>
    cases earlier with
    | nil =>
      obtain ⟨rfl, -⟩ := List.cons.inj h
      exact ⟨change w, rfl⟩
    | cons first earlier =>
      obtain ⟨rfl, hrest⟩ := List.cons.inj h
      rw [arrived_cons]
      exact ih hrest

/-- What holds of a search, and is kept by steps, holds wherever a walk arrives. -/
theorem walk_arrives {I : List (Stride ω Gene Fitness) → Search Gene Fitness → Prop}
    (hstep : ∀ past t v, I past t →
      I (past ++ [stride p cfg t v]) (step p cfg t v).search)
    (hs : I [] s) (i : Nat) :
    I ((walk p cfg changes s w).take i) (arrived s ((walk p cfg changes s w).take i)) := by
  obtain ⟨t, -, harrived, hall⟩ := walk_induction (s := s) (w := w)
    (I := fun past t _ => t = arrived s past ∧ I past t)
    (fun past t v ⟨_, ht⟩ =>
      ⟨(arrived_append_singleton s past (stride p cfg t v)).symm, hstep past t v ht⟩)
    (changes.take i) (fun _ _ _ _ _ h => h) ⟨rfl, hs⟩
  rw [take_walk, ← harrived]
  exact hall

/-- So every step of a walk is taken by a search of which it holds. -/
theorem walk_split {I : List (Stride ω Gene Fitness) → Search Gene Fitness → Prop}
    (hstep : ∀ past t v, I past t →
      I (past ++ [stride p cfg t v]) (step p cfg t v).search)
    (hs : I [] s) {earlier later : List (Stride ω Gene Fitness)} {taken : Stride ω Gene Fitness}
    (h : walk p cfg changes s w = earlier ++ taken :: later) :
    ∃ t v, I earlier t ∧ taken = stride p cfg t v := by
  obtain ⟨v, htaken⟩ := exists_arrival h
  have hearlier : (walk p cfg changes s w).take earlier.length = earlier := by
    rw [h, List.take_left]
  refine ⟨arrived s earlier, v, ?_, htaken⟩
  rw [← hearlier]
  exact walk_arrives hstep hs earlier.length

theorem walk_strides_of {I : List (Stride ω Gene Fitness) → Search Gene Fitness → Prop}
    (hstep : ∀ past t v, I past t →
      I (past ++ [stride p cfg t v]) (step p cfg t v).search)
    (hs : I [] s) {P : Stride ω Gene Fitness → Prop}
    (hP : ∀ past t v, I past t → P (stride p cfg t v)) :
    ∀ taken ∈ walk p cfg changes s w, P taken := by
  intro taken hmem
  obtain ⟨earlier, later, hsplit⟩ := List.append_of_mem hmem
  obtain ⟨t, v, ht, rfl⟩ := walk_split hstep hs hsplit
  exact hP earlier t v ht

/-- What every step of a walk relates is related wherever the walk arrives earlier and later. -/
theorem walk_relates {R : Search Gene Fitness → Search Gene Fitness → Prop}
    (hrefl : ∀ t, R t t) (htrans : ∀ t u v, R t u → R u v → R t v)
    (hstep : ∀ taken ∈ walk p cfg changes s w, R taken.before taken.taken.search)
    {i j : Nat} (hij : i ≤ j) :
    R (arrived s ((walk p cfg changes s w).take i))
      (arrived s ((walk p cfg changes s w).take j)) := by
  induction hij with
  | refl => exact hrefl _
  | @step j hij ih =>
    by_cases hj : j < (walk p cfg changes s w).length
    · have hsplit : walk p cfg changes s w = (walk p cfg changes s w).take j
          ++ (walk p cfg changes s w)[j] :: (walk p cfg changes s w).drop (j + 1) := by
        rw [List.getElem_cons_drop, List.take_append_drop]
      obtain ⟨v, hv⟩ := exists_arrival hsplit
      have hnext := hstep _ (List.getElem_mem hj)
      rw [hv] at hnext
      rw [List.take_succ_eq_append_getElem hj, arrived_append_singleton, hv]
      exact htrans _ _ _ ih hnext
    · have hend : (walk p cfg changes s w).take (j + 1) = (walk p cfg changes s w).take j := by
        rw [List.take_of_length_le (by omega), List.take_of_length_le (by omega)]
      rw [hend]
      exact ih

omit [Ord Fitness] [WordSource ω] [Clock ω] in
/-- What holds of all strides so far, and of one more. -/
theorem forall_append_singleton {P : Stride ω Gene Fitness → Prop}
    {past : List (Stride ω Gene Fitness)} {stride : Stride ω Gene Fitness}
    (hpast : ∀ other ∈ past, P other) (hstride : P stride) :
    ∀ other ∈ past ++ [stride], P other := by
  simpa [or_imp, forall_and] using ⟨hpast, hstride⟩

/-! ## Sessions -/

/-- A pull goes on step by step in an unchanged world. -/
theorem strides_walk {pull : Pull ω Gene Fitness} (h : next p cfg steps s w = some pull) :
    ∃ more, ∀ rest,
      walk p cfg (id :: (List.replicate more id ++ rest)) s w
        = strides p cfg steps s w ++ walk p cfg rest pull.search pull.world := by
  induction steps generalizing s w with
  | zero => cases h
  | succ steps ih =>
    simp only [next] at h
    cases hprogress : (step p cfg s w).progress with
    | pending =>
      rw [hprogress] at h
      obtain ⟨more, hwalk⟩ := ih h
      refine ⟨more + 1, fun rest => ?_⟩
      rw [walk, List.replicate_succ, List.cons_append]
      simp only [id_eq, strides, hprogress, List.cons_append, hwalk]
    | answered | ended =>
      rw [hprogress] at h
      cases h
      refine ⟨0, fun rest => ?_⟩
      simp only [walk, id_eq, strides, hprogress, List.replicate_zero, List.nil_append,
        List.cons_append]

theorem exists_walk_of_legs (p : Problem ω Gene Fitness) (cfg : Config) (steps : Nat)
    (changes : List (ω → ω)) (s : Search Gene Fitness) (w : ω) :
    ∃ walked : List (ω → ω), (∀ change ∈ walked, change = id ∨ change ∈ changes) ∧
      (legs p cfg steps changes s w).flatMap (·.strides) = walk p cfg walked s w := by
  induction changes generalizing s w with
  | nil => exact ⟨[], by simp, rfl⟩
  | cons change changes ih =>
    cases hnext : next p cfg steps s (change w) with
    | none => exact ⟨[], by simp, by simp [legs, hnext, walk]⟩
    | some pull =>
      obtain ⟨walked, hwalked, hrest⟩ := ih pull.search pull.world
      obtain ⟨more, hpull⟩ := strides_walk hnext
      refine ⟨change :: (List.replicate more id ++ walked), ?_, ?_⟩
      · intro other hother
        simp only [List.mem_cons, List.mem_append, List.mem_replicate] at hother ⊢
        rcases hother with rfl | ⟨-, rfl⟩ | hother
        · exact .inr (.inl rfl)
        · exact .inl rfl
        · exact (hwalked other hother).imp_right .inr
      · -- the change before the pull has been made, and then nothing changes
        have hsame : walk p cfg (change :: (List.replicate more id ++ walked)) s w
            = walk p cfg (id :: (List.replicate more id ++ walked)) s (change w) := rfl
        rw [hsame, hpull, ← hrest]
        simp only [legs, hnext, List.flatMap_cons]

/-- A search that has been started is a session without pulls. -/
theorem session_of_start {v : ω} (hstart : start p cfg w = (.ok s, v)) :
    session p cfg 0 [] w = .ok ⟨s, []⟩ := by
  unfold session
  rw [hstart]
  rfl

/-- The steps of a session, with no other changes of the world than those before its pulls. -/
theorem exists_walk_of_session {run : Session ω Gene Fitness}
    (h : session p cfg steps changes w = .ok run) :
    ∃ v walked, start p cfg w = (.ok run.opened, v) ∧
      (∀ change ∈ walked, change = id ∨ change ∈ changes) ∧
      run.strides = walk p cfg walked run.opened v := by
  obtain ⟨v, hstart, hlegs⟩ := session_eq_ok h
  obtain ⟨walked, hwalked, hall⟩ := exists_walk_of_legs p cfg steps changes run.opened v
  exact ⟨v, walked, hstart, hwalked, by rw [Session.strides, hlegs, hall]⟩

/-- What holds of all walks from where a search is opened holds of the steps of a session. -/
theorem session_of_walk {Q : Search Gene Fitness → List (Stride ω Gene Fitness) → Prop}
    (hwalk : ∀ changes s v, start p cfg w = (.ok s, v) → Q s (walk p cfg changes s v))
    {run : Session ω Gene Fitness} (h : session p cfg steps changes w = .ok run) :
    Q run.opened run.strides := by
  obtain ⟨v, walked, hstart, -, hstrides⟩ := exists_walk_of_session h
  rw [hstrides]
  exact hwalk walked run.opened v hstart

/-- A session ends where its steps have led to. -/
theorem search_eq_arrived {run : Session ω Gene Fitness}
    (h : session p cfg steps changes w = .ok run) :
    run.search = arrived run.opened run.strides := by
  refine session_induction (I := fun past s => s = arrived run.opened past) ?_ h rfl
  intro past s w _
  rw [arrived_append_singleton]
  rfl

end EvolutionarySearch.Search
