import EvolutionarySearch.Proofs.Search.Agelessness
import EvolutionarySearch.Proofs.Search.Slots

/-!
# The age of a slot

An age is kept with a chromosome, but it tells something about the slot: how often it was visited
since it was last reset. A slot is reset when it is filled, when it is refilled as that of a donor,
when a better child takes it, and when it is annealed, that is, when a worse child has met a parent
of the maximal age and one of the child and a copy of the best has taken the slot. An equal child
takes the slot as well, but then it is only older.

Without a maximal age a worse child does not even make its parent older.

* `SinceReset` — the steps since a slot was last reset
* `Fate.ages` — a step resets a slot, or adds to its age
* `ages_count_visits` — the ages along a search, and what they decide
-/

namespace EvolutionarySearch.Search

variable {ω Gene Fitness : Type} [Ord Fitness] [WordSource ω] [Clock ω]

/-! ## Visits to a slot -/

/-- How the child compares with the parent in a slot, if the two meet in a step. -/
def Stride.comparison (p : Problem ω Gene Fitness) (cfg : Config) (stride : Stride ω Gene Fitness)
    (slot : Nat) : Option Ordering :=
  (stride.challenger p cfg slot).map fun child =>
    compare child.fitness stride.before.visited.fitness

/-- The number of visits to a slot among steps. -/
def visitsTo (cfg : Config) (slot : Nat) (strides : List (Stride ω Gene Fitness)) : Nat :=
  strides.countP fun stride => stride.visits cfg && stride.before.nextSlot == slot

/-- The number of steps in which a child has met the parent in a slot, with a given result. -/
def meetings (p : Problem ω Gene Fitness) (cfg : Config) (slot : Nat) (result : Ordering)
    (strides : List (Stride ω Gene Fitness)) : Nat :=
  strides.countP fun stride => stride.comparison p cfg slot == some result

/-- The number of steps that add to the age of a slot. -/
def agings (p : Problem ω Gene Fitness) (cfg : Config) (slot : Nat)
    (strides : List (Stride ω Gene Fitness)) : Nat :=
  if cfg.maxAge.isSome then visitsTo cfg slot strides else meetings p cfg slot .eq strides

section Counting

variable {p : Problem ω Gene Fitness} {cfg : Config} {slot : Nat} {stride : Stride ω Gene Fitness}
  {child : Chromosome Gene Fitness}

theorem comparison_eq_some {result : Ordering}
    (h : stride.comparison p cfg slot = some result) :
    ∃ child, stride.challenger p cfg slot = some child ∧
      compare child.fitness stride.before.visited.fitness = result :=
  Option.map_eq_some_iff.mp h

theorem comparison_of_challenger (h : stride.challenger p cfg slot = some child) :
    stride.comparison p cfg slot
      = some (compare child.fitness stride.before.visited.fitness) := by
  rw [Stride.comparison, h]
  rfl

theorem comparison_of_childless (h : stride.challenger p cfg slot = none) :
    stride.comparison p cfg slot = none := by
  rw [Stride.comparison, h]
  rfl

/-- Children meet parents in visits only. -/
theorem meetings_le_visitsTo (p : Problem ω Gene Fitness) (cfg : Config) (slot : Nat)
    (result : Ordering) (strides : List (Stride ω Gene Fitness)) :
    meetings p cfg slot result strides ≤ visitsTo cfg slot strides := by
  refine List.countP_mono_left fun stride _ h => ?_
  obtain ⟨child, hchild, -⟩ := comparison_eq_some (beq_iff_eq.mp h)
  obtain ⟨hvisits, hslot, -⟩ := challenger_eq_some hchild
  rw [Bool.and_eq_true, beq_iff_eq]
  exact ⟨hvisits, hslot⟩

theorem meetings_append (result : Ordering) (strides more : List (Stride ω Gene Fitness)) :
    meetings p cfg slot result (strides ++ more)
      = meetings p cfg slot result strides + meetings p cfg slot result more :=
  List.countP_append

theorem agings_append (strides more : List (Stride ω Gene Fitness)) :
    agings p cfg slot (strides ++ more) = agings p cfg slot strides + agings p cfg slot more := by
  unfold agings
  split
  · exact List.countP_append
  · exact meetings_append .eq strides more

theorem meetings_singleton_of_ne {result : Ordering}
    (h : stride.comparison p cfg slot ≠ some result) :
    meetings p cfg slot result [stride] = 0 := by
  simp [meetings, h]

theorem agings_of_away (h : stride.visits cfg = true → stride.before.nextSlot ≠ slot) :
    agings p cfg slot [stride] = 0 := by
  have hvisits : visitsTo cfg slot [stride] = 0 := by
    cases hvisits : stride.visits cfg with
    | false => simp [visitsTo, hvisits]
    | true => simp [visitsTo, h hvisits]
  have hmeetings := meetings_le_visitsTo p cfg slot .eq [stride]
  unfold agings
  split <;> omega

omit [Ord Fitness] in
theorem visitsTo_of_challenger (h : stride.challenger p cfg slot = some child) :
    visitsTo cfg slot [stride] = 1 := by
  obtain ⟨hvisits, hslot, -⟩ := challenger_eq_some h
  simp [visitsTo, hvisits, hslot]

end Counting

/-! ## Resets -/

/-- After a worse child one of the child and a copy of the best sits in the slot, as new. -/
structure Stride.Anneals (p : Problem ω Gene Fitness) (cfg : Config)
    (stride : Stride ω Gene Fitness) (slot : Nat) : Prop where
  aging : cfg.maxAge.isSome = true
  worse : stride.comparison p cfg slot = some .lt
  left : ∃ c, stride.taken.search.pool[slot]? = some c ∧ c.age = 0 ∧
    (stride.challenger p cfg slot = some c ∨ c = stride.before.best.ageless)

/-- A slot is reset in a step. -/
inductive Stride.Resets (p : Problem ω Gene Fitness) (cfg : Config)
    (stride : Stride ω Gene Fitness) (slot : Nat) : Prop where
  /-- It is filled. -/
  | filled (hslot : slot = stride.before.pool.size)
    (hwider : stride.before.pool.size < stride.taken.search.pool.size)
  /-- It is that of a donor, and is refilled. -/
  | refilled {fresh : Evaluation Gene Fitness}
    (hrefilled : refilled p cfg stride.before stride.world = some (slot, fresh))
  /-- A better child takes it. -/
  | bettered (hbetter : stride.comparison p cfg slot = some .gt)
  | annealed (hanneals : stride.Anneals p cfg slot)

/-- The steps since a slot was last reset, or since the search was opened with it. -/
inductive SinceReset (p : Problem ω Gene Fitness) (cfg : Config) (slot : Nat) :
    List (Stride ω Gene Fitness) → List (Stride ω Gene Fitness) → Prop where
  | opened {past : List (Stride ω Gene Fitness)} (hslot : slot = 0)
    (hnone : ∀ stride ∈ past, ¬stride.Resets p cfg slot) : SinceReset p cfg slot past past
  | reset {earlier recent : List (Stride ω Gene Fitness)} {stride : Stride ω Gene Fitness}
    (hreset : stride.Resets p cfg slot) (hnone : ∀ later ∈ recent, ¬later.Resets p cfg slot) :
    SinceReset p cfg slot (earlier ++ stride :: recent) recent

section Resets

variable {p : Problem ω Gene Fitness} {cfg : Config} {slot : Nat} {stride : Stride ω Gene Fitness}
  {past recent recent' : List (Stride ω Gene Fitness)} {c d : Chromosome Gene Fitness}

theorem SinceReset.of_resets (h : stride.Resets p cfg slot) :
    SinceReset p cfg slot (past ++ [stride]) [] :=
  .reset h (by simp)

theorem SinceReset.append (h : SinceReset p cfg slot past recent)
    (hkept : ¬stride.Resets p cfg slot) :
    SinceReset p cfg slot (past ++ [stride]) (recent ++ [stride]) := by
  cases h with
  | opened hslot hnone => exact .opened hslot (forall_append_singleton hnone hkept)
  | reset hreset hnone =>
    rw [List.append_assoc, List.cons_append]
    exact .reset hreset (forall_append_singleton hnone hkept)

/-- A later reset would not leave the steps since an earlier one without resets. -/
theorem since_of_split {earlier earlier' : List (Stride ω Gene Fitness)}
    {first first' : Stride ω Gene Fitness}
    (hsplit : earlier ++ first :: recent = earlier' ++ first' :: recent')
    (hfirst : first.Resets p cfg slot) (hnone : ∀ later ∈ recent, ¬later.Resets p cfg slot)
    (hfirst' : first'.Resets p cfg slot)
    (hnone' : ∀ later ∈ recent', ¬later.Resets p cfg slot) : recent = recent' := by
  rcases List.append_eq_append_iff.mp hsplit with ⟨between, -, hrest⟩ | ⟨between, -, hrest⟩
  · cases between with
    | nil => exact (List.cons.inj hrest).2
    | cons other between =>
      obtain ⟨-, rfl⟩ := List.cons.inj hrest
      exact absurd hfirst' (hnone first' (by simp))
  · cases between with
    | nil => exact (List.cons.inj hrest).2.symm
    | cons other between =>
      obtain ⟨-, rfl⟩ := List.cons.inj hrest
      exact absurd hfirst (hnone' first (by simp))

/-- There is one last reset. -/
theorem SinceReset.unique (h : SinceReset p cfg slot past recent)
    (h' : SinceReset p cfg slot past recent') : recent = recent' := by
  generalize hpast : past = all at h'
  cases h with
  | opened hslot hnone =>
    cases h' with
    | opened hslot' hnone' => exact hpast
    | reset hreset hnone' => exact absurd hreset (hnone _ (by simp [hpast]))
  | reset hreset hnone =>
    cases h' with
    | opened hslot' hnone' => exact absurd hreset (hnone' _ (by simp [← hpast]))
    | reset hreset' hnone' => exact since_of_split hpast hreset hnone hreset' hnone'

theorem not_resets (hbefore : stride.before.pool[slot]? = some d)
    (hunfilled : ∀ fresh, refilled p cfg stride.before stride.world ≠ some (slot, fresh))
    (hbetter : stride.comparison p cfg slot ≠ some .gt) (hanneals : ¬stride.Anneals p cfg slot) :
    ¬stride.Resets p cfg slot := by
  intro hresets
  cases hresets with
  | filled hslot hwider =>
    rw [hslot, Array.getElem?_size] at hbefore
    cases hbefore
  | refilled hrefilled => exact hunfilled _ hrefilled
  | bettered hresult => exact hbetter hresult
  | annealed h => exact hanneals h

/-- Where no child has met the parent, only a new candidate resets the slot. -/
theorem not_resets_of_childless (hbefore : stride.before.pool[slot]? = some d)
    (hunfilled : ∀ fresh, refilled p cfg stride.before stride.world ≠ some (slot, fresh))
    (hchildless : stride.challenger p cfg slot = none) : ¬stride.Resets p cfg slot := by
  have hresult := comparison_of_childless hchildless
  refine not_resets hbefore hunfilled (fun hbetter => ?_) fun hanneals => ?_
  · cases hresult.symm.trans hbetter
  · cases hresult.symm.trans hanneals.worse

/-! ## Steps -/

/-- How a step changes the age of a slot. -/
inductive Ages (p : Problem ω Gene Fitness) (cfg : Config) (stride : Stride ω Gene Fitness)
    (slot : Nat) (c : Chromosome Gene Fitness) : Prop where
  | reset (hreset : stride.Resets p cfg slot) (hnew : c.age = 0)
  | older {d : Chromosome Gene Fitness} (hkept : ¬stride.Resets p cfg slot)
    (hbefore : stride.before.pool[slot]? = some d)
    (hage : c.age = d.age + agings p cfg slot [stride])
    (hyoung : stride.comparison p cfg slot = some .lt → ∀ maxAge, cfg.maxAge = some maxAge →
      c.age < maxAge)
  /-- No child could be bred, and the search has ended. -/
  | barren (hkept : ¬stride.Resets p cfg slot) (hbefore : stride.before.pool[slot]? = some c)
    (hchildless : stride.comparison p cfg slot = none)
    (hended : stride.taken.search.phase = .ended)

/-- A slot that has been annealed is as new. -/
theorem Stride.Anneals.age (h : stride.Anneals p cfg slot)
    (hc : stride.taken.search.pool[slot]? = some c) : c.age = 0 := by
  obtain ⟨left, hleft, hnew, -⟩ := h.left
  cases hleft.symm.trans hc
  exact hnew

theorem agings_of_aging (hage : cfg.maxAge.isSome = true)
    (strides : List (Stride ω Gene Fitness)) :
    agings p cfg slot strides = visitsTo cfg slot strides :=
  if_pos hage

theorem agings_of_ageless (hage : cfg.maxAge = none) (strides : List (Stride ω Gene Fitness)) :
    agings p cfg slot strides = meetings p cfg slot .eq strides :=
  if_neg (by simp [hage])

/-- Whether a worse child anneals a slot depends on the age of the parent. -/
theorem Meeting.worse {child : Chromosome Gene Fitness} {maxAge : Nat}
    (h : Meeting p cfg stride slot child c) (hc : stride.taken.search.pool[slot]? = some c)
    (hworse : stride.comparison p cfg slot = some .lt) (hage : cfg.maxAge = some maxAge) :
    (stride.Anneals p cfg slot ↔ maxAge ≤ stride.before.visited.age + 1) ∧
      (¬stride.Anneals p cfg slot →
        c = { stride.before.visited with age := stride.before.visited.age + 1 }) := by
  have haging : cfg.maxAge.isSome = true := by simp [hage]
  have hresult := Option.some.inj ((comparison_of_challenger h.met).symm.trans hworse)
  cases h.decision with
  | dropped hless hnone => cases hage.symm.trans hnone
  | @endured other hless hother hyoung =>
    cases hage.symm.trans hother
    -- the parent is older than as new by this very visit
    have hkept : ¬stride.Anneals p cfg slot := by
      intro hanneals
      cases hanneals.age hc
    refine ⟨?_, fun _ => rfl⟩
    constructor
    · intro hanneals
      exact absurd hanneals hkept
    · intro hold
      exact absurd hold (Nat.not_le.mpr hyoung)
  | @accepted other hless hother hold hlot =>
    cases hage.symm.trans hother
    have hanneals : stride.Anneals p cfg slot := ⟨haging, hworse, _, hc, h.new, .inl h.met⟩
    exact ⟨⟨fun _ => hold, fun _ => hanneals⟩, fun hkept => absurd hanneals hkept⟩
  | @reinstated other hless hother hold hlot =>
    cases hage.symm.trans hother
    have hanneals : stride.Anneals p cfg slot := ⟨haging, hworse, _, hc, rfl, .inr rfl⟩
    exact ⟨⟨fun _ => hold, fun _ => hanneals⟩, fun hkept => absurd hanneals hkept⟩
  | equalled hequal => cases hresult.symm.trans hequal
  | bettered hbetter => cases hresult.symm.trans hbetter

theorem Meeting.ages {child : Chromosome Gene Fitness} (h : Meeting p cfg stride slot child c)
    (hc : stride.taken.search.pool[slot]? = some c) : Ages p cfg stride slot c := by
  have hresult := comparison_of_challenger h.met
  have hvisit := visitsTo_of_challenger h.met
  cases h.decision with
  | dropped hworse hage =>
    rw [hworse] at hresult
    refine .older (not_resets h.parent h.unfilled ?_ ?_) h.parent ?_ ?_
    · simp [hresult]
    · intro hanneals
      simpa [hage] using hanneals.aging
    · rw [agings_of_ageless hage, meetings_singleton_of_ne (by simp [hresult]), Nat.add_zero]
    · intro _ maxAge hsome
      cases hage.symm.trans hsome
  | @endured maxAge hworse hage hyoung =>
    rw [hworse] at hresult
    refine .older (not_resets h.parent h.unfilled ?_ ?_) h.parent ?_ ?_
    · simp [hresult]
    · intro hanneals
      cases hanneals.age hc
    · rw [agings_of_aging (by simp [hage]), hvisit]
    · intro _ other hother
      cases hage.symm.trans hother
      exact hyoung
  | accepted hworse hage hold hlot =>
    rw [hworse] at hresult
    exact .reset (.annealed ((h.worse hc hresult hage).1.mpr hold)) h.new
  | reinstated hworse hage hold hlot =>
    rw [hworse] at hresult
    exact .reset (.annealed ((h.worse hc hresult hage).1.mpr hold)) rfl
  | equalled hequal =>
    rw [hequal] at hresult
    refine .older (not_resets h.parent h.unfilled ?_ ?_) h.parent ?_ ?_
    · simp [hresult]
    · intro hanneals
      cases hanneals.age hc
    · have hmeeting : meetings p cfg slot .eq [stride] = 1 := by simp [meetings, hresult]
      unfold agings
      split
      · rw [hvisit]
      · rw [hmeeting]
    · simp [hresult]
  | bettered hbetter =>
    exact .reset (.bettered (hresult.trans (congrArg some hbetter))) h.new

theorem Fate.ages (h : Fate p cfg stride slot c)
    (hc : stride.taken.search.pool[slot]? = some c) : Ages p cfg stride slot c := by
  cases h with
  | spared hsame haway hunfilled =>
    have hchildless := challenger_of_away (p := p) haway
    refine .older (not_resets_of_childless hsame hunfilled hchildless) hsame ?_ ?_
    · rw [agings_of_away haway, Nat.add_zero]
    · intro hworse
      cases (comparison_of_childless hchildless).symm.trans hworse
  | barren hsame hchildless hunfilled hended =>
    exact .barren (not_resets_of_childless hsame hunfilled hchildless) hsame
      (comparison_of_childless hchildless) hended
  | filled hslot hwider hnew => exact .reset (.filled hslot hwider) hnew
  | refilled hrefilled hnew => exact .reset (.refilled hrefilled) hnew
  | decided hmeeting => exact hmeeting.ages hc

end Resets

/-! ## Tenures -/

/-- The steps since a slot was last reset account for its age, up to the end of the search. -/
structure Tenure (p : Problem ω Gene Fitness) (cfg : Config) (slot : Nat)
    (past : List (Stride ω Gene Fitness)) (phase : Phase) (c : Chromosome Gene Fitness)
    (recent : List (Stride ω Gene Fitness)) : Prop where
  since : SinceReset p cfg slot past recent
  age : phase ≠ .ended → c.age = agings p cfg slot recent
  dropped : ∀ maxAge, cfg.maxAge = some maxAge →
    meetings p cfg slot .lt recent ≤ max maxAge 1 - 1

section Tenures

variable {p : Problem ω Gene Fitness} {cfg : Config} {slot : Nat} {s : Search Gene Fitness} {w : ω}
  {stride : Stride ω Gene Fitness} {past recent : List (Stride ω Gene Fitness)}
  {c d : Chromosome Gene Fitness}

theorem Tenure.of_resets (hreset : stride.Resets p cfg slot) (hnew : c.age = 0) (phase : Phase) :
    Tenure p cfg slot (past ++ [stride]) phase c [] where
  since := .of_resets hreset
  age _ := by
    rw [hnew]
    simp [agings, visitsTo, meetings]
  dropped _ _ := Nat.zero_le _

/-- Every worse child that is dropped leaves the slot older, and it has to stay young. -/
theorem Tenure.append (h : Tenure p cfg slot past stride.before.phase d recent)
    (hended : stride.before.phase = .ended → stride.taken.search.phase = .ended)
    (hkept : ¬stride.Resets p cfg slot) (hage : c.age = d.age + agings p cfg slot [stride])
    (hyoung : stride.comparison p cfg slot = some .lt → ∀ maxAge, cfg.maxAge = some maxAge →
      c.age < maxAge) :
    Tenure p cfg slot (past ++ [stride]) stride.taken.search.phase c (recent ++ [stride]) where
  since := h.since.append hkept
  age hopen := by
    rw [agings_append, hage, h.age fun hclosed => hopen (hended hclosed)]
  dropped maxAge hsome := by
    by_cases hworse : stride.comparison p cfg slot = some .lt
    · obtain ⟨child, hchild, -⟩ := comparison_eq_some hworse
      obtain ⟨hrunning, -, -⟩ := Stride.visits_iff.mp (challenger_eq_some hchild).1
      have hlt := hyoung hworse maxAge hsome
      -- the dropped children are among the visits, and these make up the age
      have hvisits : c.age = visitsTo cfg slot (recent ++ [stride]) := by
        rw [← agings_of_aging (p := p) (by simp [hsome]), agings_append, hage,
          h.age (by simp [hrunning])]
      have hle := meetings_le_visitsTo p cfg slot .lt (recent ++ [stride])
      omega
    · rw [meetings_append, meetings_singleton_of_ne hworse, Nat.add_zero]
      exact h.dropped maxAge hsome

theorem Tenure.barren (h : Tenure p cfg slot past stride.before.phase c recent)
    (hkept : ¬stride.Resets p cfg slot) (hchildless : stride.comparison p cfg slot = none)
    (hended : stride.taken.search.phase = .ended) :
    Tenure p cfg slot (past ++ [stride]) stride.taken.search.phase c (recent ++ [stride]) where
  since := h.since.append hkept
  age hopen := absurd hended hopen
  dropped maxAge hsome := by
    rw [meetings_append, meetings_singleton_of_ne (by simp [hchildless]), Nat.add_zero]
    exact h.dropped maxAge hsome

theorem Ages.tenure (h : Ages p cfg stride slot c)
    (hended : stride.before.phase = .ended → stride.taken.search.phase = .ended)
    (hpast : ∀ d, stride.before.pool[slot]? = some d →
      ∃ recent, Tenure p cfg slot past stride.before.phase d recent) :
    ∃ recent, Tenure p cfg slot (past ++ [stride]) stride.taken.search.phase c recent := by
  cases h with
  | reset hreset hnew => exact ⟨[], .of_resets hreset hnew _⟩
  | older hkept hbefore hage hyoung =>
    obtain ⟨recent, htenure⟩ := hpast _ hbefore
    exact ⟨recent ++ [stride], htenure.append hended hkept hage hyoung⟩
  | barren hkept hbefore hchildless hclosed =>
    obtain ⟨recent, htenure⟩ := hpast _ hbefore
    exact ⟨recent ++ [stride], htenure.barren hkept hchildless hclosed⟩

/-- A search whose slots are visited in turn, and the tenures of its chromosomes. -/
structure Accounted (p : Problem ω Gene Fitness) (cfg : Config)
    (past : List (Stride ω Gene Fitness)) (s : Search Gene Fitness) : Prop where
  turn : InTurn cfg (visitsOf cfg past) s
  recombines : s.repertoire.recombines = p.recombines
  tenure : ∀ slot c, s.pool[slot]? = some c → ∃ recent, Tenure p cfg slot past s.phase c recent

theorem Accounted.step (h : Accounted p cfg past s) (hapart : Apart p cfg) (w : ω) :
    Accounted p cfg (past ++ [Search.stride p cfg s w]) (step p cfg s w).search where
  turn := h.turn.step_append p w
  recombines := (step_turn p cfg s w).entry.recombines.trans h.recombines
  tenure slot c hc := by
    have hfate := (step_turn p cfg s w).fate h.turn hapart h.recombines hc
    refine (hfate.ages hc).tenure (fun hended => ?_) (h.tenure slot)
    show (Search.step p cfg s w).search.phase = .ended
    have hphase : s.phase = .ended := hended
    simp only [Search.step, hphase]

theorem accounted_opened {v : ω} (hstart : start p cfg w = (.ok s, v)) :
    Accounted p cfg ([] : List (Stride ω Gene Fitness)) s where
  turn := inTurn_opened hstart
  recombines := by
    obtain ⟨-, first, -, rfl⟩ := start_eq_ok hstart
    rfl
  tenure slot c hc := by
    obtain ⟨-, first, hgen, rfl⟩ := start_eq_ok hstart
    obtain ⟨hslot, rfl⟩ := slot_opening hc
    refine ⟨[], .opened hslot (by simp), fun _ => ?_, fun _ _ => Nat.zero_le _⟩
    rw [(generate_bred (w := w) (by rw [hgen]) []).age]
    simp [agings, visitsTo, meetings]

/-- A worse child anneals the slot of its parent if this visit is one of so many since the reset. -/
theorem Accounted.worse (h : Accounted p cfg past s) (hapart : Apart p cfg) {maxAge : Nat}
    (hage : cfg.maxAge = some maxAge) (w : ω)
    (hworse : (Search.stride p cfg s w).comparison p cfg slot = some .lt) :
    ∃ recent, SinceReset p cfg slot past recent ∧
      ((Search.stride p cfg s w).Anneals p cfg slot ↔
        maxAge ≤ visitsTo cfg slot (recent ++ [Search.stride p cfg s w])) ∧
      (¬(Search.stride p cfg s w).Anneals p cfg slot → ∃ parent, s.pool[slot]? = some parent ∧
        (Search.step p cfg s w).search.pool[slot]?
          = some { parent with age := parent.age + 1 }) := by
  obtain ⟨child, hchild, -⟩ := comparison_eq_some hworse
  obtain ⟨hrunning, -, -⟩ := Stride.visits_iff.mp (challenger_eq_some hchild).1
  obtain ⟨c, hc, hmeeting⟩ := (step_turn p cfg s w).meeting h.turn hapart h.recombines hchild
  obtain ⟨recent, htenure⟩ := h.tenure slot _ hmeeting.parent
  obtain ⟨hanneals, hkept⟩ := hmeeting.worse hc hworse hage
  have hvisits : visitsTo cfg slot (recent ++ [Search.stride p cfg s w]) = s.visited.age + 1 := by
    have hphase : s.phase = .running := hrunning
    rw [htenure.age (by simp [hphase]), agings_of_aging (by simp [hage]),
      ← visitsTo_of_challenger hchild]
    exact List.countP_append
  refine ⟨recent, htenure.since, ?_, ?_⟩
  · rw [hvisits]
    exact hanneals
  · intro hspared
    exact ⟨_, hmeeting.parent, hc.trans (congrArg some (hkept hspared))⟩

/-- An equal child takes the slot, which is only older then. -/
theorem Accounted.equal (h : Accounted p cfg past s) (hapart : Apart p cfg) (w : ω)
    {child : Chromosome Gene Fitness}
    (hchild : (Search.stride p cfg s w).challenger p cfg slot = some child)
    (hequal : compare child.fitness s.visited.fitness = .eq) :
    ¬(Search.stride p cfg s w).Resets p cfg slot ∧
      (Search.step p cfg s w).search.pool[slot]?
        = some { child with age := s.visited.age + 1 } := by
  obtain ⟨c, hc, hmeeting⟩ := (step_turn p cfg s w).meeting h.turn hapart h.recombines hchild
  have hages := hmeeting.ages hc
  cases hmeeting.decision with
  | equalled _ =>
    refine ⟨?_, hc⟩
    cases hages with
    | reset hreset hnew => cases hnew
    | older hkept hbefore hage hyoung => exact hkept
    | barren hkept hbefore hchildless hended => exact hkept
  | dropped hworse | endured hworse | accepted hworse | reinstated hworse =>
    cases hworse.symm.trans hequal
  | bettered hbetter => cases hequal.symm.trans hbetter

/-- Without a maximal age a worse child leaves the slot as it is. -/
theorem Accounted.unmoved (h : Accounted p cfg past s) (hapart : Apart p cfg)
    (hage : cfg.maxAge = none) (w : ω)
    (hworse : (Search.stride p cfg s w).comparison p cfg slot = some .lt) :
    (Search.step p cfg s w).search.pool[slot]? = s.pool[slot]? := by
  obtain ⟨child, hchild, hlt⟩ := comparison_eq_some hworse
  obtain ⟨c, hc, hmeeting⟩ := (step_turn p cfg s w).meeting h.turn hapart h.recombines hchild
  cases hmeeting.decision with
  | dropped hless hnone => exact hc.trans hmeeting.parent.symm
  | endured _ hsome | accepted _ hsome | reinstated _ hsome => cases hage.symm.trans hsome
  | equalled hequal => cases hlt.symm.trans hequal
  | bettered hbetter => cases hlt.symm.trans hbetter

end Tenures

/-! ## Maximal ages that make no difference -/

section Identical

variable {p : Problem ω Gene Fitness} {cfg cfg' : Config}

/-- After a visit no parent is younger than one, so it is all the same to ask for less. -/
theorem contest_aging_zero (cfg : Config) (s : Search Gene Fitness) (slot : Nat)
    (parent : Chromosome Gene Fitness) (kept : Bool) (child : Chromosome Gene Fitness) (w : ω)
    (evaluated : List (Evaluation Gene Fitness)) :
    contest (cfg.aging (some 0)) s slot parent kept child w evaluated
      = contest (cfg.aging (some 1)) s slot parent kept child w evaluated := by
  have hzero : ¬parent.age + 1 < 0 := Nat.not_lt_zero _
  have hone : ¬parent.age + 1 < 1 := Nat.not_lt.mpr (Nat.le_add_left 1 _)
  unfold contest
  cases compare child.fitness parent.fitness with
  | lt =>
    dsimp only [Config.aging]
    rw [if_neg hzero, if_neg hone]
  | eq => rfl
  | gt => rfl

theorem step_aging_zero (p : Problem ω Gene Fitness) (cfg : Config) (s : Search Gene Fitness)
    (w : ω) : step p (cfg.aging (some 0)) s w = step p (cfg.aging (some 1)) s w := by
  have hvisit : visit p (cfg.aging (some 0)) s w = visit p (cfg.aging (some 1)) s w := by
    have hbrood : s.brood p (cfg.aging (some 0)) w = s.brood p (cfg.aging (some 1)) w := rfl
    rw [visit_eq, visit_eq, hbrood]
    cases (s.brood p (cfg.aging (some 1)) w).outcome with
    | error error => rfl
    | ok offspring => exact contest_aging_zero ..
  unfold step
  rw [hvisit]
  rfl

variable (hstep : ∀ s w, step p cfg s w = step p cfg' s w)

include hstep

theorem walk_of_step (changes : List (ω → ω)) (s : Search Gene Fitness) (w : ω) :
    walk p cfg changes s w = walk p cfg' changes s w := by
  induction changes generalizing s w with
  | nil => rfl
  | cons change changes ih => simp only [walk, stride, hstep, ih]

theorem next_of_step (steps : Nat) (s : Search Gene Fitness) (w : ω) :
    next p cfg steps s w = next p cfg' steps s w := by
  induction steps generalizing s w with
  | zero => rfl
  | succ steps ih => simp only [next, hstep, ih]

theorem strides_of_step (steps : Nat) (s : Search Gene Fitness) (w : ω) :
    strides p cfg steps s w = strides p cfg' steps s w := by
  induction steps generalizing s w with
  | zero => rfl
  | succ steps ih => simp only [strides, stride, hstep, ih]

theorem legs_of_step (steps : Nat) (changes : List (ω → ω)) (s : Search Gene Fitness) (w : ω) :
    legs p cfg steps changes s w = legs p cfg' steps changes s w := by
  induction changes generalizing s w with
  | nil => rfl
  | cons change changes ih =>
    simp only [legs, next_of_step hstep, strides_of_step hstep, ih]

theorem pursue_of_step (steps pulls : Nat) (s : Search Gene Fitness) (reached : Array Fitness)
    (w : ω) : pursue p cfg steps pulls s reached w = pursue p cfg' steps pulls s reached w := by
  induction pulls generalizing s reached w with
  | zero => rfl
  | succ pulls ih => simp only [pursue, next_of_step hstep, ih]

end Identical

/-! ## Searches -/

/-- What the ages of a search with a maximal age are, and what they decide. -/
structure AgesByVisits (p : Problem ω Gene Fitness) (cfg : Config) (maxAge : Nat)
    (opened : Search Gene Fitness) (strides : List (Stride ω Gene Fitness)) : Prop where
  /-- The age of a slot is the number of visits to it since its last reset. -/
  age : ∀ i, (arrived opened (strides.take i)).phase = .running → ∀ slot c,
    (arrived opened (strides.take i)).pool[slot]? = some c →
      ∃ recent, SinceReset p cfg slot (strides.take i) recent ∧ c.age = visitsTo cfg slot recent
  /-- Whether a worse child anneals a slot depends on the visits since the last reset, with this. -/
  worse : ∀ earlier stride later slot, strides = earlier ++ stride :: later →
    stride.comparison p cfg slot = some .lt →
      ∃ recent, SinceReset p cfg slot earlier recent ∧
        (stride.Anneals p cfg slot ↔ maxAge ≤ visitsTo cfg slot (recent ++ [stride])) ∧
        (¬stride.Anneals p cfg slot → ∃ parent, stride.before.pool[slot]? = some parent ∧
          stride.taken.search.pool[slot]? = some { parent with age := parent.age + 1 })
  /-- Between two resets of a slot few worse children are dropped. -/
  dropped : ∀ i slot c, (arrived opened (strides.take i)).pool[slot]? = some c →
    ∀ recent, SinceReset p cfg slot (strides.take i) recent →
      meetings p cfg slot .lt recent ≤ max maxAge 1 - 1

/-- What the ages of a search without a maximal age are. -/
structure AgesByEquals (p : Problem ω Gene Fitness) (cfg : Config)
    (opened : Search Gene Fitness) (strides : List (Stride ω Gene Fitness)) : Prop where
  /-- The age of a slot is the number of equal children that have taken it since its last reset. -/
  age : ∀ i, (arrived opened (strides.take i)).phase = .running → ∀ slot c,
    (arrived opened (strides.take i)).pool[slot]? = some c →
      ∃ recent, SinceReset p cfg slot (strides.take i) recent ∧
        c.age = meetings p cfg slot .eq recent
  /-- A worse child changes nothing. -/
  worse : ∀ stride ∈ strides, ∀ slot, stride.comparison p cfg slot = some .lt →
    stride.taken.search.pool[slot]? = stride.before.pool[slot]?

/-- What is to be said of the ages of a search that has taken steps from a first one on. -/
structure SlotAges (p : Problem ω Gene Fitness) (cfg : Config) (opened : Search Gene Fitness)
    (strides : List (Stride ω Gene Fitness)) : Prop where
  byVisits : ∀ maxAge, cfg.maxAge = some maxAge → AgesByVisits p cfg maxAge opened strides
  byEquals : cfg.maxAge = none → AgesByEquals p cfg opened strides
  /-- An equal child takes the slot and makes it older, but never resets it. -/
  equal : ∀ stride ∈ strides, ∀ slot child, stride.challenger p cfg slot = some child →
    compare child.fitness stride.before.visited.fitness = .eq →
      ¬stride.Resets p cfg slot ∧ stride.taken.search.pool[slot]?
        = some { child with age := stride.before.visited.age + 1 }

section Searches

variable {p : Problem ω Gene Fitness} {cfg : Config} {s : Search Gene Fitness} {w v : ω}
  {changes : List (ω → ω)}

theorem accounted_of_walk (hapart : Apart p cfg) (hstart : start p cfg w = (.ok s, v)) (i : Nat) :
    Accounted p cfg ((walk p cfg changes s v).take i)
      (arrived s ((walk p cfg changes s v).take i)) :=
  walk_arrives (fun _ _ u h => h.step hapart u) (accounted_opened hstart) i

/-- Every step of a walk is taken by a search whose ages are accounted for. -/
theorem accounted_of_split (hapart : Apart p cfg) (hstart : start p cfg w = (.ok s, v))
    {earlier later : List (Stride ω Gene Fitness)} {taken : Stride ω Gene Fitness}
    (h : walk p cfg changes s v = earlier ++ taken :: later) :
    ∃ t u, Accounted p cfg earlier t ∧ taken = stride p cfg t u :=
  walk_split (fun _ _ u ht => ht.step hapart u) (accounted_opened hstart) h

theorem slotAges_of_walk (hapart : Apart p cfg) (hstart : start p cfg w = (.ok s, v)) :
    SlotAges p cfg s (walk p cfg changes s v) where
  byVisits maxAge hage :=
    { age := by
        intro i hrunning slot c hc
        obtain ⟨recent, htenure⟩ := (accounted_of_walk hapart hstart i).tenure slot c hc
        refine ⟨recent, htenure.since, ?_⟩
        rw [htenure.age (by simp [hrunning]), agings_of_aging (by simp [hage])]
      worse := by
        intro earlier stride later slot hsplit hworse
        obtain ⟨t, u, haccounted, rfl⟩ := accounted_of_split hapart hstart hsplit
        exact haccounted.worse hapart hage u hworse
      dropped := by
        intro i slot c hc recent hsince
        obtain ⟨other, htenure⟩ := (accounted_of_walk hapart hstart i).tenure slot c hc
        rw [hsince.unique htenure.since]
        exact htenure.dropped maxAge hage }
  byEquals hage :=
    { age := by
        intro i hrunning slot c hc
        obtain ⟨recent, htenure⟩ := (accounted_of_walk hapart hstart i).tenure slot c hc
        refine ⟨recent, htenure.since, ?_⟩
        rw [htenure.age (by simp [hrunning]), agings_of_ageless hage]
      worse := by
        intro stride hstride slot hworse
        obtain ⟨earlier, later, hsplit⟩ := List.append_of_mem hstride
        obtain ⟨t, u, haccounted, rfl⟩ := accounted_of_split hapart hstart hsplit
        exact haccounted.unmoved hapart hage u hworse }
  equal := by
    intro stride hstride slot child hchild hequal
    obtain ⟨earlier, later, hsplit⟩ := List.append_of_mem hstride
    obtain ⟨t, u, haccounted, rfl⟩ := accounted_of_split hapart hstart hsplit
    exact haccounted.equal hapart u hchild hequal

end Searches

/--
**The age of a slot counts its visits.** A search is started, with at least two slots or for a
problem that does not recombine, and takes any number of steps with any changes of the world between
them, or it is pulled for answers. A slot is reset when it is filled or refilled, when a better child
takes it, and when it is annealed by a worse one.

With a maximal age the age of a slot is, as long as the search goes on, the number of visits to it
since its last reset. A worse child anneals the slot if and only if, this visit included, there have
been as many visits since then as the maximal age; otherwise the parent stays, one visit older. So
between two resets of a slot fewer worse children are dropped than the maximal age, if that is not
zero, and none if it is. An equal child adds to the age but does not reset the slot.

Without a maximal age the age of a slot is the number of equal children that have taken it since its
last reset, and a worse child leaves the slot as it is. A maximal age of zero is the same as one.
-/
theorem ages_count_visits (p : Problem ω Gene Fitness) (cfg : Config)
    (hapart : 2 ≤ cfg.poolSize ∨ p.recombines = false) :
    (∀ changes w s v, start p cfg w = (.ok s, v) → SlotAges p cfg s (walk p cfg changes s v)) ∧
    (∀ steps changes w run, session p cfg steps changes w = .ok run →
      SlotAges p cfg run.opened run.strides) ∧
    (∀ changes s w,
      walk p (cfg.aging (some 0)) changes s w = walk p (cfg.aging (some 1)) changes s w) ∧
    (∀ steps changes w, session p (cfg.aging (some 0)) steps changes w
      = session p (cfg.aging (some 1)) steps changes w) ∧
    ∀ steps w, run p (cfg.aging (some 0)) steps w = run p (cfg.aging (some 1)) steps w := by
  have hstep := step_aging_zero p cfg
  have hstart : ∀ w, start p (cfg.aging (some 0)) w = start p (cfg.aging (some 1)) w :=
    fun _ => rfl
  refine ⟨fun changes w s v hstart => slotAges_of_walk hapart hstart, ?_, walk_of_step hstep, ?_, ?_⟩
  · intro steps changes w run h
    exact session_of_walk (Q := SlotAges p cfg)
      (fun _ _ _ hstart => slotAges_of_walk hapart hstart) h
  · intro steps changes w
    unfold session
    simp only [hstart, legs_of_step hstep]
  · intro steps w
    unfold run
    simp only [hstart, pursue_of_step hstep]

/-- A script of four visits: an equal child, a worse one, a worse one with a refill, an equal one. -/
def fourVisits : World Random.Cycle Script :=
  ⟨⟨[0, 0, 0x80000000, 0x80000000], []⟩,
    { tick := 1, candidates := [[5], [4], [5]], children := [[5], [3], [4], [5]] }⟩

/-- The lowest slot was visited twice since it was filled, the other one once since its refill. -/
theorem ages_count_visits_fourVisits :
    ∃ run run', session (scripted true) { poolSize := 2, maxAge := some 3, timeLimit := some 6 } 6
        [id, id] fourVisits = .ok run ∧
      session (scripted true) { poolSize := 2, timeLimit := some 6 } 6 [id, id] fourVisits
        = .ok run' ∧
      run.search.pool = #[⟨[5], 5, .mutate, 2⟩, ⟨[5], 5, .mutate, 1⟩] ∧
      run'.search.pool = #[⟨[5], 5, .mutate, 1⟩, ⟨[5], 5, .mutate, 1⟩] ∧
      SlotAges (scripted true) { poolSize := 2, maxAge := some 3, timeLimit := some 6 } run.opened
        run.strides ∧
      SlotAges (scripted true) { poolSize := 2, timeLimit := some 6 } run'.opened run'.strides := by
  have h : session (scripted true) { poolSize := 2, maxAge := some 3, timeLimit := some 6 } 6
      [id, id] fourVisits = .ok _ := rfl
  have h' : session (scripted true) { poolSize := 2, timeLimit := some 6 } 6 [id, id] fourVisits
      = .ok _ := rfl
  have hpool : 2 ≤ 2 ∨ true = false := .inl (by decide)
  exact ⟨_, _, h, h', rfl, rfl,
    (ages_count_visits _ _ hpool).2.1 6 [id, id] fourVisits _ h,
    (ages_count_visits _ _ hpool).2.1 6 [id, id] fourVisits _ h'⟩

end EvolutionarySearch.Search
