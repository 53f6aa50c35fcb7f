import EvolutionarySearch.Proofs.Search.RoundRobin

/-!
# What a step makes of a slot

A visit decides one slot, that of the parent. It may write a second one, that of a donor with which
the parent could not be combined, and no other. Where there are several slots, or nothing is
combined, these two are never the same, and then the parent still sits in its slot when it meets the
child.

`Decision` lists what is left in the slot of a parent that has met a child. `Fate` lists what can
become of any slot in a step.

* `Verdict.frame`, `Verdict.settles` — a contest decides one slot and leaves all others alone
* `Turn.frame` — which slots a step of a full pool may change
* `Turn.fate` — what it makes of each
-/

namespace EvolutionarySearch.Search

variable {ω Gene Fitness : Type}

/-! ## Writing a slot -/

section Writing

variable {s : Search Gene Fitness} {c d parent : Chromosome Gene Fitness} {i slot : Nat}

theorem getElem?_settle_ne (h : i ≠ slot) : (s.settle slot d).pool[i]? = s.pool[i]? :=
  Array.getElem?_setIfInBounds_ne h.symm

theorem getElem?_settle_self (h : s.pool[slot]? = some c) :
    (s.settle slot d).pool[slot]? = some d := by
  obtain ⟨hlt, -⟩ := Array.getElem?_eq_some_iff.mp h
  show (s.pool.setIfInBounds slot d)[slot]? = some d
  rw [Array.getElem?_setIfInBounds_self, if_pos hlt]

theorem getElem?_grown_ne {kept : Bool} (h : i ≠ slot) :
    (s.grown slot parent kept).pool[i]? = s.pool[i]? := by
  unfold grown
  split
  · show (s.pool.modify slot _)[i]? = s.pool[i]?
    rw [Array.getElem?_modify, if_neg h.symm]
  · rfl

theorem getElem?_grown_self (h : s.pool[slot]? = some c) :
    (s.grown slot parent true).pool[slot]? = some { c with age := parent.age + 1 } := by
  show (s.pool.modify slot _)[slot]? = _
  rw [Array.getElem?_modify, if_pos rfl, h]
  rfl

theorem getElem?_refill_ne {offspring : Offspring Gene Fitness}
    (h : ∀ fresh, offspring.refill ≠ some (i, fresh)) :
    (s.refill offspring).pool[i]? = s.pool[i]? := by
  unfold refill
  split
  · rfl
  · next slot fresh hrefill =>
    refine getElem?_settle_ne ?_
    rintro rfl
    exact h fresh hrefill

theorem eq_of_refill {offspring : Offspring Gene Fitness} {fresh : Evaluation Gene Fitness}
    (hrefill : offspring.refill = some (i, fresh)) (hc : (s.refill offspring).pool[i]? = some c) :
    c = fresh.chromosome := by
  unfold refill at hc
  rw [hrefill] at hc
  change (s.pool.setIfInBounds i fresh.chromosome)[i]? = some c at hc
  rw [Array.getElem?_setIfInBounds_self] at hc
  split at hc
  · exact (Option.some.inj hc).symm
  · cases hc

end Writing

/-! ## Contests -/

section Contests

variable [Ord Fitness] [WordSource ω] {cfg : Config} {s : Search Gene Fitness}
  {parent child : Chromosome Gene Fitness} {slot : Nat} {w : ω}

/-- The lot is for a worse child. -/
def Records.Favours (r : Records Gene Fitness) (child : Chromosome Gene Fitness) (w : ω) : Prop :=
  (Random.unit w).1 < r.history.acceptance child.fitness

/-- What is left in the slot of a parent that has met a child. -/
inductive Decision (cfg : Config) (r : Records Gene Fitness)
    (parent child : Chromosome Gene Fitness) (w : ω) : Chromosome Gene Fitness → Prop where
  /-- The child is worse, and ages do not count. -/
  | dropped (hworse : compare child.fitness parent.fitness = .lt) (hage : cfg.maxAge = none) :
    Decision cfg r parent child w parent
  /-- The child is worse, and the parent is not old enough for a decision. -/
  | endured {maxAge : Nat} (hworse : compare child.fitness parent.fitness = .lt)
    (hage : cfg.maxAge = some maxAge) (hyoung : parent.age + 1 < maxAge) :
    Decision cfg r parent child w { parent with age := parent.age + 1 }
  /-- The child is worse and wins the lot. -/
  | accepted {maxAge : Nat} (hworse : compare child.fitness parent.fitness = .lt)
    (hage : cfg.maxAge = some maxAge) (hold : maxAge ≤ parent.age + 1)
    (hlot : r.Favours child w) :
    Decision cfg r parent child w child
  /-- The child is worse and loses the lot. -/
  | reinstated {maxAge : Nat} (hworse : compare child.fitness parent.fitness = .lt)
    (hage : cfg.maxAge = some maxAge) (hold : maxAge ≤ parent.age + 1)
    (hlot : ¬r.Favours child w) :
    Decision cfg r parent child w r.best.ageless
  /-- The child is as good as its parent. -/
  | equalled (hequal : compare child.fitness parent.fitness = .eq) :
    Decision cfg r parent child w { child with age := parent.age + 1 }
  /-- The child is better. -/
  | bettered (hbetter : child.Beats parent) : Decision cfg r parent child w child

theorem anneal_of_favours (h : s.records.Favours child w) :
    (s.anneal slot child w).1.pool = (s.settle slot child).pool := by
  have hlot : (Random.unit w).1 < s.history.acceptance child.fitness := h
  unfold anneal
  dsimp only
  rw [if_pos hlot]
  rfl

theorem anneal_of_not_favours (h : ¬s.records.Favours child w) :
    (s.anneal slot child w).1.pool = (s.settle slot s.best.ageless).pool := by
  have hlot : ¬(Random.unit w).1 < s.history.acceptance child.fitness := h
  unfold anneal
  dsimp only
  rw [if_neg hlot]
  rfl

theorem getElem?_anneal_ne {i : Nat} (h : i ≠ slot) :
    (s.anneal slot child w).1.pool[i]? = s.pool[i]? := by
  by_cases hlot : s.records.Favours child w
  · rw [anneal_of_favours hlot, getElem?_settle_ne h]
  · rw [anneal_of_not_favours hlot, getElem?_settle_ne h]

variable [Clock ω] {kept : Bool} {evaluated : List (Evaluation Gene Fitness)}
  {taken : Step ω Gene Fitness}

/-- A contest leaves all slots alone but its own. -/
theorem Verdict.frame (h : Verdict cfg s slot parent kept child w evaluated taken) {i : Nat}
    (hi : i ≠ slot) : taken.search.pool[i]? = s.pool[i]? := by
  cases h with
  | dropped hworse hage => rfl
  | endured hworse hage hyoung => exact getElem?_grown_ne hi
  | retired hworse hage hold => exact (getElem?_anneal_ne hi).trans (getElem?_grown_ne hi)
  | replaced hequal => exact getElem?_settle_ne hi
  | climbed hbetter hbest => exact getElem?_settle_ne hi
  | surpassed hbetter hbest =>
    rw [pool_promote]
    exact getElem?_settle_ne hi

/--
A contest decides its slot, whoever sits there. One that is not the parent is neither older nor
compared with the child, and is left when the child is worse than the parent.
-/
theorem Verdict.settles (h : Verdict cfg s slot parent kept child w evaluated taken)
    {occupant : Chromosome Gene Fitness} (hoccupant : s.pool[slot]? = some occupant)
    (hkept : kept = true → occupant = parent) :
    ∃ c, taken.search.pool[slot]? = some c ∧
      (Decision cfg s.records parent child w c ∨
        (kept = false ∧ compare child.fitness parent.fitness = .lt ∧ c = occupant)) := by
  cases h with
  | dropped hworse hage =>
    refine ⟨occupant, hoccupant, ?_⟩
    cases kept with
    | true =>
      cases hkept rfl
      exact .inl (.dropped hworse hage)
    | false => exact .inr ⟨rfl, hworse, rfl⟩
  | endured hworse hage hyoung =>
    cases kept with
    | true =>
      cases hkept rfl
      exact ⟨_, getElem?_grown_self hoccupant, .inl (.endured hworse hage hyoung)⟩
    | false => exact ⟨occupant, hoccupant, .inr ⟨rfl, hworse, rfl⟩⟩
  | retired hworse hage hold =>
    have hrecords : (s.grown slot parent kept).records = s.records := records_grown ..
    obtain ⟨d, hgrown⟩ : ∃ d, (s.grown slot parent kept).pool[slot]? = some d := by
      cases kept with
      | true => exact ⟨_, getElem?_grown_self hoccupant⟩
      | false => exact ⟨occupant, hoccupant⟩
    by_cases hlot : s.records.Favours child w
    · refine ⟨child, ?_, .inl (.accepted hworse hage hold hlot)⟩
      rw [proceed, anneal_of_favours (by rwa [hrecords])]
      exact getElem?_settle_self hgrown
    · refine ⟨s.best.ageless, ?_, .inl (.reinstated hworse hage hold hlot)⟩
      have hbest : (s.grown slot parent kept).best = s.best := congrArg Records.best hrecords
      rw [proceed, anneal_of_not_favours (by rwa [hrecords]), hbest]
      exact getElem?_settle_self hgrown
  | replaced hequal => exact ⟨_, getElem?_settle_self hoccupant, .inl (.equalled hequal)⟩
  | climbed hbetter hbest =>
    exact ⟨child, getElem?_settle_self hoccupant, .inl (.bettered hbetter)⟩
  | surpassed hbetter hbest =>
    refine ⟨child, ?_, .inl (.bettered hbetter)⟩
    rw [pool_promote]
    exact getElem?_settle_self hoccupant

/-- A contest decides the slot in which the parent still sits. -/
theorem Verdict.decision (h : Verdict cfg s slot parent true child w evaluated taken)
    (hparent : s.pool[slot]? = some parent) :
    ∃ c, taken.search.pool[slot]? = some c ∧ Decision cfg s.records parent child w c := by
  obtain ⟨c, hc, hdecision | ⟨hgone, -⟩⟩ := h.settles hparent fun _ => rfl
  · exact ⟨c, hc, hdecision⟩
  · cases hgone

end Contests

/-! ## Donors -/

section Donors

variable [WordSource ω] {p : Problem ω Gene Fitness} {cfg : Config} {s : Search Gene Fitness}
  {w : ω}

/-- The slot of the donor with which the next parent could not be combined. -/
def exhausted (p : Problem ω Gene Fitness) (s : Search Gene Fitness) (w : ω) : Option Nat :=
  match s.repertoire.draw w with
  | (.crossover, v) => if (crossing p s v).1.isNone then some (s.donor v) else none
  | _ => none

variable [Clock ω]

theorem Attempt.exhausted {bred : Breeding ω Gene Fitness} {offspring : Offspring Gene Fitness}
    {slot : Nat} {fresh : Evaluation Gene Fitness} (h : Attempt p cfg s w bred)
    (hbred : bred.outcome = .ok offspring) (hrefill : offspring.refill = some (slot, fresh)) :
    s.exhausted p w = some slot := by
  cases h with
  | refilled hdraw hcross hgen =>
    cases hbred
    cases hrefill
    simp [Search.exhausted, hdraw, hcross]
  | combined | created | mutated => cases hbred; cases hrefill
  | unmatched | uncreated => cases hbred

/-- There is another donor than the parent, or nothing is combined. -/
def Apart (p : Problem ω Gene Fitness) (cfg : Config) : Prop :=
  2 ≤ cfg.poolSize ∨ p.recombines = false

/-- The slot that is refilled is never that of the parent. -/
theorem Attempt.apart {bred : Breeding ω Gene Fitness} {offspring : Offspring Gene Fitness}
    {slot : Nat} {fresh : Evaluation Gene Fitness} (h : Attempt p cfg s w bred)
    (hbred : bred.outcome = .ok offspring) (hrefill : offspring.refill = some (slot, fresh))
    (hapart : Apart p cfg) (hfull : cfg.poolSize ≤ s.pool.size)
    (hs : s.repertoire.recombines = p.recombines) : 2 ≤ s.pool.size ∧ slot ≠ s.nextSlot := by
  obtain ⟨hrecombines, -, hne⟩ := h.refill hbred hrefill
  rcases hapart with hpool | hplain
  · have hsize : 2 ≤ s.pool.size := Nat.le_trans hpool hfull
    exact ⟨hsize, hne hsize⟩
  · rw [hs, hplain] at hrecombines
    cases hrecombines

/-- So the parent is still there when it meets the child. -/
theorem Attempt.keeps {bred : Breeding ω Gene Fitness} {offspring : Offspring Gene Fitness}
    (h : Attempt p cfg s w bred) (hbred : bred.outcome = .ok offspring) (hapart : Apart p cfg)
    (hfull : cfg.poolSize ≤ s.pool.size) (hs : s.repertoire.recombines = p.recombines) :
    s.keeps offspring = true := by
  unfold Search.keeps
  cases hrefill : offspring.refill with
  | none => simp
  | some refill =>
    obtain ⟨hsize, -⟩ := h.apart hbred hrefill hapart hfull hs
    have hmany : s.pool.size ≠ 1 := by omega
    simp [hmany]

end Donors

/-! ## Steps -/

section Steps

variable [WordSource ω] [Clock ω]

/-- The child that meets the parent in a slot, if a step visits the slot and breeds one. -/
def Stride.challenger (p : Problem ω Gene Fitness) (cfg : Config) (stride : Stride ω Gene Fitness)
    (slot : Nat) : Option (Chromosome Gene Fitness) :=
  if stride.visits cfg && stride.before.nextSlot == slot then
    (stride.before.brood p cfg stride.world).outcome.toOption.map (·.child.chromosome)
  else none

variable {p : Problem ω Gene Fitness} {cfg : Config} {s : Search Gene Fitness} {w : ω}
  {stride : Stride ω Gene Fitness} {taken : Step ω Gene Fitness} {slot : Nat}
  {child c : Chromosome Gene Fitness}

theorem challenger_eq_some (h : stride.challenger p cfg slot = some child) :
    stride.visits cfg = true ∧ stride.before.nextSlot = slot ∧
      ∃ offspring, (stride.before.brood p cfg stride.world).outcome = .ok offspring ∧
        child = offspring.child.chromosome := by
  unfold Stride.challenger at h
  split at h
  · next hvisit =>
    rw [Bool.and_eq_true, beq_iff_eq] at hvisit
    obtain ⟨offspring, hbred, rfl⟩ := Option.map_eq_some_iff.mp h
    refine ⟨hvisit.1, hvisit.2, offspring, ?_, rfl⟩
    cases houtcome : (stride.before.brood p cfg stride.world).outcome with
    | error error => simp [houtcome, Except.toOption] at hbred
    | ok other => simpa [houtcome, Except.toOption] using hbred
  · cases h

theorem challenger_of_bred {offspring : Offspring Gene Fitness} (hvisits : stride.visits cfg = true)
    (hbred : (stride.before.brood p cfg stride.world).outcome = .ok offspring) :
    stride.challenger p cfg stride.before.nextSlot = some offspring.child.chromosome := by
  simp [Stride.challenger, hvisits, hbred, Except.toOption]

theorem challenger_of_away (h : stride.visits cfg = true → stride.before.nextSlot ≠ slot) :
    stride.challenger p cfg slot = none := by
  cases hvisits : stride.visits cfg with
  | false => simp [Stride.challenger, hvisits]
  | true => simp [Stride.challenger, h hvisits]

variable [Ord Fitness]

/-- A step of a full pool writes the slot that it visits, or that of an exhausted donor. -/
theorem Turn.frame (h : Turn p cfg s w taken) (hfull : cfg.poolSize ≤ s.pool.size)
    (hslot : slot ≠ s.nextSlot) (hdonor : s.exhausted p w ≠ some slot) :
    taken.search.pool[slot]? = s.pool[slot]? := by
  cases h with
  | silent hphase => rfl
  | timedOut hphase hlate => rfl
  | announced hphase htime => rfl
  | barren hphase htime hfull hbred => rfl
  | unfilled hphase htime hroom hgen => exact absurd hroom (Nat.not_lt.mpr hfull)
  | filled hphase htime hroom hgen hbest => exact absurd hroom (Nat.not_lt.mpr hfull)
  | filledBest hphase htime hroom hgen hbest => exact absurd hroom (Nat.not_lt.mpr hfull)
  | visit hphase htime hfull hbred hverdict =>
    refine (hverdict.frame hslot).trans (getElem?_refill_ne ?_)
    intro fresh hrefill
    exact hdonor ((brood_attempt p cfg s w).exhausted hbred hrefill)

theorem Turn.size_of_full (h : Turn p cfg s w taken) (hfull : cfg.poolSize ≤ s.pool.size) :
    taken.search.pool.size = s.pool.size := by
  rcases h.cursor with ⟨-, -, hsize⟩ | ⟨-, -, hsize | ⟨hroom, -⟩⟩
  · exact hsize
  · exact hsize
  · exact absurd hroom (Nat.not_lt.mpr hfull)

/-- A visit for which a child is bred ends with a contest. -/
theorem Turn.verdict {offspring : Offspring Gene Fitness} (h : Turn p cfg s w taken)
    (hvisits : Stride.visits cfg ⟨s, w, taken⟩ = true)
    (hbred : (s.brood p cfg w).outcome = .ok offspring) :
    Verdict cfg ((s.moved (s.brood p cfg w).notes).refill offspring) s.nextSlot s.visited
      (s.keeps offspring) offspring.child.chromosome (s.brood p cfg w).world offspring.evaluated
      taken := by
  obtain ⟨hrunning, hearly, hfull⟩ := Stride.visits_iff.mp hvisits
  cases h with
  | silent hphase => cases hrunning.symm.trans hphase
  | timedOut hphase hlate => cases hearly.symm.trans hlate
  | announced hphase htime => cases hrunning.symm.trans hphase
  | unfilled hphase htime hroom hgen => exact absurd hroom (Nat.not_lt.mpr hfull)
  | filled hphase htime hroom hgen hbest => exact absurd hroom (Nat.not_lt.mpr hfull)
  | filledBest hphase htime hroom hgen hbest => exact absurd hroom (Nat.not_lt.mpr hfull)
  | barren hphase htime hfull hnone => cases hbred.symm.trans hnone
  | visit hphase htime hfull hother hverdict =>
    cases hbred.symm.trans hother
    exact hverdict

/-- The parent in a slot meets a child, and a chromosome is left in the slot. -/
structure Meeting (p : Problem ω Gene Fitness) (cfg : Config) (stride : Stride ω Gene Fitness)
    (slot : Nat) (child c : Chromosome Gene Fitness) : Prop where
  met : stride.challenger p cfg slot = some child
  new : child.age = 0
  parent : stride.before.pool[slot]? = some stride.before.visited
  unfilled : ∀ fresh, refilled p cfg stride.before stride.world ≠ some (slot, fresh)
  decision : Decision cfg stride.before.records stride.before.visited child
    (stride.before.brood p cfg stride.world).world c

/-- What becomes of a slot in a step: the chromosome that is left in it, and how it came there. -/
inductive Fate (p : Problem ω Gene Fitness) (cfg : Config) (stride : Stride ω Gene Fitness)
    (slot : Nat) : Chromosome Gene Fitness → Prop where
  /-- The step has to do with other slots, or with none. -/
  | spared {c : Chromosome Gene Fitness} (hsame : stride.before.pool[slot]? = some c)
    (haway : stride.visits cfg = true → stride.before.nextSlot ≠ slot)
    (hunfilled : ∀ fresh, refilled p cfg stride.before stride.world ≠ some (slot, fresh)) :
    Fate p cfg stride slot c
  /-- No child could be bred, and the search has ended. -/
  | barren {c : Chromosome Gene Fitness} (hsame : stride.before.pool[slot]? = some c)
    (hchildless : stride.challenger p cfg slot = none)
    (hunfilled : ∀ fresh, refilled p cfg stride.before stride.world ≠ some (slot, fresh))
    (hended : stride.taken.search.phase = .ended) :
    Fate p cfg stride slot c
  /-- The slot is new. -/
  | filled {c : Chromosome Gene Fitness} (hslot : slot = stride.before.pool.size)
    (hwider : stride.before.pool.size < stride.taken.search.pool.size) (hnew : c.age = 0) :
    Fate p cfg stride slot c
  /-- The slot is that of an exhausted donor. -/
  | refilled {fresh : Evaluation Gene Fitness}
    (hrefilled : refilled p cfg stride.before stride.world = some (slot, fresh))
    (hnew : fresh.chromosome.age = 0) :
    Fate p cfg stride slot fresh.chromosome
  /-- The slot is visited. -/
  | decided {child c : Chromosome Gene Fitness} (hmeeting : Meeting p cfg stride slot child c) :
    Fate p cfg stride slot c

omit [Ord Fitness] in
theorem refilled_of_unvisited (h : stride.visits cfg = false) :
    refilled p cfg stride.before stride.world = none := by
  refine if_neg fun hvisits => ?_
  rw [Stride.visits_iff.mpr hvisits] at h
  cases h

theorem Fate.of_unvisited (hidle : stride.visits cfg = false)
    (hsame : stride.before.pool[slot]? = some c) : Fate p cfg stride slot c := by
  refine .spared hsame (fun hvisits => ?_) fun fresh hrefilled => ?_
  · rw [hidle] at hvisits
    cases hvisits
  · rw [refilled_of_unvisited hidle] at hrefilled
    cases hrefilled

theorem Fate.of_widened (hroom : stride.before.pool.size < cfg.poolSize)
    {d : Chromosome Gene Fitness} (hpool : stride.taken.search.pool = stride.before.pool.push d)
    (hnew : d.age = 0) (hc : stride.taken.search.pool[slot]? = some c) :
    Fate p cfg stride slot c := by
  have hidle : stride.visits cfg = false := by simp [Stride.visits, Nat.not_le.mpr hroom]
  rcases slot_widened (s := stride.before) (hpool ▸ hc) with ⟨hslot, rfl⟩ | hsame
  · exact .filled hslot (by simp [hpool]) hnew
  · exact .of_unvisited hidle hsame

/-- Whatever slot is visited, it is decided. -/
theorem Turn.meeting {visits : Nat} (h : Turn p cfg s w taken) (hturn : InTurn cfg visits s)
    (hapart : Apart p cfg) (hs : s.repertoire.recombines = p.recombines)
    (hchild : Stride.challenger p cfg ⟨s, w, taken⟩ slot = some child) :
    ∃ c, taken.search.pool[slot]? = some c ∧ Meeting p cfg ⟨s, w, taken⟩ slot child c := by
  obtain ⟨hvisits, rfl, offspring, hbred, rfl⟩ := challenger_eq_some hchild
  obtain ⟨hphase, htime, hfull⟩ := Stride.visits_iff.mp hvisits
  have hattempt := brood_attempt p cfg s w
  have hkeeps := hattempt.keeps hbred hapart hfull hs
  have hparent : ((s.moved (s.brood p cfg w).notes).refill offspring).pool[s.nextSlot]?
      = some s.visited := (getElem?_refill_of_keeps hbred hkeeps).trans hturn.visited
  have hverdict := h.verdict hvisits hbred
  rw [hkeeps] at hverdict
  obtain ⟨c, hc, hdecision⟩ := hverdict.decision hparent
  rw [records_refill, records_moved] at hdecision
  refine ⟨c, hc, hchild, (hattempt.bred hbred).2.age, hturn.visited, ?_, hdecision⟩
  intro fresh hrefilled
  have hrefill := (refilled_of_visit hphase htime hfull hbred).symm.trans hrefilled
  exact (hattempt.apart hbred hrefill hapart hfull hs).2 rfl

/-- A slot that is not visited is refilled or spared. -/
theorem Turn.fate_of_ne (h : Turn p cfg s w taken)
    (hvisits : Stride.visits cfg ⟨s, w, taken⟩ = true) {offspring : Offspring Gene Fitness}
    (hbred : (s.brood p cfg w).outcome = .ok offspring) (hslot : slot ≠ s.nextSlot)
    (hc : taken.search.pool[slot]? = some c) : Fate p cfg ⟨s, w, taken⟩ slot c := by
  obtain ⟨hphase, htime, hfull⟩ := Stride.visits_iff.mp hvisits
  have hrefilled : refilled p cfg s w = offspring.refill :=
    refilled_of_visit hphase htime hfull hbred
  rw [(h.verdict hvisits hbred).frame hslot] at hc
  by_cases hrefill : ∃ fresh, offspring.refill = some (slot, fresh)
  · obtain ⟨fresh, hrefill⟩ := hrefill
    rw [eq_of_refill hrefill hc]
    refine .refilled (hrefilled.trans hrefill) ?_
    exact (((brood_attempt p cfg s w).bred hbred).1 slot fresh hrefill).age
  · have hunfilled : ∀ fresh, offspring.refill ≠ some (slot, fresh) :=
      fun fresh hfresh => hrefill ⟨fresh, hfresh⟩
    rw [getElem?_refill_ne hunfilled] at hc
    refine .spared hc (fun _ => Ne.symm hslot) fun fresh => ?_
    show refilled p cfg s w ≠ some (slot, fresh)
    rw [hrefilled]
    exact hunfilled fresh

theorem Turn.fate {visits : Nat} (h : Turn p cfg s w taken) (hturn : InTurn cfg visits s)
    (hapart : Apart p cfg) (hs : s.repertoire.recombines = p.recombines)
    (hc : taken.search.pool[slot]? = some c) : Fate p cfg ⟨s, w, taken⟩ slot c := by
  cases hchild : Stride.challenger p cfg ⟨s, w, taken⟩ slot with
  | some child =>
    obtain ⟨d, hd, hmeeting⟩ := h.meeting hturn hapart hs hchild
    cases hd.symm.trans hc
    exact .decided hmeeting
  | none =>
    cases h with
    | silent hphase => exact .of_unvisited (by simp [Stride.visits, Stride.searches, hphase]) hc
    | timedOut hphase hlate =>
      exact .of_unvisited (by simp [Stride.visits, Stride.searches, hlate]) hc
    | announced hphase htime =>
      exact .of_unvisited (by simp [Stride.visits, Stride.searches, hphase]) hc
    | unfilled hphase htime hroom hgen =>
      exact .of_unvisited (by simp [Stride.visits, Nat.not_le.mpr hroom]) hc
    | filled hphase htime hroom hgen hbest =>
      exact .of_widened hroom rfl (generate_bred hgen []).age hc
    | filledBest hphase htime hroom hgen hbest =>
      exact .of_widened hroom pool_promote (generate_bred hgen []).age hc
    | barren hphase htime hfull hbred =>
      refine .barren hc hchild ?_ rfl
      intro fresh hrefilled
      obtain ⟨offspring, hok, -⟩ := offspring_of_refilled hrefilled
      cases hbred.symm.trans hok
    | visit hphase htime hfull hbred hverdict =>
      have hvisits : Stride.visits cfg ⟨s, w, taken⟩ = true :=
        Stride.visits_iff.mpr ⟨hphase, htime, hfull⟩
      refine (Turn.visit hphase htime hfull hbred hverdict).fate_of_ne hvisits hbred ?_ hc
      rintro rfl
      cases hchild.symm.trans (challenger_of_bred hvisits hbred)

end Steps

end EvolutionarySearch.Search
