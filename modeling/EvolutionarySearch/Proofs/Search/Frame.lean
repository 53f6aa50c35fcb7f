import EvolutionarySearch.Proofs.Search.Bound
import EvolutionarySearch.Proofs.Search.Slots

/-!
# Slots that keep their fitness

A step writes two slots at most, and without recombination only the one that it visits. What it
leaves there is worse than what was there for one reason only: a worse child has won the lot. A copy
of the best is not, since the best is the best of the pool. So without a maximal age no slot ever
gets worse.

* `Fate.accepts` — a slot falls by a worse child that wins the lot
* `slots_framed` — which slots a step writes, and which of them fall
-/

namespace EvolutionarySearch.Search

variable {ω Gene Fitness : Type}

/-! ## Steps -/

/-- A step of a full pool leaves it as large as it is, and writes two slots at most. -/
structure Stride.Framed [WordSource ω] (p : Problem ω Gene Fitness) (cfg : Config)
    (stride : Stride ω Gene Fitness) : Prop where
  size : cfg.poolSize ≤ stride.before.pool.size →
    stride.taken.search.pool.size = stride.before.pool.size
  /-- What is written is the slot that is visited, or that of an exhausted donor. -/
  slots : cfg.poolSize ≤ stride.before.pool.size → ∀ slot,
    stride.taken.search.pool[slot]? ≠ stride.before.pool[slot]? →
      slot = stride.before.nextSlot ∨ stride.before.exhausted p stride.world = some slot

variable [Ord Fitness] [WordSource ω] [Clock ω]

/-- A worse child wins the slot of its parent by lot. -/
structure Stride.Accepts (p : Problem ω Gene Fitness) (cfg : Config)
    (stride : Stride ω Gene Fitness) (slot : Nat) (child : Chromosome Gene Fitness) : Prop where
  met : stride.challenger p cfg slot = some child
  worse : compare child.fitness stride.before.visited.fitness = .lt
  /-- The parent has come of age. -/
  due : ∃ maxAge, cfg.maxAge = some maxAge ∧ maxAge ≤ stride.before.visited.age + 1
  favoured : stride.before.records.Favours child
    (stride.before.brood p cfg stride.world).world

variable {p : Problem ω Gene Fitness} {cfg : Config} {s : Search Gene Fitness} {w : ω}
  {stride : Stride ω Gene Fitness} {slot visits : Nat} {c d : Chromosome Gene Fitness}

theorem framed_stride (p : Problem ω Gene Fitness) (cfg : Config) (s : Search Gene Fitness)
    (w : ω) : (Search.stride p cfg s w).Framed p cfg where
  size := (step_turn p cfg s w).size_of_full
  slots hfull slot hchanged := by
    by_cases hslot : slot = s.nextSlot
    · exact .inl hslot
    · refine .inr (Classical.byContradiction fun hdonor => hchanged ?_)
      exact (step_turn p cfg s w).frame hfull hslot hdonor

theorem Stride.Accepts.falls (h : stride.Accepts p cfg slot d)
    (hturn : InTurn cfg visits stride.before) (hc : stride.before.pool[slot]? = some c) :
    compare d.fitness c.fitness = .lt := by
  obtain ⟨-, rfl, -⟩ := challenger_eq_some h.met
  cases hturn.visited.symm.trans hc
  exact h.worse

variable [Std.TransOrd Fitness]

omit [WordSource ω] [Clock ω] in
theorem compare_self_ne_lt (fitness : Fitness) : compare fitness fitness ≠ .lt := by
  rw [Std.ReflOrd.compare_self]
  decide

/-- Without recombination a slot falls only to a worse child that wins the lot. -/
theorem Fate.accepts (h : Fate p cfg stride slot d) (hp : p.recombines = false)
    (hsound : Sound p stride.before) (hbounded : stride.before.Bounded)
    (hc : stride.before.pool[slot]? = some c) (hfalls : compare d.fitness c.fitness = .lt) :
    stride.Accepts p cfg slot d := by
  cases h with
  | spared hsame haway hunfilled =>
    cases hsame.symm.trans hc
    exact absurd hfalls (compare_self_ne_lt _)
  | barren hsame hchildless hunfilled hended =>
    cases hsame.symm.trans hc
    exact absurd hfalls (compare_self_ne_lt _)
  | filled hslot hwider hnew =>
    rw [hslot, Array.getElem?_size] at hc
    cases hc
  | refilled hrefilled hnew =>
    rw [refilled_eq_none (.inl hp) hsound.recombines] at hrefilled
    cases hrefilled
  | decided hmeeting =>
    cases hmeeting.parent.symm.trans hc
    cases hmeeting.decision with
    | dropped hworse hage => exact absurd hfalls (compare_self_ne_lt _)
    | endured hworse hage hyoung => exact absurd hfalls (compare_self_ne_lt _)
    | accepted hworse hage hold hlot => exact ⟨hmeeting.met, hworse, ⟨_, hage, hold⟩, hlot⟩
    | reinstated hworse hage hold hlot =>
      -- the best is no worse than the parent, which sits in the pool
      have hbeats : stride.before.visited.Beats stride.before.best :=
        Std.OrientedCmp.gt_of_lt hfalls
      exact absurd hbeats hbounded.visited
    | equalled hequal => cases hfalls.symm.trans hequal
    | bettered hbetter => cases hfalls.symm.trans hbetter

/-! ## Searches -/

/-- A search that does not recombine: its slots are visited in turn, and the best bounds its pool. -/
structure Plain (p : Problem ω Gene Fitness) (cfg : Config) (visits : Nat)
    (s : Search Gene Fitness) : Prop where
  turn : InTurn cfg visits s
  sound : Sound p s
  bounded : s.Bounded

theorem Plain.step (h : Plain p cfg visits s) (hp : p.recombines = false) (w : ω) :
    Plain p cfg (visits + visitsOf cfg [Search.stride p cfg s w]) (step p cfg s w).search := by
  refine ⟨h.turn.step p w, h.sound.step cfg w, bounded_step h.sound.coherent h.bounded ?_⟩
  exact not_overlooks (.inl hp) h.sound

theorem plain_opened {v : ω} (hstart : start p cfg w = (.ok s, v)) : Plain p cfg 0 s where
  turn := inTurn_opened hstart
  sound := sound_opened (session_of_start hstart)
  bounded := bounded_opened (session_of_start hstart)

/-- A slot falls in a step if and only if a worse child wins it by lot. -/
def Stride.FallsByLot (p : Problem ω Gene Fitness) (cfg : Config)
    (stride : Stride ω Gene Fitness) : Prop :=
  ∀ slot c d, stride.before.pool[slot]? = some c → stride.taken.search.pool[slot]? = some d →
    (compare d.fitness c.fitness = .lt ↔ stride.Accepts p cfg slot d)

theorem Plain.fallsByLot (h : Plain p cfg visits s) (hp : p.recombines = false) (w : ω) :
    (Search.stride p cfg s w).FallsByLot p cfg := by
  intro slot c d hc hd
  constructor
  · intro hfalls
    have hfate := (step_turn p cfg s w).fate h.turn (.inr hp) h.sound.recombines hd
    exact hfate.accepts hp h.sound h.bounded hc hfalls
  · intro haccepts
    exact haccepts.falls h.turn hc

/-- No slot is lost, and none gets worse. -/
def Rises (s t : Search Gene Fitness) : Prop :=
  ∀ (slot : Nat) (c : Chromosome Gene Fitness), s.pool[slot]? = some c →
    ∃ d, t.pool[slot]? = some d ∧ ¬c.Beats d

omit [WordSource ω] [Clock ω] in
theorem Rises.refl (s : Search Gene Fitness) : Rises s s :=
  fun _ c hc => ⟨c, hc, Chromosome.not_beats_self c⟩

omit [WordSource ω] [Clock ω] in
theorem Rises.trans {s t u : Search Gene Fitness} (hst : Rises s t) (htu : Rises t u) :
    Rises s u := by
  intro slot c hc
  obtain ⟨d, hd, hcd⟩ := hst slot c hc
  obtain ⟨e, he, hde⟩ := htu slot d hd
  exact ⟨e, he, Chromosome.not_beats_trans hcd hde⟩

/-- Without a maximal age no worse child wins. -/
theorem Plain.rises (h : Plain p cfg visits s) (hp : p.recombines = false)
    (hage : cfg.maxAge = none) (w : ω) : Rises s (Search.step p cfg s w).search := by
  intro slot c hc
  obtain ⟨hlt, -⟩ := Array.getElem?_eq_some_iff.mp hc
  have hd := Array.getElem?_eq_getElem
    (Nat.lt_of_lt_of_le hlt (step_turn p cfg s w).size_le)
  refine ⟨_, hd, fun hbeats => ?_⟩
  have haccepts := (h.fallsByLot hp w slot c _ hc hd).mp (Std.OrientedCmp.lt_of_gt hbeats)
  obtain ⟨maxAge, hsome, -⟩ := haccepts.due
  cases hage.symm.trans hsome

/-- What is to be said of the slots of a search that has taken steps from a first one on. -/
structure SlotsFramed (p : Problem ω Gene Fitness) (cfg : Config) (opened : Search Gene Fitness)
    (strides : List (Stride ω Gene Fitness)) : Prop where
  framed : ∀ stride ∈ strides, stride.Framed p cfg
  falls : p.recombines = false → ∀ stride ∈ strides, stride.FallsByLot p cfg
  /-- Without a maximal age the slots only ever rise. -/
  rises : p.recombines = false → cfg.maxAge = none → ∀ i j, i ≤ j →
    Rises (arrived opened (strides.take i)) (arrived opened (strides.take j))

theorem plain_strides {P : Stride ω Gene Fitness → Prop} {changes : List (ω → ω)} {v : ω}
    (hp : p.recombines = false) (hstart : start p cfg w = (.ok s, v))
    (hstep : ∀ visits t u, Plain p cfg visits t → P (Search.stride p cfg t u)) :
    ∀ stride ∈ walk p cfg changes s v, P stride := by
  refine walk_strides_of (I := fun past t => Plain p cfg (visitsOf cfg past) t) ?_
    (plain_opened hstart) fun past t u ht => hstep _ t u ht
  intro past t u ht
  rw [visitsOf_append]
  exact ht.step hp u

theorem slotsFramed_of_walk {changes : List (ω → ω)} {v : ω}
    (hstart : start p cfg w = (.ok s, v)) : SlotsFramed p cfg s (walk p cfg changes s v) where
  framed := walk_strides (framed_stride p cfg)
  falls hp := plain_strides hp hstart fun _ _ u ht => ht.fallsByLot hp u
  rises hp hage i j hij := by
    refine walk_relates Rises.refl (fun _ _ _ => Rises.trans) ?_ hij
    exact plain_strides hp hstart fun _ _ u ht => ht.rises hp hage u

/--
**A step writes two slots at most, and a slot falls by lot only.** A search is started and takes any
number of steps, with any changes of the world between them, or it is pulled for answers. Once its
pool is full, a step leaves it as large as it is. It leaves all slots exactly as they are but the one
that it visits, and that of a donor with which the visited parent could not be combined.

If the problem does not recombine at all, what a step leaves in a slot is worse than what was there
if and only if it is a worse child that has won the lot against a parent of the maximal age; a copy
of the best never is. So without a maximal age no slot is worse at any time than it was before.
-/
theorem slots_framed (p : Problem ω Gene Fitness) (cfg : Config) :
    (∀ changes w s v, start p cfg w = (.ok s, v) →
      SlotsFramed p cfg s (walk p cfg changes s v)) ∧
    ∀ steps changes w run, session p cfg steps changes w = .ok run →
      SlotsFramed p cfg run.opened run.strides :=
  ⟨fun _ _ _ _ hstart => slotsFramed_of_walk hstart, fun _ _ _ _ h =>
    session_of_walk (Q := SlotsFramed p cfg) (fun _ _ _ hstart => slotsFramed_of_walk hstart) h⟩

/-- A script with three candidates, and a fourth one for the slot of a donor. -/
def exhaustedDonor : World Random.Cycle Script :=
  ⟨⟨[0x80000000], []⟩,
    { tick := 1, candidates := [[5], [4], [3], [9]], children := [[5], [2]] }⟩

/--
With recombination the first visit writes two slots of three. Without it an equal child is taken and
a worse one is not.
-/
theorem slots_framed_exhaustedDonor :
    ∃ run run', session (scripted true) { poolSize := 3, timeLimit := some 4 } 6 [id, id]
        exhaustedDonor = .ok run ∧
      session (scripted false) { poolSize := 3, timeLimit := some 4 } 6 [id, id] exhaustedDonor
        = .ok run' ∧
      run.search.pool = #[⟨[5], 5, .mutate, 1⟩, ⟨[9], 9, .create, 0⟩, ⟨[3], 3, .create, 0⟩] ∧
      run'.search.pool = #[⟨[5], 5, .mutate, 1⟩, ⟨[4], 4, .create, 0⟩, ⟨[3], 3, .create, 0⟩] ∧
      SlotsFramed (scripted true) { poolSize := 3, timeLimit := some 4 } run.opened run.strides ∧
      SlotsFramed (scripted false) { poolSize := 3, timeLimit := some 4 } run'.opened
        run'.strides := by
  have h : session (scripted true) { poolSize := 3, timeLimit := some 4 } 6 [id, id]
      exhaustedDonor = .ok _ := rfl
  have h' : session (scripted false) { poolSize := 3, timeLimit := some 4 } 6 [id, id]
      exhaustedDonor = .ok _ := rfl
  exact ⟨_, _, h, h', rfl, rfl, (slots_framed _ _).2 6 [id, id] exhaustedDonor _ h,
    (slots_framed _ _).2 6 [id, id] exhaustedDonor _ h'⟩

end EvolutionarySearch.Search
