import EvolutionarySearch.Proofs.Search.Deadline
import EvolutionarySearch.Proofs.Search.Ledger
import EvolutionarySearch.Proofs.Search.Population

/-!
# Visits and ages

Once the pool is full its slots are visited in turn, and a visit makes a chromosome one older at
most. So an age cannot be reached before there were as many rounds of visits.

`Rounds` makes this an invariant. A slot that is `ahead` of the next visit by some others has been
visited as often as if these had taken place already, since a round is as long as the pool.

* `Turn.age` — how the ages change in a step
* `Turn.rounds` — a step keeps the invariant
* `Rounds.age_le` — the age of a parent, when it is visited
-/

namespace EvolutionarySearch.Search

variable {ω Gene Fitness : Type}

/-! ## Counting visits -/

/-- A step in which a slot of the full pool is visited. -/
def Stride.visits [Clock ω] (cfg : Config) (stride : Stride ω Gene Fitness) : Bool :=
  stride.searches cfg && decide (cfg.poolSize ≤ stride.before.pool.size)

/-- The number of visits among steps. -/
def visitsOf [Clock ω] (cfg : Config) (strides : List (Stride ω Gene Fitness)) : Nat :=
  strides.countP (·.visits cfg)

theorem visitsOf_append [Clock ω] (cfg : Config) (strides more : List (Stride ω Gene Fitness)) :
    visitsOf cfg (strides ++ more) = visitsOf cfg strides + visitsOf cfg more :=
  List.countP_append

theorem visitsOf_singleton [Clock ω] {cfg : Config} {stride : Stride ω Gene Fitness}
    (hphase : stride.before.phase = .running)
    (htime : stride.before.expired cfg stride.world = false)
    (hfull : cfg.poolSize ≤ stride.before.pool.size) : visitsOf cfg [stride] = 1 := by
  simp [visitsOf, Stride.visits, Stride.searches, hphase, htime, hfull]

/-! ## The cursor -/

section Cursor

variable {s : Search Gene Fitness}

theorem cursor_refill (s : Search Gene Fitness) (offspring : Offspring Gene Fitness) :
    (s.refill offspring).cursor = s.cursor := by
  unfold refill
  split <;> rfl

theorem cursor_grown (s : Search Gene Fitness) (slot : Nat) (parent : Chromosome Gene Fitness)
    (kept : Bool) : (s.grown slot parent kept).cursor = s.cursor := by
  unfold grown
  split <;> rfl

variable [Ord Fitness]

theorem cursor_promote [Clock ω] (s : Search Gene Fitness) (c : Chromosome Gene Fitness) (w : ω)
    (evaluated : List (Evaluation Gene Fitness)) :
    (s.promote c w evaluated).search.cursor = s.cursor := by
  unfold promote
  dsimp only
  split <;> rfl

variable [WordSource ω]

theorem cursor_anneal (s : Search Gene Fitness) (slot : Nat) (child : Chromosome Gene Fitness)
    (w : ω) : (s.anneal slot child w).1.cursor = s.cursor := by
  unfold anneal
  dsimp only
  split <;> rfl

theorem Verdict.cursor [Clock ω] {cfg : Config} {w : ω} {slot : Nat}
    {parent child : Chromosome Gene Fitness} {kept : Bool}
    {evaluated : List (Evaluation Gene Fitness)} {taken : Step ω Gene Fitness}
    (h : Verdict cfg s slot parent kept child w evaluated taken) :
    taken.search.cursor = s.cursor := by
  cases h with
  | dropped hworse hage => rfl
  | endured hworse hage hyoung => exact cursor_grown s slot parent kept
  | retired hworse hage hold => exact (cursor_anneal _ slot child w).trans (cursor_grown ..)
  | replaced hequal => rfl
  | climbed hbetter hbest => rfl
  | surpassed hbetter hbest => exact cursor_promote ..

end Cursor

/-! ## Ages -/

section Ages

variable {s : Search Gene Fitness} {c : Chromosome Gene Fitness} {i : Nat}

theorem age_grown {slot : Nat} {parent : Chromosome Gene Fitness} {kept : Bool}
    (h : (s.grown slot parent kept).pool[i]? = some c) :
    s.pool[i]? = some c ∨ (i = slot ∧ c.age = parent.age + 1) := by
  unfold grown setAge at h
  split at h
  · rw [Array.getElem?_modify] at h
    split at h
    · next heq =>
      obtain ⟨d, -, rfl⟩ := Option.map_eq_some_iff.mp h
      exact .inr ⟨heq.symm, rfl⟩
    · exact .inl h
  · exact .inl h

variable [Ord Fitness] [WordSource ω] [Clock ω] {p : Problem ω Gene Fitness} {cfg : Config} {w : ω}
  {taken : Step ω Gene Fitness}

/-- After a contest a chromosome is as before, or as new, or older than the parent by one visit. -/
theorem Verdict.age {slot : Nat} {parent child : Chromosome Gene Fitness} {kept : Bool}
    {evaluated : List (Evaluation Gene Fitness)}
    (h : Verdict cfg s slot parent kept child w evaluated taken) (hchild : child.age = 0)
    (hc : taken.search.pool[i]? = some c) :
    s.pool[i]? = some c ∨ c.age = 0 ∨ (i = slot ∧ c.age = parent.age + 1) := by
  cases h with
  | dropped hworse hage => exact .inl hc
  | endured hworse hage hyoung => exact (age_grown hc).imp_right .inr
  | retired hworse hage hold =>
    rcases slot_anneal (s := s.grown slot parent kept) hc with hc | ⟨-, ⟨-, rfl⟩ | ⟨-, rfl⟩⟩
    · exact (age_grown hc).imp_right .inr
    · exact .inr (.inl hchild)
    · exact .inr (.inl rfl)
  | replaced hequal =>
    rcases slot_settle hc with ⟨hi, rfl⟩ | hc
    · exact .inr (.inr ⟨hi, rfl⟩)
    · exact .inl hc
  | climbed hbetter hbest =>
    rcases slot_settle hc with ⟨-, rfl⟩ | hc
    · exact .inr (.inl hchild)
    · exact .inl hc
  | surpassed hbetter hbest =>
    rw [pool_promote] at hc
    rcases slot_settle hc with ⟨-, rfl⟩ | hc
    · exact .inr (.inl hchild)
    · exact .inl hc

/-- A visit makes what it leaves in its slot one older than the parent at most. -/
theorem Verdict.age_of_brood {offspring : Offspring Gene Fitness}
    (hbred : (s.brood p cfg w).outcome = .ok offspring)
    (h : Verdict cfg ((s.moved (s.brood p cfg w).notes).refill offspring) s.nextSlot s.visited
      (s.keeps offspring) offspring.child.chromosome (s.brood p cfg w).world offspring.evaluated
      taken) (hc : taken.search.pool[i]? = some c) :
    s.pool[i]? = some c ∨ c.age = 0 ∨ (i = s.nextSlot ∧ c.age = s.visited.age + 1) := by
  obtain ⟨hfresh, hchild⟩ := (brood_attempt p cfg s w).bred hbred
  rcases h.age hchild.age hc with hc | hc
  · rcases slot_refill hc with ⟨fresh, hrefill, rfl⟩ | hc
    · exact .inr (.inl (hfresh _ _ hrefill).age)
    · exact .inl hc
  · exact .inr hc

end Ages

/-! ## Rounds -/

/-- The number of visits that come before that of a slot. -/
def ahead (s : Search Gene Fitness) (slot : Nat) : Nat :=
  if slot ≤ s.nextSlot then s.nextSlot - slot else s.nextSlot + s.pool.size - slot

/-- The slots are visited in turn, and no age is greater than the rounds of visits so far. -/
structure Rounds (cfg : Config) (visits : Nat) (s : Search Gene Fitness) : Prop where
  pos : 0 < s.pool.size
  size_le : s.pool.size ≤ cfg.poolSize
  cursor_le : s.cursor ≤ s.pool.size
  filling : s.pool.size < cfg.poolSize → s.cursor = 1
  ages : ∀ i c, s.pool[i]? = some c → c.age * cfg.poolSize ≤ visits + s.ahead i

section Rounds

variable {cfg : Config} {visits : Nat} {s t : Search Gene Fitness}

/-- More visits, or a slot more to be visited in between, do no harm. -/
theorem Rounds.same (h : Rounds cfg visits s) (hpool : t.pool = s.pool)
    (hcursor : t.cursor = s.cursor) (more : Nat) : Rounds cfg (visits + more) t := by
  have hahead : ∀ i, t.ahead i = s.ahead i := by
    intro i
    unfold ahead nextSlot
    rw [hpool, hcursor]
  refine ⟨hpool ▸ h.pos, hpool ▸ h.size_le, by rw [hpool, hcursor]; exact h.cursor_le,
    by rw [hpool, hcursor]; exact h.filling, ?_⟩
  intro i c hc
  rw [hpool] at hc
  rw [hahead]
  exact Nat.le_trans (h.ages i c hc) (by omega)

/-- While the pool is filled the lowest slot is the next one to be visited. -/
theorem Rounds.widened (h : Rounds cfg visits s) (hroom : s.pool.size < cfg.poolSize)
    {c : Chromosome Gene Fitness} (hnew : c.age = 0) (hpool : t.pool = s.pool.push c)
    (hcursor : t.cursor = s.cursor) (more : Nat) : Rounds cfg (visits + more) t := by
  have hfirst := h.filling hroom
  have hsize : t.pool.size = s.pool.size + 1 := by rw [hpool, Array.size_push]
  have hahead : ∀ i, s.ahead i ≤ t.ahead i := by
    intro i
    unfold ahead nextSlot
    rw [hcursor, hfirst, hsize]
    simp only [Nat.one_ne_zero, if_false]
    split <;> omega
  have hle := h.cursor_le
  refine ⟨by omega, by omega, by omega, fun _ => hcursor.trans hfirst, ?_⟩
  intro i d hd
  rw [hpool, Array.getElem?_push] at hd
  split at hd
  · cases hd
    rw [hnew, Nat.zero_mul]
    exact Nat.zero_le _
  · exact Nat.le_trans (h.ages i d hd) (by have := hahead i; omega)

/-- A visit takes its slot to the end of the line, and all others one place forward. -/
theorem ahead_visited (hpos : 0 < s.pool.size) (hcursor : s.cursor ≤ s.pool.size)
    (hnext : t.cursor = s.nextSlot) (hsize : t.pool.size = s.pool.size) {i : Nat}
    (hi : i < s.pool.size) :
    t.ahead i + 1 = if i = s.nextSlot then s.pool.size else s.ahead i := by
  have hlt := nextSlot_lt hpos hcursor
  have ht : t.nextSlot = if s.nextSlot = 0 then s.pool.size - 1 else s.nextSlot - 1 := by
    rw [← hnext, ← hsize]
    rfl
  unfold ahead
  rw [ht, hsize]
  grind

theorem Rounds.age_visited (h : Rounds cfg visits s) (hbest : s.best.age = 0) :
    s.visited.age * cfg.poolSize ≤ visits := by
  unfold Search.visited
  rw [Array.getD_eq_getD_getElem?]
  cases hslot : s.pool[s.nextSlot]? with
  | none => simp [hbest]
  | some parent =>
    have hnow : s.ahead s.nextSlot = 0 := by simp [ahead]
    simpa [hnow] using h.ages s.nextSlot parent hslot

theorem Rounds.visited (h : Rounds cfg visits s) (hbest : s.best.age = 0)
    (hfull : cfg.poolSize ≤ s.pool.size) (hnext : t.cursor = s.nextSlot)
    (hsize : t.pool.size = s.pool.size)
    (hages : ∀ i c, t.pool[i]? = some c →
      s.pool[i]? = some c ∨ c.age = 0 ∨ (i = s.nextSlot ∧ c.age = s.visited.age + 1)) :
    Rounds cfg (visits + 1) t := by
  have hpool : s.pool.size = cfg.poolSize := Nat.le_antisymm h.size_le hfull
  have hlt := nextSlot_lt h.pos h.cursor_le
  refine ⟨hsize ▸ h.pos, hsize ▸ h.size_le, by omega, fun hroom => by omega, ?_⟩
  intro i c hc
  have hi : i < s.pool.size := by
    obtain ⟨hi, -⟩ := Array.getElem?_eq_some_iff.mp hc
    omega
  have hline := ahead_visited h.pos h.cursor_le hnext hsize hi
  rcases hages i c hc with hold | hnew | ⟨rfl, holder⟩
  · have hage := h.ages i c hold
    split at hline
    · next heq =>
      subst heq
      have hnow : s.ahead s.nextSlot = 0 := by simp [ahead]
      omega
    · omega
  · rw [hnew, Nat.zero_mul]
    exact Nat.zero_le _
  · -- the slot has to wait for a whole round now, which makes up for the visit
    rw [if_pos rfl] at hline
    have hage := h.age_visited hbest
    rw [holder, Nat.succ_mul]
    omega

end Rounds

/-! ## Steps -/

section Steps

variable [Ord Fitness] [WordSource ω] [Clock ω] {p : Problem ω Gene Fitness} {cfg : Config}
  {s : Search Gene Fitness} {w : ω} {visits : Nat}

theorem Turn.rounds {taken : Step ω Gene Fitness} (h : Turn p cfg s w taken)
    (hs : Rounds cfg visits s) (hbest : s.best.age = 0) :
    Rounds cfg (visits + visitsOf cfg [⟨s, w, taken⟩]) taken.search := by
  cases h with
  | silent hphase => refine hs.same ?_ ?_ _ <;> rfl
  | timedOut hphase hlate => refine hs.same ?_ ?_ _ <;> rfl
  | announced hphase htime => refine hs.same ?_ ?_ _ <;> rfl
  | unfilled hphase htime hroom hgen => refine hs.same ?_ ?_ _ <;> rfl
  | filled hphase htime hroom hgen hbest =>
    refine hs.widened hroom (generate_bred hgen []).age ?_ ?_ _ <;> rfl
  | filledBest hphase htime hroom hgen hbest =>
    refine hs.widened hroom (generate_bred hgen []).age ?_ ?_ _
    · exact pool_promote
    · exact cursor_promote ..
  | barren hphase htime hfull hbred =>
    rw [visitsOf_singleton hphase htime hfull]
    exact hs.visited hbest hfull rfl rfl fun _ _ hc => .inl hc
  | visit hphase htime hfull hbred hverdict =>
    rw [visitsOf_singleton hphase htime hfull]
    refine hs.visited hbest hfull ?_ ?_ fun _ _ hc => hverdict.age_of_brood hbred hc
    · exact hverdict.cursor.trans (cursor_refill _ _)
    · exact hverdict.size_eq.trans (size_refill _ _)

omit [Ord Fitness] in
theorem rounds_opened {v : ω} (hstart : start p cfg w = (.ok s, v)) : Rounds cfg 0 s := by
  obtain ⟨hvalid, first, hgen, rfl⟩ := start_eq_ok hstart
  have hpool : 0 < cfg.poolSize := by
    unfold Config.validate at hvalid
    split at hvalid
    · cases hvalid
    · omega
  have hage : first.chromosome.age = 0 := (generate_bred (w := w) (by rw [hgen]) []).age
  refine ⟨Nat.one_pos, hpool, Nat.le_refl _, fun _ => rfl, ?_⟩
  intro i c hc
  have hmem : c ∈ #[first.chromosome] := Array.mem_of_getElem? hc
  rw [Array.mem_singleton.mp hmem, hage, Nat.zero_mul]
  exact Nat.zero_le _

/-- Along a walk no parent is older, when it is visited, than there were rounds of visits before. -/
theorem Rounds.age_le {changes : List (ω → ω)} (h : Rounds cfg visits s) (hbest : s.best.age = 0)
    {before after : List (Stride ω Gene Fitness)} {visit : Stride ω Gene Fitness}
    (hwalk : walk p cfg changes s w = before ++ visit :: after) :
    visit.before.visited.age * cfg.poolSize ≤ visits + visitsOf cfg before := by
  induction changes generalizing s w visits before with
  | nil => simp [walk] at hwalk
  | cons change changes ih =>
    rw [walk] at hwalk
    cases before with
    | nil =>
      obtain ⟨rfl, -⟩ := List.cons.inj hwalk
      exact Nat.le_add_right_of_le (h.age_visited hbest)
    | cons first before =>
      obtain ⟨rfl, hrest⟩ := List.cons.inj hwalk
      have hturn := step_turn p cfg s (change w)
      have hlater := ih (hturn.rounds h hbest) (hturn.best_age hbest) hrest
      rwa [Nat.add_assoc, ← visitsOf_append, List.singleton_append] at hlater

end Steps

end EvolutionarySearch.Search
