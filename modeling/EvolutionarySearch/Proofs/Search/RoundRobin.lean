import EvolutionarySearch.Proofs.Search.Visits
import Mathlib.Data.Int.ModEq
import Mathlib.Data.List.Nodup
import Mathlib.Data.List.Perm.Subperm

/-!
# The slot that is due

The cursor of a search starts above the lowest slot and goes down one slot with every visit, from
the lowest to the highest. Only visits move it, whatever comes of them, and no slot is added after
the first one. So the slot that comes next depends on nothing but the number of visits before.

* `slotInTurn_succ`, `perm_slotInTurn` — the order of the slots, and that a round has each of them
* `Turn.cursor` — what a step does to the cursor and to the number of slots
* `InTurn.step` — after any number of visits the slot that is due comes next
-/

namespace EvolutionarySearch.Search

variable {ω Gene Fitness : Type}

/-! ## The order of the slots -/

/-- The slot that is due after a number of visits: the lowest, then the highest and downwards. -/
def slotInTurn (slots visits : Nat) : Nat := (-(visits : Int) % slots).toNat

section Order

variable {slots visits : Nat}

theorem coe_slotInTurn (hslots : 0 < slots) :
    (slotInTurn slots visits : Int) = -(visits : Int) % slots :=
  Int.toNat_of_nonneg (Int.emod_nonneg _ (by omega))

theorem slotInTurn_lt (hslots : 0 < slots) : slotInTurn slots visits < slots := by
  have hlt : -(visits : Int) % slots < slots := Int.emod_lt_of_pos _ (by omega)
  rw [← coe_slotInTurn hslots] at hlt
  omega

theorem slotInTurn_succ (hslots : 0 < slots) :
    slotInTurn slots (visits + 1) =
      if slotInTurn slots visits = 0 then slots - 1 else slotInTurn slots visits - 1 := by
  have hlt : slotInTurn slots visits < slots := slotInTurn_lt hslots
  have hnext : (slotInTurn slots (visits + 1) : Int)
      = ((slotInTurn slots visits : Int) - 1) % slots := by
    rw [coe_slotInTurn hslots, coe_slotInTurn hslots, Int.emod_sub_emod]
    congr 1
    omega
  split
  · next hzero =>
    rw [hzero, ← Int.add_emod_right, Int.emod_eq_of_lt (by omega) (by omega)] at hnext
    omega
  · next hpos =>
    rw [Int.emod_eq_of_lt (by omega) (by omega)] at hnext
    omega

/-- Within a round no slot is due twice. -/
theorem slotInTurn_inj (hslots : 0 < slots) {i a b : Nat} (ha : i ≤ a ∧ a < i + slots)
    (hb : i ≤ b ∧ b < i + slots) (h : slotInTurn slots a = slotInTurn slots b) : a = b := by
  have hsame : -(a : Int) % slots = -(b : Int) % slots := by
    rw [← coe_slotInTurn hslots, ← coe_slotInTurn hslots, h]
  have hdvd : (slots : Int) ∣ -(a : Int) - -(b : Int) :=
    Int.dvd_of_emod_eq_zero (Int.emod_eq_emod_iff_emod_sub_eq_zero.mp hsame)
  have hzero : -(a : Int) - -(b : Int) = 0 :=
    Int.eq_zero_of_abs_lt_dvd hdvd (abs_lt.mpr ⟨by omega, by omega⟩)
  omega

/-- A round, wherever it begins, has every slot once. -/
theorem perm_slotInTurn (hslots : 0 < slots) (i : Nat) :
    ((List.range' i slots).map (slotInTurn slots)).Perm (List.range slots) := by
  have hnodup : ((List.range' i slots).map (slotInTurn slots)).Nodup := by
    refine List.Nodup.map_on (fun a ha b hb h => ?_) List.nodup_range'
    exact slotInTurn_inj hslots (List.mem_range'_1.mp ha) (List.mem_range'_1.mp hb) h
  have hsub : (List.range' i slots).map (slotInTurn slots) ⊆ List.range slots := by
    intro slot hslot
    obtain ⟨a, -, rfl⟩ := List.mem_map.mp hslot
    exact List.mem_range.mpr (slotInTurn_lt hslots)
  exact (hnodup.subperm hsub).perm_of_length_le (by simp)

end Order

/-! ## The cursor -/

section Steps

variable [Ord Fitness] [WordSource ω] [Clock ω] {p : Problem ω Gene Fitness} {cfg : Config}
  {s : Search Gene Fitness} {w : ω} {taken : Step ω Gene Fitness} {visits : Nat}

omit [Ord Fitness] [WordSource ω] in
theorem Stride.visits_iff {stride : Stride ω Gene Fitness} :
    stride.visits cfg = true ↔ stride.before.phase = .running ∧
      stride.before.expired cfg stride.world = false ∧
      cfg.poolSize ≤ stride.before.pool.size := by
  rw [Stride.visits, Bool.and_eq_true, Stride.searches_iff, decide_eq_true_iff, and_assoc]

/-- A visit takes the cursor to its slot, and no other step moves it. -/
theorem Turn.cursor (h : Turn p cfg s w taken) :
    (Stride.visits cfg ⟨s, w, taken⟩ = true ∧ taken.search.cursor = s.nextSlot ∧
        taken.search.pool.size = s.pool.size) ∨
      (Stride.visits cfg ⟨s, w, taken⟩ = false ∧ taken.search.cursor = s.cursor ∧
        (taken.search.pool.size = s.pool.size ∨
          (s.pool.size < cfg.poolSize ∧ taken.search.pool.size = s.pool.size + 1))) := by
  cases h with
  | silent hphase => exact .inr ⟨by simp [Stride.visits, Stride.searches, hphase], rfl, .inl rfl⟩
  | timedOut hphase hlate =>
    exact .inr ⟨by simp [Stride.visits, Stride.searches, hlate], rfl, .inl rfl⟩
  | announced hphase htime =>
    exact .inr ⟨by simp [Stride.visits, Stride.searches, hphase], rfl, .inl rfl⟩
  | unfilled hphase htime hroom hgen =>
    exact .inr ⟨by simp [Stride.visits, Nat.not_le.mpr hroom], rfl, .inl rfl⟩
  | filled hphase htime hroom hgen hbest =>
    exact .inr ⟨by simp [Stride.visits, Nat.not_le.mpr hroom], rfl, .inr ⟨hroom, by
      simp [proceed, widened]⟩⟩
  | filledBest hphase htime hroom hgen hbest =>
    refine .inr ⟨by simp [Stride.visits, Nat.not_le.mpr hroom], cursor_promote .., .inr ⟨hroom, ?_⟩⟩
    simp [pool_promote, widened]
  | barren hphase htime hfull hbred =>
    exact .inl ⟨Stride.visits_iff.mpr ⟨hphase, htime, hfull⟩, rfl, rfl⟩
  | visit hphase htime hfull hbred hverdict =>
    refine .inl ⟨Stride.visits_iff.mpr ⟨hphase, htime, hfull⟩, ?_, ?_⟩
    · exact hverdict.cursor.trans (cursor_refill _ _)
    · exact hverdict.size_eq.trans (size_refill _ _)

/-- After a number of visits the slot that is due comes next. -/
structure InTurn (cfg : Config) (visits : Nat) (s : Search Gene Fitness) : Prop where
  rounds : Rounds cfg visits s
  best : s.best.age = 0
  turn : s.nextSlot = slotInTurn cfg.poolSize visits

omit [Ord Fitness] [WordSource ω] [Clock ω] in
theorem InTurn.nextSlot_lt (h : InTurn cfg visits s) : s.nextSlot < s.pool.size :=
  Search.nextSlot_lt h.rounds.pos h.rounds.cursor_le

omit [Ord Fitness] [WordSource ω] [Clock ω] in
/-- The visited parent sits in the slot that comes next. -/
theorem InTurn.visited (h : InTurn cfg visits s) : s.pool[s.nextSlot]? = some s.visited := by
  rw [Search.visited, Array.getD_eq_getD_getElem?, Array.getElem?_eq_getElem h.nextSlot_lt]
  rfl

theorem InTurn.step (h : InTurn cfg visits s) (p : Problem ω Gene Fitness) (w : ω) :
    InTurn cfg (visits + visitsOf cfg [stride p cfg s w]) (step p cfg s w).search := by
  have hturn := step_turn p cfg s w
  refine ⟨hturn.rounds h.rounds h.best, hturn.best_age h.best, ?_⟩
  unfold stride
  rcases hturn.cursor with ⟨hvisits, hcursor, hsize⟩ | ⟨hvisits, hcursor, hsize⟩
  · have hone : visitsOf cfg [⟨s, w, Search.step p cfg s w⟩] = 1 := by simp [visitsOf, hvisits]
    obtain ⟨-, -, hfull⟩ := Stride.visits_iff.mp hvisits
    have hpool : s.pool.size = cfg.poolSize := Nat.le_antisymm h.rounds.size_le hfull
    rw [hone, slotInTurn_succ (hpool ▸ h.rounds.pos), ← h.turn, ← hpool, ← hsize, ← hcursor]
    rfl
  · have hnone : visitsOf cfg [⟨s, w, Search.step p cfg s w⟩] = 0 := by simp [visitsOf, hvisits]
    rw [hnone, Nat.add_zero, ← h.turn, nextSlot, nextSlot, hcursor]
    rcases hsize with hsize | ⟨hroom, -⟩
    · rw [hsize]
    · -- a new slot does not matter to a cursor that stands above the lowest
      rw [h.rounds.filling hroom]
      rfl

/-- A step goes on with the visits that have been counted. -/
theorem InTurn.step_append {past : List (Stride ω Gene Fitness)}
    (h : InTurn cfg (visitsOf cfg past) s) (p : Problem ω Gene Fitness) (w : ω) :
    InTurn cfg (visitsOf cfg (past ++ [stride p cfg s w])) (Search.step p cfg s w).search := by
  rw [visitsOf_append]
  exact h.step p w

omit [Ord Fitness] in
theorem inTurn_opened {v : ω} (hstart : start p cfg w = (.ok s, v)) : InTurn cfg 0 s := by
  have hrounds := rounds_opened hstart
  obtain ⟨-, first, hgen, rfl⟩ := start_eq_ok hstart
  refine ⟨hrounds, (generate_bred (w := w) (by rw [hgen]) []).age, ?_⟩
  simp [nextSlot, opening, slotInTurn]

end Steps

end EvolutionarySearch.Search
