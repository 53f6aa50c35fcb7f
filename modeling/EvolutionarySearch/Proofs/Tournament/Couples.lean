import EvolutionarySearch.Tournament.Breeding
import Mathlib.Algebra.BigOperators.Fin
import Mathlib.Data.List.FinRange

/-!
# Couples

The ordered pairs of different places decide who plays whom in a round, and who breeds with whom
after it. Here they are listed for any number of places, whatever stands there.

* `pairwise_couples`, `mem_couples` — every couple once, in lexicographic order
* `orderedPairs_zipIdx` — the pairs of a list are its entries at the couples of places
* `sum_couples` — a sum over couples, place by place
-/

namespace EvolutionarySearch.Tournament

variable {α : Type} {n : Nat}

/-- All places but one, in their order. -/
def others (a : Fin n) : List (Fin n) := (List.finRange n).filter (· ≠ a)

theorem mem_others {a b : Fin n} : b ∈ others a ↔ b ≠ a := by
  simp [others]

theorem length_others (a : Fin n) : (others a).length = n - 1 := by
  have herase : others a = (List.finRange n).erase a := by
    rw [(List.nodup_finRange n).erase_eq_filter a]
    exact List.filter_congr fun b _ => by simp [bne, beq_eq_decide]
  rw [herase, List.length_erase_of_mem (List.mem_finRange a), List.length_finRange]

theorem sum_others (f : Fin n → Nat) (a : Fin n) :
    ((others a).map f).sum = ∑ b, if b ≠ a then f b else 0 := by
  rw [others, Fin.sum_univ_def]
  simp [List.sum_map_ite]

/-- The ordered pairs of different places, by the first place and then by the second. -/
def couples (n : Nat) : List (Fin n × Fin n) :=
  (List.finRange n).flatMap fun a => (others a).map fun b => (a, b)

theorem mem_couples {a b : Fin n} : (a, b) ∈ couples n ↔ a ≠ b := by
  simp [couples, mem_others, ne_comm]

theorem pairwise_couples (n : Nat) : (couples n).Pairwise (Prod.Lex (· < ·) (· < ·)) := by
  have hplaces : (List.finRange n).Pairwise (· < ·) := List.pairwise_lt_finRange n
  refine List.pairwise_flatMap.mpr ⟨fun a _ => ?_, hplaces.imp fun {a a'} hlt x hx y hy => ?_⟩
  · rw [List.pairwise_map]
    exact (hplaces.filter _).imp fun hlt => .right a hlt
  · obtain ⟨b, -, rfl⟩ := List.mem_map.mp hx
    obtain ⟨b', -, rfl⟩ := List.mem_map.mp hy
    exact .left b b' hlt

theorem length_couples (n : Nat) : (couples n).length = n * (n - 1) := by
  simp [couples, List.length_flatMap, length_others]

/-- A sum over all couples, by the first place and then by the second. -/
theorem sum_couples (f : Fin n × Fin n → Nat) :
    ((couples n).map f).sum = ∑ a, ∑ b, if b ≠ a then f (a, b) else 0 := by
  rw [couples, List.map_flatMap, List.flatMap_def, List.sum_flatten, List.map_map,
    Fin.sum_univ_def]
  refine congrArg List.sum (List.map_congr_left fun a _ => ?_)
  rw [Function.comp_apply, List.map_map]
  exact sum_others (fun b => f (a, b)) a

/-! ## Pairs of entries -/

theorem zipIdx_ofFn (entry : Fin n → α) :
    (List.ofFn entry).zipIdx = (List.finRange n).map fun a => (entry a, (a : Nat)) :=
  List.ext_getElem (by simp) fun i _ _ => by simp

theorem pairsOf_placed (entry : Fin n → α) (a : Fin n) :
    pairsOf ((List.finRange n).map fun b => (entry b, (b : Nat))) (entry a, (a : Nat))
      = (others a).map fun b => ((entry a, (a : Nat)), (entry b, (b : Nat))) := by
  have hplace : ∀ b : Fin n, ((b : Nat) != (a : Nat)) = decide (b ≠ a) := by
    intro b
    rw [Bool.eq_iff_iff]
    simp [Fin.val_inj]
  simp only [pairsOf, others, List.filter_map, List.map_map, Function.comp_def, hplace]

/-- The pairs of a list hold its entries at the couples of places. -/
theorem orderedPairs_zipIdx (entry : Fin n → α) :
    orderedPairs (List.ofFn entry).zipIdx
      = (couples n).map fun c => ((entry c.1, (c.1 : Nat)), (entry c.2, (c.2 : Nat))) := by
  rw [zipIdx_ofFn, orderedPairs, couples, List.flatMap_map, List.map_flatMap]
  simp only [pairsOf_placed, List.map_map, Function.comp_def]

end EvolutionarySearch.Tournament
