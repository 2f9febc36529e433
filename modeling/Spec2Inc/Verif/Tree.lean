import Mathlib.Algebra.BigOperators.Group.Multiset.Basic
import Mathlib.Algebra.BigOperators.Fin
import Mathlib.Data.Fin.VecNotation
import Spec2Inc.Bits.Bus
import Spec2Inc.Verif.Concurrent

/-!
# Reduction trees

A reduction may be spread over several passes of the engine: a `Tree` has a beat
at each leaf, and at each inner node one application of `sum_c` to the results
below it, placed in distinct slots of an engine of any size. Its value in each
lane is the sum over the leaves, so it depends on nothing but the beats
(`Tree.value_eq_reduceLanes`).
-/

open Bits Spec2incPkg Reference

namespace ReductionEngine

/-- `sum(1 << s for s in placement)`, for distinct slots. -/
def placementMask (n : ℕ) (placement : List ℕ) : BitVec n :=
  BitVec.ofNat n (bus 1 (placement.map fun s => (s, 1)))

/-- The operand vector with each result in its slot, over whatever it held. -/
def placeOperands {n : ℕ} (others : BitVec (n * dataW)) (items : List (ℕ × BitVec dataW)) :
    BitVec (n * dataW) :=
  items.foldl (fun acc p => assign acc (p.1 * dataW) p.2) others

set_option maxRecDepth 2000 in
/-- A reduction tree. A node has its own number of ports, and places its `k`
children in distinct slots. -/
inductive Tree
  | leaf (beat : BitVec dataW)
  | node (nPorts k : ℕ) (slot : Fin k → Fin nPorts) (distinct : Function.Injective slot)
      (others : BitVec (nPorts * dataW)) (child : Fin k → Tree)

namespace Tree

/-- The value at the root. -/
def value : Tree → BitVec dataW
  | leaf beat => beat
  | node nPorts k slot _ others child =>
      sumC (placementMask nPorts ((List.finRange k).map fun i => (slot i : ℕ)))
        (placeOperands others ((List.finRange k).map fun i => ((slot i : ℕ), (child i).value)))

/-- The beats at the leaves. -/
def leaves : Tree → Multiset (BitVec dataW)
  | leaf beat => {beat}
  | node _ _ _ _ _ child => ∑ i, (child i).leaves

end Tree

/-- Lane `l` summed over some beats. -/
def laneTotal (beats : Multiset (BitVec dataW)) (l : ℕ) : BitVec redLaneW :=
  (beats.map fun beat => beatLane beat l).sum

theorem laneTotal_sum {k : ℕ} (f : Fin k → Multiset (BitVec dataW)) (l : ℕ) :
    laneTotal (∑ i, f i) l = ∑ i, laneTotal (f i) l := by
  let total : Multiset (BitVec dataW) →+ BitVec redLaneW :=
    Multiset.sumAddMonoidHom.comp (Multiset.mapAddMonoidHom fun beat => beatLane beat l)
  exact map_sum total f Finset.univ

section Placement

variable {n k : ℕ} {slot : Fin k → Fin n}

theorem nodup_placement (distinct : Function.Injective slot) :
    ((List.finRange k).map fun i => (slot i : ℕ)).Nodup :=
  (List.nodup_finRange k).map (Fin.val_injective.comp distinct)

/-- Exactly the mask bits of the occupied slots are set. -/
theorem maskedSlots_placementMask (slot : Fin k → Fin n) :
    maskedSlots (placementMask n ((List.finRange k).map fun i => (slot i : ℕ))) =
      Finset.univ.image fun i => (slot i : ℕ) := by
  ext p
  simp only [maskedSlots, placementMask, Finset.mem_filter, Finset.mem_range,
    BitVec.getLsbD_ofNat, testBit_bus, Finset.mem_image, Finset.mem_univ, true_and]
  simp only [Bool.and_eq_true, decide_eq_true_eq, List.any_eq_true, List.mem_map,
    Nat.mul_one]
  constructor
  · rintro ⟨-, -, ⟨_, ⟨s, ⟨i, -, rfl⟩, rfl⟩, hle, hbit⟩⟩
    rw [Nat.testBit_one_eq_true_iff_self_eq_zero] at hbit
    exact ⟨i, Nat.le_antisymm hle (Nat.sub_eq_zero_iff_le.mp hbit)⟩
  · rintro ⟨i, rfl⟩
    refine ⟨(slot i).isLt, (slot i).isLt, _, ⟨_, ⟨i, List.mem_finRange i, rfl⟩, rfl⟩, le_rfl, ?_⟩
    exact Nat.testBit_one_eq_true_iff_self_eq_zero.mpr (Nat.sub_self _)

/-- The occupied slots hold the results placed there. -/
theorem operand_placeOperands (distinct : Function.Injective slot)
    (others : BitVec (n * dataW)) (x : Fin k → BitVec dataW) (i : Fin k) :
    operand (placeOperands others ((List.finRange k).map fun i => ((slot i : ℕ), x i)))
      (slot i) = x i := by
  refine lane_foldl_assign_of_mem others ?_ ?_
    (Nat.mul_le_mul_right dataW (Nat.succ_le_of_lt (slot i).isLt))
  · rw [List.map_map]
    exact nodup_placement distinct
  · exact List.mem_map.mpr ⟨i, List.mem_finRange i, rfl⟩

/-- One node adds the lanes of its children. -/
theorem beatLane_node (distinct : Function.Injective slot) (others : BitVec (n * dataW))
    (x : Fin k → BitVec dataW) {l : ℕ} (hl : l < redLanes) :
    beatLane (sumC (placementMask n ((List.finRange k).map fun i => (slot i : ℕ)))
        (placeOperands others ((List.finRange k).map fun i => ((slot i : ℕ), x i)))) l =
      ∑ i, beatLane (x i) l := by
  rw [beatLane_sumC _ _ hl, maskedSlots_placementMask,
    Finset.sum_image fun i _ j _ h => distinct (Fin.val_injective h)]
  simp only [operand_placeOperands distinct]

end Placement

namespace Tree

/-- The value of a tree in each lane is the sum over its leaves. -/
theorem beatLane_value (t : Tree) {l : ℕ} (hl : l < redLanes) :
    beatLane t.value l = laneTotal t.leaves l := by
  induction t with
  | leaf beat => simp [value, leaves, laneTotal]
  | node nPorts k slot distinct others child ih =>
      rw [value, leaves, beatLane_node distinct others _ hl, laneTotal_sum]
      exact Finset.sum_congr rfl fun i _ => ih i

theorem value_eq_of_leaves {t t' : Tree} (h : t'.leaves = t.leaves) : t'.value = t.value := by
  apply eq_of_beatLane
  intro l hl
  rw [beatLane_value t' hl, beatLane_value t hl, h]

theorem lanesFromBeat_value (t : Tree) {beats : List (BitVec dataW)}
    (h : (beats : Multiset (BitVec dataW)) = t.leaves) :
    laneSum redLanes (beats.map lanesFromBeat) = lanesFromBeat t.value := by
  refine List.map_congr_left fun l hl => ?_
  have hl : l < redLanes := List.mem_range.mp hl
  have hlane : ∀ beat : BitVec dataW, (lanesFromBeat beat).getD l 0 = beatLane beat l := by
    intro beat
    simp [lanesFromBeat, hl]
  rw [beatLane_value t hl, ← h, laneTotal, List.map_map]
  simp only [Function.comp_def, hlane, Multiset.map_coe, Multiset.sum_coe]

/-- Order and grouping do not matter: the trees over the same beats all have the
same value, and it is what `reduce_lanes` gives for the beats in any order. -/
theorem value_eq_reduceLanes (t : Tree) (hne : t.leaves ≠ 0) :
    (∀ t' : Tree, t'.leaves = t.leaves → t'.value = t.value) ∧
      ∀ beats : List (BitVec dataW), (beats : Multiset (BitVec dataW)) = t.leaves →
        reduceLanes (beats.map lanesFromBeat) = .ok (lanesFromBeat t.value) := by
  refine ⟨fun t' h => value_eq_of_leaves h, fun beats h => ?_⟩
  have hbeats : beats.map lanesFromBeat ≠ [] := by
    rintro hnil
    obtain rfl := List.map_eq_nil_iff.mp hnil
    exact hne h.symm
  have hlen : ∀ b ∈ beats.map lanesFromBeat, b.length = redLanes := by
    intro b hb
    obtain ⟨beat, -, rfl⟩ := List.mem_map.mp hb
    simp [lanesFromBeat]
  rw [reduceLanes_eq hbeats hlen, lanesFromBeat_value t h]

/-- Two beats in the slots of a four-port engine. -/
def pairTree (a b : BitVec dataW) (slot : Fin 2 → Fin 4) (distinct : Function.Injective slot) :
    Tree :=
  node 4 2 slot distinct 0 ![leaf a, leaf b]

theorem value_eq_reduceLanes_pair :
    (pairTree 1 2 ![3, 0] (by decide)).value = (pairTree 2 1 ![1, 2] (by decide)).value :=
  (value_eq_reduceLanes (pairTree 2 1 ![1, 2] (by decide))
    (by simp [pairTree, leaves, Fin.sum_univ_two])).1 _
    (by simp [pairTree, leaves, Fin.sum_univ_two, add_comm])

end Tree

end ReductionEngine
