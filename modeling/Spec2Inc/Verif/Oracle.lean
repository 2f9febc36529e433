import Mathlib.Algebra.BigOperators.Group.Finset.Basic
import Spec2Inc.Bits.Bus
import Spec2Inc.Rtl.ReductionEngine.Adder
import Spec2Inc.Verif.Reference

/-!
# The oracle of the engine's testbench

`tb_reduction_engine.py` packs the operands into the flat vector the engine
reads, and expects the reduction of the masked ones by the reference model. The
adder gives exactly that, in every lane the integer sum modulo `2 ^ 32`
(`sumC_eq_expectedBeat`). Both packings are buses, so reading a lane of the flat
vector gives back the lane that was packed.
-/

open Bits Spec2incPkg Reference Python

namespace ReductionEngine.Testbench

abbrev laneW : ℕ := 32

abbrev lanes : ℕ := dataW / laneW

def laneMax : ℕ := 1 <<< laneW - 1

/-- Pack lane values into one beat, lane 0 in the low bits. -/
def beatFromLanes (lanes : List ℕ) : ℕ :=
  bus laneW (lanes.zipIdx.map fun p => (p.2, p.1 &&& laneMax))

def lanesFromBeat (beat : ℕ) : List ℕ := (List.range lanes).map (busWord laneW beat)

/-- Pack the operands by slot into the flat `op_data` vector. -/
def packOperands (operands : Dict ℕ (List ℕ)) : ℕ :=
  bus dataW (operands.items.map fun p => (p.1, beatFromLanes p.2))

/-- The buffers `expected_beat` reduces: the masked operands, by slot. -/
def contributing (operands : Dict ℕ (List ℕ)) (mask : ℕ) : List Buffer :=
  ((operands.items.mergeSort fun p q => p.1 ≤ q.1).filter fun p => mask.testBit p.1).map
    fun p => p.2.map (BitVec.ofNat laneBits)

/-- Reduction of the masked operands, via the reference model. -/
def expectedBeat (operands : Dict ℕ (List ℕ)) (mask : ℕ) : Except Exception (List ℕ) := do
  let result ← reduceLanes (contributing operands mask)
  .ok (result.map BitVec.toNat)

/-- Operands for an engine of `nPorts` slots: whole beats of lanes that fit. -/
structure Operands (nPorts : ℕ) where
  bySlot : Dict ℕ (List ℕ)
  slot_lt : ∀ p ∈ bySlot.items, p.1 < nPorts
  length_eq : ∀ p ∈ bySlot.items, p.2.length = lanes
  lane_lt : ∀ p ∈ bySlot.items, ∀ x ∈ p.2, x < 2 ^ laneW

variable {nPorts : ℕ}

/-- What the testbench drives on `op_data`. -/
def Operands.opData (operands : Operands nPorts) : BitVec (nPorts * dataW) :=
  BitVec.ofNat _ (packOperands operands.bySlot)

/-- `sum_c` on the operands, under the mask the testbench drives. -/
def Operands.reduced (operands : Operands nPorts) (mask : ℕ) : BitVec dataW :=
  sumC (BitVec.ofNat nPorts mask) operands.opData

/-- The integer sum of lane `l` over the masked operands. -/
def Operands.integerSum (operands : Operands nPorts) (mask l : ℕ) : ℕ :=
  ((operands.bySlot.items.filter fun p => mask.testBit p.1).map fun p => p.2.getD l 0).sum

/-! ## Packing -/

theorem laneMax_and (x : ℕ) : x &&& laneMax = x % 2 ^ laneW := by
  rw [laneMax, Nat.one_shiftLeft, Nat.and_two_pow_sub_one_eq_mod]

theorem masked_lt (xs : List ℕ) :
    ∀ p ∈ xs.zipIdx.map (fun p => (p.2, p.1 &&& laneMax)), p.2 < 2 ^ laneW := by
  intro p hp
  obtain ⟨q, -, rfl⟩ := List.mem_map.mp hp
  rw [laneMax_and]
  exact Nat.mod_lt _ (Nat.two_pow_pos _)

theorem beatFromLanes_lt {xs : List ℕ} (h : xs.length ≤ lanes) :
    beatFromLanes xs < 2 ^ dataW := by
  refine bus_lt (n := lanes) (masked_lt xs) ?_
  intro p hp
  obtain ⟨q, hq, rfl⟩ := List.mem_map.mp hp
  have := List.snd_lt_of_mem_zipIdx hq
  omega

theorem busWord_beatFromLanes {xs : List ℕ} (hfit : ∀ x ∈ xs, x < 2 ^ laneW) (l : ℕ) :
    busWord laneW (beatFromLanes xs) l = xs.getD l 0 := by
  by_cases hl : l < xs.length
  · rw [List.getD_eq_getElem _ _ hl]
    refine busWord_bus_of_mem (masked_lt xs) ?_ ?_
    · rw [List.map_map]
      change (xs.zipIdx.map Prod.snd).Nodup
      rw [List.zipIdx_map_snd]
      exact List.nodup_range'
    · refine List.mem_map.mpr ⟨(xs[l], l), List.mk_mem_zipIdx_iff_getElem?.mpr (by simp [hl]), ?_⟩
      rw [laneMax_and, Nat.mod_eq_of_lt (hfit _ (List.getElem_mem hl))]
  · rw [List.getD_eq_default _ _ (Nat.le_of_not_lt hl)]
    refine busWord_bus_of_notMem (masked_lt xs) ?_
    rw [List.map_map]
    change l ∉ xs.zipIdx.map Prod.snd
    rw [List.zipIdx_map_snd]
    simpa using hl

variable (operands : Operands nPorts)

theorem Operands.beats_lt :
    ∀ p ∈ operands.bySlot.items.map (fun p => (p.1, beatFromLanes p.2)), p.2 < 2 ^ dataW := by
  intro p hp
  obtain ⟨q, hq, rfl⟩ := List.mem_map.mp hp
  exact beatFromLanes_lt (operands.length_eq q hq).le

/-- The packed operands fit the port. -/
theorem Operands.packOperands_lt : packOperands operands.bySlot < 2 ^ (nPorts * dataW) := by
  refine bus_lt operands.beats_lt ?_
  intro p hp
  obtain ⟨q, hq, rfl⟩ := List.mem_map.mp hp
  exact operands.slot_lt q hq

theorem Operands.busWord_packOperands (slot : ℕ) :
    busWord dataW (packOperands operands.bySlot) slot =
      beatFromLanes (operands.bySlot.getD slot []) := by
  have hkeys : (operands.bySlot.items.map fun p => (p.1, beatFromLanes p.2)).map Prod.fst =
      operands.bySlot.keys := by
    rw [List.map_map]
    rfl
  cases hget : operands.bySlot.get? slot with
  | some xs =>
      have hmem := (operands.bySlot.get?_eq_some_iff slot xs).mp hget
      rw [Dict.getD, hget]
      refine busWord_bus_of_mem operands.beats_lt ?_ (List.mem_map.mpr ⟨_, hmem, rfl⟩)
      rw [hkeys]
      exact operands.bySlot.nodup_keys
  | none =>
      rw [Dict.getD, hget]
      refine busWord_bus_of_notMem operands.beats_lt ?_
      rw [hkeys]
      exact (operands.bySlot.get?_eq_none_iff slot).mp hget

/-- Reading a lane of the flat vector gives back the lane that was packed. -/
theorem Operands.beatLane_operand_opData {slot : ℕ} (hslot : slot < nPorts) {l : ℕ}
    (hl : l < redLanes) :
    beatLane (operand operands.opData slot) l =
      BitVec.ofNat redLaneW ((operands.bySlot.getD slot []).getD l 0) := by
  have hfit : ∀ x ∈ operands.bySlot.getD slot [], x < 2 ^ laneW := by
    cases hget : operands.bySlot.get? slot with
    | some xs =>
        rw [Dict.getD, hget]
        exact operands.lane_lt _ ((operands.bySlot.get?_eq_some_iff slot xs).mp hget)
    | none =>
        rw [Dict.getD, hget]
        simp
  have hoperand : operand operands.opData slot =
      BitVec.ofNat dataW (beatFromLanes (operands.bySlot.getD slot [])) := by
    rw [← operands.busWord_packOperands slot]
    exact lane_ofNat _ (Nat.mul_le_mul_right dataW (Nat.succ_le_of_lt hslot))
  have hbound : (l + 1) * redLaneW ≤ dataW :=
    Nat.mul_le_mul_right redLaneW (Nat.succ_le_of_lt hl)
  rw [hoperand, beatLane, lane_ofNat _ hbound]
  exact congrArg (BitVec.ofNat redLaneW) (busWord_beatFromLanes hfit l)

/-! ## The two sums -/

/-- The operands in the masked slots. -/
def Operands.masked (mask : ℕ) : List (ℕ × List ℕ) :=
  operands.bySlot.items.filter fun p => mask.testBit p.1

theorem ofNat_sum (w : ℕ) (xs : List ℕ) :
    (xs.map (BitVec.ofNat w)).sum = BitVec.ofNat w xs.sum := by
  induction xs with
  | nil => rfl
  | cons x xs ih => rw [List.map_cons, List.sum_cons, List.sum_cons, ih, BitVec.ofNat_add]

theorem Operands.maskedSlots_eq (mask : ℕ) :
    maskedSlots (BitVec.ofNat nPorts mask) =
      (Finset.range nPorts).filter fun p => mask.testBit p = true := by
  refine Finset.filter_congr fun p hp => ?_
  have hlt : p < nPorts := Finset.mem_range.mp hp
  rw [BitVec.getLsbD_ofNat, decide_eq_true hlt, Bool.true_and]

/-- A sum over the masked slots is one over the masked operands, when it counts
nothing for a slot with no operand. -/
theorem Operands.sum_masked (mask : ℕ) {f : ℕ → BitVec redLaneW}
    (hf : ∀ p, p ∉ operands.bySlot → f p = 0) :
    ∑ p ∈ (Finset.range nPorts).filter (fun p => mask.testBit p = true), f p =
      ((operands.masked mask).map fun q => f q.1).sum := by
  have hnodup : ((operands.masked mask).map Prod.fst).Nodup :=
    operands.bySlot.nodup_keys.sublist (List.filter_sublist.map Prod.fst)
  have hsub : ((operands.masked mask).map Prod.fst).toFinset ⊆
      (Finset.range nPorts).filter fun p => mask.testBit p = true := by
    intro p hp
    obtain ⟨q, hq, rfl⟩ := List.mem_map.mp (List.mem_toFinset.mp hp)
    obtain ⟨hmem, hbit⟩ := List.mem_filter.mp hq
    exact Finset.mem_filter.mpr ⟨Finset.mem_range.mpr (operands.slot_lt q hmem), hbit⟩
  rw [← Finset.sum_subset hsub, List.sum_toFinset _ hnodup, List.map_map]
  · rfl
  · intro p hp hout
    refine hf p fun hin => hout ?_
    obtain ⟨q, hq, rfl⟩ := List.mem_map.mp hin
    exact List.mem_toFinset.mpr
      (List.mem_map_of_mem (List.mem_filter.mpr ⟨hq, (Finset.mem_filter.mp hp).2⟩))

/-- A lane of the adder is the integer sum of that lane over the masked
operands, modulo `2 ^ 32`: the masked slots with no operand are zero. -/
theorem Operands.beatLane_reduced (mask : ℕ) {l : ℕ} (hl : l < redLanes) :
    beatLane (operands.reduced mask) l =
      BitVec.ofNat redLaneW (operands.integerSum mask l) := by
  have hzero : ∀ p, p ∉ operands.bySlot →
      BitVec.ofNat redLaneW ((operands.bySlot.getD p []).getD l 0) = 0 := by
    intro p hp
    rw [Dict.getD_of_notMem hp]
    rfl
  calc beatLane (operands.reduced mask) l
      = ∑ p ∈ (Finset.range nPorts).filter (fun p => mask.testBit p = true),
          beatLane (operand operands.opData p) l := by
        rw [Operands.reduced, beatLane_sumC _ _ hl, Operands.maskedSlots_eq]
    _ = ∑ p ∈ (Finset.range nPorts).filter (fun p => mask.testBit p = true),
          BitVec.ofNat redLaneW ((operands.bySlot.getD p []).getD l 0) := by
        refine Finset.sum_congr rfl fun p hp => ?_
        exact operands.beatLane_operand_opData
          (Finset.mem_range.mp (Finset.mem_filter.mp hp).1) hl
    _ = ((operands.masked mask).map fun q =>
          BitVec.ofNat redLaneW ((operands.bySlot.getD q.1 []).getD l 0)).sum :=
        operands.sum_masked mask hzero
    _ = BitVec.ofNat redLaneW (operands.integerSum mask l) := by
        rw [Operands.integerSum, ← ofNat_sum, List.map_map]
        refine congrArg List.sum (List.map_congr_left fun q hq => ?_)
        have hmem := (List.mem_filter.mp hq).1
        simp only [Function.comp_apply, Dict.getD_of_mem_items hmem]

theorem Operands.length_contributing (mask : ℕ) :
    ∀ b ∈ contributing operands.bySlot mask, b.length = lanes := by
  intro b hb
  obtain ⟨p, hp, rfl⟩ := List.mem_map.mp hb
  have hmem := List.mem_mergeSort.mp (List.mem_filter.mp hp).1
  rw [List.length_map, operands.length_eq p hmem]

/-- Sorting by slot does not change the sums. -/
theorem Operands.sum_contributing (mask l : ℕ) :
    ((contributing operands.bySlot mask).map fun b => b.getD l 0).sum =
      BitVec.ofNat laneBits (operands.integerSum mask l) := by
  have hperm := ((List.mergeSort_perm operands.bySlot.items fun p q => p.1 ≤ q.1).filter
    fun p => mask.testBit p.1).map fun p => (p.2.map (BitVec.ofNat laneBits)).getD l 0
  rw [contributing, List.map_map, Operands.integerSum, ← ofNat_sum, List.map_map]
  refine hperm.sum_eq.trans (congrArg List.sum (List.map_congr_left fun p _ => ?_))
  exact List.getD_map (l := p.2) (d := 0) (n := l) (BitVec.ofNat laneBits)

theorem Operands.contributing_ne_nil {mask : ℕ}
    (h : ∃ slot ∈ operands.bySlot, mask.testBit slot = true) :
    contributing operands.bySlot mask ≠ [] := by
  obtain ⟨slot, hslot, hbit⟩ := h
  obtain ⟨p, hp, rfl⟩ := List.mem_map.mp hslot
  have hmem : p ∈ (operands.bySlot.items.mergeSort fun p q => p.1 ≤ q.1).filter
      fun p => mask.testBit p.1 :=
    List.mem_filter.mpr ⟨List.mem_mergeSort.mpr hp, hbit⟩
  exact List.ne_nil_of_mem (List.mem_map_of_mem hmem)

/-- The oracle's answer, lane by lane. -/
theorem Operands.expectedBeat_eq {mask : ℕ}
    (h : ∃ slot ∈ operands.bySlot, mask.testBit slot = true) :
    expectedBeat operands.bySlot mask =
      .ok ((List.range lanes).map fun l => operands.integerSum mask l % 2 ^ laneW) := by
  rw [expectedBeat, reduceLanes_eq (operands.contributing_ne_nil h)
    (operands.length_contributing mask)]
  refine congrArg Except.ok ?_
  rw [laneSum, List.map_map]
  refine List.map_congr_left fun l _ => ?_
  rw [Function.comp_apply, operands.sum_contributing mask l, BitVec.toNat_ofNat]

/-- The lanes the testbench reads off the adder. -/
theorem Operands.lanesFromBeat_reduced (mask : ℕ) :
    lanesFromBeat (operands.reduced mask).toNat =
      (List.range lanes).map fun l => operands.integerSum mask l % 2 ^ laneW := by
  refine List.map_congr_left fun l hl => ?_
  have hlane := operands.beatLane_reduced mask (List.mem_range.mp hl)
  rw [← BitVec.toNat_ofNat, ← hlane]
  exact (toNat_lane laneW _ l).symm

/-- After each pass the accumulator holds values below `2 ^ 32`. -/
theorem accumulator_lt (bufs : List Buffer) (n : ℕ) :
    ∀ a ∈ bufs.foldl accumulate (List.replicate n 0), a.toNat < 2 ^ laneBits := by
  induction bufs using List.reverseRecOn with
  | nil =>
      intro a ha
      rw [List.eq_of_mem_replicate ha]
      exact Nat.two_pow_pos _
  | append_singleton bufs buf ih =>
      intro a ha
      rw [List.foldl_append, List.foldl_cons, List.foldl_nil, accumulate,
        ← List.map_uncurry_zip_eq_zipWith] at ha
      obtain ⟨p, -, rfl⟩ := List.mem_map.mp ha
      have hmask : laneMask.toNat < 2 ^ laneBits := by decide
      exact (Nat.and_le_right.trans_lt hmask : (p.1 + p.2.setWidth 64).toNat &&& _ < _)

/-- So the next add stays below `2 ^ 33`, and does not wrap at 64 bits. -/
theorem accumulator_add_lt (bufs : List Buffer) (n : ℕ) (buf : Buffer) (l : ℕ) :
    let acc := (bufs.foldl accumulate (List.replicate n 0)).getD l 0
    let x := buf.getD l 0
    (acc + x.setWidth 64).toNat = acc.toNat + x.toNat ∧ acc.toNat + x.toNat < 2 ^ 33 := by
  intro acc x
  have hacc : acc.toNat < 2 ^ laneBits := by
    by_cases hl : l < (bufs.foldl accumulate (List.replicate n 0)).length
    · have heq : acc = (bufs.foldl accumulate (List.replicate n 0))[l] :=
        List.getD_eq_getElem _ _ hl
      rw [heq]
      exact accumulator_lt bufs n _ (List.getElem_mem hl)
    · have heq : acc = 0 := List.getD_eq_default _ _ (Nat.le_of_not_lt hl)
      rw [heq]
      exact Nat.two_pow_pos _
  have hx : x.toNat < 2 ^ laneBits := x.isLt
  have hsum : acc.toNat + x.toNat < 2 ^ 33 := by
    simp only [laneBits] at hacc hx
    omega
  refine ⟨?_, hsum⟩
  rw [BitVec.toNat_add, BitVec.toNat_setWidth, Nat.mod_eq_of_lt (by omega : x.toNat < 2 ^ 64),
    Nat.mod_eq_of_lt (by omega)]

/-- The adder is the oracle, bit for bit: both are the integer sum over the
masked operands in every lane, modulo `2 ^ 32`. In the adder no statement
touches a lane other than its own, and in the oracle no addition wraps. -/
theorem sumC_eq_expectedBeat (operands : Operands nPorts) {mask : ℕ}
    (h : ∃ slot ∈ operands.bySlot, mask.testBit slot = true) :
    operands.opData.toNat = packOperands operands.bySlot ∧
      expectedBeat operands.bySlot mask =
        .ok (lanesFromBeat (sumC (BitVec.ofNat nPorts mask) operands.opData).toNat) ∧
      lanesFromBeat (sumC (BitVec.ofNat nPorts mask) operands.opData).toNat =
        (List.range lanes).map (fun l => operands.integerSum mask l % 2 ^ laneW) ∧
      (∀ sum slot k l, k ≠ l → k < redLanes →
        beatLane (addLane operands.opData slot sum l) k = beatLane sum k) ∧
      ∀ pre buf post, contributing operands.bySlot mask = pre ++ buf :: post → ∀ l,
        let acc := (pre.foldl accumulate (List.replicate lanes 0)).getD l 0
        let x := buf.getD l 0
        (acc + x.setWidth 64).toNat = acc.toNat + x.toNat ∧ acc.toNat + x.toNat < 2 ^ 33 := by
  have hlanes := operands.lanesFromBeat_reduced mask
  refine ⟨?_, ?_, hlanes, ?_, ?_⟩
  · rw [Operands.opData, BitVec.toNat_ofNat, Nat.mod_eq_of_lt operands.packOperands_lt]
  · rw [operands.expectedBeat_eq h, ← hlanes]
    rfl
  · intro sum slot k l hne hk
    exact beatLane_addLane_of_ne _ slot sum hne hk
  · intro pre buf _ _ l
    exact accumulator_add_lt pre lanes buf l

/-- Two slots, set out of order, whose sum wraps in every lane. -/
def wrappingOperands : Operands 2 where
  bySlot := ⟨[(1, List.replicate 8 2), (0, List.replicate 8 (2 ^ 32 - 1))], by decide⟩
  slot_lt := by decide
  length_eq := by decide
  lane_lt := by decide

theorem sumC_eq_expectedBeat_wrapping :
    lanesFromBeat (sumC (BitVec.ofNat 2 3) wrappingOperands.opData).toNat =
      List.replicate 8 1 :=
  (sumC_eq_expectedBeat wrappingOperands ⟨0, by decide, by decide⟩).2.2.1.trans (by decide)

end ReductionEngine.Testbench
