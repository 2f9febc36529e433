import Mathlib.Algebra.BigOperators.Intervals
import Spec2Inc.Bits.Slice
import Spec2Inc.Rtl.Package

/-!
# The adder of `reduction_engine`

`sumC` is the combinational adder as the RTL writes it: two nested loops that
update 32-bit part selects of one 256-bit vector in place, reading the operands
at computed offsets of the flat `op_data`. `maskedLaneSum` says what it is for,
with no loop and no offset arithmetic: lane `l` of the result is the sum, modulo
`2 ^ 32`, of lane `l` of the operands in the masked slots. They are equal
(`sumC_eq_maskedLaneSum`).
-/

open Bits Spec2incPkg

namespace ReductionEngine

/-- `sum_c`: the slots are visited in order, and each masked one is added lane
by lane into the running sum. -/
def sumC {n : ℕ} (opMask : BitVec n) (opData : BitVec (n * dataW)) : BitVec dataW :=
  (List.range n).foldl (fun sum p =>
    if opMask.getLsbD p then
      (List.range redLanes).foldl (fun sum l =>
        assign sum (l * redLaneW)
          (slice sum (l * redLaneW) redLaneW +
            slice opData (p * dataW + l * redLaneW) redLaneW)) sum
    else sum) 0

/-- The innermost statement of the loops: lane `l` of slot `p` is added in place. -/
def addLane {n : ℕ} (opData : BitVec (n * dataW)) (p : ℕ) (sum : BitVec dataW) (l : ℕ) :
    BitVec dataW :=
  assign sum (l * redLaneW)
    (slice sum (l * redLaneW) redLaneW + slice opData (p * dataW + l * redLaneW) redLaneW)

/-- The beat in slot `p` of the flat operand vector. -/
def operand {n : ℕ} (opData : BitVec (n * dataW)) (p : ℕ) : BitVec dataW :=
  slice opData (p * dataW) dataW

/-- Lane `l` of a beat. -/
def beatLane (beat : BitVec dataW) (l : ℕ) : BitVec redLaneW :=
  lane redLaneW beat l

/-- The slots whose mask bit is set. -/
def maskedSlots {n : ℕ} (opMask : BitVec n) : Finset ℕ :=
  (Finset.range n).filter fun p => opMask.getLsbD p

/-- The lane-wise sum of the operands in the masked slots. -/
def maskedLaneSum {n : ℕ} (opMask : BitVec n) (opData : BitVec (n * dataW)) :
    BitVec dataW :=
  ofLanes redLanes fun l =>
    ∑ p ∈ maskedSlots opMask, beatLane (operand opData p) l

theorem beatLane_operand {n : ℕ} (opData : BitVec (n * dataW)) (p : ℕ) {l : ℕ}
    (hl : l < redLanes) :
    beatLane (operand opData p) l =
      slice opData (p * dataW + l * redLaneW) redLaneW := by
  apply BitVec.eq_of_getLsbD_eq
  intro i hi
  have hbit : l * redLaneW + i < dataW := by
    have : l < 8 := hl
    simp only [redLaneW, dataW] at hi ⊢
    omega
  simp only [beatLane, lane, operand, getLsbD_slice, hi, hbit, decide_true, Bool.true_and,
    Nat.add_assoc]

/-- Beats are equal when their lanes are. -/
theorem eq_of_beatLane {a b : BitVec dataW}
    (h : ∀ l < redLanes, beatLane a l = beatLane b l) : a = b :=
  eq_of_lanes (L := redLanes) h

theorem beatLane_maskedLaneSum {n : ℕ} (opMask : BitVec n)
    (opData : BitVec (n * dataW)) {l : ℕ} (hl : l < redLanes) :
    beatLane (maskedLaneSum opMask opData) l =
      ∑ p ∈ maskedSlots opMask, beatLane (operand opData p) l :=
  lane_ofLanes (fun l => ∑ p ∈ maskedSlots opMask, beatLane (operand opData p) l) hl

/-- The inner loop adds one operand lane by lane. -/
theorem beatLane_addOperand {n : ℕ} (opData : BitVec (n * dataW)) (p : ℕ)
    (sum : BitVec dataW) {l : ℕ} (hl : l < redLanes) :
    beatLane ((List.range redLanes).foldl (fun sum l =>
        assign sum (l * redLaneW)
          (slice sum (l * redLaneW) redLaneW +
            slice opData (p * dataW + l * redLaneW) redLaneW)) sum) l =
      beatLane sum l + beatLane (operand opData p) l := by
  have hbound : (l + 1) * redLaneW ≤ dataW :=
    Nat.mul_le_mul_right redLaneW (Nat.succ_le_of_lt hl)
  have h := lane_foldl_assign
    (fun l old => old + slice opData (p * dataW + l * redLaneW) redLaneW)
    sum (L := redLanes) le_rfl hbound
  rw [if_pos hl] at h
  rw [beatLane_operand opData p hl]
  exact h

/-- The loops over the slots, stopped after the first `k` of them. -/
theorem beatLane_foldl_slots {n : ℕ} (opMask : BitVec n)
    (opData : BitVec (n * dataW)) (k : ℕ) {l : ℕ} (hl : l < redLanes) :
    beatLane ((List.range k).foldl (fun sum p =>
        if opMask.getLsbD p then
          (List.range redLanes).foldl (fun sum l =>
            assign sum (l * redLaneW)
              (slice sum (l * redLaneW) redLaneW +
                slice opData (p * dataW + l * redLaneW) redLaneW)) sum
        else sum) 0) l =
      ∑ p ∈ (Finset.range k).filter (fun p => opMask.getLsbD p),
        beatLane (operand opData p) l := by
  induction k with
  | zero =>
      simp [beatLane, lane, slice]
  | succ k ih =>
      rw [List.range_succ, List.foldl_append, List.foldl_cons, List.foldl_nil,
        Finset.sum_filter, Finset.sum_range_succ, ← Finset.sum_filter]
      by_cases hk : opMask.getLsbD k = true
      · rw [if_pos hk, if_pos hk, beatLane_addOperand opData k _ hl, ih]
      · rw [if_neg hk, if_neg hk, ih, add_zero]

theorem beatLane_sumC {n : ℕ} (opMask : BitVec n) (opData : BitVec (n * dataW))
    {l : ℕ} (hl : l < redLanes) :
    beatLane (sumC opMask opData) l =
      ∑ p ∈ maskedSlots opMask, beatLane (operand opData p) l :=
  beatLane_foldl_slots opMask opData n hl

/-- A carry out of lane `l` is discarded: the other lanes keep their values. -/
theorem beatLane_addLane_of_ne {n : ℕ} (opData : BitVec (n * dataW)) (p : ℕ)
    (sum : BitVec dataW) {k l : ℕ} (hne : k ≠ l) (hk : k < redLanes) :
    beatLane (addLane opData p sum l) k = beatLane sum k :=
  lane_assign_of_ne sum _ hne (Nat.mul_le_mul_right redLaneW (Nat.succ_le_of_lt hk))

/-- The in-place adder computes the lane-wise sum of the masked operands. -/
theorem sumC_eq_maskedLaneSum {n : ℕ} (opMask : BitVec n)
    (opData : BitVec (n * dataW)) :
    sumC opMask opData = maskedLaneSum opMask opData := by
  apply eq_of_beatLane
  intro l hl
  rw [beatLane_sumC opMask opData hl, beatLane_maskedLaneSum opMask opData hl]

end ReductionEngine
