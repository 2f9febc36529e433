import Spec2Inc.Clocked.Pipeline
import Spec2Inc.Rtl.ReductionEngine.Adder

/-!
# The registers of `reduction_engine`

The module as the RTL writes it: three register arrays `vld_q`, `data_q` and
`id_q`, the outputs read from their last stage, and one clocked process that
clears them, shifts them, or freezes them while a finished result waits.

`slots` reads the three arrays together, as one pipeline of optional
(data, id) tokens. That reading is a simulation (`simulates_pipeline`), so what
`Clocked/Pipeline.lean` proves about whole runs holds of the module.
-/

open Bits Clocked Spec2incPkg

namespace ReductionEngine

/-- The elaboration parameters, with the bounds the module states for them. -/
structure Params where
  nPorts : ℕ
  redLatency : ℕ
  nPorts_pos : 1 ≤ nPorts
  redLatency_pos : 1 ≤ redLatency

instance (P : Params) : NeZero P.redLatency :=
  ⟨by have := P.redLatency_pos; omega⟩

set_option maxRecDepth 2000 in
/-- The input ports in one clock cycle. -/
structure Inputs (P : Params) where
  rstN : Bool
  opValid : Bool
  opMask : BitVec P.nPorts
  opData : BitVec (P.nPorts * dataW)
  opId : BitVec tagW
  resReady : Bool

/-- The pipeline registers; stage `redLatency - 1` drives the outputs. -/
structure Regs (P : Params) where
  vldQ : Vector Bool P.redLatency
  dataQ : Vector (BitVec dataW) P.redLatency
  idQ : Vector (BitVec tagW) P.redLatency

/-- A finished or moving operation: its data and its id. -/
abbrev Token : Type := BitVec dataW × BitVec tagW

/-- Stage `s` takes the old value of stage `s - 1`, and stage zero takes `x`. -/
def shiftIn {L : ℕ} {β : Type*} (q : Vector β L) (x : β) : Vector β L :=
  Vector.ofFn fun s => if s.val = 0 then x else q.get ⟨s.val - 1, Pipeline.sub_one_lt s⟩

theorem get_shiftIn {L : ℕ} {β : Type*} (q : Vector β L) (x : β) (s : Fin L) :
    (shiftIn q x).get s = if s.val = 0 then x else q.get ⟨s.val - 1, Pipeline.sub_one_lt s⟩ := by
  change (shiftIn q x)[s.val] = _
  rw [shiftIn, Vector.getElem_ofFn]

variable {P : Params}

def resValid (q : Regs P) : Bool := q.vldQ.get Pipeline.last

def resData (q : Regs P) : BitVec dataW := q.dataQ.get Pipeline.last

def resId (q : Regs P) : BitVec tagW := q.idQ.get Pipeline.last

def stall (q : Regs P) (i : Inputs P) : Bool := resValid q && !i.resReady

def opReady (q : Regs P) (i : Inputs P) : Bool := !stall q i

/-- The value reset gives every register. -/
def Regs.cleared (P : Params) : Regs P where
  vldQ := Vector.replicate P.redLatency false
  dataQ := Vector.replicate P.redLatency 0
  idQ := Vector.replicate P.redLatency 0

/-- The clocked process. -/
def alwaysFf (q : Regs P) (i : Inputs P) : Regs P :=
  if !i.rstN then
    Regs.cleared P
  else if !stall q i then
    { vldQ := shiftIn q.vldQ i.opValid
      dataQ := shiftIn q.dataQ (sumC i.opMask i.opData)
      idQ := shiftIn q.idQ i.opId }
  else
    q

/-- `reduction_engine` as a clocked machine. -/
def engine (P : Params) : Machine (Regs P) (Inputs P) where
  rstN := Inputs.rstN
  clear _ := Regs.cleared P
  edge := alwaysFf

/-! ## The registers as a pipeline of tokens -/

/-- The tokens of the stages, absent where the valid bit is clear. -/
def slots (q : Regs P) : Fin P.redLatency → Option Token :=
  fun s => if q.vldQ.get s then some (q.dataQ.get s, q.idQ.get s) else none

/-- The operand set offered in a cycle, already reduced. -/
def operandSet (i : Inputs P) : Token :=
  (maskedLaneSum i.opMask i.opData, i.opId)

/-- What the ports mean to the pipeline. -/
def ports (i : Inputs P) : Pipeline.Input Token where
  rstN := i.rstN
  enter := if i.opValid then some (operandSet i) else none
  ready := i.resReady

theorem slots_cleared : slots (Regs.cleared P) = Pipeline.empty := by
  funext s
  simp [slots, Regs.cleared, Pipeline.empty, Vector.get]

theorem out_slots (q : Regs P) :
    Pipeline.out (slots q) =
      if resValid q then some (resData q, resId q) else none := rfl

theorem out_slots_isSome (q : Regs P) :
    (Pipeline.out (slots q)).isSome = resValid q := by
  rw [out_slots]
  cases resValid q <;> rfl

theorem stalled_slots (q : Regs P) (i : Inputs P) :
    Pipeline.stalled (slots q) (ports i) = stall q i := by
  rw [Pipeline.stalled, out_slots_isSome]
  rfl

theorem slots_shiftIn (q : Regs P) (i : Inputs P) :
    slots { vldQ := shiftIn q.vldQ i.opValid
            dataQ := shiftIn q.dataQ (sumC i.opMask i.opData)
            idQ := shiftIn q.idQ i.opId } =
      Pipeline.shift (slots q) (ports i).enter := by
  funext s
  simp only [slots, get_shiftIn, Pipeline.shift]
  by_cases hs : s.val = 0
  · simp [hs, ports, operandSet, sumC_eq_maskedLaneSum]
  · simp [hs]

theorem slots_alwaysFf (q : Regs P) (i : Inputs P) :
    slots (alwaysFf q i) =
      (Pipeline.machine P.redLatency Token).edge (slots q) (ports i) := by
  cases hrst : i.rstN with
  | false =>
      rw [Pipeline.edge_of_low (by simpa [ports] using hrst)]
      simp [alwaysFf, hrst, slots_cleared]
  | true =>
      have hhigh : (ports i).rstN = true := by simpa [ports] using hrst
      cases hs : stall q i with
      | true =>
          rw [Pipeline.edge_of_stalled hhigh (by rw [stalled_slots, hs])]
          simp [alwaysFf, hrst, hs]
      | false =>
          rw [Pipeline.edge_of_free hhigh (by rw [stalled_slots, hs]), ← slots_shiftIn]
          simp [alwaysFf, hrst, hs]

/-- The register file simulates the pipeline of tokens. -/
theorem simulates_pipeline (P : Params) :
    Simulates (engine P) (Pipeline.machine P.redLatency Token) slots ports where
  rstN _ := rfl
  clear _ := slots_cleared
  edge := slots_alwaysFf

/-- The settled registers of cycle `t`, in a run that starts from reset. -/
def regsAt (inp : ℕ → Inputs P) (t : ℕ) : Regs P :=
  (engine P).at' (Regs.cleared P) inp t

theorem slots_regsAt (inp : ℕ → Inputs P) (t : ℕ) :
    slots (regsAt inp t) =
      (Pipeline.machine P.redLatency Token).at' Pipeline.empty
        (fun k => ports (inp k)) t := by
  rw [regsAt, (simulates_pipeline P).at', slots_cleared]

end ReductionEngine
