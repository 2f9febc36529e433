import Spec2Inc.Clocked.Bench
import Spec2Inc.Python.Random
import Spec2Inc.Python.Str
import Spec2Inc.Rtl.ReductionEngine.Registers
import Spec2Inc.Verif.Oracle

/-!
# The testbench of `reduction_engine`

The nine tests of `tb_reduction_engine.py` as programs over any design with the
module's ports. Every drive and every sample falls just after a falling edge, so
a program is a sequence of drives, rising edges and samples. A value that does
not fit its port is refused with an exception. The random numbers of a test come
from streams of draws.
-/

open Clocked Clocked.Bench Python Spec2incPkg

namespace ReductionEngine.Testbench

/-- A design under test. An output may read as `X` or `Z`. -/
structure Dut (P : Params) where
  σ : Type
  machine : Machine σ (Inputs P)
  opReady : σ → Inputs P → Option ℕ
  resValid : σ → Inputs P → Option ℕ
  resData : σ → Inputs P → Option ℕ
  resId : σ → Inputs P → Option ℕ

variable {P : Params} (D : Dut P)

/-- A program of the testbench. -/
abbrev Tb (D : Dut P) : Type → Type := Bench Exception D.σ (Inputs P)

/-- Assigning a value to a port of `width` bits. -/
def fitPort (width value : ℕ) : Except Exception Unit :=
  if value < 2 ^ width then .ok ()
  else .error (.valueError
    s!"Int value ({value}) out of range for assignment of {width}-bit signal")

/-- `int(signal.value)`. -/
def intValue : Option ℕ → Except Exception ℕ
  | some n => .ok n
  | none => .error (.valueError "Cannot convert to int: contains X or Z")

/-- `rng.randint(lo, hi)`. -/
def randintFrom (lo hi draw : ℕ) : Except Exception ℕ :=
  if hi < lo then .error (.valueError s!"empty range in randrange({lo}, {hi + 1})")
  else .ok (lo + draw % (hi - lo + 1))

/-- `reset`, which is all that `start` does besides starting the clock. -/
def start : Tb D Unit := do
  drive D.machine fun _ => ⟨false, false, 0, 0, 0, true⟩
  ticks D.machine 3
  drive D.machine fun i => { i with rstN := true }
  tick D.machine

/-- Put an operand set on the port. -/
def present (mask : ℕ) (operands : Dict ℕ (List ℕ)) (opId : ℕ) (i : Inputs P) : Inputs P :=
  { i with
    opMask := .ofNat _ mask
    opData := .ofNat _ (packOperands operands)
    opId := .ofNat _ opId
    opValid := true }

/-- Drive an operand set, which must fit. -/
def driveOp (mask : ℕ) (operands : Dict ℕ (List ℕ)) (opId : ℕ) : Tb D Unit := do
  lift (fitPort P.nPorts mask)
  lift (fitPort (P.nPorts * dataW) (packOperands operands))
  lift (fitPort tagW opId)
  drive D.machine (present mask operands opId)

/-- Present one operand set, and leave just after it has been accepted. -/
def sendOp (mask : ℕ) (operands : Dict ℕ (List ℕ)) (opId : ℕ) : Tb D Unit := do
  let ready ← sample D.opReady
  lift (assertThat (ready = some 1) "op_ready low with res_ready high")
  driveOp D mask operands opId
  tick D.machine
  drive D.machine fun i => { i with opValid := false }

/-- The loop of `await_result`, with `fuel` passes to go. -/
def awaitResultFrom (limit : ℕ) : ℕ → ℕ → Tb D (ℕ × ℕ × ℕ)
  | 0, _ => lift (.error (.assertionError s!"no result within {limit} cycles"))
  | fuel + 1, elapsed => do
    let valid ← sample D.resValid
    if valid = some 1 then
      let data ← sample D.resData
      let data ← lift (intValue data)
      let id ← sample D.resId
      let id ← lift (intValue id)
      pure (elapsed, data, id)
    else
      tick D.machine
      awaitResultFrom limit fuel (elapsed + 1)

/-- Cycles elapsed since acceptance, the result and its id. -/
def awaitResult (limit : ℕ) : Tb D (ℕ × ℕ × ℕ) := awaitResultFrom D limit limit 1

/-- `await_result(dut)`, with the default limit. -/
def awaitLimit : ℕ := 64

/-- `random_operands(rng, slots)`. -/
def randomOperands (draws : ℕ → ℕ → ℕ) (slots : List ℕ) : Dict ℕ (List ℕ) :=
  Dict.ofList (slots.map fun s =>
    (s, (List.range lanes).map fun l => draws s l % 2 ^ laneW))

/-- `sum(1 << s for s in slots)`. -/
def maskOf (slots : List ℕ) : ℕ := (slots.map fun s => 1 <<< s).sum

/-- The draws of one pass through a loop. -/
structure Draws where
  nSet : ℕ
  slots : ℕ → ℕ
  operands : ℕ → ℕ → ℕ
  opId : ℕ

/-! ## The tests -/

section Tests

variable (rng : ℕ → Draws)

/-- Send one operand set and wait for its result. -/
def transact (mask : ℕ) (operands : Dict ℕ (List ℕ)) (opId : ℕ) : Tb D (ℕ × ℕ × ℕ) := do
  sendOp D mask operands opId
  awaitResult D awaitLimit

def reducesToReference : Tb D Unit := do
  start D
  forM (List.range 24) fun trial => do
    let nSet ← lift (randintFrom 2 P.nPorts (rng trial).nSet)
    let slots := sampleOf (rng trial).slots nSet (List.range P.nPorts)
    let mask := maskOf slots
    let operands := randomOperands (rng trial).operands (List.range P.nPorts)
    let r ← transact D mask operands ((rng trial).opId % 256)
    let got := lanesFromBeat r.2.1
    let want ← lift (expectedBeat operands mask)
    lift (assertThat (got = want)
      (s!"trial {trial}: mask={hex mask} n_set={nSet}\n" ++
        s!"  got  {got}\n  want {want}"))

/-- The operands of the next test. -/
def loudOperands (maskSlots : List ℕ) (nPorts : ℕ) : Dict ℕ (List ℕ) :=
  (List.range nPorts).foldl (fun operands s =>
      if s ∈ maskSlots then operands else operands.set s (List.replicate lanes 0xDEADBEEF))
    (Dict.ofList (maskSlots.map fun s => (s, List.replicate lanes 1)))

def unmaskedOperandsAreIgnored : Tb D Unit := do
  start D
  let maskSlots := [0, 1]
  let mask := maskOf maskSlots
  let r ← transact D mask (loudOperands maskSlots P.nPorts) 0x11
  let got := lanesFromBeat r.2.1
  lift (assertThat (got = List.replicate lanes 2)
    s!"unmasked operands leaked into the result: {got}")

def latencyIsExactlyRedLatency : Tb D Unit := do
  start D
  forM (List.range 8) fun k => do
    let operands := randomOperands (rng k).operands (List.range P.nPorts)
    let r ← transact D 0b11 operands 0x22
    lift (assertThat (r.1 = P.redLatency)
      s!"latency {r.1}, expected RED_LATENCY={P.redLatency}")

def idIsCarriedThrough : Tb D Unit := do
  start D
  forM [0x00, 0x01, 0x5A, 0xA5, 0xFF].zipIdx fun p => do
    let opId := p.1
    let operands := randomOperands (rng p.2).operands (List.range P.nPorts)
    let r ← transact D 0b11 operands opId
    lift (assertThat (r.2.2 = opId) s!"res_id {hex r.2.2}, expected {hex opId}")

def singleMemberIsPassthrough : Tb D Unit := do
  start D
  forM [0, 1, P.nPorts / 2, P.nPorts - 1].zipIdx fun p => do
    let slot := p.1
    let operands := randomOperands (rng p.2).operands (List.range P.nPorts)
    let r ← transact D (1 <<< slot) operands (slot &&& 0xFF)
    let want ← lift (index operands slot)
    lift (assertThat (lanesFromBeat r.2.1 = want) s!"slot {slot} not passed through unchanged")

/-- `{s: [0] * LANES for s in range(N_PORTS)}`. -/
def zeros (nPorts : ℕ) : Dict ℕ (List ℕ) :=
  Dict.ofList ((List.range nPorts).map fun s => (s, List.replicate lanes 0))

/-- One in the even lanes. -/
def evenOnes : List ℕ := (List.range lanes).map fun i => if i % 2 = 0 then 1 else 0

def lanesWrapIndependently : Tb D Unit := do
  start D
  let operands := ((zeros P.nPorts).set 0 (List.replicate lanes laneMax)).set 1 evenOnes
  let r ← transact D 0b11 operands 0x33
  let got := lanesFromBeat r.2.1
  let want := (List.range lanes).map fun i => if i % 2 = 0 then 0 else laneMax
  lift (assertThat (got = want) s!"lane wrap wrong:\n  got  {got}\n  want {want}")

/-- The operands of a placement: the values in its slots, and zeros elsewhere. -/
def placed (values : List (List ℕ)) (placement : List ℕ) (nPorts : ℕ) : Dict ℕ (List ℕ) :=
  (values.zip placement).foldl (fun operands p => operands.set p.2 p.1) (zeros nPorts)

def resultIsIndependentOfSlotPlacement : Tb D Unit := do
  start D
  let values := (List.range 4).map fun v =>
    (List.range lanes).map fun l => (rng 0).operands v l % 2 ^ laneW
  let run := fun placement => do
    let r ← transact D (maskOf placement) (placed values placement P.nPorts) 0x44
    pure (lanesFromBeat r.2.1)
  let first ← run [0, 1, 2, 3]
  let second ← run [P.nPorts - 1, 0, P.nPorts / 2, 1]
  lift (assertThat (first = second)
    s!"slot placement changed the result:\n  {first}\n  {second}")
  let want ← lift (expectedBeat (Dict.ofList (values.zipIdx.map fun p => (p.2, p.1))) 0b1111)
  lift (assertThat (first = want)
    "placement-independent result still disagrees with the reference")

/-- The checks made in each stalled cycle of the next test. -/
def checkStalled (want : List ℕ) : Tb D Unit := do
  tick D.machine
  let valid ← sample D.resValid
  lift (assertThat (valid = some 1) "res_valid dropped before acceptance")
  let data ← sample D.resData
  let data ← lift (intValue data)
  lift (assertThat (lanesFromBeat data = want) "res_data changed while stalled")
  let id ← sample D.resId
  let id ← lift (intValue id)
  lift (assertThat (id = 0x55) "res_id changed while stalled")

def backpressureHoldsResultAndStallsInput : Tb D Unit := do
  start D
  let operands := randomOperands (rng 0).operands (List.range P.nPorts)
  let mask := 0b111
  let want ← lift (expectedBeat operands mask)
  drive D.machine fun i => { i with resReady := false }
  sendOp D mask operands 0x55
  ticks D.machine (P.redLatency + 2)
  let valid ← sample D.resValid
  lift (assertThat (valid = some 1) "result never became valid under backpressure")
  let ready ← sample D.opReady
  lift (assertThat (ready = some 0) "op_ready stayed high while output was stalled")
  forM (List.range 5) fun _ => checkStalled D want
  drive D.machine fun i => { i with resReady := true }
  tick D.machine
  let ready ← sample D.opReady
  lift (assertThat (ready = some 1) "op_ready did not recover after backpressure")
  let follow := randomOperands (rng 1).operands (List.range P.nPorts)
  let r ← transact D 0b11 follow 0x66
  lift (assertThat (r.2.2 = 0x66) "transaction after backpressure was lost or reordered")
  let want ← lift (expectedBeat follow 0b11)
  lift (assertThat (lanesFromBeat r.2.1 = want) "")

/-- What the monitor of the next test collects: ids and lanes. -/
abbrev Stream : Type := List (ℕ × List ℕ)

/-- One cycle with the monitor running. It looks at the falling edge at which the
test drives, and reads nothing that depends on what is driven there. -/
def monitored (seen : Stream) : Tb D Stream := do
  tick D.machine
  let valid ← sample D.resValid
  let ready ← sample fun _ i => i.resReady
  if valid = some 1 ∧ ready = true then
    let id ← sample D.resId
    let id ← lift (intValue id)
    let data ← sample D.resData
    let data ← lift (intValue data)
    pure (seen ++ [(id, lanesFromBeat data)])
  else
    pure seen

def backToBackOperandsStream : Tb D Unit := do
  start D
  let r ← (List.range 8).foldlM (fun (r : Stream × Stream) i => do
    let operands := randomOperands (rng i).operands (List.range P.nPorts)
    let mask := if i % 2 = 1 then 0b11 else 0b111
    let want ← lift (expectedBeat operands mask)
    driveOp D mask operands (i &&& 0xFF)
    let seen ← monitored D r.1
    pure (seen, r.2 ++ [(i &&& 0xFF, want)])) ([], [])
  drive D.machine fun i => { i with opValid := false }
  let seen ← (List.range (P.redLatency + 4)).foldlM (fun seen _ => monitored D seen) r.1
  lift (assertThat (seen = r.2)
    ("streamed results wrong or out of order\n" ++
      s!"  got ids  {seen.map Prod.fst}\n" ++
      s!"  want ids {r.2.map Prod.fst}"))

end Tests

/-- The tests, in the order of the file. -/
inductive Test
  | reducesToReference
  | unmaskedOperandsAreIgnored
  | latencyIsExactlyRedLatency
  | idIsCarriedThrough
  | singleMemberIsPassthrough
  | lanesWrapIndependently
  | resultIsIndependentOfSlotPlacement
  | backpressureHoldsResultAndStallsInput
  | backToBackOperandsStream
  deriving DecidableEq

def Test.run (rng : ℕ → Draws) : Test → Tb D Unit
  | reducesToReference => Testbench.reducesToReference D rng
  | unmaskedOperandsAreIgnored => Testbench.unmaskedOperandsAreIgnored D
  | latencyIsExactlyRedLatency => Testbench.latencyIsExactlyRedLatency D rng
  | idIsCarriedThrough => Testbench.idIsCarriedThrough D rng
  | singleMemberIsPassthrough => Testbench.singleMemberIsPassthrough D rng
  | lanesWrapIndependently => Testbench.lanesWrapIndependently D
  | resultIsIndependentOfSlotPlacement => Testbench.resultIsIndependentOfSlotPlacement D rng
  | backpressureHoldsResultAndStallsInput =>
    Testbench.backpressureHoldsResultAndStallsInput D rng
  | backToBackOperandsStream => Testbench.backToBackOperandsStream D rng

end ReductionEngine.Testbench
