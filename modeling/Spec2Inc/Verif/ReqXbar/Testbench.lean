import Spec2Inc.Clocked.Bench
import Spec2Inc.Python.Random
import Spec2Inc.Verif.ReqXbar.Delivery
import Spec2Inc.Verif.ReqXbar.Sinks
import Spec2Inc.Verif.ReqXbar.Source

/-!
# The testbench of `req_xbar`

The tests that send traffic, with all their coroutines, over any design with the
module's ports. In cycle `t`, which begins with rising edge `t`, the pins carry
what the sources have driven at that edge. At the falling edge the sources sample
`s_ready` and the two monitors the sink bus. A value written at the falling edge
is seen by nobody who samples there, but by the design at the next rising edge.
-/

open Bits Clocked Clocked.Bench Python Spec2incPkg

namespace ReqXbar

/-- The input ports in one clock cycle. -/
structure Inputs where
  rstN : Bool
  sReq : ℕ
  sValid : ℕ
  mReady : ℕ

/-- A design under test. An output may read as `X` or `Z`. -/
structure Dut where
  σ : Type
  machine : Machine σ Inputs
  sReady : σ → Inputs → Option ℕ
  mReq : σ → Inputs → Option ℕ
  mValid : σ → Inputs → Option ℕ

/-- A program of the testbench. -/
abbrev Tb (D : Dut) : Type → Type := Bench Exception D.σ Inputs

/-- `(1 << N_PORTS) - 1`. -/
def allReady (nPorts : ℕ) : ℕ := 1 <<< nPorts - 1

variable (D : Dut) (nPorts : ℕ)

def start : Tb D Unit := do
  drive D.machine fun _ => ⟨false, 0, 0, allReady nPorts⟩
  ticks D.machine 3
  drive D.machine fun i => { i with rstN := true }
  tick D.machine

/-- What the monitors read at a falling edge. -/
def reading (w : Wired D.σ Inputs) : Reading where
  valid := D.mValid w.regs w.pins
  ready := some w.pins.mReady
  words := D.mReq w.regs w.pins

/-- `check_all`. -/
def checkAll (blindCycles : ℕ) (monitor : Monitor) (h : Harness) : Except Exception Unit := do
  assertThat (blindCycles = 0)
    (s!"{blindCycles} cycle(s) where the sink bus read as X/Z, so both " ++
      "deliveries and protocol violations went unobserved in them")
  checkProtocol monitor.protocolErrors
  checkConservation h
  checkFlowOrder h
  checkPacketsNotInterleaved h

/-! ## The coroutines together -/

/-- A cycle of a test: the design with its pins, the calls of `source`, and what
the monitors have collected in the cycles before. -/
structure World where
  wired : Wired D.σ Inputs
  sources : ℕ → Source
  sinks : Sinks
  monitor : Monitor

namespace World

variable {D}

/-- The monitors and the sources are spawned, and wait for their first edges. -/
def spawn (queues : ℕ → List Beat) (w : Wired D.σ Inputs) : World D where
  wired := w
  sources s := Source.idle.call (queues s)
  sinks := .start
  monitor := .start

def lines (W : World D) : Lines where
  words s := (W.sources s).word
  valid s := (W.sources s).valid

/-- The falling edge. -/
def fall (W : World D) : World D where
  wired := W.wired
  sources s := (W.sources s).falling s (D.sReady W.wired.regs W.wired.pins)
  sinks := W.sinks.watch nPorts (reading D W.wired)
  monitor := W.monitor.watch nPorts (reading D W.wired)

/-- A write to `m_ready`, if there is one. -/
def write (mReady : Option ℕ) (W : World D) : World D :=
  match mReady with
  | none => W
  | some mReady =>
    let pins := { W.wired.pins with mReady := mReady }
    { W with wired := ⟨D.machine.settle W.wired.regs pins, pins⟩ }

/-- The rising edge: the design steps on the old pins, and the sources drive. -/
def rise (gap : ℕ → Bool) (mReady : Option ℕ) (W : World D) : World D :=
  let regs := D.machine.settle (D.machine.edge W.wired.regs W.wired.pins) W.wired.pins
  let W := { W with sources := fun s => (W.sources s).rising false (gap s) }
  let pins : Inputs :=
    { rstN := W.wired.pins.rstN
      sReq := W.lines.sReq (nPorts + 2)
      sValid := W.lines.sValid (nPorts + 2)
      mReady := mReady.getD W.wired.pins.mReady }
  { W with wired := ⟨D.machine.settle regs pins, pins⟩ }

/-- All calls of `source` have returned. -/
def returned (W : World D) : Bool :=
  (List.range (nPorts + 2)).all fun s =>
    match (W.sources s).wait with
    | .returned => true
    | _ => false

/-- `h.sent`. -/
def sent (W : World D) : Dict ℤ (List Beat) :=
  Dict.ofList ((List.range (nPorts + 2)).map fun s => (Int.ofNat s, (W.sources s).sent))

def harness (W : World D) : Harness where
  seen := W.sinks.seen
  sent := W.sent nPorts

def check (W : World D) : Except Exception Unit :=
  checkAll W.sinks.blindCycles W.monitor (W.harness nPorts)

end World

/-- What a test does besides its sources: the draws of their gaps, and what it
writes to `m_ready` at the edges of a cycle, which may depend on whether the
sources had all returned. -/
structure Stimulus where
  gap : ℕ → ℕ → Bool
  onRise : ℕ → Bool → Option ℕ
  onFall : Bool → Option ℕ

/-- A test that leaves every sink ready. -/
def Stimulus.calm (gap : ℕ → ℕ → Bool) : Stimulus := ⟨gap, fun _ _ => none, fun _ => none⟩

/-- `chaos`: random bits at every rising edge, until the test, at the edge at
which the last source returns, tells it to stop. It sees that at the falling edge,
and there opens every sink. -/
def Stimulus.chaos (nPorts : ℕ) (gap : ℕ → ℕ → Bool) (bits : ℕ → ℕ) : Stimulus where
  gap := gap
  onRise t stopped := if stopped then none else some (getrandbits nPorts (bits t))
  onFall stopped := if stopped then some (allReady nPorts) else none

section Run

variable (S : Stimulus) (queues : ℕ → List Beat) (w : Wired D.σ Inputs)

/-- From the falling edge of a cycle on, up to the next rising edge. -/
def World.settled (W : World D) : World D := (W.fall nPorts).write (S.onFall (W.returned nPorts))

/-- The test in cycle `t`. -/
def worldAt : ℕ → World D
  | 0 => (World.spawn queues w).rise nPorts (S.gap 0) (S.onRise 0 false)
  | t + 1 =>
    ((worldAt t).settled D nPorts S).rise nPorts (S.gap (t + 1))
      (S.onRise (t + 1) ((worldAt t).returned nPorts))

/-- `TIMEOUT_NS` in clock cycles. -/
def timeoutCycles : ℕ := 4000

/-- Wait for all the sources, then for `after` cycles more, before the timeout.
Four rising edges have passed in `start`, and one more follows the last cycle. -/
def traffic (after : ℕ) : Except Exception (World D) :=
  match (List.range (timeoutCycles - (4 + after + 1))).find? fun t =>
      (worldAt D nPorts S queues w t).returned nPorts with
  | some t => .ok ((worldAt D nPorts S queues w (t + after)).fall nPorts)
  | none => .error (.other "SimTimeoutError" "40000.0ns elapsed")

end Run

/-! ## The tests -/

section Tests

variable (gap : ℕ → ℕ → Bool) (w : Wired D.σ Inputs)

/-- One check of the first test. -/
def checkQuiet : Tb D Unit := do
  let valid ← sample D.mValid
  let text := valid.elim "None" toString
  lift (assertThat (valid = some 0) s!"m_valid={text} out of reset with no traffic")
  tick D.machine

def quietAfterReset : Except Exception Unit := do
  let (_, w) ← start D nPorts w
  let (_, _) ← (forM (List.range 5) fun _ => checkQuiet D : Tb D Unit) w
  .ok ()

/-- The queues of a test in which one source sends. -/
def oneQueue (src : ℕ) (beats : List Beat) : ℕ → List Beat :=
  Function.update (fun _ => []) src beats

def singleBeats : List Beat :=
  (List.range' 1 4).map fun m : ℕ => .make 0 0 7 m (if m = 4 then 1 else 0) m reqWrite

def singleSourceSingleSink : Except Exception Unit := do
  let (_, w) ← start D nPorts w
  let W ← traffic D nPorts (.calm fun _ _ => false) (oneQueue 0 singleBeats) w 30
  W.check nPorts

/-- `all_sources_to_all_sinks`. -/
def allSourcesToAllSinks (rng : ℕ → Draws) : Except Exception Unit := do
  let (_, w) ← start D nPorts w
  let queues ← makePackets rng (6 * (nPorts + 2)) (srcs nPorts) (dsts nPorts) 3
  let W ← traffic D nPorts (.calm gap) (fun s => queues.getD s []) w 80
  W.check nPorts

/-- The beats of an engine: source, sink, tag and first marker. -/
def engineBeats (src dst tag marker : ℤ) : List Beat :=
  (List.range 2).map fun i : ℕ =>
    .make src dst tag (marker + i) (if i = 1 then 1 else 0) i reqWrite

def engineQueues : ℕ → List Beat :=
  Function.update (oneQueue nPorts (engineBeats nPorts (nPorts - 1) 0x11 0x1000)) (nPorts + 1)
    (engineBeats (nPorts + 1) 0 0x22 0x2000)

def engineSourcesAreRouted : Except Exception Unit := do
  let (_, w) ← start D nPorts w
  let lastSink : ℤ := nPorts - 1
  let W ← traffic D nPorts (.calm fun _ _ => false) (engineQueues nPorts) w 40
  W.check nPorts
  assertThat ((W.sinks.seen.getD lastSink []).length = 2) "primitive engine traffic did not arrive"
  assertThat ((W.sinks.seen.getD 0 []).length = 2) "block engine traffic did not arrive"

/-- One cycle passes before the drain. -/
def sinkReadyTogglingPreservesTraffic (rng : ℕ → Draws) (bits : ℕ → ℕ) :
    Except Exception Unit := do
  let (_, w) ← start D nPorts w
  let queues ← makePackets rng (4 * (nPorts + 2)) (srcs nPorts) (dsts nPorts) 3
  let W ← traffic D nPorts (.chaos nPorts gap bits) (fun s => queues.getD s []) w 81
  W.check nPorts

end Tests

end ReqXbar
