import Spec2Inc.Rtl.ReductionEngine.Registers

/-!
# `reduction_engine` is a FIFO of reductions

The histories are read off the ports: `accepted` lists the operand sets taken
since the last reset, already reduced, and `delivered` the results handed over
since then. `inFlight` lists the tokens of the valid stages, the oldest first.
At every cycle the first two differ by exactly the third.
-/

open Clocked Spec2incPkg

namespace ReductionEngine

variable {P : Params}

/-- The operand set a cycle accepts, as a list of at most one. -/
def accept (q : Regs P) (i : Inputs P) : List Token :=
  if i.opValid && opReady q i then [operandSet i] else []

/-- The result a cycle hands over, as a list of at most one. -/
def handOver (q : Regs P) (i : Inputs P) : List Token :=
  if resValid q && i.resReady then [(resData q, resId q)] else []

/-- The operand sets accepted before cycle `t` since the last reset. -/
def accepted (inp : ℕ → Inputs P) (t : ℕ) : List Token :=
  sinceReset (fun k => (inp k).rstN) (fun k => accept (regsAt inp k) (inp k)) t

/-- The results handed over before cycle `t` since the last reset. -/
def delivered (inp : ℕ → Inputs P) (t : ℕ) : List Token :=
  sinceReset (fun k => (inp k).rstN) (fun k => handOver (regsAt inp k) (inp k)) t

/-- The tokens of the valid stages, from the last stage down to stage zero. -/
def inFlight (q : Regs P) : List Token :=
  (List.finRange P.redLatency).reverse.filterMap fun s =>
    if q.vldQ.get s then some (q.dataQ.get s, q.idQ.get s) else none

theorem inFlight_eq_contents (q : Regs P) :
    inFlight q = Pipeline.contents (slots q) := by
  rw [Pipeline.contents, List.ofFn_eq_map, ← List.map_reverse, List.reduceOption,
    List.filterMap_map]
  rfl

theorem accept_eq_took (q : Regs P) (i : Inputs P) :
    accept q i = Pipeline.took (slots q) (ports i) := by
  rw [Pipeline.took, stalled_slots, accept, opReady]
  cases hs : stall q i <;> cases hv : i.opValid <;> simp [ports, hv]

theorem handOver_eq_gave (q : Regs P) (i : Inputs P) :
    handOver q i = Pipeline.gave (slots q) (ports i) := by
  rw [Pipeline.gave, out_slots, handOver]
  cases hv : resValid q <;> cases hr : i.resReady <;> simp [ports, hr]

theorem delivered_append_inFlight (inp : ℕ → Inputs P) (t : ℕ) :
    delivered inp t ++ inFlight (regsAt inp t) = accepted inp t := by
  have hqueue := Pipeline.gave_append_contents (L := P.redLatency)
    (fun k => ports (inp k)) t
  simp only [delivered, accepted, inFlight_eq_contents, accept_eq_took,
    handOver_eq_gave, slots_regsAt]
  exact hqueue

theorem length_inFlight_le (q : Regs P) : (inFlight q).length ≤ P.redLatency := by
  rw [inFlight_eq_contents]
  exact Pipeline.length_contents_le _

/-- At every cycle of every run, the results handed over since the last reset,
followed by the tokens in flight, are the operand sets accepted since then; at
most `RED_LATENCY` of them are in flight. -/
theorem reductionEngine_refines_fifo (P : Params) (inp : ℕ → Inputs P) (t : ℕ) :
    delivered inp t ++ inFlight (regsAt inp t) = accepted inp t ∧
      (inFlight (regsAt inp t)).length ≤ P.redLatency :=
  ⟨delivered_append_inFlight inp t, length_inFlight_le _⟩

end ReductionEngine
