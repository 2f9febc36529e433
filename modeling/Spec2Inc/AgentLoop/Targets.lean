import Spec2Inc.AgentLoop.Nodes

/-!
# What the loop can be pointed at

One `Target` per module, and the registry of them.
-/

namespace AgentLoop

/-- What counts as progress. -/
inductive Objective
  | depth
  | cells
  | correctness
  deriving DecidableEq, Repr

def Objective.name : Objective → String
  | depth => "depth"
  | cells => "cells"
  | correctness => "correctness"

structure Target where
  name : String
  rtl : String
  tbDir : String
  task : String
  params : Params
  objective : Objective
  verifyPoints : List Params
  deps : List String
  skeleton : Option String

/-- The truth value of `target.skeleton`. -/
def Target.hasSkeleton (target : Target) : Bool := target.skeleton.any fun path => path ≠ ""

/-- The default of `deps`. -/
def defaultDeps : List String := ["rtl/spec2inc_pkg.sv"]

def reductionEngine : Target where
  name := "reduction_engine"
  rtl := "rtl/reduction_engine.sv"
  tbDir := "verif/reduction_engine"
  task := "examples/agent_loop/tasks/reduction_engine.md"
  params := ⟨[("N_PORTS", 16), ("RED_LATENCY", 3)], by decide⟩
  objective := .depth
  verifyPoints :=
    [⟨[("N_PORTS", 8), ("RED_LATENCY", 1)], by decide⟩,
      ⟨[("N_PORTS", 8), ("RED_LATENCY", 3)], by decide⟩,
      ⟨[("N_PORTS", 16), ("RED_LATENCY", 1)], by decide⟩,
      ⟨[("N_PORTS", 16), ("RED_LATENCY", 6)], by decide⟩,
      ⟨[("N_PORTS", 64), ("RED_LATENCY", 3)], by decide⟩]
  deps := defaultDeps
  skeleton := none

def reqXbar : Target where
  name := "req_xbar"
  rtl := "rtl/req_xbar.sv"
  tbDir := "verif/req_xbar"
  task := "examples/agent_loop/tasks/req_xbar.md"
  params := ⟨[("N_PORTS", 8)], by decide⟩
  objective := .correctness
  verifyPoints := [⟨[("N_PORTS", 4)], by decide⟩, ⟨[("N_PORTS", 16)], by decide⟩]
  deps := defaultDeps
  skeleton := some "examples/agent_loop/skeletons/req_xbar.sv"

def groupTable : Target where
  name := "group_table"
  rtl := "rtl/group_table.sv"
  tbDir := "verif/group_table"
  task := "examples/agent_loop/tasks/group_table.md"
  params := ⟨[("N_PORTS", 16), ("GROUP_TABLE_ENTRIES", 64)], by decide⟩
  objective := .correctness
  verifyPoints :=
    [⟨[("N_PORTS", 8), ("GROUP_TABLE_ENTRIES", 16)], by decide⟩,
      ⟨[("N_PORTS", 32), ("GROUP_TABLE_ENTRIES", 4)], by decide⟩,
      ⟨[("N_PORTS", 64), ("GROUP_TABLE_ENTRIES", 64)], by decide⟩]
  deps := defaultDeps
  skeleton := some "examples/agent_loop/skeletons/group_table.sv"

/-- `TARGETS`. -/
def targets : Dict String Target :=
  .ofList ([reductionEngine, reqXbar, groupTable].map fun t => (t.name, t))

end AgentLoop
