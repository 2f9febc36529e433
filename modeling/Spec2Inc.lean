import Spec2Inc.Rtl.ReductionEngine.Fifo
import Spec2Inc.Rtl.ReductionEngine.Latency
import Spec2Inc.Rtl.GroupTable
import Spec2Inc.Verif.Mechanism
import Spec2Inc.Verif.Footprint
import Spec2Inc.Verif.Concurrent
import Spec2Inc.Verif.Oracle
import Spec2Inc.Verif.Tree
import Spec2Inc.Verif.ReqXbar.Delivery
import Spec2Inc.Verif.ReqXbar.Protocol
import Spec2Inc.Verif.ReqXbar.Starvation
import Spec2Inc.Verif.ReqXbar.Layout
import Spec2Inc.Verif.ReqXbar.Packets
import Spec2Inc.AgentLoop.Best
import Spec2Inc.AgentLoop.History
import Spec2Inc.AgentLoop.Progress
import Spec2Inc.AgentLoop.Verified
import Spec2Inc.AgentLoop.Synth
import Spec2Inc.Clocked.Bench
import Spec2Inc.Verif.GroupTable.Testbench
import Spec2Inc.Verif.GroupTable.Verdict
import Spec2Inc.Verif.GroupTable.Skeleton
import Spec2Inc.Verif.ReductionEngine.Testbench
import Spec2Inc.Verif.ReductionEngine.Contract
import Spec2Inc.Verif.ReductionEngine.Operands
import Spec2Inc.Verif.ReductionEngine.Verdict
import Spec2Inc.Verif.ReqXbar.Chaos
import Spec2Inc.Verif.ReqXbar.Directed
import Spec2Inc.Verif.ReqXbar.Skeleton
import Spec2Inc.AgentLoop.Scope
import Spec2Inc.AgentLoop.Summary
import Spec2Inc.AgentLoop.Measure
