import Mathlib.Algebra.Group.Nat.Defs
import Mathlib.Data.BitVec
import Mathlib.Data.Nat.Log

/-!
# The shared constants of `spec2inc_pkg`

The sizes, and the packed request struct. The crossbar testbench mirrors the
struct by a list of its own, in `Verif/ReqXbar/Codec.lean`.
-/

namespace Spec2incPkg

/-- Upper bound on the radix; port masks are always this wide. -/
abbrev maxPorts : ℕ := 64

/-- Bits per beat. -/
abbrev dataW : ℕ := 256

abbrev addrW : ℕ := 48

abbrev tagW : ℕ := 8

/-- `$clog2(MAX_PORTS)`, written out because it is the width of a type. -/
abbrev idW : ℕ := 6

theorem idW_eq_clog : idW = Nat.clog 2 maxPorts := by decide

abbrev lenW : ℕ := 16

/-- Width of one reduction lane. -/
abbrev redLaneW : ℕ := 32

abbrev redLanes : ℕ := dataW / redLaneW

/-- `req_t`, the members in the order of the declaration. -/
@[ext] structure ReqT where
  op : BitVec 3
  src : BitVec idW
  dst : BitVec idW
  tag : BitVec tagW
  addr : BitVec addrW
  len : BitVec lenW
  data : BitVec dataW
  last : BitVec 1

/-- The struct is packed: its members side by side, the first most significant. -/
def ReqT.packed (r : ReqT) :
    BitVec (3 + idW + idW + tagW + addrW + lenW + dataW + 1) :=
  r.op ++ r.src ++ r.dst ++ r.tag ++ r.addr ++ r.len ++ r.data ++ r.last

end Spec2incPkg
