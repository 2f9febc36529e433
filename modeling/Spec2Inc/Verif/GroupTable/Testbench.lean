import Spec2Inc.Clocked.Bench
import Spec2Inc.Python.Random
import Spec2Inc.Python.Str
import Spec2Inc.Rtl.GroupTable

/-!
# The testbench of `group_table`

The seven tests of `tb_group_table.py` as programs over any design with the
module's ports. A read drives the index, waits for the outputs to settle and
samples them; a write is held over one rising edge. The settling delays of a loop
of reads add up, past the end of the half-cycle in which it began, so a rising
edge may fall into any of them: `edges` says into which. The random numbers of a
test are a stream of draws.
-/

open Clocked Clocked.Bench Python Spec2incPkg

namespace GroupTable.Testbench

/-- A design under test. An output may read as `X` or `Z`, and `as_int` then gives
`None`. -/
structure Dut where
  σ : Type
  machine : Machine σ Inputs
  rdValidBit : σ → Inputs → Option ℕ
  rdMembers : σ → Inputs → Option ℕ

/-- A program of the testbench. -/
abbrev Tb (D : Dut) : Type → Type := Bench Exception D.σ Inputs

abbrev idSpace : ℕ := 1 <<< idW

abbrev maskAll : ℕ := 1 <<< maxPorts - 1

/-- `idx_at(num / den)`. -/
def idxAt (P : Params) (num den : ℕ) : ℕ :=
  min (P.groupTableEntries * num / den) (P.groupTableEntries - 1)

/-- `f"{mask:#018x}"` of a mask that was read; `None` does not support the format. -/
def formatMask : Option ℕ → Except Exception String
  | some n => .ok (hex018 n)
  | none => .error (.typeError "unsupported format string passed to NoneType.__format__")

/-- An assertion whose message formats the mask that was read. -/
def assertMask (cond : Prop) [Decidable cond] (got : Option ℕ) (msg : String → String) :
    Except Exception Unit :=
  if cond then .ok () else do
    let shown ← formatMask got
    .error (.assertionError (msg shown))

section Programs

variable (P : Params) (D : Dut) (draws : ℕ → ℕ) (edges : ℕ → Bool)

def start : Tb D Unit := do
  drive D.machine fun _ => ⟨false, false, 0, false, 0, 0⟩
  ticks D.machine 3
  drive D.machine fun i => { i with rstN := true }
  tick D.machine

/-- Combinational read: drive the index, settle, sample. -/
def read (idx : ℕ) (edge : Bool) : Tb D (Option ℕ × Option ℕ) := do
  drive D.machine fun i => { i with rdIdx := .ofNat idW idx }
  ticks D.machine edge.toNat
  sample fun q i => (D.rdValidBit q i, D.rdMembers q i)

/-- Put a write on the port. -/
def present (idx : ℕ) (valid : Bool) (members : ℕ) (i : Inputs) : Inputs :=
  { i with
    wrEn := true
    wrIdx := .ofNat idW idx
    wrValidBit := valid
    wrMembers := .ofNat maxPorts members }

/-- Synchronous write, committed on the next rising edge. -/
def write (idx : ℕ) (valid : Bool) (members : ℕ) : Tb D Unit := do
  drive D.machine (present idx valid members)
  tick D.machine
  drive D.machine fun i => { i with wrEn := false }

/-- Write every entry valid, with all its members. -/
def fill : Tb D Unit :=
  forM (List.range P.groupTableEntries) fun idx => write D idx true maskAll

def resetClearsEveryEntry : Tb D Unit := do
  start D
  fill P D
  forM [0, P.groupTableEntries - 1] fun idx => do
    let got ← read D idx false
    lift (assertThat (got.1 = some 1)
      (s!"entry {idx} never became valid, so this test cannot say " ++
        "anything about reset"))
  drive D.machine fun i => { i with rstN := false }
  tick D.machine
  drive D.machine fun i => { i with rstN := true }
  tick D.machine
  forM (List.range P.groupTableEntries) fun idx => do
    let got ← read D idx (edges idx)
    lift (assertThat (got.1 = some 0) s!"entry {idx} still valid after reset")

/-- The body of the loop of the next test. -/
def writeAndReadBack (idx draw : ℕ) : Tb D Unit := do
  let members := getrandbits maxPorts draw
  write D idx true members
  let got ← read D idx false
  lift (assertThat (got.1 = some 1) s!"entry {idx} not valid after write")
  lift (assertMask (got.2 = some members) got.2 fun shown =>
    s!"entry {idx} mask wrong:\n  got  {shown}\n  want {hex018 members}")

def writeThenReadReturnsTheEntry : Tb D Unit := do
  start D
  forM [0, 1, P.groupTableEntries / 2, P.groupTableEntries - 1].zipIdx fun p =>
    writeAndReadBack D p.1 (draws p.2)

def readsAreCombinational : Tb D Unit := do
  start D
  let idxA := 0
  let idxB := idxAt P 3 4
  lift (assertThat (idxA ≠ idxB) "table too small to distinguish two indices")
  let aMembers := 0x00000000000000FF
  let bMembers := 0xFF00000000000000
  write D idxA true aMembers
  write D idxB true bMembers
  let a ← read D idxA false
  lift (assertThat (a.2 = some aMembers) "first combinational read wrong")
  let b ← read D idxB false
  lift (assertThat (b.2 = some bMembers)
    "second read in the same cycle did not follow rd_idx -- read appears registered")

def writesAreSynchronous : Tb D Unit := do
  start D
  let idx := idxAt P 1 2
  let old := 0x0000000000000F0F
  let new := 0x000000000000F0F0
  write D idx true old
  -- The new value is presented and the index read before the clock edge.
  drive D.machine (present idx true new)
  let before ← read D idx false
  lift (assertThat (before.2 = some old)
    "write became visible before the clock edge -- storage is not registered")
  tick D.machine
  drive D.machine fun i => { i with wrEn := false }
  let got ← read D idx false
  lift (assertThat (got.2 = some new) "write did not take effect on the clock edge")

/-- Write a random mask at an index, in the table and in the dictionary. -/
def writeRandom (model : Dict ℕ ℕ) (idx draw : ℕ) : Tb D (Dict ℕ ℕ) := do
  let members := getrandbits maxPorts draw
  write D idx true members
  pure (model.set idx members)

/-- Compare the table with the dictionary. -/
def compare (model : Dict ℕ ℕ) (what : String) (edges : ℕ → Bool) : Tb D Unit :=
  forM model.items.zipIdx fun p => do
    let got ← read D p.1.1 (edges p.2)
    lift (assertMask (got.1 = some 1 ∧ got.2 = some p.1.2) got.2 fun shown =>
      s!"entry {p.1.1} disturbed{what}: got {shown}, want {hex018 p.1.2}")

def entriesAreIndependent : Tb D Unit := do
  start D
  let n := P.groupTableEntries
  let model ← (List.range n).foldlM (fun model idx =>
    writeRandom D model idx (draws idx)) Dict.empty
  compare D model "" edges
  -- Overwrite a few and compare the whole table again.
  let few := sampleOf (fun k => draws (n + k)) (min 4 n) (List.range n)
  let model ← few.zipIdx.foldlM (fun model p =>
    writeRandom D model p.1 (draws (n + 4 + p.2))) model
  compare D model " by an unrelated write" fun k => edges (n + k)

def entriesCanBeInvalidated : Tb D Unit := do
  start D
  let idx := idxAt P 1 2
  write D idx true maskAll
  let got ← read D idx false
  lift (assertThat (got.1 = some 1) "setup write did not take")
  write D idx false maskAll
  let got ← read D idx false
  lift (assertThat (got.1 = some 0) "entry still valid after being written with valid=0")

def outOfRangeReadsAreInvalid : Tb D Unit :=
  if P.groupTableEntries ≥ idSpace then pure ()
  else do
    start D
    fill P D
    let n := P.groupTableEntries
    forM (List.range' n (idSpace - n)) fun idx => do
      let got ← read D idx (edges idx)
      lift (assertThat (got.1 = some 0)
        (s!"out-of-range index {idx} read valid -- it is aliasing onto " ++
          s!"entry {idx % n}"))
      lift (assertMask (got.2 = some 0) got.2 fun shown =>
        s!"out-of-range index {idx} returned mask {shown}")

end Programs

/-- The tests, in the order of the file. -/
inductive Test
  | resetClearsEveryEntry
  | writeThenReadReturnsTheEntry
  | readsAreCombinational
  | writesAreSynchronous
  | entriesAreIndependent
  | entriesCanBeInvalidated
  | outOfRangeReadsAreInvalid
  deriving DecidableEq

def Test.run (P : Params) (D : Dut) (draws : ℕ → ℕ) (edges : ℕ → Bool) :
    Test → Tb D Unit
  | resetClearsEveryEntry => Testbench.resetClearsEveryEntry P D edges
  | writeThenReadReturnsTheEntry => Testbench.writeThenReadReturnsTheEntry P D draws
  | readsAreCombinational => Testbench.readsAreCombinational P D
  | writesAreSynchronous => Testbench.writesAreSynchronous P D
  | entriesAreIndependent => Testbench.entriesAreIndependent P D draws edges
  | entriesCanBeInvalidated => Testbench.entriesCanBeInvalidated P D
  | outOfRangeReadsAreInvalid => Testbench.outOfRangeReadsAreInvalid P D edges

end GroupTable.Testbench
