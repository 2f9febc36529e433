import Mathlib.Data.Nat.Log
import Spec2Inc.Clocked.Store
import Spec2Inc.Rtl.Package

/-!
# `group_table`

Valid bits and member masks live in two arrays: reset clears the valid bits
only, and the mask array is written whether reset is asserted or not. An index
is compared with the table size at full width, and narrowed to `IDX_W` bits
only to address the arrays.

`entry` reads the two arrays together, as a partial map from full-width indices
to masks. That reading simulates the resettable store of `Clocked/Store.lean`
(`simulates_store`), so an entry is what the last write to its own index since
the last reset put there.
-/

open Clocked Spec2incPkg

namespace GroupTable

/-- The elaboration parameter that sizes the table, with its supported range. -/
structure Params where
  groupTableEntries : ℕ
  entries_pos : 1 ≤ groupTableEntries
  entries_le : groupTableEntries ≤ 64

/-- `AW`: the bits needed to address the table. -/
def Params.aw (P : Params) : ℕ := Nat.clog 2 P.groupTableEntries

/-- `IDX_W`: at least one address bit. -/
def Params.idxW (P : Params) : ℕ := if P.aw > 0 then P.aw else 1

/-- The input ports in one clock cycle; `rdIdx` is read combinationally. -/
structure Inputs where
  rstN : Bool
  wrEn : Bool
  wrIdx : BitVec idW
  wrValidBit : Bool
  wrMembers : BitVec maxPorts
  rdIdx : BitVec idW

/-- The two register arrays. -/
structure Regs (P : Params) where
  validArray : Vector Bool P.groupTableEntries
  memArray : Vector (BitVec maxPorts) P.groupTableEntries

variable {P : Params}

/-- `idx_t'(idx)`: the index narrowed to address the arrays. -/
def addr (P : Params) (idx : BitVec idW) : BitVec P.idxW := idx.setWidth P.idxW

/-- `int'(idx) < GROUP_TABLE_ENTRIES`, at full width. -/
def inRange (P : Params) (idx : BitVec idW) : Bool :=
  decide (idx.toNat < P.groupTableEntries)

/-- The process that owns the valid bits. -/
def validNext (q : Regs P) (i : Inputs) : Vector Bool P.groupTableEntries :=
  if !i.rstN then
    Vector.replicate P.groupTableEntries false
  else if i.wrEn && inRange P i.wrIdx then
    q.validArray.setIfInBounds (addr P i.wrIdx).toNat i.wrValidBit
  else
    q.validArray

/-- The process that owns the masks; it has no reset. -/
def memNext (q : Regs P) (i : Inputs) : Vector (BitVec maxPorts) P.groupTableEntries :=
  if i.wrEn && inRange P i.wrIdx then
    q.memArray.setIfInBounds (addr P i.wrIdx).toNat i.wrMembers
  else
    q.memArray

/-- `group_table` as a clocked machine. -/
def table (P : Params) : Machine (Regs P) Inputs where
  rstN := Inputs.rstN
  clear q := { q with validArray := Vector.replicate P.groupTableEntries false }
  edge q i := { validArray := validNext q i, memArray := memNext q i }

/-- The combinational read of the valid bit. -/
def rdValidBit (q : Regs P) (rdIdx : BitVec idW) : Bool :=
  if inRange P rdIdx then (q.validArray[(addr P rdIdx).toNat]?).getD false else false

/-- The combinational read of the mask. -/
def rdMembers (q : Regs P) (rdIdx : BitVec idW) : BitVec maxPorts :=
  if inRange P rdIdx then (q.memArray[(addr P rdIdx).toNat]?).getD 0 else 0

/-! ## Addresses -/

theorem groupTableEntries_le_two_pow_idxW (P : Params) :
    P.groupTableEntries ≤ 2 ^ P.idxW := by
  have hclog : P.groupTableEntries ≤ 2 ^ P.aw := Nat.le_pow_clog Nat.one_lt_two _
  rw [Params.idxW]
  by_cases h : P.aw > 0
  · rwa [if_pos h]
  · rw [if_neg h]
    obtain h0 : P.aw = 0 := by omega
    rw [h0] at hclog
    omega

/-- Narrowing loses nothing of an index in range, so no other index can reach
its entry. -/
theorem toNat_addr {idx : BitVec idW} (h : inRange P idx = true) :
    (addr P idx).toNat = idx.toNat := by
  have hlt : idx.toNat < 2 ^ P.idxW :=
    (of_decide_eq_true h).trans_le (groupTableEntries_le_two_pow_idxW P)
  rw [addr, BitVec.toNat_setWidth, Nat.mod_eq_of_lt hlt]

theorem addr_lt {idx : BitVec idW} (h : inRange P idx = true) :
    (addr P idx).toNat < P.groupTableEntries := by
  rw [toNat_addr h]
  exact of_decide_eq_true h

theorem addr_eq_iff {idx idx' : BitVec idW} (h : inRange P idx = true)
    (h' : inRange P idx' = true) :
    (addr P idx).toNat = (addr P idx').toNat ↔ idx = idx' := by
  rw [toNat_addr h, toNat_addr h', BitVec.toNat_inj]

/-! ## The arrays as a partial map -/

/-- What a full-width index reads as: a mask when the read is valid. -/
def entry (q : Regs P) (idx : BitVec idW) : Option (BitVec maxPorts) :=
  if rdValidBit q idx then some (rdMembers q idx) else none

/-- A write as the write port presents it. -/
structure Write where
  idx : BitVec idW
  validBit : Bool
  members : BitVec maxPorts

/-- The write a cycle presents, as a list of at most one. -/
def presented (i : Inputs) : List Write :=
  if i.wrEn then [⟨i.wrIdx, i.wrValidBit, i.wrMembers⟩] else []

/-- The value a write leaves behind: its mask, or nothing when it invalidates. -/
def Write.value (w : Write) : Option (BitVec maxPorts) :=
  if w.validBit then some w.members else none

/-- The write as the store sees it; one beyond the table does nothing. -/
def storeWrite (P : Params) (w : Write) :
    Option (BitVec idW × Option (BitVec maxPorts)) :=
  if inRange P w.idx then some (w.idx, w.value) else none

/-- What the ports mean to the store. -/
def ports (P : Params) (i : Inputs) : Store.Input (BitVec idW) (BitVec maxPorts) where
  rstN := i.rstN
  write := ((presented i).filterMap (storeWrite P)).head?

theorem toList_ports_write (P : Params) (i : Inputs) :
    (ports P i).write.toList = (presented i).filterMap (storeWrite P) := by
  cases hw : i.wrEn with
  | false => simp [ports, presented, hw]
  | true => cases hr : inRange P i.wrIdx <;> simp [ports, presented, hw, storeWrite, hr]

theorem entry_eq_none_of_cleared (q : Regs P) (idx : BitVec idW)
    (h : q.validArray = Vector.replicate P.groupTableEntries false) :
    entry q idx = none := by
  have hvalid : rdValidBit q idx = false := by
    cases hr : inRange P idx with
    | false => simp [rdValidBit, hr]
    | true => simp [rdValidBit, hr, h, addr_lt hr]
  simp [entry, hvalid]

theorem edge_of_write (q : Regs P) {i : Inputs} (hrst : i.rstN = true)
    (hw : (i.wrEn && inRange P i.wrIdx) = true) :
    (table P).edge q i =
      { validArray := q.validArray.setIfInBounds (addr P i.wrIdx).toNat i.wrValidBit
        memArray := q.memArray.setIfInBounds (addr P i.wrIdx).toNat i.wrMembers } := by
  simp only [table, validNext, memNext, hrst, hw, Bool.not_true, Bool.false_eq_true, if_true,
    if_false]

theorem edge_of_no_write (q : Regs P) {i : Inputs} (hrst : i.rstN = true)
    (hw : (i.wrEn && inRange P i.wrIdx) = false) :
    (table P).edge q i = q := by
  simp only [table, validNext, memNext, hrst, hw, Bool.not_true, Bool.false_eq_true, if_false]

/-- A write to an index in range replaces the entry of that index. -/
theorem entry_write_self (q : Regs P) {i : Inputs} (hrst : i.rstN = true)
    (hen : i.wrEn = true) (hr : inRange P i.wrIdx = true) :
    entry ((table P).edge q i) i.wrIdx =
      if i.wrValidBit then some i.wrMembers else none := by
  rw [edge_of_write q hrst (by rw [hen, hr]; rfl)]
  simp [entry, rdValidBit, rdMembers, hr, addr_lt hr]

/-- It leaves every other entry alone. -/
theorem entry_write_of_ne (q : Regs P) {i : Inputs} (hrst : i.rstN = true)
    (hen : i.wrEn = true) (hr : inRange P i.wrIdx = true) {idx : BitVec idW}
    (hne : idx ≠ i.wrIdx) :
    entry ((table P).edge q i) idx = entry q idx := by
  cases hidx : inRange P idx with
  | false => simp [entry, rdValidBit, hidx]
  | true =>
      have haddr : (addr P i.wrIdx).toNat ≠ (addr P idx).toNat := by
        rw [Ne, addr_eq_iff hr hidx]
        exact hne.symm
      rw [edge_of_write q hrst (by rw [hen, hr]; rfl)]
      simp only [entry, rdValidBit, rdMembers, hidx, if_true,
        Vector.getElem?_setIfInBounds, haddr, if_false]

theorem entry_edge (q : Regs P) (i : Inputs) :
    entry ((table P).edge q i) =
      (Store.machine (BitVec idW) (BitVec maxPorts)).edge (entry q) (ports P i) := by
  cases hrst : i.rstN with
  | false =>
      funext idx
      rw [entry_eq_none_of_cleared _ _ (by simp [table, validNext, hrst])]
      simp [Store.machine, ports, hrst, Store.empty]
  | true =>
      cases hw : i.wrEn && inRange P i.wrIdx with
      | false =>
          have hnone : (ports P i).write = none := by
            cases hen : i.wrEn with
            | false => simp [ports, presented, hen]
            | true =>
                have hr : inRange P i.wrIdx = false := by simpa [hen] using hw
                simp [ports, presented, hen, storeWrite, hr]
          rw [edge_of_no_write q hrst hw]
          simp [Store.machine, hnone, show (ports P i).rstN = true from hrst]
      | true =>
          obtain ⟨hen, hr⟩ := (Bool.and_eq_true _ _).mp hw
          have hsome : (ports P i).write =
              some (i.wrIdx, if i.wrValidBit then some i.wrMembers else none) := by
            simp [ports, presented, hen, storeWrite, hr, Write.value]
          funext idx
          simp only [Store.machine, hsome, show (ports P i).rstN = true from hrst,
            if_true, Option.elim_some, Store.put]
          by_cases hidx : idx = i.wrIdx
          · subst hidx
            rw [entry_write_self q hrst hen hr, Function.update_self]
          · rw [entry_write_of_ne q hrst hen hr hidx, Function.update_of_ne hidx]

/-- The two arrays, read together, simulate the resettable store. -/
theorem simulates_store (P : Params) :
    Simulates (table P) (Store.machine (BitVec idW) (BitVec maxPorts)) entry (ports P) where
  rstN _ := rfl
  clear q := by
    funext idx
    exact entry_eq_none_of_cleared _ idx rfl
  edge := entry_edge

/-! ## Reads of whole runs -/

/-- The writes committed before cycle `t` since the last reset, oldest first. A
write presented while reset is low is not committed. -/
def committed (inp : ℕ → Inputs) (t : ℕ) : List Write :=
  sinceReset (fun k => (inp k).rstN) (fun k => presented (inp k)) t

/-- The most recent committed write to the full-width index `idx`. -/
def lastWrite (inp : ℕ → Inputs) (t : ℕ) (idx : BitVec idW) : Option Write :=
  ((committed inp t).filter fun w => w.idx = idx).getLast?

theorem lastWrite_storeWrites (h : List Write) {idx : BitVec idW}
    (hr : inRange P idx = true) :
    Store.lastWrite (h.filterMap (storeWrite P)) idx =
      ((h.filter fun w => w.idx = idx).getLast?).map fun w => (w.idx, w.value) := by
  have hfilter : (h.filterMap (storeWrite P)).filter (fun w => w.1 = idx) =
      (h.filter fun w => w.idx = idx).map fun w => (w.idx, w.value) := by
    induction h with
    | nil => rfl
    | cons w h ih =>
        by_cases hw : w.idx = idx
        · have hkept : storeWrite P w = some (w.idx, w.value) := by
            rw [storeWrite, hw, hr, if_pos rfl]
          rw [List.filterMap_cons_some hkept]
          simp only [List.filter_cons, hw, decide_true, if_true, List.map_cons, ih]
        · cases hr' : inRange P w.idx with
          | false =>
              have hdropped : storeWrite P w = none := by simp [storeWrite, hr']
              rw [List.filterMap_cons_none hdropped, ih]
              simp [hw]
          | true =>
              have hkept : storeWrite P w = some (w.idx, w.value) := by simp [storeWrite, hr']
              rw [List.filterMap_cons_some hkept]
              simp [hw, ih]
  rw [Store.lastWrite, hfilter, List.getLast?_map]

/-- From the first reset on, an index in range reads as its last write. -/
theorem entry_at' (q₀ : Regs P) (inp : ℕ → Inputs) {t : ℕ}
    (hreset : ∃ r ≤ t, (inp r).rstN = false) {idx : BitVec idW}
    (hr : inRange P idx = true) :
    entry ((table P).at' q₀ inp t) idx = (lastWrite inp t idx).bind Write.value := by
  rw [(simulates_store P).at', Store.at'_eq_replay _ _ hreset, Store.replay_apply]
  simp only [toList_ports_write]
  have hlog := sinceReset_filterMap (fun k => (inp k).rstN) (fun k => presented (inp k))
    (storeWrite P) t
  simp only [show ∀ k, (ports P (inp k)).rstN = (inp k).rstN from fun _ => rfl, hlog]
  rw [lastWrite_storeWrites _ hr, ← committed, ← lastWrite]
  cases lastWrite inp t idx <;> rfl

/-- In every cycle from the first reset on, whatever the registers held before
it: a read beyond the table is invalid and zero; a read in range is valid
exactly when some write to that very index has been committed since the last
reset and the most recent one was valid, and it then shows that write's mask. -/
theorem groupTable_refines_map (P : Params) (q₀ : Regs P) (inp : ℕ → Inputs) {t : ℕ}
    (hreset : ∃ r ≤ t, (inp r).rstN = false) (rdIdx : BitVec idW) :
    (P.groupTableEntries ≤ rdIdx.toNat →
      rdValidBit ((table P).at' q₀ inp t) rdIdx = false ∧
        rdMembers ((table P).at' q₀ inp t) rdIdx = 0) ∧
      (rdIdx.toNat < P.groupTableEntries →
        (rdValidBit ((table P).at' q₀ inp t) rdIdx = true ↔
          ∃ w, lastWrite inp t rdIdx = some w ∧ w.validBit = true) ∧
        ∀ w, lastWrite inp t rdIdx = some w → w.validBit = true →
          rdMembers ((table P).at' q₀ inp t) rdIdx = w.members) := by
  constructor
  · intro hout
    have hr : inRange P rdIdx = false := by simpa [inRange] using hout
    simp [rdValidBit, rdMembers, hr]
  · intro hin
    have hr : inRange P rdIdx = true := by simpa [inRange] using hin
    have hentry := entry_at' q₀ inp hreset hr
    rw [entry] at hentry
    cases hw : lastWrite inp t rdIdx with
    | none =>
        rw [hw] at hentry
        simp at hentry ⊢
        exact hentry
    | some w =>
        rw [hw, Option.bind_some, Write.value] at hentry
        cases hv : w.validBit with
        | false =>
            simp only [hv] at hentry
            simp [hv] at hentry ⊢
            exact hentry
        | true =>
            cases hrd : rdValidBit ((table P).at' q₀ inp t) rdIdx with
            | false => simp [hv, hrd] at hentry
            | true =>
                simp only [hv, hrd, if_true, Option.some.injEq] at hentry
                simp [hv, hentry]

/-! Five entries, so three address bits. Entry 1 is written during the reset in
cycle zero, entry 3 after it, and then index 11, which narrows to 3. -/

def fiveEntries : Params := ⟨5, by decide, by decide⟩

def staleRegs : Regs fiveEntries := ⟨Vector.replicate 5 true, Vector.replicate 5 7⟩

def writeCycles : ℕ → Inputs
  | 0 => ⟨false, true, 1, true, 6, 0⟩
  | 1 => ⟨true, true, 3, true, 9, 0⟩
  | 2 => ⟨true, true, 11, false, 4, 0⟩
  | _ => ⟨true, false, 4, true, 5, 0⟩

theorem groupTable_refines_map_narrowed :
    rdValidBit ((table fiveEntries).at' staleRegs writeCycles 4) 3 = true ∧
      rdMembers ((table fiveEntries).at' staleRegs writeCycles 4) 3 = 9 ∧
      rdValidBit ((table fiveEntries).at' staleRegs writeCycles 4) 11 = false ∧
      rdMembers ((table fiveEntries).at' staleRegs writeCycles 4) 11 = 0 ∧
      rdValidBit ((table fiveEntries).at' staleRegs writeCycles 4) 1 = false := by
  have hreset : ∃ r ≤ 4, (writeCycles r).rstN = false := ⟨0, Nat.zero_le 4, rfl⟩
  have hreads := groupTable_refines_map fiveEntries staleRegs writeCycles hreset
  have hlast : lastWrite writeCycles 4 3 = some ⟨3, true, 9⟩ := rfl
  have hnone : lastWrite writeCycles 4 1 = none := rfl
  obtain ⟨hvalid, hmembers⟩ := (hreads 3).2 (by decide)
  obtain ⟨hbeyond, hzero⟩ := (hreads 11).1 (by decide)
  obtain ⟨hduring, -⟩ := (hreads 1).2 (by decide)
  refine ⟨hvalid.mpr ⟨_, hlast, rfl⟩, hmembers _ hlast rfl, hbeyond, hzero, ?_⟩
  rw [Bool.eq_false_iff, Ne, hduring, hnone]
  rintro ⟨w, hw, -⟩
  cases hw

end GroupTable
