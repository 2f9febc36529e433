import Spec2Inc.Verif.GroupTable.Testbench

/-!
# Designs that implement the contract of `group_table`

A design implements the contract when its registers simulate a resettable store
and its outputs read that store (`Implements`). To the testbench such a design is
the Python dictionary that its docstring calls the oracle: after any of its
programs the design holds what a dictionary does that was written along
(`Mirrors`).
-/

open Clocked Clocked.Bench Python Spec2incPkg

namespace GroupTable.Testbench

variable {P : Params} {D : Dut}

/-- What a design must do: its registers hold a store that the write port writes
and reset clears, and the read port reads it. The mask of an invalid entry is
left open, unless its index is beyond the table. -/
structure Implements (P : Params) (D : Dut) where
  contents : D.σ → BitVec idW → Option (BitVec maxPorts)
  simulates : Simulates D.machine (Store.machine (BitVec idW) (BitVec maxPorts)) contents
    (ports P)
  rdValidBit : ∀ q i, D.rdValidBit q i = some (contents q i.rdIdx).isSome.toNat
  rdMembers : ∀ q i m, contents q i.rdIdx = some m → D.rdMembers q i = some m.toNat
  rdMembers_out : ∀ q i, P.groupTableEntries ≤ i.rdIdx.toNat → D.rdMembers q i = some 0

/-- The store that a dictionary stands for. -/
def mirror (model : Dict ℕ ℕ) : BitVec idW → Option (BitVec maxPorts) :=
  fun i => (model.get? i.toNat).map (BitVec.ofNat maxPorts)

theorem mirror_empty : mirror Dict.empty = Store.empty := rfl

theorem toNat_ofNat_idW {idx : ℕ} (h : idx < idSpace) : (BitVec.ofNat idW idx).toNat = idx := by
  rw [BitVec.toNat_ofNat]
  exact Nat.mod_eq_of_lt h

theorem ofNat_idW_eq_iff {idx : ℕ} (h : idx < idSpace) (i : BitVec idW) :
    i = BitVec.ofNat idW idx ↔ i.toNat = idx := by
  rw [← BitVec.toNat_inj, toNat_ofNat_idW h]

theorem mirror_set (model : Dict ℕ ℕ) {idx : ℕ} (h : idx < idSpace) (members : ℕ) :
    Store.put (mirror model) (.ofNat idW idx, some (.ofNat maxPorts members)) =
      mirror (model.set idx members) := by
  funext i
  simp only [Store.put, Function.update_apply, mirror, Dict.get?_set, ofNat_idW_eq_iff h]
  by_cases hi : i.toNat = idx
  · rw [if_pos hi, if_pos hi, Option.map_some]
  · rw [if_neg hi, if_neg hi]

theorem mirror_erase (model : Dict ℕ ℕ) {idx : ℕ} (h : idx < idSpace) :
    Store.put (mirror model) (.ofNat idW idx, none) = mirror (model.erase idx) := by
  funext i
  simp only [Store.put, Function.update_apply, mirror, Dict.get?_erase, ofNat_idW_eq_iff h]
  by_cases hi : i.toNat = idx
  · rw [if_pos hi, if_pos hi, Option.map_none]
  · rw [if_neg hi, if_neg hi]

namespace Implements

variable (C : Implements P D)

/-- Out of reset and with no write on its port, the design holds what the
dictionary does. -/
structure Mirrors (model : Dict ℕ ℕ) (w : Wired D.σ Inputs) : Prop where
  rstN : w.pins.rstN = true
  wrEn : w.pins.wrEn = false
  contents : C.contents w.regs = mirror model

variable {C} {model : Dict ℕ ℕ} {w : Wired D.σ Inputs}

/-! ## The programs on a design that implements the contract -/

theorem contents_settle_of_high {q : D.σ} {i : Inputs} (h : i.rstN = true) :
    C.contents (D.machine.settle q i) = C.contents q := by
  rw [C.simulates.settle, Machine.settle_of_high _ h]

theorem contents_settle_of_low {q : D.σ} {i : Inputs} (h : i.rstN = false) :
    C.contents (D.machine.settle q i) = Store.empty := by
  rw [C.simulates.settle, Machine.settle_of_low _ h]
  rfl

/-- One rising edge with the reset high does the write on the port. -/
theorem contents_edge_of_high {q : D.σ} {i : Inputs} (h : i.rstN = true) :
    C.contents (D.machine.edge q i) =
      (ports P i).write.elim (C.contents q) (Store.put (C.contents q)) := by
  have hrst : (ports P i).rstN = true := h
  rw [C.simulates.edge, Store.machine]
  simp only [hrst, if_true]

theorem ports_write_of_disabled {i : Inputs} (h : i.wrEn = false) : (ports P i).write = none := by
  simp [ports, presented, h]

/-- Driving the pins, with the reset and the write port left alone. -/
theorem mirrors_of_driven {q : D.σ} (h : C.contents q = mirror model) {i : Inputs}
    (hrst : i.rstN = true) (hwr : i.wrEn = false) :
    C.Mirrors model ⟨D.machine.settle q i, i⟩ :=
  ⟨hrst, hwr, by rw [contents_settle_of_high hrst, h]⟩

/-- An edge with no write on the port. -/
theorem Mirrors.tick (h : C.Mirrors model w) :
    wp (tick D.machine : Tb D Unit) (fun _ => C.Mirrors model) w := by
  rw [wp_tick]
  refine ⟨h.rstN, h.wrEn, ?_⟩
  rw [contents_settle_of_high h.rstN, contents_edge_of_high h.rstN,
    ports_write_of_disabled h.wrEn, Option.elim_none, h.contents]

variable (C) in
/-- The reset is low, so the design is empty. -/
structure InReset (w : Wired D.σ Inputs) : Prop where
  rstN : w.pins.rstN = false
  wrEn : w.pins.wrEn = false
  contents : C.contents w.regs = Store.empty

theorem inReset_of_driven (q : D.σ) {i : Inputs} (hrst : i.rstN = false)
    (hwr : i.wrEn = false) : C.InReset ⟨D.machine.settle q i, i⟩ :=
  ⟨hrst, hwr, contents_settle_of_low hrst⟩

/-- The reset is lowered. -/
theorem Mirrors.lower (h : C.Mirrors model w) :
    C.InReset
      ⟨D.machine.settle w.regs { w.pins with rstN := false }, { w.pins with rstN := false }⟩ := by
  have hdis : ({ w.pins with rstN := false } : Inputs).wrEn = false := h.wrEn
  exact inReset_of_driven _ rfl hdis

theorem InReset.wp_tick (h : C.InReset w) :
    wp (tick D.machine : Tb D Unit) (fun _ => C.InReset) w :=
  Bench.wp_tick.mpr (inReset_of_driven _ h.rstN h.wrEn)

/-- The reset is released, and one edge passes. -/
theorem InReset.release (h : C.InReset w) :
    wp (tick D.machine : Tb D Unit) (fun _ => C.Mirrors Dict.empty)
      ⟨D.machine.settle w.regs { w.pins with rstN := true }, { w.pins with rstN := true }⟩ := by
  have hhigh : ({ w.pins with rstN := true } : Inputs).rstN = true := rfl
  exact (mirrors_of_driven (h.contents.trans mirror_empty.symm) hhigh h.wrEn).tick

theorem mirrors_after_start (w : Wired D.σ Inputs) :
    wp (start D) (fun _ => C.Mirrors Dict.empty) w := by
  rw [start, wp_bind, wp_drive]
  refine wp_bind_of (wp_ticks (I := fun _ => C.InReset) (fun _ _ h => wp_tick.mp h.wp_tick)
    (inReset_of_driven _ rfl rfl)) fun _ w h => ?_
  exact wp_bind.mpr (wp_drive.mpr h.release)

/-- The dictionary after a write of the testbench. -/
def written (P : Params) (model : Dict ℕ ℕ) (idx : ℕ) (valid : Bool) (members : ℕ) :
    Dict ℕ ℕ :=
  if idx < P.groupTableEntries then
    if valid then model.set idx members else model.erase idx
  else model

theorem written_of_lt {idx : ℕ} (h : idx < P.groupTableEntries) (members : ℕ) :
    written P model idx true members = model.set idx members := by
  rw [written, if_pos h, if_pos rfl]

theorem mirror_written {idx : ℕ} (h : idx < idSpace) (valid : Bool) (members : ℕ) (i : Inputs) :
    (ports P (present idx valid members i)).write.elim (mirror model) (Store.put (mirror model)) =
      mirror (written P model idx valid members) := by
  have hrange : inRange P (BitVec.ofNat idW idx) = decide (idx < P.groupTableEntries) := by
    rw [inRange, toNat_ofNat_idW h]
  by_cases hidx : idx < P.groupTableEntries
  · cases valid with
    | true => simp [ports, presented, present, storeWrite, hrange, hidx, Write.value, written,
        mirror_set model h]
    | false => simp [ports, presented, present, storeWrite, hrange, hidx, Write.value, written,
        mirror_erase model h]
  · simp [ports, presented, present, storeWrite, hrange, hidx, written]

variable (C) in
/-- A write is on the port, and the design holds what the dictionary does. -/
structure Presents (model : Dict ℕ ℕ) (idx : ℕ) (valid : Bool) (members : ℕ)
    (w : Wired D.σ Inputs) : Prop where
  pins : ∃ i, w.pins = present idx valid members i
  rstN : w.pins.rstN = true
  contents : C.contents w.regs = mirror model

section Write

variable {idx members : ℕ} {valid : Bool}

/-- Nothing is written before the edge. -/
theorem Mirrors.present (h : C.Mirrors model w) :
    C.Presents model idx valid members
      ⟨D.machine.settle w.regs (present idx valid members w.pins),
        present idx valid members w.pins⟩ := by
  have hhigh : (Testbench.present idx valid members w.pins).rstN = true := h.rstN
  exact ⟨⟨_, rfl⟩, hhigh, (contents_settle_of_high hhigh).trans h.contents⟩

/-- The edge does to the design what the write does to the dictionary. -/
theorem Presents.wp_tick (h : C.Presents model idx valid members w) (hidx : idx < idSpace) :
    wp (tick D.machine : Tb D Unit)
      (fun _ => C.Presents (written P model idx valid members) idx valid members) w := by
  obtain ⟨i, hpins⟩ := h.pins
  refine Bench.wp_tick.mpr ⟨h.pins, h.rstN, ?_⟩
  rw [contents_settle_of_high h.rstN, contents_edge_of_high h.rstN, h.contents, hpins,
    mirror_written hidx]

/-- The write is taken off the port. -/
theorem Presents.disable (h : C.Presents model idx valid members w) :
    C.Mirrors model
      ⟨D.machine.settle w.regs { w.pins with wrEn := false }, { w.pins with wrEn := false }⟩ := by
  have hhigh : ({ w.pins with wrEn := false } : Inputs).rstN = true := h.rstN
  exact mirrors_of_driven h.contents hhigh rfl

/-- A write does to the design what it does to the dictionary. -/
theorem Mirrors.write (h : C.Mirrors model w) (hidx : idx < idSpace) (valid : Bool)
    (members : ℕ) :
    wp (write D idx valid members)
      (fun _ => C.Mirrors (written P model idx valid members)) w := by
  rw [Testbench.write, wp_bind, wp_drive]
  refine wp_bind_of (h.present.wp_tick hidx) fun _ w h => ?_
  exact wp_drive.mpr h.disable

end Write

/-- What a read of an index shows, given the dictionary. -/
structure Shows (P : Params) (model : Dict ℕ ℕ) (idx : ℕ) (got : Option ℕ × Option ℕ) :
    Prop where
  valid : got.1 = some (model.get? idx).isSome.toNat
  members : ∀ m, model.get? idx = some m → m < 2 ^ maxPorts → got.2 = some m
  out : P.groupTableEntries ≤ idx → got.2 = some 0

/-- The outputs follow the index with no edge in between. -/
theorem shows_of_contents {q : D.σ} (h : C.contents q = mirror model) {idx : ℕ}
    (hidx : idx < idSpace) {i : Inputs} (hpin : i.rdIdx = .ofNat idW idx) :
    Shows P model idx (D.rdValidBit q i, D.rdMembers q i) := by
  have hentry : C.contents q i.rdIdx = (model.get? idx).map (BitVec.ofNat maxPorts) := by
    rw [h, hpin, mirror, toNat_ofNat_idW hidx]
  constructor
  · rw [C.rdValidBit, hentry, Option.isSome_map]
  · intro m hm hfit
    rw [hm, Option.map_some] at hentry
    rw [C.rdMembers _ _ _ hentry, BitVec.toNat_ofNat, Nat.mod_eq_of_lt hfit]
  · intro hout
    refine C.rdMembers_out _ _ ?_
    rwa [hpin, toNat_ofNat_idW hidx]

/-- A read shows what the dictionary has, whether an edge falls into it or not. -/
theorem Mirrors.read (h : C.Mirrors model w) {idx : ℕ} (hidx : idx < idSpace) (edge : Bool) :
    wp (read D idx edge) (fun got w' => C.Mirrors model w' ∧ Shows P model idx got) w := by
  have hdriven : C.Mirrors model
      ⟨D.machine.settle w.regs { w.pins with rdIdx := .ofNat idW idx },
        { w.pins with rdIdx := .ofNat idW idx }⟩ :=
    mirrors_of_driven h.contents h.rstN h.wrEn
  rw [Testbench.read, wp_bind, wp_drive]
  refine wp_bind_of (wp_ticks (I := fun _ w' => C.Mirrors model w' ∧
    w'.pins.rdIdx = .ofNat idW idx) ?_ ⟨hdriven, rfl⟩) fun _ w' h' => ?_
  · intro _ w' h'
    exact ⟨wp_tick.mp h'.1.tick, h'.2⟩
  · exact wp_sample.mpr ⟨h'.1, shows_of_contents h'.1.contents hidx h'.2⟩

/-- So does one made while a write is waiting for its edge. -/
theorem Presents.read {idx idx' members : ℕ} {valid : Bool}
    (h : C.Presents model idx valid members w) (hidx : idx' < idSpace) :
    wp (read D idx' false) (fun got w' =>
      C.Presents model idx valid members w' ∧ Shows P model idx' got) w := by
  obtain ⟨i, hpins⟩ := h.pins
  have hhigh : ({ w.pins with rdIdx := .ofNat idW idx' } : Inputs).rstN = true := h.rstN
  have hcontents := (contents_settle_of_high (C := C) (q := w.regs) hhigh).trans h.contents
  rw [Testbench.read, wp_bind, wp_drive, wp_bind, Bool.toNat_false, ticks, wp_pure, wp_sample]
  refine ⟨⟨⟨{ i with rdIdx := .ofNat idW idx' }, ?_⟩, hhigh, hcontents⟩, ?_⟩
  · rw [hpins]
    rfl
  · exact shows_of_contents hcontents hidx rfl

/-- A read with an assertion that holds of what the dictionary has. -/
theorem Mirrors.check (h : C.Mirrors model w) {idx : ℕ} (hidx : idx < idSpace) (edge : Bool)
    {y : Option ℕ × Option ℕ → Except Exception Unit}
    (hy : ∀ got, Shows P model idx got → y got = .ok ()) :
    wp (do let got ← Testbench.read D idx edge; lift (y got)) (fun _ => C.Mirrors model) w :=
  wp_bind_of (h.read hidx edge) fun got _ h' => wp_lift_unit.mpr ⟨hy got h'.2, h'.1⟩

/-- The dictionary after the indices of a list have been written with all members. -/
def filled (l : List ℕ) : Dict ℕ ℕ := Dict.ofList (l.map fun idx => (idx, maskAll))

theorem get?_filled_range (n idx : ℕ) :
    (filled (List.range n)).get? idx = if idx < n then some maskAll else none := by
  have hkeys : (((List.range n).map fun idx => (idx, maskAll)).map Prod.fst) = List.range n := by
    rw [List.map_map]
    exact List.map_id _
  have hnodup : (((List.range n).map fun idx => (idx, maskAll)).map Prod.fst).Nodup := by
    rw [hkeys]
    exact List.nodup_range
  by_cases hidx : idx < n
  · rw [if_pos hidx, filled, Dict.get?_ofList_eq_some_iff hnodup]
    exact List.mem_map_of_mem (List.mem_range.mpr hidx)
  · rw [if_neg hidx, Dict.get?_eq_none_iff, filled, Dict.mem_ofList_iff, hkeys, List.mem_range]
    exact hidx

theorem Mirrors.fill (h : C.Mirrors Dict.empty w) :
    wp (fill P D) (fun _ => C.Mirrors (filled (List.range P.groupTableEntries))) w := by
  refine wp_forM (I := fun done => C.Mirrors (filled done)) ?_ h
  intro done idx rest w hl h
  have hidx : idx < P.groupTableEntries := by
    rw [← List.mem_range, hl]
    simp
  have hwrite := h.write (hidx.trans_le P.entries_le) true maskAll
  rw [written_of_lt hidx] at hwrite
  rw [filled, List.map_append, Dict.ofList, List.foldl_append]
  exact hwrite

end Implements

end GroupTable.Testbench
