import Spec2Inc.Verif.GroupTable.Contract

/-!
# What the testbench of `group_table` accepts

A design that implements the contract passes the seven tests whatever it held
before, except for two that need a table of two entries (`groupTable_passes_iff`). The
module of the repository is such a design (`implementsRtl`).
-/

open Clocked Clocked.Bench Python Spec2incPkg

namespace GroupTable.Testbench

variable {P : Params} {D : Dut}

namespace Implements

variable {C : Implements P D} {model : Dict ℕ ℕ} {w : Wired D.σ Inputs}

/-! ## The tests -/

theorem idxAt_lt (P : Params) (num den : ℕ) : idxAt P num den < P.groupTableEntries := by
  have := P.entries_pos
  rw [idxAt]
  omega

@[simp] theorem assertMask_eq_ok_iff {cond : Prop} [Decidable cond] {got : Option ℕ}
    {msg : String → String} : assertMask cond got msg = .ok () ↔ cond := by
  by_cases h : cond
  · simp [assertMask, h]
  · cases got <;> simp [assertMask, h, formatMask, bind, Except.bind]

theorem passes_resetClearsEveryEntry (C : Implements P D) (edges : ℕ → Bool)
    (w : Wired D.σ Inputs) : Passes (resetClearsEveryEntry P D edges) w := by
  rw [Passes, resetClearsEveryEntry]
  refine wp_bind_of (mirrors_after_start (C := C) w) fun _ w h => ?_
  refine wp_bind_of h.fill fun _ w h => ?_
  refine wp_bind_of (wp_forM_of_mem ?_ h) fun _ w h => ?_
  · intro idx hmem w h
    have hidx : idx < P.groupTableEntries := by
      have := P.entries_pos
      simp only [List.mem_cons, List.not_mem_nil, or_false] at hmem
      omega
    refine h.check (hidx.trans_le P.entries_le) false fun got hgot => ?_
    rw [assertThat_eq_ok_iff, hgot.valid, get?_filled_range, if_pos hidx]
    rfl
  rw [wp_bind, wp_drive]
  refine wp_bind_of h.lower.wp_tick fun _ w h => ?_
  rw [wp_bind, wp_drive]
  refine wp_bind_of h.release fun _ w h => ?_
  refine wp_mono (wp_forM_of_mem ?_ h) fun _ _ _ => trivial
  intro idx hmem w h
  have hidx : idx < P.groupTableEntries := List.mem_range.mp hmem
  refine h.check (hidx.trans_le P.entries_le) (edges idx) fun got hgot => ?_
  rw [assertThat_eq_ok_iff, hgot.valid]
  rfl

theorem passes_entriesCanBeInvalidated (C : Implements P D) (w : Wired D.σ Inputs) :
    Passes (entriesCanBeInvalidated P D) w := by
  have hidx : idxAt P 1 2 < P.groupTableEntries := idxAt_lt P 1 2
  have hspace : idxAt P 1 2 < idSpace := hidx.trans_le P.entries_le
  rw [Passes, entriesCanBeInvalidated]
  refine wp_bind_of (mirrors_after_start (C := C) w) fun _ w h => ?_
  refine wp_bind_of (h.write hspace true maskAll) fun _ w h => ?_
  refine wp_bind_of (h.read hspace false) fun got w hgot => ?_
  refine wp_bind.mpr (wp_lift_unit.mpr ⟨?_, ?_⟩)
  · rw [assertThat_eq_ok_iff, hgot.2.valid, written_of_lt hidx, Dict.get?_set_self]
    rfl
  refine wp_bind_of (hgot.1.write hspace false maskAll) fun _ w h => ?_
  refine wp_bind_of (h.read hspace false) fun got w hgot => ?_
  refine wp_lift_unit.mpr ⟨?_, trivial⟩
  rw [assertThat_eq_ok_iff, hgot.2.valid, written, if_pos hidx, if_neg (by decide),
    Dict.get?_erase, if_pos rfl]
  rfl

theorem passes_writesAreSynchronous (C : Implements P D) (w : Wired D.σ Inputs) :
    Passes (writesAreSynchronous P D) w := by
  have hidx : idxAt P 1 2 < P.groupTableEntries := idxAt_lt P 1 2
  have hspace : idxAt P 1 2 < idSpace := hidx.trans_le P.entries_le
  rw [Passes, writesAreSynchronous]
  refine wp_bind_of (mirrors_after_start (C := C) w) fun _ w h => ?_
  refine wp_bind_of (h.write hspace true 0x0F0F) fun _ w h => ?_
  have hold : (written P Dict.empty (idxAt P 1 2) true 0x0F0F).get? (idxAt P 1 2) =
      some 0x0F0F := by
    rw [written_of_lt hidx, Dict.get?_set_self]
  rw [wp_bind, wp_drive]
  refine wp_bind_of (h.present.read hspace) fun got w hgot => ?_
  refine wp_bind.mpr (wp_lift_unit.mpr ⟨?_, ?_⟩)
  · rw [assertThat_eq_ok_iff]
    exact hgot.2.members _ hold (by decide)
  refine wp_bind_of (hgot.1.wp_tick hspace) fun _ w h => ?_
  rw [wp_bind, wp_drive]
  refine wp_bind_of (h.disable.read hspace false) fun got w hgot => ?_
  refine wp_lift_unit.mpr ⟨?_, trivial⟩
  rw [assertThat_eq_ok_iff]
  refine hgot.2.members _ ?_ (by decide)
  rw [written_of_lt hidx, Dict.get?_set_self]

theorem passes_outOfRangeReadsAreInvalid (C : Implements P D) (edges : ℕ → Bool)
    (w : Wired D.σ Inputs) : Passes (outOfRangeReadsAreInvalid P D edges) w := by
  rw [Passes, outOfRangeReadsAreInvalid]
  by_cases hcovers : P.groupTableEntries ≥ idSpace
  · rw [if_pos hcovers]
    exact wp_pure.mpr trivial
  · rw [if_neg hcovers]
    refine wp_bind_of (mirrors_after_start (C := C) w) fun _ w h => ?_
    refine wp_bind_of h.fill fun _ w h => ?_
    refine wp_mono (wp_forM_of_mem ?_ h) fun _ _ _ => trivial
    intro idx hmem w h
    obtain ⟨hout, hlt⟩ := List.mem_range'_1.mp hmem
    have hspace : idx < idSpace := by omega
    refine wp_bind_of (h.read hspace (edges idx)) fun got w hgot => ?_
    refine wp_bind.mpr (wp_lift_unit.mpr ⟨?_, wp_lift_unit.mpr ⟨?_, hgot.1⟩⟩)
    · rw [assertThat_eq_ok_iff, hgot.2.valid, get?_filled_range, if_neg (Nat.not_lt.mpr hout)]
      rfl
    · rw [assertMask_eq_ok_iff]
      exact hgot.2.out hout

theorem Mirrors.writeAndReadBack (h : C.Mirrors model w) {idx : ℕ}
    (hidx : idx < P.groupTableEntries) (draw : ℕ) :
    wp (writeAndReadBack D idx draw)
      (fun _ => C.Mirrors (model.set idx (getrandbits maxPorts draw))) w := by
  have hspace : idx < idSpace := hidx.trans_le P.entries_le
  rw [Testbench.writeAndReadBack]
  refine wp_bind_of (h.write hspace true (getrandbits maxPorts draw)) fun _ w h => ?_
  rw [written_of_lt hidx] at h
  refine wp_bind_of (h.read hspace false) fun got w hgot => ?_
  refine wp_bind.mpr (wp_lift_unit.mpr ⟨?_, wp_lift_unit.mpr ⟨?_, hgot.1⟩⟩)
  · rw [assertThat_eq_ok_iff, hgot.2.valid, Dict.get?_set_self]
    rfl
  · rw [assertMask_eq_ok_iff]
    exact hgot.2.members _ (Dict.get?_set_self _ _ _) (getrandbits_lt maxPorts draw)

/-- Beyond the table nothing is written, and the entry does not become valid. -/
theorem Mirrors.not_passes_writeAndReadBack (h : C.Mirrors model w) {idx : ℕ}
    (hout : P.groupTableEntries ≤ idx) (hspace : idx < idSpace) (hnone : model.get? idx = none)
    (draw : ℕ) : ¬ Passes (Testbench.writeAndReadBack D idx draw) w := by
  rw [Testbench.writeAndReadBack]
  refine not_wp_bind (h.write hspace true (getrandbits maxPorts draw)) fun _ w h => ?_
  rw [written, if_neg (Nat.not_lt.mpr hout)] at h
  refine not_wp_bind (h.read hspace false) fun got w hgot => ?_
  rw [wp_bind, wp_lift_unit, assertThat_eq_ok_iff, hgot.2.valid, hnone]
  rintro ⟨hvalid, -⟩
  cases hvalid

theorem passes_writeThenReadReturnsTheEntry_iff (C : Implements P D) (draws : ℕ → ℕ)
    (w : Wired D.σ Inputs) :
    Passes (writeThenReadReturnsTheEntry P D draws) w ↔ 2 ≤ P.groupTableEntries := by
  have hpos := P.entries_pos
  constructor
  · intro hpasses
    by_contra hsmall
    have hone : P.groupTableEntries = 1 := by omega
    refine not_wp_bind (mirrors_after_start (C := C) w) (fun _ w h => ?_) hpasses
    rw [List.zipIdx_cons, List.forM_cons, List.zipIdx_cons, List.forM_cons]
    refine not_wp_bind (h.writeAndReadBack (by omega) (draws 0)) fun _ w h => ?_
    refine not_wp_bind_of_not_passes (h.not_passes_writeAndReadBack hone.le (by decide) ?_ _)
    rw [Dict.get?_set_of_ne _ Nat.one_ne_zero]
    rfl
  · intro htwo
    refine wp_bind_of (mirrors_after_start (C := C) w) fun _ w h => ?_
    refine wp_mono (wp_forM_of_mem (I := fun w => ∃ model, C.Mirrors model w) ?_ ⟨_, h⟩)
      fun _ _ _ => trivial
    rintro p hp w ⟨model, h⟩
    have hmem := List.fst_mem_of_mem_zipIdx hp
    have hidx : p.1 < P.groupTableEntries := by
      simp only [List.mem_cons, List.not_mem_nil, or_false] at hmem
      omega
    exact wp_mono (h.writeAndReadBack hidx (draws p.2)) fun _ _ h => ⟨_, h⟩

theorem passes_readsAreCombinational_iff (C : Implements P D) (w : Wired D.σ Inputs) :
    Passes (readsAreCombinational P D) w ↔ 2 ≤ P.groupTableEntries := by
  have hdistinct : 0 ≠ idxAt P 3 4 ↔ 2 ≤ P.groupTableEntries := by
    rw [idxAt]
    omega
  rw [← hdistinct]
  refine wp_bind_iff (mirrors_after_start (C := C) w) fun _ w h => ?_
  rw [wp_bind, wp_lift_unit, assertThat_eq_ok_iff]
  refine ⟨And.left, fun hne => ⟨hne, ?_⟩⟩
  have hb : idxAt P 3 4 < P.groupTableEntries := idxAt_lt P 3 4
  have hspace : idxAt P 3 4 < idSpace := hb.trans_le P.entries_le
  refine wp_bind_of (h.write (by decide) true 0xFF) fun _ w h => ?_
  refine wp_bind_of (h.write hspace true 0xFF00000000000000) fun _ w h => ?_
  rw [written_of_lt hb, written_of_lt (Nat.lt_of_succ_le P.entries_pos)] at h
  refine wp_bind_of (h.read (by decide) false) fun a w ha => ?_
  refine wp_bind.mpr (wp_lift_unit.mpr ⟨?_, ?_⟩)
  · rw [assertThat_eq_ok_iff]
    refine ha.2.members _ ?_ (by decide)
    rw [Dict.get?_set_of_ne _ hne, Dict.get?_set_self]
  refine wp_bind_of (ha.1.read hspace false) fun b w hb => ?_
  refine wp_lift_unit.mpr ⟨?_, trivial⟩
  rw [assertThat_eq_ok_iff]
  exact hb.2.members _ (Dict.get?_set_self _ _ _) (by decide)

/-! The test with a dictionary as its oracle. -/

/-- The dictionary has indices of the table and masks that fit. -/
def Sound (P : Params) (model : Dict ℕ ℕ) : Prop :=
  ∀ p ∈ model.items, p.1 < P.groupTableEntries ∧ p.2 < 2 ^ maxPorts

theorem Sound.set (h : Sound P model) {idx members : ℕ} (hidx : idx < P.groupTableEntries)
    (hfit : members < 2 ^ maxPorts) : Sound P (model.set idx members) := by
  intro p hp
  rcases Dict.eq_or_mem_of_mem_items_set hp with rfl | hp
  · exact ⟨hidx, hfit⟩
  · exact h p hp

theorem Mirrors.writeRandom (h : C.Mirrors model w) (hsound : Sound P model) {idx : ℕ}
    (hidx : idx < P.groupTableEntries) (draw : ℕ) :
    wp (writeRandom D model idx draw)
      (fun model' w' => C.Mirrors model' w' ∧ Sound P model') w := by
  rw [Testbench.writeRandom]
  refine wp_bind_of (h.write (hidx.trans_le P.entries_le) true (getrandbits maxPorts draw))
    fun _ w h => wp_pure.mpr ⟨?_, hsound.set hidx (getrandbits_lt maxPorts draw)⟩
  rwa [written_of_lt hidx] at h

theorem Mirrors.compare (h : C.Mirrors model w) (hsound : Sound P model) (what : String)
    (edges : ℕ → Bool) : wp (compare D model what edges) (fun _ => C.Mirrors model) w := by
  refine wp_forM_of_mem (fun p hp w h => ?_) h
  have hmem : p.1 ∈ model.items := List.fst_mem_of_mem_zipIdx hp
  have hget : model.get? p.1.1 = some p.1.2 := (Dict.get?_eq_some_iff _ _ _).mpr hmem
  obtain ⟨hidx, hfit⟩ := hsound _ hmem
  refine h.check (hidx.trans_le P.entries_le) (edges p.2) fun got hgot => ?_
  rw [assertMask_eq_ok_iff]
  refine ⟨?_, hgot.members _ hget hfit⟩
  rw [hgot.valid, hget]
  rfl

theorem passes_entriesAreIndependent (C : Implements P D) (draws : ℕ → ℕ) (edges : ℕ → Bool)
    (w : Wired D.σ Inputs) : Passes (entriesAreIndependent P D draws edges) w := by
  rw [Passes, entriesAreIndependent]
  refine wp_bind_of (mirrors_after_start (C := C) w) fun _ w h => ?_
  have hempty : Sound P Dict.empty := fun _ hp => absurd hp List.not_mem_nil
  refine wp_bind_of (wp_foldlM (I := fun _ model w => C.Mirrors model w ∧ Sound P model) ?_
    ⟨h, hempty⟩) fun model w h => ?_
  · intro done idx rest model w hl h
    have hidx : idx < P.groupTableEntries := by
      rw [← List.mem_range, hl]
      exact List.mem_append_cons_self
    exact h.1.writeRandom h.2 hidx (draws idx)
  refine wp_bind_of (h.1.compare h.2 _ edges) fun _ w h' => ?_
  refine wp_bind_of (wp_foldlM (I := fun _ model w => C.Mirrors model w ∧ Sound P model) ?_
    ⟨h', h.2⟩) fun model w h => ?_
  · intro done p rest model w hl h
    have hmem : p.1 ∈ List.range P.groupTableEntries :=
      mem_of_mem_sampleOf (List.fst_mem_of_mem_zipIdx (hl ▸ List.mem_append_cons_self))
    exact h.1.writeRandom h.2 (List.mem_range.mp hmem) _
  exact wp_mono (h.1.compare h.2 _ _) fun _ _ _ => trivial

end Implements

/-! ## The verdict -/

/-- The two tests that address a second entry. -/
def Test.NeedsTwo (t : Test) : Prop :=
  t = .writeThenReadReturnsTheEntry ∨ t = .readsAreCombinational

/-- Whatever the design holds before, the random numbers are and the edges fall
into, a design that implements the contract passes every test, save the two that
address a second entry where the table has one. -/
theorem groupTable_passes_iff (C : Implements P D) (draws : ℕ → ℕ) (edges : ℕ → Bool)
    (w : Wired D.σ Inputs) (t : Test) :
    Passes (t.run P D draws edges) w ↔ (t.NeedsTwo → 2 ≤ P.groupTableEntries) := by
  cases t with
  | resetClearsEveryEntry =>
      exact iff_of_true (C.passes_resetClearsEveryEntry edges w) (by simp [Test.NeedsTwo])
  | writeThenReadReturnsTheEntry =>
      simpa [Test.run, Test.NeedsTwo] using C.passes_writeThenReadReturnsTheEntry_iff draws w
  | readsAreCombinational =>
      simpa [Test.run, Test.NeedsTwo] using C.passes_readsAreCombinational_iff w
  | writesAreSynchronous =>
      exact iff_of_true (C.passes_writesAreSynchronous w) (by simp [Test.NeedsTwo])
  | entriesAreIndependent =>
      exact iff_of_true (C.passes_entriesAreIndependent draws edges w) (by simp [Test.NeedsTwo])
  | entriesCanBeInvalidated =>
      exact iff_of_true (C.passes_entriesCanBeInvalidated w) (by simp [Test.NeedsTwo])
  | outOfRangeReadsAreInvalid =>
      exact iff_of_true (C.passes_outOfRangeReadsAreInvalid edges w) (by simp [Test.NeedsTwo])

/-- The module of the repository. -/
def rtl (P : Params) : Dut where
  σ := Regs P
  machine := table P
  rdValidBit q i := some (rdValidBit q i.rdIdx).toNat
  rdMembers q i := some (rdMembers q i.rdIdx).toNat

/-- It implements the contract. -/
def implementsRtl (P : Params) : Implements P (rtl P) where
  contents := entry
  simulates := simulates_store P
  rdValidBit q i := by
    cases hvalid : GroupTable.rdValidBit q i.rdIdx <;> simp [rtl, entry, hvalid]
  rdMembers q i m hm := by
    cases hvalid : GroupTable.rdValidBit q i.rdIdx with
    | false => simp [entry, hvalid] at hm
    | true =>
        obtain rfl : GroupTable.rdMembers q i.rdIdx = m := by simpa [entry, hvalid] using hm
        rfl
  rdMembers_out q i hout := by
    have hr : inRange P i.rdIdx = false := by simpa [inRange] using hout
    simp [rtl, GroupTable.rdMembers, hr]

end GroupTable.Testbench
