import Spec2Inc.Verif.GroupTable.Verdict

/-!
# The skeleton of `group_table`

An implement-from-spec run starts from an interface with its outputs tied low,
whose header says that it fails every test. It passes the one that only asks for
zeros, and no other (`skeleton_passes_iff`).
-/

open Clocked Clocked.Bench Python Spec2incPkg

namespace GroupTable.Testbench

/-- The interface skeleton, whose outputs are tied low. -/
def skeleton : Dut where
  σ := Unit
  machine := { rstN := Inputs.rstN, clear := id, edge := fun q _ => q }
  rdValidBit _ _ := some 0
  rdMembers _ _ := some 0

section Returns

variable (D : Dut) (w : Wired D.σ Inputs)

/-- Starting and writing never raise. -/
theorem passes_start : Passes (start D) w := by
  refine wp_bind.mpr (wp_drive.mpr (wp_bind_of (wp_ticks (I := fun _ _ => True)
    (fun _ _ _ => trivial) trivial) fun _ _ _ => ?_))
  exact wp_bind.mpr (wp_drive.mpr (wp_tick.mpr trivial))

theorem passes_write (idx : ℕ) (valid : Bool) (members : ℕ) :
    Passes (write D idx valid members) w :=
  wp_bind.mpr (wp_drive.mpr (wp_bind.mpr (wp_tick.mpr (wp_drive.mpr trivial))))

theorem passes_fill (P : Params) : Passes (fill P D) w :=
  wp_forM_of_mem (I := fun _ => True) (fun idx _ w _ => passes_write D w idx true maskAll) trivial

end Returns

section Skeleton

variable (w : Wired skeleton.σ Inputs)

/-- Every read of the skeleton shows zeros. -/
theorem wp_read_skeleton (idx : ℕ) (edge : Bool) :
    wp (read skeleton idx edge) (fun got _ => got = (some 0, some 0)) w := by
  refine wp_bind.mpr (wp_drive.mpr (wp_bind_of (wp_ticks (I := fun _ _ => True)
    (fun _ _ _ => trivial) trivial) fun _ _ _ => ?_))
  exact wp_sample.mpr rfl

/-- So an assertion that asks for anything else fails. -/
theorem not_wp_read_skeleton {α : Type} (idx : ℕ) (edge : Bool)
    {y : Option ℕ × Option ℕ → Except Exception Unit}
    {f : Option ℕ × Option ℕ → Unit → Tb skeleton α}
    {Q : α → Wired skeleton.σ Inputs → Prop} (hy : y (some 0, some 0) ≠ .ok ()) :
    ¬ wp (do
      let got ← read skeleton idx edge
      lift (y got) >>= f got) Q w := by
  refine not_wp_bind (wp_read_skeleton w idx edge) fun got w' hgot => ?_
  rw [hgot, wp_bind, wp_lift_unit]
  exact fun h => hy h.1

theorem not_passes_read_skeleton (idx : ℕ) (edge : Bool)
    {y : Option ℕ × Option ℕ → Except Exception Unit} (hy : y (some 0, some 0) ≠ .ok ()) :
    ¬ Passes (do
      let got ← read skeleton idx edge
      lift (y got)) w := by
  refine not_wp_bind (wp_read_skeleton w idx edge) fun got w' hgot => ?_
  rw [hgot, wp_lift_unit]
  exact fun h => hy h.1

variable (P : Params) (draws : ℕ → ℕ) (edges : ℕ → Bool)

theorem not_passes_resetClearsEveryEntry_skeleton :
    ¬ Passes (resetClearsEveryEntry P skeleton edges) w := by
  refine not_wp_bind (passes_start skeleton w) fun _ w _ => ?_
  refine not_wp_bind (passes_fill skeleton w P) fun _ w _ => ?_
  refine not_wp_bind_of_not_passes ?_
  rw [List.forM_cons]
  refine not_wp_bind_of_not_passes (not_passes_read_skeleton w 0 false ?_)
  simp

theorem not_passes_writeThenReadReturnsTheEntry_skeleton :
    ¬ Passes (writeThenReadReturnsTheEntry P skeleton draws) w := by
  refine not_wp_bind (passes_start skeleton w) fun _ w _ => ?_
  rw [List.zipIdx_cons, List.forM_cons]
  refine not_wp_bind_of_not_passes ?_
  refine not_wp_bind (passes_write skeleton w 0 true _) fun _ w _ => ?_
  refine not_wp_read_skeleton w 0 false ?_
  simp

theorem not_passes_readsAreCombinational_skeleton :
    ¬ Passes (readsAreCombinational P skeleton) w := by
  refine not_wp_bind (passes_start skeleton w) fun _ w _ => ?_
  rw [wp_bind, wp_lift_unit]
  rintro ⟨-, h⟩
  refine not_wp_bind (passes_write skeleton w _ true _) (fun _ w _ => ?_) h
  refine not_wp_bind (passes_write skeleton w _ true _) fun _ w _ => ?_
  refine not_wp_read_skeleton w 0 false ?_
  simp

theorem not_passes_writesAreSynchronous_skeleton :
    ¬ Passes (writesAreSynchronous P skeleton) w := by
  refine not_wp_bind (passes_start skeleton w) fun _ w _ => ?_
  refine not_wp_bind (passes_write skeleton w _ true _) fun _ w _ => ?_
  rw [wp_bind, wp_drive]
  refine not_wp_read_skeleton _ _ false ?_
  simp

theorem not_passes_entriesCanBeInvalidated_skeleton :
    ¬ Passes (entriesCanBeInvalidated P skeleton) w := by
  refine not_wp_bind (passes_start skeleton w) fun _ w _ => ?_
  refine not_wp_bind (passes_write skeleton w _ true _) fun _ w _ => ?_
  refine not_wp_read_skeleton w _ false ?_
  simp

theorem not_passes_compare_skeleton {model : Dict ℕ ℕ} (hmodel : model.items ≠ [])
    (what : String) : ¬ Passes (compare skeleton model what edges) w := by
  obtain ⟨p, items, hitems⟩ := List.exists_cons_of_ne_nil hmodel
  rw [compare, hitems, List.zipIdx_cons, List.forM_cons]
  refine not_wp_bind_of_not_passes (not_passes_read_skeleton w p.1 _ ?_)
  simp

theorem not_passes_entriesAreIndependent_skeleton :
    ¬ Passes (entriesAreIndependent P skeleton draws edges) w := by
  refine not_wp_bind (passes_start skeleton w) fun _ w _ => ?_
  refine not_wp_bind (wp_foldlM (I := fun done model _ => ∀ idx ∈ done, idx ∈ model) ?_ ?_)
    fun model w hmodel => ?_
  · intro done idx rest model w _ hmodel
    refine wp_bind_of (passes_write skeleton w idx true _) fun _ w _ => wp_pure.mpr ?_
    intro i hi
    rw [Dict.mem_set_iff]
    rcases List.mem_append.mp hi with hi | hi
    · exact Or.inr (hmodel i hi)
    · exact Or.inl (List.mem_singleton.mp hi)
  · intro idx hidx
    cases hidx
  · refine not_wp_bind_of_not_passes (not_passes_compare_skeleton w edges ?_ _)
    have hmem : 0 ∈ model := hmodel 0 (List.mem_range.mpr P.entries_pos)
    intro hnil
    rw [Dict.mem_iff, Dict.keys, hnil] at hmem
    cases hmem

theorem passes_outOfRangeReadsAreInvalid_skeleton :
    Passes (outOfRangeReadsAreInvalid P skeleton edges) w := by
  rw [Passes, outOfRangeReadsAreInvalid]
  by_cases hcovers : P.groupTableEntries ≥ idSpace
  · rw [if_pos hcovers]
    exact wp_pure.mpr trivial
  · rw [if_neg hcovers]
    refine wp_bind_of (passes_start skeleton w) fun _ w _ => ?_
    refine wp_bind_of (passes_fill skeleton w P) fun _ w _ => ?_
    refine wp_forM_of_mem (I := fun _ => True) (fun idx _ w _ => ?_) trivial
    refine wp_bind_of (wp_read_skeleton w idx (edges idx)) fun got w hgot => ?_
    rw [hgot]
    exact wp_bind.mpr (wp_lift_unit.mpr ⟨by simp, wp_lift_unit.mpr ⟨by simp, trivial⟩⟩)

/-- The skeleton passes the test of the indices beyond the table, and no other. -/
theorem skeleton_passes_iff (t : Test) :
    Passes (t.run P skeleton draws edges) w ↔ t = .outOfRangeReadsAreInvalid := by
  cases t with
  | resetClearsEveryEntry =>
      exact iff_of_false (not_passes_resetClearsEveryEntry_skeleton w P edges) (by decide)
  | writeThenReadReturnsTheEntry =>
      exact iff_of_false (not_passes_writeThenReadReturnsTheEntry_skeleton w P draws) (by decide)
  | readsAreCombinational =>
      exact iff_of_false (not_passes_readsAreCombinational_skeleton w P) (by decide)
  | writesAreSynchronous =>
      exact iff_of_false (not_passes_writesAreSynchronous_skeleton w P) (by decide)
  | entriesAreIndependent =>
      exact iff_of_false (not_passes_entriesAreIndependent_skeleton w P draws edges) (by decide)
  | entriesCanBeInvalidated =>
      exact iff_of_false (not_passes_entriesCanBeInvalidated_skeleton w P) (by decide)
  | outOfRangeReadsAreInvalid =>
      exact iff_of_true (passes_outOfRangeReadsAreInvalid_skeleton w P edges) rfl

end Skeleton

end GroupTable.Testbench
