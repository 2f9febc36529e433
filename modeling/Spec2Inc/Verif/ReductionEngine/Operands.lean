import Mathlib.Combinatorics.Colex
import Spec2Inc.Verif.ReductionEngine.Testbench

/-!
# The operands of the engine's tests

Every operand set the tests build fits an engine that has its slots
(`Fitting`), so that the adder gives the oracle's answer for it. Where a test
knows the answer itself, it is the sum of the values in the masked slots
(`lanesFromBeat_reduced_eq`).
-/

open Bits Python Spec2incPkg

namespace ReductionEngine.Testbench

/-! ## Masks -/

theorem maskOf_eq_sum {slots : List ℕ} (h : slots.Nodup) :
    maskOf slots = ∑ s ∈ slots.toFinset, 2 ^ s := by
  rw [maskOf, List.sum_toFinset _ h]
  simp only [Nat.one_shiftLeft]

theorem testBit_maskOf {slots : List ℕ} (h : slots.Nodup) (s : ℕ) :
    (maskOf slots).testBit s = true ↔ s ∈ slots := by
  rw [maskOf_eq_sum h, ← Nat.mem_bitIndices, ← List.mem_toFinset,
    Finset.toFinset_bitIndices_sum_two_pow, List.mem_toFinset]

theorem maskOf_lt {slots : List ℕ} (h : slots.Nodup) {n : ℕ} (hslots : ∀ s ∈ slots, s < n) :
    maskOf slots < 2 ^ n := by
  refine Nat.lt_pow_two_of_testBit _ fun s hs => ?_
  rw [Bool.eq_false_iff, Ne, testBit_maskOf h]
  exact fun hmem => absurd (hslots s hmem) (Nat.not_lt.mpr hs)

/-! ## Operand sets that fit -/

/-- One operand that fits: a whole beat in a slot of an engine with `nPorts` ports. -/
structure FitsSlot (nPorts : ℕ) (p : ℕ × List ℕ) : Prop where
  slot_lt : p.1 < nPorts
  length_eq : p.2.length = lanes
  lane_lt : ∀ x ∈ p.2, x < 2 ^ laneW

/-- All operands fit. -/
def Fitting (nPorts : ℕ) (d : Dict ℕ (List ℕ)) : Prop := ∀ p ∈ d.items, FitsSlot nPorts p

variable {nPorts : ℕ} {d : Dict ℕ (List ℕ)}

def Fitting.operands (h : Fitting nPorts d) : Operands nPorts where
  bySlot := d
  slot_lt p hp := (h p hp).slot_lt
  length_eq p hp := (h p hp).length_eq
  lane_lt p hp := (h p hp).lane_lt

theorem Fitting.foldl_set (h : Fitting nPorts d) {l : List (ℕ × List ℕ)}
    (hl : ∀ p ∈ l, FitsSlot nPorts p) :
    Fitting nPorts (l.foldl (fun d p => d.set p.1 p.2) d) :=
  Dict.forall_items_foldl_set h hl

theorem fitting_ofList {l : List (ℕ × List ℕ)} (hl : ∀ p ∈ l, FitsSlot nPorts p) :
    Fitting nPorts (Dict.ofList l) :=
  Dict.forall_items_foldl_set (fun _ hp => absurd hp List.not_mem_nil) hl

variable (nPorts) in
theorem fitting_empty : Fitting nPorts (Dict.ofList []) :=
  fitting_ofList fun _ hp => absurd hp List.not_mem_nil

theorem Fitting.set (h : Fitting nPorts d) {s : ℕ} {v : List ℕ} (hv : FitsSlot nPorts (s, v)) :
    Fitting nPorts (d.set s v) := by
  intro p hp
  rcases Dict.eq_or_mem_of_mem_items_set hp with rfl | hp
  · exact hv
  · exact h p hp

theorem fitsSlot_replicate {s x : ℕ} (hs : s < nPorts) (hx : x < 2 ^ laneW) :
    FitsSlot nPorts (s, List.replicate lanes x) where
  slot_lt := hs
  length_eq := List.length_replicate
  lane_lt y hy := by rwa [List.eq_of_mem_replicate hy]

theorem fitsSlot_map {s : ℕ} (hs : s < nPorts) {f : ℕ → ℕ} (hf : ∀ l, f l < 2 ^ laneW) :
    FitsSlot nPorts (s, (List.range lanes).map f) where
  slot_lt := hs
  length_eq := by rw [List.length_map, List.length_range]
  lane_lt y hy := by
    obtain ⟨l, -, rfl⟩ := List.mem_map.mp hy
    exact hf l

variable (nPorts) in
theorem fitting_randomOperands (draws : ℕ → ℕ → ℕ) :
    Fitting nPorts (randomOperands draws (List.range nPorts)) := by
  refine fitting_ofList fun p hp => ?_
  obtain ⟨s, hs, rfl⟩ := List.mem_map.mp hp
  exact fitsSlot_map (List.mem_range.mp hs) fun l => Nat.mod_lt _ (Nat.two_pow_pos laneW)

theorem get?_randomOperands (draws : ℕ → ℕ → ℕ) {s : ℕ} (hs : s < nPorts) :
    (randomOperands draws (List.range nPorts)).get? s =
      some ((List.range lanes).map fun l => draws s l % 2 ^ laneW) := by
  refine (Dict.get?_ofList_eq_some_iff ?_ s _).mpr
    (List.mem_map_of_mem (List.mem_range.mpr hs))
  rw [List.map_map]
  exact List.nodup_range.map fun s t h => h

variable (nPorts) in
theorem fitting_zeros : Fitting nPorts (zeros nPorts) := by
  refine fitting_ofList fun p hp => ?_
  obtain ⟨s, hs, rfl⟩ := List.mem_map.mp hp
  exact fitsSlot_replicate (List.mem_range.mp hs) (Nat.two_pow_pos laneW)

theorem fitsSlot_evenOnes {s : ℕ} (hs : s < nPorts) : FitsSlot nPorts (s, evenOnes) := by
  refine fitsSlot_map hs fun i => ?_
  by_cases hi : i % 2 = 0
  · rw [if_pos hi]
    decide
  · rw [if_neg hi]
    decide

/-- The masked slots keep their ones, and the others get a loud value. -/
theorem loudOperands_spec {maskSlots : List ℕ} (hnodup : maskSlots.Nodup)
    (hslots : ∀ s ∈ maskSlots, s < nPorts) :
    Fitting nPorts (loudOperands maskSlots nPorts) ∧ ∀ s ∈ maskSlots,
      (loudOperands maskSlots nPorts).get? s = some (List.replicate lanes 1) := by
  refine List.foldlRecOn (motive := fun d => Fitting nPorts d ∧ ∀ s ∈ maskSlots,
    d.get? s = some (List.replicate lanes 1)) _ _ ⟨?_, fun s hs => ?_⟩ ?_
  · refine fitting_ofList fun p hp => ?_
    obtain ⟨s, hs, rfl⟩ := List.mem_map.mp hp
    exact fitsSlot_replicate (hslots s hs) (by decide)
  · refine (Dict.get?_ofList_eq_some_iff ?_ s _).mpr (List.mem_map_of_mem hs)
    rw [List.map_map]
    exact hnodup.map fun s t h => h
  · rintro d ⟨hfit, hget⟩ s hs
    by_cases hmem : s ∈ maskSlots
    · rw [if_pos hmem]
      exact ⟨hfit, hget⟩
    · rw [if_neg hmem]
      refine ⟨hfit.set (fitsSlot_replicate (List.mem_range.mp hs) (by decide)), fun t ht => ?_⟩
      have hne : t ≠ s := by
        rintro rfl
        exact hmem ht
      rw [Dict.get?_set_of_ne _ hne, hget t ht]

/-- Values put into distinct slots are found there. -/
theorem map_getD_foldl_set {slots : List ℕ} {values : List (List ℕ)} (hnodup : slots.Nodup)
    (hlength : slots.length = values.length) (d : Dict ℕ (List ℕ)) :
    (∀ s ∈ slots, s ∈ (slots.zip values).foldl (fun d p => d.set p.1 p.2) d) ∧
      slots.map (fun s => ((slots.zip values).foldl (fun d p => d.set p.1 p.2) d).getD s []) =
        values := by
  have hkeys : ((slots.zip values).map Prod.fst).Nodup := by
    rwa [List.map_fst_zip hlength.le]
  have hget : ∀ (i : ℕ) (hi : i < slots.length),
      ((slots.zip values).foldl (fun d p => d.set p.1 p.2) d).get? slots[i] =
        some values[i] := by
    intro i hi
    refine Dict.get?_foldl_set_of_mem hkeys ?_ d
    rw [← List.getElem_zip (h := by simp [← hlength, hi])]
    exact List.getElem_mem _
  constructor
  · intro s hs
    obtain ⟨i, hi, rfl⟩ := List.mem_iff_getElem.mp hs
    exact (Dict.mem_iff_exists_get? _ _).mpr ⟨_, hget i hi⟩
  · refine List.ext_getElem (by rw [List.length_map, hlength]) fun i hi hi' => ?_
    rw [List.length_map] at hi
    rw [List.getElem_map, Dict.getD, hget i hi]
    rfl

/-! ## What the adder gives -/

/-- The oracle's answer is what the testbench reads off the adder. -/
theorem Operands.expectedBeat_eq_reduced (operands : Operands nPorts) {mask : ℕ}
    (h : ∃ slot ∈ operands.bySlot, mask.testBit slot = true) :
    expectedBeat operands.bySlot mask =
      .ok (lanesFromBeat (operands.reduced mask).toNat) := by
  rw [operands.expectedBeat_eq h, operands.lanesFromBeat_reduced]

/-- The masked operands are those in the slots of the mask. -/
theorem Operands.masked_perm (operands : Operands nPorts) {slots : List ℕ} (hnodup : slots.Nodup)
    {v : ℕ → List ℕ} (hv : ∀ s ∈ slots, operands.bySlot.get? s = some (v s)) :
    (operands.masked (maskOf slots)).Perm (slots.map fun s => (s, v s)) := by
  have hitems : operands.bySlot.items.Nodup := operands.bySlot.nodup_keys.of_map
  have hslots : (slots.map fun s => (s, v s)).Nodup :=
    hnodup.map fun s t h => (Prod.mk.inj h).1
  refine (List.perm_ext_iff_of_nodup (hitems.filter _) hslots).mpr fun p => ?_
  rw [List.mem_filter, List.mem_map]
  constructor
  · rintro ⟨hp, hbit⟩
    have hs : p.1 ∈ slots := (testBit_maskOf hnodup p.1).mp hbit
    have hget : operands.bySlot.get? p.1 = some p.2 := (Dict.get?_eq_some_iff _ _ _).mpr hp
    exact ⟨p.1, hs, Prod.ext rfl (Option.some.inj ((hv p.1 hs).symm.trans hget))⟩
  · rintro ⟨s, hs, rfl⟩
    exact ⟨(Dict.get?_eq_some_iff _ _ _).mp (hv s hs), (testBit_maskOf hnodup s).mpr hs⟩

/-- Lane by lane, the adder gives the sum of the values in the masked slots. -/
theorem Operands.lanesFromBeat_reduced_eq (operands : Operands nPorts) {slots : List ℕ}
    (hnodup : slots.Nodup) {v : ℕ → List ℕ}
    (hv : ∀ s ∈ slots, operands.bySlot.get? s = some (v s)) :
    lanesFromBeat (operands.reduced (maskOf slots)).toNat =
      (List.range lanes).map fun l => (slots.map fun s => (v s).getD l 0).sum % 2 ^ laneW := by
  rw [operands.lanesFromBeat_reduced]
  refine List.map_congr_left fun l _ => ?_
  have hperm := (operands.masked_perm hnodup hv).map fun p => p.2.getD l 0
  rw [Operands.integerSum, ← Operands.masked, hperm.sum_eq, List.map_map]
  rfl

/-! ## Values placed in slots -/

/-- The lane-wise sum of some values. -/
def laneSums (values : List (List ℕ)) : List ℕ :=
  (List.range lanes).map fun l => (values.map fun v => v.getD l 0).sum % 2 ^ laneW

/-- Operands with values in distinct slots, and whatever else was there. -/
structure Places (nPorts : ℕ) (values : List (List ℕ)) (slots : List ℕ)
    (d : Dict ℕ (List ℕ)) : Prop where
  nodup : slots.Nodup
  fitting : Fitting nPorts d
  mem : ∀ s ∈ slots, s ∈ d
  values : slots.map (fun s => d.getD s []) = values

theorem places_foldl_set {values : List (List ℕ)} {slots : List ℕ} (hnodup : slots.Nodup)
    (hlength : slots.length = values.length) (hslots : ∀ s ∈ slots, s < nPorts)
    (hvalues : ∀ v ∈ values, v.length = lanes ∧ ∀ x ∈ v, x < 2 ^ laneW) (hd : Fitting nPorts d) :
    Places nPorts values slots ((slots.zip values).foldl (fun d p => d.set p.1 p.2) d) := by
  obtain ⟨hmem, hget⟩ := map_getD_foldl_set hnodup hlength d
  refine ⟨hnodup, hd.foldl_set fun p hp => ?_, hmem, hget⟩
  obtain ⟨hs, hv⟩ := List.of_mem_zip hp
  exact ⟨hslots _ hs, (hvalues _ hv).1, (hvalues _ hv).2⟩

theorem placed_eq (values : List (List ℕ)) (placement : List ℕ) (nPorts : ℕ) :
    placed values placement nPorts =
      (placement.zip values).foldl (fun d p => d.set p.1 p.2) (zeros nPorts) := by
  rw [placed, ← List.zip_swap, List.foldl_map]
  rfl

theorem ofList_zipIdx (values : List (List ℕ)) :
    Dict.ofList (values.zipIdx.map fun p => (p.2, p.1)) =
      ((List.range values.length).zip values).foldl (fun d p => d.set p.1 p.2) Dict.empty := by
  have hswap : values.zipIdx.map Prod.swap = (List.range values.length).zip values := by
    rw [List.zipIdx_eq_zip_range', List.zip_swap, List.range_eq_range']
  exact congrArg Dict.ofList hswap

/-- Wherever the values are, the adder gives their sum. -/
theorem Places.lanesFromBeat_reduced {values : List (List ℕ)} {slots : List ℕ}
    (h : Places nPorts values slots d) :
    lanesFromBeat (h.fitting.operands.reduced (maskOf slots)).toNat = laneSums values := by
  rw [h.fitting.operands.lanesFromBeat_reduced_eq h.nodup (v := fun s => d.getD s [])]
  · simp only [laneSums, ← h.values, List.map_map]
    rfl
  · intro s hs
    obtain ⟨v, hv⟩ := (Dict.mem_iff_exists_get? _ _).mp (h.mem s hs)
    have hget : d.getD s [] = v := by rw [Dict.getD, hv, Option.getD_some]
    rw [hget]
    exact hv

end ReductionEngine.Testbench
