import Spec2Inc.Verif.ReductionEngine.Contract
import Spec2Inc.Verif.ReductionEngine.Operands

/-!
# What the testbench of `reduction_engine` accepts

Whatever a design that implements the contract held before and the random
numbers are, it passes a test exactly when the ports that the test addresses
exist and the latency is at most what the testbench waits for (`reductionEngine_passes_iff`).
The streaming test waits for no result, and takes any latency. The module of the
repository is such a design (`implementsRtl`).
-/

open Bits Clocked Clocked.Bench Python Spec2incPkg

namespace ReductionEngine.Testbench

variable {P : Params} {D : Dut P}

namespace Implements

variable {C : Implements D} {w : Wired D.σ (Inputs P)}

/-! ## Transactions of the tests -/

/-- The testbench waits long enough. -/
def Awaited (P : Params) : Prop := P.redLatency ≤ awaitLimit

section Transact

variable {slots : List ℕ} {operands : Dict ℕ (List ℕ)} {opId : ℕ}

variable (slots) in
/-- A transaction with operands that fit, under the mask of some slots. -/
theorem Idle.transact_of_fitting (h : C.Idle true w) (hawaited : Awaited P)
    (hfit : Fitting P.nPorts operands) (hnodup : slots.Nodup)
    (hslots : ∀ s ∈ slots, s < P.nPorts) (hid : opId < 2 ^ tagW) :
    wp (Testbench.transact D (maskOf slots) operands opId) (fun r w' => C.Idle true w' ∧
      r = (P.redLatency, (hfit.operands.reduced (maskOf slots)).toNat, opId)) w :=
  h.transact ⟨maskOf_lt hnodup hslots, hfit.operands.packOperands_lt, hid⟩ hawaited

/-- What the oracle says of such a transaction. -/
theorem expectedBeat_of_fitting (hfit : Fitting P.nPorts operands) (hnodup : slots.Nodup)
    (h : ∃ s ∈ slots, s ∈ operands) :
    expectedBeat operands (maskOf slots) =
      .ok (lanesFromBeat (hfit.operands.reduced (maskOf slots)).toNat) := by
  obtain ⟨s, hs, hmem⟩ := h
  exact hfit.operands.expectedBeat_eq_reduced ⟨s, hmem, (testBit_maskOf hnodup s).mpr hs⟩

theorem mem_randomOperands (draws : ℕ → ℕ → ℕ) {n s : ℕ} (hs : s < n) :
    s ∈ randomOperands draws (List.range n) :=
  (Dict.mem_iff_exists_get? _ _).mpr ⟨_, get?_randomOperands draws hs⟩

end Transact

/-- A mask that addresses a slot the engine does not have cannot be driven. -/
theorem not_maskOf_lt {slots : List ℕ} (hnodup : slots.Nodup) {s : ℕ} (hs : s ∈ slots)
    (hout : P.nPorts ≤ s) : ¬ maskOf slots < 2 ^ P.nPorts := by
  intro hlt
  have hbit := (testBit_maskOf hnodup s).mpr hs
  rw [Nat.testBit_lt_two_pow (hlt.trans_le (Nat.pow_le_pow_right (by decide) hout))] at hbit
  cases hbit

/-- A test that is a loop after the start passes exactly when its first pass does. -/
theorem passes_loop_iff (C : Implements D) {α : Type} {x : α} {l : List α}
    {f : α → Tb D Unit} {cond : Prop}
    (hpass : cond → ∀ y ∈ x :: l, ∀ w, C.Idle true w → wp (f y) (fun _ => C.Idle true) w)
    (hfail : ¬ cond → ∀ w, C.Idle true w → ¬ Passes (f x) w) (w : Wired D.σ (Inputs P)) :
    Passes (do start D; forM (x :: l) f) w ↔ cond := by
  refine wp_bind_iff (idle_after_start (C := C) w) fun _ w h => ?_
  by_cases hcond : cond
  · refine iff_of_true (wp_mono (wp_forM_of_mem ?_ h.1) fun _ _ _ => trivial) hcond
    exact fun y hy w h => hpass hcond y hy w h
  · refine iff_of_false ?_ hcond
    rw [List.forM_cons]
    exact not_wp_bind_of_not_passes (hfail hcond w h.1)

/-! ## The tests -/

theorem randintFrom_eq_ok {lo hi : ℕ} (h : lo ≤ hi) (draw : ℕ) :
    randintFrom lo hi draw = .ok (lo + draw % (hi - lo + 1)) :=
  if_neg (Nat.not_lt.mpr h)

/-- The slots of a random mask: some of the slots there are. -/
theorem randomSlots_spec {n : ℕ} (hn : 0 < n) (draws : ℕ → ℕ) :
    (sampleOf draws n (List.range P.nPorts)).Nodup ∧
      (∀ s ∈ sampleOf draws n (List.range P.nPorts), s < P.nPorts) ∧
      ∃ s, s ∈ sampleOf draws n (List.range P.nPorts) := by
  have hpool : List.range P.nPorts ≠ [] := by
    rw [Ne, List.range_eq_nil]
    exact Nat.pos_iff_ne_zero.mp P.nPorts_pos
  refine ⟨nodup_sampleOf List.nodup_range, fun s hs => ?_, ?_⟩
  · exact List.mem_range.mp (mem_of_mem_sampleOf hs)
  · exact List.exists_mem_of_ne_nil _ (sampleOf_ne_nil (Nat.pos_iff_ne_zero.mp hn) hpool)

theorem passes_reducesToReference_iff (C : Implements D) (rng : ℕ → Draws)
    (w : Wired D.σ (Inputs P)) :
    Passes (reducesToReference D rng) w ↔ 2 ≤ P.nPorts ∧ Awaited P := by
  rw [reducesToReference, List.range_succ_eq_map]
  refine C.passes_loop_iff (fun hcond trial _ w h => ?_) (fun hcond w h => ?_) w
  · obtain ⟨n, hn, hpos⟩ : ∃ n, randintFrom 2 P.nPorts (rng trial).nSet = .ok n ∧ 0 < n :=
      ⟨_, randintFrom_eq_ok hcond.1 _, Nat.add_pos_left Nat.two_pos _⟩
    obtain ⟨hnodup, hlt, s, hs⟩ := randomSlots_spec (P := P) hpos (rng trial).slots
    have hfit := fitting_randomOperands P.nPorts (rng trial).operands
    have hid : (rng trial).opId % 256 < 256 := Nat.mod_lt _ (by decide)
    rw [hn, wp_bind, wp_lift]
    refine ⟨n, rfl, wp_bind_of (h.transact_of_fitting _ hcond.2 hfit hnodup hlt hid) ?_⟩
    rintro r w ⟨h, rfl⟩
    rw [wp_bind, wp_lift]
    exact ⟨_, expectedBeat_of_fitting hfit hnodup ⟨s, hs, mem_randomOperands _ (hlt s hs)⟩,
      wp_lift_unit.mpr ⟨assertThat_eq_ok_iff.mpr rfl, h⟩⟩
  · rw [Passes, wp_bind, wp_lift]
    rintro ⟨nSet, hnSet, hpasses⟩
    have hports : 2 ≤ P.nPorts := by
      by_contra hports
      rw [randintFrom, if_pos (Nat.not_le.mp hports)] at hnSet
      cases hnSet
    refine not_wp_bind_of_not_passes (h.not_passes_transact (Or.inr ?_)) hpasses
    exact Nat.not_le.mp fun hawaited => hcond ⟨hports, hawaited⟩

/-- The two lowest slots exist when there are two ports. -/
theorem slots_lt_of_two (h : 2 ≤ P.nPorts) : ∀ s ∈ [0, 1], s < P.nPorts := by
  intro s hs
  have : s = 0 ∨ s = 1 := by simpa using hs
  omega

/-- What goes wrong with a mask of the two lowest slots. -/
theorem bad_of_not {slots : List ℕ} (hnodup : slots.Nodup) {m : ℕ} (hs : m ∈ slots)
    (h : ¬ (m + 1 ≤ P.nPorts ∧ Awaited P)) :
    ¬ maskOf slots < 2 ^ P.nPorts ∨ awaitLimit < P.redLatency := by
  by_cases hports : m + 1 ≤ P.nPorts
  · exact Or.inr (Nat.not_le.mp fun hawaited => h ⟨hports, hawaited⟩)
  · exact Or.inl (not_maskOf_lt hnodup hs (by omega))

theorem passes_latencyIsExactlyRedLatency_iff (C : Implements D) (rng : ℕ → Draws)
    (w : Wired D.σ (Inputs P)) :
    Passes (latencyIsExactlyRedLatency D rng) w ↔ 2 ≤ P.nPorts ∧ Awaited P := by
  have hnodup : [0, 1].Nodup := by decide
  rw [latencyIsExactlyRedLatency, List.range_succ_eq_map]
  refine C.passes_loop_iff (fun hcond k _ w h => ?_) (fun hcond w h => ?_) w
  · refine wp_bind_of (h.transact_of_fitting [0, 1] hcond.2
      (fitting_randomOperands _ _) hnodup (slots_lt_of_two hcond.1) (by decide)) ?_
    rintro r w ⟨h, rfl⟩
    exact wp_lift_unit.mpr ⟨assertThat_eq_ok_iff.mpr rfl, h⟩
  · exact not_wp_bind_of_not_passes
      (h.not_passes_transact (bad_of_not hnodup (by simp : 1 ∈ [0, 1]) hcond))

theorem passes_idIsCarriedThrough_iff (C : Implements D) (rng : ℕ → Draws)
    (w : Wired D.σ (Inputs P)) :
    Passes (idIsCarriedThrough D rng) w ↔ 2 ≤ P.nPorts ∧ Awaited P := by
  have hnodup : [0, 1].Nodup := by decide
  rw [idIsCarriedThrough, List.zipIdx_cons]
  refine C.passes_loop_iff (fun hcond p hp w h => ?_) (fun hcond w h => ?_) w
  · have hid : p.1 < 2 ^ tagW := by
      rw [← List.zipIdx_cons] at hp
      have hmem := List.fst_mem_of_mem_zipIdx hp
      simp only [List.mem_cons, List.not_mem_nil, or_false] at hmem
      simp only [tagW]
      omega
    refine wp_bind_of (h.transact_of_fitting [0, 1] hcond.2
      (fitting_randomOperands _ _) hnodup (slots_lt_of_two hcond.1) hid) ?_
    rintro r w ⟨h, rfl⟩
    exact wp_lift_unit.mpr ⟨assertThat_eq_ok_iff.mpr rfl, h⟩
  · exact not_wp_bind_of_not_passes
      (h.not_passes_transact (bad_of_not hnodup (by simp : 1 ∈ [0, 1]) hcond))

theorem passes_unmaskedOperandsAreIgnored_iff (C : Implements D) (w : Wired D.σ (Inputs P)) :
    Passes (unmaskedOperandsAreIgnored D) w ↔ 2 ≤ P.nPorts ∧ Awaited P := by
  have hnodup : [0, 1].Nodup := by decide
  refine wp_bind_iff (idle_after_start (C := C) w) fun _ w h => ?_
  by_cases hcond : 2 ≤ P.nPorts ∧ Awaited P
  · refine iff_of_true ?_ hcond
    obtain ⟨hfit, hget⟩ := loudOperands_spec hnodup (slots_lt_of_two hcond.1)
    refine wp_bind_of (h.1.transact_of_fitting [0, 1] hcond.2 hfit hnodup
      (slots_lt_of_two hcond.1) (by decide)) ?_
    rintro r w ⟨-, rfl⟩
    refine wp_lift_unit.mpr ⟨assertThat_eq_ok_iff.mpr ?_, trivial⟩
    rw [hfit.operands.lanesFromBeat_reduced_eq hnodup hget]
    decide
  · refine iff_of_false (not_wp_bind_of_not_passes ?_) hcond
    exact h.1.not_passes_transact (bad_of_not hnodup (by simp : 1 ∈ [0, 1]) hcond)

theorem passes_lanesWrapIndependently_iff (C : Implements D) (w : Wired D.σ (Inputs P)) :
    Passes (lanesWrapIndependently D) w ↔ 2 ≤ P.nPorts ∧ Awaited P := by
  have hnodup : [0, 1].Nodup := by decide
  refine wp_bind_iff (idle_after_start (C := C) w) fun _ w h => ?_
  by_cases hcond : 2 ≤ P.nPorts ∧ Awaited P
  · refine iff_of_true ?_ hcond
    have hmax : FitsSlot P.nPorts (0, List.replicate lanes laneMax) :=
      fitsSlot_replicate P.nPorts_pos (by decide)
    have hfit := ((fitting_zeros P.nPorts).set hmax).set (fitsSlot_evenOnes hcond.1)
    have hget : ∀ s ∈ [0, 1],
        (((zeros P.nPorts).set 0 (List.replicate lanes laneMax)).set 1 evenOnes).get? s =
          some (if s = 0 then List.replicate lanes laneMax else evenOnes) := by
      intro s hs
      have hs' : s = 0 ∨ s = 1 := by simpa using hs
      rcases hs' with rfl | rfl
      · rw [Dict.get?_set_of_ne _ Nat.zero_ne_one, Dict.get?_set_self, if_pos rfl]
      · rw [Dict.get?_set_self, if_neg Nat.one_ne_zero]
    refine wp_bind_of (h.1.transact_of_fitting [0, 1] hcond.2 hfit hnodup
      (slots_lt_of_two hcond.1) (by decide)) ?_
    rintro r w ⟨-, rfl⟩
    refine wp_lift_unit.mpr ⟨assertThat_eq_ok_iff.mpr ?_, trivial⟩
    rw [hfit.operands.lanesFromBeat_reduced_eq hnodup hget]
    decide
  · refine iff_of_false (not_wp_bind_of_not_passes ?_) hcond
    exact h.1.not_passes_transact (bad_of_not hnodup (by simp : 1 ∈ [0, 1]) hcond)

theorem maskOf_singleton (slot : ℕ) : maskOf [slot] = 1 <<< slot := by
  rw [maskOf, List.map_singleton, List.sum_singleton]

/-- A beat alone in its mask comes out as it went in. -/
theorem map_getD_mod {xs : List ℕ} (hlength : xs.length = lanes)
    (hfit : ∀ x ∈ xs, x < 2 ^ laneW) :
    ((List.range lanes).map fun l => [xs.getD l 0].sum % 2 ^ laneW) = xs := by
  refine List.ext_getElem (by rw [List.length_map, List.length_range, hlength]) fun l hl hl' => ?_
  have hlt : xs[l] < 2 ^ laneW := hfit _ (List.getElem_mem hl')
  have hget : xs.getD l 0 = xs[l] := by simp [hl']
  rw [List.getElem_map, List.getElem_range, List.sum_singleton, hget, Nat.mod_eq_of_lt hlt]

theorem Idle.passthrough (h : C.Idle true w) (hawaited : Awaited P) {slot : ℕ}
    (hslot : slot < P.nPorts) (draws : ℕ → ℕ → ℕ) :
    wp (do
      let operands := randomOperands draws (List.range P.nPorts)
      let r ← Testbench.transact D (1 <<< slot) operands (slot &&& 0xFF)
      let want ← lift (index operands slot)
      lift (assertThat (lanesFromBeat r.2.1 = want)
        s!"slot {slot} not passed through unchanged")) (fun _ => C.Idle true) w := by
  have hnodup : [slot].Nodup := List.nodup_singleton slot
  have hfit := fitting_randomOperands P.nPorts draws
  have hget := get?_randomOperands draws hslot
  have hbeat := hfit _ ((Dict.get?_eq_some_iff _ _ _).mp hget)
  rw [← maskOf_singleton]
  refine wp_bind_of (h.transact_of_fitting [slot] hawaited hfit hnodup ?_ ?_) ?_
  · intro s hs
    rwa [List.mem_singleton.mp hs]
  · exact Nat.and_le_right.trans_lt (by decide)
  rintro r w ⟨h, rfl⟩
  rw [wp_bind, wp_lift]
  refine ⟨_, index_eq_ok_iff.mpr hget, wp_lift_unit.mpr ⟨assertThat_eq_ok_iff.mpr ?_, h⟩⟩
  rw [hfit.operands.lanesFromBeat_reduced_eq hnodup
    (v := fun _ => (List.range lanes).map fun l => draws slot l % 2 ^ laneW)]
  · exact map_getD_mod hbeat.length_eq hbeat.lane_lt
  · intro s hs
    rw [List.mem_singleton.mp hs]
    exact hget

theorem passes_singleMemberIsPassthrough_iff (C : Implements D) (rng : ℕ → Draws)
    (w : Wired D.σ (Inputs P)) :
    Passes (singleMemberIsPassthrough D rng) w ↔ 2 ≤ P.nPorts ∧ Awaited P := by
  have hpos := P.nPorts_pos
  refine wp_bind_iff (idle_after_start (C := C) w) fun _ w h => ?_
  by_cases hcond : 2 ≤ P.nPorts ∧ Awaited P
  · refine iff_of_true (wp_mono (wp_forM_of_mem ?_ h.1) fun _ _ _ => trivial) hcond
    intro p hp w h
    have hmem := List.fst_mem_of_mem_zipIdx hp
    have hslot : p.1 < P.nPorts := by
      simp only [List.mem_cons, List.not_mem_nil, or_false] at hmem
      omega
    exact h.passthrough hcond.2 hslot (rng p.2).operands
  · refine iff_of_false ?_ hcond
    rw [List.zipIdx_cons, List.forM_cons, List.zipIdx_cons, List.forM_cons]
    by_cases hawaited : Awaited P
    · -- With one port the first slot is passed through, and the second cannot be masked.
      refine not_wp_bind (h.1.passthrough hawaited hpos _) fun _ w h => ?_
      refine not_wp_bind_of_not_passes (not_wp_bind_of_not_passes
        (h.not_passes_transact (Or.inl ?_)))
      have hone : P.nPorts = 1 := by
        by_contra hne
        exact hcond ⟨by omega, hawaited⟩
      rw [hone]
      decide
    · exact not_wp_bind_of_not_passes (not_wp_bind_of_not_passes
        (h.1.not_passes_transact (Or.inr (Nat.not_le.mp hawaited))))

/-! The same values in two placements. -/

section Placement

variable {values : List (List ℕ)} {slots : List ℕ} {d : Dict ℕ (List ℕ)}

variable (slots) in
theorem Idle.place (h : C.Idle true w) (hawaited : Awaited P)
    (hplaces : Places P.nPorts values slots d) (hslots : ∀ s ∈ slots, s < P.nPorts) :
    wp (do
      let r ← Testbench.transact D (maskOf slots) d 0x44
      pure (lanesFromBeat r.2.1)) (fun got w' => C.Idle true w' ∧ got = laneSums values) w := by
  refine wp_bind_of (h.transact_of_fitting slots hawaited hplaces.fitting hplaces.nodup hslots
    (by decide)) ?_
  rintro r w ⟨h, rfl⟩
  exact wp_pure.mpr ⟨h, hplaces.lanesFromBeat_reduced⟩

variable (slots) in
theorem expectedBeat_of_places (hplaces : Places P.nPorts values slots d) (hne : slots ≠ []) :
    expectedBeat d (maskOf slots) = .ok (laneSums values) := by
  obtain ⟨s, hs⟩ := List.exists_mem_of_ne_nil slots hne
  rw [expectedBeat_of_fitting hplaces.fitting hplaces.nodup ⟨s, hs, hplaces.mem s hs⟩,
    hplaces.lanesFromBeat_reduced]

/-- The second placement, out of order. -/
theorem secondPlacement_spec (h : 4 ≤ P.nPorts) :
    [P.nPorts - 1, 0, P.nPorts / 2, 1].Nodup ∧
      ∀ s ∈ [P.nPorts - 1, 0, P.nPorts / 2, 1], s < P.nPorts := by
  constructor
  · simp only [List.nodup_cons, List.mem_cons, List.not_mem_nil, or_false, not_or,
      not_false_eq_true, List.nodup_nil, and_true]
    omega
  · intro s hs
    simp only [List.mem_cons, List.not_mem_nil, or_false] at hs
    omega

theorem passes_resultIsIndependentOfSlotPlacement_iff (C : Implements D) (rng : ℕ → Draws)
    (w : Wired D.σ (Inputs P)) :
    Passes (resultIsIndependentOfSlotPlacement D rng) w ↔ 4 ≤ P.nPorts ∧ Awaited P := by
  have hnodup : (List.range 4).Nodup := List.nodup_range
  refine wp_bind_iff (idle_after_start (C := C) w) fun _ w h => ?_
  by_cases hcond : 4 ≤ P.nPorts ∧ Awaited P
  · refine iff_of_true ?_ hcond
    obtain ⟨hports, hawaited⟩ := hcond
    obtain ⟨hnodup', hslots'⟩ := secondPlacement_spec hports
    have hslots : ∀ s ∈ List.range 4, s < P.nPorts := fun s hs =>
      (List.mem_range.mp hs).trans_le hports
    have hvalues : ∀ v ∈ (List.range 4).map (fun v =>
        (List.range lanes).map fun l => (rng 0).operands v l % 2 ^ laneW),
        v.length = lanes ∧ ∀ x ∈ v, x < 2 ^ laneW := by
      intro v hv
      obtain ⟨k, hk, rfl⟩ := List.mem_map.mp hv
      have hfits := fitsSlot_map (hslots k hk) fun l =>
        Nat.mod_lt ((rng 0).operands k l) (Nat.two_pow_pos laneW)
      exact ⟨hfits.length_eq, hfits.lane_lt⟩
    have hfirst := places_foldl_set hnodup (by simp) hslots hvalues
      (fitting_zeros P.nPorts)
    have hsecond := places_foldl_set hnodup' (by simp) hslots' hvalues
      (fitting_zeros P.nPorts)
    have hexpected := places_foldl_set hnodup (by simp) hslots hvalues
      (fitting_empty P.nPorts)
    rw [← placed_eq] at hfirst hsecond
    refine wp_bind_of (h.1.place (List.range 4) hawaited hfirst hslots) ?_
    rintro first w ⟨h, rfl⟩
    refine wp_bind_of (h.place _ hawaited hsecond hslots') ?_
    rintro second w ⟨h, rfl⟩
    refine wp_bind.mpr (wp_lift_unit.mpr ⟨assertThat_eq_ok_iff.mpr rfl, ?_⟩)
    rw [ofList_zipIdx, wp_bind, wp_lift]
    exact ⟨_, expectedBeat_of_places (List.range 4) hexpected (by decide),
      wp_lift_unit.mpr ⟨assertThat_eq_ok_iff.mpr rfl, trivial⟩⟩
  · refine iff_of_false (not_wp_bind_of_not_passes (not_wp_bind_of_not_passes ?_)) hcond
    exact h.1.not_passes_transact (bad_of_not hnodup (by simp : 3 ∈ List.range 4) hcond)

end Placement

/-! Backpressure. -/

theorem Flying.checkStalled {k : ℕ} {x : Token} (h : C.Flying false k x w)
    (hk : k + 1 = P.redLatency) (hid : x.2.toNat = 0x55) :
    wp (checkStalled D (lanesFromBeat x.1.toNat)) (fun _ => C.Flying false k x) w := by
  refine wp_bind_of (h.stays hk) fun _ w h => ?_
  obtain ⟨hvalid, -, hdata, hresId⟩ := h.stalled hk
  rw [wp_bind, wp_sample, hvalid, wp_bind]
  refine wp_lift_unit.mpr ⟨assertThat_eq_ok_iff.mpr rfl, ?_⟩
  rw [wp_bind, wp_sample, hdata, wp_bind, wp_lift]
  refine ⟨_, rfl, wp_bind.mpr (wp_lift_unit.mpr ⟨assertThat_eq_ok_iff.mpr rfl, ?_⟩)⟩
  rw [wp_bind, wp_sample, hresId, wp_bind, wp_lift]
  exact ⟨_, rfl, wp_lift_unit.mpr ⟨assertThat_eq_ok_iff.mpr hid, h⟩⟩

/-- The transaction after the stall. -/
theorem Idle.follow (h : C.Idle true w) (draws : ℕ → ℕ → ℕ) (hports : 2 ≤ P.nPorts) :
    Passes (do
      let follow := randomOperands draws (List.range P.nPorts)
      let r ← Testbench.transact D 0b11 follow 0x66
      lift (assertThat (r.2.2 = 0x66) "transaction after backpressure was lost or reordered")
      let want ← lift (expectedBeat follow 0b11)
      lift (assertThat (lanesFromBeat r.2.1 = want) "")) w ↔ Awaited P := by
  have hnodup : [0, 1].Nodup := by decide
  have hslots := slots_lt_of_two hports
  have hfit := fitting_randomOperands P.nPorts draws
  by_cases hawaited : Awaited P
  · refine iff_of_true ?_ hawaited
    refine wp_bind_of (h.transact_of_fitting [0, 1] hawaited hfit hnodup hslots
      (by decide)) ?_
    rintro r w ⟨h, rfl⟩
    refine (wp_bind_lift_of_eq_ok (assertThat_eq_ok_iff.mpr rfl)).mpr ?_
    have hwant := expectedBeat_of_fitting hfit hnodup
      ⟨0, by simp, mem_randomOperands _ P.nPorts_pos⟩
    refine (wp_bind_lift_of_eq_ok hwant).mpr ?_
    exact wp_lift_unit.mpr ⟨assertThat_eq_ok_iff.mpr rfl, trivial⟩
  · refine iff_of_false (not_wp_bind_of_not_passes ?_) hawaited
    exact h.not_passes_transact (Or.inr (Nat.not_le.mp hawaited))

theorem passes_backpressure_iff (C : Implements D) (rng : ℕ → Draws)
    (w : Wired D.σ (Inputs P)) :
    Passes (backpressureHoldsResultAndStallsInput D rng) w ↔ 3 ≤ P.nPorts ∧ Awaited P := by
  have hnodup : (List.range 3).Nodup := List.nodup_range
  have hfit := fitting_randomOperands P.nPorts (rng 0).operands
  have hwant := expectedBeat_of_fitting hfit hnodup
    ⟨0, by simp, mem_randomOperands _ P.nPorts_pos⟩
  refine wp_bind_iff (idle_after_start (C := C) w) fun _ w h => ?_
  refine (wp_bind_lift_of_eq_ok hwant).trans ?_
  rw [wp_bind, wp_drive]
  have hblocked := h.1.block h.2
  by_cases hports : 3 ≤ P.nPorts
  · have hsend : Drivable P (maskOf (List.range 3))
        (randomOperands (rng 0).operands (List.range P.nPorts)) 0x55 :=
      ⟨maskOf_lt hnodup fun s hs => (List.mem_range.mp hs).trans_le hports,
        hfit.operands.packOperands_lt, by decide⟩
    refine wp_bind_iff (hblocked.sendOp hsend) fun _ w h => ?_
    refine wp_bind_iff (h.wp_ticks P.redLatency_pos (by omega)) fun _ w h => ?_
    obtain ⟨k, hk, h⟩ := h
    obtain ⟨hvalid, hready, -, -⟩ := h.stalled hk
    rw [wp_bind, wp_sample, hvalid]
    refine (wp_bind_lift_of_eq_ok (assertThat_eq_ok_iff.mpr rfl)).trans ?_
    rw [wp_bind, wp_sample, hready]
    refine (wp_bind_lift_of_eq_ok (assertThat_eq_ok_iff.mpr rfl)).trans ?_
    refine wp_bind_iff (wp_forM_of_mem (fun _ _ _ h => h.checkStalled hk rfl) h) fun _ w h => ?_
    rw [wp_bind, wp_drive]
    refine wp_bind_iff (h.release hk).empties fun _ w h => ?_
    rw [wp_bind, wp_sample, h.1.opReady]
    refine (wp_bind_lift_of_eq_ok (assertThat_eq_ok_iff.mpr rfl)).trans ?_
    exact (h.1.follow _ (by omega)).trans (and_iff_right hports).symm
  · refine iff_of_false (not_wp_bind_of_not_passes fun hsend => ?_) fun hcond => hports hcond.1
    exact not_maskOf_lt hnodup (by simp : 2 ∈ List.range 3) (by omega)
      (drivable_of_passes_sendOp hsend).mask

/-! A stream of operand sets. -/

/-- What the monitor collects of a token. -/
def shown (x : Token) : ℕ × List ℕ := (x.2.toNat, lanesFromBeat x.1.toNat)

/-- The tokens behind the output slot, the next to arrive first. -/
def behind (q : Fin P.redLatency → Option Token) : List Token :=
  (List.ofFn q).dropLast.reverse.reduceOption

theorem out_append_behind_shift (q : Fin P.redLatency → Option Token) (y : Option Token) :
    (Pipeline.out (Pipeline.shift q y)).toList ++ behind (Pipeline.shift q y) =
      behind q ++ y.toList :=
  (Pipeline.contents_eq_out_append _).symm.trans (Pipeline.contents_shift q y)

theorem behind_of_forall_none {q : Fin P.redLatency → Option Token} (h : ∀ s, q s = none) :
    behind q = [] := by
  have hempty : q = Pipeline.empty := funext h
  have hcontents : Pipeline.contents q = [] := by rw [hempty, Pipeline.contents_empty]
  rw [Pipeline.contents_eq_out_append] at hcontents
  exact (List.append_eq_nil_iff.mp hcontents).2

variable (C) in
/-- The consumer is ready, and what the monitor has seen with what is about to
arrive is what was sent. -/
structure Streaming (seen sent : Stream) (w : Wired D.σ (Inputs P)) : Prop where
  rstN : w.pins.rstN = true
  resReady : w.pins.resReady = true
  seen_append : seen ++ (behind (C.contents w.regs)).map shown = sent

/-- The monitor sees exactly what comes to the output slot. -/
theorem Streaming.monitored {seen sent : Stream} (h : C.Streaming seen sent w) :
    wp (monitored D seen) (fun seen' w' =>
      C.Streaming seen' (sent ++ (ports w.pins).enter.toList.map shown) w' ∧
        w'.pins = w.pins ∧
        C.contents w'.regs = Pipeline.shift (C.contents w.regs) (ports w.pins).enter) w := by
  have hfree : Pipeline.stalled (C.contents w.regs) (ports w.pins) = false := by
    rw [stalled_eq, h.resReady]
    exact Bool.and_false _
  have hnext := contents_after_edge (C := C) h.rstN w.regs
  rw [hfree, if_neg Bool.false_ne_true] at hnext
  have hlaw := out_append_behind_shift (C.contents w.regs) (ports w.pins).enter
  rw [← hnext] at hlaw
  rw [Testbench.monitored, wp_bind, wp_tick, wp_bind, wp_sample, wp_bind, wp_sample, C.resValid]
  generalize D.machine.settle (D.machine.edge w.regs w.pins) w.pins = q at hnext hlaw
  have hsent : ∀ seen' : Stream,
      seen' = seen ++ (Pipeline.out (C.contents q)).toList.map shown →
      C.Streaming seen' (sent ++ (ports w.pins).enter.toList.map shown) ⟨q, w.pins⟩ := by
    rintro seen' rfl
    refine ⟨h.rstN, h.resReady, ?_⟩
    rw [List.append_assoc, ← List.map_append, hlaw, List.map_append, ← List.append_assoc,
      h.seen_append]
  cases hout : Pipeline.out (C.contents q) with
  | none =>
      rw [if_neg (by simp), wp_pure]
      exact ⟨hsent _ (by rw [hout]; exact (List.append_nil _).symm), rfl, hnext⟩
  | some x =>
      rw [if_pos ⟨rfl, h.resReady⟩, wp_bind, wp_sample, C.resId _ _ _ hout]
      refine (wp_bind_lift_of_eq_ok rfl).mpr ?_
      rw [wp_bind, wp_sample, C.resData _ _ _ hout]
      refine (wp_bind_lift_of_eq_ok rfl).mpr (wp_pure.mpr ?_)
      exact ⟨hsent _ (by rw [hout]; rfl), rfl, hnext⟩

/-- With nothing offered the pipeline runs empty, and the monitor has seen it all. -/
theorem Streaming.drain {seen sent : Stream} (h : C.Streaming seen sent w)
    (hquiet : Quiet true w.pins) {n : ℕ} (hn : P.redLatency ≤ n) :
    wp ((List.range n).foldlM (fun seen _ => Testbench.monitored D seen) seen)
      (fun seen' _ => seen' = sent) w := by
  refine wp_mono (wp_foldlM (I := fun done seen w => C.Streaming seen sent w ∧
    Quiet true w.pins ∧ ∀ s, s.val < done.length → C.contents w.regs s = none) ?_
    ⟨h, hquiet, fun s hs => absurd hs (Nat.not_lt_zero _)⟩) ?_
  · rintro done - - seen w - ⟨h, hquiet, hempty⟩
    refine wp_mono h.monitored ?_
    rintro seen' w' ⟨h', hpins, hnext⟩
    rw [hquiet.enter] at h' hnext
    refine ⟨by simpa using h', by rwa [hpins], fun s hs => ?_⟩
    rw [hnext, Pipeline.shift]
    by_cases hzero : s.val = 0
    · rw [if_pos hzero]
    · rw [if_neg hzero]
      rw [List.length_append, List.length_singleton] at hs
      exact hempty ⟨s.val - 1, _⟩ (Nat.sub_lt_right_of_lt_add (by omega) hs)
  · rintro seen' w' ⟨h', -, hempty⟩
    have hall : ∀ s, C.contents w'.regs s = none := by
      intro s
      refine hempty s ?_
      rw [List.length_range]
      omega
    rw [← h'.seen_append, behind_of_forall_none hall, List.map_nil, List.append_nil]

/-- One operand set of the stream. -/
theorem Streaming.drive {seen sent : Stream} (h : C.Streaming seen sent w) {slots : List ℕ}
    {operands : Dict ℕ (List ℕ)} {opId : ℕ} (hfit : Fitting P.nPorts operands)
    (hnodup : slots.Nodup) (hslots : ∀ s ∈ slots, s < P.nPorts) (hid : opId < 2 ^ tagW) :
    wp (do
      driveOp D (maskOf slots) operands opId
      Testbench.monitored D seen) (fun seen' => C.Streaming seen'
        (sent ++ [(opId, lanesFromBeat (hfit.operands.reduced (maskOf slots)).toNat)])) w := by
  rw [wp_bind, wp_driveOp_iff]
  refine ⟨⟨maskOf_lt hnodup hslots, hfit.operands.packOperands_lt, hid⟩, ?_⟩
  have hhigh : (present (maskOf slots) operands opId w.pins).rstN = true := h.rstN
  have hdriven : C.Streaming seen sent
      ⟨D.machine.settle w.regs (present (maskOf slots) operands opId w.pins),
        present (maskOf slots) operands opId w.pins⟩ := by
    refine ⟨h.rstN, h.resReady, ?_⟩
    rw [contents_driven rfl hhigh, h.seen_append]
  refine wp_mono hdriven.monitored ?_
  rintro seen' w' ⟨h', -, -⟩
  rw [enter_present] at h'
  have hshown : shown (token P (maskOf slots) operands opId) =
      (opId, lanesFromBeat (hfit.operands.reduced (maskOf slots)).toNat) := by
    have htag : (token P (maskOf slots) operands opId).2.toNat = opId := by
      rw [token, BitVec.toNat_ofNat, Nat.mod_eq_of_lt hid]
    rw [shown, htag]
    rfl
  rwa [Option.toList_some, List.map_singleton, hshown] at h'

/-- The slots of the masks of the stream. -/
def streamSlots (i : ℕ) : List ℕ := if i % 2 = 1 then [0, 1] else [0, 1, 2]

theorem maskOf_streamSlots (i : ℕ) :
    maskOf (streamSlots i) = if i % 2 = 1 then 0b11 else 0b111 := by
  rw [streamSlots]
  split <;> rfl

theorem nodup_streamSlots (i : ℕ) : (streamSlots i).Nodup := by
  rw [streamSlots]
  split <;> decide

theorem streamSlots_lt {i s : ℕ} (hs : s ∈ streamSlots i) : s < 3 := by
  rw [streamSlots] at hs
  split at hs <;> simp only [List.mem_cons, List.not_mem_nil, or_false] at hs <;> omega

theorem zero_mem_streamSlots (i : ℕ) : 0 ∈ streamSlots i := by
  rw [streamSlots]
  split <;> simp

theorem passes_backToBack_iff (C : Implements D) (rng : ℕ → Draws)
    (w : Wired D.σ (Inputs P)) :
    Passes (backToBackOperandsStream D rng) w ↔ 3 ≤ P.nPorts := by
  have hfit i := fitting_randomOperands P.nPorts (rng i).operands
  have hwant i := expectedBeat_of_fitting (hfit i) (nodup_streamSlots i)
    ⟨0, zero_mem_streamSlots i, mem_randomOperands _ P.nPorts_pos⟩
  refine wp_bind_iff (idle_after_start (C := C) w) fun _ w h => ?_
  simp only [← maskOf_streamSlots]
  by_cases hports : 3 ≤ P.nPorts
  · refine iff_of_true ?_ hports
    refine wp_bind_of (wp_foldlM (I := fun _ (r : Stream × Stream) w =>
      C.Streaming r.1 r.2 w) ?_ ?_) ?_
    · rintro - i - r w - h
      refine (wp_bind_lift_of_eq_ok (hwant i)).mpr ?_
      have hid : i &&& 0xFF < 2 ^ tagW := Nat.and_le_right.trans_lt (by decide)
      have hslots : ∀ s ∈ streamSlots i, s < P.nPorts := fun s hs =>
        (streamSlots_lt hs).trans_le hports
      have hdrive := wp_bind.mp (h.drive (hfit i) (nodup_streamSlots i) hslots hid)
      refine wp_bind.mpr (wp_mono hdrive fun _ w hmonitored => ?_)
      exact wp_bind_of hmonitored fun _ w h => wp_pure.mpr h
    · refine ⟨h.1.quiet.rstN, h.1.quiet.resReady, ?_⟩
      rw [h.2, behind_of_forall_none (q := Pipeline.empty) fun _ => rfl]
      rfl
    · rintro ⟨seen, sent⟩ w h
      have hquiet : Quiet true { w.pins with opValid := false } := ⟨h.rstN, rfl, h.resReady⟩
      have hdriven : C.Streaming seen sent
          ⟨D.machine.settle w.regs { w.pins with opValid := false },
            { w.pins with opValid := false }⟩ := by
        refine ⟨hquiet.rstN, hquiet.resReady, ?_⟩
        rw [contents_driven rfl hquiet.rstN, h.seen_append]
      rw [wp_bind, wp_drive]
      refine wp_bind_of (hdriven.drain hquiet (Nat.le_add_right _ 4)) fun seen' w hseen => ?_
      exact wp_lift_unit.mpr ⟨assertThat_eq_ok_iff.mpr hseen, trivial⟩
  · refine iff_of_false (not_wp_bind_of_not_passes ?_) hports
    rw [List.range_succ_eq_map, List.foldlM_cons]
    refine not_wp_bind_of_not_passes fun hpass => ?_
    have hdrive := (wp_driveOp_iff.mp (wp_bind.mp
      ((wp_bind_lift_of_eq_ok (hwant 0)).mp hpass))).1
    exact not_maskOf_lt (nodup_streamSlots 0) (by simp [streamSlots] : 2 ∈ streamSlots 0)
      (by omega) hdrive.mask

end Implements

/-! ## The verdict -/

/-- The ports a test needs: those its masks address. -/
def Test.minPorts : Test → ℕ
  | resultIsIndependentOfSlotPlacement => 4
  | backpressureHoldsResultAndStallsInput => 3
  | backToBackOperandsStream => 3
  | _ => 2

/-- Whatever the design holds before and the random numbers are, a design that
implements the contract passes a test exactly when it has the ports the test
addresses, and its result comes within the limit where the test waits for one. -/
theorem reductionEngine_passes_iff (C : Implements D) (rng : ℕ → Draws)
    (w : Wired D.σ (Inputs P)) (t : Test) :
    Passes (t.run D rng) w ↔
      t.minPorts ≤ P.nPorts ∧
        (t ≠ .backToBackOperandsStream → P.redLatency ≤ awaitLimit) := by
  cases t with
  | reducesToReference =>
      simpa [Test.run, Test.minPorts, Implements.Awaited] using
        C.passes_reducesToReference_iff rng w
  | unmaskedOperandsAreIgnored =>
      simpa [Test.run, Test.minPorts, Implements.Awaited] using
        C.passes_unmaskedOperandsAreIgnored_iff w
  | latencyIsExactlyRedLatency =>
      simpa [Test.run, Test.minPorts, Implements.Awaited] using
        C.passes_latencyIsExactlyRedLatency_iff rng w
  | idIsCarriedThrough =>
      simpa [Test.run, Test.minPorts, Implements.Awaited] using
        C.passes_idIsCarriedThrough_iff rng w
  | singleMemberIsPassthrough =>
      simpa [Test.run, Test.minPorts, Implements.Awaited] using
        C.passes_singleMemberIsPassthrough_iff rng w
  | lanesWrapIndependently =>
      simpa [Test.run, Test.minPorts, Implements.Awaited] using
        C.passes_lanesWrapIndependently_iff w
  | resultIsIndependentOfSlotPlacement =>
      simpa [Test.run, Test.minPorts, Implements.Awaited] using
        C.passes_resultIsIndependentOfSlotPlacement_iff rng w
  | backpressureHoldsResultAndStallsInput =>
      simpa [Test.run, Test.minPorts, Implements.Awaited] using
        C.passes_backpressure_iff rng w
  | backToBackOperandsStream =>
      simpa [Test.run, Test.minPorts] using C.passes_backToBack_iff rng w

/-- The module of the repository. -/
def rtl (P : Params) : Dut P where
  σ := Regs P
  machine := engine P
  opReady q i := some (opReady q i).toNat
  resValid q _ := some (resValid q).toNat
  resData q _ := some (resData q).toNat
  resId q _ := some (resId q).toNat

/-- It implements the contract. -/
def implementsRtl (P : Params) : Implements (rtl P) where
  contents := slots
  simulates := simulates_pipeline P
  opReady q i := congrArg (fun b => some (!b).toNat) (stalled_slots q i).symm
  resValid q _ := congrArg (fun b : Bool => some b.toNat) (out_slots_isSome q).symm
  resData q _ x hx := by
    obtain ⟨-, h⟩ := Option.ite_none_right_eq_some.mp hx
    cases h
    rfl
  resId q _ x hx := by
    obtain ⟨-, h⟩ := Option.ite_none_right_eq_some.mp hx
    cases h
    rfl

end ReductionEngine.Testbench
