import Spec2Inc.Verif.ReqXbar.Routes

/-!
# What the traffic tests of `req_xbar` accept

Whatever the design is, a test that sends traffic passes exactly when its sources
get all their beats through in time, and the buses of the design then satisfy the
contract up to the end of the drain (`Lawful`), with fields that fit
(`traffic_check_iff`). Nothing else is asked of the design, and nothing that the
contract asks is missed.
-/

open Bits Clocked Python Spec2incPkg

namespace ReqXbar

variable {D : Dut} {nPorts : ℕ} {S : Stimulus} {queues : ℕ → List Beat} {w : Wired D.σ Inputs}

/-- The markers of the queues are unique, and every beat carries the index of its
source. -/
structure Marks (nPorts : ℕ) (queues : ℕ → List Beat) : Prop where
  nodup_markers : (((List.range (nPorts + 2)).flatMap queues).map Beat.marker).Nodup
  src_eq : ∀ s < nPorts + 2, ∀ b ∈ queues s, b.src = s

variable (D nPorts) in
/-- In its first `T` cycles a design satisfies the contract, and its sink bus can
be read. -/
structure Lawful (trace : ℕ → Wired D.σ Inputs) (T : ℕ) : Prop where
  readable : ∀ t < T, (reading D (trace t)).Readable
  rules : ChannelRules nPorts (fun t => (reading D (trace t)).sample) T
  routes : Routes nPorts (accepted D trace T) (delivered D trace T)

variable (D nPorts S queues w) in
/-- Cycle `t` is the first in which all the sources have returned. -/
structure Finishes (t : ℕ) : Prop where
  returned : (worldAt D nPorts S queues w t).returned nPorts = true
  first : ∀ u < t, (worldAt D nPorts S queues w u).returned nPorts = false

/-! ## The checks -/

theorem checkProtocol_monitored_iff {trace : ℕ → Sample} {T : ℕ} :
    checkProtocol (monitored nPorts trace T).protocolErrors = .ok () ↔
      ChannelRules nPorts trace T := by
  rw [checkProtocol, assertThat_eq_ok_iff, ← List.length_eq_zero_iff,
    length_protocolErrors_monitored, Finset.card_eq_zero, violations_eq_empty_iff]

/-- On a marked record the checks accept the contract of the scoreboard. -/
theorem checkAll_eq_ok_iff {blindCycles : ℕ} {monitor : Monitor} {h : Harness} (hm : h.Marked) :
    checkAll blindCycles monitor h = .ok () ↔
      blindCycles = 0 ∧ checkProtocol monitor.protocolErrors = .ok () ∧
        h.Conserved ∧ h.FlowsOrdered ∧ h.PacketsContiguous := by
  simp only [checkAll, seq_eq_ok_iff, assertThat_eq_ok_iff, hm.checkConservation_iff]
  refine and_congr_right fun _ => and_congr_right fun _ => and_congr_right fun hc => ?_
  rw [hm.checkFlowOrder_iff hc, hm.checkPackets_iff hc]

/-! ## After the sources have returned -/

variable (D nPorts S queues w) in
theorem monitors_fall (t : ℕ) :
    ((worldAt D nPorts S queues w t).fall nPorts).sinks =
        Sinks.watched nPorts (readings D (wiredAt D nPorts S queues w) (t + 1)) ∧
      ((worldAt D nPorts S queues w t).fall nPorts).monitor =
        protocol nPorts (readings D (wiredAt D nPorts S queues w) (t + 1)) := by
  obtain ⟨hsinks, hmonitor⟩ := monitors_worldAt D nPorts S queues w t
  rw [readings_succ, Sinks.watched, protocol, List.foldl_append, List.foldl_append, World.fall,
    hsinks, hmonitor]
  exact ⟨rfl, rfl⟩

theorem World.getD_sent (W : World D) (k : ℤ) :
    (W.sent nPorts).getD k [] = if k ∈ srcs nPorts then (W.sources k.toNat).sent else [] := by
  have hkeys : (((List.range (nPorts + 2)).map fun s =>
      (Int.ofNat s, (W.sources s).sent)).map Prod.fst).Nodup := by
    rw [List.map_map]
    exact nodup_ofNat (nPorts + 2)
  by_cases hk : k ∈ srcs nPorts
  · rw [if_pos hk]
    obtain ⟨s, hs, rfl⟩ := List.mem_map.mp hk
    rw [World.sent, Dict.getD, (Dict.get?_ofList_eq_some_iff hkeys _ _).mpr
      (List.mem_map_of_mem hs)]
    rfl
  · rw [if_neg hk]
    refine Dict.getD_of_notMem ?_ []
    rw [World.sent, Dict.mem_ofList_iff, List.map_map]
    exact hk

theorem forall_mem_readings {trace : ℕ → Wired D.σ Inputs} {T : ℕ} :
    (∀ r ∈ readings D trace T, r.Readable) ↔ ∀ t < T, (reading D (trace t)).Readable := by
  simp only [readings, List.forall_mem_map, List.mem_range]

/-- The monitor has watched the samples of the cycles. -/
theorem protocol_readings {trace : ℕ → Wired D.σ Inputs} {T : ℕ}
    (h : ∀ t < T, (reading D (trace t)).Readable) :
    protocol nPorts (readings D trace T) =
      monitored nPorts (fun t => (reading D (trace t)).sample) T := by
  rw [monitored, readings]
  congr 1
  refine List.map_congr_left fun t ht => ?_
  exact (h t (List.mem_range.mp ht)).reading_sample.symm

namespace Finishes

variable {t : ℕ} (h : Finishes D nPorts S queues w t)
include h

theorem unique {u : ℕ} (hu : Finishes D nPorts S queues w u) : t = u := by
  rcases Nat.lt_trichotomy t u with hlt | heq | hlt
  · exact absurd h.returned (Bool.eq_false_iff.mp (hu.first t hlt))
  · exact heq
  · exact absurd hu.returned (Bool.eq_false_iff.mp (h.first u hlt))

theorem wait_eq {s : ℕ} (hs : s < nPorts + 2) :
    (sourceAt D nPorts S queues w t s).wait = .returned :=
  (World.returned_iff _).mp h.returned s hs

theorem sourceAt_eq {s : ℕ} (hs : s < nPorts + 2) (n : ℕ) :
    sourceAt D nPorts S queues w (t + n) s = sourceAt D nPorts S queues w t s :=
  sourceAt_of_returned D nPorts S queues w (h.wait_eq hs) n

theorem sent_eq {s : ℕ} (hs : s < nPorts + 2) (n : ℕ) :
    (((worldAt D nPorts S queues w (t + n)).fall nPorts).sources s).sent = queues s := by
  have hwait : (sourceAt D nPorts S queues w (t + n) s).wait = .returned := by
    rw [h.sourceAt_eq hs, h.wait_eq hs]
  have hfall : ((worldAt D nPorts S queues w (t + n)).fall nPorts).sources s =
      sourceAt D nPorts S queues w (t + n) s := by
    change (sourceAt D nPorts S queues w (t + n) s).falling s _ = _
    rw [Source.falling, hwait]
  rw [hfall, sent_of_returned D nPorts S queues w hwait]

/-- What has been accepted is the whole queue. -/
theorem map_word_queues {s : ℕ} (hs : s < nPorts + 2) (n : ℕ) :
    (queues s).map Beat.word = accepted D (wiredAt D nPorts S queues w) (t + n) s := by
  have hwait : (sourceAt D nPorts S queues w (t + n) s).wait = .returned := by
    rw [h.sourceAt_eq hs, h.wait_eq hs]
  rw [← map_word_sent D nPorts S queues w (t + n) hs, sent_of_returned D nPorts S queues w hwait]

theorem records (hmarks : Marks nPorts queues) (n : ℕ) :
    Records nPorts (((worldAt D nPorts S queues w (t + n)).fall nPorts).harness nPorts)
      (accepted D (wiredAt D nPorts S queues w) (t + n + 1))
      (delivered D (wiredAt D nPorts S queues w) (t + n + 1)) queues where
  getD_seen d := by
    rw [World.harness, (monitors_fall D nPorts S queues w (t + n)).1,
      (Sinks.watched_spec nPorts _).2]
    refine if_congr ?_ rfl rfl
    constructor
    · rintro ⟨hd, hlt⟩
      obtain ⟨d, rfl⟩ := Int.eq_ofNat_of_zero_le hd
      exact ofNat_mem_iff.mpr (by exact_mod_cast hlt)
    · intro hd
      obtain ⟨d, hlt, rfl⟩ := List.mem_map.mp hd
      exact ⟨Int.natCast_nonneg d, Int.ofNat_lt.mpr (List.mem_range.mp hlt)⟩
  getD_sent k := by
    rw [World.harness, World.getD_sent]
    by_cases hk : k ∈ srcs nPorts
    · obtain ⟨s, hs, rfl⟩ := List.mem_map.mp hk
      rw [if_pos hk, if_pos hk]
      exact h.sent_eq (List.mem_range.mp hs) n
    · rw [if_neg hk, if_neg hk]
  map_word s hs := h.map_word_queues hs (n + 1)
  src_eq := hmarks.src_eq
  accepted_lt s _ hw := accepted_lt D _ hw
  delivered_lt d _ hw := delivered_lt D _ hw

theorem marked (hmarks : Marks nPorts queues) (n : ℕ) :
    (((worldAt D nPorts S queues w (t + n)).fall nPorts).harness nPorts).Marked where
  nodup_markers := by
    rw [((h.records hmarks n).allSent.map Beat.marker).nodup_iff]
    exact hmarks.nodup_markers
  src_eq k b hb := by
    rw [(h.records hmarks n).getD_sent] at hb
    by_cases hk : k ∈ srcs nPorts
    · rw [if_pos hk] at hb
      obtain ⟨s, hs, rfl⟩ := List.mem_map.mp hk
      exact hmarks.src_eq s (List.mem_range.mp hs) b hb
    · rw [if_neg hk] at hb
      cases hb

/-- The verdict at the end of a drain. -/
theorem check_iff (hmarks : Marks nPorts queues) (n : ℕ) :
    ((worldAt D nPorts S queues w (t + n)).fall nPorts).check nPorts = .ok () ↔
      (∀ s < nPorts + 2, ∀ b ∈ queues s, Fits b.fields) ∧
        Lawful D nPorts (wiredAt D nPorts S queues w) (t + n + 1) := by
  obtain ⟨hsinks, hmonitor⟩ := monitors_fall D nPorts S queues w (t + n)
  rw [World.check, checkAll_eq_ok_iff (h.marked hmarks n), (h.records hmarks n).contract_iff,
    hsinks, hmonitor, (Sinks.watched_spec nPorts _).1]
  constructor
  · rintro ⟨hread, hprotocol, hfits, hroutes⟩
    have hreadable := forall_mem_readings.mp hread
    rw [protocol_readings hreadable, checkProtocol_monitored_iff] at hprotocol
    exact ⟨hfits, hreadable, hprotocol, hroutes⟩
  · rintro ⟨hfits, hreadable, hrules, hroutes⟩
    rw [protocol_readings hreadable, checkProtocol_monitored_iff]
    exact ⟨forall_mem_readings.mpr hreadable, hrules, hfits, hroutes⟩

end Finishes

/-- What a test that sends traffic is left with. -/
theorem traffic_eq_ok_iff {after : ℕ} {W : World D} :
    traffic D nPorts S queues w after = .ok W ↔
      ∃ t, Finishes D nPorts S queues w t ∧ t + after + 5 < timeoutCycles ∧
        (worldAt D nPorts S queues w (t + after)).fall nPorts = W := by
  rw [traffic]
  cases hfind : (List.range (timeoutCycles - (4 + after + 1))).find? fun t =>
      (worldAt D nPorts S queues w t).returned nPorts with
  | some t =>
      obtain ⟨hreturned, hlt, hfirst⟩ := List.find?_range_eq_some.mp hfind
      have hfinishes : Finishes D nPorts S queues w t :=
        ⟨hreturned, fun u hu => by simpa using hfirst u hu⟩
      rw [List.mem_range] at hlt
      constructor
      · intro hW
        exact ⟨t, hfinishes, by omega, Except.ok.inj hW⟩
      · rintro ⟨u, hu, -, rfl⟩
        obtain rfl := hu.unique hfinishes
        rfl
  | none =>
      rw [List.find?_eq_none] at hfind
      constructor
      · intro hW
        cases hW
      · rintro ⟨t, ht, hlt, -⟩
        exact absurd ht.returned (hfind t (List.mem_range.mpr (by omega)))

/-- The verdict of a test that sends traffic. -/
theorem traffic_check_iff (hmarks : Marks nPorts queues) (after : ℕ) :
    (∃ W, traffic D nPorts S queues w after = .ok W ∧ W.check nPorts = .ok ()) ↔
      ∃ t, Finishes D nPorts S queues w t ∧ t + after + 5 < timeoutCycles ∧
        (∀ s < nPorts + 2, ∀ b ∈ queues s, Fits b.fields) ∧
        Lawful D nPorts (wiredAt D nPorts S queues w) (t + after + 1) := by
  constructor
  · rintro ⟨W, hW, hcheck⟩
    obtain ⟨t, hfinishes, htime, rfl⟩ := traffic_eq_ok_iff.mp hW
    exact ⟨t, hfinishes, htime, (hfinishes.check_iff hmarks after).mp hcheck⟩
  · rintro ⟨t, hfinishes, htime, haccepted⟩
    exact ⟨_, traffic_eq_ok_iff.mpr ⟨t, hfinishes, htime, rfl⟩,
      (hfinishes.check_iff hmarks after).mpr haccepted⟩

/-! ## The tests -/

variable (D nPorts) in
/-- The design and its pins after `start`. -/
def started (w : Wired D.σ Inputs) : Wired D.σ Inputs :=
  match start D nPorts w with
  | .ok (_, w') => w'
  | .error _ => w

theorem start_eq_ok (w : Wired D.σ Inputs) :
    start D nPorts w = .ok ((), started D nPorts w) := rfl

/-- Generated queues are marked. -/
theorem Generated.marks {queues : Dict ℤ (List Beat)} {maxBeats marker : ℕ}
    (hg : Generated (srcs nPorts) (dsts nPorts) maxBeats ⟨queues, marker⟩) :
    Marks nPorts fun s => queues.getD s [] where
  nodup_markers := by
    have hgetD : ∀ k, queues.getD k [] = if k ∈ srcs nPorts then queues.getD k [] else [] := by
      intro k
      by_cases hk : k ∈ srcs nPorts
      · rw [if_pos hk]
      · rw [if_neg hk, List.eq_nil_iff_forall_not_mem]
        intro b hb
        have hsrc : b.fields .src = k := hg.src_eq k b hb
        exact hk (hsrc ▸ (hg.wellFormed k b hb).src)
    have hperm := (Dict.pairs_perm_of_getD (nodup_ofNat (nPorts + 2)) hgetD).map Prod.snd
    rw [Dict.map_snd_pairs, List.flatMap_map, List.map_flatMap] at hperm
    have hqueues : (queues.values.flatten.map Beat.marker).Nodup := by
      rw [hg.markers.nodup_iff]
      exact (List.nodup_range').map fun _ _ => Int.ofNat.inj
    rw [(hperm.map Beat.marker).nodup_iff] at hqueues
    simpa [Function.comp_def] using hqueues
  src_eq s _ b hb := hg.src_eq s b hb

/-- A test that sends random traffic, up to its verdict. -/
theorem random_traffic_iff {rng : ℕ → Draws} {nPackets after : ℕ} (S : Stimulus)
    (w : Wired D.σ Inputs) :
    (do
      let (_, w) ← start D nPorts w
      let queues ← makePackets rng nPackets (srcs nPorts) (dsts nPorts) 3
      let W ← traffic D nPorts S (fun s => queues.getD s []) w after
      W.check nPorts) = Except.ok () ↔
      ∃ queues, makePackets rng nPackets (srcs nPorts) (dsts nPorts) 3 = .ok queues ∧
        ∃ t, Finishes D nPorts S (fun s => queues.getD s []) (started D nPorts w) t ∧
          t + after + 5 < timeoutCycles ∧
          (∀ s < nPorts + 2, ∀ b ∈ queues.getD s [], Fits b.fields) ∧
          Lawful D nPorts (wiredAt D nPorts S (fun s => queues.getD s []) (started D nPorts w))
            (t + after + 1) := by
  rw [start_eq_ok, bind_eq_ok_iff]
  simp only [Except.ok.injEq, exists_eq_left']
  refine bind_eq_ok_iff.trans (exists_congr fun queues => and_congr_right fun hqueues => ?_)
  obtain ⟨marker, hg⟩ := exists_generated_of_makePackets hqueues
  exact bind_eq_ok_iff.trans (traffic_check_iff hg.marks after)

/-! ## A test that leaves every sink ready -/

theorem testBit_allReady {d : ℕ} (hd : d < nPorts) : (allReady nPorts).testBit d = true := by
  rw [allReady, Nat.one_shiftLeft, Nat.testBit_two_pow_sub_one, decide_eq_true_eq]
  exact hd

theorem mReady_wiredAt_calm (gap : ℕ → ℕ → Bool) (hw : w.pins.mReady = allReady nPorts) (t : ℕ) :
    (wiredAt D nPorts (.calm gap) queues w t).pins.mReady = allReady nPorts := by
  induction t with
  | zero => exact hw
  | succ t ih => exact ih

/-- Nothing is ever refused, so that no rule can be broken. -/
theorem channelRules_calm (gap : ℕ → ℕ → Bool) (hw : w.pins.mReady = allReady nPorts) (T : ℕ) :
    ChannelRules nPorts
      (fun t => (reading D (wiredAt D nPorts (.calm gap) queues w t)).sample) T := by
  have hfree : ∀ t, ∀ d < nPorts,
      ¬ (reading D (wiredAt D nPorts (.calm gap) queues w t)).sample.Blocked d := by
    rintro t d hd ⟨-, hready⟩
    change (wiredAt D nPorts (.calm gap) queues w t).pins.mReady.testBit d = false at hready
    rw [mReady_wiredAt_calm gap hw, testBit_allReady hd] at hready
    cases hready
  exact
    { rule2 := fun t d _ hd hblocked => absurd hblocked (hfree t d hd)
      rule3 := fun t d _ hd hblocked => absurd hblocked (hfree t d hd) }

/-- `all_sources_to_all_sinks` accepts exactly the designs that take all the
traffic in time and route it. The channel rules it cannot see broken. -/
theorem all_sources_test_decides_routing (D : Dut) (nPorts : ℕ) (gap : ℕ → ℕ → Bool)
    (w : Wired D.σ Inputs) (rng : ℕ → Draws) :
    allSourcesToAllSinks D nPorts gap w rng = .ok () ↔
      ∃ queues, makePackets rng (6 * (nPorts + 2)) (srcs nPorts) (dsts nPorts) 3 = .ok queues ∧
        (∀ s < nPorts + 2, ∀ b ∈ queues.getD s [], Fits b.fields) ∧
        let trace := wiredAt D nPorts (.calm gap) (fun s => queues.getD s []) (started D nPorts w)
        ∃ t, Finishes D nPorts (.calm gap) (fun s => queues.getD s []) (started D nPorts w) t ∧
          t + 85 < timeoutCycles ∧
          (∀ u < t + 81, (reading D (trace u)).Readable) ∧
          Routes nPorts (accepted D trace (t + 81)) (delivered D trace (t + 81)) := by
  refine (random_traffic_iff (.calm gap) w).trans (exists_congr fun queues =>
    and_congr_right fun _ => ?_)
  constructor
  · rintro ⟨t, hfinishes, htime, hfits, hlawful⟩
    exact ⟨hfits, t, hfinishes, htime, hlawful.readable, hlawful.routes⟩
  · rintro ⟨hfits, t, hfinishes, htime, hreadable, hroutes⟩
    exact ⟨t, hfinishes, htime, hfits, hreadable, channelRules_calm gap rfl _, hroutes⟩

/-- `sink_ready_toggling_preserves_traffic` accepts exactly the designs that take
all the traffic in time and satisfy the contract, as far as it is sampled. -/
theorem toggling_test_decides_contract (D : Dut) (nPorts : ℕ) (gap : ℕ → ℕ → Bool)
    (w : Wired D.σ Inputs) (rng : ℕ → Draws) (bits : ℕ → ℕ) :
    sinkReadyTogglingPreservesTraffic D nPorts gap w rng bits = .ok () ↔
      ∃ queues, makePackets rng (4 * (nPorts + 2)) (srcs nPorts) (dsts nPorts) 3 = .ok queues ∧
        (∀ s < nPorts + 2, ∀ b ∈ queues.getD s [], Fits b.fields) ∧
        let S := Stimulus.chaos nPorts gap bits
        ∃ t, Finishes D nPorts S (fun s => queues.getD s []) (started D nPorts w) t ∧
          t + 86 < timeoutCycles ∧
          Lawful D nPorts (wiredAt D nPorts S (fun s => queues.getD s []) (started D nPorts w))
            (t + 82) := by
  refine (random_traffic_iff (.chaos nPorts gap bits) w).trans (exists_congr fun queues =>
    and_congr_right fun _ => ?_)
  constructor
  · rintro ⟨t, hfinishes, htime, hfits, hlawful⟩
    exact ⟨hfits, t, hfinishes, htime, hlawful⟩
  · rintro ⟨hfits, t, hfinishes, htime, hlawful⟩
    exact ⟨t, hfinishes, htime, hfits, hlawful⟩

end ReqXbar
