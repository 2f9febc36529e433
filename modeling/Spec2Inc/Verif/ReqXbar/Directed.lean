import Spec2Inc.Verif.ReqXbar.Verdict

/-!
# The directed tests of `req_xbar`

`single_source_single_sink` and `engine_sources_are_routed` send fixed beats. The
first accepts what routes them in time, at every radix. The second needs two sinks,
and source indices that fit the `src` field.
-/

open Bits Clocked Python Spec2incPkg

namespace ReqXbar

variable {D : Dut} {nPorts : ℕ} {S : Stimulus} {queues : ℕ → List Beat} {w : Wired D.σ Inputs}

/-- Without queues below `n`, the first `n` sources send nothing. -/
theorem flatMap_range_eq_nil {n : ℕ} (h : ∀ s < n, queues s = []) :
    (List.range n).flatMap queues = [] :=
  List.flatMap_eq_nil_iff.mpr fun s hs => h s (List.mem_range.mp hs)

theorem oneQueue_of_ne {src s : ℕ} {beats : List Beat} (h : s ≠ src) :
    oneQueue src beats s = [] := Function.update_of_ne h _ _

theorem oneQueue_self (src : ℕ) (beats : List Beat) : oneQueue src beats src = beats :=
  Function.update_self _ _ _

/-- The verdict of a test without random traffic, up to its own assertions. -/
theorem directed_check_iff (hmarks : Marks nPorts queues) (gap : ℕ → ℕ → Bool) (after : ℕ)
    (hw : w.pins.mReady = allReady nPorts) :
    (∃ W, traffic D nPorts (.calm gap) queues w after = .ok W ∧ W.check nPorts = .ok ()) ↔
      (∀ s < nPorts + 2, ∀ b ∈ queues s, Fits b.fields) ∧
        ∃ t, Finishes D nPorts (.calm gap) queues w t ∧ t + after + 5 < timeoutCycles ∧
          (∀ u < t + after + 1, (reading D (wiredAt D nPorts (.calm gap) queues w u)).Readable) ∧
          Routes nPorts (accepted D (wiredAt D nPorts (.calm gap) queues w) (t + after + 1))
            (delivered D (wiredAt D nPorts (.calm gap) queues w) (t + after + 1)) := by
  refine (traffic_check_iff hmarks after).trans ⟨?_, ?_⟩
  · rintro ⟨t, hfinishes, htime, hfits, hlawful⟩
    exact ⟨hfits, t, hfinishes, htime, hlawful.readable, hlawful.routes⟩
  · rintro ⟨hfits, t, hfinishes, htime, hreadable, hroutes⟩
    exact ⟨t, hfinishes, htime, hfits, hreadable, channelRules_calm gap hw _, hroutes⟩

/-! ## One source -/

theorem flatMap_oneQueue_zero (n : ℕ) (beats : List Beat) :
    (List.range (n + 1)).flatMap (oneQueue 0 beats) = beats := by
  rw [List.range_succ_eq_map, List.flatMap_cons, oneQueue_self, List.flatMap_eq_nil_iff.mpr,
    List.append_nil]
  intro s hs
  obtain ⟨k, -, rfl⟩ := List.mem_map.mp hs
  exact oneQueue_of_ne (Nat.succ_ne_zero k)

theorem single_source_test_iff (D : Dut) (nPorts : ℕ) (w : Wired D.σ Inputs) :
    singleSourceSingleSink D nPorts w = .ok () ↔
      let trace := wiredAt D nPorts (.calm fun _ _ => false) (oneQueue 0 singleBeats)
        (started D nPorts w)
      ∃ t, Finishes D nPorts (.calm fun _ _ => false) (oneQueue 0 singleBeats)
          (started D nPorts w) t ∧
        t + 35 < timeoutCycles ∧
        (∀ u < t + 31, (reading D (trace u)).Readable) ∧
        Routes nPorts (accepted D trace (t + 31)) (delivered D trace (t + 31)) := by
  have hmem : ∀ s, ∀ b ∈ oneQueue 0 singleBeats s, s = 0 ∧ b ∈ singleBeats := by
    intro s b hb
    by_cases hs : s = 0
    · subst hs
      exact ⟨rfl, hb⟩
    · rw [oneQueue_of_ne hs] at hb
      cases hb
  have hmarks : Marks nPorts (oneQueue 0 singleBeats) := by
    constructor
    · rw [flatMap_oneQueue_zero]
      decide
    · intro s _ b hb
      obtain ⟨rfl, hb⟩ := hmem s b hb
      have hsrc : ∀ b ∈ singleBeats, b.src = ((0 : ℕ) : ℤ) := by decide
      exact hsrc b hb
  have hfits : ∀ b ∈ singleBeats, Fits b.fields := by decide
  rw [singleSourceSingleSink, start_eq_ok, bind_eq_ok_iff]
  simp only [Except.ok.injEq, exists_eq_left']
  rw [bind_eq_ok_iff, directed_check_iff hmarks _ 30 rfl]
  exact and_iff_right fun s _ b hb => hfits b (hmem s b hb).2

/-! ## The engines -/

theorem engineQueues_of_ne {s : ℕ} (h : s ≠ nPorts) (h' : s ≠ nPorts + 1) :
    engineQueues nPorts s = [] := by
  rw [engineQueues, Function.update_of_ne h']
  exact oneQueue_of_ne h

theorem engineQueues_primitive :
    engineQueues nPorts nPorts = engineBeats nPorts (nPorts - 1) 0x11 0x1000 := by
  rw [engineQueues, Function.update_of_ne (Nat.ne_of_lt (Nat.lt_succ_self nPorts)), oneQueue_self]

theorem engineQueues_block :
    engineQueues nPorts (nPorts + 1) = engineBeats (nPorts + 1) 0 0x22 0x2000 :=
  Function.update_self _ _ _

theorem flatMap_engineQueues :
    (List.range (nPorts + 2)).flatMap (engineQueues nPorts) =
      engineBeats nPorts (nPorts - 1) 0x11 0x1000 ++ engineBeats (nPorts + 1) 0 0x22 0x2000 := by
  rw [List.range_succ, List.range_succ, List.flatMap_append, List.flatMap_append,
    List.flatMap_singleton, List.flatMap_singleton, engineQueues_primitive, engineQueues_block,
    flatMap_range_eq_nil fun s hs => engineQueues_of_ne hs.ne (hs.trans (Nat.lt_succ_self _)).ne]
  rfl

theorem marks_engineQueues : Marks nPorts (engineQueues nPorts) where
  nodup_markers := by
    rw [flatMap_engineQueues, List.map_append]
    have hmarkers : ∀ src dst tag marker, (engineBeats src dst tag marker).map Beat.marker =
        [marker, marker + 1] := fun src dst tag marker => by
      simp [engineBeats, Beat.marker, Beat.make, List.range_succ]
    rw [hmarkers, hmarkers]
    decide
  src_eq s _ b hb := by
    have hsrc : ∀ src dst tag marker, ∀ b ∈ engineBeats src dst tag marker, b.src = src := by
      intro src dst tag marker b hb
      obtain ⟨i, -, rfl⟩ := List.mem_map.mp hb
      rfl
    by_cases hprim : s = nPorts
    · subst hprim
      rw [engineQueues_primitive] at hb
      exact hsrc _ _ _ _ b hb
    · by_cases hblk : s = nPorts + 1
      · subst hblk
        rw [engineQueues_block] at hb
        exact hsrc _ _ _ _ b hb
      · rw [engineQueues_of_ne hprim hblk] at hb
        cases hb

theorem fits_engineBeats_iff (src dst : ℤ) {tag marker : ℤ} (htag : 0 ≤ tag ∧ tag < 2 ^ tagW)
    (hmarker : 0 ≤ marker ∧ marker + 1 < 2 ^ dataW) :
    (∀ b ∈ engineBeats src dst tag marker, Fits b.fields) ↔
      (0 ≤ src ∧ src < 2 ^ idW) ∧ 0 ≤ dst ∧ dst < 2 ^ idW := by
  constructor
  · intro h
    have hfits := h _ (List.mem_map_of_mem (List.mem_range.mpr Nat.two_pos))
    exact ⟨hfits .src, hfits .dst⟩
  · rintro ⟨hsrc, hdst⟩ b hb f
    obtain ⟨i, hi, rfl⟩ := List.mem_map.mp hb
    have hi : i = 0 ∨ i = 1 := by
      rw [List.mem_range] at hi
      omega
    cases f with
    | op => exact (by decide : 0 ≤ reqWrite ∧ reqWrite < 2 ^ opW)
    | src => exact hsrc
    | dst => exact hdst
    | tag => exact htag
    | addr =>
        have haddr : ∀ i : ℕ, i = 0 ∨ i = 1 → (0 : ℤ) ≤ i ∧ (i : ℤ) < 2 ^ addrW := by
          rintro i (rfl | rfl) <;> decide
        exact haddr i hi
    | len => exact (by decide : (0 : ℤ) ≤ 1 ∧ (1 : ℤ) < 2 ^ lenW)
    | data =>
        have hle : (i : ℤ) ≤ 1 := by omega
        exact ⟨add_nonneg hmarker.1 (Int.natCast_nonneg i),
          (Int.add_le_add_left hle marker).trans_lt hmarker.2⟩
    | last =>
        have hlast : ∀ i : ℕ, i = 0 ∨ i = 1 →
            (0 : ℤ) ≤ (if i = 1 then 1 else 0) ∧ (if i = 1 then 1 else 0 : ℤ) < 2 ^ 1 := by
          rintro i (rfl | rfl) <;> decide
        exact hlast i hi

/-- The engines' indices are the largest of all sources. -/
theorem fits_engineQueues_iff :
    (∀ s < nPorts + 2, ∀ b ∈ engineQueues nPorts s, Fits b.fields) ↔
      1 ≤ nPorts ∧ nPorts + 1 < 2 ^ idW := by
  have hprim := fits_engineBeats_iff nPorts (nPorts - 1)
    (by decide : (0 : ℤ) ≤ 0x11 ∧ (0x11 : ℤ) < 2 ^ tagW)
    (by decide : (0 : ℤ) ≤ 0x1000 ∧ (0x1000 : ℤ) + 1 < 2 ^ dataW)
  have hblk := fits_engineBeats_iff (nPorts + 1) 0
    (by decide : (0 : ℤ) ≤ 0x22 ∧ (0x22 : ℤ) < 2 ^ tagW)
    (by decide : (0 : ℤ) ≤ 0x2000 ∧ (0x2000 : ℤ) + 1 < 2 ^ dataW)
  constructor
  · intro h
    have hfits := h nPorts (by omega)
    have hfits' := h (nPorts + 1) (by omega)
    rw [engineQueues_primitive, hprim] at hfits
    rw [engineQueues_block, hblk] at hfits'
    exact ⟨by omega, by exact_mod_cast hfits'.1.2⟩
  · rintro ⟨hpos, hlt⟩ s - b hb
    have hlt' : (nPorts : ℤ) + 1 < 2 ^ idW := by exact_mod_cast hlt
    by_cases hs : s = nPorts
    · subst hs
      rw [engineQueues_primitive] at hb
      exact hprim.mpr ⟨⟨by omega, by omega⟩, by omega, by omega⟩ b hb
    · by_cases hs' : s = nPorts + 1
      · subst hs'
        rw [engineQueues_block] at hb
        exact hblk.mpr ⟨⟨by omega, hlt'⟩, by decide⟩ b hb
      · rw [engineQueues_of_ne hs hs'] at hb
        cases hb

/-- What a sink has seen is as much as was sent to it. -/
theorem length_seen_of_conserved {h : Harness} (hc : h.Conserved) (d : ℤ) :
    (h.seen.getD d []).length = h.allSent.countP fun b => b.dst = d := by
  have hcount := hc.countP_eq fun p => decide (p.1 = d)
  rw [List.countP_map] at hcount
  rw [← Dict.filter_pairs, List.length_map, ← List.countP_eq_length_filter, hcount]
  rfl

/-- Two beats for each of the two sinks, unless these are one. -/
theorem Finishes.length_seen_engine {t n : ℕ}
    (h : Finishes D nPorts S (engineQueues nPorts) w t)
    (hc : (((worldAt D nPorts S (engineQueues nPorts) w (t + n)).fall nPorts).harness
      nPorts).Conserved) (d : ℤ) :
    (((worldAt D nPorts S (engineQueues nPorts) w (t + n)).fall nPorts).sinks.seen.getD d
        []).length =
      (if (nPorts : ℤ) - 1 = d then 2 else 0) + if 0 = d then 2 else 0 := by
  refine (length_seen_of_conserved hc d).trans ?_
  rw [(h.records marks_engineQueues n).allSent.countP_eq, flatMap_engineQueues, List.countP_append]
  have hcount : ∀ src dst tag marker, (engineBeats src dst tag marker).countP (fun b => b.dst = d) =
      if dst = d then 2 else 0 := by
    intro src dst tag marker
    by_cases hd : dst = d <;> simp [engineBeats, Beat.make, Beat.dst, List.range_succ, hd]
  rw [hcount, hcount]

theorem engine_sources_test_iff (D : Dut) (nPorts : ℕ) (w : Wired D.σ Inputs) :
    engineSourcesAreRouted D nPorts w = .ok () ↔
      2 ≤ nPorts ∧ nPorts + 1 < 2 ^ idW ∧
        let trace := wiredAt D nPorts (.calm fun _ _ => false) (engineQueues nPorts)
          (started D nPorts w)
        ∃ t, Finishes D nPorts (.calm fun _ _ => false) (engineQueues nPorts)
            (started D nPorts w) t ∧
          t + 45 < timeoutCycles ∧
          (∀ u < t + 41, (reading D (trace u)).Readable) ∧
          Routes nPorts (accepted D trace (t + 41)) (delivered D trace (t + 41)) := by
  have hseen : ∀ W, traffic D nPorts (.calm fun _ _ => false) (engineQueues nPorts)
      (started D nPorts w) 40 = .ok W → W.check nPorts = .ok () →
        ((W.sinks.seen.getD ((nPorts : ℤ) - 1) []).length = 2 ∧
          (W.sinks.seen.getD 0 []).length = 2 ↔ nPorts ≠ 1) := by
    intro W hW hcheck
    obtain ⟨t, hfinishes, -, rfl⟩ := traffic_eq_ok_iff.mp hW
    rw [World.check, checkAll_eq_ok_iff (hfinishes.marked marks_engineQueues 40)] at hcheck
    rw [hfinishes.length_seen_engine hcheck.2.2.1, hfinishes.length_seen_engine hcheck.2.2.1]
    split_ifs <;> omega
  have hassert : (∃ W, traffic D nPorts (.calm fun _ _ => false) (engineQueues nPorts)
      (started D nPorts w) 40 = .ok W ∧ W.check nPorts = .ok () ∧
        (W.sinks.seen.getD ((nPorts : ℤ) - 1) []).length = 2 ∧
          (W.sinks.seen.getD 0 []).length = 2) ↔
      nPorts ≠ 1 ∧ ∃ W, traffic D nPorts (.calm fun _ _ => false) (engineQueues nPorts)
        (started D nPorts w) 40 = .ok W ∧ W.check nPorts = .ok () := by
    constructor
    · rintro ⟨W, hW, hcheck, hlength⟩
      exact ⟨(hseen W hW hcheck).mp hlength, W, hW, hcheck⟩
    · rintro ⟨hne, W, hW, hcheck⟩
      exact ⟨W, hW, hcheck, (hseen W hW hcheck).mpr hne⟩
  rw [engineSourcesAreRouted, start_eq_ok, bind_eq_ok_iff]
  simp only [Except.ok.injEq, exists_eq_left']
  rw [bind_eq_ok_iff]
  simp only [seq_eq_ok_iff, assertThat_eq_ok_iff]
  rw [hassert, directed_check_iff marks_engineQueues _ 40 rfl, fits_engineQueues_iff]
  constructor
  · rintro ⟨hne, ⟨hpos, hlt⟩, haccepted⟩
    exact ⟨by omega, hlt, haccepted⟩
  · rintro ⟨htwo, hlt, haccepted⟩
    exact ⟨by omega, ⟨by omega, hlt⟩, haccepted⟩

end ReqXbar
