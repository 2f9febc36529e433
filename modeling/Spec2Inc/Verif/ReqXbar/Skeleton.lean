import Spec2Inc.Verif.ReqXbar.Verdict

/-!
# The skeleton of `req_xbar`

The interface handed to the design agent ties every output to zero. It is quiet
after reset, so that it passes the test that asks for nothing else. In every test
that sends traffic no beat is ever accepted, and the sources wait until the
timeout.
-/

open Bits Clocked Clocked.Bench Python Spec2incPkg

namespace ReqXbar

/-- `assign s_ready = '0`, and the same for the other outputs. -/
def skeleton : Dut where
  σ := Unit
  machine := ⟨Inputs.rstN, fun _ => (), fun _ _ => ()⟩
  sReady _ _ := some 0
  mReq _ _ := some 0
  mValid _ _ := some 0

/-- The tests of which the testbench consists, save those that stall or reset the
fabric on purpose. -/
inductive Test
  | quietAfterReset
  | singleSourceSingleSink
  | allSourcesToAllSinks
  | engineSourcesAreRouted
  | sinkReadyTogglingPreservesTraffic
  deriving DecidableEq

section Run

variable (D : Dut) (nPorts : ℕ) (gap : ℕ → ℕ → Bool) (rng : ℕ → Draws) (bits : ℕ → ℕ)
  (w : Wired D.σ Inputs)

def Test.run : Test → Except Exception Unit
  | quietAfterReset => ReqXbar.quietAfterReset D nPorts w
  | singleSourceSingleSink => ReqXbar.singleSourceSingleSink D nPorts w
  | allSourcesToAllSinks => ReqXbar.allSourcesToAllSinks D nPorts gap w rng
  | engineSourcesAreRouted => ReqXbar.engineSourcesAreRouted D nPorts w
  | sinkReadyTogglingPreservesTraffic =>
    ReqXbar.sinkReadyTogglingPreservesTraffic D nPorts gap w rng bits

end Run

variable {nPorts : ℕ} {S : Stimulus} {queues : ℕ → List Beat}

theorem accepted_skeleton (trace : ℕ → Wired skeleton.σ Inputs) (T s : ℕ) :
    accepted skeleton trace T s = [] := by
  refine List.flatMap_eq_nil_iff.mpr fun t _ => ?_
  have hrefused : takenAt s (skeleton.sReady (trace t).regs (trace t).pins) = false :=
    Nat.zero_testBit s
  rw [acceptedIn, hrefused, Bool.and_false]
  rfl

/-- A source that has a beat to send never returns. -/
theorem traffic_skeleton {s : ℕ} (hs : s < nPorts + 2) (hqueue : queues s ≠ [])
    (w : Wired skeleton.σ Inputs) (after : ℕ) (W : World skeleton) :
    traffic skeleton nPorts S queues w after ≠ .ok W := by
  intro hW
  obtain ⟨t, hfinishes, -, -⟩ := traffic_eq_ok_iff.mp hW
  have hwords := hfinishes.map_word_queues hs 0
  rw [accepted_skeleton, List.map_eq_nil_iff] at hwords
  exact hqueue hwords

/-- A packet leaves a beat in some queue. -/
theorem exists_beat_of_appendPacket {srcs dsts : List ℤ} {maxBeats : ℕ} {d : Draws}
    {g g' : Generator} (h : g.appendPacket srcs dsts maxBeats d = .ok g') :
    ∃ s, g'.queues.getD s [] ≠ [] := by
  obtain ⟨src, -, h⟩ := bind_eq_ok_iff.mp h
  obtain ⟨dst, -, h⟩ := bind_eq_ok_iff.mp h
  obtain ⟨op, -, h⟩ := bind_eq_ok_iff.mp h
  obtain ⟨nBeats, hn, h⟩ := bind_eq_ok_iff.mp h
  obtain rfl := Except.ok.inj h
  obtain ⟨m, rfl⟩ : ∃ m, nBeats = m + 1 := by
    by_cases hmax : maxBeats = 0
    · simp [randint, hmax] at hn
    · have hdraw : 1 + d.beats % maxBeats = nBeats := by simpa [randint, hmax] using hn
      exact ⟨d.beats % maxBeats, by omega⟩
  refine ⟨src, ?_⟩
  rw [List.range_succ, List.foldl_append, List.foldl_cons, List.foldl_nil, Generator.appendBeat,
    Dict.getD_append, if_pos rfl]
  exact List.append_ne_nil_of_right_ne_nil _ (List.cons_ne_nil _ _)

theorem exists_beat_of_makePackets {rng : ℕ → Draws} {nPackets maxBeats : ℕ}
    {queues : Dict ℤ (List Beat)}
    (hpackets : 0 < nPackets)
    (h : makePackets rng nPackets (srcs nPorts) (dsts nPorts) maxBeats = .ok queues) :
    ∃ s < nPorts + 2, queues.getD (s : ℤ) [] ≠ [] := by
  obtain ⟨nPackets, rfl⟩ := Nat.exists_eq_succ_of_ne_zero hpackets.ne'
  obtain ⟨marker, hg⟩ := exists_generated_of_makePackets h
  obtain ⟨g, hrun, h⟩ := bind_eq_ok_iff.mp h
  obtain rfl := Except.ok.inj h
  rw [List.range_succ, List.foldlM_append] at hrun
  obtain ⟨g', -, hlast⟩ := bind_eq_ok_iff.mp hrun
  rw [List.foldlM_cons] at hlast
  obtain ⟨g'', happend, hlast⟩ := bind_eq_ok_iff.mp hlast
  obtain rfl := Except.ok.inj hlast
  obtain ⟨k, hk⟩ := exists_beat_of_appendPacket happend
  obtain ⟨b, hb⟩ := List.exists_mem_of_ne_nil _ hk
  have hsrc : b.fields .src = k := hg.src_eq k b hb
  obtain ⟨s, hs, hsk⟩ := List.mem_map.mp (hg.wellFormed k b hb).src
  refine ⟨s, List.mem_range.mp hs, ?_⟩
  rw [← Int.ofNat_eq_natCast, hsk, hsrc]
  exact hk

theorem quietAfterReset_skeleton (w : Wired skeleton.σ Inputs) :
    quietAfterReset skeleton nPorts w = .ok () := by
  have hquiet : Passes (forM (List.range 5) fun _ => checkQuiet skeleton : Tb skeleton Unit)
      (started skeleton nPorts w) := by
    refine wp_forM_of_mem (I := fun _ => True) (fun _ _ w _ => ?_) trivial
    rw [checkQuiet, wp_bind, wp_sample]
    exact (wp_bind_lift_of_eq_ok (assertThat_eq_ok_iff.mpr rfl)).mpr (wp_tick.mpr trivial)
  obtain ⟨u, w', hrun, -⟩ := hquiet
  rw [quietAfterReset, start_eq_ok, bind_eq_ok_iff]
  simp only [Except.ok.injEq, exists_eq_left']
  exact bind_eq_ok_iff.mpr ⟨_, hrun, rfl⟩

/-- A test that sends traffic, and does not end. -/
theorem random_traffic_skeleton {rng : ℕ → Draws} {nPackets after : ℕ}
    (hpackets : 0 < nPackets) (w : Wired skeleton.σ Inputs) :
    (do
      let (_, w) ← start skeleton nPorts w
      let queues ← makePackets rng nPackets (srcs nPorts) (dsts nPorts) 3
      let W ← traffic skeleton nPorts S (fun s => queues.getD s []) w after
      W.check nPorts) ≠ Except.ok () := by
  intro h
  obtain ⟨queues, hqueues, t, hfinishes, -⟩ := (random_traffic_iff S w).mp h
  obtain ⟨s, hs, hqueue⟩ := exists_beat_of_makePackets hpackets hqueues
  have hwords := hfinishes.map_word_queues hs 0
  rw [accepted_skeleton, List.map_eq_nil_iff] at hwords
  exact hqueue hwords

/-- The skeleton passes the test that asks for silence, and no other. -/
theorem xbar_skeleton_passes_iff (nPorts : ℕ) (gap : ℕ → ℕ → Bool) (rng : ℕ → Draws)
    (bits : ℕ → ℕ) (w : Wired skeleton.σ Inputs) (t : Test) :
    t.run skeleton nPorts gap rng bits w = .ok () ↔ t = .quietAfterReset := by
  cases t with
  | quietAfterReset => exact iff_of_true (quietAfterReset_skeleton w) rfl
  | singleSourceSingleSink =>
      refine iff_of_false (fun h => ?_) (by decide)
      rw [Test.run, singleSourceSingleSink, start_eq_ok, bind_eq_ok_iff] at h
      simp only [Except.ok.injEq, exists_eq_left'] at h
      obtain ⟨W, hW, -⟩ := bind_eq_ok_iff.mp h
      exact traffic_skeleton (Nat.succ_pos _) (by decide) _ _ W hW
  | allSourcesToAllSinks =>
      refine iff_of_false (fun h => ?_) (by decide)
      exact random_traffic_skeleton (Nat.mul_pos (by decide) (Nat.succ_pos _)) w h
  | engineSourcesAreRouted =>
      refine iff_of_false (fun h => ?_) (by decide)
      rw [Test.run, engineSourcesAreRouted, start_eq_ok, bind_eq_ok_iff] at h
      simp only [Except.ok.injEq, exists_eq_left'] at h
      obtain ⟨W, hW, -⟩ := bind_eq_ok_iff.mp h
      refine traffic_skeleton (Nat.lt_succ_self (nPorts + 1)) ?_ _ _ W hW
      rw [engineQueues, Function.update_self]
      exact List.cons_ne_nil _ _
  | sinkReadyTogglingPreservesTraffic =>
      refine iff_of_false (fun h => ?_) (by decide)
      exact random_traffic_skeleton (Nat.mul_pos (by decide) (Nat.succ_pos _)) w h

end ReqXbar
