import Mathlib.Data.List.Dedup
import Mathlib.Data.List.Perm.Basic
import Spec2Inc.Verif.ReqXbar.Traffic

/-!
# The scoreboard

The three checks on a finished `Harness`: conservation, order within a flow,
and contiguous packets. Together they accept exactly the records that satisfy
the contract of the crossbar, for any record whose markers are distinct and
whose beats carry their source's index. The proof takes the checks in their
order: once conservation has passed, looking a seen marker up finds the beat
that was seen (`Faithful`), and the other two checks are then about the seen
fields themselves.
-/

open Python

namespace ReqXbar

/-- The record of a run: what was seen at each sink and sent by each source. -/
structure Harness where
  seen : Dict ℤ (List Fields)
  sent : Dict ℤ (List Beat)

namespace Harness

def allSent (h : Harness) : List Beat := h.sent.values.flatten

def allSeen (h : Harness) : List Fields := h.seen.values.flatten

/-- `{b.marker: b for b in h.all_sent()}`. -/
def sentByMarker (h : Harness) : Dict ℤ Beat :=
  Dict.ofList (h.allSent.map fun b => (b.marker, b))

end Harness

/-- The body of the last loop of `check_conservation`. -/
def checkBeat (sent : Dict ℤ Beat) (dst : ℤ) (got : Fields) : Except Exception Unit := do
  let want ← index sent (got .data)
  assertThat (dst = want.dst) s!"misrouted: {want.repr} delivered to sink {dst}"
  forM compared fun field =>
    assertThat (got field = want.fields field)
      (s!"{want.repr}: field '{field.name}' changed in flight -- " ++
        s!"got {got field}, sent {want.fields field}")

/-- Every injected beat arrives once, unaltered, at the sink dst named. -/
def checkConservation (h : Harness) : Except Exception Unit := do
  let sent := h.sentByMarker
  let seenMarkers := h.allSeen.map fun got => got .data
  assertThat (seenMarkers.length = seenMarkers.dedup.length)
    (s!"a beat was duplicated: {seenMarkers.length} delivered, " ++
      s!"{seenMarkers.dedup.length} distinct")
  let missing := sent.keys.filter fun m => m ∉ seenMarkers
  assertThat (missing = [])
    (s!"{missing.length} beat(s) never arrived, e.g. " ++
      ((missing.min?.bind sent.get?).elim "" Beat.repr))
  let invented := seenMarkers.dedup.filter fun m => m ∉ sent
  assertThat (invented = []) s!"{invented.length} beat(s) arrived that were never sent"
  forM h.seen.items fun p => forM p.2 fun got => checkBeat sent p.1 got

/-- The markers seen at one sink, listed by the source that sent them. -/
def perFlow (sent : Dict ℤ Beat) (beats : List Fields) :
    Except Exception (Dict ℤ (List ℤ)) :=
  beats.foldlM (fun flows got => do
    let b ← index sent (got .data)
    .ok (flows.append b.src (got .data))) Dict.empty

/-- The markers source `src` sent to sink `dst`. -/
def Harness.expected (h : Harness) (src dst : ℤ) : List ℤ :=
  ((h.sent.getD src []).filter fun b => b.dst = dst).map Beat.marker

/-- Within one source->sink flow, beats keep the order they were sent. -/
def checkFlowOrder (h : Harness) : Except Exception Unit := do
  let sent := h.sentByMarker
  forM h.seen.items fun p => do
    let flows ← perFlow sent p.2
    forM flows.items fun flow =>
      assertThat (flow.2 = h.expected flow.1 p.1)
        (s!"flow {flow.1}->{p.1} reordered:\n  got  {flow.2}\n" ++
          s!"  want {h.expected flow.1 p.1}")

/-- The body of the loop of `check_packets_not_interleaved`, on `open_src`. -/
def trackOpen (sent : Dict ℤ Beat) (dst : ℤ) (openSrc : Option ℤ) (got : Fields) :
    Except Exception (Option ℤ) := do
  let b ← index sent (got .data)
  forM openSrc.toList fun o =>
    assertThat (b.src = o)
      (s!"sink {dst}: source {b.src} interleaved into an open " ++
        s!"transfer from source {o}")
  .ok (if got .last ≠ 0 then none else some b.src)

/-- At one sink, a multi-beat packet is contiguous. -/
def checkPacketsNotInterleaved (h : Harness) : Except Exception Unit := do
  let sent := h.sentByMarker
  forM h.seen.items fun p => do
    let _ ← p.2.foldlM (trackOpen sent p.1) none
    .ok ()

/-! ## The contract -/

/-- What was seen is what was sent, each beat once, at the sink it names. -/
def Harness.Conserved (h : Harness) : Prop :=
  h.seen.pairs.Perm (h.allSent.map fun b => (b.dst, b.fields))

/-- The beats one sink saw from one source are in the order they were sent. -/
def Harness.FlowsOrdered (h : Harness) : Prop :=
  ∀ s d, ((h.seen.getD d []).filter fun got => got .src = s).Sublist
    ((h.sent.getD s []).map Beat.fields)

/-- After a beat with `last = 0` the next one comes from the same source. -/
def Continues (got next : Fields) : Prop := got .last = 0 → next .src = got .src

/-- Packets are contiguous at every sink. -/
def Harness.PacketsContiguous (h : Harness) : Prop :=
  ∀ d, (h.seen.getD d []).IsChain Continues

/-- Markers are unique, and every beat carries the index of its source. -/
structure Harness.Marked (h : Harness) : Prop where
  nodup_markers : (h.allSent.map Beat.marker).Nodup
  src_eq : ∀ s, ∀ b ∈ h.sent.getD s [], b.src = s

/-! ## Conservation -/

variable {h : Harness}

theorem Harness.Marked.get?_sentByMarker (hm : h.Marked) {m : ℤ} {b : Beat} :
    h.sentByMarker.get? m = some b ↔ b ∈ h.allSent ∧ b.marker = m := by
  have hnodup : ((h.allSent.map fun b => (b.marker, b)).map Prod.fst).Nodup := by
    rw [List.map_map]
    exact hm.nodup_markers
  rw [Harness.sentByMarker, Dict.get?_ofList_eq_some_iff hnodup, List.mem_map]
  constructor
  · rintro ⟨b', hb', heq⟩
    obtain ⟨rfl, rfl⟩ := Prod.mk.inj heq
    exact ⟨hb', rfl⟩
  · rintro ⟨hb, rfl⟩
    exact ⟨b, hb, rfl⟩

theorem Harness.mem_sentByMarker_iff {m : ℤ} :
    m ∈ h.sentByMarker ↔ m ∈ h.allSent.map Beat.marker := by
  rw [Harness.sentByMarker, Dict.mem_ofList_iff, List.map_map]
  rfl

theorem checkBeat_eq_ok_iff {sent : Dict ℤ Beat} {dst : ℤ} {got : Fields} :
    checkBeat sent dst got = .ok () ↔
      ∃ want, sent.get? (got .data) = some want ∧ dst = want.dst ∧ got = want.fields := by
  rw [checkBeat, bind_eq_ok_iff]
  simp only [index_eq_ok_iff, seq_eq_ok_iff, forM_eq_ok_iff, assertThat_eq_ok_iff]
  constructor
  · rintro ⟨want, hwant, hdst, hfields⟩
    exact ⟨want, hwant, hdst, funext fun f => hfields f (mem_compared f)⟩
  · rintro ⟨want, hwant, hdst, rfl⟩
    exact ⟨want, hwant, hdst, fun _ _ => rfl⟩

theorem length_eq_dedup_iff {α : Type*} [DecidableEq α] (l : List α) :
    l.length = l.dedup.length ↔ l.Nodup := by
  constructor
  · intro hlen
    rw [← (List.dedup_sublist l).eq_of_length hlen.symm]
    exact List.nodup_dedup l
  · intro hnodup
    rw [hnodup.dedup]

/-- What the four steps of `check_conservation` ask for. -/
theorem checkConservation_eq_ok_iff :
    checkConservation h = .ok () ↔
      (h.allSeen.map fun got => got .data).Nodup ∧
      (∀ b ∈ h.allSent, b.marker ∈ h.allSeen.map fun got => got .data) ∧
      (∀ got ∈ h.allSeen, got .data ∈ h.sentByMarker) ∧
      ∀ p ∈ h.seen.pairs, checkBeat h.sentByMarker p.1 p.2 = .ok () := by
  simp only [checkConservation, seq_eq_ok_iff, assertThat_eq_ok_iff, forM_eq_ok_iff,
    length_eq_dedup_iff, List.filter_eq_nil_iff, decide_eq_true_eq, not_not]
  refine and_congr_right' (and_congr ?_ (and_congr ?_ ?_))
  · constructor
    · intro hall b hb
      exact hall _ (Harness.mem_sentByMarker_iff.mpr (List.mem_map_of_mem hb))
    · intro hall m hm
      obtain ⟨b, hb, rfl⟩ := List.mem_map.mp (Harness.mem_sentByMarker_iff.mp hm)
      exact hall b hb
  · simp only [List.mem_dedup, List.mem_map, forall_exists_index, and_imp,
      forall_apply_eq_imp_iff₂]
  · constructor
    · intro hall p hp
      obtain ⟨q, hq, hp⟩ := List.mem_flatMap.mp hp
      obtain ⟨got, hgot, rfl⟩ := List.mem_map.mp hp
      exact hall q hq got hgot
    · intro hall q hq got hgot
      exact hall (q.1, got) (List.mem_flatMap.mpr ⟨q, hq, List.mem_map_of_mem hgot⟩)

theorem Harness.allSeen_eq : h.allSeen = h.seen.pairs.map Prod.snd :=
  (Dict.map_snd_pairs _).symm

/-- Conservation passes exactly when the multisets agree. -/
theorem Harness.Marked.checkConservation_iff (hm : h.Marked) :
    checkConservation h = .ok () ↔ h.Conserved := by
  have hmarkers : (h.allSent.map fun b => (b.dst, b.fields)).map (fun p => p.2 .data) =
      h.allSent.map Beat.marker := by
    rw [List.map_map]
    rfl
  rw [checkConservation_eq_ok_iff, Harness.allSeen_eq, List.map_map]
  constructor
  · rintro ⟨hnodup, hall, -, hbeats⟩
    refine (List.perm_ext_iff_of_nodup hnodup.of_map (hmarkers ▸ hm.nodup_markers).of_map).mpr
      fun p => ?_
    constructor
    · intro hp
      obtain ⟨want, hwant, hdst, hgot⟩ := checkBeat_eq_ok_iff.mp (hbeats p hp)
      exact List.mem_map.mpr
        ⟨want, (hm.get?_sentByMarker.mp hwant).1, Prod.ext hdst.symm hgot.symm⟩
    · intro hp
      obtain ⟨b, hb, rfl⟩ := List.mem_map.mp hp
      obtain ⟨q, hq, hdata⟩ := List.mem_map.mp (hall b hb)
      obtain ⟨want, hwant, hdst, hgot⟩ := checkBeat_eq_ok_iff.mp (hbeats q hq)
      have hb' := hm.get?_sentByMarker.mpr ⟨hb, hdata.symm⟩
      obtain rfl : want = b := Option.some.inj (hwant.symm.trans hb')
      rwa [← hdst, ← hgot]
  · intro hperm
    have hdata := hperm.map fun p => p.2 .data
    rw [hmarkers] at hdata
    have hseen : ∀ p ∈ h.seen.pairs, ∃ b ∈ h.allSent, (b.dst, b.fields) = p := fun p hp =>
      List.mem_map.mp (hperm.mem_iff.mp hp)
    refine ⟨hdata.nodup_iff.mpr hm.nodup_markers, ?_, ?_, ?_⟩
    · intro b hb
      exact hdata.mem_iff.mpr (List.mem_map_of_mem hb)
    · intro got hgot
      obtain ⟨p, hp, rfl⟩ := List.mem_map.mp hgot
      exact Harness.mem_sentByMarker_iff.mpr (hdata.mem_iff.mp (List.mem_map_of_mem hp))
    · intro p hp
      obtain ⟨b, hb, rfl⟩ := hseen p hp
      exact checkBeat_eq_ok_iff.mpr ⟨b, hm.get?_sentByMarker.mpr ⟨hb, rfl⟩, rfl, rfl⟩

/-! ## Order within a flow -/

/-- Looking a seen marker up finds the beat that was seen. -/
def Faithful (sent : Dict ℤ Beat) (beats : List Fields) : Prop :=
  ∀ got ∈ beats, sent.get? (got .data) = some ⟨got⟩

theorem Faithful.tail {sent : Dict ℤ Beat} {got : Fields} {beats : List Fields}
    (hf : Faithful sent (got :: beats)) : Faithful sent beats :=
  fun got' hgot' => hf got' (List.mem_cons_of_mem _ hgot')

theorem Harness.Marked.faithful_seen (hm : h.Marked) (hc : h.Conserved) (d : ℤ) :
    Faithful h.sentByMarker (h.seen.getD d []) := by
  intro got hgot
  have hmem := hc.mem_iff.mp ((Dict.mem_pairs_iff _ _ _).mpr hgot)
  obtain ⟨b, hb, heq⟩ := List.mem_map.mp hmem
  obtain ⟨-, rfl⟩ := Prod.mk.inj heq
  exact hm.get?_sentByMarker.mpr ⟨hb, rfl⟩

/-- Beats that were sent are told apart by their markers. -/
theorem Faithful.eq_of_map_data {sent : Dict ℤ Beat} {l₁ l₂ : List Fields}
    (h₁ : Faithful sent l₁) (h₂ : Faithful sent l₂)
    (heq : (l₁.map fun got => got .data) = l₂.map fun got => got .data) : l₁ = l₂ := by
  have hlookup : ∀ l, Faithful sent l →
      (l.map fun got => got .data).map sent.get? = l.map fun got => some ⟨got⟩ := by
    intro l hl
    rw [List.map_map]
    exact List.map_congr_left hl
  have hsome : Function.Injective fun got : Fields => some (Beat.mk got) := by
    intro got got' hgot
    exact Beat.mk.inj (Option.some.inj hgot)
  apply List.map_injective_iff.mpr hsome
  rw [← hlookup l₁ h₁, ← hlookup l₂ h₂, heq]

/-- The dictionary of flows lists the markers of every source that was seen. -/
theorem perFlow_spec {sent : Dict ℤ Beat} {beats : List Fields} (hf : Faithful sent beats) :
    ∃ flows, perFlow sent beats = .ok flows ∧
      (∀ s, flows.getD s [] =
        (beats.filter fun got => got .src = s).map fun got => got .data) ∧
      ∀ s, s ∈ flows ↔ ∃ got ∈ beats, got .src = s := by
  suffices hgen : ∀ start : Dict ℤ (List ℤ), ∃ flows,
      beats.foldlM (fun flows got => do
        let b ← index sent (got .data)
        .ok (flows.append b.src (got .data))) start = .ok flows ∧
      (∀ s, flows.getD s [] = start.getD s [] ++
        (beats.filter fun got => got .src = s).map fun got => got .data) ∧
      ∀ s, s ∈ flows ↔ s ∈ start ∨ ∃ got ∈ beats, got .src = s by
    obtain ⟨flows, hok, hget, hmem⟩ := hgen Dict.empty
    exact ⟨flows, hok, hget, fun s => (hmem s).trans (or_iff_right List.not_mem_nil)⟩
  induction beats with
  | nil =>
      intro start
      exact ⟨start, rfl, fun s => (List.append_nil _).symm, fun s => by simp⟩
  | cons got beats ih =>
      intro start
      obtain ⟨flows, hok, hget, hmem⟩ := ih hf.tail (start.append (got .src) (got .data))
      refine ⟨flows, ?_, fun s => ?_, fun s => ?_⟩
      · rw [List.foldlM_cons, index_eq_ok_iff.mpr (hf got (by simp))]
        exact hok
      · rw [hget, Dict.getD_append, List.append_assoc]
        by_cases hs : s = got .src
        · simp [hs]
        · have hs' : ¬ got .src = s := fun heq => hs heq.symm
          simp [hs, hs']
      · rw [hmem, Dict.append, Dict.mem_set_iff, List.exists_mem_cons_iff, eq_comm (a := s),
          or_assoc, or_left_comm]

/-- What a sink saw from a source. -/
def Harness.seenFrom (h : Harness) (s d : ℤ) : List Fields :=
  (h.seen.getD d []).filter fun got => got .src = s

/-- What a source sent to a sink. -/
def Harness.sentTo (h : Harness) (s d : ℤ) : List Fields :=
  ((h.sent.getD s []).filter fun b => b.dst = d).map Beat.fields

theorem Harness.expected_eq (s d : ℤ) :
    h.expected s d = (h.sentTo s d).map fun got => got .data := by
  rw [Harness.expected, Harness.sentTo, List.map_map]
  rfl

theorem Harness.Marked.filter_allSent (hm : h.Marked) (s : ℤ) :
    (h.allSent.filter fun b => b.src = s) = h.sent.getD s [] := by
  rw [Harness.allSent, ← Dict.map_snd_pairs, List.filter_map, ← Dict.filter_pairs]
  congr 1
  refine List.filter_congr fun p hp => ?_
  have hsrc : p.2.src = p.1 := hm.src_eq p.1 p.2 ((Dict.mem_pairs_iff _ _ _).mp hp)
  simp [hsrc]

/-- A conserved flow has the same beats at both ends. -/
theorem Harness.Marked.seenFrom_perm_sentTo (hm : h.Marked) (hc : h.Conserved) (s d : ℤ) :
    (h.seenFrom s d).Perm (h.sentTo s d) := by
  have hperm := ((hc.filter fun p => p.1 = d).map Prod.snd).filter fun got => got .src = s
  rw [Dict.filter_pairs] at hperm
  refine hperm.trans (List.Perm.of_eq ?_)
  rw [Harness.sentTo, ← hm.filter_allSent, List.filter_map, List.filter_filter,
    List.filter_map, List.map_map, List.filter_filter]
  congr 1
  exact List.filter_congr fun b _ => Bool.and_comm _ _

theorem Harness.Marked.flowsOrdered_iff (hm : h.Marked) (hc : h.Conserved) :
    h.FlowsOrdered ↔ ∀ s d, h.seenFrom s d = h.sentTo s d := by
  refine forall₂_congr fun s d => ?_
  have hperm := hm.seenFrom_perm_sentTo hc s d
  constructor
  · intro hsub
    have hsub' := hsub.filter fun got => got .dst = d
    have hself : ((h.seenFrom s d).filter fun got => got .dst = d) = h.seenFrom s d := by
      refine List.filter_eq_self.mpr fun got hgot => ?_
      obtain ⟨b, hb, rfl⟩ := List.mem_map.mp (hperm.mem_iff.mp hgot)
      exact (List.mem_filter.mp hb).2
    rw [← Harness.seenFrom, hself, List.filter_map] at hsub'
    exact hsub'.eq_of_length hperm.length_eq
  · intro heq
    rw [← Harness.seenFrom, heq]
    exact (List.filter_sublist (l := h.sent.getD s [])).map Beat.fields

/-- At one sink, the flows that were seen are compared with what was sent. -/
theorem Harness.Marked.sinkFlows_iff (hm : h.Marked) (hc : h.Conserved) (d : ℤ) :
    (∃ flows, perFlow h.sentByMarker (h.seen.getD d []) = .ok flows ∧
        ∀ flow ∈ flows.items, flow.2 = h.expected flow.1 d) ↔
      ∀ s, h.seenFrom s d = h.sentTo s d := by
  have hfaithful := hm.faithful_seen hc d
  obtain ⟨flows, hok, hget, hmem⟩ := perFlow_spec hfaithful
  have hflows := flows.forall_items_iff [] (P := fun s markers => markers = h.expected s d)
  simp only [hok, Except.ok.injEq, exists_eq_left']
  rw [hflows]
  simp only [hget, Harness.expected_eq]
  constructor
  · intro hall s
    have hperm := hm.seenFrom_perm_sentTo hc s d
    have hfrom : Faithful h.sentByMarker (h.seenFrom s d) := fun got hgot =>
      hfaithful got (List.mem_filter.mp hgot).1
    have hto : Faithful h.sentByMarker (h.sentTo s d) := fun got hgot =>
      hfrom got (hperm.mem_iff.mpr hgot)
    by_cases hs : s ∈ flows
    · exact hfrom.eq_of_map_data hto (hall s hs)
    · have hnil : h.seenFrom s d = [] := by
        refine List.filter_eq_nil_iff.mpr fun got hgot hsrc => hs ?_
        exact (hmem s).mpr ⟨got, hgot, by simpa using hsrc⟩
      rw [hnil] at hperm ⊢
      exact hperm.nil_eq
  · intro hall s _
    rw [← hall]
    rfl

/-- On a conserved record the flow check passes exactly when flows keep their
order. -/
theorem Harness.Marked.checkFlowOrder_iff (hm : h.Marked) (hc : h.Conserved) :
    checkFlowOrder h = .ok () ↔ h.FlowsOrdered := by
  have hcheck : checkFlowOrder h = .ok () ↔ ∀ p ∈ h.seen.items, ∃ flows,
      perFlow h.sentByMarker p.2 = .ok flows ∧
        ∀ flow ∈ flows.items, flow.2 = h.expected flow.1 p.1 := by
    simp only [checkFlowOrder, forM_eq_ok_iff, bind_eq_ok_iff, assertThat_eq_ok_iff]
  rw [hcheck, hm.flowsOrdered_iff hc, forall_comm, h.seen.forall_items_iff []
    (P := fun d beats => ∃ flows, perFlow h.sentByMarker beats = .ok flows ∧
      ∀ flow ∈ flows.items, flow.2 = h.expected flow.1 d)]
  constructor
  · intro hall d s
    by_cases hd : d ∈ h.seen
    · exact (hm.sinkFlows_iff hc d).mp (hall d hd) s
    · refine (hm.sinkFlows_iff hc d).mp ⟨Dict.empty, ?_, fun _ hflow => ?_⟩ s
      · rw [Dict.getD_of_notMem hd]
        rfl
      · cases hflow
  · intro hall d _
    exact (hm.sinkFlows_iff hc d).mpr fun s => hall d s

/-! ## Contiguous packets -/

theorem foldlM_trackOpen_iff {sent : Dict ℤ Beat} {d : ℤ} {beats : List Fields}
    (hf : Faithful sent beats) (openSrc : Option ℤ) :
    (∃ openSrc', beats.foldlM (trackOpen sent d) openSrc = .ok openSrc') ↔
      (∀ o ∈ openSrc, ∀ got ∈ beats.head?, got .src = o) ∧ beats.IsChain Continues := by
  induction beats generalizing openSrc with
  | nil => simp [pure, Except.pure]
  | cons got beats ih =>
      have hstep : ∀ openSrc', trackOpen sent d openSrc got = .ok openSrc' ↔
          (∀ o ∈ openSrc, got .src = o) ∧
            (if got .last ≠ 0 then none else some (got .src)) = openSrc' := by
        intro openSrc'
        rw [trackOpen, bind_eq_ok_iff]
        simp only [index_eq_ok_iff, hf got List.mem_cons_self, Option.some.injEq,
          exists_eq_left', seq_eq_ok_iff, forM_eq_ok_iff, assertThat_eq_ok_iff,
          Option.mem_toList, Except.ok.injEq]
        rfl
      rw [List.foldlM_cons]
      simp only [bind_eq_ok_iff, hstep]
      rw [List.isChain_cons]
      have hih := ih hf.tail (if got .last ≠ 0 then none else some (got .src))
      constructor
      · rintro ⟨o', o, ⟨hsrc, rfl⟩, hrest⟩
        obtain ⟨hhead, hchain⟩ := hih.mp ⟨o', hrest⟩
        refine ⟨fun o ho got' hgot' => ?_, fun next hnext hlast => ?_, hchain⟩
        · obtain rfl : got = got' := by simpa using hgot'
          exact hsrc o ho
        · exact hhead (got .src) (by simp [hlast]) next hnext
      · rintro ⟨hsrc, hnext, hchain⟩
        have hhead : ∀ o ∈ (if got .last ≠ 0 then none else some (got .src)),
            ∀ next ∈ beats.head?, next .src = o := by
          intro o ho next hn
          by_cases hlast : got .last = 0
          · obtain rfl : got .src = o := by simpa [hlast] using ho
            exact hnext next hn hlast
          · simp [hlast] at ho
        obtain ⟨o', hrest⟩ := hih.mpr ⟨hhead, hchain⟩
        exact ⟨o', _, ⟨fun o ho => hsrc o ho got rfl, rfl⟩, hrest⟩

/-- On a conserved record the packet check passes exactly when packets are
contiguous. -/
theorem Harness.Marked.checkPackets_iff (hm : h.Marked) (hc : h.Conserved) :
    checkPacketsNotInterleaved h = .ok () ↔ h.PacketsContiguous := by
  have hcheck : checkPacketsNotInterleaved h = .ok () ↔ ∀ p ∈ h.seen.items,
      ∃ openSrc, p.2.foldlM (trackOpen h.sentByMarker p.1) none = .ok openSrc := by
    simp only [checkPacketsNotInterleaved, forM_eq_ok_iff, bind_eq_ok_iff, and_true]
  rw [hcheck, h.seen.forall_items_iff [] (P := fun d beats =>
    ∃ openSrc, beats.foldlM (trackOpen h.sentByMarker d) none = .ok openSrc)]
  constructor
  · intro hall d
    by_cases hd : d ∈ h.seen
    · exact ((foldlM_trackOpen_iff (hm.faithful_seen hc d) none).mp (hall d hd)).2
    · rw [Dict.getD_of_notMem hd]
      exact List.isChain_nil
  · intro hall d _
    exact (foldlM_trackOpen_iff (hm.faithful_seen hc d) none).mpr
      ⟨fun o ho => (Option.not_mem_none o ho).elim, hall d⟩

/-- The scoreboard decides the contract of the crossbar. -/
theorem scoreboard_decides_contract (h : Harness) (hm : h.Marked) :
    (checkConservation h = .ok () ∧ checkFlowOrder h = .ok () ∧
        checkPacketsNotInterleaved h = .ok ()) ↔
      h.Conserved ∧ h.FlowsOrdered ∧ h.PacketsContiguous := by
  rw [hm.checkConservation_iff]
  refine and_congr_right fun hc => ?_
  rw [hm.checkFlowOrder_iff hc, hm.checkPackets_iff hc]

/-- Two sources, a beat each, seen at sink zero in the other order. -/
def swappedPair : Harness where
  seen := ⟨[(0, [(Beat.make 1 0 7 2 1 0 reqWrite).fields,
    (Beat.make 0 0 7 1 1 0 reqRead).fields])], by decide⟩
  sent := ⟨[(0, [.make 0 0 7 1 1 0 reqRead]), (1, [.make 1 0 7 2 1 0 reqWrite])], by decide⟩

theorem marked_swappedPair : swappedPair.Marked where
  nodup_markers := by decide
  src_eq := by
    have hpairs : ∀ p ∈ swappedPair.sent.pairs, p.2.src = p.1 := by decide
    exact fun s b hb => hpairs (s, b) ((Dict.mem_pairs_iff _ s b).mpr hb)

theorem scoreboard_decides_contract_swappedPair :
    swappedPair.Conserved ∧ swappedPair.FlowsOrdered ∧ swappedPair.PacketsContiguous :=
  (scoreboard_decides_contract swappedPair marked_swappedPair).mp ⟨rfl, rfl, rfl⟩

end ReqXbar
