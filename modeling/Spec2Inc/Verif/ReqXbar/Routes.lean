import Spec2Inc.Verif.ReqXbar.Trace

/-!
# The contract of `req_xbar` on its buses

`Routes` is what the specification asks of a crossbar, said of the words on its
two buses. A harness whose ledgers are those words satisfies the three checks of
the scoreboard exactly when the words do (`Records.contract_iff`), as long as all
fields fit. Without that no delivery conserves the fields.
-/

open Python Spec2incPkg

namespace ReqXbar

/-- Each word accepted at a source is delivered once, bit for bit, at the sink
that its `dst` names. The words of a flow stay in order, and packets are
contiguous at each sink. -/
structure Routes (nPorts : ℕ) (accepted delivered : ℕ → List ℕ) : Prop where
  once : ((List.range nPorts).flatMap fun d => (delivered d).map fun w => ((d : ℤ), w)).Perm
    ((List.range (nPorts + 2)).flatMap fun s => (accepted s).map fun w => (unpack w .dst, w))
  ordered : ∀ s < nPorts + 2, ∀ d < nPorts,
    ((delivered d).filter fun w => unpack w .src = s).Sublist (accepted s)
  contiguous : ∀ d < nPorts, (delivered d).IsChain fun x y => Continues (unpack x) (unpack y)

/-- The harness holds what was on the buses. -/
structure Records (nPorts : ℕ) (h : Harness) (accepted delivered : ℕ → List ℕ)
    (sent : ℕ → List Beat) : Prop where
  getD_seen : ∀ d : ℤ, h.seen.getD d [] =
    if d ∈ dsts nPorts then (delivered d.toNat).map unpack else []
  getD_sent : ∀ s : ℤ, h.sent.getD s [] = if s ∈ srcs nPorts then sent s.toNat else []
  map_word : ∀ s < nPorts + 2, (sent s).map Beat.word = accepted s
  src_eq : ∀ s < nPorts + 2, ∀ b ∈ sent s, b.src = s
  accepted_lt : ∀ s, ∀ w ∈ accepted s, w < 2 ^ reqW
  delivered_lt : ∀ d, ∀ w ∈ delivered d, w < 2 ^ reqW

theorem pack_unpack_of_lt {w : ℕ} (h : w < 2 ^ reqW) : pack (unpack w) = w := by
  rw [pack_unpack, Nat.mod_eq_of_lt h]

theorem map_map_of_forall_eq {α β : Type*} {f : α → β} {g : β → α} {l : List α}
    (h : ∀ x ∈ l, g (f x) = x) : (l.map f).map g = l := by
  induction l with
  | nil => rfl
  | cons x l ih =>
      rw [List.map_cons, List.map_cons, h x List.mem_cons_self,
        ih fun y hy => h y (List.mem_cons_of_mem x hy)]

theorem perm_map_iff_of_forall_eq {α β : Type*} {f : α → β} {g : β → α} {l l' : List α}
    (h : ∀ x ∈ l, g (f x) = x) (h' : ∀ x ∈ l', g (f x) = x) :
    (l.map f).Perm (l'.map f) ↔ l.Perm l' := by
  refine ⟨fun hperm => ?_, fun hperm => hperm.map f⟩
  have hback := hperm.map g
  rwa [map_map_of_forall_eq h, map_map_of_forall_eq h'] at hback

theorem sublist_map_iff_of_forall_eq {α β : Type*} {f : α → β} {g : β → α} {l l' : List α}
    (h : ∀ x ∈ l, g (f x) = x) (h' : ∀ x ∈ l', g (f x) = x) :
    (l.map f).Sublist (l'.map f) ↔ l.Sublist l' := by
  refine ⟨fun hsub => ?_, fun hsub => hsub.map f⟩
  have hback := hsub.map g
  rwa [map_map_of_forall_eq h, map_map_of_forall_eq h'] at hback

theorem nodup_ofNat (n : ℕ) : ((List.range n).map Int.ofNat).Nodup :=
  List.nodup_range.map fun _ _ => Int.ofNat.inj

theorem ofNat_mem_iff {n k : ℕ} : (k : ℤ) ∈ (List.range n).map Int.ofNat ↔ k < n := by
  rw [List.mem_map]
  constructor
  · rintro ⟨m, hm, heq⟩
    obtain rfl : m = k := Int.ofNat.inj heq
    exact List.mem_range.mp hm
  · intro hk
    exact ⟨k, List.mem_range.mpr hk, rfl⟩

/-- The words on the way into the sinks, each with its sink. -/
def deliveries (nPorts : ℕ) (delivered : ℕ → List ℕ) : List (ℤ × ℕ) :=
  (List.range nPorts).flatMap fun d => (delivered d).map fun w => ((d : ℤ), w)

theorem length_deliveries (nPorts : ℕ) (delivered : ℕ → List ℕ) :
    (deliveries nPorts delivered).length =
      ((List.range nPorts).map fun d => (delivered d).length).sum := by
  simp only [deliveries, List.length_flatMap, List.length_map]

/-- The words taken from the sources, each with the sink it names. -/
def orders (nPorts : ℕ) (accepted : ℕ → List ℕ) : List (ℤ × ℕ) :=
  (List.range (nPorts + 2)).flatMap fun s => (accepted s).map fun w => (unpack w .dst, w)

namespace Records

variable {nPorts : ℕ} {h : Harness} {accepted delivered : ℕ → List ℕ} {sent : ℕ → List Beat}
  (hrec : Records nPorts h accepted delivered sent)
include hrec

theorem getD_seen_of_lt {d : ℕ} (hd : d < nPorts) :
    h.seen.getD (d : ℤ) [] = (delivered d).map unpack := by
  rw [hrec.getD_seen]
  exact if_pos (ofNat_mem_iff.mpr hd)

theorem getD_sent_of_lt {s : ℕ} (hs : s < nPorts + 2) : h.sent.getD (s : ℤ) [] = sent s := by
  rw [hrec.getD_sent]
  exact if_pos (ofNat_mem_iff.mpr hs)

theorem pairs_seen :
    h.seen.pairs.Perm ((deliveries nPorts delivered).map fun p => (p.1, unpack p.2)) := by
  refine (Dict.pairs_perm_of_getD (nodup_ofNat nPorts) hrec.getD_seen).trans
    (List.Perm.of_eq ?_)
  rw [List.flatMap_map, deliveries, List.map_flatMap]
  refine List.flatMap_congr fun d _ => ?_
  rw [List.map_map, List.map_map]
  rfl

theorem allSent :
    h.allSent.Perm ((List.range (nPorts + 2)).flatMap sent) := by
  have hperm := (Dict.pairs_perm_of_getD (nodup_ofNat (nPorts + 2)) hrec.getD_sent).map Prod.snd
  rw [Dict.map_snd_pairs, List.flatMap_map, List.map_flatMap] at hperm
  refine hperm.trans (List.Perm.of_eq (List.flatMap_congr fun s _ => ?_))
  rw [List.map_map]
  exact List.map_id (sent s)

theorem mem_allSent {b : Beat} : b ∈ h.allSent ↔ ∃ s < nPorts + 2, b ∈ sent s := by
  rw [hrec.allSent.mem_iff, List.mem_flatMap]
  refine exists_congr fun s => and_congr_left fun _ => List.mem_range

/-- What arrives has fields that fit, so what was sent must. -/
theorem fits_of_conserved (hc : h.Conserved) :
    ∀ s < nPorts + 2, ∀ b ∈ sent s, Fits b.fields := by
  intro s hs b hb
  have hmem : (b.dst, b.fields) ∈ h.allSent.map fun b => (b.dst, b.fields) :=
    List.mem_map_of_mem (hrec.mem_allSent.mpr ⟨s, hs, hb⟩)
  obtain ⟨p, -, hp⟩ := List.mem_map.mp (hrec.pairs_seen.mem_iff.mp (hc.mem_iff.mpr hmem))
  rw [← (Prod.mk.inj hp).2]
  exact fits_unpack _

section Fits

variable (hfits : ∀ s < nPorts + 2, ∀ b ∈ sent s, Fits b.fields)
include hfits

theorem map_fields {s : ℕ} (hs : s < nPorts + 2) :
    (sent s).map Beat.fields = (accepted s).map unpack := by
  rw [← hrec.map_word s hs, List.map_map]
  refine List.map_congr_left fun b hb => ?_
  exact ((unpack_pack_eq_iff _).mpr (hfits s hs b hb)).symm

theorem src_of_mem {s w : ℕ} (hs : s < nPorts + 2) (hw : w ∈ accepted s) :
    unpack w .src = s := by
  rw [← hrec.map_word s hs] at hw
  obtain ⟨b, hb, rfl⟩ := List.mem_map.mp hw
  rw [Beat.word, (unpack_pack_eq_iff _).mpr (hfits s hs b hb)]
  exact hrec.src_eq s hs b hb

theorem map_allSent :
    (h.allSent.map fun b => (b.dst, b.fields)).Perm
      ((orders nPorts accepted).map fun p => (p.1, unpack p.2)) := by
  refine (hrec.allSent.map _).trans (List.Perm.of_eq ?_)
  rw [orders, List.map_flatMap, List.map_flatMap]
  refine List.flatMap_congr fun s hs => ?_
  have hs := List.mem_range.mp hs
  rw [← hrec.map_word s hs, List.map_map, List.map_map]
  refine List.map_congr_left fun b hb => ?_
  have hword : unpack b.word = b.fields := (unpack_pack_eq_iff _).mpr (hfits s hs b hb)
  simp only [Function.comp_apply, hword]
  rfl

theorem conserved_iff :
    h.Conserved ↔ (deliveries nPorts delivered).Perm (orders nPorts accepted) := by
  have hback : ∀ p : ℤ × ℕ, p.2 < 2 ^ reqW → (p.1, pack (unpack p.2)) = p := fun p hp => by
    rw [pack_unpack_of_lt hp]
  rw [Harness.Conserved]
  refine Iff.trans ⟨fun hc => ?_, fun hc => ?_⟩ (perm_map_iff_of_forall_eq
    (f := fun p : ℤ × ℕ => (p.1, unpack p.2)) (g := fun p => (p.1, pack p.2))
    (fun p hp => hback p ?_) fun p hp => hback p ?_)
  · exact hrec.pairs_seen.symm.trans (hc.trans (hrec.map_allSent hfits))
  · exact hrec.pairs_seen.trans (hc.trans (hrec.map_allSent hfits).symm)
  · obtain ⟨d, -, hp⟩ := List.mem_flatMap.mp hp
    obtain ⟨w, hw, rfl⟩ := List.mem_map.mp hp
    exact hrec.delivered_lt d w hw
  · obtain ⟨s, -, hp⟩ := List.mem_flatMap.mp hp
    obtain ⟨w, hw, rfl⟩ := List.mem_map.mp hp
    exact hrec.accepted_lt s w hw

/-- A word delivered is one accepted from the source it names. -/
theorem exists_source_of_mem (hc : (deliveries nPorts delivered).Perm (orders nPorts accepted))
    {d w : ℕ} (hd : d < nPorts) (hw : w ∈ delivered d) :
    ∃ s < nPorts + 2, unpack w .src = s := by
  have hmem : ((d : ℤ), w) ∈ deliveries nPorts delivered :=
    List.mem_flatMap.mpr ⟨d, List.mem_range.mpr hd, List.mem_map_of_mem hw⟩
  obtain ⟨s, hs, hp⟩ := List.mem_flatMap.mp (hc.mem_iff.mp hmem)
  obtain ⟨w', hw', heq⟩ := List.mem_map.mp hp
  obtain ⟨-, rfl⟩ := Prod.mk.inj heq
  exact ⟨s, List.mem_range.mp hs, hrec.src_of_mem hfits (List.mem_range.mp hs) hw'⟩

theorem flowsOrdered_iff (hc : (deliveries nPorts delivered).Perm (orders nPorts accepted)) :
    h.FlowsOrdered ↔ ∀ s < nPorts + 2, ∀ d < nPorts,
      ((delivered d).filter fun w => unpack w .src = s).Sublist (accepted s) := by
  have hflow : ∀ s < nPorts + 2, ∀ d < nPorts,
      (((h.seen.getD (d : ℤ) []).filter fun got => got .src = (s : ℤ)).Sublist
        ((h.sent.getD (s : ℤ) []).map Beat.fields) ↔
          ((delivered d).filter fun w => unpack w .src = s).Sublist (accepted s)) := by
    intro s hs d hd
    rw [hrec.getD_seen_of_lt hd, hrec.getD_sent_of_lt hs, hrec.map_fields hfits hs,
      List.filter_map]
    refine sublist_map_iff_of_forall_eq (g := pack) (fun w hw => ?_) fun w hw => ?_
    · exact pack_unpack_of_lt (hrec.delivered_lt d w (List.mem_filter.mp hw).1)
    · exact pack_unpack_of_lt (hrec.accepted_lt s w hw)
  constructor
  · intro hord s hs d hd
    exact (hflow s hs d hd).mp (hord s d)
  · intro hord s d
    by_cases hmem : d ∈ dsts nPorts
    · obtain ⟨d, hd, rfl⟩ := List.mem_map.mp hmem
      rw [List.mem_range] at hd
      by_cases hmem' : s ∈ srcs nPorts
      · obtain ⟨s, hs, rfl⟩ := List.mem_map.mp hmem'
        rw [List.mem_range] at hs
        exact (hflow s hs d hd).mpr (hord s hs d hd)
      · -- No word names this source.
        have hnone : ((h.seen.getD (Int.ofNat d) []).filter fun got => got .src = s) = [] := by
          rw [List.filter_eq_nil_iff]
          intro got hgot hsrc
          rw [Int.ofNat_eq_natCast, hrec.getD_seen_of_lt hd] at hgot
          obtain ⟨w, hw, rfl⟩ := List.mem_map.mp hgot
          obtain ⟨s', hs', hsrc'⟩ := hrec.exists_source_of_mem hfits hc hd hw
          rw [decide_eq_true_eq, hsrc'] at hsrc
          exact hmem' (hsrc ▸ ofNat_mem_iff.mpr hs')
        rw [hnone]
        exact List.nil_sublist _
    · rw [hrec.getD_seen, if_neg hmem]
      exact List.nil_sublist _

end Fits

theorem packetsContiguous_iff :
    h.PacketsContiguous ↔
      ∀ d < nPorts, (delivered d).IsChain fun x y => Continues (unpack x) (unpack y) := by
  constructor
  · intro hcontiguous d hd
    have hchain := hcontiguous d
    rwa [hrec.getD_seen_of_lt hd, List.isChain_map] at hchain
  · intro hchain d
    by_cases hmem : d ∈ dsts nPorts
    · obtain ⟨d, hd, rfl⟩ := List.mem_map.mp hmem
      rw [List.mem_range] at hd
      rw [Int.ofNat_eq_natCast, hrec.getD_seen_of_lt hd, List.isChain_map]
      exact hchain d hd
    · rw [hrec.getD_seen, if_neg hmem]
      exact List.isChain_nil

/-- The harness satisfies the contract of the scoreboard exactly when all fields
fit and the buses satisfy that of the crossbar. -/
theorem contract_iff :
    (h.Conserved ∧ h.FlowsOrdered ∧ h.PacketsContiguous) ↔
      (∀ s < nPorts + 2, ∀ b ∈ sent s, Fits b.fields) ∧ Routes nPorts accepted delivered := by
  constructor
  · rintro ⟨hc, hordered, hcontiguous⟩
    have hfits := hrec.fits_of_conserved hc
    have honce := (hrec.conserved_iff hfits).mp hc
    exact ⟨hfits, honce, (hrec.flowsOrdered_iff hfits honce).mp hordered,
      hrec.packetsContiguous_iff.mp hcontiguous⟩
  · rintro ⟨hfits, hroutes⟩
    exact ⟨(hrec.conserved_iff hfits).mpr hroutes.once,
      (hrec.flowsOrdered_iff hfits hroutes.once).mpr hroutes.ordered,
      hrec.packetsContiguous_iff.mpr hroutes.contiguous⟩

end Records

end ReqXbar
