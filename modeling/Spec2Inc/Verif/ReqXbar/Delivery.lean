import Spec2Inc.Verif.ReqXbar.Scoreboard

/-!
# What a correct crossbar delivers

`Delivers` is the contract seen from outside: each accepted word arrives once,
bit for bit, at the sink its `dst` field names, flows keep their order and
packets are contiguous. The testbench runs its sources over
`range(N_PORTS + 2)` while the `src` field holds `ID_W` bits, so the scoreboard
accepts every such delivery exactly when the fields of every accepted beat fit
the word.
-/

open Python Spec2incPkg

namespace ReqXbar

/-- `range(N_SRC)`: the ports, and the two engines after them. -/
def srcs (nPorts : ℕ) : List ℤ := (List.range (nPorts + 2)).map Int.ofNat

/-- `range(N_PORTS)`. -/
def dsts (nPorts : ℕ) : List ℤ := (List.range nPorts).map Int.ofNat

/-- A delivery that keeps the contract, from the beats accepted of each source
to the words seen at each sink, each with the source it came from. -/
structure Delivers (sent : Dict ℤ (List Beat)) (out : Dict ℤ (List (ℤ × ℕ))) : Prop where
  once : out.pairs.Perm
    (sent.pairs.map fun p => (unpack p.2.word .dst, p.1, p.2.word))
  ordered : ∀ s d, ((out.getD d []).filter fun x => x.1 = s).Sublist
    ((sent.getD s []).map fun b => (s, b.word))
  contiguous : ∀ d, (out.getD d []).IsChain fun x y => unpack x.2 .last = 0 → y.1 = x.1

/-- The record of the run: the sent beats, and the unpacked words. -/
def record (sent : Dict ℤ (List Beat)) (out : Dict ℤ (List (ℤ × ℕ))) : Harness where
  seen := out.mapValues fun _ l => l.map fun x => unpack x.2
  sent := sent

/-- The first beats of every queue: those the crossbar has accepted. -/
def AcceptedFrom (queues sent : Dict ℤ (List Beat)) : Prop :=
  ∀ s, sent.getD s [] <+: queues.getD s []

theorem pairs_seen_record (sent : Dict ℤ (List Beat)) (out : Dict ℤ (List (ℤ × ℕ))) :
    (record sent out).seen.pairs = out.pairs.map fun p => (p.1, unpack p.2.2) :=
  Dict.pairs_mapValues_map out fun x => unpack x.2

theorem getD_seen_record (sent : Dict ℤ (List Beat)) (out : Dict ℤ (List (ℤ × ℕ))) (d : ℤ) :
    (record sent out).seen.getD d [] = (out.getD d []).map fun x => unpack x.2 :=
  Dict.getD_mapValues_map out (fun x => unpack x.2) d

theorem allSent_record (sent : Dict ℤ (List Beat)) (out : Dict ℤ (List (ℤ × ℕ))) :
    (record sent out).allSent = sent.pairs.map Prod.snd :=
  (Dict.map_snd_pairs sent).symm

/-! ## Generated beats -/

variable {nPorts maxBeats marker : ℕ} {queues sent : Dict ℤ (List Beat)}
  {out : Dict ℤ (List (ℤ × ℕ))}

theorem Generated.marker_lt {srcs dsts : List ℤ}
    (hg : Generated srcs dsts maxBeats ⟨queues, marker⟩)
    (hbeats : queues.values.flatten.length < 2 ^ dataW) {s : ℤ} {b : Beat}
    (hb : b ∈ queues.getD s []) : 0 ≤ b.marker ∧ b.marker < 2 ^ dataW := by
  have hlen := hg.markers.length_eq
  rw [List.length_map, List.length_map, List.length_range'] at hlen
  have hmem : b ∈ queues.values.flatten := by
    rw [← Dict.map_snd_pairs]
    exact List.mem_map_of_mem ((Dict.mem_pairs_iff _ s b).mpr hb)
  obtain ⟨m, hm, hmb⟩ := List.mem_map.mp (hg.markers.mem_iff.mp (List.mem_map_of_mem hmem))
  have hlt : m < 2 ^ dataW := by
    have hm' := (List.mem_range'_1.mp hm).2
    simp only at hlen hm'
    omega
  have hlt' : (m : ℤ) < 2 ^ dataW := by exact_mod_cast hlt
  rw [← hmb]
  exact ⟨Int.natCast_nonneg _, hlt'⟩

/-- A generated beat fits its word exactly when its source and its position do:
every other field is always within its width. -/
theorem Generated.fits_iff (hmax : nPorts ≤ maxPorts)
    (hg : Generated (srcs nPorts) (dsts nPorts) maxBeats ⟨queues, marker⟩)
    (hbeats : queues.values.flatten.length < 2 ^ dataW) {s : ℤ} {b : Beat}
    (hb : b ∈ queues.getD s []) :
    Fits b.fields ↔ s < 2 ^ idW ∧ b.fields .addr < 2 ^ addrW := by
  have hwf := hg.wellFormed s b hb
  have hsrc : b.fields .src = s := hg.src_eq s b hb
  constructor
  · intro hfits
    exact ⟨hsrc ▸ (hfits .src).2, (hfits .addr).2⟩
  · rintro ⟨hs, haddr⟩ f
    cases f with
    | op =>
        have hops : ∀ op ∈ ops, 0 ≤ op ∧ op < 2 ^ opW := by decide
        exact hops _ hwf.op
    | src =>
        obtain ⟨n, -, hn⟩ := List.mem_map.mp hwf.src
        exact ⟨hn ▸ Int.natCast_nonneg n, hsrc.symm ▸ hs⟩
    | dst =>
        obtain ⟨n, hn, hdst⟩ := List.mem_map.mp hwf.dst
        have hlt : n < 2 ^ idW := (List.mem_range.mp hn).trans_le hmax
        have hlt' : (n : ℤ) < 2 ^ idW := by exact_mod_cast hlt
        rw [← hdst]
        exact ⟨Int.natCast_nonneg n, hlt'⟩
    | tag => exact hwf.tag
    | addr => exact ⟨hwf.addr.1, haddr⟩
    | len =>
        rw [hwf.len]
        decide
    | data => exact hg.marker_lt hbeats hb
    | last =>
        have hlast : ∀ l : ℤ, l = 0 ∨ l = 1 → 0 ≤ l ∧ l < 2 ^ Field.last.width := by
          rintro l (rfl | rfl) <;> decide
        exact hlast _ hwf.last

theorem marked_record (hg : Generated (srcs nPorts) (dsts nPorts) maxBeats ⟨queues, marker⟩)
    (hsent : AcceptedFrom queues sent) : (record sent out).Marked where
  nodup_markers := by
    obtain ⟨l, hl, hsub⟩ := Dict.subperm_pairs fun k => (hsent k).sublist
    have hqueues : (queues.values.flatten.map Beat.marker).Nodup := by
      rw [hg.markers.nodup_iff]
      exact (List.nodup_range').map fun _ _ => Int.ofNat.inj
    rw [← Dict.map_snd_pairs] at hqueues
    rw [allSent_record, ← ((hl.map Prod.snd).map Beat.marker).nodup_iff]
    exact hqueues.sublist ((hsub.map Prod.snd).map Beat.marker)
  src_eq s b hb := hg.src_eq s b ((hsent s).subset hb)

/-! ## When the scoreboard accepts -/

/-- The accepted beats fit, if what arrived is what was sent. -/
theorem fits_of_conserved (hc : (record sent out).Conserved) {s : ℤ} {b : Beat}
    (hb : b ∈ sent.getD s []) : Fits b.fields := by
  have hmem : (b.dst, b.fields) ∈ (record sent out).allSent.map fun b => (b.dst, b.fields) := by
    rw [allSent_record]
    exact List.mem_map_of_mem (List.mem_map_of_mem ((Dict.mem_pairs_iff _ s b).mpr hb))
  have hseen := hc.mem_iff.mpr hmem
  rw [pairs_seen_record] at hseen
  obtain ⟨p, -, hp⟩ := List.mem_map.mp hseen
  rw [← (Prod.mk.inj hp).2]
  exact fits_unpack _

variable (hfits : ∀ s, ∀ b ∈ sent.getD s [], Fits b.fields)
include hfits

theorem unpack_word_of_fits {p : ℤ × Beat} (hp : p ∈ sent.pairs) :
    unpack p.2.word = p.2.fields :=
  (unpack_pack_eq_iff _).mpr (hfits p.1 p.2 ((Dict.mem_pairs_iff _ _ _).mp hp))

theorem Delivers.conserved (hout : Delivers sent out) : (record sent out).Conserved := by
  have hperm := hout.once.map fun p => (p.1, unpack p.2.2)
  rw [Harness.Conserved, pairs_seen_record, allSent_record, List.map_map]
  rw [List.map_map] at hperm
  refine hperm.trans (List.Perm.of_eq (List.map_congr_left fun p hp => ?_))
  simp only [Function.comp_apply, unpack_word_of_fits hfits hp]
  rfl

/-- A delivered word carries the index of the source it came from. -/
theorem Delivers.src_eq (hout : Delivers sent out)
    (hsrc : ∀ s, ∀ b ∈ sent.getD s [], b.src = s) {d : ℤ} {x : ℤ × ℕ}
    (hx : x ∈ out.getD d []) : unpack x.2 .src = x.1 := by
  have hmem := hout.once.mem_iff.mp ((Dict.mem_pairs_iff _ d x).mpr hx)
  obtain ⟨p, hp, heq⟩ := List.mem_map.mp hmem
  obtain ⟨-, rfl⟩ := Prod.mk.inj heq
  rw [unpack_word_of_fits hfits hp]
  exact hsrc p.1 p.2 ((Dict.mem_pairs_iff _ _ _).mp hp)

theorem Delivers.flowsOrdered (hout : Delivers sent out)
    (hsrc : ∀ s, ∀ b ∈ sent.getD s [], b.src = s) : (record sent out).FlowsOrdered := by
  intro s d
  have hsub := (hout.ordered s d).map fun x => unpack x.2
  rw [List.map_map] at hsub
  have hsent : (sent.getD s []).map ((fun x => unpack x.2) ∘ fun b => (s, b.word)) =
      (sent.getD s []).map Beat.fields :=
    List.map_congr_left fun b hb =>
      unpack_word_of_fits (p := (s, b)) hfits ((Dict.mem_pairs_iff _ s b).mpr hb)
  have hseen : ((out.getD d []).filter fun x => x.1 = s).map (fun x => unpack x.2) =
      ((record sent out).seen.getD d []).filter fun got => got .src = s := by
    rw [getD_seen_record, List.filter_map]
    congr 1
    refine List.filter_congr fun x hx => ?_
    simp only [Function.comp_apply, hout.src_eq hfits hsrc hx]
  rwa [hsent, hseen] at hsub

theorem Delivers.packetsContiguous (hout : Delivers sent out)
    (hsrc : ∀ s, ∀ b ∈ sent.getD s [], b.src = s) :
    (record sent out).PacketsContiguous := by
  intro d
  rw [getD_seen_record, List.isChain_map]
  refine (hout.contiguous d).imp_of_mem_imp fun x y hx hy hxy hlast => ?_
  rw [hout.src_eq hfits hsrc hx, hout.src_eq hfits hsrc hy]
  exact hxy hlast

omit hfits

/-- The testbench accepts a correct crossbar's delivery exactly when the source
index and the position of every accepted beat fit the word; and a generated
beat survives packing under the same condition. -/
theorem testbench_accepts_iff (nPorts : ℕ) (hmax : nPorts ≤ maxPorts) (rng : ℕ → Draws)
    (nPackets maxBeats : ℕ) (queues sent : Dict ℤ (List Beat))
    (out : Dict ℤ (List (ℤ × ℕ)))
    (hqueues : makePackets rng nPackets (srcs nPorts) (dsts nPorts) maxBeats = .ok queues)
    (hbeats : queues.values.flatten.length < 2 ^ dataW)
    (hsent : AcceptedFrom queues sent) (hout : Delivers sent out) :
    ((checkConservation (record sent out) = .ok () ∧
        checkFlowOrder (record sent out) = .ok () ∧
        checkPacketsNotInterleaved (record sent out) = .ok ()) ↔
      ∀ s, ∀ b ∈ sent.getD s [], s < 2 ^ idW ∧ b.fields .addr < 2 ^ addrW) ∧
    ∀ s, ∀ b ∈ queues.getD s [],
      unpack b.word = b.fields ↔ s < 2 ^ idW ∧ b.fields .addr < 2 ^ addrW := by
  obtain ⟨marker, hg⟩ := exists_generated_of_makePackets hqueues
  have hm : (record sent out).Marked := marked_record hg hsent
  constructor
  · rw [hm.checkConservation_iff]
    constructor
    · rintro ⟨hc, -⟩ s b hb
      exact (hg.fits_iff hmax hbeats ((hsent s).subset hb)).mp (fits_of_conserved hc hb)
    · intro hall
      have hfits : ∀ s, ∀ b ∈ sent.getD s [], Fits b.fields := fun s b hb =>
        (hg.fits_iff hmax hbeats ((hsent s).subset hb)).mpr (hall s b hb)
      have hc := hout.conserved hfits
      exact ⟨hc, (hm.checkFlowOrder_iff hc).mpr (hout.flowsOrdered hfits hm.src_eq),
        (hm.checkPackets_iff hc).mpr (hout.packetsContiguous hfits hm.src_eq)⟩
  · intro s b hb
    exact (unpack_pack_eq_iff _).trans (hg.fits_iff hmax hbeats hb)

/-! Two packets from port 1 and one from the primitive engine, with two ports. The
last beat of port 1 has not been accepted, and the packet of the engine is served
first. -/

def mixedDraws : ℕ → Draws
  | 0 => ⟨1, 0, 7, 1, 1⟩
  | 1 => ⟨2, 0, 8, 0, 2⟩
  | _ => ⟨1, 1, 9, 0, 0⟩

def portPacket : List Beat := [.make 1 0 7 1 0 0 reqWrite, .make 1 0 7 2 1 1 reqWrite]

def enginePacket : List Beat :=
  [.make 2 0 8 3 0 0 reqRead, .make 2 0 8 4 0 1 reqRead, .make 2 0 8 5 1 2 reqRead]

def mixedQueues : Dict ℤ (List Beat) :=
  ⟨[(1, portPacket ++ [.make 1 1 9 6 1 0 reqRead]), (2, enginePacket)], by decide⟩

def mixedSent : Dict ℤ (List Beat) := ⟨[(1, portPacket), (2, enginePacket)], by decide⟩

def mixedOut : Dict ℤ (List (ℤ × ℕ)) :=
  ⟨[(0, enginePacket.map (fun b => (2, b.word)) ++ portPacket.map fun b => (1, b.word))],
    by decide⟩

/-- Order and contiguity need to be checked for what was delivered only. -/
theorem delivers_of_pairs (honce : out.pairs.Perm
      (sent.pairs.map fun p => (unpack p.2.word .dst, p.1, p.2.word)))
    (hordered : ∀ p ∈ out.pairs, ((out.getD p.1 []).filter fun x => x.1 = p.2.1).Sublist
      ((sent.getD p.2.1 []).map fun b => (p.2.1, b.word)))
    (hcontiguous : ∀ d ∈ out.keys,
      (out.getD d []).IsChain fun x y => unpack x.2 .last = 0 → y.1 = x.1) :
    Delivers sent out where
  once := honce
  ordered s d := by
    cases hseen : (out.getD d []).filter fun x => x.1 = s with
    | nil => exact List.nil_sublist _
    | cons x l =>
        obtain ⟨hx, hs⟩ := List.mem_filter.mp (hseen ▸ List.mem_cons_self)
        obtain rfl : x.1 = s := by simpa using hs
        rw [← hseen]
        exact hordered (d, x) ((Dict.mem_pairs_iff out d x).mpr hx)
  contiguous d := by
    by_cases hd : d ∈ out
    · exact hcontiguous d hd
    · rw [Dict.getD_of_notMem hd]
      exact List.isChain_nil

theorem testbench_accepts_iff_mixed :
    checkConservation (record mixedSent mixedOut) = .ok () ∧
      checkFlowOrder (record mixedSent mixedOut) = .ok () ∧
      checkPacketsNotInterleaved (record mixedSent mixedOut) = .ok () ∧
      ∀ s, ∀ b ∈ mixedQueues.getD s [], unpack b.word = b.fields := by
  have hqueues : makePackets mixedDraws 3 (srcs 2) (dsts 2) 3 = .ok mixedQueues := rfl
  have hsent : AcceptedFrom mixedQueues mixedSent := by
    intro s
    by_cases hs : s ∈ mixedSent
    · obtain rfl | rfl : s = 1 ∨ s = 2 := by
        simpa [Dict.mem_iff, Dict.keys, mixedSent] using hs
      · exact List.prefix_append portPacket _
      · exact List.prefix_rfl
    · rw [Dict.getD_of_notMem hs]
      exact List.nil_prefix
  have hout : Delivers mixedSent mixedOut :=
    delivers_of_pairs (by decide +kernel) (by decide +kernel) (by decide +kernel)
  have hfit : ∀ p ∈ mixedQueues.pairs, p.1 < 2 ^ idW ∧ p.2.fields .addr < 2 ^ addrW := by
    decide +kernel
  obtain ⟨haccepts, hsurvives⟩ := testbench_accepts_iff 2 (by decide) mixedDraws 3 3 mixedQueues
    mixedSent mixedOut hqueues (by decide +kernel) hsent hout
  have hfit' : ∀ s, ∀ b ∈ mixedQueues.getD s [], s < 2 ^ idW ∧ b.fields .addr < 2 ^ addrW :=
    fun s b hb => hfit (s, b) ((Dict.mem_pairs_iff mixedQueues s b).mpr hb)
  obtain ⟨hconserved, hordered, hcontiguous⟩ :=
    haccepts.mpr fun s b hb => hfit' s b ((hsent s).subset hb)
  exact ⟨hconserved, hordered, hcontiguous, fun s b hb => (hsurvives s b hb).mpr (hfit' s b hb)⟩

/-! One packet of one beat, from source `src` to sink zero. -/

def loneBeat (src : ℤ) : Beat := .make src 0 0 1 1 0 reqRead

def loneQueue (src : ℤ) : Dict ℤ (List Beat) := ⟨[(src, [loneBeat src])], by simp⟩

def loneOut (src : ℤ) : Dict ℤ (List (ℤ × ℕ)) :=
  ⟨[(0, [(src, (loneBeat src).word)])], by simp⟩

/-- With 64 ports the primitive engine is source 64, which the six bits of `src`
cannot hold: a delivery that keeps the contract is rejected. -/
theorem testbench_rejects_engine_source :
    makePackets (fun _ => ⟨64, 0, 0, 0, 0⟩) 1 (srcs 64) (dsts 64) 3 = .ok (loneQueue 64) ∧
      AcceptedFrom (loneQueue 64) (loneQueue 64) ∧
      Delivers (loneQueue 64) (loneOut 64) ∧
      unpack (loneBeat 64).word ≠ (loneBeat 64).fields ∧
      checkConservation (record (loneQueue 64) (loneOut 64)) =
        .error (.assertionError ("Beat(src=64 dst=0 tag=0 op=0 marker=0x1 last=1): " ++
          "field 'src' changed in flight -- got 0, sent 64")) := by
  refine ⟨rfl, fun _ => List.prefix_rfl, ?_, ?_, ?_⟩
  · exact delivers_of_pairs (by decide +kernel) (by decide +kernel) (by decide +kernel)
  · rw [Ne, Beat.word, unpack_pack_eq_iff]
    exact fun hfits => absurd (hfits .src).2 (by decide)
  · rfl

end ReqXbar
