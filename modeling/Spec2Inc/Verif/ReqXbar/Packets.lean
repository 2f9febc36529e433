import Mathlib.Data.List.Flatten
import Spec2Inc.Verif.ReqXbar.Traffic

/-!
# The packets of generated traffic

`make_packets` draws one packet after another and appends its beats to the queue
of its source. Each queue is therefore the packets of its source in the order in
which they were drawn (`Generates`), and since the markers count the beats up
across all packets, they increase along every queue and never repeat.
-/

open Python Spec2incPkg

namespace ReqXbar

/-- One packet as it is drawn, and the marker of its first beat. -/
structure Packet where
  src : ℤ
  dst : ℤ
  tag : ℕ
  op : ℤ
  nBeats : ℕ
  first : ℕ

/-- The beats of a packet. -/
def Packet.beats (p : Packet) : List Beat :=
  (List.range p.nBeats).map fun i =>
    .make p.src p.dst p.tag (p.first + i : ℕ) (if i = p.nBeats - 1 then 1 else 0) i p.op

/-- The packet of the given draws, with the next marker for its first beat. -/
def drawPacket (srcs dsts : List ℤ) (maxBeats : ℕ) (d : Draws) (marker : ℕ) :
    Except Exception Packet := do
  let src ← choice srcs d.src
  let dst ← choice dsts d.dst
  let op ← choice ops d.op
  let nBeats ← randint maxBeats d.beats
  .ok ⟨src, dst, d.tag % 2 ^ tagW, op, nBeats, marker⟩

/-- What the random calls guarantee of a packet. -/
structure Packet.WellFormed (srcs dsts : List ℤ) (maxBeats : ℕ) (p : Packet) : Prop where
  src : p.src ∈ srcs
  dst : p.dst ∈ dsts
  tag : p.tag < 2 ^ tagW
  op : p.op ∈ ops
  nBeats : 1 ≤ p.nBeats ∧ p.nBeats ≤ maxBeats

/-- What a list of beats must be to be a packet: its beats share the header, count
their positions and their markers, and only the final one is marked as last. -/
structure Packet.Carried (p : Packet) (beats : List Beat) : Prop where
  length : beats.length = p.nBeats
  header : ∀ b ∈ beats, b.fields .src = p.src ∧ b.fields .dst = p.dst ∧
    b.fields .tag = p.tag ∧ b.fields .op = p.op
  addr : ∀ (i : ℕ) (b : Beat), beats[i]? = some b → b.fields .addr = i
  marker : ∀ (i : ℕ) (b : Beat), beats[i]? = some b → b.marker = (p.first + i : ℕ)
  last : ∀ (i : ℕ) (b : Beat), beats[i]? = some b →
    b.fields .last = if i + 1 = beats.length then 1 else 0

variable {srcs dsts : List ℤ} {maxBeats : ℕ}

/-! ## One packet -/

@[simp] theorem Packet.length_beats (p : Packet) : p.beats.length = p.nBeats := by
  rw [beats, List.length_map, List.length_range]

theorem Packet.getElem?_beats {p : Packet} {i : ℕ} {b : Beat} (h : p.beats[i]? = some b) :
    i < p.nBeats ∧ b = .make p.src p.dst p.tag (p.first + i : ℕ)
      (if i = p.nBeats - 1 then 1 else 0) i p.op := by
  have hi : i < p.nBeats := by
    rw [← p.length_beats]
    exact (List.getElem?_eq_some_iff.mp h).1
  rw [beats, List.getElem?_map, List.getElem?_range hi, Option.map_some] at h
  exact ⟨hi, (Option.some.inj h).symm⟩

theorem Packet.carried_beats (p : Packet) : p.Carried p.beats where
  length := p.length_beats
  header b hb := by
    obtain ⟨i, -, rfl⟩ := List.mem_map.mp hb
    exact ⟨rfl, rfl, rfl, rfl⟩
  addr i b hb := by
    obtain ⟨-, rfl⟩ := Packet.getElem?_beats hb
    rfl
  marker i b hb := by
    obtain ⟨-, rfl⟩ := Packet.getElem?_beats hb
    rfl
  last i b hb := by
    obtain ⟨hi, rfl⟩ := Packet.getElem?_beats hb
    have hlast : i = p.nBeats - 1 ↔ i + 1 = p.nBeats := by omega
    simp only [Beat.make, hlast, p.length_beats]

theorem Packet.map_marker_beats (p : Packet) :
    p.beats.map Beat.marker = (List.range' p.first p.nBeats).map Int.ofNat := by
  rw [beats, List.map_map, List.range'_eq_map_range, List.map_map]
  rfl

theorem exists_choice_eq_ok {α : Type*} {xs : List α} (h : xs ≠ []) (draw : ℕ) :
    ∃ x, choice xs draw = .ok x := by
  have hlt := Nat.mod_lt draw (List.length_pos_iff.mpr h)
  exact ⟨xs[draw % xs.length], by rw [choice, List.getElem?_eq_getElem hlt]⟩

theorem randint_eq_ok {hi : ℕ} (h : 1 ≤ hi) (draw : ℕ) :
    randint hi draw = .ok (1 + draw % hi) := by
  rw [randint, if_neg (Nat.pos_iff_ne_zero.mp h)]

/-- Drawing a packet succeeds. -/
theorem exists_drawPacket (hsrcs : srcs ≠ []) (hdsts : dsts ≠ []) (hbeats : 1 ≤ maxBeats)
    (d : Draws) (marker : ℕ) :
    ∃ p, drawPacket srcs dsts maxBeats d marker = .ok p ∧ p.first = marker ∧
      p.WellFormed srcs dsts maxBeats := by
  obtain ⟨src, hsrc⟩ := exists_choice_eq_ok hsrcs d.src
  obtain ⟨dst, hdst⟩ := exists_choice_eq_ok hdsts d.dst
  obtain ⟨op, hop⟩ := exists_choice_eq_ok (by decide : ops ≠ []) d.op
  have hn := randint_eq_ok hbeats d.beats
  refine ⟨⟨src, dst, d.tag % 2 ^ tagW, op, 1 + d.beats % maxBeats, marker⟩, ?_, rfl, ?_⟩
  · simp only [drawPacket, hsrc, hdst, hop, hn]
    rfl
  · exact
      { src := mem_of_choice hsrc
        dst := mem_of_choice hdst
        tag := Nat.mod_lt _ (Nat.two_pow_pos tagW)
        op := mem_of_choice hop
        nBeats := ⟨Nat.le_add_right 1 _, le_of_randint hn⟩ }

/-! ## The queues -/

/-- The inner loop, after `n` beats: they are at the end of their source's queue,
with markers that count on. -/
theorem foldl_appendBeat (p : Packet) (g : Generator) (n : ℕ) :
    let g' := (List.range n).foldl (Generator.appendBeat p.src p.dst p.tag p.op p.nBeats) g
    g'.marker = g.marker + n ∧ ∀ s, g'.queues.getD s [] = g.queues.getD s [] ++
      if s = p.src then (List.range n).map fun i =>
        .make p.src p.dst p.tag (g.marker + i : ℕ) (if i = p.nBeats - 1 then 1 else 0) i p.op
      else [] := by
  induction n with
  | zero => exact ⟨rfl, fun s => by simp⟩
  | succ n ih =>
      obtain ⟨hmarker, hqueues⟩ := ih
      rw [List.range_succ, List.foldl_append, List.foldl_cons, List.foldl_nil]
      refine ⟨by rw [Generator.appendBeat, hmarker, Nat.add_assoc], fun s => ?_⟩
      rw [Generator.appendBeat, Dict.getD_append, hqueues, hmarker, List.append_assoc]
      by_cases hs : s = p.src
      · simp [hs]
      · simp [hs]

/-- The queues hold the packets so far, each in its source's queue, and the
markers have counted their beats. -/
structure Generates (packets : List Packet) (g : Generator) : Prop where
  queue : ∀ s, g.queues.getD s [] =
    (packets.filter fun p => p.src = s).flatMap Packet.beats
  marker : g.marker = 1 + (packets.map Packet.nBeats).sum
  markers : (packets.flatMap Packet.beats).map Beat.marker =
    (List.range' 1 (packets.map Packet.nBeats).sum).map Int.ofNat

theorem generates_start : Generates [] ⟨Dict.empty, 1⟩ where
  queue _ := rfl
  marker := rfl
  markers := rfl

/-- The body of the outer loop puts one more packet into the queues. -/
theorem Generates.appendPacket {packets : List Packet} {g : Generator}
    (h : Generates packets g) {d : Draws} {p : Packet}
    (hp : drawPacket srcs dsts maxBeats d g.marker = .ok p) :
    ∃ g', g.appendPacket srcs dsts maxBeats d = .ok g' ∧ Generates (packets ++ [p]) g' := by
  obtain ⟨src, hsrc, hp⟩ := bind_eq_ok_iff.mp hp
  obtain ⟨dst, hdst, hp⟩ := bind_eq_ok_iff.mp hp
  obtain ⟨op, hop, hp⟩ := bind_eq_ok_iff.mp hp
  obtain ⟨nBeats, hn, hp⟩ := bind_eq_ok_iff.mp hp
  obtain rfl := Except.ok.inj hp
  obtain ⟨hmarker, hqueues⟩ :=
    foldl_appendBeat ⟨src, dst, d.tag % 2 ^ tagW, op, nBeats, g.marker⟩ g nBeats
  refine ⟨_, by simp only [Generator.appendPacket, hsrc, hdst, hop, hn]; rfl, ?_, ?_, ?_⟩
  · intro s
    refine (hqueues s).trans ?_
    rw [h.queue, List.filter_append, List.flatMap_append]
    congr 1
    by_cases hs : s = src
    · simp [hs, Packet.beats]
    · simp [hs, Ne.symm hs]
  · refine hmarker.trans ?_
    rw [h.marker, List.map_append, List.sum_append, List.map_singleton, List.sum_singleton,
      Nat.add_assoc]
  · rw [List.flatMap_append, List.map_append, h.markers, List.flatMap_singleton,
      Packet.map_marker_beats, h.marker, List.map_append, List.sum_append, List.map_singleton,
      List.sum_singleton, ← List.map_append, List.range'_append_1]

/-- The outer loop draws one packet for each pass, and never raises. -/
theorem Generates.run {packets : List Packet} {g : Generator} (h : Generates packets g)
    (hsrcs : srcs ≠ []) (hdsts : dsts ≠ []) (hbeats : 1 ≤ maxBeats) (rng : ℕ → Draws)
    (ks : List ℕ) :
    ∃ g' drawn, ks.foldlM (fun (g : Generator) k => g.appendPacket srcs dsts maxBeats (rng k)) g =
        .ok g' ∧
      List.Forall₂ (fun k p => drawPacket srcs dsts maxBeats (rng k) p.first = .ok p ∧
        p.WellFormed srcs dsts maxBeats) ks drawn ∧
      Generates (packets ++ drawn) g' := by
  induction ks generalizing packets g with
  | nil => exact ⟨g, [], rfl, .nil, by rwa [List.append_nil]⟩
  | cons k ks ih =>
      obtain ⟨p, hp, hfirst, hwell⟩ := exists_drawPacket hsrcs hdsts hbeats (rng k) g.marker
      obtain ⟨g₁, hstep, h₁⟩ := h.appendPacket hp
      obtain ⟨g', drawn, hrun, hdrawn, h'⟩ := ih h₁
      refine ⟨g', p :: drawn, ?_, .cons ⟨hfirst ▸ hp, hwell⟩ hdrawn, ?_⟩
      · rw [List.foldlM_cons, hstep]
        exact hrun
      · rwa [List.append_cons]

/-! ## Well-formed traffic -/

/-- The queues are those of packets drawn one after another: each holds the
packets of its source, and the markers are all different and increase along it. -/
structure WellMarked (rng : ℕ → Draws) (nPackets : ℕ) (srcs dsts : List ℤ) (maxBeats : ℕ)
    (queues : Dict ℤ (List Beat)) (packets : List Packet) : Prop where
  drawn : List.Forall₂ (fun k p => drawPacket srcs dsts maxBeats (rng k) p.first = .ok p ∧
    p.WellFormed srcs dsts maxBeats) (List.range nPackets) packets
  carried : ∀ p ∈ packets, p.Carried p.beats
  queue : ∀ s, queues.getD s [] = (packets.filter fun p => p.src = s).flatMap Packet.beats
  markers : (queues.values.flatten.map Beat.marker).Perm
    ((List.range' 1 queues.values.flatten.length).map Int.ofNat)
  increasing : ∀ s, ((queues.getD s []).map Beat.marker).Pairwise (· < ·)

theorem Generates.increasing {packets : List Packet} {g : Generator} (h : Generates packets g)
    (s : ℤ) : ((g.queues.getD s []).map Beat.marker).Pairwise (· < ·) := by
  have hsub : ((packets.filter fun p => p.src = s).flatMap Packet.beats).Sublist
      (packets.flatMap Packet.beats) := List.filter_sublist.flatMap _
  rw [h.queue]
  refine List.Pairwise.sublist (hsub.map Beat.marker) ?_
  rw [h.markers, List.pairwise_map]
  exact (List.pairwise_lt_range').imp fun hlt => Int.ofNat_lt.mpr hlt

/-- `make_packets` returns well-formed traffic with unique markers. -/
theorem makePackets_wellMarked (rng : ℕ → Draws) (nPackets : ℕ) (srcs dsts : List ℤ)
    (maxBeats : ℕ) (hsrcs : srcs ≠ []) (hdsts : dsts ≠ []) (hbeats : 1 ≤ maxBeats) :
    ∃ queues packets, makePackets rng nPackets srcs dsts maxBeats = .ok queues ∧
      WellMarked rng nPackets srcs dsts maxBeats queues packets := by
  obtain ⟨g, packets, hrun, hdrawn, hgenerates⟩ :=
    generates_start.run hsrcs hdsts hbeats rng (List.range nPackets)
  have hmake : makePackets rng nPackets srcs dsts maxBeats = .ok g.queues := by
    rw [makePackets, hrun]
    rfl
  obtain ⟨marker, hgenerated⟩ := exists_generated_of_makePackets hmake
  have hmarkers := hgenerated.markers
  have hlength := hmarkers.length_eq
  rw [List.length_map, List.length_map, List.length_range'] at hlength
  rw [← hlength] at hmarkers
  exact ⟨g.queues, packets, hmake,
    { drawn := hdrawn
      carried := fun p _ => p.carried_beats
      queue := hgenerates.queue
      markers := hmarkers
      increasing := hgenerates.increasing }⟩

theorem makePackets_wellMarked_pair :
    ∃ queues packets, makePackets (fun k => ⟨k, 0, 7, 1, 2⟩) 2 [0, 1] [3] 3 = .ok queues ∧
      WellMarked (fun k => ⟨k, 0, 7, 1, 2⟩) 2 [0, 1] [3] 3 queues packets :=
  makePackets_wellMarked (fun k => ⟨k, 0, 7, 1, 2⟩) 2 [0, 1] [3] 3 (by decide) (by decide)
    (by decide)

end ReqXbar
