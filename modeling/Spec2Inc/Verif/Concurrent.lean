import Mathlib.Algebra.BigOperators.Group.Finset.Basic
import Spec2Inc.Bits.Bus
import Spec2Inc.Rtl.ReductionEngine.Fifo
import Spec2Inc.Verif.Reference

/-!
# Concurrent reductions through the engine

Several REDUCE or ALLREDUCE collectives share one engine. Each presents its
blocks in order, one operand set per block, tagged with its own id; between
them they may interleave in any way. `acceptedBlocks` counts how far a
collective has got, and the accepted operand sets with its id are its first
blocks (`filter_accepted`). What the engine has delivered under an id is then a
prefix of the reference result, by the FIFO law of the engine.
-/

open Bits Clocked Spec2incPkg Reference

namespace ReductionEngine

variable {P : Params}

/-- A collective to be reduced through the engine: its members are slots of the
engine, and their buffers are whole blocks. -/
structure Job (P : Params) where
  coll : Collective
  kind_ne_bcast : coll.kind ≠ .bcast
  inBufs : Dict Endpoint Buffer
  blocks : ℕ
  covers : Covers coll inBufs (blocks * lanesPerBlock)
  members_nonneg : ∀ m ∈ coll.members, 0 ≤ m
  members_lt : ∀ m ∈ coll.members, m < P.nPorts
  opId : BitVec tagW

/-- The ports present block `b` of the collective: the mask is its members, and
every member's block sits in the member's slot. The other slots are free. -/
structure Presents (J : Job P) (b : ℕ) (i : Inputs P) : Prop where
  opId : i.opId = J.opId
  opMask : ∀ p < P.nPorts, i.opMask.getLsbD p = true ↔ (p : ℤ) ∈ J.coll.members
  opData : ∀ m ∈ J.coll.members, ∀ l < redLanes,
    beatLane (operand i.opData m.toNat) l =
      (J.inBufs.getD m []).getD (b * lanesPerBlock + l) 0

/-- The lanes of a beat, lane zero first. -/
def lanesFromBeat (beat : BitVec dataW) : Buffer :=
  (List.range redLanes).map (beatLane beat)

/-- The number of operand sets accepted before cycle `t` under the id of `J`. -/
def acceptedBlocks (inp : ℕ → Inputs P) (J : Job P) (t : ℕ) : ℕ :=
  ((accepted inp t).filter fun x => x.2 = J.opId).length

/-- The results delivered before cycle `t` under the id of `J`, concatenated. -/
def deliveredLanes (inp : ℕ → Inputs P) (J : Job P) (t : ℕ) : Buffer :=
  (((delivered inp t).filter fun x => x.2 = J.opId).map fun x => lanesFromBeat x.1).flatten

/-- Whenever `op_valid` is high, the ports present the next block of one of the
collectives. The choice is free in every cycle. -/
def PresentsInOrder {ι : Type*} (jobs : ι → Job P) (inp : ℕ → Inputs P) : Prop :=
  ∀ t, (inp t).opValid = true → ∃ c, acceptedBlocks inp (jobs c) t < (jobs c).blocks ∧
    Presents (jobs c) (acceptedBlocks inp (jobs c) t) (inp t)

/-- The reduction of all the members' buffers. -/
def Job.result (J : Job P) : Buffer :=
  laneSum (J.blocks * lanesPerBlock) (memberBufs J.coll J.inBufs)

/-- Block `b` of the reduction, as a beat. -/
def Job.blockSum (J : Job P) (b : ℕ) : BitVec dataW :=
  ofLanes redLanes fun l => J.result.getD (b * lanesPerBlock + l) 0

theorem Job.expectedOutputs_root (J : Job P) :
    ∃ out, expectedOutputs J.coll J.inBufs = .ok out ∧
      out.get? J.coll.root = some (some J.result) := by
  obtain ⟨out, hout, -, hget⟩ := expectedOutputs_eq J.covers
  refine ⟨out, hout, ?_⟩
  rw [hget]
  cases hk : J.coll.kind with
  | bcast => exact absurd hk J.kind_ne_bcast
  | reduce => simp [Collective.written, Collective.value, hk, Job.result]
  | allreduce =>
      simp [Collective.written, Collective.value, hk, Job.result, J.coll.root_mem]

/-- The masked slots are the members. -/
theorem Presents.maskedSlots_eq {J : Job P} {b : ℕ} {i : Inputs P} (h : Presents J b i) :
    maskedSlots i.opMask = (J.coll.members.map Int.toNat).toFinset := by
  ext p
  simp only [maskedSlots, Finset.mem_filter, Finset.mem_range, List.mem_toFinset, List.mem_map]
  constructor
  · rintro ⟨hp, hmask⟩
    exact ⟨p, (h.opMask p hp).mp hmask, by simp⟩
  · rintro ⟨m, hm, rfl⟩
    have hnonneg : (0 : ℤ) ≤ m := J.members_nonneg m hm
    have hp : m.toNat < P.nPorts := (Int.toNat_lt hnonneg).mpr (J.members_lt m hm)
    refine ⟨hp, (h.opMask _ hp).mpr ?_⟩
    rwa [Int.toNat_of_nonneg hnonneg]

theorem Job.nodup_slots (J : Job P) : (J.coll.members.map Int.toNat).Nodup := by
  refine List.Nodup.map_on ?_ J.coll.nodup_members
  intro m hm m' hm' heq
  calc m = (m.toNat : ℤ) := (Int.toNat_of_nonneg (J.members_nonneg m hm)).symm
    _ = (m'.toNat : ℤ) := by rw [heq]
    _ = m' := Int.toNat_of_nonneg (J.members_nonneg m' hm')

/-- The adder turns a presented block into that block of the reduction. -/
theorem Presents.operandSet_eq {J : Job P} {b : ℕ} {i : Inputs P} (h : Presents J b i)
    (hb : b < J.blocks) : operandSet i = (J.blockSum b, J.opId) := by
  have hsum : maskedLaneSum i.opMask i.opData = J.blockSum b := by
    apply eq_of_beatLane
    intro l hl
    have hl8 : l < lanesPerBlock := hl
    have hpos : b * lanesPerBlock + l < J.blocks * lanesPerBlock := by
      have := Nat.mul_le_mul_right lanesPerBlock (Nat.succ_le_of_lt hb)
      rw [Nat.succ_mul] at this
      omega
    calc beatLane (maskedLaneSum i.opMask i.opData) l
        = ∑ p ∈ maskedSlots i.opMask, beatLane (operand i.opData p) l :=
          beatLane_maskedLaneSum _ _ hl
      _ = ((J.coll.members.map Int.toNat).map fun p => beatLane (operand i.opData p) l).sum := by
          rw [h.maskedSlots_eq, List.sum_toFinset _ J.nodup_slots]
      _ = ((memberBufs J.coll J.inBufs).map fun buf =>
            buf.getD (b * lanesPerBlock + l) 0).sum := by
          rw [memberBufs, List.map_map, List.map_map]
          congr 1
          apply List.map_congr_left
          intro m hm
          exact h.opData m hm l hl
      _ = J.result.getD (b * lanesPerBlock + l) 0 := (getD_laneSum _ hpos).symm
      _ = beatLane (J.blockSum b) l :=
          (lane_ofLanes (fun l => J.result.getD (b * lanesPerBlock + l) 0) hl).symm
  rw [operandSet, hsum, h.opId]

/-! ## The accepted operand sets of one collective -/

theorem accepted_succ {inp : ℕ → Inputs P} (hrst : ∀ k, (inp k).rstN = true) (t : ℕ) :
    accepted inp (t + 1) = accepted inp t ++ accept (regsAt inp t) (inp t) :=
  sinceReset_succ _ _ (hrst t) (hrst (t + 1))

/-- The operand sets accepted under the id of a collective are its first blocks,
in order. -/
theorem filter_accepted {ι : Type*} {jobs : ι → Job P} {inp : ℕ → Inputs P}
    (hrst : ∀ k, (inp k).rstN = true)
    (hids : Function.Injective fun c => (jobs c).opId)
    (hin : PresentsInOrder jobs inp) (c : ι) (t : ℕ) :
    ((accepted inp t).filter fun x => x.2 = (jobs c).opId) =
        (List.range (acceptedBlocks inp (jobs c) t)).map
          (fun b => ((jobs c).blockSum b, (jobs c).opId)) ∧
      acceptedBlocks inp (jobs c) t ≤ (jobs c).blocks := by
  induction t with
  | zero => simp [acceptedBlocks, accepted]
  | succ t ih =>
      obtain ⟨ih, hle⟩ := ih
      have hcount : acceptedBlocks inp (jobs c) (t + 1) = acceptedBlocks inp (jobs c) t +
          ((accept (regsAt inp t) (inp t)).filter fun x => x.2 = (jobs c).opId).length := by
        rw [acceptedBlocks, accepted_succ hrst, List.filter_append, List.length_append]
        rfl
      rw [accepted_succ hrst, List.filter_append, hcount, ih]
      cases ha : (inp t).opValid && opReady (regsAt inp t) (inp t) with
      | false => simpa [accept, ha] using hle
      | true =>
          obtain ⟨c', hlt, hp⟩ := hin t ((Bool.and_eq_true _ _).mp ha).1
          have hset := hp.operandSet_eq hlt
          have haccept : accept (regsAt inp t) (inp t) = [operandSet (inp t)] := by
            simp [accept, ha]
          rw [haccept, hset]
          by_cases hc : c' = c
          · subst hc
            simp only [List.filter_cons, decide_true, if_true, List.filter_nil,
              List.length_singleton, List.range_succ, List.map_append, List.map_singleton,
              true_and]
            omega
          · have hne : (jobs c').opId ≠ (jobs c).opId := fun heq => hc (hids heq)
            simpa [hne] using hle

/-! ## What has been delivered -/

theorem exists_range_of_prefix {α : Type*} {f : ℕ → α} {n : ℕ} {l : List α}
    (h : l <+: (List.range n).map f) : ∃ j ≤ n, l = (List.range j).map f := by
  have hlen := h.length_le
  rw [List.length_map, List.length_range] at hlen
  refine ⟨l.length, hlen, ?_⟩
  rw [List.prefix_iff_eq_take.mp h, ← List.map_take, List.take_range]
  simp [hlen]

/-- The blocks of the reduction, concatenated, are a prefix of it. -/
theorem Job.flatten_blockSums (J : Job P) {j : ℕ} (hj : j ≤ J.blocks) :
    ((List.range j).map fun b => lanesFromBeat (J.blockSum b)).flatten =
      J.result.take (j * lanesPerBlock) := by
  induction j with
  | zero => simp
  | succ j ih =>
      have hlen : J.result.length = J.blocks * lanesPerBlock := length_laneSum _ _
      have hroom : j * lanesPerBlock + lanesPerBlock ≤ J.blocks * lanesPerBlock := by
        rw [← Nat.succ_mul]
        exact Nat.mul_le_mul_right _ hj
      have hblock : lanesFromBeat (J.blockSum j) =
          (J.result.drop (j * lanesPerBlock)).take lanesPerBlock := by
        apply List.ext_getElem
        · rw [lanesFromBeat, List.length_map, List.length_range, List.length_take,
            List.length_drop, hlen]
          have hfull : lanesPerBlock ≤ J.blocks * lanesPerBlock - j * lanesPerBlock := by
            omega
          exact (min_eq_left hfull).symm
        · intro l h₁ h₂
          have hl : l < redLanes := by simpa [lanesFromBeat] using h₁
          have hl8 : l < lanesPerBlock := hl
          have hin : j * lanesPerBlock + l < J.result.length := by omega
          have hlane := lane_ofLanes
            (fun l => J.result.getD (j * lanesPerBlock + l) 0) hl
          simp only [lanesFromBeat, List.getElem_map, List.getElem_range, List.getElem_take,
            List.getElem_drop]
          exact hlane.trans (by simp [hin])
      rw [List.range_succ, List.map_append, List.flatten_append, ih (by omega),
        List.map_singleton, List.flatten_singleton, hblock, Nat.succ_mul, List.take_add]

/-- Concurrent reductions match the reference. At every cycle the results
delivered under a collective's id are a prefix, in whole blocks, of the
reference output at its root; they are all of it once every accepted operand
set has been delivered and all of the collective's blocks were accepted. -/
theorem concurrent_reductions_match_reference (P : Params) {ι : Type*} (jobs : ι → Job P)
    (inp : ℕ → Inputs P) (hrst : ∀ k, (inp k).rstN = true)
    (hids : Function.Injective fun c => (jobs c).opId)
    (hin : PresentsInOrder jobs inp) (c : ι) (t : ℕ) :
    ∃ out buf, expectedOutputs (jobs c).coll (jobs c).inBufs = .ok out ∧
      out.get? (jobs c).coll.root = some (some buf) ∧
      (∃ j ≤ (jobs c).blocks,
        deliveredLanes inp (jobs c) t = buf.take (j * lanesPerBlock)) ∧
      (delivered inp t = accepted inp t →
        acceptedBlocks inp (jobs c) t = (jobs c).blocks →
        deliveredLanes inp (jobs c) t = buf) := by
  obtain ⟨out, hout, hroot⟩ := (jobs c).expectedOutputs_root
  obtain ⟨hfilter, hle⟩ := filter_accepted hrst hids hin c t
  refine ⟨out, (jobs c).result, hout, hroot, ?_, ?_⟩
  · have hprefix : delivered inp t <+: accepted inp t :=
      ⟨inFlight (regsAt inp t), delivered_append_inFlight inp t⟩
    have hprefix' := hprefix.filter fun x => decide (x.2 = (jobs c).opId)
    rw [hfilter] at hprefix'
    obtain ⟨j, hj, heq⟩ := exists_range_of_prefix hprefix'
    refine ⟨j, hj.trans hle, ?_⟩
    rw [deliveredLanes, heq, List.map_map, ← (jobs c).flatten_blockSums (hj.trans hle)]
    rfl
  · intro hall hblocks
    have hlen : (jobs c).result.length = (jobs c).blocks * lanesPerBlock := length_laneSum _ _
    rw [deliveredLanes, hall, hfilter, hblocks, List.map_map]
    change ((List.range (jobs c).blocks).map fun b =>
      lanesFromBeat ((jobs c).blockSum b)).flatten = _
    rw [(jobs c).flatten_blockSums le_rfl, ← hlen, List.take_length]

/-! ## Two collectives at once -/

/-- Four ports and two stages. -/
abbrev fourPorts : Params := ⟨4, 2, Nat.le_add_left 1 3, Nat.le_add_left 1 1⟩

/-- A buffer of two blocks at each port. The sum with that of port 2 wraps. -/
def portBufs : Dict Endpoint Buffer :=
  ⟨[(0, (List.range 16).map fun l => BitVec.ofNat laneBits (l + 1)),
    (1, (List.range 16).map fun l => BitVec.ofNat laneBits (100 * l)),
    (2, List.replicate 16 (BitVec.allOnes laneBits)),
    (3, (List.range 16).map fun l => BitVec.ofNat laneBits (l + 7))], by decide⟩

theorem covers_portBufs {coll : Collective} (h : ∀ m ∈ coll.members, m ∈ portBufs.keys) :
    Covers coll portBufs (2 * lanesPerBlock) := by
  have hall : ∀ m ∈ portBufs.keys,
      (portBufs.get? m).map List.length = some (2 * lanesPerBlock) := by decide
  exact fun m hm => Option.map_eq_some_iff.mp (hall m (h m hm))

/-- An ALLREDUCE of ports 0 and 2. -/
def lowJob : Job fourPorts where
  coll := ⟨.allreduce, [0, 2], 2, by decide, by decide, by decide⟩
  kind_ne_bcast := by decide
  inBufs := portBufs
  blocks := 2
  covers := covers_portBufs (by decide)
  members_nonneg := by decide
  members_lt := by decide
  opId := 5

/-- A REDUCE of ports 1, 2 and 3. -/
def highJob : Job fourPorts where
  coll := ⟨.reduce, [3, 1, 2], 1, by decide, by decide, by decide⟩
  kind_ne_bcast := by decide
  inBufs := portBufs
  blocks := 2
  covers := covers_portBufs (by decide)
  members_nonneg := by decide
  members_lt := by decide
  opId := 9

def twoJobs (high : Bool) : Job fourPorts := if high then highJob else lowJob

/-- Block `b` of a job at the ports. Every slot holds its port's block, whether
the port is a member or not. -/
def offerBlock (high : Bool) (b : ℕ) (resReady : Bool) : Inputs fourPorts where
  rstN := true
  opValid := true
  opMask := if high then 0b1110 else 0b0101
  opData := BitVec.ofNat _ (busOf dataW 4 fun p => busOf redLaneW redLanes fun l =>
    ((portBufs.getD p []).getD (b * lanesPerBlock + l) 0).toNat)
  opId := (twoJobs high).opId
  resReady := resReady

/-- The blocks interleave, and nothing is offered in cycle 2. The first result
waits in the cycles 2 and 3, and the block offered in cycle 3 is not taken before
cycle 4. -/
def twoJobsRun : ℕ → Inputs fourPorts
  | 0 => offerBlock false 0 true
  | 1 => offerBlock true 0 true
  | 2 => { offerBlock true 1 false with opValid := false }
  | 3 => offerBlock true 1 false
  | 4 => offerBlock true 1 true
  | 5 => offerBlock false 1 true
  | _ => { offerBlock false 0 true with opValid := false }

theorem presents_offerBlock (high resReady : Bool) {b : ℕ} (hb : b < 2) :
    Presents (twoJobs high) b (offerBlock high b resReady) where
  opId := rfl
  opMask := by
    cases high with
    | false => exact (by decide : ∀ p < 4,
        (0b0101 : BitVec 4).getLsbD p = true ↔ (p : ℤ) ∈ ([0, 2] : List ℤ))
    | true => exact (by decide : ∀ p < 4,
        (0b1110 : BitVec 4).getLsbD p = true ↔ (p : ℤ) ∈ ([3, 1, 2] : List ℤ))
  opData := by
    have hall : ∀ high resReady : Bool, ∀ b < 2, ∀ m ∈ (twoJobs high).coll.members,
        ∀ l < redLanes, beatLane (operand (offerBlock high b resReady).opData m.toNat) l =
          ((twoJobs high).inBufs.getD m []).getD (b * lanesPerBlock + l) 0 := by
      decide +kernel
    exact hall high resReady b hb

theorem presentsInOrder_twoJobsRun : PresentsInOrder twoJobs twoJobsRun := by
  have hcounts : acceptedBlocks twoJobsRun lowJob 0 = 0 ∧
      acceptedBlocks twoJobsRun highJob 1 = 0 ∧ acceptedBlocks twoJobsRun highJob 3 = 1 ∧
      acceptedBlocks twoJobsRun highJob 4 = 1 ∧ acceptedBlocks twoJobsRun lowJob 5 = 1 := by
    decide +kernel
  obtain ⟨h₀, h₁, h₃, h₄, h₅⟩ := hcounts
  intro t ht
  match t, ht with
  | 0, _ => exact ⟨false, h₀ ▸ Nat.two_pos, h₀ ▸ presents_offerBlock false true Nat.two_pos⟩
  | 1, _ => exact ⟨true, h₁ ▸ Nat.two_pos, h₁ ▸ presents_offerBlock true true Nat.two_pos⟩
  | 3, _ => exact ⟨true, h₃ ▸ Nat.one_lt_two, h₃ ▸ presents_offerBlock true false Nat.one_lt_two⟩
  | 4, _ => exact ⟨true, h₄ ▸ Nat.one_lt_two, h₄ ▸ presents_offerBlock true true Nat.one_lt_two⟩
  | 5, _ => exact ⟨false, h₅ ▸ Nat.one_lt_two, h₅ ▸ presents_offerBlock false true Nat.one_lt_two⟩

/-- The offer of cycle 3 is refused. After eight cycles all four results are
delivered, and those of each collective are its output in the reference. -/
theorem concurrent_reductions_match_reference_interleaved :
    opReady (regsAt twoJobsRun 3) (twoJobsRun 3) = false ∧
      (accepted twoJobsRun 8).map Prod.snd = [5, 9, 9, 5] ∧
      delivered twoJobsRun 8 = accepted twoJobsRun 8 ∧
      deliveredLanes twoJobsRun lowJob 8 = (List.range 16).map (BitVec.ofNat laneBits) ∧
      ∀ high, acceptedBlocks twoJobsRun (twoJobs high) 8 = 2 ∧
        ∃ out, expectedOutputs (twoJobs high).coll (twoJobs high).inBufs = .ok out ∧
          out.get? (twoJobs high).coll.root =
            some (some (deliveredLanes twoJobsRun (twoJobs high) 8)) := by
  have hrst : ∀ k, (twoJobsRun k).rstN = true := fun k =>
    match k with
    | 0 | 1 | 2 | 3 | 4 | 5 | _ + 6 => rfl
  have hids : Function.Injective fun high => (twoJobs high).opId := by decide
  have hall : delivered twoJobsRun 8 = accepted twoJobsRun 8 := by decide +kernel
  have hblocks : ∀ high, acceptedBlocks twoJobsRun (twoJobs high) 8 = 2 := by decide +kernel
  refine ⟨by decide +kernel, by decide +kernel, hall, by decide +kernel,
    fun high => ⟨hblocks high, ?_⟩⟩
  obtain ⟨out, buf, hout, hroot, -, hequal⟩ := concurrent_reductions_match_reference fourPorts
    twoJobs twoJobsRun hrst hids presentsInOrder_twoJobsRun high 8
  have hall' : acceptedBlocks twoJobsRun (twoJobs high) 8 = (twoJobs high).blocks := by
    rw [hblocks]
    cases high <;> rfl
  rw [hequal hall hall']
  exact ⟨out, hout, hroot⟩

end ReductionEngine
