import Mathlib.Algebra.BigOperators.Group.List.Basic
import Mathlib.Data.BitVec
import Spec2Inc.Python.Dict
import Spec2Inc.Python.Str

/-!
# The reference model of the collectives

`verif/reference.py`: what BCAST, REDUCE and ALLREDUCE mean, on buffers of
32-bit lanes. `reduceLanes` accumulates in 64 bits and masks after each add;
`laneSum` is what it computes. `expectedOutputs` builds its result dictionary
key by key; `expectedOutputs_eq` says which endpoints are written, and with
what.
-/

open Python

namespace Reference

abbrev laneBits : ℕ := 32

abbrev Lane : Type := BitVec laneBits

/-- `LANE_MASK`, in the accumulator's 64 bits. -/
def laneMask : BitVec 64 := (1 <<< laneBits) - 1

abbrev lanesPerBlock : ℕ := 8

/-- A one-dimensional `uint32` array. -/
abbrev Buffer : Type := List Lane

/-- An endpoint ID. -/
abbrev Endpoint : Type := ℤ

inductive CollKind
  | bcast
  | reduce
  | allreduce
  deriving DecidableEq, Repr

/-- A collective that passed `__post_init__`. -/
structure Collective where
  kind : CollKind
  members : List Endpoint
  root : Endpoint
  root_mem : root ∈ members
  nodup_members : members.Nodup
  two_le_length : 2 ≤ members.length

/-- The constructor, with the checks of `__post_init__` in their order. -/
def Collective.make (kind : CollKind) (members : List Endpoint) (root : Endpoint) :
    Except Exception Collective :=
  if hroot : root ∈ members then
    if hnodup : members.Nodup then
      if htwo : 2 ≤ members.length then
        .ok ⟨kind, members, root, hroot, hnodup, htwo⟩
      else
        .error (.valueError "a collective needs at least two members")
    else
      .error (.valueError s!"duplicate members: {tupleText members}")
  else
    .error (.valueError s!"root {root} not in members {tupleText members}")

/-- The same members and root under another kind. -/
def Collective.withKind (c : Collective) (kind : CollKind) : Collective :=
  { c with kind := kind }

/-- One pass of the accumulation: add a buffer, then mask. -/
def accumulate (acc : List (BitVec 64)) (buf : Buffer) : List (BitVec 64) :=
  List.zipWith (fun a x => (a + x.setWidth 64) &&& laneMask) acc buf

/-- Elementwise sum of equal-length lane buffers, wrapping at `LANE_BITS`. -/
def reduceLanes : List Buffer → Except Exception Buffer
  | [] => .error (.valueError "nothing to reduce")
  | b₀ :: bufs =>
    if (b₀ :: bufs).any fun b => b.length != b₀.length then
      .error (.valueError "buffers differ in length")
    else
      .ok (((b₀ :: bufs).foldl accumulate (List.replicate b₀.length 0)).map
        fun a => a.setWidth laneBits)

/-- `out[m] = v` for every member. -/
def writeAll (out : Dict Endpoint (Option Buffer)) (members : List Endpoint) (v : Buffer) :
    Dict Endpoint (Option Buffer) :=
  members.foldl (fun out m => out.set m (some v)) out

/-- Expected output-buffer contents of every endpoint after `coll`. The value
`none` means that the endpoint's buffer must be bit-unchanged. -/
def expectedOutputs (coll : Collective) (inBufs : Dict Endpoint Buffer) :
    Except Exception (Dict Endpoint (Option Buffer)) :=
  let missing := coll.members.filter fun m => m ∉ inBufs
  if missing ≠ [] then
    .error (.valueError s!"no input buffer for members {missing}")
  else
    let out := inBufs.mapValues fun _ _ => none
    match coll.kind with
    | .bcast => do
        let payload ← index inBufs coll.root
        .ok (writeAll out coll.members payload)
    | .reduce => do
        let bufs ← coll.members.mapM (index inBufs)
        let result ← reduceLanes bufs
        .ok (out.set coll.root (some result))
    | .allreduce => do
        let bufs ← coll.members.mapM (index inBufs)
        let result ← reduceLanes bufs
        .ok (writeAll out coll.members result)

/-! ## What the accumulation computes -/

/-- The lane-wise sum of buffers of length `n`, modulo `2 ^ 32`. -/
def laneSum (n : ℕ) (bufs : List Buffer) : Buffer :=
  (List.range n).map fun l => (bufs.map fun b => b.getD l 0).sum

@[simp] theorem length_laneSum (n : ℕ) (bufs : List Buffer) :
    (laneSum n bufs).length = n := by
  simp [laneSum]

theorem getD_laneSum {n : ℕ} (bufs : List Buffer) {l : ℕ} (hl : l < n) :
    (laneSum n bufs).getD l 0 = (bufs.map fun b => b.getD l 0).sum := by
  simp [laneSum, hl]

/-- Masking keeps exactly the low 32 bits, so one pass adds lane by lane. -/
theorem setWidth_add_and_laneMask (a : BitVec 64) (x : Lane) :
    ((a + x.setWidth 64) &&& laneMask).setWidth laneBits = a.setWidth laneBits + x := by
  apply BitVec.eq_of_toNat_eq
  have hmask : laneMask.toNat = 2 ^ 32 - 1 := by decide
  have hx : x.toNat < 2 ^ 32 := x.isLt
  simp only [BitVec.toNat_setWidth, BitVec.toNat_and, BitVec.toNat_add, hmask,
    Nat.and_two_pow_sub_one_eq_mod, laneBits]
  omega

theorem map_setWidth_accumulate (acc : List (BitVec 64)) (buf : Buffer) :
    (accumulate acc buf).map (fun a => a.setWidth laneBits) =
      List.zipWith (· + ·) (acc.map fun a => a.setWidth laneBits) buf := by
  rw [accumulate, List.map_zipWith, List.zipWith_map_left]
  simp only [setWidth_add_and_laneMask]

theorem map_setWidth_foldl_accumulate (bufs : List Buffer) (acc : List (BitVec 64)) :
    (bufs.foldl accumulate acc).map (fun a => a.setWidth laneBits) =
      bufs.foldl (fun acc b => List.zipWith (· + ·) acc b)
        (acc.map fun a => a.setWidth laneBits) := by
  induction bufs generalizing acc with
  | nil => rfl
  | cons b bufs ih =>
      rw [List.foldl_cons, List.foldl_cons, ih, map_setWidth_accumulate]

/-- The passes over buffers of one length add up their lanes. -/
theorem foldl_zipWith_add {n : ℕ} (bufs : List Buffer)
    (hlen : ∀ b ∈ bufs, b.length = n) (acc : Buffer) (hacc : acc.length = n) :
    bufs.foldl (fun acc b => List.zipWith (· + ·) acc b) acc = laneSum n (acc :: bufs) := by
  induction bufs generalizing acc with
  | nil =>
      apply List.ext_getElem
      · simp [hacc]
      · intro l h₁ h₂
        have hl : l < acc.length := h₁
        simp [laneSum, hl]
  | cons b bufs ih =>
      have hb : b.length = n := hlen b (by simp)
      rw [List.foldl_cons, ih (fun b' hb' => hlen b' (by simp [hb'])) _ (by simp [hacc, hb])]
      apply List.ext_getElem
      · simp
      · intro l h₁ h₂
        have hl : l < n := by simpa using h₁
        simp [laneSum, hacc, hb, hl, add_assoc]

/-- `reduce_lanes` on buffers of one length is the lane-wise sum. -/
theorem reduceLanes_eq {n : ℕ} {bufs : List Buffer} (hne : bufs ≠ [])
    (hlen : ∀ b ∈ bufs, b.length = n) : reduceLanes bufs = .ok (laneSum n bufs) := by
  cases bufs with
  | nil => exact absurd rfl hne
  | cons b₀ bufs =>
      have hb₀ : b₀.length = n := hlen b₀ (by simp)
      have hsame : ((b₀ :: bufs).any fun b => b.length != b₀.length) = false := by
        rw [List.any_eq_false]
        intro b hb
        simp [hlen b hb, hb₀]
      rw [reduceLanes, hsame, map_setWidth_foldl_accumulate,
        foldl_zipWith_add _ hlen _ (by simp [hb₀])]
      simp only [Bool.false_eq_true, if_false]
      congr 1
      apply List.ext_getElem
      · simp
      · intro l h₁ h₂
        have hl : l < n := by simpa using h₁
        simp [laneSum, hb₀, hl]

/-! ## Which endpoints are written -/

/-- The endpoints a collective writes. -/
def Collective.written (c : Collective) : List Endpoint :=
  match c.kind with
  | .reduce => [c.root]
  | _ => c.members

/-- Every member has a buffer, of length `n`. -/
def Covers (c : Collective) (inBufs : Dict Endpoint Buffer) (n : ℕ) : Prop :=
  ∀ m ∈ c.members, ∃ b, inBufs.get? m = some b ∧ b.length = n

/-- The members' buffers, in member order. -/
def memberBufs (c : Collective) (inBufs : Dict Endpoint Buffer) : List Buffer :=
  c.members.map fun m => inBufs.getD m []

/-- The buffer a collective writes wherever it writes. -/
def Collective.value (c : Collective) (n : ℕ) (inBufs : Dict Endpoint Buffer) : Buffer :=
  match c.kind with
  | .bcast => inBufs.getD c.root []
  | _ => laneSum n (memberBufs c inBufs)

variable {c : Collective} {inBufs : Dict Endpoint Buffer} {n : ℕ}

theorem Covers.withKind (h : Covers c inBufs n) (kind : CollKind) :
    Covers (c.withKind kind) inBufs n := h

theorem Covers.length_memberBufs (h : Covers c inBufs n) :
    ∀ b ∈ memberBufs c inBufs, b.length = n := by
  intro b hb
  obtain ⟨m, hm, rfl⟩ := List.mem_map.mp hb
  obtain ⟨b, hget, hlen⟩ := h m hm
  simpa [Dict.getD, hget] using hlen

theorem Covers.mapM_index (h : Covers c inBufs n) :
    c.members.mapM (index inBufs) = .ok (memberBufs c inBufs) := by
  have key : ∀ ms : List Endpoint, (∀ m ∈ ms, ∃ b, inBufs.get? m = some b ∧ b.length = n) →
      ms.mapM (index inBufs) = .ok (ms.map fun m => inBufs.getD m []) := by
    intro ms
    induction ms with
    | nil => intro _; rfl
    | cons m ms ih =>
        intro hms
        obtain ⟨b, hget, -⟩ := hms m (by simp)
        rw [List.mapM_cons, ih fun m' hm' => hms m' (by simp [hm'])]
        simp [index, Dict.getD, hget]
        rfl
  exact key c.members h

theorem get?_writeAll (out : Dict Endpoint (Option Buffer)) (members : List Endpoint)
    (v : Buffer) (ep : Endpoint) :
    (writeAll out members v).get? ep =
      if ep ∈ members then some (some v) else out.get? ep := by
  induction members generalizing out with
  | nil => simp [writeAll]
  | cons m ms ih =>
      rw [writeAll, List.foldl_cons]
      change (writeAll (out.set m (some v)) ms v).get? ep = _
      rw [ih, Dict.get?_set]
      by_cases h₁ : ep ∈ ms <;> by_cases h₂ : ep = m <;> simp [h₁, h₂]

theorem keys_writeAll (out : Dict Endpoint (Option Buffer)) (members : List Endpoint)
    (v : Buffer) (h : ∀ m ∈ members, m ∈ out) :
    (writeAll out members v).keys = out.keys := by
  induction members generalizing out with
  | nil => rfl
  | cons m ms ih =>
      have hkeys := out.keys_set_of_mem (h m (by simp)) (some v)
      rw [writeAll, List.foldl_cons]
      change (writeAll (out.set m (some v)) ms v).keys = _
      rw [ih, hkeys]
      intro m' hm'
      rw [Dict.mem_iff, hkeys]
      exact h m' (by simp [hm'])

theorem Covers.mem_mapValues (h : Covers c inBufs n) (f : Endpoint → Buffer → Option Buffer)
    {m : Endpoint} (hm : m ∈ c.members) : m ∈ inBufs.mapValues f := by
  obtain ⟨b, hb, -⟩ := h m hm
  rw [Dict.mem_iff, Dict.keys_mapValues]
  exact (inBufs.mem_iff_exists_get? m).mpr ⟨b, hb⟩

theorem Covers.missing_eq_nil (h : Covers c inBufs n) :
    (c.members.filter fun m => m ∉ inBufs) = [] := by
  rw [List.filter_eq_nil_iff]
  intro m hm
  obtain ⟨b, hb, -⟩ := h m hm
  simpa using (inBufs.mem_iff_exists_get? m).mpr ⟨b, hb⟩

theorem Covers.reduceLanes_memberBufs (h : Covers c inBufs n) :
    reduceLanes (memberBufs c inBufs) = .ok (laneSum n (memberBufs c inBufs)) := by
  refine reduceLanes_eq ?_ h.length_memberBufs
  simpa [memberBufs] using List.ne_nil_of_mem c.root_mem

/-- On covering buffers `expected_outputs` returns a map over the same
endpoints: the written ones get the collective's value, the others `none`. -/
theorem expectedOutputs_eq (h : Covers c inBufs n) :
    ∃ out, expectedOutputs c inBufs = .ok out ∧ out.keys = inBufs.keys ∧
      ∀ ep, out.get? ep =
        if ep ∈ c.written then some (some (c.value n inBufs))
        else (inBufs.get? ep).map fun _ => none := by
  have hmem := fun m hm => h.mem_mapValues (fun _ _ => none) (m := m) hm
  cases hk : c.kind with
  | bcast =>
      obtain ⟨b, hb, -⟩ := h c.root c.root_mem
      refine ⟨writeAll (inBufs.mapValues fun _ _ => none) c.members b, ?_, ?_, ?_⟩
      · have hpayload : index inBufs c.root = .ok b := by rw [index, hb]
        simp only [expectedOutputs, h.missing_eq_nil, hk, hpayload, ne_eq,
          not_true_eq_false, if_false]
        rfl
      · rw [keys_writeAll _ _ _ hmem, Dict.keys_mapValues]
      · intro ep
        rw [get?_writeAll, Dict.get?_mapValues]
        simp [Collective.written, Collective.value, hk, Dict.getD, hb]
  | reduce =>
      refine ⟨(inBufs.mapValues fun _ _ => none).set c.root
        (some (laneSum n (memberBufs c inBufs))), ?_, ?_, ?_⟩
      · simp only [expectedOutputs, h.missing_eq_nil, hk, h.mapM_index, ne_eq,
          not_true_eq_false, if_false]
        change (reduceLanes (memberBufs c inBufs)).bind _ = _
        rw [h.reduceLanes_memberBufs]
        rfl
      · rw [Dict.keys_set_of_mem _ (hmem _ c.root_mem), Dict.keys_mapValues]
      · intro ep
        rw [Dict.get?_set, Dict.get?_mapValues]
        simp [Collective.written, Collective.value, hk]
  | allreduce =>
      refine ⟨writeAll (inBufs.mapValues fun _ _ => none) c.members
        (laneSum n (memberBufs c inBufs)), ?_, ?_, ?_⟩
      · simp only [expectedOutputs, h.missing_eq_nil, hk, h.mapM_index, ne_eq,
          not_true_eq_false, if_false]
        change (reduceLanes (memberBufs c inBufs)).bind _ = _
        rw [h.reduceLanes_memberBufs]
        rfl
      · rw [keys_writeAll _ _ _ hmem, Dict.keys_mapValues]
      · intro ep
        rw [get?_writeAll, Dict.get?_mapValues]
        simp [Collective.written, Collective.value, hk]

end Reference
