import Spec2Inc.Verif.Reference

/-!
# What a collective's outputs depend on

`expected_outputs` is compared over two calls. The second may list the members
in another order, and the input buffers too; it may have other buffers wherever
the first does not read, and for ALLREDUCE another member as root. `SameEffect`
and `AgreeOn` say so, and the written endpoints then get the same values
(`expectedOutputs_footprint`).
-/

open Python

namespace Reference

/-- The endpoints whose buffers a collective reads. -/
def Collective.read (c : Collective) : List Endpoint :=
  match c.kind with
  | .bcast => [c.root]
  | _ => c.members

/-- The same collective up to the order of its members and, for ALLREDUCE, the
choice of the root. -/
structure SameEffect (c c' : Collective) : Prop where
  kind : c'.kind = c.kind
  members : c'.members.Perm c.members
  root : c.kind ≠ .allreduce → c'.root = c.root

/-- The two dictionaries have the same buffers at the given endpoints. -/
def AgreeOn (eps : List Endpoint) (inBufs inBufs' : Dict Endpoint Buffer) : Prop :=
  ∀ ep ∈ eps, inBufs'.get? ep = inBufs.get? ep

variable {c c' : Collective} {inBufs inBufs' : Dict Endpoint Buffer} {n n' : ℕ}

theorem SameEffect.mem_written_iff (h : SameEffect c c') (ep : Endpoint) :
    ep ∈ c'.written ↔ ep ∈ c.written := by
  rw [Collective.written, Collective.written, h.kind]
  cases hk : c.kind with
  | reduce =>
      have hroot : c'.root = c.root := h.root (by simp [hk])
      simp [hroot]
  | bcast => exact h.members.mem_iff
  | allreduce => exact h.members.mem_iff

/-- Lane sums do not depend on the order of the buffers. -/
theorem laneSum_perm {bufs bufs' : List Buffer} (h : bufs'.Perm bufs) :
    laneSum n bufs' = laneSum n bufs :=
  List.map_congr_left fun _ _ => (h.map _).sum_eq

/-- The members' buffers are the same up to order. -/
theorem SameEffect.memberBufs_perm (h : SameEffect c c')
    (hagree : AgreeOn c.members inBufs inBufs') :
    (memberBufs c' inBufs').Perm (memberBufs c inBufs) := by
  have hsame : (c.members.map fun m => inBufs'.getD m []) = memberBufs c inBufs :=
    List.map_congr_left fun m hm => by rw [Dict.getD, Dict.getD, hagree m hm]
  rw [← hsame]
  exact h.members.map _

/-- What is read fixes the length of the buffers. -/
theorem Covers.length_unique (h : Covers c inBufs n) (h' : Covers c' inBufs' n')
    (hsame : SameEffect c c') (hagree : AgreeOn c.read inBufs inBufs') : n' = n := by
  have hread : ∃ m ∈ c.read, m ∈ c.members := by
    rw [Collective.read]
    cases c.kind with
    | bcast => exact ⟨c.root, List.mem_singleton_self _, c.root_mem⟩
    | reduce => exact ⟨c.root, c.root_mem, c.root_mem⟩
    | allreduce => exact ⟨c.root, c.root_mem, c.root_mem⟩
  obtain ⟨m, hread, hm⟩ := hread
  obtain ⟨b, hb, hlen⟩ := h m hm
  obtain ⟨b', hb', hlen'⟩ := h' m (hsame.members.mem_iff.mpr hm)
  rw [hagree m hread, hb] at hb'
  obtain rfl := Option.some.inj hb'
  rw [← hlen, ← hlen']

/-- The buffer written is the same. -/
theorem SameEffect.value_eq (hsame : SameEffect c c') (h : Covers c inBufs n)
    (h' : Covers c' inBufs' n') (hagree : AgreeOn c.read inBufs inBufs') :
    c'.value n' inBufs' = c.value n inBufs := by
  obtain rfl := h.length_unique h' hsame hagree
  rw [Collective.value, Collective.value, hsame.kind]
  rw [Collective.read] at hagree
  cases hk : c.kind with
  | bcast =>
      rw [hk] at hagree
      have hroot : c'.root = c.root := hsame.root (by simp [hk])
      have hget := hagree c.root (List.mem_singleton_self _)
      simp only [Dict.getD, hroot, hget]
  | reduce =>
      rw [hk] at hagree
      exact laneSum_perm (hsame.memberBufs_perm hagree)
  | allreduce =>
      rw [hk] at hagree
      exact laneSum_perm (hsame.memberBufs_perm hagree)

/-- The outputs have the keys of the inputs, are `none` exactly outside the
written endpoints, and hold at these what depends only on the collective's
effect and on the buffers it reads. -/
theorem expectedOutputs_footprint (h : Covers c inBufs n) :
    ∃ out, expectedOutputs c inBufs = .ok out ∧
      out.keys = inBufs.keys ∧
      (∀ ep ∈ inBufs, out.get? ep = some none ↔ ep ∉ c.written) ∧
      (∀ ep ∈ c.written, ∃ v, out.get? ep = some (some v)) ∧
      ∀ c' inBufs' n', SameEffect c c' → AgreeOn c.read inBufs inBufs' →
        Covers c' inBufs' n' →
        ∃ out', expectedOutputs c' inBufs' = .ok out' ∧
          ∀ ep ∈ c.written, out'.get? ep = out.get? ep := by
  obtain ⟨out, hout, hkeys, hget⟩ := expectedOutputs_eq h
  refine ⟨out, hout, hkeys, ?_, ?_, ?_⟩
  · intro ep hep
    obtain ⟨b, hb⟩ := (inBufs.mem_iff_exists_get? ep).mp hep
    rw [hget]
    by_cases hw : ep ∈ c.written <;> simp [hw, hb]
  · intro ep hep
    exact ⟨c.value n inBufs, by rw [hget, if_pos hep]⟩
  · intro c' inBufs' n' hsame hagree h'
    obtain ⟨out', hout', -, hget'⟩ := expectedOutputs_eq h'
    refine ⟨out', hout', fun ep hep => ?_⟩
    rw [hget, hget', if_pos hep, if_pos ((hsame.mem_written_iff ep).mpr hep),
      hsame.value_eq h h' hagree]

/-- An ALLREDUCE over two endpoints, with its members in either order. -/
def pairAllreduce (swapped : Bool) : Collective where
  kind := .allreduce
  members := if swapped then [1, 0] else [0, 1]
  root := if swapped then 1 else 0
  root_mem := by cases swapped <;> decide
  nodup_members := by cases swapped <;> decide
  two_le_length := by cases swapped <;> decide

/-- The endpoints of a pair with one buffer each, and a bystander. -/
def pairBufs : Dict Endpoint Buffer := ⟨[(0, [7]), (1, [8]), (5, [9, 9])], by decide⟩

theorem mem_pairAllreduce (swapped : Bool) (m : Endpoint) :
    m ∈ (pairAllreduce swapped).members ↔ m = 0 ∨ m = 1 := by
  cases swapped <;> simp [pairAllreduce, or_comm]

theorem covers_pairBufs (swapped : Bool) : Covers (pairAllreduce swapped) pairBufs 1 := by
  intro m hm
  rcases (mem_pairAllreduce swapped m).mp hm with rfl | rfl
  · exact ⟨[7], rfl, rfl⟩
  · exact ⟨[8], rfl, rfl⟩

theorem expectedOutputs_footprint_pair :
    ∃ out out', expectedOutputs (pairAllreduce false) pairBufs = .ok out ∧
      expectedOutputs (pairAllreduce true) pairBufs = .ok out' ∧
      out.get? 5 = some none ∧ out'.get? 0 = out.get? 0 := by
  obtain ⟨out, hout, -, hnone, -, hsame⟩ := expectedOutputs_footprint (covers_pairBufs false)
  have heffect : SameEffect (pairAllreduce false) (pairAllreduce true) :=
    ⟨rfl, List.Perm.swap 0 1 [], fun h => absurd rfl h⟩
  obtain ⟨out', hout', hget⟩ :=
    hsame _ pairBufs 1 heffect (fun _ _ => rfl) (covers_pairBufs true)
  exact ⟨out, out', hout, hout', (hnone 5 (by decide)).mpr (by decide), hget 0 (by decide)⟩

end Reference
