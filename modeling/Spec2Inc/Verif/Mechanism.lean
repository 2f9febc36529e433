import Spec2Inc.Verif.Reference

/-!
# Mechanism equivalence

The buffers of a collective are cut into consecutive blocks. On the block path
one ALLREDUCE handles the whole buffers. On the primitive path every block is
first reduced to the root and the reduced block is then broadcast from it. Both
give the same result at every endpoint, and so do a whole REDUCE or BCAST and
its blocks.

The argument is one induction on the cut (`concat_blocks`): a way of computing
outputs commutes with cutting as soon as it writes a fixed set of endpoints,
with a value that splits as the buffers do.
-/

open Python

namespace Reference

/-- The consecutive blocks of sizes `cut` of all the buffers. -/
def cutBlocks : List ℕ → Dict Endpoint Buffer → List (Dict Endpoint Buffer)
  | [], _ => []
  | k :: ks, d =>
      d.mapValues (fun _ b => b.take k) :: cutBlocks ks (d.mapValues fun _ b => b.drop k)

/-- The results of consecutive blocks put together at endpoint `ep`: the
concatenated buffers where every block wrote, `none` where none did. It is
undefined where some blocks wrote and others did not. -/
def concatAt : List (Dict Endpoint (Option Buffer)) → Endpoint → Option (Option Buffer)
  | [], _ => none
  | [d], ep => d.get? ep
  | d :: ds, ep =>
    match d.get? ep, concatAt ds ep with
    | some (some b), some (some bs) => some (some (b ++ bs))
    | some none, some none => some none
    | _, _ => none

/-- One block on the primitive path: REDUCE to the root, then BCAST from it
with the root's block replaced by the reduced one. -/
def primitivePath (c : Collective) (block : Dict Endpoint Buffer) :
    Except Exception (Dict Endpoint (Option Buffer)) := do
  let reduced ← expectedOutputs (c.withKind .reduce) block
  match ← index reduced c.root with
  | some r => expectedOutputs (c.withKind .bcast) (block.set c.root r)
  | none => .error (.typeError "the root's buffer was not written")

/-- On covering buffers, `f` returns a map that writes `value` at the endpoints
of `written` and leaves the others alone. -/
def Writes (c : Collective) (f : Dict Endpoint Buffer →
      Except Exception (Dict Endpoint (Option Buffer)))
    (written : List Endpoint) (value : ℕ → Dict Endpoint Buffer → Buffer) : Prop :=
  ∀ n d, Covers c d n → ∃ out, f d = .ok out ∧ ∀ ep, out.get? ep =
    if ep ∈ written then some (some (value n d)) else (d.get? ep).map fun _ => none

/-- The value of longer buffers is that of a first block followed by that of
the rest. -/
structure Splits (c : Collective) (value : ℕ → Dict Endpoint Buffer → Buffer) : Prop where
  nil : ∀ d, Covers c d 0 → value 0 d = []
  append : ∀ k n d, Covers c d (k + n) → value (k + n) d =
    value k (d.mapValues fun _ b => b.take k) ++ value n (d.mapValues fun _ b => b.drop k)

variable {c : Collective} {inBufs : Dict Endpoint Buffer} {n : ℕ}

theorem Covers.take {k : ℕ} (h : Covers c inBufs (k + n)) :
    Covers c (inBufs.mapValues fun _ b => b.take k) k := by
  intro m hm
  obtain ⟨b, hb, hlen⟩ := h m hm
  exact ⟨b.take k, by simp [hb], by simp [hlen]⟩

theorem Covers.drop {k : ℕ} (h : Covers c inBufs (k + n)) :
    Covers c (inBufs.mapValues fun _ b => b.drop k) n := by
  intro m hm
  obtain ⟨b, hb, hlen⟩ := h m hm
  exact ⟨b.drop k, by simp [hb], by simp [hlen]⟩

theorem Covers.set_root (h : Covers c inBufs n) {r : Buffer} (hr : r.length = n) :
    Covers c (inBufs.set c.root r) n := by
  intro m hm
  rw [Dict.get?_set]
  by_cases hroot : m = c.root
  · exact ⟨r, if_pos hroot, hr⟩
  · rw [if_neg hroot]
    exact h m hm

theorem concatAt_cons {d : Dict Endpoint (Option Buffer)}
    {ds : List (Dict Endpoint (Option Buffer))} (hds : ds ≠ []) (ep : Endpoint) :
    concatAt (d :: ds) ep =
      match d.get? ep, concatAt ds ep with
      | some (some b), some (some bs) => some (some (b ++ bs))
      | some none, some none => some none
      | _, _ => none := by
  cases ds with
  | nil => exact absurd rfl hds
  | cons d' ds => rfl

/-- Cutting into blocks commutes with a computation that writes a fixed set of
endpoints with a splitting value. The induction is on the cut. -/
theorem concat_blocks {f : Dict Endpoint Buffer →
      Except Exception (Dict Endpoint (Option Buffer))}
    {written : List Endpoint} {value : ℕ → Dict Endpoint Buffer → Buffer}
    (hf : Writes c f written value) (hv : Splits c value) {cut : List ℕ} (hne : cut ≠ [])
    (h : Covers c inBufs cut.sum) :
    ∃ outs, (cutBlocks cut inBufs).mapM f = .ok outs ∧ outs ≠ [] ∧
      ∀ ep, concatAt outs ep =
        if ep ∈ written then some (some (value cut.sum inBufs))
        else (inBufs.get? ep).map fun _ => none := by
  induction cut generalizing inBufs with
  | nil => exact absurd rfl hne
  | cons k ks ih =>
      rw [List.sum_cons] at h ⊢
      obtain ⟨out, hout, hget⟩ := hf _ _ h.take
      have hsplit := hv.append k ks.sum inBufs h
      cases ks with
      | nil =>
          rw [List.sum_nil, hv.nil _ h.drop, List.append_nil] at hsplit
          refine ⟨[out], by simp [cutBlocks, hout], by simp, fun ep => ?_⟩
          rw [concatAt, hget, List.sum_nil, ← hsplit, Dict.get?_mapValues]
          cases inBufs.get? ep <;> simp
      | cons k' ks =>
          obtain ⟨outs, houts, hnil, hconcat⟩ := ih (by simp) h.drop
          refine ⟨out :: outs, ?_, by simp, fun ep => ?_⟩
          · rw [cutBlocks, List.mapM_cons, hout, houts]
            rfl
          · rw [concatAt_cons hnil, hget, hconcat, hsplit]
            by_cases hw : ep ∈ written
            · simp [hw]
            · cases hep : inBufs.get? ep <;> simp [hw, hep]

/-! ## The two values split -/

theorem laneSum_add (k n : ℕ) (bufs : List Buffer) :
    laneSum (k + n) bufs =
      laneSum k (bufs.map (List.take k)) ++ laneSum n (bufs.map (List.drop k)) := by
  simp only [laneSum, List.range_add, List.map_append, List.map_map]
  congr 1
  · apply List.map_congr_left
    intro l hl
    have hl : l < k := List.mem_range.mp hl
    simp [Function.comp_def, hl]
  · apply List.map_congr_left
    intro l _
    simp [Function.comp_def, List.getElem?_drop]

theorem memberBufs_mapValues (c : Collective) (inBufs : Dict Endpoint Buffer)
    (f : Buffer → Buffer) (hf : f [] = []) :
    memberBufs c (inBufs.mapValues fun _ b => f b) = (memberBufs c inBufs).map f := by
  rw [memberBufs, memberBufs, List.map_map]
  apply List.map_congr_left
  intro m _
  cases h : inBufs.get? m <;> simp [Dict.getD, h, hf]

theorem splits_value (c : Collective) : Splits c c.value where
  nil d h := by
    have hlen : ∀ b, d.get? c.root = some b → b = [] := by
      intro b hb
      obtain ⟨b', hb', hlen⟩ := h c.root c.root_mem
      rw [hb] at hb'
      cases hb'
      exact List.eq_nil_of_length_eq_zero hlen
    cases hk : c.kind with
    | bcast =>
        cases hb : d.get? c.root with
        | none => simp [Collective.value, hk, Dict.getD, hb]
        | some b => simp [Collective.value, hk, Dict.getD, hb, hlen b hb]
    | reduce => simp [Collective.value, hk, laneSum]
    | allreduce => simp [Collective.value, hk, laneSum]
  append k n d h := by
    cases hk : c.kind with
    | bcast =>
        obtain ⟨b, hb, -⟩ := h c.root c.root_mem
        simp [Collective.value, hk, Dict.getD, hb]
    | reduce =>
        simp only [Collective.value, hk, laneSum_add]
        rw [memberBufs_mapValues c d _ List.take_nil, memberBufs_mapValues c d _ List.drop_nil]
    | allreduce =>
        simp only [Collective.value, hk, laneSum_add]
        rw [memberBufs_mapValues c d _ List.take_nil, memberBufs_mapValues c d _ List.drop_nil]

theorem splits_value_withKind (c : Collective) (kind : CollKind) :
    Splits c (c.withKind kind).value :=
  ⟨(splits_value (c.withKind kind)).nil, (splits_value (c.withKind kind)).append⟩

theorem writes_expectedOutputs (c : Collective) :
    Writes c (expectedOutputs c) c.written c.value := by
  intro n d h
  obtain ⟨out, hout, -, hget⟩ := expectedOutputs_eq h
  exact ⟨out, hout, hget⟩

/-- The primitive path writes every member with what ALLREDUCE writes. -/
theorem writes_primitivePath (c : Collective) :
    Writes c (primitivePath c) (c.withKind .allreduce).written
      (c.withKind .allreduce).value := by
  intro n d h
  have hvalue : (c.withKind .allreduce).value n d = laneSum n (memberBufs c d) := rfl
  obtain ⟨reduced, hreduce, -, hgetr⟩ := expectedOutputs_eq (h.withKind .reduce)
  have hroot : reduced.get? c.root = some (some (laneSum n (memberBufs c d))) := by
    rw [hgetr]
    simp [Collective.written, Collective.withKind, Collective.value, memberBufs]
  have hcov := h.set_root (length_laneSum n (memberBufs c d))
  obtain ⟨out, hbcast, -, hgetb⟩ := expectedOutputs_eq (hcov.withKind .bcast)
  refine ⟨out, ?_, fun ep => ?_⟩
  · have hindex : index reduced c.root = .ok (some (laneSum n (memberBufs c d))) := by
      rw [index, hroot]
    rw [primitivePath, hreduce]
    change (index reduced c.root).bind _ = _
    rw [hindex]
    exact hbcast
  · rw [hgetb, hvalue]
    have hpayload : (c.withKind .bcast).value n
        (d.set c.root (laneSum n (memberBufs c d))) = laneSum n (memberBufs c d) := by
      simp [Collective.value, Collective.withKind, Dict.getD]
    rw [hpayload]
    change (if ep ∈ c.members then _ else _) = if ep ∈ c.members then _ else _
    by_cases hep : ep ∈ c.members
    · rw [if_pos hep, if_pos hep]
    · have hne : ep ≠ c.root := fun heq => hep (heq ▸ c.root_mem)
      rw [if_neg hep, if_neg hep, Dict.get?_set_of_ne _ hne]

/-- Two computations that write the same agree, whole against blockwise. -/
theorem concat_blocks_eq_whole {f g : Dict Endpoint Buffer →
      Except Exception (Dict Endpoint (Option Buffer))}
    {written : List Endpoint} {value : ℕ → Dict Endpoint Buffer → Buffer}
    (hf : Writes c f written value) (hg : Writes c g written value) (hv : Splits c value)
    {cut : List ℕ} (hne : cut ≠ []) (h : Covers c inBufs cut.sum) :
    ∃ whole outs, g inBufs = .ok whole ∧ (cutBlocks cut inBufs).mapM f = .ok outs ∧
      ∀ ep, concatAt outs ep = whole.get? ep := by
  obtain ⟨whole, hwhole, hget⟩ := hg _ _ h
  obtain ⟨outs, houts, -, hconcat⟩ := concat_blocks hf hv hne h
  exact ⟨whole, outs, hwhole, houts, fun ep => (hconcat ep).trans (hget ep).symm⟩

/-- Mechanism equivalence. For all members and roots, buffers and cuts: the
primitive path over the blocks gives at every endpoint what one ALLREDUCE gives
over the whole buffers; and a whole REDUCE or BCAST is likewise the
concatenation of its blocks, with `none` at the same endpoints. -/
theorem primitivePath_eq_blockPath (c : Collective) (inBufs : Dict Endpoint Buffer)
    (cut : List ℕ) (hne : cut ≠ []) (h : Covers c inBufs cut.sum) :
    (∃ whole outs, expectedOutputs (c.withKind .allreduce) inBufs = .ok whole ∧
      (cutBlocks cut inBufs).mapM (primitivePath c) = .ok outs ∧
      ∀ ep, concatAt outs ep = whole.get? ep) ∧
    ∀ kind, kind = .reduce ∨ kind = .bcast →
      ∃ whole outs, expectedOutputs (c.withKind kind) inBufs = .ok whole ∧
        (cutBlocks cut inBufs).mapM (expectedOutputs (c.withKind kind)) = .ok outs ∧
        ∀ ep, concatAt outs ep = whole.get? ep := by
  constructor
  · exact concat_blocks_eq_whole (writes_primitivePath c)
      (writes_expectedOutputs (c.withKind .allreduce)) (splits_value_withKind c _) hne h
  · intro kind _
    exact concat_blocks_eq_whole (writes_expectedOutputs (c.withKind kind))
      (writes_expectedOutputs (c.withKind kind)) (splits_value _) hne h

/-- Two members, three lanes, cut after the first. -/
theorem primitivePath_eq_blockPath_pair :
    ∃ whole outs,
      expectedOutputs ⟨.allreduce, [0, 1], 0, by decide, by decide, by decide⟩
        ⟨[(0, [1, 2, 3]), (1, [4, 5, 6])], by decide⟩ = .ok whole ∧
      (cutBlocks [1, 2] ⟨[(0, [1, 2, 3]), (1, [4, 5, 6])], by decide⟩).mapM
        (primitivePath ⟨.reduce, [0, 1], 0, by decide, by decide, by decide⟩) = .ok outs ∧
      ∀ ep, concatAt outs ep = whole.get? ep :=
  (primitivePath_eq_blockPath ⟨.reduce, [0, 1], 0, by decide, by decide, by decide⟩
    ⟨[(0, [1, 2, 3]), (1, [4, 5, 6])], by decide⟩ [1, 2] (by decide) (by
      intro m hm
      rcases List.mem_cons.mp hm with rfl | hm
      · exact ⟨[1, 2, 3], rfl, rfl⟩
      · obtain rfl : m = 1 := by simpa using hm
        exact ⟨[4, 5, 6], rfl, rfl⟩)).1

end Reference
