import Mathlib.Data.List.ReduceOption
import Mathlib.Algebra.GroupWithZero.Nat
import Mathlib.Data.Finset.Card
import Mathlib.Order.Interval.Finset.Nat
import Spec2Inc.Clocked.Machine

/-!
# A shift pipeline that freezes as a whole

The pipeline has `L` slots, each empty or holding one token. In a cycle it is
stalled when the last slot holds a token that the consumer does not take; it
then keeps every slot, and otherwise shifts every token by one slot and admits
the next one into slot zero.

Two facts describe it completely. It is a queue: the tokens handed over,
followed by those still inside, are the tokens admitted (`gave_append_contents`).
And it counts progress: a token sits in slot `s` exactly when `s + 1` cycles
without a stall have passed since it was admitted (`slot_eq_some_iff`).
-/

namespace Clocked

namespace Pipeline

/-- The inputs of one cycle: the reset, the token offered and the consumer. -/
structure Input (α : Type*) where
  rstN : Bool
  enter : Option α
  ready : Bool

variable {L : ℕ} [NeZero L] {α : Type*}

/-- The output slot. -/
def last : Fin L := ⟨L - 1, Nat.sub_lt (Nat.pos_of_ne_zero (NeZero.ne L)) Nat.one_pos⟩

/-- The token at the output slot. -/
def out (q : Fin L → Option α) : Option α := q last

/-- A finished token is waiting and the consumer does not take it. -/
def stalled (q : Fin L → Option α) (i : Input α) : Bool :=
  (out q).isSome && !i.ready

omit [NeZero L] in
theorem sub_one_lt (s : Fin L) : s.val - 1 < L := by omega

/-- Every token moves one slot on, and `x` enters slot zero. -/
def shift (q : Fin L → Option α) (x : Option α) : Fin L → Option α :=
  fun s => if s.val = 0 then x else q ⟨s.val - 1, sub_one_lt s⟩

/-- The pipeline with all slots empty. -/
def empty : Fin L → Option α := fun _ => none

/-- The pipeline as a clocked machine. -/
def machine (L : ℕ) [NeZero L] (α : Type*) : Machine (Fin L → Option α) (Input α) where
  rstN := Input.rstN
  clear _ := empty
  edge q i :=
    if i.rstN then (if stalled q i then q else shift q i.enter) else empty

@[simp] theorem machine_rstN (i : Input α) :
    (machine L α).rstN i = i.rstN := rfl

@[simp] theorem machine_clear (q : Fin L → Option α) :
    (machine L α).clear q = empty := rfl

theorem edge_of_low {q : Fin L → Option α} {i : Input α} (h : i.rstN = false) :
    (machine L α).edge q i = empty := by
  simp [machine, h]

theorem edge_of_stalled {q : Fin L → Option α} {i : Input α}
    (h : i.rstN = true) (hs : stalled q i = true) :
    (machine L α).edge q i = q := by
  simp [machine, h, hs]

theorem edge_of_free {q : Fin L → Option α} {i : Input α}
    (h : i.rstN = true) (hs : stalled q i = false) :
    (machine L α).edge q i = shift q i.enter := by
  simp [machine, h, hs]

/-! ## The pipeline is a queue -/

/-- The tokens inside, read from the output slot down to slot zero. -/
def contents (q : Fin L → Option α) : List α :=
  (List.ofFn q).reverse.reduceOption

/-- The tokens admitted in a cycle. -/
def took (q : Fin L → Option α) (i : Input α) : List α :=
  if stalled q i then [] else i.enter.toList

/-- The tokens handed over in a cycle. -/
def gave (q : Fin L → Option α) (i : Input α) : List α :=
  if i.ready then (out q).toList else []

theorem contents_empty : contents (empty : Fin L → Option α) = [] := by
  simp [contents, empty, List.reduceOption]

omit [NeZero L] in
theorem length_contents_le (q : Fin L → Option α) : (contents q).length ≤ L :=
  (List.reduceOption_length_le _).trans (by simp)

omit [NeZero L] in
theorem ofFn_shift (q : Fin L → Option α) (x : Option α) :
    List.ofFn (shift q x) = (x :: List.ofFn q).dropLast := by
  apply List.ext_getElem
  · simp
  · intro s h₁ h₂
    cases s with
    | zero => simp [shift]
    | succ s => simp [shift]

theorem ofFn_ne_nil (q : Fin L → Option α) : List.ofFn q ≠ [] := by
  intro h
  have hlen := congrArg List.length h
  rw [List.length_ofFn] at hlen
  exact NeZero.ne L hlen

theorem getLast_ofFn (q : Fin L → Option α) :
    (List.ofFn q).getLast (ofFn_ne_nil q) = out q := by
  rw [List.getLast_ofFn]
  rfl

theorem reduceOption_singleton (x : Option α) :
    [x].reduceOption = x.toList := by
  cases x <;> rfl

/-- The output token stands first in the contents. -/
theorem contents_eq_out_append (q : Fin L → Option α) :
    contents q = (out q).toList ++ (List.ofFn q).dropLast.reverse.reduceOption := by
  have hsplit := List.dropLast_append_getLast (ofFn_ne_nil q)
  rw [getLast_ofFn] at hsplit
  calc contents q
      = ((List.ofFn q).dropLast ++ [out q]).reverse.reduceOption := by rw [hsplit]; rfl
    _ = ([out q] ++ (List.ofFn q).dropLast.reverse).reduceOption := by simp
    _ = (out q).toList ++ (List.ofFn q).dropLast.reverse.reduceOption := by
        rw [List.reduceOption_append, reduceOption_singleton]

/-- A shift drops the output token and appends the one that enters. -/
theorem contents_shift (q : Fin L → Option α) (x : Option α) :
    contents (shift q x) = (List.ofFn q).dropLast.reverse.reduceOption ++ x.toList := by
  rw [contents, ofFn_shift, List.dropLast_cons_of_ne_nil (ofFn_ne_nil q),
    List.reverse_cons, List.reduceOption_append, reduceOption_singleton]

/-- One cycle moves the token handed over out and the token admitted in. -/
theorem gave_append_contents_edge (q : Fin L → Option α) (i : Input α)
    (h : i.rstN = true) :
    gave q i ++ contents ((machine L α).edge q i) = contents q ++ took q i := by
  cases hs : stalled q i with
  | true =>
      have hready : i.ready = false := by
        simp only [stalled, Bool.and_eq_true] at hs
        simpa using hs.2
      rw [edge_of_stalled h hs]
      simp [gave, took, hready, hs]
  | false =>
      have hgave : gave q i = (out q).toList := by
        cases hready : i.ready with
        | true => simp [gave, hready]
        | false =>
            have hnone : out q = none := by simpa [stalled, hready] using hs
            simp [gave, hready, hnone]
      rw [edge_of_free h hs, contents_shift, hgave, contents_eq_out_append]
      simp [took, hs]

/-- The queue law over whole runs, with resets at any cycles. -/
theorem gave_append_contents (inp : ℕ → Input α) (t : ℕ) :
    sinceReset (fun k => (inp k).rstN)
        (fun k => gave ((machine L α).at' empty inp k) (inp k)) t ++
        contents ((machine L α).at' empty inp t) =
      sinceReset (fun k => (inp k).rstN)
        (fun k => took ((machine L α).at' empty inp k) (inp k)) t :=
  conservation (M := machine L α) (fun _ => contents_empty)
    (fun _ _ h _ => by rw [edge_of_low h, contents_empty])
    gave_append_contents_edge contents_empty inp t

/-! ## Counting progress -/

/-- The number of cycles in `[t, u)` in which `free` holds. -/
def progress (free : ℕ → Bool) (t u : ℕ) : ℕ :=
  ((Finset.Ico t u).filter fun k => free k).card

section Progress

variable (free : ℕ → Bool)

@[simp] theorem progress_self (t : ℕ) : progress free t t = 0 := by
  simp [progress]

theorem progress_succ {t u : ℕ} (h : t ≤ u) :
    progress free t (u + 1) = progress free t u + if free u then 1 else 0 := by
  rw [progress, Nat.Ico_succ_right_eq_insert_Ico h, Finset.filter_insert]
  cases hu : free u <;> simp [progress]

/-- Starting at a free cycle counts that cycle, so a later start counts less. -/
theorem progress_lt {t t' u : ℕ} (htt' : t < t') (hu : t' ≤ u) (ht : free t = true) :
    progress free t' u < progress free t u := by
  refine Finset.card_lt_card ⟨?_, ?_⟩
  · intro k hk
    simp only [Finset.mem_filter, Finset.mem_Ico] at hk ⊢
    exact ⟨⟨by omega, hk.1.2⟩, hk.2⟩
  · intro hsub
    have hmem : t ∈ (Finset.Ico t u).filter fun k => free k := by
      simp [ht]
      omega
    have := hsub hmem
    simp only [Finset.mem_filter, Finset.mem_Ico] at this
    omega

/-- Two free starting cycles with the same progress are one. -/
theorem progress_injective {t t' u : ℕ} (ht : free t = true) (ht' : free t' = true)
    (htu : t < u) (htu' : t' < u) (h : progress free t u = progress free t' u) :
    t = t' := by
  rcases Nat.lt_trichotomy t t' with hlt | heq | hgt
  · exact absurd h (progress_lt free hlt htu'.le ht).ne'
  · exact heq
  · exact absurd h (progress_lt free hgt htu.le ht').ne

/-- Free and stalled cycles add up to the length of the window. -/
theorem progress_add_progress_not {t u : ℕ} (h : t ≤ u) :
    progress free t u + progress (fun k => !free k) t u = u - t := by
  induction u, h using Nat.le_induction with
  | base => simp
  | succ u h ih =>
      rw [progress_succ free h, progress_succ _ h]
      cases hu : free u <;> simp <;> omega

end Progress

/-- No token is held up in cycle `k`. -/
def free (q₀ : Fin L → Option α) (inp : ℕ → Input α) (k : ℕ) : Bool :=
  !stalled ((machine L α).at' q₀ inp k) (inp k)

omit [NeZero L] in
theorem shift_eq_some_iff (q : Fin L → Option α) (y : Option α) (s : Fin L) (x : α) :
    shift q y s = some x ↔
      (s.val = 0 ∧ y = some x) ∨
        ∃ s' : Fin L, s'.val + 1 = s.val ∧ q s' = some x := by
  by_cases h : s.val = 0
  · simp [shift, h]
  · simp only [shift, h, if_false, false_and, false_or]
    constructor
    · intro hq
      exact ⟨⟨s.val - 1, sub_one_lt s⟩, by simp; omega, hq⟩
    · rintro ⟨s', hs', hq⟩
      rw [← hq]
      congr 1
      ext
      simp [← hs']

section Admitted

variable (q₀ : Fin L → Option α) (inp : ℕ → Input α)

/-- `x` was admitted in a cycle after `r`, and `n` cycles without a stall have
passed from that cycle up to `u`. -/
def Admitted (r u n : ℕ) (x : α) : Prop :=
  ∃ t, r < t ∧ t < u ∧ free q₀ inp t = true ∧ (inp t).enter = some x ∧
    progress (free q₀ inp) t u = n

variable {q₀ inp} {r u n : ℕ} {x : α}

theorem not_admitted_of_le (h : u ≤ r + 1) : ¬ Admitted q₀ inp r u n x := by
  rintro ⟨t, hrt, htu, -⟩
  omega

/-- The cycle of admission itself counts. -/
theorem Admitted.pos (h : Admitted q₀ inp r u n x) : 0 < n := by
  obtain ⟨t, -, htu, hfree, -, rfl⟩ := h
  have hpos := progress_lt (free q₀ inp) htu le_rfl hfree
  rwa [progress_self] at hpos

theorem admitted_succ_of_stalled (hu : free q₀ inp u = false) :
    Admitted q₀ inp r (u + 1) n x ↔ Admitted q₀ inp r u n x := by
  refine exists_congr fun t => ?_
  constructor
  · rintro ⟨hrt, htu, hfree, henter, hn⟩
    have hne : t ≠ u := by
      rintro rfl
      cases hu.symm.trans hfree
    have htu : t < u := by omega
    rw [progress_succ _ htu.le, hu] at hn
    exact ⟨hrt, htu, hfree, henter, hn⟩
  · rintro ⟨hrt, htu, hfree, henter, hn⟩
    refine ⟨hrt, by omega, hfree, henter, ?_⟩
    rw [progress_succ _ htu.le, hu, hn]
    rfl

theorem admitted_succ_of_free (hru : r < u) (hu : free q₀ inp u = true) :
    Admitted q₀ inp r (u + 1) (n + 1) x ↔
      (n = 0 ∧ (inp u).enter = some x) ∨ Admitted q₀ inp r u n x := by
  constructor
  · rintro ⟨t, hrt, htu, hfree, henter, hn⟩
    rcases (Nat.lt_succ_iff.mp htu).eq_or_lt with rfl | htu
    · rw [progress_succ _ le_rfl, hu, progress_self] at hn
      simp only [if_true] at hn
      exact Or.inl ⟨by omega, henter⟩
    · rw [progress_succ _ htu.le, hu] at hn
      exact Or.inr ⟨t, hrt, htu, hfree, henter, by simpa using hn⟩
  · rintro (⟨rfl, henter⟩ | ⟨t, hrt, htu, hfree, henter, hn⟩)
    · refine ⟨u, hru, by omega, hu, henter, ?_⟩
      rw [progress_succ _ le_rfl, hu, progress_self]
      rfl
    · refine ⟨t, hrt, by omega, hfree, henter, ?_⟩
      rw [progress_succ _ htu.le, hu, hn]
      rfl

end Admitted

/-- A token sits in slot `s` exactly when `s + 1` cycles without a stall have
passed since it was admitted. The run is arbitrary up to its reset in cycle
`r`, and has no reset after it. -/
theorem slot_eq_some_iff (q₀ : Fin L → Option α) (inp : ℕ → Input α) {r u : ℕ}
    (hru : r ≤ u) (hr : (inp r).rstN = false)
    (hrun : ∀ k, r < k → k ≤ u → (inp k).rstN = true) (s : Fin L) (x : α) :
    (machine L α).at' q₀ inp u s = some x ↔ Admitted q₀ inp r u (s.val + 1) x := by
  induction u, hru using Nat.le_induction generalizing s with
  | base =>
      rw [Machine.at'_of_low _ (by simpa using hr)]
      exact iff_of_false (by simp [empty]) (not_admitted_of_le (Nat.le_succ r))
  | succ u hru ih =>
      rw [Machine.at'_succ_of_high _ (by simpa using hrun (u + 1) (by omega) le_rfl)]
      rcases hru.eq_or_lt with rfl | hlt
      · rw [edge_of_low hr]
        exact iff_of_false (by simp [empty]) (not_admitted_of_le le_rfl)
      · have hhigh := hrun u hlt (by omega)
        have ih' := ih fun k hk hku => hrun k hk (by omega)
        cases hs : stalled ((machine L α).at' q₀ inp u) (inp u) with
        | true =>
            rw [edge_of_stalled hhigh hs, ih', admitted_succ_of_stalled (by simp [free, hs])]
        | false =>
            rw [edge_of_free hhigh hs, shift_eq_some_iff,
              admitted_succ_of_free hlt (by simp [free, hs])]
            refine or_congr_right ?_
            constructor
            · rintro ⟨s', hs', hq⟩
              exact hs' ▸ (ih' s').mp hq
            · intro hadmitted
              have hpos := hadmitted.pos
              refine ⟨⟨s.val - 1, sub_one_lt s⟩, by simp only; omega, (ih' _).mpr ?_⟩
              have hslot : s.val - 1 + 1 = s.val := by omega
              rwa [hslot]

end Pipeline

end Clocked
