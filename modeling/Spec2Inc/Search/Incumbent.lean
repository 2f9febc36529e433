import Mathlib.Data.List.Induction
import Mathlib.Order.Lattice

/-!
# The best of a sequence of measurements

A search measures one candidate after another and keeps the best score. It
stores a candidate only when that differs from the one stored last, and keeps
the place of the best: a `Ledger` is what it then knows, without how it is
stored. The place holds the candidate of the last fresh measurement, one that
beats all before it on another candidate than the last (`isMark_iff`). That is
the candidate of the best score exactly when the first measurement with this
score was fresh, or its candidate was the one kept before (`kept_eq_iff`).
-/

namespace Incumbent

variable {κ ν : Type*} [LinearOrder ν]

/-- A candidate with its score, absent when it is not usable. -/
structure Measurement (κ ν : Type*) where
  content : κ
  score : Option ν
  deriving DecidableEq

/-- The candidate is strictly better than the best so far. -/
def improves (now best : Option ν) : Bool :=
  now.any fun n => best.all fun b => n < b

theorem improves_eq_true_iff {now best : Option ν} :
    improves now best = true ↔ ∃ n, now = some n ∧ ∀ b ∈ best, n < b := by
  cases now with
  | none => simp [improves]
  | some n => cases best <;> simp [improves]

/-- Nothing improves on a best score that already takes it into account. -/
theorem improves_updated (now best : Option ν) :
    improves now (if improves now best then now else best) = false := by
  by_cases h : improves now best = true
  · rw [if_pos h]
    cases now <;> simp [improves]
  · rw [if_neg h]
    exact Bool.eq_false_of_not_eq_true h

/-- The best score, the candidate stored last, and the one kept as the best. -/
structure Ledger (κ ν : Type*) where
  best : Option ν
  stored : κ
  kept : κ

variable [DecidableEq κ]

def Ledger.next (l : Ledger κ ν) (m : Measurement κ ν) : Ledger κ ν where
  best := if improves m.score l.best then m.score else l.best
  stored := m.content
  kept := if improves m.score l.best && m.content ≠ l.stored then m.content else l.kept

/-- The ledger after a sequence of measurements, from one stored candidate. -/
def ledger (start : κ) (ms : List (Measurement κ ν)) : Ledger κ ν :=
  ms.foldl Ledger.next ⟨none, start, start⟩

@[simp] theorem ledger_nil (start : κ) :
    ledger start ([] : List (Measurement κ ν)) = ⟨none, start, start⟩ := rfl

theorem ledger_concat (start : κ) (ms : List (Measurement κ ν)) (m : Measurement κ ν) :
    ledger start (ms ++ [m]) = (ledger start ms).next m := by
  rw [ledger, List.foldl_append]
  rfl

omit [DecidableEq κ] in
/-- The score is the least of the measured ones. -/
def IsBest (ms : List (Measurement κ ν)) (b : ν) : Prop :=
  (∃ m ∈ ms, m.score = some b) ∧ ∀ m ∈ ms, ∀ n ∈ m.score, b ≤ n

omit [DecidableEq κ] in
theorem IsBest.unique {ms : List (Measurement κ ν)} {b b' : ν} (h : IsBest ms b)
    (h' : IsBest ms b') : b = b' := by
  obtain ⟨m, hm, hscore⟩ := h.1
  obtain ⟨m', hm', hscore'⟩ := h'.1
  exact le_antisymm (h.2 m' hm' b' hscore') (h'.2 m hm b hscore)

omit [DecidableEq κ] in
/-- `best` is the least score, or absent when there is none. -/
structure Summarizes (ms : List (Measurement κ ν)) (best : Option ν) : Prop where
  isBest : ∀ b, best = some b → IsBest ms b
  absent : best = none → ∀ m ∈ ms, m.score = none

omit [DecidableEq κ] in
theorem Summarizes.concat_of_improves {ms : List (Measurement κ ν)} {best : Option ν}
    (h : Summarizes ms best) {m : Measurement κ ν} (himp : improves m.score best = true) :
    Summarizes (ms ++ [m]) m.score := by
  obtain ⟨n, hn, hlt⟩ := improves_eq_true_iff.mp himp
  rw [hn]
  refine ⟨fun b hb => ?_, fun hnone => ?_⟩
  · obtain rfl := Option.some.inj hb
    refine ⟨⟨m, by simp, hn⟩, fun m' hm' n' hn' => ?_⟩
    rcases List.mem_append.mp hm' with hm' | hm'
    · cases hbest : best with
      | none =>
          rw [h.absent hbest m' hm'] at hn'
          cases hn'
      | some b => exact (hlt b hbest).le.trans ((h.isBest b hbest).2 m' hm' n' hn')
    · obtain rfl := List.mem_singleton.mp hm'
      obtain rfl := Option.some.inj (hn.symm.trans hn')
      exact le_rfl
  · cases hnone

omit [DecidableEq κ] in
theorem Summarizes.concat_of_not_improves {ms : List (Measurement κ ν)} {best : Option ν}
    (h : Summarizes ms best) {m : Measurement κ ν} (himp : ¬ improves m.score best = true) :
    Summarizes (ms ++ [m]) best := by
  have hge : ∀ n ∈ m.score, ∃ b, best = some b ∧ b ≤ n := by
    intro n hn
    by_contra hall
    refine himp (improves_eq_true_iff.mpr ⟨n, hn, fun b hb => ?_⟩)
    exact lt_of_not_ge fun hle => hall ⟨b, hb, hle⟩
  refine ⟨fun b hb => ?_, fun hnone m' hm' => ?_⟩
  · obtain ⟨⟨m', hm', hscore⟩, hmin⟩ := h.isBest b hb
    refine ⟨⟨m', List.mem_append_left _ hm', hscore⟩, fun m'' hm'' n hn => ?_⟩
    rcases List.mem_append.mp hm'' with hm'' | hm''
    · exact hmin m'' hm'' n hn
    · obtain rfl := List.mem_singleton.mp hm''
      obtain ⟨b', hb', hle⟩ := hge n hn
      obtain rfl := Option.some.inj (hb.symm.trans hb')
      exact hle
  · rcases List.mem_append.mp hm' with hm' | hm'
    · exact h.absent hnone m' hm'
    · obtain rfl := List.mem_singleton.mp hm'
      refine Option.eq_none_iff_forall_not_mem.mpr fun n hn => ?_
      obtain ⟨b, hb, -⟩ := hge n hn
      cases hnone.symm.trans hb

omit [DecidableEq κ] in
/-- Keeping the better of the two keeps the least. -/
theorem Summarizes.concat {ms : List (Measurement κ ν)} {best : Option ν}
    (h : Summarizes ms best) (m : Measurement κ ν) :
    Summarizes (ms ++ [m]) (if improves m.score best then m.score else best) := by
  by_cases himp : improves m.score best = true
  · rw [if_pos himp]
    exact h.concat_of_improves himp
  · rw [if_neg himp]
    exact h.concat_of_not_improves himp

omit [DecidableEq κ] in
/-- A score improves on the least of some measurements when it beats them all. -/
theorem Summarizes.improves_iff {ms : List (Measurement κ ν)} {best now : Option ν}
    (h : Summarizes ms best) :
    improves now best = true ↔ ∃ n, now = some n ∧ ∀ m ∈ ms, ∀ n' ∈ m.score, n < n' := by
  rw [improves_eq_true_iff]
  constructor
  · rintro ⟨n, hn, hlt⟩
    refine ⟨n, hn, fun m hm n' hn' => ?_⟩
    cases hbest : best with
    | none =>
        rw [h.absent hbest m hm] at hn'
        cases hn'
    | some b => exact (hlt b hbest).trans_le ((h.isBest b hbest).2 m hm n' hn')
  · rintro ⟨n, hn, hlt⟩
    refine ⟨n, hn, fun b hb => ?_⟩
    obtain ⟨⟨m, hm, hscore⟩, -⟩ := h.isBest b hb
    exact hlt m hm b hscore

theorem summarizes_ledger (start : κ) (ms : List (Measurement κ ν)) :
    Summarizes ms (ledger start ms).best := by
  induction ms using List.reverseRecOn with
  | nil => exact ⟨fun b hb => (Option.some_ne_none b hb.symm).elim, fun _ => by simp⟩
  | append_singleton ms m ih =>
      rw [ledger_concat]
      exact ih.concat m

/-- A measurement improves on the ledger when it beats all before it. -/
theorem improves_ledger_iff {start : κ} {ms : List (Measurement κ ν)} {m : Measurement κ ν} :
    improves m.score (ledger start ms).best = true ↔
      ∃ n, m.score = some n ∧ ∀ m' ∈ ms, ∀ n' ∈ m'.score, n < n' :=
  (summarizes_ledger start ms).improves_iff

omit [DecidableEq κ] in
/-- Measurement `m` is the first with score `b`, after those of `before`. -/
structure FirstWith (ms : List (Measurement κ ν)) (b : ν)
    (before : List (Measurement κ ν)) (m : Measurement κ ν) : Prop where
  split : before ++ [m] <+: ms
  score : m.score = some b
  first : ∀ m' ∈ before, m'.score ≠ some b

omit [DecidableEq κ] in
theorem exists_firstWith {ms : List (Measurement κ ν)} {b : ν}
    (h : ∃ m ∈ ms, m.score = some b) : ∃ before m, FirstWith ms b before m := by
  induction ms with
  | nil => simp at h
  | cons m ms ih =>
      by_cases hm : m.score = some b
      · exact ⟨[], m, ⟨by simp, hm, by simp⟩⟩
      · obtain ⟨m', hm', hscore⟩ := h
        rcases List.mem_cons.mp hm' with rfl | hm'
        · exact absurd hscore hm
        · obtain ⟨before, m₁, hsplit, hscore₁, hfirst⟩ := ih ⟨m', hm', hscore⟩
          refine ⟨m :: before, m₁, ⟨?_, hscore₁, ?_⟩⟩
          · exact List.prefix_cons_inj m |>.mpr hsplit
          · intro m₂ hm₂
            rcases List.mem_cons.mp hm₂ with rfl | hm₂
            · exact hm
            · exact hfirst m₂ hm₂

omit [DecidableEq κ] [LinearOrder ν] in
theorem FirstWith.unique {ms : List (Measurement κ ν)} {b : ν}
    {before before' : List (Measurement κ ν)} {m m' : Measurement κ ν}
    (h : FirstWith ms b before m) (h' : FirstWith ms b before' m') :
    before = before' ∧ m = m' := by
  rcases List.prefix_or_prefix_of_prefix h.split h'.split with hsplit | hsplit
  · rcases List.prefix_concat_iff.mp hsplit with heq | hsplit
    · exact List.append_singleton_inj.mp heq
    · exact absurd h.score (h'.first m (hsplit.subset (by simp)))
  · rcases List.prefix_concat_iff.mp hsplit with heq | hsplit
    · obtain ⟨hbefore, hm⟩ := List.append_singleton_inj.mp heq
      exact ⟨hbefore.symm, hm.symm⟩
    · exact absurd h'.score (h.first m' (hsplit.subset (by simp)))

/-- The first measurement with the best score improves, and no later one does:
what is kept in the end was decided there. -/
theorem kept_ledger {start : κ} {ms : List (Measurement κ ν)} {b : ν} (hb : IsBest ms b)
    {before : List (Measurement κ ν)} {m : Measurement κ ν} (hm : FirstWith ms b before m) :
    (ledger start ms).kept =
      if m.content ≠ (ledger start before).stored then m.content
      else (ledger start before).kept := by
  obtain ⟨after, rfl⟩ := hm.split
  induction after using List.reverseRecOn with
  | nil =>
      have himp : improves m.score (ledger start before).best = true := by
        refine improves_ledger_iff.mpr ⟨b, hm.score, fun m' hm' b' hb' => ?_⟩
        refine lt_of_le_of_ne (hb.2 m' (by simp [hm']) b' hb') ?_
        rintro rfl
        exact hm.first m' hm' hb'
      rw [List.append_nil, ledger_concat, Ledger.next, himp]
      simp
  | append_singleton after m' ih =>
      have hsplit : before ++ [m] <+: before ++ [m] ++ after := List.prefix_append _ _
      have hbest : IsBest (before ++ [m] ++ after) b :=
        ⟨⟨m, by simp, hm.score⟩, fun m₁ hm₁ n hn =>
          hb.2 m₁ (by rw [← List.append_assoc]; exact List.mem_append_left _ hm₁) n hn⟩
      have hnot : improves m'.score (ledger start (before ++ [m] ++ after)).best = false := by
        rw [Bool.eq_false_iff]
        intro himp
        obtain ⟨n, hn, hlt⟩ := improves_ledger_iff.mp himp
        have hle := hb.2 m' (by simp) n hn
        exact absurd (hlt m (by simp) b hm.score) (not_lt_of_ge hle)
      rw [← List.append_assoc, ledger_concat, Ledger.next, hnot, ← ih hbest
        ⟨hsplit, hm.score, hm.first⟩]
      simp

/-! ## What is kept, from the measurements alone -/

omit [DecidableEq κ] [LinearOrder ν] in
/-- The candidate measured last, or the one the search starts from. -/
def lastContent (start : κ) (ms : List (Measurement κ ν)) : κ :=
  (ms.getLast?.map Measurement.content).getD start

theorem stored_ledger (start : κ) (ms : List (Measurement κ ν)) :
    (ledger start ms).stored = lastContent start ms := by
  induction ms using List.reverseRecOn with
  | nil => rfl
  | append_singleton ms m ih =>
      rw [ledger_concat, lastContent, List.getLast?_concat]
      rfl

omit [DecidableEq κ] in
/-- Measurement `m` beats all before it, on another candidate than the last. -/
structure Fresh (start : κ) (before : List (Measurement κ ν)) (m : Measurement κ ν) :
    Prop where
  changed : m.content ≠ lastContent start before
  beats : ∃ n, m.score = some n ∧ ∀ m' ∈ before, ∀ n' ∈ m'.score, n < n'

theorem fresh_iff {start : κ} {ms : List (Measurement κ ν)} {m : Measurement κ ν} :
    Fresh start ms m ↔ (improves m.score (ledger start ms).best &&
      m.content ≠ (ledger start ms).stored) = true := by
  rw [Bool.and_eq_true, improves_ledger_iff, stored_ledger, decide_eq_true_eq]
  exact ⟨fun h => ⟨h.beats, h.changed⟩, fun h => ⟨h.2, h.1⟩⟩

omit [DecidableEq κ] in
/-- `c` is the candidate of the last fresh measurement, or the start when no
measurement was fresh. -/
def IsMark (start : κ) (ms : List (Measurement κ ν)) (c : κ) : Prop :=
  (∃ before m, (before ++ [m] <+: ms ∧ Fresh start before m) ∧ m.content = c ∧
    ∀ before' m', (before' ++ [m'] <+: ms ∧ Fresh start before' m') →
      before'.length ≤ before.length) ∨
  c = start ∧ ∀ before m, ¬ (before ++ [m] <+: ms ∧ Fresh start before m)

omit [DecidableEq κ] in
theorem isMark_concat_of_fresh {start : κ} {ms : List (Measurement κ ν)}
    {m : Measurement κ ν} (h : Fresh start ms m) {c : κ} :
    IsMark start (ms ++ [m]) c ↔ m.content = c := by
  have hself : ms ++ [m] <+: ms ++ [m] := List.prefix_rfl
  constructor
  · rintro (⟨before, m', ⟨hsplit, -⟩, hc, hlast⟩ | ⟨-, hnone⟩)
    · have hle := hlast ms m ⟨hself, h⟩
      have heq : before ++ [m'] = ms ++ [m] := by
        refine hsplit.eq_of_length_le ?_
        simpa using hle
      rw [← (List.append_inj' heq rfl).2 |> List.singleton_inj.mp]
      exact hc
    · exact absurd ⟨hself, h⟩ (hnone ms m)
  · intro hc
    refine Or.inl ⟨ms, m, ⟨hself, h⟩, hc, fun before' m' hsplit => ?_⟩
    simpa using hsplit.1.length_le

omit [DecidableEq κ] in
theorem isMark_concat_of_not_fresh {start : κ} {ms : List (Measurement κ ν)}
    {m : Measurement κ ν} (h : ¬ Fresh start ms m) {c : κ} :
    IsMark start (ms ++ [m]) c ↔ IsMark start ms c := by
  have hsame : ∀ before m', (before ++ [m'] <+: ms ++ [m] ∧ Fresh start before m') ↔
      (before ++ [m'] <+: ms ∧ Fresh start before m') := by
    intro before m'
    rw [List.prefix_concat_iff]
    constructor
    · rintro ⟨heq | hsplit, hfresh⟩
      · obtain ⟨rfl, hm⟩ := List.append_inj' heq rfl
        obtain rfl := List.singleton_inj.mp hm
        exact absurd hfresh h
      · exact ⟨hsplit, hfresh⟩
    · exact fun ⟨hsplit, hfresh⟩ => ⟨Or.inr hsplit, hfresh⟩
  simp only [IsMark, hsame]

/-- What is kept is the candidate of the last fresh measurement. -/
theorem isMark_iff {start : κ} {ms : List (Measurement κ ν)} {c : κ} :
    IsMark start ms c ↔ (ledger start ms).kept = c := by
  induction ms using List.reverseRecOn with
  | nil =>
      rw [IsMark, ledger_nil]
      constructor
      · rintro (⟨before, m, ⟨hsplit, -⟩, -⟩ | ⟨hc, -⟩)
        · exact absurd (List.prefix_nil.mp hsplit) (by simp)
        · exact hc.symm
      · intro hc
        exact Or.inr ⟨hc.symm, fun before m hfresh =>
          absurd (List.prefix_nil.mp hfresh.1) (by simp)⟩
  | append_singleton ms m ih =>
      by_cases h : Fresh start ms m
      · rw [isMark_concat_of_fresh h, ledger_concat, Ledger.next, if_pos (fresh_iff.mp h)]
      · rw [isMark_concat_of_not_fresh h, ih, ledger_concat, Ledger.next,
          if_neg fun hf => h (fresh_iff.mpr hf)]

/-- What is kept is the candidate of the best score exactly when the first
measurement with that score was of another candidate than the one before, or
its candidate was kept already. -/
theorem kept_eq_iff {start : κ} {ms : List (Measurement κ ν)} {b : ν} (hb : IsBest ms b)
    {before : List (Measurement κ ν)} {m : Measurement κ ν} (hm : FirstWith ms b before m) :
    (ledger start ms).kept = m.content ↔
      m.content ≠ lastContent start before ∨ IsMark start before m.content := by
  rw [kept_ledger hb hm, stored_ledger, isMark_iff]
  by_cases h : m.content = lastContent start before
  · simp [h]
  · simp [h]

end Incumbent
