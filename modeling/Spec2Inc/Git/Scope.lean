import Spec2Inc.Git.Repo

/-!
# A script that edits one file on one branch

`Within` says what a script has touched since it started: other branches point
where they did, every commit it made is on top of the starting one, and all its
commits, the index and the working tree differ from the starting commit in one
file, whose content is one that was allowed. Each command keeps this, whether it
succeeds or is refused, so a script that writes no other file and no other
content is within its scope wherever it is left.
-/

namespace Git

variable {π κ : Type} [DecidableEq π] [DecidableEq κ]

omit [DecidableEq κ] in
/-- The tree is `t₀` with an allowed content of the file `p`. -/
structure Edits (t₀ : Tree π κ) (p : π) (Allowed : Option κ → Prop) (t : Tree π κ) : Prop where
  other : ∀ q, q ≠ p → t.get? q = t₀.get? q
  self : Allowed (t.get? p)

section Edits

variable {t₀ t t' : Tree π κ} {p : π} {Allowed : Option κ → Prop}

omit [DecidableEq κ] in
theorem Edits.set (h : Edits t₀ p Allowed t) {content : κ} (hcontent : Allowed (some content)) :
    Edits t₀ p Allowed (t.set p content) where
  other q hq := (Dict.get?_set_of_ne _ hq content).trans (h.other q hq)
  self := by rwa [Dict.get?_set_self]

omit [DecidableEq κ] in
theorem Edits.erase (h : Edits t₀ p Allowed t) (hnone : Allowed none) :
    Edits t₀ p Allowed (t.erase p) where
  other q hq := by rw [Dict.get?_erase, if_neg hq, h.other q hq]
  self := by rwa [Dict.get?_erase, if_pos rfl]

omit [DecidableEq κ] in
/-- A pass over some files, each of which gets its own value or keeps it. -/
theorem get?_foldl {f : Tree π κ → π → Tree π κ} {q : π} (value : Option κ) (P : Prop)
    [Decidable P]
    (hstep : ∀ t p, (f t p).get? q = if q = p ∧ P then value else t.get? q)
    (l : List π) (t : Tree π κ) :
    (l.foldl f t).get? q = if q ∈ l ∧ P then value else t.get? q := by
  induction l generalizing t with
  | nil => rw [List.foldl_nil, if_neg fun h => List.not_mem_nil h.1]
  | cons p l ih =>
      rw [List.foldl_cons, ih, hstep]
      by_cases hmem : q ∈ l ∧ P
      · rw [if_pos hmem, if_pos ⟨List.mem_cons_of_mem p hmem.1, hmem.2⟩]
      · rw [if_neg hmem]
        by_cases hq : q = p ∧ P
        · rw [if_pos hq, if_pos ⟨hq.1 ▸ List.mem_cons_self, hq.2⟩]
        · rw [if_neg hq, if_neg]
          rintro ⟨hcons, hP⟩
          rcases List.mem_cons.mp hcons with heq | htail
          · exact hq ⟨heq, hP⟩
          · exact hmem ⟨htail, hP⟩

/-- What is the same in both commits stays as it is, and the rest is replaced. -/
theorem get?_carry (old new t : Tree π κ) (q : π) :
    (Repo.carry old new t).get? q =
      if old.get? q = new.get? q then t.get? q else new.get? q := by
  rw [Repo.carry, get?_foldl (new.get? q) (old.get? q ≠ new.get? q)]
  · by_cases hsame : old.get? q = new.get? q
    · rw [if_pos hsame, if_neg fun h => h.2 hsame]
    · have hmem : q ∈ old.keys ++ new.keys := by
        by_contra hmem
        rw [List.mem_append, not_or] at hmem
        exact hsame (((Dict.get?_eq_none_iff _ _).mpr hmem.1).trans
          ((Dict.get?_eq_none_iff _ _).mpr hmem.2).symm)
      rw [if_neg hsame, if_pos ⟨hmem, hsame⟩]
  · intro t p
    by_cases hsame : old.get? p = new.get? p
    · rw [if_pos hsame, if_neg]
      rintro ⟨rfl, hne⟩
      exact hne hsame
    · rw [if_neg hsame]
      by_cases hq : q = p
      · subst hq
        rw [if_pos ⟨rfl, hsame⟩]
        cases hnew : new.get? q with
        | some content => exact Dict.get?_set_self _ _ _
        | none => exact (Dict.get?_erase _ _ _).trans (if_pos rfl)
      · rw [if_neg fun h => hq h.1]
        cases hnew : new.get? p with
        | some content => exact Dict.get?_set_of_ne _ hq _
        | none => exact (Dict.get?_erase _ _ _).trans (if_neg hq)

end Edits

namespace Repo

variable {start r r' : Repo π κ} {name : String} {p : π} {Allowed : Option κ → Prop}

omit [DecidableEq κ] in
/-- What the script has touched since `start`. -/
structure Within (start : Repo π κ) (name : String) (p : π) (Allowed : Option κ → Prop)
    (r : Repo π κ) : Prop where
  branch : r.branch = name
  refs : ∀ other, other ≠ name → r.refs.get? other = start.refs.get? other
  history : ∃ made, r.head.history = made ++ start.head.history ∧
    ∀ rev ∈ made, Edits start.head.tree p Allowed rev.tree
  head : Edits start.head.tree p Allowed r.head.tree
  index : Edits start.head.tree p Allowed r.index
  work : Edits start.head.tree p Allowed r.work

omit [DecidableEq κ] in
theorem Within.write (h : Within start name p Allowed r) {content : κ}
    (hcontent : Allowed (some content)) : Within start name p Allowed (r.write p content) :=
  { h with work := h.work.set hcontent }

omit [DecidableEq κ] in
/-- What is staged is in the working tree. -/
theorem Within.add (h : Within start name p Allowed r) (hadd : r.add p = .ok r') :
    Within start name p Allowed r' := by
  have hallowed := h.work.self
  rw [Repo.add] at hadd
  split at hadd
  · rename_i content hcontent
    obtain rfl := Except.ok.inj hadd
    exact { h with index := h.index.set (hcontent ▸ hallowed) }
  · rename_i hnone
    split at hadd
    · obtain rfl := Except.ok.inj hadd
      exact { h with index := h.index.erase (hnone ▸ hallowed) }
    · cases hadd

omit [DecidableEq κ] in
theorem Within.committed (h : Within start name p Allowed r) (message : List String) :
    Within start name p Allowed (r.committed message) := by
  obtain ⟨made, hhistory, hmade⟩ := h.history
  exact
    { branch := h.branch
      refs := fun other hother =>
        (Dict.get?_set_of_ne _ (h.branch ▸ hother) _).trans (h.refs other hother)
      history := ⟨⟨r.index, message⟩ :: made, congrArg (List.cons _) hhistory,
        List.forall_mem_cons.mpr ⟨h.index, hmade⟩⟩
      head := h.index
      index := h.index
      work := h.work }

theorem Within.commit (h : Within start name p Allowed r) {message : List String}
    (hcommit : r.commit message = .ok r') : Within start name p Allowed r' := by
  rw [Repo.commit] at hcommit
  split at hcommit
  · cases hcommit
  · obtain rfl := Except.ok.inj hcommit
    exact h.committed message

/-- Also when one of the two commands is refused. -/
theorem Within.commitFile (h : Within start name p Allowed r) (message : List String) :
    Within start name p Allowed (r.commitFile p message).1 := by
  rw [Repo.commitFile]
  split
  · exact h
  · rename_i r₁ hadd
    split
    · exact h.add hadd
    · rename_i r₂ hcommit
      exact (h.add hadd).commit hcommit

omit [DecidableEq κ] in
theorem Within.checkoutPath (h : Within start name p Allowed r) {c : Commit π κ}
    (hc : Allowed (c.tree.get? p)) (hcheckout : r.checkoutPath c p = .ok r') :
    Within start name p Allowed r' := by
  rw [Repo.checkoutPath] at hcheckout
  split at hcheckout
  · rename_i content hcontent
    obtain rfl := Except.ok.inj hcheckout
    exact { h with index := h.index.set (hcontent ▸ hc), work := h.work.set (hcontent ▸ hc) }
  · cases hcheckout

omit [DecidableEq κ] in
/-- The tip of the branch. -/
theorem Within.tip (h : Within start name p Allowed r) :
    r.refs.get? name = some r.head :=
  h.branch ▸ r.head_eq

omit [DecidableEq κ] in
theorem head_of_checkoutPath {r : Repo π κ} {c : Commit π κ} (h : r.checkoutPath c p = .ok r') :
    r'.head = r.head := by
  rw [Repo.checkoutPath] at h
  split at h
  · obtain rfl := Except.ok.inj h
    rfl
  · cases h

theorem history_of_commit {r : Repo π κ} {message : List String}
    (h : r.commit message = .ok r') :
    r'.head.history = ⟨r'.head.tree, message⟩ :: r.head.history := by
  rw [Repo.commit] at h
  split at h
  · cases h
  · obtain rfl := Except.ok.inj h
    rfl

/-- Back on the branch the script started from, a repository with nothing left to
commit is as it was. -/
theorem Within.checkout (h : Within start name p Allowed r) (hclean : r.status = false)
    (hne : start.branch ≠ name) (hcheckout : r.checkout start.branch = .ok r') :
    r'.refs = r.refs ∧ r'.branch = start.branch ∧ r'.head = start.head ∧
      (∀ q, r'.index.get? q = start.head.tree.get? q) ∧
      ∀ q, r'.work.get? q = start.head.tree.get? q := by
  have horigin : r.refs.get? start.branch = some start.head := by
    rw [h.refs _ hne, start.head_eq]
  rw [Repo.checkout] at hcheckout
  split at hcheckout
  · cases hcheckout
  · rename_i c hc
    obtain rfl : c = start.head := Option.some.inj (hc.symm.trans horigin)
    split at hcheckout
    · obtain rfl := Except.ok.inj hcheckout
      have hcarried : ∀ (t : Tree π κ), (∀ q, t.get? q = r.head.tree.get? q) → ∀ q,
          (carry r.head.tree start.head.tree t).get? q = start.head.tree.get? q := by
        intro t ht q
        rw [get?_carry]
        by_cases hsame : r.head.tree.get? q = start.head.tree.get? q
        · rw [if_pos hsame, ht, hsame]
        · rw [if_neg hsame]
      refine ⟨rfl, rfl, rfl, hcarried r.index fun q => ?_, hcarried r.work fun q => ?_⟩
      · exact (statusAt_eq_false_iff.mp (status_eq_false_iff.mp hclean q)).1.symm
      · obtain ⟨hindex, hwork⟩ := statusAt_eq_false_iff.mp (status_eq_false_iff.mp hclean q)
        rw [← hwork, ← hindex]
    · cases hcheckout

end Repo

end Git
