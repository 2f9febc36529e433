import Spec2Inc.Python.Dict

/-!
# A repository on one machine

Branches, the commit checked out, the index and the working tree, with the few
commands a script needs: `status`, `add`, `commit`, and the three forms of
`checkout`. A command succeeds or is refused for git's own reasons. A commit is
its revision with all the revisions before it, the newest first, so a commit is
never equal to one made after it.

`Confined` says that a repository differs from a tree in one path at most and
has nothing staged. It is what a script that only ever edits one file keeps,
and under it none of its commits is refused.
-/

namespace Git

variable {π κ : Type} [DecidableEq π] [DecidableEq κ]

/-- The files of a tree, with their contents. -/
abbrev Tree (π κ : Type) : Type := Dict π κ

structure Revision (π κ : Type) where
  tree : Tree π κ
  message : List String
  deriving DecidableEq

/-- A commit, with its history. -/
structure Commit (π κ : Type) where
  tip : Revision π κ
  ancestors : List (Revision π κ)
  deriving DecidableEq

/-- The files of a commit. -/
def Commit.tree (c : Commit π κ) : Tree π κ := c.tip.tree

/-- The commit made on top of `c`. -/
def Commit.child (c : Commit π κ) (tree : Tree π κ) (message : List String) : Commit π κ where
  tip := ⟨tree, message⟩
  ancestors := c.tip :: c.ancestors

omit [DecidableEq π] [DecidableEq κ] in
@[simp] theorem Commit.tree_child (c : Commit π κ) (tree : Tree π κ) (message : List String) :
    (c.child tree message).tree = tree := rfl

/-- The revisions reachable from a commit, the newest first. -/
def Commit.history (c : Commit π κ) : List (Revision π κ) := c.tip :: c.ancestors

/-- The history of `c'` is that of `c`, or has one revision more, with `P`. -/
def Commit.Grows (P : Revision π κ → Prop) (c c' : Commit π κ) : Prop :=
  c'.history = c.history ∨ ∃ rev, P rev ∧ c'.history = rev :: c.history

omit [DecidableEq π] [DecidableEq κ] in
theorem Commit.Grows.suffix {P : Revision π κ → Prop} {c c' : Commit π κ} (h : c.Grows P c') :
    c.history <:+ c'.history := by
  rcases h with heq | ⟨rev, -, heq⟩
  · exact ⟨[], heq.symm⟩
  · exact ⟨[rev], heq.symm⟩

omit [DecidableEq π] [DecidableEq κ] in
theorem Commit.Grows.subset {P : Revision π κ → Prop} {c c' : Commit π κ} (h : c.Grows P c') :
    c.history ⊆ c'.history :=
  h.suffix.subset

omit [DecidableEq π] [DecidableEq κ] in
theorem Commit.Grows.imp {P Q : Revision π κ → Prop} {c c' : Commit π κ} (h : c.Grows P c')
    (hPQ : ∀ rev, P rev → Q rev) : c.Grows Q c' :=
  h.imp_right fun ⟨rev, hrev, heq⟩ => ⟨rev, hPQ rev hrev, heq⟩

/-- A repository with a branch checked out. -/
structure Repo (π κ : Type) [DecidableEq π] where
  refs : Dict String (Commit π κ)
  branch : String
  head : Commit π κ
  head_eq : refs.get? branch = some head
  index : Tree π κ
  work : Tree π κ

/-- Why a command was refused. -/
inductive Refusal (π : Type)
  | branchExists (name : String)
  | unknownBranch (name : String)
  | pathspec (path : π)
  | unmatched (path : π)
  | nothingToCommit
  | wouldOverwrite (paths : List π)

namespace Repo

/-- `git status --porcelain -- path` prints something. -/
def statusAt (r : Repo π κ) (p : π) : Bool :=
  r.head.tree.get? p ≠ r.index.get? p || r.index.get? p ≠ r.work.get? p

/-- `git status --porcelain` prints something. -/
def status (r : Repo π κ) : Bool :=
  (r.head.tree.keys ++ r.index.keys ++ r.work.keys).any r.statusAt

/-- Write a file of the working tree. -/
def write (r : Repo π κ) (p : π) (content : κ) : Repo π κ :=
  { r with work := r.work.set p content }

/-- `git add -- path`. -/
def add (r : Repo π κ) (p : π) : Except (Refusal π) (Repo π κ) :=
  match r.work.get? p with
  | some content => .ok { r with index := r.index.set p content }
  | none =>
      if p ∈ r.index then .ok { r with index := r.index.erase p }
      else .error (.unmatched p)

/-- The repository with its index committed. -/
def committed (r : Repo π κ) (message : List String) : Repo π κ where
  refs := r.refs.set r.branch (r.head.child r.index message)
  branch := r.branch
  head := r.head.child r.index message
  head_eq := Dict.get?_set_self _ _ _
  index := r.index
  work := r.work

/-- `git commit -m ...`: refused when nothing is staged. -/
def commit (r : Repo π κ) (message : List String) : Except (Refusal π) (Repo π κ) :=
  if (r.head.tree.keys ++ r.index.keys).all fun p => r.head.tree.get? p = r.index.get? p then
    .error .nothingToCommit
  else
    .ok (r.committed message)

/-- `git add -- path` and then `git commit -m ...`. -/
def commitFile (r : Repo π κ) (p : π) (message : List String) :
    Repo π κ × Except (Refusal π) Unit :=
  match r.add p with
  | .error e => (r, .error e)
  | .ok r' =>
      match r'.commit message with
      | .error e => (r', .error e)
      | .ok r'' => (r'', .ok ())

/-- `git checkout -b name`. -/
def checkoutNew (r : Repo π κ) (name : String) : Except (Refusal π) (Repo π κ) :=
  if name ∈ r.refs then
    .error (.branchExists name)
  else
    .ok
      { r with
        refs := r.refs.set name r.head
        branch := name
        head_eq := Dict.get?_set_self _ _ _ }

/-- `git checkout commit -- path`. -/
def checkoutPath (r : Repo π κ) (c : Commit π κ) (p : π) :
    Except (Refusal π) (Repo π κ) :=
  match c.tree.get? p with
  | some content =>
      .ok { r with index := r.index.set p content, work := r.work.set p content }
  | none => .error (.pathspec p)

/-- Carry a tree over from one commit to another: the files in which these
differ are replaced. -/
def carry (old new t : Tree π κ) : Tree π κ :=
  (old.keys ++ new.keys).foldl (fun t p =>
    if old.get? p = new.get? p then t
    else match new.get? p with
      | some content => t.set p content
      | none => t.erase p) t

/-- The repository with another branch checked out. -/
def switched (r : Repo π κ) (name : String) (c : Commit π κ)
    (h : r.refs.get? name = some c) : Repo π κ where
  refs := r.refs
  branch := name
  head := c
  head_eq := h
  index := carry r.head.tree c.tree r.index
  work := carry r.head.tree c.tree r.work

/-- The local changes that checking `c` out would overwrite. -/
def overwritten (r : Repo π κ) (c : Commit π κ) : List π :=
  (r.head.tree.keys ++ c.tree.keys).filter fun p =>
    r.head.tree.get? p ≠ c.tree.get? p && r.statusAt p

/-- `git checkout name`: refused when it would overwrite a local change. -/
def checkout (r : Repo π κ) (name : String) : Except (Refusal π) (Repo π κ) :=
  match h : r.refs.get? name with
  | none => .error (.unknownBranch name)
  | some c =>
      if r.overwritten c = [] then .ok (r.switched name c h)
      else .error (.wouldOverwrite (r.overwritten c))

/-! ## When a command succeeds -/

theorem statusAt_eq_false_iff {r : Repo π κ} {p : π} :
    r.statusAt p = false ↔
      r.head.tree.get? p = r.index.get? p ∧ r.index.get? p = r.work.get? p := by
  simp [statusAt]

theorem commit_eq_ok {r : Repo π κ} {p : π} (h : r.head.tree.get? p ≠ r.index.get? p)
    (message : List String) : r.commit message = .ok (r.committed message) := by
  rw [commit, if_neg]
  intro hall
  rw [List.all_eq_true] at hall
  refine h ?_
  by_cases hmem : p ∈ r.head.tree.keys ++ r.index.keys
  · simpa using hall p hmem
  · rw [List.mem_append, not_or] at hmem
    rw [(Dict.get?_eq_none_iff _ _).mpr hmem.1, (Dict.get?_eq_none_iff _ _).mpr hmem.2]

omit [DecidableEq κ] in
theorem head_of_add {r r' : Repo π κ} {p : π} (h : r.add p = .ok r') : r'.head = r.head := by
  rw [add] at h
  split at h
  · obtain rfl := Except.ok.inj h
    rfl
  · split at h
    · obtain rfl := Except.ok.inj h
      rfl
    · cases h

/-- Committing a file puts one revision on top of the last. -/
theorem history_of_commitFile {r r' : Repo π κ} {p : π} {message : List String}
    (h : r.commitFile p message = (r', .ok ())) :
    r'.head.history = ⟨r'.head.tree, message⟩ :: r.head.history := by
  rw [commitFile] at h
  split at h
  · cases h
  · rename_i r₁ hadd
    rw [← head_of_add hadd]
    rw [commit] at h
    split at h
    · cases h
    · rename_i r₂ hcommit
      split at hcommit
      · cases hcommit
      · obtain rfl := Except.ok.inj hcommit
        obtain ⟨rfl, -⟩ := Prod.mk.inj h
        rfl

omit [DecidableEq κ] in
theorem checkoutPath_eq_ok {r : Repo π κ} {c : Commit π κ} {p : π} {content : κ}
    (h : c.tree.get? p = some content) :
    r.checkoutPath c p =
      .ok { r with index := r.index.set p content, work := r.work.set p content } := by
  simp [checkoutPath, h]

/-- A new branch starts at the last commit, with nothing else changed. -/
theorem exists_checkoutNew_eq_ok {r : Repo π κ} {name : String} (h : name ∉ r.refs) :
    ∃ r', r.checkoutNew name = .ok r' ∧ r'.branch = name ∧
      (∀ other, other ≠ name → r'.refs.get? other = r.refs.get? other) ∧
      r'.head = r.head ∧ r'.work = r.work ∧ r'.status = r.status := by
  rw [checkoutNew, if_neg h]
  exact ⟨_, rfl, rfl, fun _ hother => Dict.get?_set_of_ne _ hother _, rfl, rfl, rfl⟩

/-- A clean repository can check any of its branches out. -/
theorem exists_checkout_eq_ok {r : Repo π κ} {name : String} {c : Commit π κ}
    (hname : r.refs.get? name = some c) (hclean : ∀ p, r.statusAt p = false) :
    ∃ r', r.checkout name = .ok r' ∧ r'.branch = name ∧ r'.refs = r.refs := by
  have hlost : r.overwritten c = [] := by
    rw [overwritten, List.filter_eq_nil_iff]
    intro p _
    simp [hclean p]
  rw [checkout]
  split
  · simp_all
  · rename_i c' hc'
    obtain rfl : c' = c := Option.some.inj (hc'.symm.trans hname)
    rw [if_pos hlost]
    exact ⟨_, rfl, rfl, rfl⟩

/-! ## Repositories that differ in one file -/

variable {t₀ : Tree π κ} {p : π} {r : Repo π κ}

omit [DecidableEq κ] in
/-- At most the file `p` differs from the tree `t₀`, in the last commit and in
the working tree; nothing is staged, and `p` has not been removed. -/
structure Confined (t₀ : Tree π κ) (p : π) (r : Repo π κ) : Prop where
  head : ∀ q, q ≠ p → r.head.tree.get? q = t₀.get? q
  index : ∀ q, r.index.get? q = r.head.tree.get? q
  work : ∀ q, q ≠ p → r.work.get? q = t₀.get? q
  present : r.work.get? p = none → r.head.tree.get? p = none

theorem status_eq_false_iff : r.status = false ↔ ∀ q, r.statusAt q = false := by
  rw [status, List.any_eq_false]
  constructor
  · intro h q
    by_cases hq : q ∈ r.head.tree.keys ++ r.index.keys ++ r.work.keys
    · simpa using h q hq
    · rw [List.mem_append, List.mem_append, not_or, not_or] at hq
      obtain ⟨⟨hhead, hindex⟩, hwork⟩ := hq
      rw [statusAt_eq_false_iff, (Dict.get?_eq_none_iff _ _).mpr hhead,
        (Dict.get?_eq_none_iff _ _).mpr hindex, (Dict.get?_eq_none_iff _ _).mpr hwork]
      exact ⟨rfl, rfl⟩
  · intro h q _
    simp [h q]

theorem Confined.of_clean (h : r.status = false) (p : π) : Confined r.head.tree p r where
  head _ _ := rfl
  index q := (statusAt_eq_false_iff.mp (status_eq_false_iff.mp h q)).1.symm
  work q _ := by
    obtain ⟨hindex, hwork⟩ := statusAt_eq_false_iff.mp (status_eq_false_iff.mp h q)
    rw [← hwork, ← hindex]
  present hnone := by
    obtain ⟨hindex, hwork⟩ := statusAt_eq_false_iff.mp (status_eq_false_iff.mp h p)
    rw [hindex, hwork, hnone]

omit [DecidableEq κ] in
theorem Confined.write (h : Confined t₀ p r) (content : κ) :
    Confined t₀ p (r.write p content) where
  head := h.head
  index := h.index
  work q hq := (Dict.get?_set_of_ne _ hq content).trans (h.work q hq)
  present hnone := by
    rw [Repo.write, Dict.get?_set_self] at hnone
    cases hnone

/-- Only the file itself can make a confined repository dirty. -/
theorem Confined.statusAt_eq_false_iff (h : Confined t₀ p r) {q : π} :
    r.statusAt q = false ↔ q = p → r.work.get? p = r.head.tree.get? p := by
  rw [Repo.statusAt_eq_false_iff, h.index]
  constructor
  · rintro ⟨-, hwork⟩ rfl
    exact hwork.symm
  · intro hq
    refine ⟨rfl, ?_⟩
    by_cases hqp : q = p
    · subst hqp
      exact (hq rfl).symm
    · rw [h.head q hqp, h.work q hqp]

theorem Confined.status_eq_false_iff (h : Confined t₀ p r) :
    r.status = false ↔ r.work.get? p = r.head.tree.get? p := by
  rw [Repo.status_eq_false_iff]
  constructor
  · exact fun hall => h.statusAt_eq_false_iff.mp (hall p) rfl
  · exact fun heq q => h.statusAt_eq_false_iff.mpr fun _ => heq

/-- What committing the file does. -/
structure Committed (p : π) (content : κ) (r r' : Repo π κ) : Prop where
  branch : r'.branch = r.branch
  refs : ∀ name, name ≠ r.branch → r'.refs.get? name = r.refs.get? name
  head : r'.head.tree.get? p = some content
  work : r'.work.get? p = some content
  history : r'.head.ancestors = r.head.tip :: r.head.ancestors

omit [DecidableEq κ] in
/-- A confined repository in which the content of the file has been staged. -/
structure Staged (t₀ : Tree π κ) (p : π) (content : κ) (r : Repo π κ) : Prop where
  head : ∀ q, q ≠ p → r.head.tree.get? q = t₀.get? q
  index : ∀ q, q ≠ p → r.index.get? q = r.head.tree.get? q
  work : ∀ q, q ≠ p → r.work.get? q = t₀.get? q
  index_self : r.index.get? p = some content
  work_self : r.work.get? p = some content

/-- Committing what is staged, if it is a change. -/
theorem Staged.commit {content : κ} (h : Staged t₀ p content r)
    (hne : r.head.tree.get? p ≠ some content) (message : List String) :
    ∃ r', r.commit message = .ok r' ∧ Confined t₀ p r' ∧ Committed p content r r' := by
  refine ⟨r.committed message, commit_eq_ok (h.index_self ▸ hne) message, ?_, ?_⟩
  · exact
      { head := fun q hq => (h.index q hq).trans (h.head q hq)
        index := fun _ => rfl
        work := h.work
        present := fun hnone => by
          rw [committed, h.work_self] at hnone
          cases hnone }
  · exact
      { branch := rfl
        refs := fun name hname => Dict.get?_set_of_ne _ hname _
        head := h.index_self
        work := h.work_self
        history := rfl }

omit [DecidableEq κ] in
/-- What is staged is no change. -/
theorem Staged.confined {content : κ} (h : Staged t₀ p content r)
    (heq : r.head.tree.get? p = some content) : Confined t₀ p r where
  head := h.head
  index q := by
    by_cases hq : q = p
    · subst hq
      rw [h.index_self, heq]
    · exact h.index q hq
  work := h.work
  present hnone := by
    rw [h.work_self] at hnone
    cases hnone

theorem Staged.status_eq_false_iff {content : κ} (h : Staged t₀ p content r) :
    r.status = false ↔ r.head.tree.get? p = some content := by
  constructor
  · intro hclean
    have hp := Repo.status_eq_false_iff.mp hclean p
    rw [Repo.statusAt_eq_false_iff, h.index_self] at hp
    exact hp.1
  · intro heq
    rw [(h.confined heq).status_eq_false_iff, h.work_self, heq]

omit [DecidableEq κ] in
theorem Confined.staged (h : Confined t₀ p r) {content : κ} (work : Tree π κ)
    (hself : work.get? p = some content)
    (hother : ∀ q, q ≠ p → work.get? q = r.work.get? q) :
    Staged t₀ p content { r with index := r.index.set p content, work := work } where
  head := h.head
  index q hq := (Dict.get?_set_of_ne _ hq content).trans (h.index q)
  work q hq := (hother q hq).trans (h.work q hq)
  index_self := Dict.get?_set_self _ _ _
  work_self := hself

/-- A changed file can be committed. -/
theorem Confined.commitFile (h : Confined t₀ p r) (hdirty : r.statusAt p = true)
    (message : List String) :
    ∃ r' content, r.commitFile p message = (r', .ok ()) ∧ r.work.get? p = some content ∧
      Confined t₀ p r' ∧ Committed p content r r' := by
  have hne : r.work.get? p ≠ r.head.tree.get? p := by
    intro heq
    rw [h.statusAt_eq_false_iff.mpr fun _ => heq] at hdirty
    cases hdirty
  cases hwork : r.work.get? p with
  | none =>
      rw [hwork, h.present hwork] at hne
      exact absurd rfl hne
  | some content =>
      have hstaged := h.staged r.work hwork fun _ _ => rfl
      obtain ⟨r', hcommit, hconfined, hcommitted⟩ :=
        hstaged.commit (hwork ▸ hne.symm) message
      refine ⟨r', content, ?_, rfl, hconfined, ?_⟩
      · simp [Repo.commitFile, add, hwork, hcommit]
      · exact { hcommitted with }

omit [DecidableEq κ] in
/-- The file of another commit can be checked out when that commit has it. -/
theorem Confined.checkoutPath (h : Confined t₀ p r) {c : Commit π κ} {content : κ}
    (hc : c.tree.get? p = some content) :
    ∃ r', r.checkoutPath c p = .ok r' ∧ r'.head = r.head ∧ r'.branch = r.branch ∧
      r'.refs = r.refs ∧ Staged t₀ p content r' :=
  ⟨_, checkoutPath_eq_ok hc, rfl, rfl, rfl,
    h.staged _ (Dict.get?_set_self _ _ _) fun _ hq => Dict.get?_set_of_ne _ hq content⟩

end Repo

end Git
