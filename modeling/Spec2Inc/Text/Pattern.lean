import Mathlib.Data.List.Basic
import Mathlib.Data.List.Infix
import Mathlib.Data.List.TakeWhile

/-!
# Searching for a sequence of runs

Patterns that are a sequence of literal words and non-empty runs of a character
class, some of them captured. A run is greedy and gives characters back when
the rest of the pattern fails, and `search` returns the captures of the
leftmost match. `search_append` cuts a text at a place that no match can cross:
before an occurrence of the pattern's own first word, when that word does not
overlap itself and the rest of the pattern cannot read its first letter.
-/

namespace Pattern

variable {α β : Type*}

inductive Item (α : Type*)
  | lit (word : List α)
  | run (cls : α → Bool)
  | group (cls : α → Bool)

/-- Try the lengths from `k` down to one. -/
def greedy : ℕ → (ℕ → Option β) → Option β
  | 0, _ => none
  | k + 1, f => (f (k + 1)).or (greedy k f)

theorem greedy_congr {k : ℕ} {f g : ℕ → Option β} (h : ∀ n ≤ k, f n = g n) :
    greedy k f = greedy k g := by
  induction k with
  | zero => rfl
  | succ k ih =>
      rw [greedy, greedy, h (k + 1) le_rfl, ih fun n hn => h n (Nat.le_succ_of_le hn)]

theorem greedy_of_eq_some {k : ℕ} {f : ℕ → Option β} {b : β} (hk : k ≠ 0)
    (h : f k = some b) : greedy k f = some b := by
  obtain ⟨j, rfl⟩ := Nat.exists_eq_succ_of_ne_zero hk
  rw [greedy, h, Option.some_or]

variable [DecidableEq α]

/-- The captures of the match at the beginning of a text. -/
def matchAt : List (Item α) → List α → Option (List (List α))
  | [], _ => some []
  | .lit word :: p, s =>
      if word <+: s then matchAt p (s.drop word.length) else none
  | .run cls :: p, s =>
      greedy (s.takeWhile cls).length fun n => matchAt p (s.drop n)
  | .group cls :: p, s =>
      greedy (s.takeWhile cls).length fun n =>
        (matchAt p (s.drop n)).map fun caps => s.take n :: caps

/-- The captures of the leftmost match in a text. -/
def search (p : List (Item α)) : List α → Option (List (List α))
  | [] => matchAt p []
  | c :: s => (matchAt p (c :: s)).or (search p s)

/-! ## Matching a text piece by piece -/

theorem matchAt_lit (word : List α) (p : List (Item α)) (s : List α) :
    matchAt (.lit word :: p) (word ++ s) = matchAt p s := by
  rw [matchAt, if_pos (List.prefix_append word s), List.drop_left]

omit [DecidableEq α] in
theorem length_takeWhile_append {cls : α → Bool} {run s : List α}
    (hall : ∀ c ∈ run, cls c = true) (hstop : ∀ c ∈ s.head?, cls c = false) :
    ((run ++ s).takeWhile cls).length = run.length := by
  rw [List.takeWhile_append_of_pos hall]
  cases s with
  | nil => simp
  | cons c s => simp [hstop c rfl]

theorem matchAt_run {cls : α → Bool} {run s : List α} {p : List (Item α)}
    {caps : List (List α)} (hne : run ≠ []) (hall : ∀ c ∈ run, cls c = true)
    (hstop : ∀ c ∈ s.head?, cls c = false) (h : matchAt p s = some caps) :
    matchAt (.run cls :: p) (run ++ s) = some caps := by
  rw [matchAt, length_takeWhile_append hall hstop]
  refine greedy_of_eq_some (by simpa using hne) ?_
  rw [List.drop_left, h]

theorem matchAt_group {cls : α → Bool} {run s : List α} {p : List (Item α)}
    {caps : List (List α)} (hne : run ≠ []) (hall : ∀ c ∈ run, cls c = true)
    (hstop : ∀ c ∈ s.head?, cls c = false) (h : matchAt p s = some caps) :
    matchAt (.group cls :: p) (run ++ s) = some (run :: caps) := by
  rw [matchAt, length_takeWhile_append hall hstop]
  refine greedy_of_eq_some (by simpa using hne) ?_
  rw [List.drop_left, List.take_left, h, Option.map_some]

theorem search_eq_of_matchAt {p : List (Item α)} {s : List α} {caps : List (List α)}
    (h : matchAt p s = some caps) : search p s = some caps := by
  cases s with
  | nil => exact h
  | cons c s => rw [search, h, Option.some_or]

/-! ## Cutting a text -/

omit [DecidableEq α] in
/-- The item never reads the letter `c`. -/
def Item.Avoids (c : α) : Item α → Prop
  | .lit word => c ∉ word
  | .run cls => cls c = false
  | .group cls => cls c = false

omit [DecidableEq α] in
theorem takeWhile_append_cons {cls : α → Bool} {c : α} (h : cls c = false) (s t : List α) :
    (s ++ c :: t).takeWhile cls = s.takeWhile cls := by
  induction s with
  | nil => simp [h]
  | cons b s ih =>
      rw [List.cons_append, List.takeWhile_cons, List.takeWhile_cons, ih]

omit [DecidableEq α] in
theorem prefix_append_cons_iff {c : α} {word : List α} (h : c ∉ word) (s t : List α) :
    word <+: s ++ c :: t ↔ word <+: s := by
  constructor
  · intro hword
    by_cases hlen : word.length ≤ s.length
    · exact List.prefix_of_prefix_length_le hword (List.prefix_append s _) hlen
    · have hc : s ++ [c] <+: word :=
        List.prefix_of_prefix_length_le ⟨t, by simp⟩ hword (by simp; omega)
      exact absurd (hc.subset (by simp)) h
  · exact fun hword => hword.trans (List.prefix_append s _)

/-- A pattern that cannot read `c` matches the same before it. -/
theorem matchAt_append_cons {c : α} {p : List (Item α)} (hp : ∀ item ∈ p, item.Avoids c)
    (s t : List α) : matchAt p (s ++ c :: t) = matchAt p s := by
  induction p generalizing s with
  | nil => rfl
  | cons item p ih =>
      have hitem := hp item List.mem_cons_self
      have ih' := ih fun item' hitem' => hp item' (List.mem_cons_of_mem _ hitem')
      cases item with
      | lit word =>
          rw [matchAt, matchAt]
          by_cases hword : word <+: s
          · rw [if_pos hword, if_pos ((prefix_append_cons_iff hitem s t).mpr hword),
              List.drop_append_of_le_length hword.length_le, ih']
          · rw [if_neg hword, if_neg (mt (prefix_append_cons_iff hitem s t).mp hword)]
      | run cls =>
          rw [matchAt, matchAt, takeWhile_append_cons hitem]
          refine greedy_congr fun n hn => ?_
          have hlen := hn.trans (List.takeWhile_prefix cls).length_le
          rw [List.drop_append_of_le_length hlen, ih']
      | group cls =>
          rw [matchAt, matchAt, takeWhile_append_cons hitem]
          refine greedy_congr fun n hn => ?_
          have hlen := hn.trans (List.takeWhile_prefix cls).length_le
          rw [List.drop_append_of_le_length hlen, List.take_append_of_le_length hlen, ih']

/-- No proper end of the word is a beginning of it. -/
def Unbordered (word : List α) : Prop :=
  ∀ k, 0 < k → k < word.length → ¬ word.drop k <+: word

instance (word : List α) : Decidable (Unbordered word) :=
  decidable_of_iff (∀ k < word.length, 0 < k → ¬ word.drop k <+: word)
    ⟨fun h k hk hlt => h k hlt hk, fun h k hlt hk => h k hk hlt⟩

omit [DecidableEq α] in
/-- A word that begins before an occurrence of itself ends before it. -/
theorem prefix_append_word_iff {word : List α} (hword : Unbordered word) {s : List α}
    (hs : s ≠ []) (t : List α) : word <+: s ++ word ++ t ↔ word <+: s := by
  rw [List.append_assoc]
  constructor
  · intro h
    by_cases hlen : word.length ≤ s.length
    · exact List.prefix_of_prefix_length_le h (List.prefix_append s _) hlen
    · -- What is left of the word after `s` would begin the word itself.
      have hrest := h.drop s.length
      rw [List.drop_left] at hrest
      refine absurd ?_ (hword s.length (List.length_pos_of_ne_nil hs) (Nat.lt_of_not_le hlen))
      exact List.prefix_of_prefix_length_le hrest (List.prefix_append _ t) (by simp)
  · exact fun h => h.trans (List.prefix_append s _)

/-- A match that starts before an occurrence of the first word ends before it. -/
theorem matchAt_append_word {c : α} {word : List α} {p : List (Item α)}
    (hword : Unbordered (c :: word)) (hp : ∀ item ∈ p, item.Avoids c) {s : List α}
    (hs : s ≠ []) (t : List α) :
    matchAt (.lit (c :: word) :: p) (s ++ (c :: word) ++ t) =
      matchAt (.lit (c :: word) :: p) s := by
  have hiff := prefix_append_word_iff hword hs t
  rw [matchAt, matchAt]
  by_cases hpre : c :: word <+: s
  · rw [if_pos hpre, if_pos (hiff.mpr hpre), List.append_assoc,
      List.drop_append_of_le_length hpre.length_le]
    exact matchAt_append_cons hp _ _
  · rw [if_neg hpre, if_neg (mt hiff.mp hpre)]

/-- The leftmost match is in the text before the word, if there is one there. -/
theorem search_append {c : α} {word : List α} {p : List (Item α)}
    (hword : Unbordered (c :: word)) (hp : ∀ item ∈ p, item.Avoids c) (s t : List α) :
    search (.lit (c :: word) :: p) (s ++ (c :: word) ++ t) =
      (search (.lit (c :: word) :: p) s).or
        (search (.lit (c :: word) :: p) (c :: word ++ t)) := by
  induction s with
  | nil => rfl
  | cons b s ih =>
      have hmatch := matchAt_append_word hword hp (List.cons_ne_nil b s) t
      rw [List.cons_append, List.cons_append] at hmatch
      rw [List.cons_append, List.cons_append, search, hmatch, ih, search, Option.or_assoc]

/-- In a text without the first word there is nothing to find. -/
theorem search_append_of_not_infix {word : List α} (hword : Unbordered word)
    {p : List (Item α)} {s : List α} (hs : ¬ word <:+: s) (t : List α) :
    search (.lit word :: p) (s ++ (word ++ t)) = search (.lit word :: p) (word ++ t) := by
  induction s with
  | nil => rfl
  | cons b s ih =>
      have hpre : ¬ word <+: b :: (s ++ (word ++ t)) := by
        intro h
        refine hs ((prefix_append_word_iff hword (List.cons_ne_nil b s) t).mp ?_).isInfix
        rwa [List.append_assoc]
      rw [List.cons_append, search, matchAt, if_neg hpre, Option.none_or]
      exact ih fun h => hs (h.trans (List.suffix_cons b s).isInfix)

/-! ## What a match captures -/

/-- The classes of the groups of a pattern. -/
def classes (p : List (Item α)) : List (α → Bool) :=
  p.filterMap fun
    | .group cls => some cls
    | _ => none

omit [DecidableEq α] in
theorem exists_of_greedy {k : ℕ} {f : ℕ → Option β} {b : β} (h : greedy k f = some b) :
    ∃ n ≤ k, f n = some b := by
  induction k with
  | zero => cases h
  | succ k ih =>
      rw [greedy, Option.or_eq_some_iff] at h
      rcases h with h | ⟨-, h⟩
      · exact ⟨k + 1, le_rfl, h⟩
      · obtain ⟨n, hn, hf⟩ := ih h
        exact ⟨n, Nat.le_succ_of_le hn, hf⟩

omit [DecidableEq α] in
/-- What is taken of a run has the class of the run. -/
theorem forall_mem_take {cls : α → Bool} {s : List α} {n : ℕ}
    (hn : n ≤ (s.takeWhile cls).length) : ∀ c ∈ s.take n, cls c = true := by
  intro c hc
  have hpre : s.take n <+: s.takeWhile cls :=
    List.prefix_of_prefix_length_le (List.take_prefix n s) (List.takeWhile_prefix cls)
      ((List.length_take_le n s).trans hn)
  exact List.mem_takeWhile_imp (hpre.subset hc)

/-- There is one capture for each group, of letters of the group's class. -/
theorem captures_of_matchAt {p : List (Item α)} {s : List α} {caps : List (List α)}
    (h : matchAt p s = some caps) :
    List.Forall₂ (fun cls cap => ∀ c ∈ cap, cls c = true) (classes p) caps := by
  induction p generalizing s caps with
  | nil =>
      obtain rfl := Option.some.inj h
      exact .nil
  | cons item p ih =>
      cases item with
      | lit word =>
          rw [matchAt] at h
          by_cases hpre : word <+: s
          · rw [if_pos hpre] at h
            exact ih h
          · rw [if_neg hpre] at h
            cases h
      | run cls =>
          obtain ⟨n, -, hmatch⟩ := exists_of_greedy h
          exact ih hmatch
      | group cls =>
          obtain ⟨n, hn, hmatch⟩ := exists_of_greedy h
          obtain ⟨rest, hrest, rfl⟩ := Option.map_eq_some_iff.mp hmatch
          exact .cons (forall_mem_take hn) (ih hrest)

theorem captures_of_search {p : List (Item α)} {s : List α} {caps : List (List α)}
    (h : search p s = some caps) :
    List.Forall₂ (fun cls cap => ∀ c ∈ cap, cls c = true) (classes p) caps := by
  induction s with
  | nil => exact captures_of_matchAt h
  | cons c s ih =>
      rw [search, Option.or_eq_some_iff] at h
      rcases h with h | ⟨-, h⟩
      · exact captures_of_matchAt h
      · exact ih h

/-! ## Patterns for whole lines -/

/-- An item of a pattern between the beginning and the end of a line. -/
inductive LineItem (α : Type*)
  | lit (word : List α)
  | run (cls : α → Bool)
  | optRun (cls : α → Bool)
  | group (cls : α → Bool)

/-- The captures of a match that begins here and ends before a line break or at
the end of the text, with the rest of the text. -/
def matchLine (eol : α) : List (LineItem α) → List α → Option (List (List α) × List α)
  | [], s => if ∀ c ∈ s.head?, c = eol then some ([], s) else none
  | .lit word :: p, s =>
      if word <+: s then matchLine eol p (s.drop word.length) else none
  | .run cls :: p, s =>
      greedy (s.takeWhile cls).length fun n => matchLine eol p (s.drop n)
  | .optRun cls :: p, s =>
      (greedy (s.takeWhile cls).length fun n => matchLine eol p (s.drop n)).or
        (matchLine eol p s)
  | .group cls :: p, s =>
      greedy (s.takeWhile cls).length fun n =>
        (matchLine eol p (s.drop n)).map fun m => (s.take n :: m.1, m.2)

/-- The captures of the matches from left to right that do not overlap. The flag
says whether a line begins here; each step reads at least one letter. -/
def findLinesFrom (eol : α) (p : List (LineItem α)) :
    ℕ → Bool → List α → List (List (List α))
  | 0, _, _ => []
  | fuel + 1, bol, s =>
    match if bol then matchLine eol p s else none, s with
    | some (caps, rest), s =>
      let last := (s.take (s.length - rest.length)).getLast?
      caps :: findLinesFrom eol p fuel (decide (last = some eol)) rest
    | none, [] => []
    | none, c :: s => findLinesFrom eol p fuel (decide (c = eol)) s

/-- All the matches of a line pattern that reads at least one letter. -/
def findLines (eol : α) (p : List (LineItem α)) (s : List α) : List (List (List α)) :=
  findLinesFrom eol p (s.length + 1) true s

omit [DecidableEq α] in
/-- The classes of the groups of a line pattern. -/
def lineClasses (p : List (LineItem α)) : List (α → Bool) :=
  p.filterMap fun
    | .group cls => some cls
    | _ => none

theorem captures_of_matchLine {eol : α} {p : List (LineItem α)} {s rest : List α}
    {caps : List (List α)} (h : matchLine eol p s = some (caps, rest)) :
    List.Forall₂ (fun cls cap => ∀ c ∈ cap, cls c = true) (lineClasses p) caps := by
  induction p generalizing s caps with
  | nil =>
      rw [matchLine] at h
      split at h
      · obtain ⟨rfl, -⟩ := Prod.mk.inj (Option.some.inj h)
        exact .nil
      · cases h
  | cons item p ih =>
      cases item with
      | lit word =>
          rw [matchLine] at h
          split at h
          · exact ih h
          · cases h
      | run cls =>
          obtain ⟨n, -, hmatch⟩ := exists_of_greedy h
          exact ih hmatch
      | optRun cls =>
          rw [matchLine, Option.or_eq_some_iff] at h
          rcases h with h | ⟨-, h⟩
          · obtain ⟨n, -, hmatch⟩ := exists_of_greedy h
            exact ih hmatch
          · exact ih h
      | group cls =>
          obtain ⟨n, hn, hmatch⟩ := exists_of_greedy h
          obtain ⟨⟨caps', rest'⟩, hm, heq⟩ := Option.map_eq_some_iff.mp hmatch
          obtain ⟨rfl, rfl⟩ := Prod.mk.inj heq
          exact .cons (forall_mem_take hn) (ih hm)

/-- Every match has one capture for each group, of letters of the group's class. -/
theorem captures_of_mem_findLines {eol : α} {p : List (LineItem α)} {s : List α}
    {caps : List (List α)} (h : caps ∈ findLines eol p s) :
    List.Forall₂ (fun cls cap => ∀ c ∈ cap, cls c = true) (lineClasses p) caps := by
  suffices hgen : ∀ (fuel : ℕ) (bol : Bool) (s : List α), caps ∈ findLinesFrom eol p fuel bol s →
      List.Forall₂ (fun cls cap => ∀ c ∈ cap, cls c = true) (lineClasses p) caps from
    hgen _ _ _ h
  intro fuel
  induction fuel with
  | zero =>
      intro bol s h
      cases h
  | succ fuel ih =>
      intro bol s h
      cases hmatch : (if bol then matchLine eol p s else none) with
      | some m =>
          simp only [findLinesFrom, hmatch] at h
          rcases List.mem_cons.mp h with rfl | h
          · cases bol with
            | false => cases hmatch
            | true => exact captures_of_matchLine hmatch
          · exact ih _ _ h
      | none =>
          cases s with
          | nil =>
              simp only [findLinesFrom, hmatch] at h
              cases h
          | cons c s =>
              simp only [findLinesFrom, hmatch] at h
              exact ih _ _ h

end Pattern
