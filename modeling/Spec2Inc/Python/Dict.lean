import Mathlib.Data.List.Nodup
import Mathlib.Data.List.Perm.Subperm
import Mathlib.Tactic.TypeStar

/-!
# Insertion-ordered dictionaries

A `Dict κ α` is a list of items with distinct keys, in the order in which the
keys were first set. Setting a key that is there replaces its value in place,
and setting a new one appends it, as a Python `dict` does. Membership of an
item is the same as looking its key up (`get?_eq_some_iff`), which is where the
distinct keys are used.
-/

/-- A dictionary, carrying the fact that its keys are distinct. -/
@[ext]
structure Dict (κ α : Type*) where
  items : List (κ × α)
  nodup_keys : (items.map Prod.fst).Nodup

namespace Dict

variable {κ α β : Type*}

/-- The keys, in insertion order. -/
def keys (d : Dict κ α) : List κ := d.items.map Prod.fst

/-- The values, in the order of their keys. -/
def values (d : Dict κ α) : List α := d.items.map Prod.snd

/-- The dictionary with no items. -/
def empty : Dict κ α := ⟨[], List.nodup_nil⟩

@[simp] theorem items_empty : (empty : Dict κ α).items = [] := rfl

/-- The same keys, with `f` applied to every item. -/
def mapValues (f : κ → α → β) (d : Dict κ α) : Dict κ β where
  items := d.items.map fun p => (p.1, f p.1 p.2)
  nodup_keys := by
    rw [List.map_map]
    exact d.nodup_keys

@[simp] theorem items_mapValues (f : κ → α → β) (d : Dict κ α) :
    (d.mapValues f).items = d.items.map fun p => (p.1, f p.1 p.2) := rfl

@[simp] theorem keys_mapValues (f : κ → α → β) (d : Dict κ α) :
    (d.mapValues f).keys = d.keys := by
  simp [keys]

variable [DecidableEq κ]

/-- The value at key `k`. -/
def get? (d : Dict κ α) (k : κ) : Option α := d.items.lookup k

/-- `d.get(k, default)`. -/
def getD (d : Dict κ α) (k : κ) (default : α) : α := (d.get? k).getD default

instance : Membership κ (Dict κ α) := ⟨fun d k => k ∈ d.keys⟩

instance (d : Dict κ α) (k : κ) : Decidable (k ∈ d) :=
  inferInstanceAs (Decidable (k ∈ d.keys))

omit [DecidableEq κ] in
theorem mem_iff (d : Dict κ α) (k : κ) : k ∈ d ↔ k ∈ d.keys := Iff.rfl

theorem get?_eq_none_iff (d : Dict κ α) (k : κ) : d.get? k = none ↔ k ∉ d := by
  rw [get?, List.lookup_eq_none_iff, mem_iff, keys]
  constructor
  · intro h hmem
    obtain ⟨p, hp, rfl⟩ := List.mem_map.mp hmem
    simpa using h p hp
  · intro h p hp
    have hne : k ≠ p.1 := by
      rintro rfl
      exact h (List.mem_map_of_mem hp)
    simpa using hne

theorem mem_iff_exists_get? (d : Dict κ α) (k : κ) :
    k ∈ d ↔ ∃ v, d.get? k = some v := by
  rw [← Option.ne_none_iff_exists', Ne, get?_eq_none_iff, not_not]

/-- The items are exactly the keys with what they look up to. -/
theorem get?_eq_some_iff (d : Dict κ α) (k : κ) (v : α) :
    d.get? k = some v ↔ (k, v) ∈ d.items := by
  rw [get?, List.lookup_eq_some_iff]
  constructor
  · rintro ⟨l₁, l₂, h, -⟩
    simp [h]
  · intro h
    obtain ⟨l₁, l₂, hl⟩ := List.append_of_mem h
    refine ⟨l₁, l₂, hl, fun p hp => ?_⟩
    have hnodup := d.nodup_keys
    rw [hl, List.map_append, List.nodup_append] at hnodup
    have hne := hnodup.2.2 p.1 (List.mem_map_of_mem hp) k (by simp)
    simpa using Ne.symm hne

@[simp] theorem get?_empty (k : κ) : (empty : Dict κ α).get? k = none := rfl

@[simp] theorem get?_mapValues (f : κ → α → β) (d : Dict κ α) (k : κ) :
    (d.mapValues f).get? k = (d.get? k).map (f k) := by
  simp only [get?, items_mapValues]
  induction d.items with
  | nil => rfl
  | cons p l ih =>
      obtain ⟨k', v⟩ := p
      by_cases h : k = k'
      · subst h
        simp
      · have hne : (k == k') = false := by simpa using h
        simp [List.lookup_cons, hne, ih]

instance [DecidableEq α] : DecidableEq (Dict κ α) := fun d e =>
  decidable_of_iff (d.items = e.items) Dict.ext_iff.symm

/-- `del d[k]`, for a key that is there. -/
def erase (d : Dict κ α) (k : κ) : Dict κ α where
  items := d.items.filter fun p => p.1 ≠ k
  nodup_keys := d.nodup_keys.sublist (List.filter_sublist.map Prod.fst)

/-- `d[k] = v`. -/
def set (d : Dict κ α) (k : κ) (v : α) : Dict κ α :=
  if h : k ∈ d.keys then
    d.mapValues fun k' v' => if k' = k then v else v'
  else
    { items := d.items ++ [(k, v)]
      nodup_keys := by
        rw [List.map_append, List.nodup_append]
        refine ⟨d.nodup_keys, by simp, fun k₁ h₁ k₂ h₂ => ?_⟩
        rintro rfl
        obtain rfl : k₁ = k := by simpa using h₂
        exact h h₁ }

theorem set_of_mem (d : Dict κ α) {k : κ} (h : k ∈ d) (v : α) :
    d.set k v = d.mapValues fun k' v' => if k' = k then v else v' :=
  dif_pos h

theorem items_set_of_notMem (d : Dict κ α) {k : κ} (h : k ∉ d) (v : α) :
    (d.set k v).items = d.items ++ [(k, v)] := by
  have hkeys : k ∉ d.keys := h
  simp [set, hkeys]

theorem get?_set (d : Dict κ α) (k k' : κ) (v : α) :
    (d.set k v).get? k' = if k' = k then some v else d.get? k' := by
  by_cases h : k ∈ d
  · rw [set_of_mem d h, get?_mapValues]
    by_cases hk : k' = k
    · subst hk
      obtain ⟨w, hw⟩ := (d.mem_iff_exists_get? k').mp h
      simp [hw]
    · simp [hk]
  · rw [get?, items_set_of_notMem d h, List.lookup_append]
    by_cases hk : k' = k
    · subst hk
      have hnone : d.items.lookup k' = none := (d.get?_eq_none_iff k').mpr h
      simp [hnone]
    · have hne : (k' == k) = false := by simpa using hk
      simp [List.lookup_cons, hne, hk, get?]

@[simp] theorem get?_set_self (d : Dict κ α) (k : κ) (v : α) :
    (d.set k v).get? k = some v := by
  rw [get?_set, if_pos rfl]

theorem get?_set_of_ne (d : Dict κ α) {k k' : κ} (h : k' ≠ k) (v : α) :
    (d.set k v).get? k' = d.get? k' := by
  rw [get?_set, if_neg h]

theorem keys_set_of_mem (d : Dict κ α) {k : κ} (h : k ∈ d) (v : α) :
    (d.set k v).keys = d.keys := by
  rw [set_of_mem d h, keys_mapValues]

theorem mem_set_iff (d : Dict κ α) (k k' : κ) (v : α) :
    k' ∈ d.set k v ↔ k' = k ∨ k' ∈ d := by
  rw [mem_iff_exists_get?, mem_iff_exists_get?, get?_set]
  by_cases h : k' = k <;> simp [h]

theorem get?_erase (d : Dict κ α) (k k' : κ) :
    (d.erase k).get? k' = if k' = k then none else d.get? k' := by
  by_cases h : k' = k
  · rw [if_pos h, get?_eq_none_iff, mem_iff, keys, erase]
    intro hmem
    obtain ⟨p, hp, rfl⟩ := List.mem_map.mp hmem
    simp [h] at hp
  · rw [if_neg h]
    refine Option.ext fun v => ?_
    rw [get?_eq_some_iff, get?_eq_some_iff, erase, List.mem_filter]
    simp [h]

/-- `d.setdefault(k, v)`. -/
def setDefault (d : Dict κ α) (k : κ) (v : α) : Dict κ α :=
  if k ∈ d then d else d.set k v

theorem get?_setDefault_of_ne (d : Dict κ α) {k k' : κ} (h : k' ≠ k) (v : α) :
    (d.setDefault k v).get? k' = d.get? k' := by
  by_cases hk : k ∈ d
  · rw [setDefault, if_pos hk]
  · rw [setDefault, if_neg hk, get?_set_of_ne d h]

theorem get?_setDefault_self (d : Dict κ α) (k : κ) (v : α) :
    (d.setDefault k v).get? k = some ((d.get? k).getD v) := by
  by_cases hk : k ∈ d
  · obtain ⟨w, hw⟩ := (d.mem_iff_exists_get? k).mp hk
    rw [setDefault, if_pos hk, hw]
    rfl
  · rw [setDefault, if_neg hk, get?_set_self, (d.get?_eq_none_iff k).mpr hk]
    rfl

/-- `{f(x): x for x in l}`: later items win. -/
def ofList (l : List (κ × α)) : Dict κ α :=
  l.foldl (fun d p => d.set p.1 p.2) empty

theorem get?_foldl_set (l : List (κ × α)) (d : Dict κ α) (k : κ) :
    (l.foldl (fun d p => d.set p.1 p.2) d).get? k =
      (l.reverse.lookup k).or (d.get? k) := by
  induction l generalizing d with
  | nil => rfl
  | cons p l ih =>
      obtain ⟨k', v⟩ := p
      rw [List.foldl_cons, ih, List.reverse_cons, List.lookup_append, Option.or_assoc, get?_set]
      by_cases h : k = k'
      · subst h
        simp
      · have hne : (k == k') = false := by simpa using h
        simp [List.lookup_cons, h, hne]

/-- With distinct keys, looking up after the updates finds the item. -/
theorem get?_foldl_set_of_mem {l : List (κ × α)} (h : (l.map Prod.fst).Nodup) {k : κ} {v : α}
    (hmem : (k, v) ∈ l) (d : Dict κ α) :
    (l.foldl (fun d p => d.set p.1 p.2) d).get? k = some v := by
  have hrev : (l.reverse.map Prod.fst).Nodup := by
    rw [List.map_reverse, List.nodup_reverse]
    exact h
  have hlookup := (get?_eq_some_iff ⟨l.reverse, hrev⟩ k v).mpr (List.mem_reverse.mpr hmem)
  rw [get?] at hlookup
  rw [get?_foldl_set, hlookup, Option.some_or]

/-- With distinct keys, looking up in the built dictionary finds the item. -/
theorem get?_ofList_eq_some_iff {l : List (κ × α)} (h : (l.map Prod.fst).Nodup)
    (k : κ) (v : α) : (ofList l).get? k = some v ↔ (k, v) ∈ l := by
  have hrev : (l.reverse.map Prod.fst).Nodup := by
    rw [List.map_reverse, List.nodup_reverse]
    exact h
  have hlookup := get?_eq_some_iff ⟨l.reverse, hrev⟩ k v
  rw [ofList, get?_foldl_set, get?_empty, Option.or_none]
  rw [get?, List.mem_reverse] at hlookup
  exact hlookup

theorem mem_ofList_iff (l : List (κ × α)) (k : κ) :
    k ∈ ofList l ↔ k ∈ l.map Prod.fst := by
  rw [← not_iff_not, ← get?_eq_none_iff, ofList, get?_foldl_set, get?_empty, Option.or_none,
    List.lookup_eq_none_iff]
  simp only [List.mem_reverse, bne_iff_ne, List.mem_map, not_exists, not_and]
  exact ⟨fun h p hp hpk => h p hp hpk.symm, fun h p hp hpk => h p hp hpk.symm⟩

/-- An item of an updated dictionary is the new one or an old one. -/
theorem eq_or_mem_of_mem_items_set {d : Dict κ α} {k : κ} {v : α} {p : κ × α}
    (h : p ∈ (d.set k v).items) : p = (k, v) ∨ p ∈ d.items := by
  rw [← get?_eq_some_iff (d.set k v) p.1 p.2, get?_set] at h
  by_cases hk : p.1 = k
  · rw [if_pos hk] at h
    exact Or.inl (Prod.ext hk (Option.some.inj h).symm)
  · rw [if_neg hk, get?_eq_some_iff] at h
    exact Or.inr h

/-- What an update with every item keeps, the whole loop of updates keeps. -/
theorem forall_items_foldl_set {P : κ × α → Prop} {l : List (κ × α)} {d : Dict κ α}
    (hd : ∀ p ∈ d.items, P p) (hl : ∀ p ∈ l, P p) :
    ∀ p ∈ (l.foldl (fun d p => d.set p.1 p.2) d).items, P p := by
  induction l generalizing d with
  | nil => exact hd
  | cons q l ih =>
      refine ih (fun p hp => ?_) fun p hp => hl p (List.mem_cons_of_mem q hp)
      rcases eq_or_mem_of_mem_items_set hp with rfl | hp
      · exact hl _ List.mem_cons_self
      · exact hd p hp

/-! ## Dictionaries of lists -/

/-- `d[k].append(x)` on a `defaultdict(list)`. -/
def append (d : Dict κ (List α)) (k : κ) (x : α) : Dict κ (List α) :=
  d.set k (d.getD k [] ++ [x])

theorem getD_append (d : Dict κ (List α)) (k k' : κ) (x : α) :
    (d.append k x).getD k' [] = d.getD k' [] ++ if k' = k then [x] else [] := by
  rw [append, getD, get?_set]
  by_cases h : k' = k
  · subst h
    simp
  · simp [h, getD]

theorem getD_of_mem_items {d : Dict κ α} {p : κ × α} (h : p ∈ d.items) (default : α) :
    d.getD p.1 default = p.2 := by
  rw [getD, (d.get?_eq_some_iff p.1 p.2).mpr h]
  rfl

/-- What holds of every key, or of the default elsewhere, holds of every item. -/
theorem forall_items_iff (d : Dict κ α) (default : α) {P : κ → α → Prop} :
    (∀ p ∈ d.items, P p.1 p.2) ↔ ∀ k ∈ d, P k (d.getD k default) := by
  constructor
  · intro hall k hk
    obtain ⟨v, hv⟩ := (d.mem_iff_exists_get? k).mp hk
    rw [getD, hv]
    exact hall (k, v) ((d.get?_eq_some_iff k v).mp hv)
  · intro hall p hp
    rw [← getD_of_mem_items hp default]
    exact hall p.1 ((d.mem_iff p.1).mpr (List.mem_map_of_mem hp))

theorem getD_of_notMem {d : Dict κ α} {k : κ} (h : k ∉ d) (default : α) :
    d.getD k default = default := by
  rw [getD, (d.get?_eq_none_iff k).mpr h]
  rfl

omit [DecidableEq κ] in
/-- Every element of every value, with its key. -/
def pairs (d : Dict κ (List α)) : List (κ × α) :=
  d.items.flatMap fun p => p.2.map fun x => (p.1, x)

omit [DecidableEq κ] in
theorem map_snd_pairs (d : Dict κ (List α)) : d.pairs.map Prod.snd = d.values.flatten := by
  rw [pairs, values, List.map_flatMap, ← List.flatMap_def]
  simp [Function.comp_def]

theorem filter_pairs (d : Dict κ (List α)) (k : κ) :
    (d.pairs.filter fun p => p.1 = k).map Prod.snd = d.getD k [] := by
  have hnone : ∀ l : List (κ × List α), k ∉ l.map Prod.fst →
      (l.flatMap fun p => p.2.map fun x => (p.1, x)).filter (fun p => p.1 = k) = [] := by
    intro l hk
    rw [List.filter_eq_nil_iff]
    intro p hp
    obtain ⟨q, hq, hp⟩ := List.mem_flatMap.mp hp
    obtain ⟨x, -, rfl⟩ := List.mem_map.mp hp
    have hne : q.1 ≠ k := by
      rintro rfl
      exact hk (List.mem_map_of_mem hq)
    simpa using hne
  by_cases h : k ∈ d
  · obtain ⟨v, hv⟩ := (d.mem_iff_exists_get? k).mp h
    obtain ⟨l₁, l₂, hl⟩ := List.append_of_mem ((d.get?_eq_some_iff k v).mp hv)
    have hnodup := d.nodup_keys
    rw [hl, List.map_append, List.map_cons, List.nodup_middle, List.nodup_cons,
      List.mem_append, not_or] at hnodup
    obtain ⟨⟨h₁, h₂⟩, -⟩ := hnodup
    rw [getD, hv, pairs, hl, List.flatMap_append, List.flatMap_cons, List.filter_append,
      List.filter_append, hnone l₁ h₁, hnone l₂ h₂]
    simp [List.filter_map, Function.comp_def]
  · rw [getD, (d.get?_eq_none_iff k).mpr h, pairs, hnone d.items h]
    rfl

theorem mem_pairs_iff (d : Dict κ (List α)) (k : κ) (x : α) :
    (k, x) ∈ d.pairs ↔ x ∈ d.getD k [] := by
  rw [← filter_pairs, List.mem_map]
  constructor
  · intro h
    exact ⟨(k, x), List.mem_filter.mpr ⟨h, by simp⟩, rfl⟩
  · rintro ⟨p, hp, rfl⟩
    obtain ⟨hmem, hk⟩ := List.mem_filter.mp hp
    obtain rfl : p.1 = k := by simpa using hk
    exact hmem

/-- Appending adds one element to the values and moves none. -/
theorem flatten_values_append (d : Dict κ (List α)) (k : κ) (x : α) :
    (d.append k x).values.flatten.Perm (d.values.flatten ++ [x]) := by
  by_cases h : k ∈ d
  · obtain ⟨v, hv⟩ := (d.mem_iff_exists_get? k).mp h
    obtain ⟨l₁, l₂, hl⟩ := List.append_of_mem ((d.get?_eq_some_iff k v).mp hv)
    have hnodup := d.nodup_keys
    rw [hl, List.map_append, List.map_cons, List.nodup_middle, List.nodup_cons,
      List.mem_append, not_or] at hnodup
    obtain ⟨⟨h₁, h₂⟩, -⟩ := hnodup
    have hkeep : ∀ l : List (κ × List α), k ∉ l.map Prod.fst →
        l.map (fun p => if p.1 = k then v ++ [x] else p.2) = l.map Prod.snd := by
      intro l hk
      refine List.map_congr_left fun p hp => if_neg ?_
      rintro rfl
      exact hk (List.mem_map_of_mem hp)
    have hvalues : (d.append k x).values =
        l₁.map Prod.snd ++ (v ++ [x]) :: l₂.map Prod.snd := by
      rw [append, getD, hv, set_of_mem d h, values, items_mapValues, List.map_map, hl,
        ← hkeep l₁ h₁, ← hkeep l₂ h₂]
      simp only [List.map_append, List.map_cons, Function.comp_apply, if_true]
      rfl
    rw [hvalues, values, hl]
    simp only [List.flatten_append, List.flatten_cons, List.map_append, List.map_cons,
      List.append_assoc]
    refine List.Perm.append_left _ (List.Perm.append_left _ ?_)
    exact List.perm_append_comm
  · have hv : d.get? k = none := (d.get?_eq_none_iff k).mpr h
    rw [append, getD, hv, values, items_set_of_notMem d h]
    simp [values]

theorem count_pairs [DecidableEq α] (d : Dict κ (List α)) (p : κ × α) :
    d.pairs.count p = (d.getD p.1 []).count p.2 := by
  rw [← filter_pairs, List.count, List.count, List.countP_map, List.countP_filter]
  refine List.countP_congr fun q _ => ?_
  simp [Prod.ext_iff, and_comm]

/-- The pairs of a dictionary that holds the lists `f` at the keys in `l`. -/
theorem pairs_perm_of_getD {d : Dict κ (List α)} {l : List κ} (hl : l.Nodup) {f : κ → List α}
    (h : ∀ k, d.getD k [] = if k ∈ l then f k else []) :
    d.pairs.Perm (l.flatMap fun k => (f k).map fun x => (k, x)) := by
  classical
  let d' : Dict κ (List α) :=
    ⟨l.map fun k => (k, f k), by rwa [List.map_map, Function.comp_def, List.map_id']⟩
  have hpairs : d'.pairs = l.flatMap fun k => (f k).map fun x => (k, x) := List.flatMap_map _ _ l
  have hgetD : ∀ k, d'.getD k [] = if k ∈ l then f k else [] := by
    intro k
    by_cases hk : k ∈ l
    · have hget : d'.get? k = some (f k) :=
        (d'.get?_eq_some_iff k (f k)).mpr (List.mem_map_of_mem hk)
      rw [getD, hget, if_pos hk]
      rfl
    · have hget : d'.get? k = none := by
        rw [get?_eq_none_iff]
        rintro hmem
        obtain ⟨p, hp, rfl⟩ := List.mem_map.mp hmem
        obtain ⟨k', hk', rfl⟩ := List.mem_map.mp hp
        exact hk hk'
      rw [getD, hget, if_neg hk]
      rfl
  rw [← hpairs, List.perm_iff_count]
  intro p
  rw [count_pairs, count_pairs, h, hgetD]

/-- A dictionary of sublists holds no pair more often. -/
theorem subperm_pairs {d d' : Dict κ (List α)}
    (h : ∀ k, (d.getD k []).Sublist (d'.getD k [])) : d.pairs.Subperm d'.pairs := by
  classical
  rw [List.subperm_ext_iff]
  intro p _
  rw [count_pairs, count_pairs]
  exact (h p.1).count_le p.2

omit [DecidableEq κ] in
theorem pairs_mapValues_map (d : Dict κ (List α)) (f : α → β) :
    (d.mapValues fun _ l => l.map f).pairs = d.pairs.map fun p => (p.1, f p.2) := by
  rw [pairs, pairs, items_mapValues, List.flatMap_map, List.map_flatMap]
  simp only [List.map_map]
  rfl

theorem getD_mapValues_map (d : Dict κ (List α)) (f : α → β) (k : κ) :
    (d.mapValues fun _ l => l.map f).getD k [] = (d.getD k []).map f := by
  rw [getD, getD, get?_mapValues]
  cases d.get? k <;> rfl

end Dict
