import Spec2Inc.Verif.ReqXbar.Protocol
import Spec2Inc.Verif.ReqXbar.Scoreboard

/-!
# The sink monitor

`Harness.sinks` records every beat that transfers on a sink, as far as it can
read the sink bus, and counts the cycles in which it cannot. What it has recorded
for a sink is what the readings show to be taken there, in order
(`Sinks.watched_spec`).
-/

open Bits Python

namespace ReqXbar

/-- The fields `sinks` appends to. -/
structure Sinks where
  blindCycles : ℕ
  seen : Dict ℤ (List Fields)

namespace Sinks

def start : Sinks := ⟨0, Dict.empty⟩

/-- The body of the loop over the sinks. -/
def watchSink (valid ready words : ℕ) (k : Sinks) (d : ℕ) : Sinks :=
  if valid.testBit d && ready.testBit d then
    { k with seen := k.seen.append d (unpack (busWord reqW words d)) }
  else
    k

/-- One cycle. -/
def watch (nPorts : ℕ) (k : Sinks) (r : Reading) : Sinks :=
  match r.valid, r.ready, r.words with
  | some valid, some ready, some words =>
    (List.range nPorts).foldl (watchSink valid ready words) k
  | _, _, _ => { k with blindCycles := k.blindCycles + 1 }

/-- The coroutine, over the readings made while it is running. -/
def watched (nPorts : ℕ) (readings : List Reading) : Sinks :=
  readings.foldl (watch nPorts) start

end Sinks

namespace Reading

variable (r : Reading)

/-- All three signals can be read. -/
def Readable : Prop := r.valid ≠ none ∧ r.ready ≠ none ∧ r.words ≠ none

/-- The word that a reading shows to be taken at sink `d`, if any. -/
def delivered (d : ℕ) : List ℕ :=
  match r.valid, r.ready, r.words with
  | some valid, some ready, some words =>
    if valid.testBit d && ready.testBit d then [busWord reqW words d] else []
  | _, _, _ => []

/-- A readable reading is that of a sample. -/
def sample : Sample := ⟨r.valid.getD 0, r.ready.getD 0, r.words.getD 0⟩

variable {r}

theorem Readable.reading_sample (h : r.Readable) : r.sample.reading = r := by
  obtain ⟨valid, ready, words⟩ := r
  obtain ⟨hvalid, hready, hwords⟩ := h
  obtain ⟨valid, rfl⟩ := Option.ne_none_iff_exists'.mp hvalid
  obtain ⟨ready, rfl⟩ := Option.ne_none_iff_exists'.mp hready
  obtain ⟨words, rfl⟩ := Option.ne_none_iff_exists'.mp hwords
  rfl

theorem delivered_reading (s : Sample) (d : ℕ) :
    s.reading.delivered d = if s.valid.testBit d && s.ready.testBit d then [s.word d] else [] :=
  rfl

theorem delivered_of_not_readable (h : ¬ r.Readable) (d : ℕ) : r.delivered d = [] := by
  obtain ⟨valid, ready, words⟩ := r
  rcases valid with - | valid
  · rfl
  rcases ready with - | ready
  · rfl
  rcases words with - | words
  · rfl
  exact absurd ⟨Option.some_ne_none _, Option.some_ne_none _, Option.some_ne_none _⟩ h

/-- A sink that refuses an offer is delivered nothing. -/
theorem delivered_of_blocked (hr : r.Readable) {d : ℕ} (h : r.sample.Blocked d) :
    r.delivered d = [] := by
  rw [← hr.reading_sample, delivered_reading, h.2, Bool.and_false]
  rfl

theorem lt_of_mem_delivered {d w : ℕ} (h : w ∈ r.delivered d) : w < 2 ^ reqW := by
  by_cases hr : r.Readable
  · rw [← hr.reading_sample, delivered_reading] at h
    split at h
    · rw [List.mem_singleton.mp h]
      exact busWord_lt _ _ _
    · cases h
  · rw [delivered_of_not_readable hr] at h
    cases h

end Reading

namespace Sinks

variable {nPorts : ℕ} (k : Sinks)

theorem watch_of_not_readable {r : Reading} (h : ¬ r.Readable) :
    k.watch nPorts r = { k with blindCycles := k.blindCycles + 1 } := by
  obtain ⟨valid, ready, words⟩ := r
  rcases valid with - | valid
  · rfl
  rcases ready with - | ready
  · rfl
  rcases words with - | words
  · rfl
  exact absurd ⟨Option.some_ne_none _, Option.some_ne_none _, Option.some_ne_none _⟩ h

/-- The sinks below `n` are recorded, the others are not. -/
theorem foldl_watchSink_spec (s : Sample) (n : ℕ) :
    ((List.range n).foldl (watchSink s.valid s.ready s.words) k).blindCycles = k.blindCycles ∧
      ∀ d : ℤ, ((List.range n).foldl (watchSink s.valid s.ready s.words) k).seen.getD d [] =
        k.seen.getD d [] ++
          if 0 ≤ d ∧ d < n then (s.reading.delivered d.toNat).map unpack else [] := by
  induction n with
  | zero =>
      refine ⟨rfl, fun d => ?_⟩
      rw [if_neg (by omega), List.append_nil]
      rfl
  | succ n ih =>
      obtain ⟨hblind, hseen⟩ := ih
      rw [List.range_succ, List.foldl_append, List.foldl_cons, List.foldl_nil]
      set k' := (List.range n).foldl (watchSink s.valid s.ready s.words) k
      have hdelivered := Reading.delivered_reading s n
      by_cases hbit : (s.valid.testBit n && s.ready.testBit n) = true
      · rw [if_pos hbit] at hdelivered
        rw [watchSink, if_pos hbit]
        refine ⟨hblind, fun d => ?_⟩
        rw [Dict.getD_append, hseen]
        by_cases hd : d = n
        · subst hd
          rw [if_neg (by omega), if_pos rfl, if_pos (by omega), Int.toNat_natCast, hdelivered,
            List.append_nil]
          rfl
        · rw [if_neg hd, List.append_nil]
          have hiff : (0 ≤ d ∧ d < (n + 1 : ℕ)) ↔ 0 ≤ d ∧ d < n := by omega
          simp only [hiff]
      · rw [if_neg hbit] at hdelivered
        rw [watchSink, if_neg hbit]
        refine ⟨hblind, fun d => ?_⟩
        rw [hseen]
        by_cases hd : d = n
        · subst hd
          rw [if_neg (by omega), if_pos (by omega), Int.toNat_natCast, hdelivered, List.map_nil]
        · have hiff : (0 ≤ d ∧ d < (n + 1 : ℕ)) ↔ 0 ≤ d ∧ d < n := by omega
          simp only [hiff]

variable (nPorts) in
/-- One cycle. -/
theorem watch_spec (r : Reading) :
    ((k.watch nPorts r).blindCycles = 0 ↔ k.blindCycles = 0 ∧ r.Readable) ∧
      ∀ d : ℤ, (k.watch nPorts r).seen.getD d [] = k.seen.getD d [] ++
        if 0 ≤ d ∧ d < nPorts then (r.delivered d.toNat).map unpack else [] := by
  by_cases hr : r.Readable
  · obtain ⟨hblind, hseen⟩ := k.foldl_watchSink_spec r.sample nPorts
    rw [← hr.reading_sample]
    refine ⟨?_, hseen⟩
    change (List.foldl _ k _).blindCycles = 0 ↔ _
    rw [hblind, hr.reading_sample]
    exact (and_iff_left hr).symm
  · rw [k.watch_of_not_readable hr]
    refine ⟨iff_of_false (Nat.succ_ne_zero _) fun h => hr h.2, fun d => ?_⟩
    rw [Reading.delivered_of_not_readable hr, List.map_nil, ite_self, List.append_nil]

/-- The words that readings show to be taken at sink `d`. -/
def delivered (readings : List Reading) (d : ℕ) : List ℕ := readings.flatMap fun r => r.delivered d

/-- What a run of the monitor has recorded. -/
theorem watched_spec (nPorts : ℕ) (readings : List Reading) :
    ((watched nPorts readings).blindCycles = 0 ↔ ∀ r ∈ readings, r.Readable) ∧
      ∀ d : ℤ, (watched nPorts readings).seen.getD d [] =
        if 0 ≤ d ∧ d < nPorts then (delivered readings d.toNat).map unpack else [] := by
  induction readings using List.reverseRecOn with
  | nil =>
      refine ⟨iff_of_true rfl fun _ hr => absurd hr List.not_mem_nil, fun d => ?_⟩
      exact (ite_self []).symm
  | append_singleton readings r ih =>
      obtain ⟨hblind, hseen⟩ := ih
      rw [watched, List.foldl_append, List.foldl_cons, List.foldl_nil]
      obtain ⟨hblind', hseen'⟩ := watch_spec nPorts (watched nPorts readings) r
      refine ⟨?_, fun d => ?_⟩
      · refine hblind'.trans ?_
        rw [hblind, List.forall_mem_append, List.forall_mem_singleton]
      · refine (hseen' d).trans ?_
        rw [hseen, delivered, delivered, List.flatMap_append, List.map_append]
        by_cases hd : 0 ≤ d ∧ d < nPorts
        · simp only [if_pos hd, List.flatMap_singleton]
        · simp only [if_neg hd, List.append_nil]

end Sinks

end ReqXbar
