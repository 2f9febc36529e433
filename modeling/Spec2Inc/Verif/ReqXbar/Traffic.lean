import Mathlib.Data.List.Range
import Spec2Inc.Python.Exception
import Spec2Inc.Verif.ReqXbar.Codec

/-!
# Beats and generated traffic

`Beat` and `make_packets` of the testbench of `req_xbar`. The random calls of
one packet take their outcomes from a `Draws`, and a stream of these stands for
the generator. `Generated` is what every beat appended keeps: the markers count
up from one, and each beat is well formed and sits in its own source's queue.
-/

open Python Spec2incPkg

namespace ReqXbar

abbrev reqRead : ℤ := 0

abbrev reqWrite : ℤ := 1

abbrev reqReadReduce : ℤ := 2

abbrev reqWriteMcast : ℤ := 3

abbrev reqBlockInvoke : ℤ := 4

/-- One injected beat, and where it is expected to land. -/
structure Beat where
  fields : Fields

namespace Beat

/-- The constructor: the marker is the data, and the position the address. -/
def make (src dst tag marker last seq op : ℤ) : Beat where
  fields
    | .op => op
    | .src => src
    | .dst => dst
    | .tag => tag
    | .addr => seq
    | .len => 1
    | .data => marker
    | .last => last

def src (b : Beat) : ℤ := b.fields .src

def dst (b : Beat) : ℤ := b.fields .dst

def marker (b : Beat) : ℤ := b.fields .data

def word (b : Beat) : ℕ := pack b.fields

/-- `f"{n:#x}"`. -/
def hex (n : ℤ) : String :=
  (if n < 0 then "-0x" else "0x") ++ String.ofList (Nat.toDigits 16 n.natAbs)

/-- `__repr__`. -/
def repr (b : Beat) : String :=
  s!"Beat(src={b.fields .src} dst={b.fields .dst} tag={b.fields .tag} " ++
    s!"op={b.fields .op} marker={hex (b.fields .data)} last={b.fields .last})"

end Beat

/-- The random numbers behind the five calls that make one packet. -/
structure Draws where
  src : ℕ
  dst : ℕ
  tag : ℕ
  op : ℕ
  beats : ℕ

/-- `rng.choice(xs)`. -/
def choice {α : Type*} (xs : List α) (draw : ℕ) : Except Exception α :=
  match xs[draw % xs.length]? with
  | some x => .ok x
  | none => .error (.other "IndexError" "Cannot choose from an empty sequence")

/-- `rng.randint(1, hi)`. -/
def randint (hi draw : ℕ) : Except Exception ℕ :=
  if hi = 0 then
    .error (.valueError s!"empty range in randrange(1, {hi + 1})")
  else
    .ok (1 + draw % hi)

def ops : List ℤ := [reqRead, reqWrite, reqReadReduce, reqWriteMcast, reqBlockInvoke]

/-- The queues built so far, and the next marker. -/
structure Generator where
  queues : Dict ℤ (List Beat)
  marker : ℕ

/-- The body of the inner loop: append beat `i` of a packet. -/
def Generator.appendBeat (src dst tag op : ℤ) (nBeats : ℕ) (g : Generator) (i : ℕ) :
    Generator where
  queues := g.queues.append src
    (.make src dst tag g.marker (if i = nBeats - 1 then 1 else 0) i op)
  marker := g.marker + 1

/-- The body of the outer loop: one packet. -/
def Generator.appendPacket (srcs dsts : List ℤ) (maxBeats : ℕ) (d : Draws)
    (g : Generator) : Except Exception Generator := do
  let src ← choice srcs d.src
  let dst ← choice dsts d.dst
  let tag := d.tag % 2 ^ tagW
  let op ← choice ops d.op
  let nBeats ← randint maxBeats d.beats
  .ok ((List.range nBeats).foldl (Generator.appendBeat src dst tag op nBeats) g)

/-- `make_packets`. -/
def makePackets (rng : ℕ → Draws) (nPackets : ℕ) (srcs dsts : List ℤ) (maxBeats : ℕ) :
    Except Exception (Dict ℤ (List Beat)) := do
  let g ← (List.range nPackets).foldlM
    (fun (g : Generator) k => g.appendPacket srcs dsts maxBeats (rng k)) ⟨Dict.empty, 1⟩
  .ok g.queues

/-! ## What the generator keeps -/

/-- The fields of a generated beat, save its marker. -/
structure Beat.WellFormed (srcs dsts : List ℤ) (maxBeats : ℕ) (b : Beat) : Prop where
  op : b.fields .op ∈ ops
  src : b.fields .src ∈ srcs
  dst : b.fields .dst ∈ dsts
  tag : 0 ≤ b.fields .tag ∧ b.fields .tag < 2 ^ tagW
  addr : 0 ≤ b.fields .addr ∧ b.fields .addr < maxBeats
  len : b.fields .len = 1
  last : b.fields .last = 0 ∨ b.fields .last = 1

/-- What every appended beat keeps. -/
structure Generated (srcs dsts : List ℤ) (maxBeats : ℕ) (g : Generator) : Prop where
  marker_pos : 1 ≤ g.marker
  markers : (g.queues.values.flatten.map Beat.marker).Perm
    ((List.range' 1 (g.marker - 1)).map Int.ofNat)
  src_eq : ∀ s, ∀ b ∈ g.queues.getD s [], b.src = s
  wellFormed : ∀ s, ∀ b ∈ g.queues.getD s [], b.WellFormed srcs dsts maxBeats

theorem mem_of_choice {α : Type*} {xs : List α} {draw : ℕ} {x : α}
    (h : choice xs draw = .ok x) : x ∈ xs := by
  cases hx : xs[draw % xs.length]? with
  | none => simp [choice, hx] at h
  | some y =>
      obtain rfl : y = x := by simpa [choice, hx] using h
      exact List.mem_of_getElem? hx

theorem le_of_randint {hi draw n : ℕ} (h : randint hi draw = .ok n) : n ≤ hi := by
  by_cases hhi : hi = 0
  · simp [randint, hhi] at h
  · have hn : 1 + draw % hi = n := by simpa [randint, hhi] using h
    have hmod := Nat.mod_lt draw (Nat.pos_of_ne_zero hhi)
    omega

variable {srcs dsts : List ℤ} {maxBeats : ℕ}

/-- A beat queued after an append was queued before, or is the one appended. -/
theorem mem_queues_appendBeat {g : Generator} {src dst tag op : ℤ} {nBeats i : ℕ} {s : ℤ}
    {b : Beat} (hb : b ∈ (g.appendBeat src dst tag op nBeats i).queues.getD s []) :
    b ∈ g.queues.getD s [] ∨
      s = src ∧ b = .make src dst tag g.marker (if i = nBeats - 1 then 1 else 0) i op := by
  rw [Generator.appendBeat, Dict.getD_append, List.mem_append] at hb
  rcases hb with hb | hb
  · exact Or.inl hb
  · by_cases hs : s = src
    · exact Or.inr ⟨hs, by simpa [hs] using hb⟩
    · simp [hs] at hb

theorem Generated.appendBeat {g : Generator} (hg : Generated srcs dsts maxBeats g)
    {src dst op : ℤ} {tag nBeats i : ℕ} (hsrc : src ∈ srcs) (hdst : dst ∈ dsts)
    (htag : tag < 2 ^ tagW) (hop : op ∈ ops) (hi : i < maxBeats) :
    Generated srcs dsts maxBeats (g.appendBeat src dst tag op nBeats i) where
  marker_pos := Nat.le_add_left 1 g.marker
  markers := by
    obtain ⟨n, hn⟩ : ∃ n, g.marker = n + 1 :=
      ⟨g.marker - 1, (Nat.sub_add_cancel hg.marker_pos).symm⟩
    have hmarkers := hg.markers
    refine ((Dict.flatten_values_append _ _ _).map Beat.marker).trans ?_
    rw [hn, Nat.add_sub_cancel] at hmarkers
    rw [List.map_append, Generator.appendBeat, hn, Nat.add_sub_cancel, List.range'_1_concat,
      List.map_append, add_comm 1 n]
    exact hmarkers.append (List.Perm.refl _)
  src_eq s b hb := by
    rcases mem_queues_appendBeat hb with hb | ⟨rfl, rfl⟩
    · exact hg.src_eq s b hb
    · rfl
  wellFormed s b hb := by
    rcases mem_queues_appendBeat hb with hb | ⟨rfl, rfl⟩
    · exact hg.wellFormed s b hb
    · have htag' : (tag : ℤ) < 2 ^ tagW := by exact_mod_cast htag
      have hi' : (i : ℤ) < maxBeats := by exact_mod_cast hi
      exact
        { op := hop
          src := hsrc
          dst := hdst
          tag := ⟨Int.natCast_nonneg _, htag'⟩
          addr := ⟨Int.natCast_nonneg _, hi'⟩
          len := rfl
          last := by
            by_cases hlast : i = nBeats - 1
            · exact Or.inr (if_pos hlast)
            · exact Or.inl (if_neg hlast) }

theorem Generated.appendPacket {g g' : Generator} (hg : Generated srcs dsts maxBeats g)
    {d : Draws} (h : g.appendPacket srcs dsts maxBeats d = .ok g') :
    Generated srcs dsts maxBeats g' := by
  obtain ⟨src, hsrc, h⟩ := bind_eq_ok_iff.mp h
  obtain ⟨dst, hdst, h⟩ := bind_eq_ok_iff.mp h
  obtain ⟨op, hop, h⟩ := bind_eq_ok_iff.mp h
  obtain ⟨nBeats, hn, h⟩ := bind_eq_ok_iff.mp h
  obtain rfl := Except.ok.inj h
  refine List.foldlRecOn _ _ hg fun g hg i hi => ?_
  refine hg.appendBeat (mem_of_choice hsrc) (mem_of_choice hdst)
    (Nat.mod_lt _ (Nat.two_pow_pos _)) (mem_of_choice hop) ?_
  exact (List.mem_range.mp hi).trans_le (le_of_randint hn)

theorem generated_start : Generated srcs dsts maxBeats ⟨Dict.empty, 1⟩ where
  marker_pos := le_rfl
  markers := List.Perm.refl _
  src_eq s b hb := by cases hb
  wellFormed s b hb := by cases hb

/-- The queues of `make_packets` are those of a generator that kept all this. -/
theorem exists_generated_of_makePackets {rng : ℕ → Draws} {nPackets : ℕ}
    {queues : Dict ℤ (List Beat)}
    (h : makePackets rng nPackets srcs dsts maxBeats = .ok queues) :
    ∃ marker, Generated srcs dsts maxBeats ⟨queues, marker⟩ := by
  obtain ⟨g, hg, h⟩ := bind_eq_ok_iff.mp h
  obtain rfl := Except.ok.inj h
  exact ⟨g.marker, foldlM_invariant generated_start
    (fun _ _ _ _ hg hstep => hg.appendPacket hstep) hg⟩

end ReqXbar
