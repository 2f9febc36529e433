import Mathlib.Algebra.Order.BigOperators.Group.List
import Mathlib.Algebra.Order.Group.Nat
import Spec2Inc.Verif.ReqXbar.Verdict

/-!
# Where the toggling test looks away

`chaos` opens every sink at a falling edge, in the cycle in which the last source
returns. The monitors have then read the random bits of that cycle, while the
design sees every sink ready at the rising edge that ends it. A design that keeps
the contract at every rising edge is therefore accepted exactly when no offer is
refused by the bits of that one cycle (`toggling_test_accepts_correct_iff`).
-/

open Bits Clocked Python Spec2incPkg

namespace ReqXbar

/-- The reset is the pin, and what is offered does not depend on who is ready. -/
structure ReadyIndependent (D : Dut) : Prop where
  rstN : ∀ i, D.machine.rstN i = i.rstN
  mValid : ∀ q i r, D.mValid q { i with mReady := r } = D.mValid q i
  mReq : ∀ q i r, D.mReq q { i with mReady := r } = D.mReq q i

section Edges

variable (D : Dut) (nPorts : ℕ) (queues : ℕ → List Beat) (w : Wired D.σ Inputs)
  (gap : ℕ → ℕ → Bool) (bits : ℕ → ℕ)

/-- The toggling test in cycle `t`. -/
abbrev chaosAt (t : ℕ) : World D := worldAt D nPorts (.chaos nPorts gap bits) queues w t

/-- The design and its pins in cycle `t`, up to the falling edge. -/
abbrev sampledAt (t : ℕ) : Wired D.σ Inputs := wiredAt D nPorts (.chaos nPorts gap bits) queues w t

/-- The design and its pins at the rising edge that ends cycle `t`. -/
def clockedAt (t : ℕ) : Wired D.σ Inputs :=
  ((chaosAt D nPorts queues w gap bits t).settled D nPorts (.chaos nPorts gap bits)).wired

end Edges

variable {D : Dut} {nPorts : ℕ} {queues : ℕ → List Beat} {w : Wired D.σ Inputs}
  {gap : ℕ → ℕ → Bool} {bits : ℕ → ℕ} {t : ℕ}

theorem clockedAt_of_not_returned
    (h : (chaosAt D nPorts queues w gap bits t).returned nPorts = false) :
    clockedAt D nPorts queues w gap bits t = sampledAt D nPorts queues w gap bits t := by
  rw [clockedAt, World.settled, h]
  rfl

theorem clockedAt_of_returned
    (h : (chaosAt D nPorts queues w gap bits t).returned nPorts = true) :
    clockedAt D nPorts queues w gap bits t =
      ⟨D.machine.settle (sampledAt D nPorts queues w gap bits t).regs
          { (sampledAt D nPorts queues w gap bits t).pins with mReady := allReady nPorts },
        { (sampledAt D nPorts queues w gap bits t).pins with mReady := allReady nPorts }⟩ := by
  rw [clockedAt, World.settled, h]
  rfl

theorem rstN_clockedAt (t : ℕ) :
    (clockedAt D nPorts queues w gap bits t).pins.rstN =
      (sampledAt D nPorts queues w gap bits t).pins.rstN := by
  cases h : (chaosAt D nPorts queues w gap bits t).returned nPorts with
  | false => rw [clockedAt_of_not_returned h]
  | true => rw [clockedAt_of_returned h]

theorem rstN_sampledAt (hw : w.pins.rstN = true) (t : ℕ) :
    (sampledAt D nPorts queues w gap bits t).pins.rstN = true := by
  induction t with
  | zero => exact hw
  | succ t ih => exact (rstN_clockedAt t).trans ih

namespace Finishes

variable (h : Finishes D nPorts (.chaos nPorts gap bits) queues w t)
include h

theorem returned_of_le {u : ℕ} (hu : t ≤ u) :
    (chaosAt D nPorts queues w gap bits u).returned nPorts = true := by
  obtain ⟨n, rfl⟩ := Nat.exists_eq_add_of_le hu
  refine (World.returned_iff _).mpr fun s hs => ?_
  exact (congrArg Source.wait (h.sourceAt_eq hs n)).trans (h.wait_eq hs)

/-- Every sink is open in the cycles after. -/
theorem mReady_of_lt {u : ℕ} (hu : t < u) :
    (sampledAt D nPorts queues w gap bits u).pins.mReady = allReady nPorts := by
  obtain ⟨u, rfl⟩ := Nat.exists_eq_succ_of_ne_zero (Nat.ne_zero_of_lt hu)
  have hreturned := h.returned_of_le (Nat.lt_succ_iff.mp hu)
  change ((Stimulus.chaos nPorts gap bits).onRise (u + 1)
    ((chaosAt D nPorts queues w gap bits u).returned nPorts)).getD
      (clockedAt D nPorts queues w gap bits u).pins.mReady = _
  rw [hreturned, clockedAt_of_returned hreturned]
  rfl

variable (hD : ReadyIndependent D) (hw : w.pins.rstN = true)
include hD hw

/-- The two edges of a cycle see different pins in one cycle only. -/
theorem clockedAt_eq_of_ne {u : ℕ} (hu : u ≠ t) :
    clockedAt D nPorts queues w gap bits u = sampledAt D nPorts queues w gap bits u := by
  rcases Nat.lt_or_gt_of_ne hu with hlt | hgt
  · exact clockedAt_of_not_returned (h.first u hlt)
  · have hopen : { (sampledAt D nPorts queues w gap bits u).pins with mReady := allReady nPorts } =
        (sampledAt D nPorts queues w gap bits u).pins := by
      rw [← h.mReady_of_lt hgt]
    rw [clockedAt_of_returned (h.returned_of_le hgt.le), hopen,
      Machine.settle_of_high _ ((hD.rstN _).trans (rstN_sampledAt hw u))]

theorem clockedAt_eq :
    clockedAt D nPorts queues w gap bits t =
      ⟨(sampledAt D nPorts queues w gap bits t).regs,
        { (sampledAt D nPorts queues w gap bits t).pins with mReady := allReady nPorts }⟩ := by
  rw [clockedAt_of_returned h.returned, Machine.settle_of_high _ ?_]
  rw [hD.rstN]
  exact rstN_sampledAt hw t

/-- The readings of the two edges. -/
theorem reading_clockedAt (u : ℕ) :
    reading D (clockedAt D nPorts queues w gap bits u) =
      { reading D (sampledAt D nPorts queues w gap bits u) with
        ready := some (clockedAt D nPorts queues w gap bits u).pins.mReady } := by
  by_cases hu : u = t
  · subst hu
    rw [h.clockedAt_eq hD hw, reading, hD.mValid, hD.mReq]
    rfl
  · rw [h.clockedAt_eq_of_ne hD hw hu]
    rfl

theorem readable_clockedAt_iff (u : ℕ) :
    (reading D (clockedAt D nPorts queues w gap bits u)).Readable ↔
      (reading D (sampledAt D nPorts queues w gap bits u)).Readable := by
  rw [h.reading_clockedAt hD hw]
  exact and_congr_right fun _ => and_congr_left fun _ => iff_of_true (by simp) (by simp [reading])

/-- Nothing is accepted in the cycle in which they differ. -/
theorem accepted_clockedAt (T : ℕ) {s : ℕ} (hs : s < nPorts + 2) :
    accepted D (clockedAt D nPorts queues w gap bits) T s =
      accepted D (sampledAt D nPorts queues w gap bits) T s := by
  refine List.flatMap_congr fun u _ => ?_
  by_cases hu : u = t
  · subst hu
    have hvalid : (sampledAt D nPorts queues w gap bits u).pins.sValid.testBit s = false := by
      rw [testBit_sValid_wiredAt D nPorts _ queues w u hs,
        valid_of_returned D nPorts _ queues w hs (h.wait_eq hs)]
    rw [h.clockedAt_eq hD hw, acceptedIn, acceptedIn, hvalid]
    rfl
  · rw [h.clockedAt_eq_of_ne hD hw hu]

/-- In a readable cycle the open sinks deliver at least what was sampled, and more
where an offer was refused. -/
theorem delivered_reading_clockedAt (u : ℕ) {d : ℕ} (hd : d < nPorts)
    (hr : (reading D (sampledAt D nPorts queues w gap bits u)).Readable) :
    (reading D (clockedAt D nPorts queues w gap bits u)).delivered d =
      if u = t ∧ (reading D (sampledAt D nPorts queues w gap bits u)).sample.Blocked d then
        [(reading D (sampledAt D nPorts queues w gap bits u)).sample.word d]
      else (reading D (sampledAt D nPorts queues w gap bits u)).delivered d := by
  by_cases hu : u = t
  · subst hu
    have hopen := h.reading_clockedAt hD hw u
    rw [h.clockedAt_eq hD hw] at hopen ⊢
    rw [hopen, ← hr.reading_sample]
    set s := (reading D (sampledAt D nPorts queues w gap bits u)).sample
    change ({ s with ready := allReady nPorts } : Sample).reading.delivered d = _
    have hblocked : s.reading.sample.Blocked d ↔
        s.valid.testBit d = true ∧ s.ready.testBit d = false := Iff.rfl
    rw [Reading.delivered_reading, Reading.delivered_reading, testBit_allReady hd]
    simp only [hblocked, true_and]
    cases hv : s.valid.testBit d with
    | false => rfl
    | true =>
        cases hb : s.ready.testBit d with
        | false => rfl
        | true => rfl
  · rw [if_neg fun hc => hu hc.1, h.clockedAt_eq_of_ne hD hw hu]

/-- One delivery is not sampled where an offer is refused, and no other. -/
theorem length_delivered_clockedAt {T : ℕ}
    (hr : ∀ u < T, (reading D (sampledAt D nPorts queues w gap bits u)).Readable)
    {d : ℕ} (hd : d < nPorts) :
    (delivered D (clockedAt D nPorts queues w gap bits) T d).length =
      (delivered D (sampledAt D nPorts queues w gap bits) T d).length +
        if t < T ∧ (reading D (sampledAt D nPorts queues w gap bits t)).sample.Blocked d then 1
        else 0 := by
  induction T with
  | zero => rw [if_neg fun hc => Nat.not_lt_zero _ hc.1]; rfl
  | succ T ih =>
      have hread := hr T (Nat.lt_succ_self T)
      rw [delivered_succ, delivered_succ, List.length_append, List.length_append,
        ih fun u hu => hr u (Nat.lt_succ_of_lt hu),
        h.delivered_reading_clockedAt hD hw T hd hread]
      by_cases hT : T = t
      · subst hT
        by_cases hblocked : (reading D (sampledAt D nPorts queues w gap bits T)).sample.Blocked d
        · rw [if_neg fun hc => Nat.lt_irrefl T hc.1, if_pos ⟨rfl, hblocked⟩,
            if_pos ⟨Nat.lt_succ_self T, hblocked⟩, Reading.delivered_of_blocked hread hblocked]
          rfl
        · simp only [hblocked, and_false, if_false]
          rfl
      · have hiff : t < T + 1 ↔ t < T := by omega
        simp only [hT, false_and, if_false, hiff]
        omega

theorem delivered_clockedAt {T : ℕ}
    (hr : ∀ u < T, (reading D (sampledAt D nPorts queues w gap bits u)).Readable)
    {d : ℕ} (hd : d < nPorts)
    (hfree : ¬ (reading D (sampledAt D nPorts queues w gap bits t)).sample.Blocked d) :
    delivered D (clockedAt D nPorts queues w gap bits) T d =
      delivered D (sampledAt D nPorts queues w gap bits) T d := by
  induction T with
  | zero => rfl
  | succ T ih =>
      rw [delivered_succ, delivered_succ, ih fun u hu => hr u (Nat.lt_succ_of_lt hu),
        h.delivered_reading_clockedAt hD hw T hd (hr T (Nat.lt_succ_self T)), if_neg]
      rintro ⟨rfl, hblocked⟩
      exact hfree hblocked

/-- A rule broken in the samples is broken at the rising edges. -/
theorem channelRules_sampledAt {T : ℕ}
    (hfree : ∀ d < nPorts, ¬ (reading D (sampledAt D nPorts queues w gap bits t)).sample.Blocked d)
    (hrules : ChannelRules nPorts
      (fun u => (reading D (clockedAt D nPorts queues w gap bits u)).sample) T) :
    ChannelRules nPorts
      (fun u => (reading D (sampledAt D nPorts queues w gap bits u)).sample) T := by
  have hblocked : ∀ u, ∀ d < nPorts,
      (reading D (sampledAt D nPorts queues w gap bits u)).sample.Blocked d →
        (reading D (clockedAt D nPorts queues w gap bits u)).sample.Blocked d := by
    intro u d hd hblocked
    rw [h.clockedAt_eq_of_ne hD hw]
    · exact hblocked
    · rintro rfl
      exact hfree d hd hblocked
  constructor
  · intro u d hu hd hrefused
    have hvalid := hrules.rule2 u d hu hd (hblocked u d hd hrefused)
    rwa [h.reading_clockedAt hD hw] at hvalid
  · intro u d hu hd hrefused
    have hword := hrules.rule3 u d hu hd (hblocked u d hd hrefused)
    rwa [h.reading_clockedAt hD hw, h.reading_clockedAt hD hw] at hword

/-- A design that keeps the contract at the rising edges is seen to keep it
exactly when no offer is refused in the cycle in which the last source returns. -/
theorem lawful_sampledAt_iff {T : ℕ} (hT : t < T)
    (hlawful : Lawful D nPorts (clockedAt D nPorts queues w gap bits) T) :
    Lawful D nPorts (sampledAt D nPorts queues w gap bits) T ↔
      ∀ d < nPorts, ¬ (reading D (sampledAt D nPorts queues w gap bits t)).sample.Blocked d := by
  have hread : ∀ u < T, (reading D (sampledAt D nPorts queues w gap bits u)).Readable :=
    fun u hu => (h.readable_clockedAt_iff hD hw u).mp (hlawful.readable u hu)
  have horders : orders nPorts (accepted D (clockedAt D nPorts queues w gap bits) T) =
      orders nPorts (accepted D (sampledAt D nPorts queues w gap bits) T) := by
    refine List.flatMap_congr fun s hs => ?_
    rw [h.accepted_clockedAt hD hw T (List.mem_range.mp hs)]
  constructor
  · intro hsampled d hd hblocked
    have hlength := (hsampled.routes.once.trans
      ((List.Perm.of_eq horders).symm.trans hlawful.routes.once.symm)).length_eq
    change (deliveries nPorts _).length = (deliveries nPorts _).length at hlength
    rw [length_deliveries, length_deliveries] at hlength
    refine absurd hlength (List.sum_lt_sum _ _ (fun d hd => ?_) ?_).ne
    · rw [h.length_delivered_clockedAt hD hw hread (List.mem_range.mp hd)]
      exact Nat.le_add_right _ _
    · refine ⟨d, List.mem_range.mpr hd, ?_⟩
      rw [h.length_delivered_clockedAt hD hw hread hd, if_pos ⟨hT, hblocked⟩]
      exact Nat.lt_succ_self _
  · intro hfree
    have hdelivered : ∀ d < nPorts, delivered D (clockedAt D nPorts queues w gap bits) T d =
        delivered D (sampledAt D nPorts queues w gap bits) T d := fun d hd =>
      h.delivered_clockedAt hD hw hread hd (hfree d hd)
    have hdeliveries : deliveries nPorts (delivered D (clockedAt D nPorts queues w gap bits) T) =
        deliveries nPorts (delivered D (sampledAt D nPorts queues w gap bits) T) := by
      refine List.flatMap_congr fun d hd => ?_
      rw [hdelivered d (List.mem_range.mp hd)]
    refine ⟨hread, h.channelRules_sampledAt hD hw hfree hlawful.rules, ?_, ?_, ?_⟩
    · exact (List.Perm.of_eq hdeliveries.symm).trans
        (hlawful.routes.once.trans (List.Perm.of_eq horders))
    · intro s hs d hd
      rw [← hdelivered d hd, ← h.accepted_clockedAt hD hw T hs]
      exact hlawful.routes.ordered s hs d hd
    · intro d hd
      rw [← hdelivered d hd]
      exact hlawful.routes.contiguous d hd

end Finishes

/-- The toggling test accepts a design that takes the traffic in time and keeps
the contract at every rising edge exactly when, in the cycle in which the last
source returns, the random bits refuse no offer. -/
theorem toggling_test_accepts_correct_iff (D : Dut) (nPorts : ℕ) (gap : ℕ → ℕ → Bool)
    (w : Wired D.σ Inputs) (rng : ℕ → Draws) (bits : ℕ → ℕ) (queues : Dict ℤ (List Beat)) (t : ℕ)
    (hD : ReadyIndependent D)
    (hqueues : makePackets rng (4 * (nPorts + 2)) (srcs nPorts) (dsts nPorts) 3 = .ok queues)
    (hfits : ∀ s < nPorts + 2, ∀ b ∈ queues.getD s [], Fits b.fields)
    (hfinishes : Finishes D nPorts (.chaos nPorts gap bits) (fun s => queues.getD s [])
      (started D nPorts w) t)
    (htime : t + 86 < timeoutCycles)
    (hlawful : Lawful D nPorts
      (clockedAt D nPorts (fun s => queues.getD s []) (started D nPorts w) gap bits) (t + 82)) :
    sinkReadyTogglingPreservesTraffic D nPorts gap w rng bits = .ok () ↔
      ∀ d < nPorts, ¬ (reading D (sampledAt D nPorts (fun s => queues.getD s [])
        (started D nPorts w) gap bits t)).sample.Blocked d := by
  have hT : t < t + 82 := Nat.lt_add_of_pos_right (by decide)
  refine Iff.trans ?_ (hfinishes.lawful_sampledAt_iff hD rfl hT hlawful)
  refine (random_traffic_iff (.chaos nPorts gap bits) w).trans ⟨?_, fun hsampled => ?_⟩
  · rintro ⟨queues', hqueues', u, hu, -, -, hsampled⟩
    obtain rfl := Except.ok.inj (hqueues.symm.trans hqueues')
    obtain rfl := hfinishes.unique hu
    exact hsampled
  · exact ⟨queues, hqueues, t, hfinishes, htime, hfits, hsampled⟩

instance : DecidableRel Continues := fun _ _ => inferInstanceAs (Decidable (_ → _))

/-- A crossbar with one register, for one port and the traffic of source 0. -/
def oneRegister : Dut where
  σ := Option ℕ
  machine :=
    { rstN := Inputs.rstN
      clear := fun _ => none
      edge := fun q i =>
        match q with
        | none => if i.sValid.testBit 0 then some (busWord reqW i.sReq 0) else none
        | some word => if i.mReady.testBit 0 then none else some word }
  sReady q _ := some q.isNone.toNat
  mReq q _ := some (q.getD 0)
  mValid q _ := some q.isSome.toNat

/-- Twelve packets of one beat. -/
def oneByOne : Dict ℤ (List Beat) :=
  ⟨[(0, (List.range 12).map fun k : ℕ => .make 0 0 0 (k + 1) 1 0 reqRead)], by decide⟩

/-- The register keeps the contract in this run, and the test rejects it: the last
word is offered in cycle 23, and bit 23 refuses it. -/
theorem toggling_test_rejects_one_register :
    sinkReadyTogglingPreservesTraffic oneRegister 1 (fun _ _ => false) ⟨none, ⟨true, 0, 0, 0⟩⟩
      (fun _ => ⟨0, 0, 0, 0, 0⟩) (fun t => if t = 23 then 0 else 1) ≠ .ok () := by
  have hD : ReadyIndependent oneRegister := ⟨fun _ => rfl, fun _ _ _ => rfl, fun _ _ _ => rfl⟩
  intro haccepts
  refine (toggling_test_accepts_correct_iff oneRegister 1 _ _ _ _ oneByOne 23 hD rfl
    (by decide +kernel) ⟨by decide +kernel, by decide +kernel⟩ (by decide) ?_).mp haccepts 0
    Nat.one_pos (by decide +kernel)
  have hopen : ∀ u < 105, (clockedAt oneRegister 1 (fun s => oneByOne.getD s [])
      (started oneRegister 1 ⟨none, ⟨true, 0, 0, 0⟩⟩) (fun _ _ => false)
        (fun t => if t = 23 then 0 else 1) u).pins.mReady.testBit 0 = true := by
    decide +kernel
  refine ⟨fun u _ => ⟨Option.some_ne_none _, Option.some_ne_none _, Option.some_ne_none _⟩,
    ⟨fun u d hu hd hblocked => ?_, fun u d hu hd hblocked => ?_⟩,
    ⟨List.Perm.of_eq (by decide +kernel), by decide +kernel, by decide +kernel⟩⟩
  · obtain rfl := Nat.lt_one_iff.mp hd
    exact absurd (hopen u (Nat.lt_of_succ_lt hu)) (Bool.eq_false_iff.mp hblocked.2)
  · obtain rfl := Nat.lt_one_iff.mp hd
    exact absurd (hopen u (Nat.lt_of_succ_lt hu)) (Bool.eq_false_iff.mp hblocked.2)

end ReqXbar
