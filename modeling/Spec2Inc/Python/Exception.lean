import Spec2Inc.Python.Dict

/-!
# Exceptions

The exceptions the modelled code raises or lets through, with their texts. A
fallible function returns `Except Exception α`; what a third-party call raises
is an `other` with the name of its class, or a `baseException` where the class
is not one of `Exception`'s.
-/

universe u

namespace Python

inductive Exception
  | valueError (msg : String)
  | keyError (key : String)
  | typeError (msg : String)
  | assertionError (msg : String)
  | runtimeError (msg : String)
  | fileNotFoundError (msg : String)
  | systemExit (msg : String)
  | other (cls msg : String)
  | baseException (cls msg : String)
  deriving DecidableEq, Repr

/-- `type(exc).__name__`. -/
def Exception.name : Exception → String
  | valueError _ => "ValueError"
  | keyError _ => "KeyError"
  | typeError _ => "TypeError"
  | assertionError _ => "AssertionError"
  | runtimeError _ => "RuntimeError"
  | fileNotFoundError _ => "FileNotFoundError"
  | systemExit _ => "SystemExit"
  | other cls _ => cls
  | baseException cls _ => cls

/-- What `except Exception` catches: everything but `SystemExit` and the other
classes outside `Exception`. -/
def Exception.isException : Exception → Bool
  | systemExit _ => false
  | baseException _ _ => false
  | _ => true

/-- `d[k]`. -/
def index {κ α : Type*} [DecidableEq κ] [ToString κ] (d : Dict κ α) (k : κ) :
    Except Exception α :=
  match d.get? k with
  | some v => .ok v
  | none => .error (.keyError (toString k))

@[simp] theorem index_eq_ok_iff {κ α : Type*} [DecidableEq κ] [ToString κ] {d : Dict κ α}
    {k : κ} {v : α} : index d k = .ok v ↔ d.get? k = some v := by
  cases h : d.get? k <;> simp [index, h]

/-- `assert cond, msg`. -/
def assertThat (cond : Prop) [Decidable cond] (msg : String) : Except Exception Unit :=
  if cond then .ok () else .error (.assertionError msg)

@[simp] theorem assertThat_eq_ok_iff {cond : Prop} [Decidable cond] {msg : String} :
    assertThat cond msg = .ok () ↔ cond := by
  by_cases h : cond <;> simp [assertThat, h]

theorem bind_eq_ok_iff {ε : Type*} {α β : Type u} {x : Except ε α} {f : α → Except ε β} {b : β} :
    (x >>= f) = .ok b ↔ ∃ a, x = .ok a ∧ f a = .ok b := by
  cases x with
  | error e => simp [bind, Except.bind]
  | ok a => simp [bind, Except.bind]

/-- The same where the first part returns nothing. -/
theorem seq_eq_ok_iff {ε β : Type} {x : Except ε Unit} {f : Unit → Except ε β} {b : β} :
    (x >>= f) = .ok b ↔ x = .ok () ∧ f () = .ok b := by
  rw [bind_eq_ok_iff]
  constructor
  · rintro ⟨_, h, hf⟩
    exact ⟨h, hf⟩
  · rintro ⟨h, hf⟩
    exact ⟨(), h, hf⟩

/-- A loop over a list succeeds when its body does at every element. -/
theorem forM_eq_ok_iff {ε α : Type*} {l : List α} {f : α → Except ε PUnit} :
    forM l f = .ok () ↔ ∀ x ∈ l, f x = .ok () := by
  induction l with
  | nil => simp [pure, Except.pure]
  | cons x l ih =>
      rw [List.forM_cons, bind_eq_ok_iff, List.forall_mem_cons, ← ih]
      constructor
      · rintro ⟨_, hx, hl⟩
        exact ⟨hx, hl⟩
      · rintro ⟨hx, hl⟩
        exact ⟨_, hx, hl⟩

/-- What the start has and every pass keeps, the end of a fallible loop has. -/
theorem foldlM_invariant {ε : Type*} {α : Type*} {β : Type u} {f : β → α → Except ε β}
    {Inv : β → Prop} {l : List α} {b b' : β} (hb : Inv b)
    (hstep : ∀ b a b', a ∈ l → Inv b → f b a = .ok b' → Inv b')
    (h : l.foldlM f b = .ok b') : Inv b' := by
  induction l generalizing b with
  | nil =>
      obtain rfl := Except.ok.inj h
      exact hb
  | cons a l ih =>
      obtain ⟨c, hc, h⟩ := bind_eq_ok_iff.mp h
      exact ih (hstep b a c (by simp) hb hc)
        (fun b a b' ha => hstep b a b' (List.mem_cons_of_mem _ ha)) h

/-! ## Parts that leave a state when they raise -/

section

variable {σ α : Type} {I : σ → Prop} {P P' : Prop} {Q : α → σ → Prop}

/-- The part returns exactly when `P` holds, and then with `Q`; the state it
leaves has `I` either way. -/
structure Ends (I : σ → Prop) (P : Prop) (Q : α → σ → Prop) (out : σ × Except Exception α) :
    Prop where
  always : I out.1
  returned : ∀ a, out.2 = .ok a → P ∧ Q a out.1
  raised : ∀ e, out.2 = .error e → ¬ P

theorem Ends.ok {s : σ} {a : α} (hI : I s) (hP : P) (hQ : Q a s) : Ends I P Q (s, .ok a) where
  always := hI
  returned a' ha' := by
    obtain rfl := Except.ok.inj ha'
    exact ⟨hP, hQ⟩
  raised e he := by cases he

theorem Ends.error {s : σ} {e : Exception} (hI : I s) (hP : ¬ P) :
    Ends I P Q (s, .error e) where
  always := hI
  returned a ha := by cases ha
  raised _ _ := hP

theorem Ends.of_ok {s : σ} {a : α} (h : Ends I P Q (s, .ok a)) : I s ∧ P ∧ Q a s :=
  ⟨h.always, h.returned a rfl⟩

theorem Ends.of_error {s : σ} {e : Exception} (h : Ends I P Q (s, .error e)) : I s ∧ ¬ P :=
  ⟨h.always, h.raised e rfl⟩

theorem Ends.exists_ok {out : σ × Except Exception α} (h : Ends I P Q out) (hP : P) :
    ∃ a, out.2 = .ok a := by
  cases hout : out.2 with
  | error e => exact absurd hP (h.raised e hout)
  | ok a => exact ⟨a, rfl⟩

theorem Ends.congr {out : σ × Except Exception α} (h : Ends I P Q out) (hP : P ↔ P') :
    Ends I P' Q out where
  always := h.always
  returned a ha := ⟨hP.mp (h.returned a ha).1, (h.returned a ha).2⟩
  raised e he := fun hP' => h.raised e he (hP.mpr hP')

end

end Python
