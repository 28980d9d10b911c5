import Mathlib

/-!
# Checks that end a computation with an error

A function that returns a `Result` reads as a sequence of checks and of steps that may fail. These are
the building blocks, each with the lemma that says when it succeeds.
-/

namespace Guard

variable {ε α β : Type}

/-- `if c { return Err(e) }` -/
def failIf (c : Prop) [Decidable c] (e : ε) : Except ε Unit :=
  if c then .error e else .ok ()

/-- A declared constraint: the computation goes on only if `c` holds. -/
def ensure (c : Prop) [Decidable c] (e : ε) : Except ε Unit :=
  if c then .ok () else .error e

/-- `o.ok_or(e)?` -/
def okOr (o : Option α) (e : ε) : Except ε α :=
  match o with
  | some a => .ok a
  | none => .error e

/-- The first result of a computation whose second one is `r`. -/
def expect [DecidableEq β] (x : Except ε (α × β)) (r : β) : Option α :=
  match x with
  | .ok (a, b) => if b = r then some a else none
  | .error _ => none

/-! ## When a step succeeds -/

@[simp] theorem bind_ok_iff {x : Except ε α} {f : α → Except ε β} {b : β} :
    x >>= f = .ok b ↔ ∃ a, x = .ok a ∧ f a = .ok b := by
  rcases x with e | a <;> simp [Bind.bind, Except.bind]

@[simp] theorem pure_ok_iff {a b : α} : (pure a : Except ε α) = .ok b ↔ a = b := by
  simp [pure, Except.pure]

@[simp] theorem failIf_ok_iff {c : Prop} [Decidable c] {e : ε} {u : Unit} :
    failIf c e = .ok u ↔ ¬ c := by
  by_cases h : c <;> simp [failIf, h]

@[simp] theorem ensure_ok_iff {c : Prop} [Decidable c] {e : ε} {u : Unit} :
    ensure c e = .ok u ↔ c := by
  by_cases h : c <;> simp [ensure, h]

@[simp] theorem okOr_ok_iff {o : Option α} {e : ε} {a : α} : okOr o e = .ok a ↔ o = some a := by
  cases o <;> simp [okOr]

theorem okOr_error {o : Option α} {e e' : ε} (h : okOr o e = .error e') : e' = e := by
  cases o with
  | none => exact (Except.error.inj h).symm
  | some a => cases h

theorem toOption_some_iff {x : Except ε α} {a : α} : x.toOption = some a ↔ x = .ok a := by
  cases x <;> simp [Except.toOption]

theorem expect_some_iff [DecidableEq β] {x : Except ε (α × β)} {r : β} {a : α} :
    expect x r = some a ↔ x = .ok (a, r) := by
  rcases x with e | ⟨b, c⟩
  · simp [expect]
  · simp [expect, and_comm]

end Guard
