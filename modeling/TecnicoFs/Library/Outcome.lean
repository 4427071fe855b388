import Mathlib.Logic.Basic

/-!
# Outcomes of computations that fail

A computation yields a value or ends with an error.  Besides the equations of
sequencing there is a postcondition that also rules out a class of errors.
-/

namespace TecnicoFs
namespace Library

variable {err alpha beta : Type}

@[simp] theorem ok_bind (a : alpha) (f : alpha -> Except err beta) :
    (Except.ok a : Except err alpha) >>= f = f a := rfl

@[simp] theorem error_bind (e : err) (f : alpha -> Except err beta) :
    (Except.error e : Except err alpha) >>= f = .error e := rfl

@[simp] theorem pure_ok (a : alpha) : (pure a : Except err alpha) = .ok a := rfl

theorem bind_eq_ok {x : Except err alpha} {f : alpha -> Except err beta} {b : beta} :
    x >>= f = .ok b <-> exists a, x = .ok a ∧ f a = .ok b := by
  cases x <;> simp

theorem map_eq_ok {x : Except err alpha} {f : alpha -> beta} {b : beta} :
    x.map f = .ok b <-> exists a, x = .ok a ∧ f a = b := by
  cases x <;> simp [Except.map]

theorem map_eq_error {x : Except err alpha} {f : alpha -> beta} {e : err} :
    x.map f = .error e <-> x = .error e := by
  cases x <;> simp [Except.map]

/-- The value has the property, and an error is not a bad one. -/
def Ensures (bad : err -> Prop) (x : Except err alpha) (P : alpha -> Prop) : Prop :=
  match x with
  | .ok a => P a
  | .error e => ¬ bad e

namespace Ensures

variable {bad : err -> Prop} {x : Except err alpha} {f : alpha -> Except err beta}
  {P Q : alpha -> Prop} {R : beta -> Prop}

theorem bind (hx : Ensures bad x P) (hf : forall a, P a -> Ensures bad (f a) R) :
    Ensures bad (x >>= f) R := by
  cases x with
  | error e => exact hx
  | ok a => exact hf a hx

theorem weaken (hx : Ensures bad x P) (himp : forall a, P a -> Q a) : Ensures bad x Q := by
  cases x with
  | error e => exact hx
  | ok a => exact himp a hx

/-- Fewer errors are bad. -/
theorem mono {bad' : err -> Prop} (hx : Ensures bad x P) (himp : forall e, bad' e -> bad e) :
    Ensures bad' x P := by
  cases x with
  | error e => exact fun hbad => hx (himp e hbad)
  | ok a => exact hx

/-- The value is the outcome. -/
theorem known (hx : Ensures bad x P) : Ensures bad x fun a => x = .ok a ∧ P a := by
  cases x with
  | error e => exact hx
  | ok a => exact ⟨rfl, hx⟩

theorem value {a : alpha} (hx : Ensures bad x P) (hok : x = .ok a) : P a := by
  rw [hok] at hx
  exact hx

theorem not_bad {e : err} (hx : Ensures bad x P) (herror : x = .error e) : ¬ bad e := by
  rw [herror] at hx
  exact hx

end Ensures
end Library
end TecnicoFs
