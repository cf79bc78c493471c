import Mathlib.Logic.Basic

/-!
# Outcomes of calls

A call of an imperative function ends in one of three ways: it returns a value,
it throws an error, which its caller may catch, or it traps, which ends the
process (`Outcome`). Sequencing stops at the first call that does not return.

* `Outcome.bind_eq_returns` and `Outcome.bind_eq_throws` take a sequence apart
  into its steps: they are the inversion rules of every function written in this
  monad.
* `Outcome.guardLet` and `Outcome.guardElse` are the two forms of a guard that
  throws, `Outcome.attempt` discards a thrown error, `Outcome.lift` runs a call
  that cannot throw inside one that can, and `Outcome.settle` turns an error that
  is an early result into that result.
-/

/-- Why a process ends on the spot. -/
inductive Trap
  /-- A missing value was unwrapped by force. -/
  | unwrappedNil
  /-- A sequence of a negative number of elements was requested. -/
  | negativeCount
  /-- An integer was converted to a type that does not represent it. -/
  | notRepresentable
  /-- A result that is not there was demanded. -/
  | fatalError
  /-- A foreign call raised an exception, which cannot be caught. -/
  | exception
  deriving DecidableEq

/-- How a call that may throw an `ε` ends. -/
inductive Outcome (ε α : Type)
  | returns (a : α)
  | throws (e : ε)
  | traps (t : Trap)
  deriving DecidableEq

/-- The type of the errors of a call that throws none. -/
abbrev Never := Empty

namespace Outcome

variable {ε ε' α β : Type}

/-- Runs `f` on what `x` returns. -/
def andThen (x : Outcome ε α) (f : α → Outcome ε β) : Outcome ε β :=
  match x with
  | returns a => f a
  | throws e => throws e
  | traps t => traps t

instance : Monad (Outcome ε) where
  pure := returns
  bind := andThen

@[simp] theorem pure_eq (a : α) : (pure a : Outcome ε α) = returns a := rfl

@[simp] theorem returns_bind (a : α) (f : α → Outcome ε β) : (returns a >>= f) = f a := rfl

@[simp] theorem throws_bind (e : ε) (f : α → Outcome ε β) : (throws e >>= f) = throws e := rfl

@[simp] theorem traps_bind (t : Trap) (f : α → Outcome ε β) : (traps t >>= f) = traps t := rfl

instance : LawfulMonad (Outcome ε) :=
  LawfulMonad.mk' _
    (fun x => by cases x <;> rfl)
    (fun _ _ => rfl)
    (fun x _ _ => by cases x <;> rfl)

/-! ## Inversion -/

/-- A sequence returns when both of its steps do. -/
theorem bind_eq_returns {x : Outcome ε α} {f : α → Outcome ε β} {b : β} :
    (x >>= f) = returns b ↔ ∃ a, x = returns a ∧ f a = returns b := by
  cases x <;> simp

/-- A sequence throws when one of its steps does, all before it having returned. -/
theorem bind_eq_throws {x : Outcome ε α} {f : α → Outcome ε β} {e : ε} :
    (x >>= f) = throws e ↔ x = throws e ∨ ∃ a, x = returns a ∧ f a = throws e := by
  cases x <;> simp

/-! ## Guards -/

/-- The value of an optional, or else the error `e`. -/
def guardLet (x : Option α) (e : ε) : Outcome ε α :=
  match x with
  | some a => returns a
  | none => throws e

@[simp] theorem guardLet_some (a : α) (e : ε) : guardLet (some a) e = returns a := rfl

@[simp] theorem guardLet_none (e : ε) : guardLet (none : Option α) e = throws e := rfl

@[simp] theorem guardLet_eq_returns {x : Option α} {e : ε} {a : α} :
    guardLet x e = returns a ↔ x = some a := by
  cases x <;> simp [guardLet]

/-- Goes on if `p` holds, and else throws `e`. -/
def guardElse (p : Prop) [Decidable p] (e : ε) : Outcome ε Unit :=
  if p then returns () else throws e

@[simp] theorem guardElse_pos {p : Prop} [Decidable p] (h : p) (e : ε) :
    guardElse p e = returns () := if_pos h

@[simp] theorem guardElse_neg {p : Prop} [Decidable p] (h : ¬p) (e : ε) :
    guardElse p e = throws e := if_neg h

@[simp] theorem guardElse_eq_returns {p : Prop} [Decidable p] {e : ε} {u : Unit} :
    guardElse p e = returns u ↔ p := by
  by_cases h : p <;> simp [h]

/-- A call that cannot throw, run where errors may be thrown. -/
def lift : Outcome Never α → Outcome ε α
  | returns a => returns a
  | traps t => traps t

@[simp] theorem lift_returns (a : α) : (lift (returns a) : Outcome ε α) = returns a := rfl

@[simp] theorem lift_traps (t : Trap) : (lift (traps t) : Outcome ε α) = traps t := rfl

@[simp] theorem lift_eq_returns {x : Outcome Never α} {a : α} :
    (lift x : Outcome ε α) = returns a ↔ x = returns a := by
  cases x with
  | returns a => simp
  | throws e => exact e.elim
  | traps t => simp

@[simp] theorem lift_ne_throws (x : Outcome Never α) (e : ε) : lift x ≠ throws e := by
  cases x with
  | returns a => simp
  | throws e => exact e.elim
  | traps t => simp

/-- The value a call returns, if it throws nothing; a trap is not caught. -/
def attempt : Outcome ε α → Outcome ε' (Option α)
  | returns a => returns (some a)
  | throws _ => returns none
  | traps t => traps t

@[simp] theorem attempt_returns (a : α) :
    (attempt (returns a : Outcome ε α) : Outcome ε' (Option α)) = returns (some a) := rfl

@[simp] theorem attempt_throws (e : ε) :
    (attempt (throws e : Outcome ε α) : Outcome ε' (Option α)) = returns none := rfl

@[simp] theorem attempt_traps (t : Trap) :
    (attempt (traps t : Outcome ε α) : Outcome ε' (Option α)) = traps t := rfl

/-- A call that ends early with a result, by an error that is this result. -/
def settle : Outcome α α → Outcome Never α
  | returns a => returns a
  | throws a => returns a
  | traps t => traps t

@[simp] theorem settle_returns (a : α) : settle (returns a) = returns a := rfl

@[simp] theorem settle_throws (a : α) : settle (throws a) = returns a := rfl

@[simp] theorem settle_traps (t : Trap) : settle (traps t : Outcome α α) = traps t := rfl

end Outcome
