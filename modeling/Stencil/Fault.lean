/-! # Faults

Some arguments ask for a value that no machine word, text position or memory block can hold.  Such
a request is abandoned: it has no answer and reports no error of the domain.  A `Fault` names the
reason, so that "this call is never abandoned" is a statement about values.

A computation that can also report a domain error `ε` fails with a `Failure ε`.
-/

namespace Stencil

/-- Why a computation is abandoned. -/
inductive Fault where
  /-- An offset was asked of a kernel without columns. -/
  | zeroWidth
  /-- A sum or product leaves its machine word. -/
  | overflow
  /-- More weights than memory can address. -/
  | capacity
  /-- A byte position past the end of a text or inside a character. -/
  | badPosition
  /-- An index past the last sample. -/
  | outOfRange
  /-- A position was clamped to an interval without elements. -/
  | emptyInterval
deriving DecidableEq, Repr

namespace Fault

/-- The text shown for a fault; only the missing width has one of its own. -/
def message? : Fault → Option String
  | .zeroWidth => some "kernel width must be non-zero"
  | _ => none

end Fault

/-- Why a computation gives no value: it reports an error, or it is abandoned. -/
inductive Failure (ε : Type) where
  | refused (error : ε)
  | fault (reason : Fault)
deriving DecidableEq, Repr

namespace Failure

/-- A computation without errors of its own, among computations that report an `ε`. -/
def ofFaulty {ε α : Type} : Except Fault α → Except (Failure ε) α
  | .ok a => .ok a
  | .error reason => .error (.fault reason)

/-- A computation that is never abandoned, among computations that can be. -/
def ofRefusing {ε α : Type} : Except ε α → Except (Failure ε) α
  | .ok a => .ok a
  | .error e => .error (.refused e)

/-- Rewords the reported error. -/
def mapRefused {ε δ α : Type} (f : ε → δ) : Except (Failure ε) α → Except (Failure δ) α
  | .ok a => .ok a
  | .error (.refused e) => .error (.refused (f e))
  | .error (.fault reason) => .error (.fault reason)

@[simp] theorem ofFaulty_ok {ε α : Type} (a : α) :
    ofFaulty (.ok a) = (.ok a : Except (Failure ε) α) := rfl

@[simp] theorem ofRefusing_ok {ε α : Type} (a : α) :
    ofRefusing (.ok a : Except ε α) = .ok a := rfl

theorem ofFaulty_eq_ok_iff {ε α : Type} {x : Except Fault α} {a : α} :
    (ofFaulty x : Except (Failure ε) α) = .ok a ↔ x = .ok a := by
  cases x <;> simp [ofFaulty]

end Failure

end Stencil
