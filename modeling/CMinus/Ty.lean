/-!
# The types of C-Minus

A declaration is written with one of two type words, `int` and `void`.  The
analysis works with six types: the two words themselves, the array of
integers, a function of either result, and a *poison* type that stands for
"already reported".  Poison is a type of its own, and not the absence of one,
because the rules treat the two differently: a poisoned operand silences the
rules above it, an untyped one does not.
-/

namespace CMinus

/-- The word a declaration is written with. -/
inductive Spec where
  | int
  | void
  deriving DecidableEq

/-- The type of a symbol or of an expression. -/
inductive Ty where
  | void
  | int
  | intArray
  | voidFunction
  | intFunction
  /-- The cause of this type has already been reported. -/
  | poison
  deriving DecidableEq

namespace Ty

/-- The type of a function declared with the given word. -/
def functionReturning : Spec → Ty
  | .int => .intFunction
  | .void => .voidFunction

/-- What a call yields; only functions can be called. -/
def result? : Ty → Option Ty
  | .intFunction => some .int
  | .voidFunction => some .void
  | _ => none

/-- Whether values of this type can be called. -/
def isFunction (ty : Ty) : Bool := ty.result?.isSome

/-- Whether the type only records that an error was reported. -/
def isPoison (ty : Ty) : Bool := ty = .poison

/-- The word printed for the type.  The two kinds of function share one. -/
def word : Ty → String
  | .void => "Void"
  | .int => "Integer"
  | .intArray => "Integer Array"
  | .voidFunction | .intFunction => "Function"
  | .poison => "Error"

@[simp] theorem isFunction_functionReturning (spec : Spec) :
    (functionReturning spec).isFunction = true := by
  cases spec <;> rfl

/-- No call yields poison. -/
theorem result?_ne_poison {ty result : Ty} (h : ty.result? = some result) :
    result ≠ .poison := by
  cases ty <;> simp_all [result?] <;> simp [← h]

end Ty

end CMinus
