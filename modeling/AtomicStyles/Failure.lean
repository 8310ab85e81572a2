/-!
# Failures and diagnostics

Why a style call is left to run as it stands, and what is reported about it.
-/

namespace AtomicStyles

/-- Why a style call is not compiled. -/
inductive FailureKind where
  | detectionAmbiguity
  | unresolvableDependency
  | evaluationFailure
  | malformedStyleObject
deriving Repr, DecidableEq, Inhabited

def FailureKind.text : FailureKind → String
  | .detectionAmbiguity => "detection ambiguity"
  | .unresolvableDependency => "unresolvable dependency"
  | .evaluationFailure => "evaluation failure"
  | .malformedStyleObject => "malformed style object"

/-- A range of bytes of a source text, its end excluded. -/
structure Span where
  start : Nat
  stop : Nat
deriving Repr, DecidableEq, Inhabited, Hashable

inductive Severity where
  | warning
  | info
deriving Repr, DecidableEq, Inhabited

/-- A report about one style call of a unit. -/
structure Diagnostic where
  severity : Severity
  kind : FailureKind
  message : String
  range : Span
  hints : List String := []
deriving Repr, DecidableEq

end AtomicStyles
