import AtomicStyles.Failure

/-!
# The life of a style call

A style call is detected, its dependencies are resolved, its argument is evaluated
and compiled, and the call is rewritten; from every state but the last it can be
skipped instead. Rewritten and skipped calls stay as they are.

## Main definitions

* `SiteState` — the states, each with what is known in it.
* `SiteState.advance` — one step, refused unless it follows the order above.
* `SiteState.skip` — gives up on a call that is not finished.
-/

namespace AtomicStyles

/-- Why a style call was given up, and which keys of its argument failed. -/
structure SiteFailure where
  kind : FailureKind
  message : String
  failedKeys : List String := []
deriving Repr, DecidableEq, Inhabited

/-- The state of a style call; `γ`, `ν` and `κ` are what is known of its dependencies, of its
value and of its compiled styles. -/
inductive SiteState (γ ν κ : Type) where
  | detected
  | resolving (closure : γ)
  | resolved (value : ν)
  | compiled (styles : κ)
  | rewritten (styles : κ)
  | skipped (failure : SiteFailure)
deriving Repr, DecidableEq

namespace SiteState

variable {γ ν κ : Type}

def isTerminal : SiteState γ ν κ → Bool
  | rewritten _ => true
  | skipped _ => true
  | _ => false

/-- Whether a state may follow another. -/
def allows : SiteState γ ν κ → SiteState γ ν κ → Bool
  | s, skipped _ => !s.isTerminal
  | detected, resolving _ => true
  | resolving _, resolved _ => true
  | resolved _, compiled _ => true
  | compiled _, rewritten _ => true
  | _, _ => false

/-- Moves to the next state if it may follow; tells whether it may. -/
def advance (s next : SiteState γ ν κ) : Bool × SiteState γ ν κ :=
  if s.allows next then (true, next) else (false, s)

def skip (s : SiteState γ ν κ) (f : SiteFailure) : SiteState γ ν κ :=
  if s.isTerminal then s else skipped f

/-- What is known of the dependencies while they are being resolved. -/
def closure? : SiteState γ ν κ → Option γ
  | resolving c => some c
  | _ => none

end SiteState
end AtomicStyles
