import Mathlib
import AtomicStyles.Eval.Batch

/-!
# Runs and how they end

Two runs are alike if they end with one and the same value or failure, on machines that are
related. A run goes on from the machine that the computation before it has left behind.

## Main definitions

* `Coupling.Alike` — two runs that end alike.
* `Coupling.after` — the machine that a computation leaves behind.

## Main results

* `Coupling.bind_eq_of_ok`, `Coupling.bind_eq_of_error` — what follows on a run.
-/

namespace AtomicStyles

open Script Eval

namespace Coupling

variable {α β : Type}

/-- Two results that are alike: one and the same value, or one and the same failure. -/
def Alike (R : Machine → Machine → Prop) :
    EStateM.Result EvalError Machine α → EStateM.Result EvalError Machine α → Prop
  | .ok a m, .ok a' m' => a = a' ∧ R m m'
  | .error e m, .error e' m' => e = e' ∧ R m m'
  | .ok _ _, .error _ _ => False
  | .error _ _, .ok _ _ => False

/-- The machine at the end of a run. -/
def machineOf : EStateM.Result EvalError Machine α → Machine
  | .ok _ m => m
  | .error _ m => m

def after (x : Eval α) (m : Machine) : Machine := machineOf (x m)

/-! ### Composition -/

variable {x : Eval α} {m m' : Machine}

/-- A computation that succeeds is followed by the next one. -/
theorem bind_eq_of_ok {k : α → Eval β} {a : α} (h : x m = .ok a m') : (x >>= k) m = k a m' := by
  show EStateM.bind x k m = _
  unfold EStateM.bind
  rw [h]

/-- A computation that fails is the end. -/
theorem bind_eq_of_error {k : α → Eval β} {e : EvalError} (h : x m = .error e m') :
    (x >>= k) m = .error e m' := by
  show EStateM.bind x k m = _
  unfold EStateM.bind
  rw [h]

theorem outcome_eq_of_ok {a : α} (h : x m = .ok a m') : outcome x m = .ok (.ok a) m' := by
  rw [outcome, h]

theorem outcome_eq_of_error {e : EvalError} (h : x m = .error e m') :
    outcome x m = .ok (.error e) m' := by
  rw [outcome, h]

end Coupling
end AtomicStyles
