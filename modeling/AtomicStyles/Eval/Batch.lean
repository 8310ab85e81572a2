import AtomicStyles.Eval.Interpreter

/-!
# The style calls of a unit

All style calls of a unit are evaluated on one machine. A call that fails after it has
changed something that others can see may have spoiled it for them: the others are then
evaluated once more on a fresh machine.

## Main definitions

* `Job` — a style call to evaluate.
* `Batch.run` — jobs on one machine.
* `Batch.evaluate` — the outcome of all jobs.
-/

namespace AtomicStyles

open Script

/-- A style call to evaluate, and what it needs. -/
structure Job where
  argument : Expr
  needed : List BindingKey

abbrev JobResult := Except CallFailure StyleValue

/-- The outcome of jobs that share a machine. -/
structure Batch where
  /-- One result for each job, in their order. -/
  results : List JobResult
  /-- The indices of the jobs that failed after a write that others can see. -/
  poisoned : List Nat
  report : Report
  cache : ModuleCache

namespace Batch

/-- What a computation that gives a job's result comes to. -/
def resultOf : EStateM.Result EvalError Machine JobResult → JobResult × Machine
  | .ok result m => (result, m)
  | .error error m => (.error { error }, m)

/-- Evaluates a job; tells whether it failed after a write that others can see. -/
def runJob (job : Job) (m : Machine) : (JobResult × Bool) × Machine :=
  let (result, after) := resultOf (Eval.runCall (interp m.nesting) job.argument job.needed m)
  ((result, !result.isOk && m.mutations < after.mutations), after)

/-- Evaluates jobs one after the other. -/
def runJobs : List Job → Machine → List (JobResult × Bool) × Machine
  | [], m => ([], m)
  | job :: jobs, m =>
    let (result, m) := runJob job m
    let (results, m) := runJobs jobs m
    (result :: results, m)

/-- The outcome of jobs on one fresh machine. -/
def run (g : Graph) (limits : Limits) (cache : ModuleCache) (jobs : List Job) : Batch :=
  let (results, m) := runJobs jobs (.start g limits cache)
  let poisoned := results.zipIdx.filterMap fun ((_, isPoisoned), i) =>
    if isPoisoned then some i else none
  { results := results.map (·.1), poisoned, report := m.report, cache := m.cache }

def clean (poisoned : List Nat) (jobs : List Job) : List Job :=
  jobs.zipIdx.filterMap fun (job, i) => if poisoned.contains i then none else some job

/-- Results with those of a second run in place of all that are not poisoned. -/
def merge (poisoned : List Nat) : Nat → List JobResult → List JobResult → List JobResult
  | _, [], _ => []
  | i, r :: rs, again =>
    if poisoned.contains i then r :: merge poisoned (i + 1) rs again
    else
      match again with
      | [] => r :: merge poisoned (i + 1) rs []
      | a :: again => a :: merge poisoned (i + 1) rs again

/-- The outcome of all jobs; poisoned ones are evaluated once, the others a second time if there
are poisoned ones. -/
def evaluate (g : Graph) (limits : Limits) (cache : ModuleCache) (jobs : List Job) : Batch :=
  let first := run g limits cache jobs
  if first.poisoned.isEmpty then first
  else
    let second := run g limits first.cache (clean first.poisoned jobs)
    { results := merge first.poisoned 0 first.results second.results
      poisoned := first.poisoned
      report := { second.report with isRetried := true }
      cache := second.cache }

end Batch
end AtomicStyles
