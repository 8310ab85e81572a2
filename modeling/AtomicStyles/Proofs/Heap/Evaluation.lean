import AtomicStyles.Proofs.Heap.Operations
import AtomicStyles.Proofs.Logic.Invariants
import AtomicStyles.Proofs.Logic.Traits

/-!
# Evaluation performs operations

Every run of evaluated code performs operations on objects and arrays, and its sorts are guarded:
this is a trait that every operation on the machine has. So it holds of style calls, and of jobs that
share a machine one after the other.

## Main definitions

* `Eval.Tracks` — each run performs operations with guarded sorts.
* `Eval.tracking` — this as a trait.
* `Batch.Performs` — what jobs perform on one machine.

## Main statements

* `Batch.exists_performs` — **jobs perform operations with guarded sorts.**
* `Batch.Performs.heap_runJobs`, `Batch.Performs.permits` — these say what becomes of the heap, and
  are allowed.
-/

namespace AtomicStyles

open Script Eval Coupling
open List hiding after

namespace Eval

variable {α β : Type} {P : α → Prop} {Q : β → Prop}

/-- Each run of the computation performs operations, and its sorts are guarded. -/
def Tracks (x : Eval α) : Prop := ∀ m, ∃ ops, Performs x m ops ∧ Guarded ops

namespace Tracks

theorem quiet {x : Eval α} (h : ∀ m, (after x m).heap = m.heap) : Tracks x :=
  fun _ => ⟨[], .quiet h, .nil⟩

protected theorem bind {x : Eval α} {k : α → Eval β} (hx : Tracks x) (hreturns : Returns P x)
    (hk : ∀ a, P a → Tracks (k a)) : Tracks (x >>= k) := by
  intro m
  obtain ⟨ops, hops, hguarded⟩ := hx m
  cases hxm : x m with
  | error e m' => exact ⟨ops, .stop hxm hops, hguarded⟩
  | ok a m' =>
    obtain ⟨ops', hops', hguarded'⟩ := hk a (hreturns m a m' hxm) m'
    exact ⟨ops ++ ops', .bind hxm hops hops', hguarded.append hguarded'⟩

theorem outcome {x : Eval α} (h : Tracks x) : Tracks (Eval.outcome x) := by
  intro m
  obtain ⟨ops, hops, hguarded⟩ := h m
  exact ⟨ops, .outcome hops, hguarded⟩

end Tracks

/-! ### The trait -/

/-- Each run performs operations with guarded sorts. -/
def tracking : Trait where
  has x := Tracks x
  pure _ := .quiet fun _ => rfl
  throw _ := .quiet fun _ => rfl
  bind := .bind
  outcome := .outcome

theorem tracks_newObject (ps : Properties) : Tracks (newObject ps) :=
  fun m => ⟨_, .newObject ps m, .cons (by simp) .nil⟩

theorem tracks_raise (f : Fault) : Tracks (raise f : Eval α) := by
  refine .bind (P := fun _ => True) (tracks_newObject _) (.of_forall _ fun _ => trivial) fun _ _ => ?_
  exact .quiet fun _ => rfl

/-- What is frozen is refused, and otherwise an operation is performed. -/
theorem tracks_refusing (isFrozen : Machine → Bool) {f : Fault} {x : Eval Unit} {op : Operation}
    (hsorted : ∀ a xs, op ≠ .sorted a xs)
    (hop : ∀ m, isFrozen m = false →
      Performs (do if ← (return isFrozen (← get) : Eval Bool) then raise f else x) m [op]) :
    Tracks (do if ← (return isFrozen (← get) : Eval Bool) then raise f else x) := by
  intro m
  cases h : isFrozen m with
  | false => exact ⟨[op], hop m h, .cons hsorted .nil⟩
  | true =>
    obtain ⟨ops, hops, hguarded⟩ := tracks_raise (α := Unit) f m
    have hthen : Performs ((fun b : Bool => if b then raise f else x) (isFrozen m)) m ops := by
      rw [h]
      exact hops
    exact ⟨[] ++ ops, .bind rfl (.quiet fun _ => rfl) hthen, hguarded⟩

theorem tracks_put (o : ObjectRef) (frozen : Fault) (key : String) (v : Value) :
    Tracks (changeProperties o frozen fun ps => ps.insert key v) :=
  tracks_refusing (fun m => (m.objectCell o).isFrozen) (by simp) fun _ h => .put frozen key v h

theorem tracks_drop (o : ObjectRef) (frozen : Fault) (key : String) :
    Tracks (changeProperties o frozen fun ps => ps.erase key) :=
  tracks_refusing (fun m => (m.objectCell o).isFrozen) (by simp) fun _ h => .drop frozen key h

/-- What follows on a check is run if the array is not frozen. -/
theorem tracks_checked {a : ArrayRef} {x : Eval α}
    (h : ∀ m, (m.arrayCell a).isFrozen = false →
      ∃ ops, Performs (do beforeArrayWrite a; x) m ops ∧ Guarded ops) :
    Tracks (do beforeArrayWrite a; x) := by
  intro m
  cases hfrozen : (m.arrayCell a).isFrozen with
  | false => exact h m hfrozen
  | true =>
    have hbefore : Tracks (beforeArrayWrite a) :=
      tracks_refusing (fun m => (m.arrayCell a).isFrozen) (by simp) fun _ => .check
    obtain ⟨ops, hops, hguarded⟩ := hbefore m
    obtain ⟨e, m', herror, -⟩ := beforeArrayWrite_frozen hfrozen
    exact ⟨ops, .stop herror hops, hguarded⟩

theorem tracks_changeArray {a : ArrayRef} {x : Eval (Array Value → Array Value)} (hlooks : Looks x)
    (hx : Tracks x) : Tracks (changeArray a x) := by
  refine tracks_checked fun m hfrozen => ?_
  cases hxm : x (m.noteCellWrite (m.arrayCell a)) with
  | ok f m' =>
    obtain rfl := hlooks _ _ _ hxm
    exact ⟨[.change a f], .change hfrozen hxm, .cons (by simp) .nil⟩
  | error e m' =>
    obtain ⟨ops, hops, hguarded⟩ := hx (m.noteCellWrite (m.arrayCell a))
    exact ⟨.check a :: ops, .bind (beforeArrayWrite_eq hfrozen) (.check hfrozen) (.stop hxm hops),
      .cons (by simp) hguarded⟩

/-- A sort that fails puts nothing back. -/
theorem tracks_sortArray {a : ArrayRef} {order : Value → Value → Eval Ordering}
    (h : ∀ vs, Tracks (sortItems order vs)) : Tracks (sortArray order a) := by
  refine tracks_checked fun m hfrozen => ?_
  obtain ⟨ops, hops, hguarded⟩ := h (m.arrayCell a).content.toList (m.noteCellWrite (m.arrayCell a))
  cases hsort : sortItems order (m.arrayCell a).content.toList (m.noteCellWrite (m.arrayCell a)) with
  | ok vs m' => exact ⟨_, .sort hfrozen hops hsort, .sort hguarded .nil⟩
  | error e m' =>
    exact ⟨[.check a] ++ ([] ++ ops), .bind (beforeArrayWrite_eq hfrozen) (.check hfrozen)
      (.bind (items_noteCellWrite a m) (.quiet fun _ => rfl) (.stop hsort hops)),
      .cons (by simp) hguarded⟩

theorem tracks_assign (s : Scope) (name : String) (v : Value) :
    Tracks (assign s name v) := by
  refine .quiet fun m => ?_
  have hassign : assign s name v m = _ := bind_eq_of_ok (rfl : (get : Eval Machine) m = .ok m m)
  rw [after, hassign]
  rcases m.find? name s.frames with _ | ⟨f, _ | _, _ | _⟩
  case some.some.true => cases f <;> rfl
  all_goals rfl

theorem tracks_tables (id : ModuleId) : Tracks (tables id) := by
  refine .quiet fun m => ?_
  have hload : load id m = .ok (m.graph.tables id m.cache).1
      { m with cache := (m.graph.tables id m.cache).2 } := rfl
  have htables : tables id m = _ := bind_eq_of_ok hload
  rw [after, htables]
  cases (m.graph.tables id m.cache).1 <;> rfl

theorem lax_tracking : tracking.Kept where
  newObject ps := Trait.holds_of_has (tracks_newObject ps) fun _ => trivial
  newArray _ := Trait.holds_of_has (fun m => ⟨_, .newArray _ m, .cons (by simp) .nil⟩)
    fun _ => trivial
  freeze _ := Trait.holds_of_has (fun m => ⟨_, .freeze _ m, .cons (by simp) .nil⟩)
    fun _ => trivial
  putProperty o frozen key v := Trait.holds_of_has (tracks_put o frozen key v) fun _ => trivial
  dropProperty o frozen key := Trait.holds_of_has (tracks_drop o frozen key) fun _ => trivial
  changeArray _ _ hlooks hx :=
    Trait.holds_of_has (tracks_changeArray hlooks (hx ()).1) fun _ => trivial
  sortArray _ _ h k := ⟨tracks_sortArray fun vs => (h vs k).1, .of_forall _ fun _ => trivial⟩
  look _ _ := Tracks.quiet fun _ => rfl
  change _ hheap := Tracks.quiet hheap
  assign := tracks_assign
  tables := tracks_tables

def trackingLogic : Logic := lax_tracking.lax.logic

theorem good_tracking [Held α] (a : α) : trackingLogic.Good a := lax_tracking.lax.good a

end Eval

/-! ### Jobs -/

namespace Batch

variable {jobs : List Job} {m : Machine} {ops : List Operation}

/-- Jobs that share a machine perform some operations, in their order. -/
inductive Performs : List Job → Machine → List Operation → Prop
  | nil (m : Machine) : Performs [] m []
  | cons {job : Job} {jobs : List Job} {m : Machine} {ops ops' : List Operation} :
      Eval.Performs (runCall (interp m.nesting) job.argument job.needed) m ops →
      Performs jobs (runJob job m).2 ops' → Performs (job :: jobs) m (ops ++ ops')

/-- Jobs perform operations, and their sorts are guarded. -/
theorem exists_performs (jobs : List Job) (m : Machine) :
    ∃ ops, Performs jobs m ops ∧ Guarded ops := by
  induction jobs generalizing m with
  | nil => exact ⟨[], .nil m, .nil⟩
  | cons job jobs ih =>
    have hcall : Tracks (runCall (interp m.nesting) job.argument job.needed) :=
      .bind (P := fun _ => True) (.quiet fun _ => rfl) (.of_forall _ fun _ => trivial) fun _ _ =>
        lax_tracking.has_callValue m.nesting job.argument job.needed
    obtain ⟨ops, hops, hguarded⟩ := hcall m
    obtain ⟨ops', hops', hguarded'⟩ := ih (runJob job m).2
    exact ⟨ops ++ ops', .cons hops hops', hguarded.append hguarded'⟩

theorem heap_runJob {job : Job}
    (h : Eval.Performs (runCall (interp m.nesting) job.argument job.needed) m ops) :
    (runJob job m).2.heap = m.heap.run ops := by
  rw [snd_runJob]
  exact h.heap_after

/-- The heap after jobs is what their operations make of it. -/
theorem Performs.heap_runJobs (h : Performs jobs m ops) :
    (runJobs jobs m).2.heap = m.heap.run ops := by
  induction h with
  | nil m => rfl
  | @cons job jobs m ops ops' hops _ ih =>
    have hrun : (runJobs (job :: jobs) m).2 = (runJobs jobs (runJob job m).2).2 := rfl
    rw [hrun, ih, heap_runJob hops, Heap.run_append]

/-- Jobs perform allowed operations only. -/
theorem Performs.permits (h : Performs jobs m ops) : m.heap.Permits ops := by
  induction h with
  | nil m => trivial
  | cons hops _ ih =>
    refine Heap.permits_append.2 ⟨hops.permits, ?_⟩
    rw [← heap_runJob hops]
    exact ih

end Batch
end AtomicStyles
