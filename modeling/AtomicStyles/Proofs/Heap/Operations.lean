import AtomicStyles.Proofs.Coupling.Basic
import AtomicStyles.Proofs.Logic.Machine

/-!
# Operations on objects and arrays

The objects and arrays of a machine are changed by a handful of operations. The list of the
operations that a run performs, in their order, says what becomes of them at every point of the
run: what is there after some of the operations is what these make of what was there before.

The operations are read off the code. A computation that never changes an object or array performs
none; those which do are the operations themselves; and what is composed of others performs theirs
one after the other, up to the point where it fails.

An array is changed right after a look at it, but for sorting: that checks the array first and puts
the sorted items into it in the end, and other code may run in between, to compare the items. The
two belong together like brackets.

## Main definitions

* `Operation`, `Heap.run` — operations, and what they make of a heap.
* `Heap.Permits` — each operation is allowed at its time.
* `Guarded` — sorted items are put into an array only at the end of a sort that began with a check.
* `Eval.Performs` — a run performs some operations.

## Main statements

* `Eval.Performs.heap_after` — the heap after a run is what its operations make of it.
* `Eval.Performs.permits` — a run performs allowed operations only.
-/

namespace AtomicStyles

open Eval Coupling
open List hiding after

/-! ### Cells -/

theorem getD_push {α : Type} (xs : Array α) (x d : α) {j : Nat} (h : j < xs.size) :
    (xs.push x).getD j d = xs.getD j d := by
  simp [Array.getD_eq_getD_getElem?, Array.getElem?_push, h, Nat.ne_of_lt h]

/-- A change of an object or array, or a check before one. -/
inductive Operation where
  | newObject (c : Cell Properties)
  | newArray (c : Cell (Array Value))
  /-- Sets a property of an object. -/
  | put (o : ObjectRef) (key : String) (v : Value)
  /-- Deletes a property of an object. -/
  | drop (o : ObjectRef) (key : String)
  /-- Changes the items of an array. -/
  | change (a : ArrayRef) (f : Array Value → Array Value)
  /-- Finds that an array may be changed. -/
  | check (a : ArrayRef)
  /-- Puts sorted items into an array. -/
  | sorted (a : ArrayRef) (xs : Array Value)
  | freeze (v : Value)

namespace Heap

def objectCell (h : Heap) (o : ObjectRef) : Cell Properties :=
  h.objects.getD o.index { content := {}, stamp := 0, isShared := true }

def arrayCell (h : Heap) (a : ArrayRef) : Cell (Array Value) :=
  h.arrays.getD a.index { content := #[], stamp := 0, isShared := true }

end Heap

namespace Operation

def apply (h : Heap) : Operation → Heap
  | newObject c => { h with objects := h.objects.push c }
  | newArray c => { h with arrays := h.arrays.push c }
  | put o key v => { h with
      objects := h.objects.modify o.index fun c => { c with content := c.content.insert key v } }
  | drop o key => { h with
      objects := h.objects.modify o.index fun c => { c with content := c.content.erase key } }
  | change a f => { h with
      arrays := h.arrays.modify a.index fun c => { c with content := f c.content } }
  | check _ => h
  | sorted a xs => { h with
      arrays := h.arrays.modify a.index fun c => { c with content := xs } }
  | freeze (.object o) =>
    { h with objects := h.objects.modify o.index fun c => { c with isFrozen := true } }
  | freeze (.array a) =>
    { h with arrays := h.arrays.modify a.index fun c => { c with isFrozen := true } }
  | freeze _ => h

/-- What is new is not frozen, and neither is what is changed or checked. Sorted items are put into
an array without a look at it. -/
def Allowed (h : Heap) : Operation → Prop
  | newObject c => c.isFrozen = false
  | newArray c => c.isFrozen = false
  | put o _ _ => (h.objectCell o).isFrozen = false
  | drop o _ => (h.objectCell o).isFrozen = false
  | change a _ => (h.arrayCell a).isFrozen = false
  | check a => (h.arrayCell a).isFrozen = false
  | sorted _ _ => True
  | freeze _ => True

end Operation

namespace Heap

def run (h : Heap) (ops : List Operation) : Heap := ops.foldl Operation.apply h

@[simp] theorem run_nil (h : Heap) : h.run [] = h := rfl

@[simp] theorem run_cons (h : Heap) (op : Operation) (ops : List Operation) :
    h.run (op :: ops) = (op.apply h).run ops := rfl

theorem run_append (h : Heap) (ops ops' : List Operation) :
    h.run (ops ++ ops') = (h.run ops).run ops' :=
  foldl_append

def Permits (h : Heap) : List Operation → Prop
  | [] => True
  | op :: ops => op.Allowed h ∧ (op.apply h).Permits ops

theorem permits_append {h : Heap} {ops ops' : List Operation} :
    h.Permits (ops ++ ops') ↔ h.Permits ops ∧ (h.run ops).Permits ops' := by
  induction ops generalizing h with
  | nil => simp [Permits]
  | cons op ops ih => simp only [cons_append, Permits, run_cons, ih, and_assoc]

end Heap

/-! ### Sorts -/

/-- Sorted items are put into an array only at the end of a sort, which began with a check of the
array. Sorts that begin in between end there as well. -/
inductive Guarded : List Operation → Prop
  | nil : Guarded []
  | cons {op : Operation} {ops : List Operation} :
      (∀ a xs, op ≠ .sorted a xs) → Guarded ops → Guarded (op :: ops)
  | sort {a : ArrayRef} {xs : Array Value} {during ops : List Operation} :
      Guarded during → Guarded ops → Guarded (.check a :: (during ++ .sorted a xs :: ops))

namespace Guarded

variable {ops ops' : List Operation}

theorem append (h : Guarded ops) (h' : Guarded ops') : Guarded (ops ++ ops') := by
  induction h with
  | nil => exact h'
  | cons hop _ ih => exact .cons hop ih
  | sort hduring _ _ ih =>
    rw [cons_append, append_assoc, cons_append]
    exact .sort hduring ih

/-- Where sorted items are put into an array there is the check with which the sort began. -/
theorem exists_check {before rest : List Operation} {a : ArrayRef} {xs : Array Value}
    (h : Guarded ops) (heq : ops = before ++ .sorted a xs :: rest) :
    ∃ earlier during, before = earlier ++ .check a :: during ∧ Guarded during := by
  induction h generalizing before rest with
  | nil => exact absurd heq (by simp)
  | cons hop _ ih =>
    rcases cons_eq_append_iff.1 heq with ⟨-, hcons⟩ | ⟨before, rfl, htail⟩
    · exact absurd (cons_eq_cons.1 hcons).1.symm (hop a xs)
    · obtain ⟨earlier, during, rfl, hduring⟩ := ih htail
      exact ⟨_ :: earlier, during, rfl, hduring⟩
  | @sort a' xs' during' ops hduring _ ih ih' =>
    rcases cons_eq_append_iff.1 heq with ⟨-, hcons⟩ | ⟨before, rfl, htail⟩
    · cases hcons
    · -- the items are those of the sort itself, or of one in its course, or of one after it
      rcases append_eq_append_iff.1 htail with ⟨between, rfl, hlater⟩ | ⟨between, rfl, hsooner⟩
      · rcases cons_eq_append_iff.1 hlater with ⟨rfl, hcons⟩ | ⟨between, rfl, hrest⟩
        · cases hcons
          exact ⟨[], during', by rw [append_nil]; rfl, hduring⟩
        · obtain ⟨earlier, during, rfl, hduring⟩ := ih' hrest
          exact ⟨.check a' :: (during' ++ .sorted a' xs' :: earlier), during, by simp, hduring⟩
      · rcases cons_eq_append_iff.1 hsooner with ⟨rfl, hcons⟩ | ⟨between, rfl, -⟩
        · cases hcons
          exact ⟨[], before, rfl, by rwa [append_nil] at hduring⟩
        · obtain ⟨earlier, during, rfl, hinner⟩ := ih rfl
          exact ⟨.check a' :: earlier, during, rfl, hinner⟩

end Guarded

namespace Eval

variable {α β : Type}

/-! ### What a run performs -/

/-- The run of a computation from a machine performs some operations, in their order. -/
inductive Performs : {α : Type} → Eval α → Machine → List Operation → Prop
  /-- A computation that never changes the heap performs none. -/
  | quiet {α : Type} {x : Eval α} {m : Machine} :
      (∀ m, (after x m).heap = m.heap) → Performs x m []
  | newObject (ps : Properties) (m : Machine) :
      Performs (Eval.newObject ps) m [.newObject (m.cell ps)]
  | newArray (xs : Array Value) (m : Machine) :
      Performs (Eval.newArray xs) m [.newArray (m.cell xs)]
  | put {o : ObjectRef} {m : Machine} (frozen : Fault) (key : String) (v : Value) :
      (m.objectCell o).isFrozen = false →
        Performs (changeProperties o frozen fun ps => ps.insert key v) m [.put o key v]
  | drop {o : ObjectRef} {m : Machine} (frozen : Fault) (key : String) :
      (m.objectCell o).isFrozen = false →
        Performs (changeProperties o frozen fun ps => ps.erase key) m [.drop o key]
  | change {a : ArrayRef} {x : Eval (Array Value → Array Value)} {m : Machine}
      {f : Array Value → Array Value} :
      (m.arrayCell a).isFrozen = false →
        x (m.noteCellWrite (m.arrayCell a)) = .ok f (m.noteCellWrite (m.arrayCell a)) →
        Performs (changeArray a x) m [.change a f]
  | check {a : ArrayRef} {m : Machine} :
      (m.arrayCell a).isFrozen = false → Performs (beforeArrayWrite a) m [.check a]
  /-- What is performed to compare the items comes before they are put back. -/
  | sort {a : ArrayRef} {order : Value → Value → Eval Ordering} {m m' : Machine} {vs : List Value}
      {ops : List Operation} :
      (m.arrayCell a).isFrozen = false →
        Performs (sortItems order (m.arrayCell a).content.toList)
          (m.noteCellWrite (m.arrayCell a)) ops →
        sortItems order (m.arrayCell a).content.toList (m.noteCellWrite (m.arrayCell a)) =
          .ok vs m' →
        Performs (sortArray order a) m (.check a :: (ops ++ [.sorted a vs.toArray]))
  | freeze (v : Value) (m : Machine) : Performs (Eval.freeze v) m [.freeze v]
  | bind {α β : Type} {x : Eval α} {k : α → Eval β} {m m' : Machine} {a : α}
      {ops ops' : List Operation} :
      x m = .ok a m' → Performs x m ops → Performs (k a) m' ops' →
        Performs (x >>= k) m (ops ++ ops')
  /-- What would follow on a failure is not run. -/
  | stop {α β : Type} {x : Eval α} {k : α → Eval β} {m m' : Machine} {e : EvalError}
      {ops : List Operation} :
      x m = .error e m' → Performs x m ops → Performs (x >>= k) m ops
  /-- A failure that is caught has performed what it has. -/
  | outcome {α : Type} {x : Eval α} {m : Machine} {ops : List Operation} :
      Performs x m ops → Performs (Eval.outcome x) m ops

theorem heap_noteWrite (m : Machine) : m.noteWrite.heap = m.heap := by
  unfold Machine.noteWrite
  split <;> rfl

theorem heap_noteCellWrite (c : Cell α) (m : Machine) : (m.noteCellWrite c).heap = m.heap := by
  unfold Machine.noteCellWrite
  split
  · exact heap_noteWrite m
  · rfl

variable {m : Machine}

theorem arrayCell_noteCellWrite (c : Cell α) (a : ArrayRef) :
    (m.noteCellWrite c).arrayCell a = m.arrayCell a :=
  congrArg (fun h : Heap => h.arrayCell a) (heap_noteCellWrite c m)

theorem changeProperties_eq {o : ObjectRef} (frozen : Fault) (f : Properties → Properties)
    (h : (m.objectCell o).isFrozen = false) :
    changeProperties o frozen f m = modifyProperties o f (m.noteCellWrite (m.objectCell o)) := by
  refine (bind_eq_of_ok (rfl : isFrozenObject o m = .ok (m.objectCell o).isFrozen m)).trans ?_
  rw [h]
  rfl

/-- A check that finds that an array is not frozen. -/
theorem beforeArrayWrite_eq {a : ArrayRef} (h : (m.arrayCell a).isFrozen = false) :
    beforeArrayWrite a m = .ok () (m.noteCellWrite (m.arrayCell a)) := by
  refine (bind_eq_of_ok (rfl : isFrozenArray a m = .ok (m.arrayCell a).isFrozen m)).trans ?_
  rw [h]
  rfl

/-- A check that finds an array frozen. -/
theorem beforeArrayWrite_frozen {a : ArrayRef} (h : (m.arrayCell a).isFrozen = true) :
    ∃ e m', beforeArrayWrite a m = .error e m' ∧ m'.arrays = m.arrays := by
  have hraise : beforeArrayWrite a m = raise .frozenArray m := by
    refine (bind_eq_of_ok (rfl : isFrozenArray a m = .ok (m.arrayCell a).isFrozen m)).trans ?_
    rw [h]
    rfl
  exact ⟨_, _, hraise, rfl⟩

theorem changeArray_eq {a : ArrayRef} {x : Eval (Array Value → Array Value)} {m' : Machine}
    {f : Array Value → Array Value} (h : (m.arrayCell a).isFrozen = false)
    (hx : x (m.noteCellWrite (m.arrayCell a)) = .ok f m') :
    changeArray a x m = modifyItems a f m' :=
  (bind_eq_of_ok (beforeArrayWrite_eq h)).trans (bind_eq_of_ok hx)

theorem items_noteCellWrite (a : ArrayRef) (m : Machine) :
    items a (m.noteCellWrite (m.arrayCell a)) =
      .ok (m.arrayCell a).content (m.noteCellWrite (m.arrayCell a)) :=
  congrArg (fun c : Cell (Array Value) => EStateM.Result.ok c.content _)
    (arrayCell_noteCellWrite _ a)

theorem sortArray_eq {a : ArrayRef} (order : Value → Value → Eval Ordering)
    (h : (m.arrayCell a).isFrozen = false) :
    sortArray order a m = (do
      let vs ← sortItems order (m.arrayCell a).content.toList
      modifyItems a fun _ => vs.toArray) (m.noteCellWrite (m.arrayCell a)) :=
  (bind_eq_of_ok (beforeArrayWrite_eq h)).trans (bind_eq_of_ok (items_noteCellWrite a m))

theorem heap_modifyProperties (o : ObjectRef) (f : Properties → Properties) (m : Machine) :
    (after (modifyProperties o f) m).heap = { m.heap with
      objects := m.heap.objects.modify o.index fun c => { c with content := f c.content } } := rfl

theorem heap_modifyItems (a : ArrayRef) (f : Array Value → Array Value) (m : Machine) :
    (after (modifyItems a f) m).heap = { m.heap with
      arrays := m.heap.arrays.modify a.index fun c => { c with content := f c.content } } := rfl

namespace Performs

variable {x : Eval α} {m : Machine} {ops : List Operation}

theorem heap_after (h : Performs x m ops) : (after x m).heap = m.heap.run ops := by
  induction h with
  | quiet h => exact h _
  | newObject ps m => rfl
  | newArray xs m => rfl
  | put frozen key v h =>
    rw [after, changeProperties_eq _ _ h, ← after, heap_modifyProperties, heap_noteCellWrite]
    rfl
  | drop frozen key h =>
    rw [after, changeProperties_eq _ _ h, ← after, heap_modifyProperties, heap_noteCellWrite]
    rfl
  | change h hx =>
    rw [after, changeArray_eq h hx, ← after, heap_modifyItems, heap_noteCellWrite]
    rfl
  | check h =>
    rw [after, beforeArrayWrite_eq h]
    exact heap_noteCellWrite _ _
  | sort h _ hsort ih =>
    rw [after, hsort, heap_noteCellWrite] at ih
    rw [after, sortArray_eq _ h, bind_eq_of_ok hsort, ← after, heap_modifyItems, Heap.run_cons,
      Heap.run_append]
    exact ih ▸ rfl
  | freeze v m => cases v <;> rfl
  | bind hx _ _ ih ih' =>
    rw [after, hx] at ih
    rw [after, bind_eq_of_ok hx, Heap.run_append, ← ih]
    exact ih'
  | stop hx _ ih =>
    rw [after, hx] at ih
    rw [after, bind_eq_of_error hx]
    exact ih
  | @outcome α x m ops _ ih =>
    have houtcome : after (Eval.outcome x) m = after x m := by
      unfold after Eval.outcome
      cases x m <;> rfl
    rw [houtcome, ih]

theorem permits (h : Performs x m ops) : m.heap.Permits ops := by
  induction h with
  | quiet => trivial
  | newObject ps m => exact ⟨rfl, trivial⟩
  | newArray xs m => exact ⟨rfl, trivial⟩
  | put frozen key v h => exact ⟨h, trivial⟩
  | drop frozen key h => exact ⟨h, trivial⟩
  | change h _ => exact ⟨h, trivial⟩
  | check h => exact ⟨h, trivial⟩
  | sort h _ _ ih =>
    rw [heap_noteCellWrite] at ih
    exact ⟨h, Heap.permits_append.2 ⟨ih, trivial, trivial⟩⟩
  | freeze v m => exact ⟨trivial, trivial⟩
  | bind hx hops _ ih ih' =>
    have hheap := hops.heap_after
    rw [after, hx] at hheap
    refine Heap.permits_append.2 ⟨ih, ?_⟩
    rw [← hheap]
    exact ih'
  | stop _ _ ih => exact ih
  | outcome _ ih => exact ih

end Performs
end Eval
end AtomicStyles
