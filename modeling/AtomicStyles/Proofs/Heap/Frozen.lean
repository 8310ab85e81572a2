import AtomicStyles.Proofs.Heap.Evaluation
import AtomicStyles.Proofs.Sorting

/-!
# Frozen values

What is frozen stays as it is for the rest of a run, since every change is made right after a look
at the object or array. Sorting is the one exception: an array is checked before its items are
compared, and the calls of the function that compares them may freeze it before they are put back.

## Main definitions

* `FrozenInSort` — an array is frozen while its items are compared.
* `FrozenKept` — frozen values stay as they are from one point of a run to another.

## Main statements

* `Heap.run_objectCell`, `Heap.run_arrayCell` — what is frozen, through a run.
* `Batch.frozen_kept` — **in every run frozen values stay as they are, but for arrays that are
  frozen while they are sorted.**
* `Eval.sort_changes_frozen` — an array that is sorted after it has been frozen.
-/

namespace AtomicStyles

open Eval Coupling
open List hiding after

/-! ### One operation -/

/-- Only what exists is frozen. -/
theorem lt_size_of_frozen {γ : Type} {cells : Array (Cell γ)} {j : Nat} {d : Cell γ}
    (hd : d.isFrozen = false) (h : (cells.getD j d).isFrozen = true) : j < cells.size := by
  by_contra hlt
  rw [Array.getD, dif_neg hlt, hd] at h
  exact Bool.false_ne_true h

/-- To freeze what is frozen changes nothing. -/
theorem getD_modify_freeze {γ : Type} {cells : Array (Cell γ)} {j : Nat} {d : Cell γ}
    (h : (cells.getD j d).isFrozen = true) (i : Nat) :
    (cells.modify i fun c => { c with isFrozen := true }).getD j d = cells.getD j d := by
  rw [getD_modify]
  split
  · rw [← h]
  · rfl

namespace Operation

variable {h : Heap} {op : Operation} {o : ObjectRef} {a : ArrayRef}

theorem arrayRef_eq {a a' : ArrayRef} (h : a.index = a'.index) : a = a' := by
  cases a
  cases a'
  exact congrArg ArrayRef.mk h

/-- An operation that is allowed leaves a frozen object as it is. -/
theorem objectCell_apply (hop : op.Allowed h) (hf : (h.objectCell o).isFrozen = true) :
    (op.apply h).objectCell o = h.objectCell o := by
  -- properties are changed of another object only
  have hother {o' : ObjectRef} (ho' : (h.objectCell o').isFrozen = false) :
      ¬(o'.index = o.index ∧ o.index < h.objects.size) := by
    rintro ⟨hindex, -⟩
    rw [Heap.objectCell, hindex] at ho'
    exact Bool.false_ne_true (ho'.symm.trans hf)
  cases op with
  | newObject c => exact getD_push _ c _ (lt_size_of_frozen rfl hf)
  | put o' key v => exact (getD_modify _ _ _ _ _).trans (if_neg (hother hop))
  | drop o' key => exact (getD_modify _ _ _ _ _).trans (if_neg (hother hop))
  | freeze v =>
    cases v with
    | object o' => exact getD_modify_freeze hf _
    | _ => rfl
  | _ => rfl

/-- So does it a frozen array, unless it puts sorted items into it. -/
theorem arrayCell_apply (hop : op.Allowed h) (hf : (h.arrayCell a).isFrozen = true)
    (hsorted : ∀ xs, op ≠ .sorted a xs) : (op.apply h).arrayCell a = h.arrayCell a := by
  cases op with
  | newArray c => exact getD_push _ c _ (lt_size_of_frozen rfl hf)
  | change a' f =>
    refine (getD_modify _ _ _ _ _).trans (if_neg ?_)
    rintro ⟨hindex, -⟩
    obtain rfl := arrayRef_eq hindex
    exact Bool.false_ne_true ((hop : (h.arrayCell a').isFrozen = false).symm.trans hf)
  | sorted a' xs =>
    refine (getD_modify _ _ _ _ _).trans (if_neg ?_)
    rintro ⟨hindex, -⟩
    exact hsorted xs (by rw [arrayRef_eq hindex])
  | freeze v =>
    cases v with
    | array a' => exact getD_modify_freeze hf _
    | _ => rfl
  | _ => rfl

theorem isFrozen_modify {j i : Nat} (f : Array Value → Array Value) (d : Cell (Array Value)) :
    ((h.arrays.modify i fun c => { c with content := f c.content }).getD j d).isFrozen =
      (h.arrays.getD j d).isFrozen := by
  rw [getD_modify]
  split <;> rfl

/-- No operation thaws an array. -/
theorem isFrozen_apply (hop : op.Allowed h) (hf : (h.arrayCell a).isFrozen = true) :
    ((op.apply h).arrayCell a).isFrozen = true := by
  cases op with
  | sorted a' xs => exact (isFrozen_modify (fun _ => xs) _).trans hf
  | _ =>
    rw [arrayCell_apply hop hf (by simp)]
    exact hf

/-- Only one freezes it. -/
theorem eq_freeze_of_isFrozen (hop : op.Allowed h) (hf : (h.arrayCell a).isFrozen = false)
    (hf' : ((op.apply h).arrayCell a).isFrozen = true) : op = .freeze (.array a) := by
  have hsame {heap : Heap} (hcell : heap.arrayCell a = h.arrayCell a) :
      (heap.arrayCell a).isFrozen ≠ true := by
    rw [hcell, hf]
    exact Bool.false_ne_true
  cases op with
  | newArray c =>
    have hc : c.isFrozen = false := hop
    rw [Heap.arrayCell, apply, Array.getD_eq_getD_getElem?, Array.getElem?_push] at hf'
    split at hf'
    · exact absurd (hc.symm.trans hf') Bool.false_ne_true
    · rw [← Array.getD_eq_getD_getElem?] at hf'
      exact absurd hf' (hsame rfl)
  | change a' f => exact absurd ((isFrozen_modify f _).symm.trans hf') (hsame rfl)
  | sorted a' xs => exact absurd ((isFrozen_modify (fun _ => xs) _).symm.trans hf') (hsame rfl)
  | freeze v =>
    cases v with
    | array a' =>
      rw [Heap.arrayCell, apply, getD_modify] at hf'
      split at hf'
      next hindex => rw [arrayRef_eq hindex.1]
      next => exact absurd hf' (hsame rfl)
    | _ => exact absurd hf' (hsame rfl)
  | _ => exact absurd hf' (hsame rfl)

end Operation

/-! ### Runs -/

namespace Heap

variable {h : Heap} {o : ObjectRef} {a : ArrayRef} {ops : List Operation}

/-- A frozen object stays as it is. -/
theorem run_objectCell (hp : h.Permits ops) (hf : (h.objectCell o).isFrozen = true) :
    (h.run ops).objectCell o = h.objectCell o := by
  induction ops generalizing h with
  | nil => rfl
  | cons op ops ih =>
    have hcell := Operation.objectCell_apply hp.1 hf
    rw [run_cons, ih hp.2 (by rw [hcell, hf]), hcell]

/-- So does a frozen array as long as no sorted items are put into it. -/
theorem run_arrayCell (hp : h.Permits ops) (hf : (h.arrayCell a).isFrozen = true)
    (hops : ∀ xs, .sorted a xs ∉ ops) : (h.run ops).arrayCell a = h.arrayCell a := by
  induction ops generalizing h with
  | nil => rfl
  | cons op ops ih =>
    simp only [mem_cons, not_or] at hops
    have hcell := Operation.arrayCell_apply hp.1 hf fun xs => Ne.symm (hops xs).1
    rw [run_cons, ih hp.2 (by rw [hcell, hf]) fun xs => (hops xs).2, hcell]

/-- An array is not thawed. -/
theorem run_isFrozen (hp : h.Permits ops) (hf : (h.arrayCell a).isFrozen = true) :
    ((h.run ops).arrayCell a).isFrozen = true := by
  induction ops generalizing h with
  | nil => exact hf
  | cons op ops ih => exact ih hp.2 (Operation.isFrozen_apply hp.1 hf)

/-- An array that becomes frozen in a run is frozen by an operation of it. -/
theorem freeze_mem (hp : h.Permits ops) (hf : (h.arrayCell a).isFrozen = false)
    (hf' : ((h.run ops).arrayCell a).isFrozen = true) : .freeze (.array a) ∈ ops := by
  induction ops generalizing h with
  | nil => exact absurd (hf.symm.trans hf') Bool.false_ne_true
  | cons op ops ih =>
    cases hop : ((op.apply h).arrayCell a).isFrozen with
    | true =>
      rw [Operation.eq_freeze_of_isFrozen hp.1 hf hop]
      exact .head _
    | false => exact .tail _ (ih hp.2 hop hf')

end Heap

/-- The array is frozen after it has been checked for a sort, and before that sort puts the items
back. Sorts that begin in between end there as well, so the check and the items are those of one and
the same sort. -/
def FrozenInSort (a : ArrayRef) (before mid : List Operation) : Prop :=
  ∃ earlier begun waiting xs rest, before = earlier ++ .check a :: begun ∧
    mid = waiting ++ .sorted a xs :: rest ∧ Guarded (begun ++ waiting) ∧
    .freeze (.array a) ∈ begun

/-- What is frozen after some operations on an empty heap is the same after some more of them,
unless it is an array that was frozen in the course of a sort which ends among them. -/
structure FrozenKept (before mid : List Operation) : Prop where
  objects : ∀ o, ((Heap.run {} before).objectCell o).isFrozen = true →
    (Heap.run {} (before ++ mid)).objectCell o = (Heap.run {} before).objectCell o
  arrays : ∀ a, ((Heap.run {} before).arrayCell a).isFrozen = true →
    (Heap.run {} (before ++ mid)).arrayCell a = (Heap.run {} before).arrayCell a ∨
      FrozenInSort a before mid

/-- A sort that puts items into a frozen array began before the array was frozen. -/
theorem frozenInSort {a : ArrayRef} {before waiting rest later : List Operation} {xs : Array Value}
    {h : Heap} (hp : h.Permits (before ++ (waiting ++ .sorted a xs :: rest)))
    (hg : Guarded (before ++ (waiting ++ .sorted a xs :: rest) ++ later))
    (hf : ((h.run before).arrayCell a).isFrozen = true) :
    FrozenInSort a before (waiting ++ .sorted a xs :: rest) := by
  have hsplit : before ++ (waiting ++ .sorted a xs :: rest) ++ later =
      before ++ waiting ++ .sorted a xs :: (rest ++ later) := by simp
  obtain ⟨earlier, during, heq, hduring⟩ := hg.exists_check hsplit
  obtain ⟨hbefore, hrest⟩ := Heap.permits_append.1 hp
  have habsurd : ∀ between begun, waiting = between ++ .check a :: begun → False := by
    -- a check finds no frozen array
    rintro between begun rfl
    obtain ⟨hsince, -⟩ := Heap.permits_append.1 hrest
    obtain ⟨hbetween, hthen, -⟩ := Heap.permits_append.1 hsince
    exact Bool.false_ne_true (hthen.symm.trans (Heap.run_isFrozen hbetween hf))
  rcases append_eq_append_iff.1 heq with ⟨between, rfl, hlater⟩ | ⟨begun, rfl, hsooner⟩
  · exact (habsurd _ _ hlater).elim
  · rcases cons_eq_append_iff.1 hsooner with ⟨rfl, hcons⟩ | ⟨begun, rfl, rfl⟩
    · exact (habsurd [] _ hcons).elim
    · -- the check came first, and the array was not frozen then
      obtain ⟨-, hthen, hbegun⟩ := Heap.permits_append.1 hbefore
      rw [Heap.run_append] at hf
      exact ⟨earlier, begun, waiting, xs, rest, rfl, rfl, hduring,
        Heap.freeze_mem hbegun hthen hf⟩

theorem frozenKept {before mid later : List Operation} (hp : Heap.Permits {} (before ++ mid))
    (hg : Guarded (before ++ mid ++ later)) : FrozenKept before mid where
  objects o hf := by
    rw [Heap.run_append]
    exact Heap.run_objectCell (Heap.permits_append.1 hp).2 hf
  arrays a hf := by
    by_cases hsorted : ∃ xs, .sorted a xs ∈ mid
    · obtain ⟨xs, hmem⟩ := hsorted
      obtain ⟨waiting, rest, rfl⟩ := append_of_mem hmem
      exact .inr (frozenInSort hp hg hf)
    · rw [Heap.run_append]
      exact .inl (Heap.run_arrayCell (Heap.permits_append.1 hp).2 hf (not_exists.1 hsorted))

/-! ### Jobs -/

/-- **In every run frozen values stay as they are, but for arrays that are frozen while they are
sorted.** Jobs perform operations on an empty heap, and from any point of that run to any later one
every frozen object and array is left as it is, unless it is an array that was frozen between the
check with which a sort of it begins and the end of that very sort. -/
theorem Batch.frozen_kept (g : Graph) (limits : Limits) (cache : ModuleCache) (jobs : List Job) :
    ∃ ops, Performs jobs (.start g limits cache) ops ∧
      (runJobs jobs (.start g limits cache)).2.heap = Heap.run {} ops ∧
      ∀ before mid rest, ops = before ++ mid ++ rest → FrozenKept before mid := by
  obtain ⟨ops, hops, hguarded⟩ := exists_performs jobs (.start g limits cache)
  refine ⟨ops, hops, hops.heap_runJobs, ?_⟩
  rintro before mid rest rfl
  exact frozenKept (Heap.permits_append.1 hops.permits).1 hguarded

/-! ### A function that freezes what is sorted -/

namespace Eval

/-- `() => (freeze(a), null)`. -/
def freezer : Value := .function 0 (.defined
  { name := none
    params := []
    code := .value (.sequence [.call (.ident ⟨"freeze", 0⟩) [.ident ⟨"a", 0⟩] ⟨0, 0⟩, .null])
    scope := ⟨"/unit", [0]⟩ })

/-- The array `a = [undefined, 'b', 'a']`, in the scope of the function. -/
def unfrozenLetters : Machine :=
  { letters with frames := #[⟨[("a", ⟨some (.array ⟨0⟩), false⟩),
      ("freeze", ⟨some (.function 1 (.builtin .freeze)), false⟩)]⟩] }

/-- In the course of `a.sort(() => (freeze(a), null))` the array is frozen, and its items change
after that. -/
theorem sort_changes_frozen : ∃ before mid,
    Performs (callList (interp 6) ⟨0⟩ .sort [freezer]) unfrozenLetters (before ++ mid) ∧
    ((unfrozenLetters.heap.run before).arrayCell ⟨0⟩).isFrozen = true ∧
    ((unfrozenLetters.heap.run before).arrayCell ⟨0⟩).content.toList =
      [.undefined, .string "b", .string "a"] ∧
    ((unfrozenLetters.heap.run (before ++ mid)).arrayCell ⟨0⟩).content.toList =
      [.string "b", .string "a", .undefined] := by
  have htracks : Tracks
      (sortItems (compareItems (interp 6) freezer) (itemsOf unfrozenLetters ⟨0⟩)) :=
    ((Logic.holds_sortItems (L := trackingLogic) (fun u v _ _ =>
      Logic.holds_compareItems (lax_tracking.runs 6 () 0) (good_tracking _) (good_tracking _)
        (good_tracking _)) (good_tracking _)) ()).1
  obtain ⟨ops, hops, -⟩ := htracks unfrozenLetters
  obtain ⟨m₁, hm₁⟩ : ∃ m₁, after (sortItems (compareItems (interp 6) freezer)
      (itemsOf unfrozenLetters ⟨0⟩)) unfrozenLetters = m₁ := ⟨_, rfl⟩
  have hsort : sortItems (compareItems (interp 6) freezer) (itemsOf unfrozenLetters ⟨0⟩)
      unfrozenLetters = .ok [.string "b", .string "a", .undefined] m₁ := by
    rw [← hm₁]
    rfl
  have hbefore : unfrozenLetters.heap.run (.check ⟨0⟩ :: ops) = m₁.heap := by
    rw [← hm₁, hops.heap_after]
    rfl
  have hrun : Performs (callList (interp 6) ⟨0⟩ .sort [freezer]) unfrozenLetters
      (.check ⟨0⟩ :: (ops ++ [.sorted ⟨0⟩ #[.string "b", .string "a", .undefined]]) ++ []) :=
    .bind ((sortArray_eq _ rfl).trans (bind_eq_of_ok hsort)) (.sort rfl hops hsort)
      (.quiet fun _ => rfl)
  rw [List.append_nil, ← List.cons_append] at hrun
  refine ⟨_, _, hrun, ?_, ?_, ?_⟩
  · rw [hbefore, ← hm₁]
    rfl
  · rw [hbefore, ← hm₁]
    rfl
  · rw [← hrun.heap_after]
    rfl

end Eval
end AtomicStyles
