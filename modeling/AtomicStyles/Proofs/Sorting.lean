import AtomicStyles.Proofs.Coupling.Loading
import AtomicStyles.Proofs.Exceptions
import AtomicStyles.Proofs.Heap.Operations

/-!
# Sorting arrays

Arrays are sorted by insertion, with a comparison that runs code: it can change the machine, and it
can fail. The items are taken out first and put back once all comparisons have been made. So the
array is sorted, and equal items keep their order, if the comparison is an order on the items and
leaves the array alone; where a comparison fails, the array is as it was.

## Main definitions

* `PreorderOn` — an order in which any two of some items can be compared.
* `StablySorted` — the items of a list in ascending order, equal ones in the order of the list.
* `Eval.Comparison` — how the items of an array can be compared.
* `Eval.SortEnds` — how sorting an array ends.

## Main statements

* `stablySorted_stableSort` — sorting by insertion is stable.
* `Eval.finishes_sortItems` — sorting with a comparison that can fail.
* `Eval.sort_stable_and_atomic` — **sorting an array is stable and atomic.**
-/

namespace AtomicStyles

/-! ### Sorting by insertion -/

section Insertion

variable {α : Type} {le : α → α → Bool} {p : α → Prop}

/-- Any two of the items in question can be compared, and the comparison is transitive. -/
structure PreorderOn (le : α → α → Bool) (p : α → Prop) : Prop where
  total : ∀ u v, p u → p v → le u v = true ∨ le v u = true
  trans : ∀ u v w, p u → p v → p w → le u v = true → le v w = true → le u w = true

/-- The second list is the first one in ascending order; items that are equal in the order keep
the one they had. -/
structure StablySorted (le : α → α → Bool) (vs ws : List α) : Prop where
  perm : ws.Perm vs
  ascending : ws.Pairwise fun u v => le u v = true
  stable : ∀ u ∈ vs, ws.filter (fun w => le u w && le w u) = vs.filter fun w => le u w && le w u

/-- Inserts an item into ones that stand in descending order, before all that are not greater. -/
def insertDown (le : α → α → Bool) (v : α) (ds : List α) : List α :=
  ds.orderedInsert (fun v w => le w v = true) v

/-- The items of a list, inserted one after the other. -/
def stableSort (le : α → α → Bool) (vs : List α) : List α :=
  (vs.foldl (fun ds v => insertDown le v ds) []).reverse

theorem stableSort_concat (le : α → α → Bool) (vs : List α) (v : α) :
    stableSort le (vs ++ [v]) = (insertDown le v (stableSort le vs).reverse).reverse := by
  simp [stableSort]

variable {v w : α}

theorem insertDown_cons_of_le (h : le w v = true) (ds : List α) :
    insertDown le v (w :: ds) = v :: w :: ds := by
  simp [insertDown, h]

theorem insertDown_cons_of_gt (h : le w v = false) (ds : List α) :
    insertDown le v (w :: ds) = w :: insertDown le v ds := by
  simp [insertDown, h]

theorem perm_insertDown (le : α → α → Bool) (v : α) (ds : List α) :
    (insertDown le v ds).Perm (v :: ds) :=
  List.perm_orderedInsert _ v ds

theorem perm_stableSort (le : α → α → Bool) (vs : List α) : (stableSort le vs).Perm vs := by
  induction vs using List.reverseRecOn with
  | nil => rfl
  | append_singleton vs v ih =>
    rw [stableSort_concat]
    calc (insertDown le v (stableSort le vs).reverse).reverse.Perm
          (v :: (stableSort le vs).reverse) := (List.reverse_perm _).trans (perm_insertDown _ _ _)
      _ |>.Perm (v :: vs) := ((List.reverse_perm _).trans ih).cons v
      _ |>.Perm (vs ++ [v]) := (List.perm_append_singleton v vs).symm

@[simp] theorem mem_stableSort {vs : List α} : w ∈ stableSort le vs ↔ w ∈ vs :=
  (perm_stableSort le vs).mem_iff

/-- Insertion keeps the descending order. -/
theorem descending_insertDown (hle : PreorderOn le p) {ds : List α} (hv : p v) (hds : ∀ w ∈ ds, p w)
    (h : ds.Pairwise fun u w => le w u = true) :
    (insertDown le v ds).Pairwise fun u w => le w u = true := by
  induction ds with
  | nil => simp [insertDown]
  | cons w ds ih =>
    obtain ⟨hw, hrest⟩ := List.pairwise_cons.1 h
    have hpw : p w := hds w (by simp)
    have hpds : ∀ x ∈ ds, p x := fun x hx => hds x (by simp [hx])
    cases hwv : le w v with
    | true =>
      rw [insertDown_cons_of_le hwv, List.pairwise_cons]
      refine ⟨fun x hx => ?_, h⟩
      rcases List.mem_cons.1 hx with rfl | hx
      · exact hwv
      · exact hle.trans x w v (hpds x hx) hpw hv (hw x hx) hwv
    | false =>
      rw [insertDown_cons_of_gt hwv, List.pairwise_cons]
      refine ⟨fun x hx => ?_, ih hpds hrest⟩
      rcases List.mem_cons.1 ((perm_insertDown le v ds).mem_iff.1 hx) with rfl | hx
      · exact (hle.total w x hpw hv).resolve_left (by simp [hwv])
      · exact hw x hx

/-- Insertion puts an item before those that are equal to it, and leaves the others in their
order: an item that is passed over is greater, and so in another class. -/
theorem filter_insertDown (hle : PreorderOn le p) {u : α} {ds : List α} (hu : p u) (hv : p v)
    (hds : ∀ w ∈ ds, p w) :
    (insertDown le v ds).filter (fun w => le u w && le w u) =
      (v :: ds).filter fun w => le u w && le w u := by
  induction ds with
  | nil => rfl
  | cons w ds ih =>
    have hw : p w := hds w (by simp)
    cases hwv : le w v with
    | true => rw [insertDown_cons_of_le hwv]
    | false =>
      rw [insertDown_cons_of_gt hwv, List.filter_cons, ih fun x hx => hds x (by simp [hx])]
      have hclass : (le u v && le v u) = true → (le u w && le w u) = false := by
        intro hv'
        rw [Bool.and_eq_true] at hv'
        rw [Bool.and_eq_false_iff]
        refine .inr (Bool.eq_false_iff.2 fun hwu => ?_)
        exact Bool.false_ne_true (hwv.symm.trans (hle.trans w u v hw hu hv hwu hv'.1))
      cases hcv : (le u v && le v u) with
      | true => simp [hcv, hclass hcv]
      | false => simp [List.filter_cons, hcv]

theorem stablySorted_stableSort (hle : PreorderOn le p) {vs : List α} (hvs : ∀ v ∈ vs, p v) :
    StablySorted le vs (stableSort le vs) := by
  refine ⟨perm_stableSort le vs, ?_, fun u hu => ?_⟩
  · induction vs using List.reverseRecOn with
    | nil => exact .nil
    | append_singleton vs v ih =>
      rw [stableSort_concat, List.pairwise_reverse]
      have hds : ∀ w ∈ (stableSort le vs).reverse, p w := fun w hw =>
        hvs w (by simp [mem_stableSort.1 (List.mem_reverse.1 hw)])
      refine descending_insertDown hle (hvs v (by simp)) hds ?_
      rw [List.pairwise_reverse]
      exact ih fun w hw => hvs w (by simp [hw])
  · have hpu : p u := hvs u hu
    clear hu
    induction vs using List.reverseRecOn with
    | nil => rfl
    | append_singleton vs v ih =>
      have hds : ∀ w ∈ (stableSort le vs).reverse, p w := fun w hw =>
        hvs w (by simp [mem_stableSort.1 (List.mem_reverse.1 hw)])
      rw [stableSort_concat, List.filter_reverse,
        filter_insertDown hle hpu (hvs v (by simp)) hds, ← List.filter_reverse, List.reverse_cons,
        List.reverse_reverse, List.filter_append, List.filter_append,
        ih fun w hw => hvs w (by simp [hw])]

end Insertion

namespace Eval

open Coupling
open List hiding after

/-! ### Comparisons that can fail -/

section Failing

variable {α β : Type}

/-- A run that ends with a value and a machine as the first predicate says, or fails as the second
one does. -/
def Finishes (Q : α → Machine → Prop) (F : EvalError → Machine → Prop) :
    EStateM.Result EvalError Machine α → Prop
  | .ok a m => Q a m
  | .error e m => F e m

variable {m : Machine}

theorem Finishes.bind {Q : α → Machine → Prop} {Q' : β → Machine → Prop}
    {F : EvalError → Machine → Prop} {x : Eval α} {k : α → Eval β} (hx : Finishes Q F (x m))
    (hk : ∀ a m, Q a m → Finishes Q' F (k a m)) : Finishes Q' F ((x >>= k) m) := by
  cases hxm : x m with
  | ok a m' =>
    rw [hxm] at hx
    rw [bind_eq_of_ok hxm]
    exact hk a m' hx
  | error e m' =>
    rw [hxm] at hx
    rw [bind_eq_of_error hxm]
    exact hx

theorem Finishes.mono {Q Q' : α → Machine → Prop} {F F' : EvalError → Machine → Prop}
    {result : EStateM.Result EvalError Machine α} (h : Finishes Q F result)
    (hok : ∀ a m, Q a m → Q' a m) (herror : ∀ e m, F e m → F' e m) : Finishes Q' F' result := by
  cases result with
  | ok a m => exact hok a m h
  | error e m => exact herror e m h

variable {order : Value → Value → Eval Ordering} {P : Machine → Prop} {vs : List Value}

/-- Comparisons of items keep a property of the machine when they succeed. -/
def Keeps (order : Value → Value → Eval Ordering) (P : Machine → Prop) (vs : List Value) : Prop :=
  ∀ u ∈ vs, ∀ v ∈ vs, ∀ m o m', P m → order u v m = .ok o m' → P m'

/-- Comparisons of items on machines with a property come out as an order says. -/
def Follows (order : Value → Value → Eval Ordering) (P : Machine → Prop) (vs : List Value)
    (le : Value → Value → Bool) : Prop :=
  ∀ u ∈ vs, ∀ v ∈ vs, ∀ m o m', P m → order u v m = .ok o m' → (o = .gt ↔ le u v = false)

/-- A comparison of two items fails. -/
def Fails (order : Value → Value → Eval Ordering) (P : Machine → Prop) (vs : List Value)
    (e : EvalError) (m' : Machine) : Prop :=
  ∃ u ∈ vs, ∃ v ∈ vs, ∃ m, P m ∧ order u v m = .error e m'

/-- Inserting an item into sorted ones. The induction is on the sorted ones, and `P` is what the
comparisons keep. -/
theorem finishes_insertSorted (hkeep : Keeps order P vs) {v : Value} {ds : List Value} (hv : v ∈ vs)
    (hds : ∀ w ∈ ds, w ∈ vs) (hm : P m) :
    Finishes (fun ds' m' => P m' ∧ ds'.Perm (v :: ds) ∧
      ∀ le, Follows order P vs le → ds' = insertDown le v ds) (Fails order P vs)
      (insertSorted order v ds m) := by
  induction ds generalizing m with
  | nil => exact ⟨hm, .rfl, fun _ _ => rfl⟩
  | cons w ds ih =>
    have hw : w ∈ vs := hds w (by simp)
    have horder : Finishes (fun o m' => P m' ∧ ∀ le, Follows order P vs le →
        (o = .gt ↔ le w v = false)) (Fails order P vs) (order w v m) := by
      cases h : order w v m with
      | ok o m' => exact ⟨hkeep w hw v hv m o m' hm h, fun le hle => hle w hw v hv m o m' hm h⟩
      | error e m' => exact ⟨w, hw, v, hv, m, hm, h⟩
    rw [insertSorted]
    refine horder.bind fun o m' ho => ?_
    obtain ⟨hm', hle⟩ := ho
    have hstop (hgt : o ≠ .gt) (le) (hfollows : Follows order P vs le) :
        v :: w :: ds = insertDown le v (w :: ds) :=
      (insertDown_cons_of_le (by simpa using mt (hle le hfollows).2 hgt) ds).symm
    cases o with
    | gt =>
      refine (ih (fun x hx => hds x (by simp [hx])) hm').bind fun ds' m'' hds' => ?_
      obtain ⟨hm'', hperm, heq⟩ := hds'
      refine ⟨hm'', (hperm.cons w).trans (.swap v w ds), fun le hfollows => ?_⟩
      rw [insertDown_cons_of_gt ((hle le hfollows).1 rfl), heq le hfollows]
    | lt => exact ⟨hm', .rfl, hstop (by simp)⟩
    | eq => exact ⟨hm', .rfl, hstop (by simp)⟩

/-- Sorting items. The induction is on those that are still to be inserted. -/
theorem finishes_sortItems (hkeep : Keeps order P vs) (hm : P m) :
    Finishes (fun ws m' => P m' ∧ ws.Perm vs ∧
      ∀ le, Follows order P vs le → ws = stableSort le vs) (Fails order P vs)
      (sortItems order vs m) := by
  have hrun (us ds : List Value) (hus : ∀ u ∈ us, u ∈ vs) (hds : ∀ w ∈ ds, w ∈ vs) :
      ∀ m, P m → Finishes (fun ds' m' => P m' ∧ ds'.Perm (us ++ ds) ∧
        ∀ le, Follows order P vs le → ds' = us.foldl (fun ds v => insertDown le v ds) ds)
        (Fails order P vs) (us.foldlM (fun ds v => insertSorted order v ds) ds m) := by
    induction us generalizing ds with
    | nil => exact fun m hm => ⟨hm, .rfl, fun _ _ => rfl⟩
    | cons u us ih =>
      intro m hm
      have hu : u ∈ vs := hus u (by simp)
      rw [foldlM_cons]
      refine (finishes_insertSorted hkeep hu hds hm).bind fun ds₁ m₁ h₁ => ?_
      obtain ⟨hm₁, hperm₁, heq₁⟩ := h₁
      have hds₁ : ∀ w ∈ ds₁, w ∈ vs := fun w hw => by
        rcases mem_cons.1 (hperm₁.mem_iff.1 hw) with rfl | hw
        · exact hu
        · exact hds w hw
      refine (ih ds₁ (fun x hx => hus x (by simp [hx])) hds₁ m₁ hm₁).mono ?_ fun _ _ h => h
      rintro ds₂ m₂ ⟨hm₂, hperm₂, heq₂⟩
      refine ⟨hm₂, hperm₂.trans ((hperm₁.append_left us).trans perm_middle), fun le hle => ?_⟩
      rw [heq₂ le hle, heq₁ le hle, foldl_cons]
  refine (hrun vs [] (fun _ h => h) (by simp) m hm).bind fun ds m' h => ?_
  obtain ⟨hm', hperm, heq⟩ := h
  rw [append_nil] at hperm
  refine ⟨hm', (reverse_perm ds).trans hperm, fun le hle => ?_⟩
  rw [stableSort, heq le hle]

end Failing

/-! ### What is undefined comes last -/

/-- The items that are compared; what is undefined is not asked about. -/
def Defined (vs : List Value) (v : Value) : Prop := v ∈ vs ∧ v ≠ .undefined

/-- An order in which what is undefined comes after all else. -/
def undefinedLast (le : Value → Value → Bool) : Value → Value → Bool
  | _, .undefined => true
  | .undefined, _ => false
  | u, v => le u v

variable {le : Value → Value → Bool} {vs ws : List Value}

theorem undefinedLast_right (u : Value) : undefinedLast le u .undefined = true := by
  cases u <;> rfl

variable {v u : Value}

theorem undefinedLast_left (hv : v ≠ .undefined) : undefinedLast le .undefined v = false := by
  cases v <;> first | rfl | contradiction

theorem undefinedLast_defined (hu : u ≠ .undefined) (hv : v ≠ .undefined) :
    undefinedLast le u v = le u v := by
  unfold undefinedLast
  split <;> simp_all

theorem preorderOn_undefinedLast (h : PreorderOn le (Defined vs)) :
    PreorderOn (undefinedLast le) (· ∈ vs) where
  total u v hu hv := by
    by_cases hv' : v = .undefined
    · subst hv'
      exact .inl (undefinedLast_right u)
    by_cases hu' : u = .undefined
    · subst hu'
      exact .inr (undefinedLast_right v)
    rw [undefinedLast_defined hu' hv', undefinedLast_defined hv' hu']
    exact h.total u v ⟨hu, hu'⟩ ⟨hv, hv'⟩
  trans u v w hu hv hw huv hvw := by
    by_cases hw' : w = .undefined
    · subst hw'
      exact undefinedLast_right u
    by_cases hv' : v = .undefined
    · subst hv'
      rw [undefinedLast_left hw'] at hvw
      contradiction
    by_cases hu' : u = .undefined
    · subst hu'
      rw [undefinedLast_left hv'] at huv
      contradiction
    rw [undefinedLast_defined hu' hv'] at huv
    rw [undefinedLast_defined hv' hw'] at hvw
    rw [undefinedLast_defined hu' hw']
    exact h.trans u v w ⟨hu, hu'⟩ ⟨hv, hv'⟩ ⟨hw, hw'⟩ huv hvw

/-- In ascending order all that is undefined stands at the end. -/
theorem exists_front (h : ws.Pairwise fun u v => undefinedLast le u v = true) :
    ∃ front count, ws = front ++ List.replicate count .undefined ∧ .undefined ∉ front := by
  induction ws with
  | nil => exact ⟨[], 0, rfl, by simp⟩
  | cons w ws ih =>
    obtain ⟨hw, hws⟩ := pairwise_cons.1 h
    by_cases hw' : w = .undefined
    · subst hw'
      have hall : ∀ v ∈ ws, v = .undefined := by
        intro v hv
        by_contra hv'
        exact Bool.false_ne_true ((undefinedLast_left hv').symm.trans (hw v hv))
      exact ⟨[], ws.length + 1, by rw [replicate_succ, ← eq_replicate_of_mem hall]; rfl,
        by simp⟩
    · obtain ⟨front, count, rfl, hfront⟩ := ih hws
      exact ⟨w :: front, count, rfl, by simp [hfront, Ne.symm hw']⟩

/-! ### Comparing items -/

theorem text_eq (v : Value) (m : Machine) :
    text v m = conclude (m.text (m.arrays.size + 1) v) m := by
  cases v <;> rfl

/-- Texts are taken off the machine and leave it as it is. -/
theorem finishes_text (v : Value) (m : Machine) :
    Finishes (fun t m' => m' = m ∧ m.text (m.arrays.size + 1) v = .ok t) (fun _ m' => m' = m)
      (text v m) := by
  rw [text_eq]
  cases h : m.text (m.arrays.size + 1) v with
  | ok t => exact ⟨rfl, rfl⟩
  | error e => exact rfl

/-- So are numbers. -/
theorem after_number (v : Value) (m : Machine) : after (number v) m = m := by
  have hquiet : Finishes (fun _ m' => m' = m) (fun _ m' => m' = m) (number v m) := by
    cases v with
    | array a => exact (finishes_text (.array a) m).bind fun _ _ h => h.1
    | _ => exact rfl
  rw [after]
  cases h : number v m <;> rw [h] at hquiet <;> exact hquiet

/-- The text of a value; one that has none is empty. -/
def textOf (m : Machine) (v : Value) : String := (m.text (m.arrays.size + 1) v).toOption.getD ""

/-- The order of values by the UTF-16 units of their texts. -/
def unitOrder (m : Machine) (u v : Value) : Bool :=
  decide (Text.units (textOf m u) ≤ Text.units (textOf m v))

theorem compareUnits_eq_gt_iff (us vs : List UInt16) :
    Text.compareUnits us vs = .gt ↔ ¬us ≤ vs := by
  rw [List.not_le]
  fun_induction Text.compareUnits us vs with
  | case1 => simp
  | case2 => simp
  | case3 => simp
  | case4 u us v vs h => simp [List.cons_lt_cons_iff, UInt16.lt_asymm h, (UInt16.ne_of_lt h).symm]
  | case5 u us v vs _ h => simp [List.cons_lt_cons_iff, h]
  | case6 u us v vs h h' ih =>
    have heq : v = u := UInt16.le_antisymm (UInt16.not_lt.1 h) (UInt16.not_lt.1 h')
    rw [ih, List.cons_lt_cons_iff]
    simp [heq]

theorem preorderOn_unitOrder (m : Machine) (p : Value → Prop) : PreorderOn (unitOrder m) p where
  total u v _ _ := by
    simp only [unitOrder, decide_eq_true_eq]
    exact List.le_total _ _
  trans u v w _ _ _ := by
    simp only [unitOrder, decide_eq_true_eq]
    exact List.le_trans

/-- Without a function items are compared by their texts. -/
theorem finishes_compareBy_texts (r : Interp) {f : Value} (hf : f.isFunction = false) (u v : Value)
    (m : Machine) :
    Finishes (fun o m' => m' = m ∧ (o = .gt ↔ unitOrder m u v = false)) (fun _ m' => m' = m)
      (compareBy r f u v m) := by
  rw [compareBy, hf]
  refine (finishes_text u m).bind fun t m' h => ?_
  obtain ⟨rfl, hu⟩ := h
  refine (finishes_text v m').bind fun t' m'' h' => ?_
  obtain ⟨rfl, hv⟩ := h'
  refine ⟨rfl, ?_⟩
  rw [compareUnits_eq_gt_iff, unitOrder, textOf, textOf, hu, hv, decide_eq_false_iff_not]
  rfl

/-- With a function they are compared by the number that it gives. -/
theorem finishes_compareBy_call (r : Interp) {f : Value} (hf : f.isFunction = true) (u v : Value)
    (m : Machine) :
    Finishes (fun o m' => ∃ x y, r.call f [u, v] m = .ok x m' ∧ number x m' = .ok y m' ∧
        (o = .gt ↔ 0.0 < y))
      (fun _ m' => m' = after (r.call f [u, v]) m) (compareBy r f u v m) := by
  rw [compareBy, hf]
  have hcall : Finishes (fun x m' => r.call f [u, v] m = .ok x m')
      (fun _ m' => m' = after (r.call f [u, v]) m) (r.call f [u, v] m) := by
    rw [after]
    cases r.call f [u, v] m <;> exact rfl
  refine hcall.bind fun x m' hx => ?_
  have hnumber : Finishes (fun y m'' => m'' = m' ∧ number x m' = .ok y m')
      (fun _ m'' => m'' = after (r.call f [u, v]) m) (number x m') := by
    have hafter := after_number x m'
    rw [after] at hafter
    cases h : number x m' with
    | ok y m'' =>
      rw [h] at hafter
      exact ⟨hafter, by rw [← hafter]; rfl⟩
    | error e m'' =>
      rw [h] at hafter
      rw [after, hx]
      exact hafter
  refine hnumber.bind fun y m'' hy => ?_
  obtain ⟨rfl, hy⟩ := hy
  refine ⟨x, y, hx, hy, ?_⟩
  split
  · simpa
  · split <;> simpa

theorem compareItems_defined (r : Interp) (f : Value) (hu : u ≠ .undefined) (hv : v ≠ .undefined) :
    compareItems r f u v = compareBy r f u v := by
  unfold compareItems
  split <;> simp_all

/-- What is undefined is put last without a comparison. -/
theorem finishes_compareItems_undefined (r : Interp) (f : Value)
    (h : u = .undefined ∨ v = .undefined) (m : Machine) (F : EvalError → Machine → Prop) :
    Finishes (fun o m' => m' = m ∧ ∀ le, (o = .gt ↔ undefinedLast le u v = false)) F
      (compareItems r f u v m) := by
  by_cases hu : u = .undefined
  · subst hu
    by_cases hv : v = .undefined
    · subst hv
      exact ⟨rfl, fun le => by simp [undefinedLast]⟩
    · have hgt : compareItems r f .undefined v = pure .gt := by
        cases v <;> first | rfl | contradiction
      rw [hgt]
      exact ⟨rfl, fun le => by simp [undefinedLast_left hv]⟩
  · have hv := h.resolve_left hu
    subst hv
    have hlt : compareItems r f u .undefined = pure .lt := by
      cases u <;> first | rfl | contradiction
    rw [hlt]
    exact ⟨rfl, fun le => by simp [undefinedLast_right]⟩

/-! ### The method -/

section Method

variable {r : Interp} {f : Value} {a : ArrayRef} {m : Machine} {P : Machine → Prop}

/-- Calls of a function on two items leave an array as it is, fail or not, and keep a property of
the machine if they succeed. -/
structure LeavesAlone (r : Interp) (f : Value) (a : ArrayRef) (vs : List Value)
    (P : Machine → Prop) : Prop where
  content : ∀ u v m, Defined vs u → Defined vs v → P m →
    ((after (r.call f [u, v]) m).arrayCell a).content = (m.arrayCell a).content
  keeps : ∀ u v m x m', Defined vs u → Defined vs v → P m → r.call f [u, v] m = .ok x m' → P m'

/-- The function gives a positive number exactly if the first item comes after the second. -/
def AnswersBy (r : Interp) (f : Value) (vs : List Value) (P : Machine → Prop)
    (le : Value → Value → Bool) : Prop :=
  ∀ u v m x y m', Defined vs u → Defined vs v → P m → r.call f [u, v] m = .ok x m' →
    number x m' = .ok y m' → (0.0 < y ↔ le u v = false)

abbrev itemsOf (m : Machine) (a : ArrayRef) : List Value := (m.arrayCell a).content.toList

/-- How the items of an array can be compared: by their texts, or by a function that leaves the
array alone and that orders its items. The machine has a property whenever items are compared,
from the time on at which the write has been counted. -/
inductive Comparison (r : Interp) (f : Value) (a : ArrayRef) (m : Machine) :
    (Value → Value → Bool) → (Machine → Prop) → Prop
  | texts : f.isFunction = false →
      Comparison r f a m (unitOrder m) (· = after (beforeArrayWrite a) m)
  | given {le : Value → Value → Bool} {P : Machine → Prop} : f.isFunction = true →
      P (after (beforeArrayWrite a) m) → LeavesAlone r f a (itemsOf m a) P →
      PreorderOn le (Defined (itemsOf m a)) → AnswersBy r f (itemsOf m a) P le →
        Comparison r f a m le P

inductive SortEnds (r : Interp) (f : Value) (a : ArrayRef) (m : Machine)
    (le : Value → Value → Bool) (P : Machine → Prop) : EStateM.Result EvalError Machine Value → Prop
  /-- The array is sorted; what is undefined is at its end. -/
  | sorted {m' : Machine} {front : List Value} {count : Nat} :
      itemsOf m' a = front ++ List.replicate count .undefined → .undefined ∉ front →
      StablySorted (undefinedLast le) (itemsOf m a) (itemsOf m' a) →
        SortEnds r f a m le P (.ok (.array a) m')
  /-- A comparison of two items fails, and the array is as it was. -/
  | failed {e : EvalError} {m' : Machine} : Fails (compareItems r f) P (itemsOf m a) e m' →
      itemsOf m' a = itemsOf m a → SortEnds r f a m le P (.error e m')
  | refused {e : EvalError} {m' : Machine} : (m.arrayCell a).isFrozen = true →
      itemsOf m' a = itemsOf m a → SortEnds r f a m le P (.error e m')

/-- The items that are put back into an array which holds as many. -/
theorem content_modifyItems {xs : Array Value} (h : (m.arrayCell a).content.size = xs.size) :
    ((after (modifyItems a fun _ => xs) m).arrayCell a).content = xs := by
  show (Array.getD (m.arrays.modify a.index _) a.index _).content = xs
  by_cases hin : a.index < m.arrays.size
  · simp [Array.getD, hin, Array.getElem_modify]
  · -- an array that does not exist is empty, and so is what is put back
    simp only [Machine.arrayCell, Array.getD, hin, ↓reduceDIte, Array.size_empty] at h
    simp [Array.getD, hin, Array.eq_empty_of_size_eq_zero h.symm]

/-- Counting the write leaves all arrays as they are. -/
theorem arrays_after_beforeArrayWrite (a : ArrayRef) (m : Machine) :
    (after (beforeArrayWrite a) m).arrays = m.arrays := by
  cases h : (m.arrayCell a).isFrozen with
  | false =>
    rw [after, beforeArrayWrite_eq h]
    show (m.noteCellWrite _).arrays = _
    simp only [Machine.noteCellWrite, Machine.noteWrite]
    split_ifs <;> rfl
  | true =>
    obtain ⟨e, m', herror, harrays⟩ := beforeArrayWrite_frozen h
    rw [after, herror]
    exact harrays

theorem itemsOf_after_beforeArrayWrite (a : ArrayRef) (m : Machine) :
    itemsOf (after (beforeArrayWrite a) m) a = itemsOf m a := by
  rw [itemsOf, Machine.arrayCell, arrays_after_beforeArrayWrite]
  rfl

/-- Comparing two items leaves the array as it is if the function does, fail or not, and keeps what
the function keeps. -/
theorem finishes_compareItems (hcall : f.isFunction = true → LeavesAlone r f a (itemsOf m a) P)
    {u v : Value} (hu : u ∈ itemsOf m a) (hv : v ∈ itemsOf m a) {m₁ : Machine} (hP : P m₁)
    (hitems : itemsOf m₁ a = itemsOf m a) :
    Finishes (fun _ m' => P m' ∧ itemsOf m' a = itemsOf m a)
      (fun _ m' => itemsOf m' a = itemsOf m a) (compareItems r f u v m₁) := by
  by_cases hundefined : u = .undefined ∨ v = .undefined
  · refine (finishes_compareItems_undefined r f hundefined m₁ _).mono ?_ fun _ _ h => h
    rintro o m' ⟨rfl, -⟩
    exact ⟨hP, hitems⟩
  obtain ⟨hu', hv'⟩ := not_or.1 hundefined
  rw [compareItems_defined r f hu' hv']
  cases hf : f.isFunction with
  | false =>
    refine (finishes_compareBy_texts r hf u v m₁).mono ?_ ?_
    · rintro o m' ⟨rfl, -⟩
      exact ⟨hP, hitems⟩
    · rintro e m' rfl
      exact hitems
  | true =>
    have hcontent := congrArg Array.toList ((hcall hf).content u v m₁ ⟨hu, hu'⟩ ⟨hv, hv'⟩ hP)
    refine (finishes_compareBy_call r hf u v m₁).mono ?_ ?_
    · rintro o m' ⟨x, y, hx, -, -⟩
      rw [after, hx] at hcontent
      exact ⟨(hcall hf).keeps u v m₁ x m' ⟨hu, hu'⟩ ⟨hv, hv'⟩ hP hx, hcontent.trans hitems⟩
    · rintro e m' rfl
      exact hcontent.trans hitems

theorem keeps_compareItems (hcall : f.isFunction = true → LeavesAlone r f a (itemsOf m a) P) :
    Keeps (compareItems r f) (fun m' => P m' ∧ itemsOf m' a = itemsOf m a) (itemsOf m a) := by
  rintro u hu v hv m₁ o m' ⟨hP, hitems⟩ h
  have hends := finishes_compareItems hcall hu hv hP hitems
  rw [h] at hends
  exact hends

/-- A comparison that fails leaves the array as it is. -/
theorem itemsOf_of_fails (hcall : f.isFunction = true → LeavesAlone r f a (itemsOf m a) P)
    {e : EvalError} {m' : Machine} (h : Fails (compareItems r f)
      (fun m' => P m' ∧ itemsOf m' a = itemsOf m a) (itemsOf m a) e m') :
    itemsOf m' a = itemsOf m a := by
  obtain ⟨u, hu, v, hv, m₁, ⟨hP, hitems⟩, herror⟩ := h
  have hends := finishes_compareItems hcall hu hv hP hitems
  rw [herror] at hends
  exact hends

theorem unitOrder_congr {m' : Machine} (h : m'.arrays = m.arrays) : unitOrder m' = unitOrder m := by
  have htext : textOf m' = textOf m := by
    funext v
    simp only [textOf, Machine.text_congr h, h]
  unfold unitOrder
  rw [htext]

/-- The comparisons that a comparison of items makes come out as its order says. -/
theorem Comparison.follows (h : Comparison r f a m le P) :
    Follows (compareItems r f) (fun m' => P m' ∧ itemsOf m' a = itemsOf m a) (itemsOf m a)
      (undefinedLast le) := by
  rintro u hu v hv m₁ o m' ⟨hP, -⟩ ho
  by_cases hundefined : u = .undefined ∨ v = .undefined
  · have hends := finishes_compareItems_undefined r f hundefined m₁ fun _ _ => True
    rw [ho] at hends
    exact hends.2 le
  obtain ⟨hu', hv'⟩ := not_or.1 hundefined
  rw [compareItems_defined r f hu' hv'] at ho
  rw [undefinedLast_defined hu' hv']
  cases h with
  | texts hf =>
    have hends := finishes_compareBy_texts r hf u v m₁
    rw [ho] at hends
    rw [hends.2, hP, unitOrder_congr (arrays_after_beforeArrayWrite a m)]
  | given hf _ _ _ hanswers =>
    have hends := finishes_compareBy_call r hf u v m₁
    rw [ho] at hends
    obtain ⟨x, y, hx, hy, hgt⟩ := hends
    exact hgt.trans (hanswers u v m₁ x y m' ⟨hu, hu'⟩ ⟨hv, hv'⟩ hP hx hy)

theorem Comparison.preorderOn (h : Comparison r f a m le P) :
    PreorderOn le (Defined (itemsOf m a)) := by
  cases h with
  | texts _ => exact preorderOn_unitOrder m _
  | given _ _ _ hle _ => exact hle

theorem Comparison.holds (h : Comparison r f a m le P) : P (after (beforeArrayWrite a) m) := by
  cases h with
  | texts _ => rfl
  | given _ hP _ _ _ => exact hP

theorem Comparison.leavesAlone (h : Comparison r f a m le P) (hf : f.isFunction = true) :
    LeavesAlone r f a (itemsOf m a) P := by
  cases h with
  | texts hf' => exact absurd hf (by simp [hf'])
  | given _ _ hleaves _ _ => exact hleaves

/-- Sorting an array with comparisons that keep a property of the machine, to which it belongs
that the array holds what it held. -/
theorem finishes_sort (args : List Value) (hfrozen : (m.arrayCell a).isFrozen = false)
    (hm : P (after (beforeArrayWrite a) m)) (hitems : ∀ m', P m' → itemsOf m' a = itemsOf m a)
    (hkeep : Keeps (compareItems r (argument args 0)) P (itemsOf m a)) :
    Finishes (fun v m' => v = .array a ∧ (itemsOf m' a).Perm (itemsOf m a) ∧
        ∀ le, Follows (compareItems r (argument args 0)) P (itemsOf m a) le →
          itemsOf m' a = stableSort le (itemsOf m a))
      (Fails (compareItems r (argument args 0)) P (itemsOf m a)) (callList r a .sort args m) := by
  have hm₀ : after (beforeArrayWrite a) m = m.noteCellWrite (m.arrayCell a) := by
    rw [after, beforeArrayWrite_eq hfrozen]
    rfl
  rw [hm₀] at hm
  have hsort : Finishes (fun _ m' => (itemsOf m' a).Perm (itemsOf m a) ∧
      ∀ le, Follows (compareItems r (argument args 0)) P (itemsOf m a) le →
        itemsOf m' a = stableSort le (itemsOf m a))
      (Fails (compareItems r (argument args 0)) P (itemsOf m a))
      (sortArray (compareItems r (argument args 0)) a m) := by
    rw [sortArray_eq _ hfrozen]
    refine (finishes_sortItems hkeep hm).bind fun ws m₁ h => ?_
    obtain ⟨hm₁, hperm, heq⟩ := h
    have hcontent : itemsOf (after (modifyItems a fun _ => ws.toArray) m₁) a = ws := by
      rw [itemsOf, content_modifyItems]
      have hlength := congrArg List.length (hitems m₁ hm₁)
      simpa [itemsOf] using hlength.trans hperm.length_eq.symm
    exact ⟨(List.Perm.of_eq hcontent).trans hperm, fun le hle => hcontent.trans (heq le hle)⟩
  exact hsort.bind fun _ _ h => ⟨rfl, h⟩

theorem sort_frozen (r : Interp) (args : List Value) (h : (m.arrayCell a).isFrozen = true) :
    ∃ e m', callList r a .sort args m = .error e m' ∧ itemsOf m' a = itemsOf m a := by
  obtain ⟨e, m', herror, harrays⟩ := beforeArrayWrite_frozen h
  refine ⟨e, m', bind_eq_of_error (bind_eq_of_error herror), ?_⟩
  rw [itemsOf, Machine.arrayCell, harrays]
  rfl

/-- **Sorting an array is stable and atomic.** If the comparison is the order of UTF-16 units or
comes from a function that leaves the array alone and orders its items, the array ends up sorted,
with equal items in their old order and all that is undefined at the end, unless a comparison
fails; then it is as it was. So it is after any function that leaves the array alone, whether or not
it orders the items, and what such a function leaves behind if it does not fail are the same
items. -/
theorem sort_stable_and_atomic (r : Interp) (a : ArrayRef) (args : List Value) (m : Machine) :
    (∀ le P, Comparison r (argument args 0) a m le P →
      SortEnds r (argument args 0) a m le P (callList r a .sort args m)) ∧
    ∀ P, LeavesAlone r (argument args 0) a (itemsOf m a) P → P (after (beforeArrayWrite a) m) →
      Finishes (fun _ m' => (itemsOf m' a).Perm (itemsOf m a))
        (fun _ m' => itemsOf m' a = itemsOf m a) (callList r a .sort args m) := by
  cases hfrozen : (m.arrayCell a).isFrozen with
  | true =>
    obtain ⟨e, m', hsort, hitems⟩ := sort_frozen r args hfrozen
    rw [hsort]
    exact ⟨fun le P _ => .refused hfrozen hitems, fun P _ _ => hitems⟩
  | false =>
    refine ⟨fun le P h => ?_, fun P hleaves hP => ?_⟩
    · have hends := finishes_sort args hfrozen ⟨h.holds, itemsOf_after_beforeArrayWrite a m⟩
        (fun m' h => h.2) (keeps_compareItems h.leavesAlone)
      cases hsort : callList r a .sort args m with
      | ok v m' =>
        rw [hsort] at hends
        obtain ⟨rfl, -, heq⟩ := hends
        have hpreorder := preorderOn_undefinedLast h.preorderOn
        have hsorted := stablySorted_stableSort hpreorder fun _ hv => hv
        rw [← heq _ h.follows] at hsorted
        obtain ⟨front, count, hfront, hnone⟩ := exists_front hsorted.ascending
        exact .sorted hfront hnone hsorted
      | error e m' =>
        rw [hsort] at hends
        refine .failed ?_ (itemsOf_of_fails h.leavesAlone hends)
        obtain ⟨u, hu, v, hv, m₁, ⟨hP, -⟩, herror⟩ := hends
        exact ⟨u, hu, v, hv, m₁, hP, herror⟩
    · refine (finishes_sort args hfrozen ⟨hP, itemsOf_after_beforeArrayWrite a m⟩
        (fun m' h => h.2) (keeps_compareItems fun _ => hleaves)).mono ?_ ?_
      · exact fun v m' h => h.2.1
      · exact fun e m' h => itemsOf_of_fails (fun _ => hleaves) h

end Method

/-! ### An array of letters -/

/-- A machine with the array `[undefined, 'b', 'a']`. -/
def letters : Machine :=
  { idle with arrays := #[{ content := #[.undefined, .string "b", .string "a"], stamp := 0,
                            isShared := false }] }

/-- `Array.isArray`, which takes any two texts for equal. -/
def isArrayFunction : Value := .function 0 (.builtin .isArray)

theorem finishes_isArrayFunction (s : String) (v : Value) (m : Machine) :
    Finishes (fun x m' => x = .bool false ∧ m'.arrays = m.arrays) (fun _ m' => m'.arrays = m.arrays)
      ((interp 1).call isArrayFunction [.string s, v] m) := by
  have htick : Finishes (fun _ m' => m'.arrays = m.arrays) (fun _ m' => m'.arrays = m.arrays)
      (tick m) := by
    refine Finishes.bind (Q := fun _ m' => m' = m) (x := stepsLeft) rfl ?_
    rintro n _ rfl
    split <;> exact rfl
  exact htick.bind fun _ m' h => ⟨rfl, h⟩

theorem eq_string_of_defined {v : Value} (h : Defined (itemsOf letters ⟨0⟩) v) :
    ∃ s, v = .string s := by
  obtain ⟨hmem, hne⟩ := h
  have hmem : v ∈ [Value.undefined, .string "b", .string "a"] := hmem
  simp only [mem_cons, not_mem_nil, or_false] at hmem
  rcases hmem with rfl | rfl | rfl
  · exact absurd rfl hne
  · exact ⟨_, rfl⟩
  · exact ⟨_, rfl⟩

theorem leavesAlone_isArrayFunction :
    LeavesAlone (interp 1) isArrayFunction ⟨0⟩ (itemsOf letters ⟨0⟩) fun _ => True where
  content u v m hu _ _ := by
    obtain ⟨s, rfl⟩ := eq_string_of_defined hu
    have hends := finishes_isArrayFunction s v m
    have harrays :
        (after ((interp 1).call isArrayFunction [.string s, v]) m).arrays = m.arrays := by
      rw [after]
      cases h : (interp 1).call isArrayFunction [.string s, v] m with
      | ok x m' =>
        rw [h] at hends
        exact hends.2
      | error e m' =>
        rw [h] at hends
        exact hends
    rw [Machine.arrayCell, harrays]
    rfl
  keeps _ _ _ _ _ _ _ _ _ := trivial

theorem comparison_isArrayFunction :
    Comparison (interp 1) isArrayFunction ⟨0⟩ letters (fun _ _ => true) fun _ => True := by
  refine .given rfl trivial leavesAlone_isArrayFunction ⟨by simp, by simp⟩ ?_
  intro u v m x y m' hu _ _ hx hy
  obtain ⟨s, rfl⟩ := eq_string_of_defined hu
  have hends := finishes_isArrayFunction s v m
  rw [hx] at hends
  obtain ⟨rfl, -⟩ := hends
  obtain ⟨rfl, -⟩ := EStateM.Result.ok.inj hy
  have hzero : ¬(0.0 : Float) < 0.0 := by decide
  exact iff_of_false hzero (by simp)

/-- The letters are sorted by their texts, and by a function that takes them for equal. -/
theorem sort_stable_and_atomic_letters :
    (Comparison (interp 1) .undefined ⟨0⟩ letters (unitOrder letters)
        (· = after (beforeArrayWrite ⟨0⟩) letters) ∧
      SortEnds (interp 1) .undefined ⟨0⟩ letters (unitOrder letters)
        (· = after (beforeArrayWrite ⟨0⟩) letters) (callList (interp 1) ⟨0⟩ .sort [] letters)) ∧
    (Comparison (interp 1) isArrayFunction ⟨0⟩ letters (fun _ _ => true) (fun _ => True) ∧
      SortEnds (interp 1) isArrayFunction ⟨0⟩ letters (fun _ _ => true) (fun _ => True)
        (callList (interp 1) ⟨0⟩ .sort [isArrayFunction] letters)) ∧
    LeavesAlone (interp 1) isArrayFunction ⟨0⟩ (itemsOf letters ⟨0⟩) (fun _ => True) ∧
      Finishes (fun _ m' => (itemsOf m' ⟨0⟩).Perm (itemsOf letters ⟨0⟩))
        (fun _ m' => itemsOf m' ⟨0⟩ = itemsOf letters ⟨0⟩)
        (callList (interp 1) ⟨0⟩ .sort [isArrayFunction] letters) :=
  ⟨⟨.texts rfl, (sort_stable_and_atomic (interp 1) ⟨0⟩ [] letters).1 _ _ (.texts rfl)⟩,
    ⟨comparison_isArrayFunction, (sort_stable_and_atomic (interp 1) ⟨0⟩ [isArrayFunction]
      letters).1 _ _ comparison_isArrayFunction⟩,
    leavesAlone_isArrayFunction, (sort_stable_and_atomic (interp 1) ⟨0⟩ [isArrayFunction]
      letters).2 _ leavesAlone_isArrayFunction trivial⟩

end Eval
end AtomicStyles
