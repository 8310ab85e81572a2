import Mathlib
import AtomicStyles.Eval.Batch

/-!
# A logic for evaluation

What holds of evaluation as a whole is proved along its code. A judgement says something of
computations and their results; a logic is a judgement with rules, some for the ways in which
computations are composed and one for each operation on the machine. Every other part of
evaluation then has a rule that is derived from these.

A computation is given as a function of the bounds that are set to evaluation, so that a
judgement may be about what it comes to in the end.

Results may hold on to modules, as a function does to the module that it was defined in, and
to failures. A judgement may ask that only certain ones are ever met. It may also keep names
from being declared in frames that are there, and modules from running as a whole; in a new
frame any name may be declared.

## Main definitions

* `Held` — which modules and failures a result holds on to.
* `Judgement` — something said of computations.
* `Judgement.Good` — results that hold on to known modules and fair failures only.
* `Judgement.Takes`, `Judgement.Free` — scopes in which a pattern can be bound, and those in which
  statements can run.
* `Calculus` — a judgement under which computations can be composed.
* `Logic` — one with a rule for each operation on the machine.
* `Logic.Runs` — the parts of evaluation that call each other, under a judgement.

## Main results

* `Judgement.Holds.mapM`, `Judgement.Holds.forM`, `Judgement.Holds.foldlM` — iteration.
-/

namespace AtomicStyles

open Script Eval List

/-! ### What results hold on to -/

/-- The modules and failures that a result holds on to. -/
class Held (α : Type) where
  /-- All modules meet the first condition, and all failures the second one. -/
  Good : (ModuleId → Prop) → (EvalError → Prop) → α → Prop
  good_of_forall : ∀ {K : ModuleId → Prop} {F : EvalError → Prop}, (∀ id, K id) → (∀ e, F e) →
    ∀ a, Good K F a

/-- Results that hold on to nothing. -/
@[reducible] def Held.plain (α : Type) : Held α := ⟨fun _ _ _ => True, fun _ _ _ => trivial⟩

/-- A condition on successes and one on failures. -/
def Except.Meets {ε α : Type} (P : α → Prop) (F : ε → Prop) : Except ε α → Prop
  | .ok a => P a
  | .error e => F e

namespace Held

variable {α β : Type}

instance : Held Unit := .plain _
instance : Held Bool := .plain _
instance : Held Nat := .plain _
instance : Held Float := .plain _
instance : Held String := .plain _
instance : Held UInt16 := .plain _
instance : Held Ordering := .plain _
instance : Held Ident := .plain _
instance : Held Json := .plain _
instance : Held StyleValue := .plain _
instance : Held Assignment := .plain _

instance : Held EvalError := ⟨fun _ F e => F e, fun _ hF => hF⟩

instance : Held CallFailure := ⟨fun _ F f => F f.error, fun _ hF f => hF f.error⟩

instance [Held α] : Held (Option α) :=
  ⟨fun K F o => ∀ a ∈ o, Good K F a, fun hK hF _ a _ => good_of_forall hK hF a⟩

instance [Held α] : Held (List α) :=
  ⟨fun K F l => ∀ a ∈ l, Good K F a, fun hK hF _ a _ => good_of_forall hK hF a⟩

instance [Held α] : Held (Array α) :=
  ⟨fun K F xs => ∀ a ∈ xs, Good K F a, fun hK hF _ a _ => good_of_forall hK hF a⟩

instance [Held α] [Held β] : Held (α × β) :=
  ⟨fun K F p => Good K F p.1 ∧ Good K F p.2,
    fun hK hF p => ⟨good_of_forall hK hF p.1, good_of_forall hK hF p.2⟩⟩

instance [Held α] [Held β] : Held (Except α β) where
  Good K F := Except.Meets (Good K F) (Good K F)
  good_of_forall hK hF r := by
    cases r with
    | ok b => exact good_of_forall (α := β) hK hF b
    | error a => exact good_of_forall (α := α) hK hF a

instance [Held β] : Held (OrderedMap α β) :=
  ⟨fun K F m => ∀ e ∈ m.entries, Good K F e.2, fun hK hF _ e _ => good_of_forall hK hF e.2⟩

/-- A scope holds on to its module. -/
instance : Held Scope := ⟨fun K _ s => K s.module, fun hK _ s => hK s.module⟩

/-- A function that code has defined holds on to its scope. -/
instance : Held Function where
  Good K F
    | .defined d => Good K F d.scope
    | _ => True
  good_of_forall hK hF f := by
    cases f with
    | defined d => exact good_of_forall (α := Scope) hK hF d.scope
    | _ => trivial

instance : Held Value where
  Good K F
    | .function _ f => Good K F f
    | .module id => K id
    | _ => True
  good_of_forall hK hF v := by
    cases v with
    | function id f => exact good_of_forall (α := Function) hK hF f
    | module id => exact hK id
    | _ => trivial

instance : Held Slot :=
  ⟨fun K F slot => Good K F slot.value, fun hK hF slot => good_of_forall hK hF slot.value⟩

instance : Held Completion where
  Good K F
    | .returned v => Good K F v
    | _ => True
  good_of_forall hK hF c := by
    cases c with
    | returned v => exact good_of_forall (α := Value) hK hF v
    | _ => trivial

instance : Held Place where
  Good K F
    | .property v _ => Good K F v
    | .name _ => True
  good_of_forall hK hF p := by
    cases p with
    | property v key => exact good_of_forall (α := Value) hK hF v
    | name n => trivial

end Held

/-! ### Judgements -/

structure Judgement where
  /-- The bounds that are set to evaluation. -/
  Bound : Type
  /-- What a computation may use up. -/
  Index : Type
  Known : ModuleId → Prop
  /-- The failures that may be met. -/
  Fair : EvalError → Prop
  /-- The tables that a known module may have. -/
  Table : ModuleId → Tables → Prop
  /-- The names that may be declared in a scope, with a value or without one. -/
  Open : Scope → String → Bool → Prop
  /-- The modules whose top-level code may run. -/
  Runnable : ModuleId → Prop
  /-- The first index has less to use up. -/
  Below : Index → Index → Prop
  /-- What is said of a computation and its results. -/
  Holds : Index → {α : Type} → (α → Prop) → (Bound → Eval α) → Prop

/-- The result holds on to known modules and fair failures only. -/
def Judgement.Good (J : Judgement) {α : Type} [Held α] (a : α) : Prop := Held.Good J.Known J.Fair a

/-- What the computation gives is good. -/
abbrev Judgement.Gives (J : Judgement) (i : J.Index) {α : Type} [Held α] (x : J.Bound → Eval α) :
    Prop := J.Holds i J.Good x

namespace Judgement.Good

variable {J : Judgement} {α β : Type} [Held β]

variable {l : List β} {xs : Array β} {b : β} {m : OrderedMap α β}

theorem getD (h : J.Good l) {d : β} (hd : J.Good d) (n : Nat) : J.Good (l.getD n d) := by
  rw [getD_eq_getElem?_getD]
  cases hn : l[n]? with
  | none => exact hd
  | some b => exact h b (mem_of_getElem? hn)

theorem getD_array (h : J.Good xs) {d : β} (hd : J.Good d) (n : Nat) : J.Good (xs.getD n d) := by
  rw [Array.getD_eq_getD_getElem?]
  cases hn : xs[n]? with
  | none => exact hd
  | some b => exact h b (Array.mem_of_getElem? hn)

theorem extract (h : J.Good xs) (start stop : Nat) : J.Good (xs.extract start stop) := by
  intro b hb
  obtain ⟨n, _, rfl⟩ := Array.mem_extract_iff_getElem.1 hb
  exact h _ (Array.getElem_mem _)

theorem toList (h : J.Good xs) : J.Good xs.toList :=
  fun b hb => h b (Array.mem_toList_iff.1 hb)

theorem toArray (h : J.Good l) : J.Good l.toArray :=
  fun b hb => h b (mem_toArray.1 hb)

theorem append {l' : List β} (h : J.Good l) (h' : J.Good l') : J.Good (l ++ l') :=
  forall_mem_append.2 ⟨h, h'⟩

theorem cons (hb : J.Good b) (h : J.Good l) : J.Good (b :: l) :=
  forall_mem_cons.2 ⟨hb, h⟩

theorem nil : J.Good ([] : List β) := nofun

theorem of_cons (h : J.Good (b :: l)) : J.Good b ∧ J.Good l :=
  forall_mem_cons.1 h

theorem flatten {ls : List (List β)} (h : J.Good ls) : J.Good ls.flatten := by
  intro b hb
  obtain ⟨l, hl, hb⟩ := mem_flatten.1 hb
  exact h l hl b hb

theorem subset {l' : List β} (h : J.Good l) (hl : l' ⊆ l) : J.Good l' := fun b hb => h b (hl hb)

protected theorem none : J.Good (none : Option β) := nofun

protected theorem some (h : J.Good b) : J.Good (some b) := by
  rintro _ ⟨rfl⟩
  exact h

theorem get? [BEq α] [LawfulBEq α] (h : J.Good m) {a : α} (hget : m.get? a = some b) : J.Good b :=
  h _ (OrderedMap.mem_entries_of_get? hget)

theorem insert [BEq α] (h : J.Good m) (a : α) {b : β} (hb : J.Good b) : J.Good (m.insert a b) := by
  have hput : ∀ es : List (α × β), (∀ e ∈ es, J.Good e.2) →
      ∀ e ∈ OrderedMap.put a b es, J.Good e.2 := by
    intro es hes
    induction es with
    | nil => exact forall_mem_singleton.2 hb
    | cons e es ih =>
      obtain ⟨he, hes⟩ := forall_mem_cons.1 hes
      unfold OrderedMap.put
      split
      · exact forall_mem_cons.2 ⟨hb, hes⟩
      · exact forall_mem_cons.2 ⟨he, ih hes⟩
  exact hput m.entries h

theorem erase [BEq α] (h : J.Good m) (a : α) : J.Good (m.erase a) :=
  fun e he => h e (mem_of_mem_filter he)

theorem insertAll [BEq α] (h : J.Good m) {es : List (α × β)} (hes : ∀ e ∈ es, J.Good e.2) :
    J.Good (es.foldl (fun m e => m.insert e.1 e.2) m) := by
  induction es generalizing m with
  | nil => exact h
  | cons e es ih =>
    obtain ⟨he, hes⟩ := forall_mem_cons.1 hes
    exact ih (h.insert e.1 he) hes

end Judgement.Good

/-- The names of a pattern may be declared in the scope, with values. -/
structure Judgement.Takes (J : Judgement) (s : Scope) (names : List Ident) : Prop where
  good : J.Good s
  isOpen : ∀ id ∈ names, J.Open s id.name true

/-- All names may be declared in the scope. -/
structure Judgement.Free (J : Judgement) (s : Scope) : Prop where
  good : J.Good s
  isOpen : ∀ name hasValue, J.Open s name hasValue

theorem Judgement.Free.takes {J : Judgement} {s : Scope} (h : J.Free s) (names : List Ident) :
    J.Takes s names :=
  ⟨h.good, fun id _ => h.isOpen id.name true⟩

theorem Judgement.Takes.subset {J : Judgement} {s : Scope} {names names' : List Ident}
    (h : J.Takes s names) (hsub : names' ⊆ names) : J.Takes s names' :=
  ⟨h.good, fun id hid => h.isOpen id (hsub hid)⟩

/-- A condition on the states of a loop and one on its end. -/
def Turn.Meets {σ : Type} (P : σ → Prop) (Q : Completion → Prop) : Turn σ → Prop
  | .next state => P state
  | .stop c => Q c

/-- The rules for the ways to compose computations. -/
structure Judgement.Composition (J : Judgement) : Prop where
  fair : ∀ {e}, e ≠ .endless → J.Fair e
  pure : ∀ {i} {α : Type} {Q : α → Prop} {a}, Q a → J.Holds i Q fun _ => pure a
  throw : ∀ {i} {α : Type} {Q : α → Prop} {e}, J.Fair e → J.Holds i Q fun _ => throw e
  bind : ∀ {i} {α β : Type} {P : α → Prop} {Q : β → Prop} {x : J.Bound → Eval α}
    {f : J.Bound → α → Eval β}, J.Holds i P x → (∀ a, P a → J.Holds i Q fun k => f k a) →
    J.Holds i Q fun k => x k >>= f k
  outcome : ∀ {i} {α : Type} {P : α → Prop} {x : J.Bound → Eval α}, J.Holds i P x →
    J.Holds i (Except.Meets P J.Fair) fun k => outcome (x k)

structure Calculus extends Judgement, Judgement.Composition toJudgement

/-- The computation changes nothing unless it fails. -/
def Eval.Looks {α : Type} (x : Eval α) : Prop := ∀ m a m', x m = .ok a m' → m' = m

namespace Eval.Looks

variable {α β : Type}

protected theorem pure (a : α) : Looks (pure a : Eval α) := by
  rintro m _ m' ⟨⟩
  rfl

protected theorem throw (e : EvalError) : Looks (throw e : Eval α) := by
  rintro m a m' ⟨⟩

theorem raise (f : Fault) : Looks (raise f : Eval α) := by
  rintro m a m' ⟨⟩

protected theorem bind {x : Eval α} {k : α → Eval β} (hx : Looks x) (hk : ∀ a, Looks (k a)) :
    Looks (x >>= k) := by
  intro m b m' h
  change EStateM.bind x k m = .ok b m' at h
  unfold EStateM.bind at h
  cases hxm : x m <;> rw [hxm] at h
  · obtain rfl := hx _ _ _ hxm
    exact hk _ _ _ _ h
  · cases h

theorem ite {c : Prop} [Decidable c] {x y : Eval α} (hx : Looks x) (hy : Looks y) :
    Looks (if c then x else y) := by
  split
  · exact hx
  · exact hy

theorem items (a : ArrayRef) : Looks (items a) := by
  rintro m xs m' ⟨⟩
  rfl

theorem number (v : Value) : Looks (number v) := by
  cases v with
  | array a =>
    refine .bind (fun m t m' h => ?_) fun _ => .pure _
    change conclude (m.text (m.arrays.size + 1) (.array a)) m = .ok t m' at h
    cases htext : m.text (m.arrays.size + 1) (.array a) <;> rw [htext] at h <;> cases h
    rfl
  | _ => exact .pure _

end Eval.Looks

/-- The rules for the operations on the machine. -/
structure Judgement.Rules (J : Judgement) : Prop where
  -- Steps
  tick : ∀ {i}, J.Gives i fun _ => Eval.tick
  /-- What follows on a step has less to use up. -/
  spend : ∀ {i} {α : Type} {Q : α → Prop} {x : J.Bound → Eval α},
    (∀ j, J.Below j i → J.Holds j Q x) → J.Holds i Q fun k => do Eval.tick; x k
  call : ∀ {i} {α : Type} {Q : α → Prop} {x : J.Bound → Eval α},
    (∀ j, J.Below j i → J.Holds j Q x) → J.Holds i Q fun k => do Eval.tick; nested (x k)
  turns : ∀ {i} {σ : Type} {P : σ → Prop} {turn : J.Bound → σ → Eval (Turn σ)} {state : σ},
    (∀ state, P state → J.Holds i (Turn.Meets P J.Good) fun k => turn k state) → P state →
    J.Gives i fun k => turns (turn k) state
  -- Objects, arrays and functions
  newObject : ∀ {i} {ps : Properties}, J.Good ps → J.Gives i fun _ => newObject ps
  newArray : ∀ {i} {xs : Array Value}, J.Good xs → J.Gives i fun _ => newArray xs
  newFunction : ∀ {i} {f : Function}, J.Good f → J.Gives i fun _ => newFunction f
  /-- A frame that is new may declare any name. -/
  newFrame : ∀ {i}, J.Holds i
    (fun f => ∀ (s : Scope) name hasValue, J.Open { s with inner := f :: s.inner } name hasValue)
    fun _ => newFrame
  properties : ∀ {i} o, J.Gives i fun _ => properties o
  items : ∀ {i} a, J.Gives i fun _ => items a
  isFrozen : ∀ {i} v, J.Gives i fun _ => isFrozen v
  freeze : ∀ {i} {v : Value}, J.Good v → J.Gives i fun _ => freeze v
  putProperty : ∀ {i} o frozen key {v : Value}, J.Good v →
    J.Gives i fun _ => changeProperties o frozen fun ps => ps.insert key v
  dropProperty : ∀ {i} o frozen key,
    J.Gives i fun _ => changeProperties o frozen fun ps => ps.erase key
  /-- What becomes of the items is found by looking. -/
  changeArray : ∀ {i} a {x : Eval (Array Value → Array Value)}, Looks x →
    (J.Holds i (fun f => ∀ xs, J.Good xs → J.Good (f xs)) fun _ => x) →
    J.Gives i fun _ => changeArray a x
  /-- Other code may run while items are compared. -/
  sortArray : ∀ {i} a {order : J.Bound → Value → Value → Eval Ordering},
    (∀ vs : List Value, J.Good vs → J.Gives i fun k => sortItems (order k) vs) →
    J.Gives i fun k => sortArray (order k) a
  text : ∀ {i} v, J.Gives i fun _ => text v
  flattened : ∀ {i} depth {vs : List Value}, J.Good vs →
    J.Gives i fun _ => flattened depth vs
  madeGlobal : ∀ {i} g, J.Gives i fun _ => madeGlobal g
  keepGlobal : ∀ {i} g {v : Value}, J.Good v → J.Gives i fun _ => keepGlobal g v
  exception : ∀ {i}, J.Gives i fun _ => exception
  setException : ∀ {i} {v : Option Value}, J.Good v → J.Gives i fun _ => setException v
  -- Names
  ownSlot : ∀ {i} s name, J.Gives i fun _ => ownSlot s name
  lookup : ∀ {i} s name, J.Gives i fun _ => lookup s name
  declare : ∀ {i s name} {v : Option Value} isMutable, J.Open s name v.isSome → J.Good v →
    J.Gives i fun _ => declare s name v isMutable
  assign : ∀ {i} s name {v : Value}, J.Good v → J.Gives i fun _ => assign s name v
  recordWrite : ∀ {i}, J.Gives i fun _ => recordWrite
  -- Modules
  unit : ∀ {i}, J.Holds i J.Known fun _ => Eval.unit
  tables : ∀ {i id}, J.Known id → J.Holds i (J.Table id) fun _ => tables id
  exportsOf : ∀ {i id}, J.Known id → J.Gives i fun _ => exportsOf id
  runsWhole : ∀ {i id t}, J.Table id t →
    J.Holds i (fun isWhole => isWhole = true → J.Runnable id) fun _ => runsWhole t
  /-- The top-level code of a module that has not run may declare any name. -/
  runOnce : ∀ {i id} {x : J.Bound → Eval Unit}, J.Runnable id →
    (J.Free { module := id } → ∀ j, J.Below j i → J.Gives j x) →
    J.Gives i fun k => runOnce id (x k)

/-- A calculus with a rule for each operation on the machine. -/
structure Logic extends Calculus, Judgement.Rules toJudgement

/-! ### Composition -/

namespace Judgement.Holds

variable {L : Calculus} {i : L.Index} {α β : Type} {P : α → Prop} {Q : β → Prop}

protected theorem pure {a : α} (h : P a) : L.Holds i P fun _ => pure a := L.pure h

protected theorem throw {e : EvalError} (h : e ≠ .endless) : L.Holds i P fun _ => throw e :=
  L.throw (L.fair h)

theorem unsupported (what : Unsupported) : L.Holds i P fun _ => Eval.unsupported what :=
  .throw nofun

variable {x : L.Bound → Eval α} {γ : Type}

protected theorem bind {f : L.Bound → α → Eval β} (hx : L.Holds i P x)
    (hf : ∀ a, P a → L.Holds i Q fun k => f k a) : L.Holds i Q fun k => x k >>= f k :=
  L.bind hx hf

theorem mono {P' : α → Prop} (h : L.Holds i P x) (hP : ∀ a, P a → P' a) : L.Holds i P' x := by
  have hbind : L.Holds i P' fun k => x k >>= pure := h.bind fun a ha => .pure (hP a ha)
  simpa only [bind_pure] using hbind

theorem outcome (h : L.Holds i P x) :
    L.Holds i (Except.Meets P L.Fair) fun k => Eval.outcome (x k) :=
  L.outcome h

theorem conclude {r : Except EvalError α} (h : Except.Meets P L.Fair r) :
    L.Holds i P fun _ => Eval.conclude r := by
  cases r with
  | ok a => exact L.pure h
  | error e => exact L.throw h

theorem iteOf {c : Prop} [Decidable c] {y : L.Bound → Eval α} (ht : c → L.Holds i P x)
    (he : ¬ c → L.Holds i P y) : L.Holds i P fun k => if c then x k else y k := by
  by_cases hc : c
  · simpa only [if_pos hc] using ht hc
  · simpa only [if_neg hc] using he hc

theorem ite {c : Prop} [Decidable c] {y : L.Bound → Eval α} (ht : L.Holds i P x)
    (he : L.Holds i P y) : L.Holds i P fun k => if c then x k else y k :=
  .iteOf (fun _ => ht) fun _ => he

/-! ### Iteration -/

theorem mapM [Held β] {f : L.Bound → γ → Eval β} (l : List γ)
    (hf : ∀ a ∈ l, L.Gives i fun k => f k a) : L.Gives i fun k => l.mapM (f k) := by
  induction l with
  | nil => exact .pure nofun
  | cons a l ih =>
    simp only [mapM_cons]
    refine (hf a (.head _)).bind fun b hb => ?_
    refine (ih fun a ha => hf a (.tail _ ha)).bind fun bs hbs => .pure ?_
    exact forall_mem_cons.2 ⟨hb, hbs⟩

theorem forM {f : L.Bound → γ → Eval Unit} (l : List γ) (hf : ∀ a ∈ l, L.Gives i fun k => f k a) :
    L.Gives i fun k => l.forM (f k) := by
  induction l with
  | nil => exact .pure trivial
  | cons a l ih =>
    refine (hf a (.head _)).bind fun _ _ => ?_
    exact ih fun a ha => hf a (.tail _ ha)

theorem foldlM {f : L.Bound → α → γ → Eval α} (l : List γ)
    (hf : ∀ a, P a → ∀ c ∈ l, L.Holds i P fun k => f k a c) {a : α} (ha : P a) :
    L.Holds i P fun k => l.foldlM (f k) a := by
  induction l generalizing a with
  | nil => exact .pure ha
  | cons c l ih =>
    simp only [foldlM_cons]
    refine (hf a ha c (.head _)).bind fun b hb => ?_
    exact ih (fun a ha c hc => hf a ha c (.tail _ hc)) hb

theorem filterM {f : L.Bound → γ → Eval Bool} (l : List γ)
    (hf : ∀ a ∈ l, L.Gives i fun k => f k a) : L.Holds i (· ⊆ l) fun k => l.filterM (f k) := by
  have haux : ∀ rest acc : List γ, rest ⊆ l → acc ⊆ l →
      L.Holds i (· ⊆ l) fun k => rest.filterAuxM (f k) acc := by
    intro rest
    induction rest with
    | nil => exact fun acc _ hacc => .pure hacc
    | cons a rest ih =>
      intro acc hrest hacc
      rw [cons_subset] at hrest
      refine (hf a hrest.1).bind fun b _ => ih _ hrest.2 ?_
      cases b with
      | true => exact cons_subset.2 ⟨hrest.1, hacc⟩
      | false => exact hacc
  refine (haux l [] (List.Subset.refl l) (nil_subset l)).bind fun kept hkept => .pure ?_
  exact fun a ha => hkept (mem_reverse.1 ha)

/-! ### Searches and loops that may stop for want of bounds -/

theorem exportNames (hendless : L.Fair .endless)
    (htables : ∀ id, L.Holds i (fun _ => True) fun _ => tables id) (fuel : Nat) (id : ModuleId)
    (acc : List ModuleId × List String) :
    L.Holds i (fun _ => True) fun _ => Eval.exportNames fuel id acc := by
  induction fuel generalizing id acc with
  | zero => exact L.throw hendless
  | succ fuel ih =>
    obtain ⟨visited, names⟩ := acc
    unfold Eval.exportNames
    refine .ite (.pure trivial) ((htables id).bind fun t _ => ?_)
    refine .foldlM _ (fun acc _ star _ => ?_) trivial
    cases star.source with
    | ok target => exact ih target acc
    | error e => exact .pure trivial

theorem turnsFrom {σ : Type} {S : σ → Prop} {turn : L.Bound → σ → Eval (Turn σ)}
    (hendless : L.Fair .endless)
    (hturn : ∀ state, S state → L.Holds i (Turn.Meets S L.Good) fun k => turn k state) (fuel : Nat)
    {state : σ} (hstate : S state) : L.Gives i fun k => Eval.turnsFrom (turn k) fuel state := by
  induction fuel generalizing state with
  | zero => exact L.throw hendless
  | succ fuel ih =>
    refine (hturn state hstate).bind fun t ht => ?_
    cases t with
    | next state => exact ih ht
    | stop c => exact .pure ht

end Judgement.Holds

/-! ### The parts of evaluation -/

/-- The parts of evaluation under a judgement, for code that is smaller than a bound. -/
structure Logic.Runs (L : Logic) (i : L.Index) (size : Nat) (R : L.Bound → Interp) : Prop where
  expr : ∀ {s e}, L.Good s → sizeOf e < size → L.Gives i fun k => (R k).expr s e
  stmt : ∀ {s stmt}, L.Free s → sizeOf stmt < size → L.Gives i fun k => (R k).stmt s stmt
  bind : ∀ {s} kind {p} {v : Value}, L.Takes s p.names → sizeOf p < size → L.Good v →
    L.Gives i fun k => (R k).bind s kind p v
  call : ∀ {f : Value} {args : List Value}, L.Good f → L.Good args →
    L.Gives i fun k => (R k).call f args
  topLevel : ∀ {id} name, L.Known id → L.Gives i fun k => (R k).topLevel id name
  exported : ∀ {id} name, L.Known id → L.Gives i fun k => (R k).exported id name
  /-- A declaration of a module that has been evaluated can be assigned to. -/
  assigned : ∀ {id t name} {v : Value}, L.Table id t → t.declarations.contains name = true →
    L.Good v → L.Gives i fun k => do
      let _ ← (R k).topLevel id name
      writeOr (throw .endless) { module := id } name v

end AtomicStyles
