import AtomicStyles.Proofs.Logic.Evaluation

/-!
# Traits of computations

A trait is a property of computations that those have which are composed of others with the
property. Evaluation as a whole has it if looking at the machine and changing it does: changes
that leave objects and arrays alone are taken together, and only those of objects and arrays are
told apart.

## Main definitions

* `Returns` — all that a computation returns has a property.
* `Trait` — a property that composition keeps.
* `Trait.Kept` — one that the operations on the machine have.

## Main results

* `Trait.Kept.runs`, `Trait.Kept.has_callValue` — **evaluation has the trait.**
-/

namespace AtomicStyles

open Script Eval

variable {α β : Type}

/-! ### What computations return -/

def Returns (Q : α → Prop) (x : Eval α) : Prop := ∀ m a m', x m = .ok a m' → Q a

namespace Returns

variable {P : α → Prop} {Q : β → Prop}

theorem of_forall (x : Eval α) (h : ∀ a, P a) : Returns P x := fun _ a _ _ => h a

protected theorem pure {a : α} (h : P a) : Returns P (pure a) := by
  rintro m _ m' ⟨⟩
  exact h

protected theorem throw (e : EvalError) : Returns P (throw e) := by
  rintro m a m' ⟨⟩

protected theorem bind {x : Eval α} {k : α → Eval β} (hx : Returns P x)
    (hk : ∀ a, P a → Returns Q (k a)) : Returns Q (x >>= k) := by
  intro m b m' h
  change EStateM.bind x k m = .ok b m' at h
  unfold EStateM.bind at h
  cases hxm : x m <;> rw [hxm] at h
  · exact hk _ (hx _ _ _ hxm) _ _ _ h
  · cases h

theorem outcome {x : Eval α} (h : Returns P x) {F : EvalError → Prop} (hF : ∀ e, F e) :
    Returns (Except.Meets P F) (Eval.outcome x) := by
  intro m r m' hr
  unfold Eval.outcome at hr
  cases hxm : x m <;> rw [hxm] at hr <;> cases hr
  · exact h _ _ _ hxm
  · exact hF _

end Returns

/-! ### Traits -/

/-- A property of computations that those have which are composed of others with the property. -/
structure Trait where
  has : {α : Type} → Eval α → Prop
  pure : ∀ {α : Type} (a : α), has (pure a : Eval α)
  throw : ∀ {α : Type} (e : EvalError), has (throw e : Eval α)
  /-- What follows on a computation needs the property only for what that returns. -/
  bind : ∀ {α β : Type} {P : α → Prop} {x : Eval α} {f : α → Eval β}, has x → Returns P x →
    (∀ a, P a → has (f a)) → has (x >>= f)
  outcome : ∀ {α : Type} {x : Eval α}, has x → has (outcome x)

namespace Trait

variable {T : Trait} {i : Unit}

/-- To have a trait, as a calculus. -/
def calculus (T : Trait) : Calculus where
  Bound := Unit
  Index := Unit
  Known _ := True
  Fair _ := True
  Table _ _ := True
  Open _ _ _ := True
  Runnable _ := True
  Below _ _ := True
  Holds _ _ Q x := ∀ k, T.has (x k) ∧ Returns Q (x k)
  fair _ := trivial
  pure h _ := ⟨T.pure _, .pure h⟩
  throw _ _ := ⟨T.throw _, .throw _⟩
  bind hx hf k :=
    ⟨T.bind (hx k).1 (hx k).2 fun a ha => (hf a ha k).1, (hx k).2.bind fun a ha => (hf a ha k).2⟩
  outcome hx k := ⟨T.outcome (hx k).1, (hx k).2.outcome fun _ => trivial⟩

theorem holds_of_has {Q : α → Prop} {x : Eval α} (h : T.has x) (hQ : ∀ a, Q a) :
    T.calculus.Holds i Q fun _ => x :=
  fun _ => ⟨h, .of_forall x hQ⟩

/-- The operations on the machine have the trait. -/
structure Kept (T : Trait) : Prop extends T.calculus.Heapwise where
  look : ∀ {γ : Type} (φ : Machine → γ), (∀ m cache, φ { m with cache } = φ m) →
    T.has (do return φ (← get))
  change : ∀ {γ : Type} {φ : Machine → γ × Machine}, Blind φ → (∀ m, (φ m).2.heap = m.heap) →
    T.has (modifyGet φ)
  assign : ∀ s name v, T.has (assign s name v)
  tables : ∀ id, T.has (tables id)

namespace Kept

variable (hT : T.Kept)

include hT

theorem holds_look {γ : Type} (φ : Machine → γ) (hφ : ∀ m cache, φ { m with cache } = φ m) :
    T.calculus.Holds i (fun _ => True) fun _ => (do return φ (← get)) :=
  holds_of_has (hT.look φ hφ) fun _ => trivial

theorem holds_modify {φ : Machine → Machine}
    (hφ : Blind fun m => ((), φ m) := by exact {})
    (hheap : ∀ m, (φ m).heap = m.heap := by exact fun _ => rfl) :
    T.calculus.Holds i (fun _ => True) fun _ => (modify φ : Eval Unit) :=
  holds_of_has (hT.change hφ hheap) fun _ => trivial

theorem holds_nested {Q : α → Prop} {x : Unit → Eval α} (h : T.calculus.Holds i Q x) :
    T.calculus.Holds i Q fun k => nested (x k) := by
  refine (hT.holds_look Machine.limits fun _ _ => rfl).bind fun limits _ => ?_
  refine (hT.holds_look Machine.depth fun _ _ => rfl).bind fun depth _ => .ite ?_ ?_
  · exact (hT.holds_look Machine.limits fun _ _ => rfl).bind fun _ _ => .throw nofun
  · refine hT.holds_modify.bind fun _ _ => h.outcome.bind fun result hresult => ?_
    exact hT.holds_modify.bind fun _ _ => .conclude hresult

theorem holds_declare (f : FrameRef) (name : String) (slot : Slot) :
    T.calculus.Holds i (fun _ => True) fun _ => (modify fun m => m.declare f name slot) := by
  cases f with
  | top id => exact hT.holds_modify
  | inner n => exact hT.holds_modify

/-! ### Work that is done once -/

theorem holds_runOnce (id : ModuleId) {x : Unit → Eval Unit}
    (h : T.calculus.Holds i (fun _ => True) x) :
    T.calculus.Holds i (fun _ => True) fun k => runOnce id (x k) := by
  refine (hT.holds_look (·.instanceOf id) fun _ _ => rfl).bind fun known _ => ?_
  cases known.status with
  | done => exact .pure trivial
  | running => exact .pure trivial
  | failed e => exact T.calculus.throw trivial
  | pending =>
    have hbegin : T.calculus.Holds i (fun _ => True) fun _ => beginModule id :=
      hT.holds_modify.bind fun _ _ => hT.holds_modify.bind fun _ _ =>
        hT.holds_modify.bind fun _ _ => hT.holds_modify
    have hend (status : ModuleStatus) :
        T.calculus.Holds i (fun _ => True) fun _ => endModule id status :=
      hT.holds_modify.bind fun _ _ => hT.holds_modify
    refine hbegin.bind fun _ _ => h.outcome.bind fun result hresult => ?_
    exact (hend _).bind fun _ _ => .conclude hresult

theorem holds_evalOnce (id : ModuleId) (name : String) {x : Unit → Eval (List String)}
    (h : T.calculus.Holds i (fun _ => True) x) :
    T.calculus.Holds i (fun _ => True) fun k => evalOnce id name (x k) := by
  have hset (name : String) (status : BindingStatus) :
      T.calculus.Holds i (fun _ => True) fun _ => setBinding id name status := hT.holds_modify
  refine (hT.holds_look (·.instanceOf id) fun _ _ => rfl).bind fun known _ => ?_
  rcases known.bindings.get? name with _ | status
  · have hbegin : T.calculus.Holds i (fun _ => True) fun _ => beginBinding id name :=
      (hset name .evaluating).bind fun _ _ => hT.holds_modify.bind fun _ _ => hT.holds_modify
    refine hbegin.bind fun _ _ => h.outcome.bind fun result _ => hT.holds_modify.bind fun _ _ => ?_
    cases result with
    | error e => exact (hset name _).bind fun _ _ => T.calculus.throw trivial
    | ok names =>
      refine (Judgement.Holds.forM names fun n _ => hset n .ready).bind fun _ _ => ?_
      exact (hset name .ready).bind fun _ _ => hT.holds_modify
  · cases status with
    | ready => exact .pure trivial
    | evaluating => exact .throw nofun
    | failed e => exact T.calculus.throw trivial

/-! ### Evaluation -/

theorem lax : T.calculus.Lax where
  toHeapwise := hT.toHeapwise
  known _ := trivial
  fair _ := trivial
  below _ _ := trivial
  look := hT.holds_look
  quiet h := holds_of_has (hT.change h.toBlind h.heap) fun _ => trivial
  newFrame := holds_of_has (hT.change {} fun _ => rfl) fun _ _ _ _ => trivial
  declare v isMutable _ := hT.holds_declare _ _ _
  assign s name v := holds_of_has (hT.assign s name v) fun _ => trivial
  tables id := holds_of_has (hT.tables id) fun _ => trivial
  runsWhole _ := (hT.holds_look (·.graph.runsWhole _) fun _ _ => rfl).mono fun _ _ _ => trivial
  nested h := hT.holds_nested (h _)
  runOnce _ h := hT.holds_runOnce _ (h ⟨trivial, fun _ _ => trivial⟩ _)

theorem forces {R : Unit → Interp} (hr : ∀ i size, hT.lax.logic.Runs i size R) :
    hT.lax.Forces R :=
  hT.lax.forces_of_evalOnce hr (fun _ _ _ => trivial) fun id name _ h =>
    hT.holds_evalOnce id name (h _)

theorem runs (n : Nat) (i : Unit) (size : Nat) : hT.lax.logic.Runs i size fun _ => interp n :=
  hT.lax.runs_interp (fun n hr => hT.forces (hr n le_rfl)) n i size

theorem has_callValue (n : Nat) (argument : Expr) (needed : List BindingKey) :
    T.has (callValue (interp n) argument needed) :=
  (hT.lax.holds_callValue (i := ()) (hT.runs n) (hT.forces (hT.runs n)) argument (fun _ _ => trivial) ()).1

end Kept
end Trait
end AtomicStyles
