import AtomicStyles.Proofs.Coupling.Basic

/-!
# What a handler is given

The error that unwinds the code says an exception in words; the value that was thrown waits in a
slot of the machine. On the way to a handler the error passes the ends of calls, of declarations
that are evaluated, and of blocks with finalizers. Calls and declarations leave the slot alone. A
finalizer runs code: if that throws an exception and catches it, the slot is empty afterwards, and
the handler is given an error object instead of the value (`finalizer_loses_thrown`).

## Main definitions

* `Raises` — an exception leaves a computation, on the way from the `throw` that raised it.
* `SameException` — the slot keeps its value.

## Main results

* `Raises.exception_eq` — a value on its way is in the slot, if nothing that runs meanwhile changes
  the slot.
* `Raises.nested`, `Raises.finalizer`, `Raises.evalOnce` — what an exception passes.
* `handler_receives_thrown` — **a handler is given the value that was thrown.**
-/

namespace AtomicStyles

open Script Eval

/-- The value of the exception that is on its way stays the same. -/
def SameException (m m' : Machine) : Prop := m'.exception = m.exception

/-- `Raises P v t x m m'`: the computation `x` ends in `m'` with the exception, described by `t`,
that a throw of `v` has raised inside it. What follows on the throw is left out, up to where
failures are intercepted; what runs there and fails again with the exception takes the machine
from one state to another as `P` allows. -/
inductive Raises (P : Machine → Machine → Prop) (v : Value) (t : String) :
    {α : Type} → Eval α → Machine → Machine → Prop
  | thrown {α : Type} {m m' : Machine} : describe v m = .ok t m' →
      Raises P v t (throwValue v : Eval α) m { m' with exception := some v }
  | first {α β : Type} {x : Eval α} {f : α → Eval β} {m m' : Machine} : Raises P v t x m m' →
      Raises P v t (x >>= f) m m'
  | next {α β : Type} {x : Eval α} {f : α → Eval β} {a : α} {m m₁ m' : Machine} :
      x m = .ok a m₁ → Raises P v t (f a) m₁ m' → Raises P v t (x >>= f) m m'
  | through {α β : Type} {x : Eval α} {f : Except EvalError α → Eval β} {m m₁ m' : Machine} :
      Raises P v t x m m₁ → f (.error (.thrown t)) m₁ = .error (.thrown t) m' → P m₁ m' →
      Raises P v t (outcome x >>= f) m m'

namespace Raises

variable {P : Machine → Machine → Prop} {v : Value} {t : String} {α β : Type} {m m₁ m₂ m' : Machine}
  {r : Interp} {s : Scope}

/-- The computation fails with the exception. -/
theorem eq_error {x : Eval α} (h : Raises P v t x m m') : x m = .error (.thrown t) m' := by
  induction h with
  | thrown hdescribe => exact Coupling.bind_eq_of_ok hdescribe
  | first _ ih => exact Coupling.bind_eq_of_error ih
  | next hx _ ih => exact (Coupling.bind_eq_of_ok hx).trans ih
  | through _ hf _ ih => exact (Coupling.bind_eq_of_ok (Coupling.outcome_eq_of_error ih)).trans hf

/-- The value that was thrown is still in the slot. -/
theorem exception_eq {x : Eval α} (h : Raises SameException v t x m m') :
    m'.exception = some v := by
  induction h with
  | thrown => rfl
  | first _ ih => exact ih
  | next _ _ ih => exact ih
  | through _ _ hsame ih => exact hsame.trans ih

/-! ### The way of an exception -/

theorem stmt {n : Nat} {stmt : Stmt} (h : Raises P v t (runStmt (interp n) s stmt) m m') :
    Raises P v t ((interp (n + 1)).stmt s stmt) m m' := h

theorem expr {n : Nat} {e : Expr} (h : Raises P v t (evalExpr (interp n) s e) m m') :
    Raises P v t ((interp (n + 1)).expr s e) m m' := h

theorem call {n : Nat} {f : Value} {args : List Value}
    (h : Raises P v t (callFunction (interp n) f args) m m') :
    Raises P v t ((interp (n + 1)).call f args) m m' := h

/-- A `throw` statement raises the value of its expression. -/
theorem throwing {e : Expr} (htick : tick m = .ok () m₁) (he : r.expr s e m₁ = .ok v m₂)
    (hdescribe : describe v m₂ = .ok t m') :
    Raises P v t (runStmt r s (.throwing e)) m { m' with exception := some v } :=
  .next htick (.next he (.thrown hdescribe))

theorem runStmts {stmt : Stmt} (before : List Stmt) {after : List Stmt}
    (hbefore : runStmts r s before m = .ok .normal m₁) (h : Raises P v t (r.stmt s stmt) m₁ m') :
    Raises P v t (runStmts r s (before ++ stmt :: after)) m m' := by
  induction before generalizing m with
  | nil =>
    cases hbefore
    exact .first h
  | cons first before ih =>
    -- the first statement ends normally, and so do those after it
    cases hfirst : r.stmt s first m with
    | error e m₂ => cases (Coupling.bind_eq_of_error hfirst).symm.trans hbefore
    | ok c m₂ =>
      have hrest := (Coupling.bind_eq_of_ok hfirst).symm.trans hbefore
      cases c with
      | normal => exact .next hfirst (ih hrest)
      | broke => cases hrest
      | continued => cases hrest
      | returned w => cases hrest

theorem runBlock {inner : Scope} {stmt : Stmt} (before : List Stmt) {after : List Stmt}
    {m₃ : Machine} (hchild : child s m = .ok inner m₁)
    (hhoist : hoist inner (before ++ stmt :: after) m₁ = .ok () m₂)
    (hbefore : Eval.runStmts r inner before m₂ = .ok .normal m₃)
    (h : Raises P v t (r.stmt inner stmt) m₃ m') :
    Raises P v t (runBlock r s (before ++ stmt :: after)) m m' :=
  .next hchild (.next hhoist (.runStmts before hbefore h))

/-- An exception leaves a call, which only counts how deep calls nest. -/
theorem nested {x : Eval α} (hP : ∀ m m', SameException m m' → P m m')
    (hdepth : m.depth < m.limits.depth) (h : Raises P v t x { m with depth := m.depth + 1 } m₁) :
    Raises P v t (nested x) m { m₁ with depth := m₁.depth - 1 } := by
  refine .next (rfl : limits m = .ok m.limits m) (.next (rfl : depth m = .ok m.depth m) ?_)
  rw [if_neg (by omega)]
  exact .next (a := ()) rfl (.through h rfl (hP _ _ rfl))

/-- An exception leaves a declaration that is evaluated, whose failure is kept. -/
theorem evalOnce {id : ModuleId} {name : String} {declaration : Eval (List String)}
    (hP : ∀ m m', SameException m m' → P m m') (hnew : (m.instanceOf id).bindings.get? name = none)
    (h : Raises P v t declaration (Coupling.after (beginBinding id name) m) m₁) :
    Raises P v t (evalOnce id name declaration) m
      (Coupling.after (endBinding id name (.error (.thrown t))) m₁) := by
  refine .next (rfl : instanceOf id m = .ok (m.instanceOf id) m) ?_
  rw [hnew]
  exact .next (a := ()) rfl (.through h rfl (hP _ _ rfl))

/-- An exception passes a finalizer that ends normally. -/
theorem finalizer {ss : List Stmt} {param : Pat} {final : Body}
    (h : Raises P v t (Eval.runBlock r s ss) m m₁) (hfinal : runBody r s final m₁ = .ok .normal m')
    (hP : P m₁ m') : Raises P v t (runTry r s ss param .absent final) m m' :=
  .through h (Coupling.bind_eq_of_ok hfinal) hP

/-- An exception that a handler throws passes the finalizer as well. -/
theorem handler {ss hs : List Stmt} {param : Pat} {final : Body} {e : EvalError} {w : Value}
    {inner : Scope} {m₃ m₄ m₅ : Machine} (hblock : Eval.runBlock r s ss m = .error e m₁)
    (hcatch : e.isCatchable = true) (hcaught : caught e m₁ = .ok w m₂)
    (hchild : child s m₂ = .ok inner m₃) (hbind : bindCaught r inner w param m₃ = .ok () m₄)
    (h : Raises P v t (Eval.runBlock r inner hs) m₄ m₅)
    (hfinal : runBody r s final m₅ = .ok .normal m') (hP : P m₅ m') :
    Raises P v t (runTry r s ss param (.block hs) final) m m' := by
  refine .next (Coupling.outcome_eq_of_error hblock) ?_
  rw [handle, if_pos hcatch]
  simp only [bind_assoc]
  exact .next hcaught (.next hchild (.next hbind
    (.through h (Coupling.bind_eq_of_ok hfinal) hP)))

end Raises

/-! ### Handlers -/

/-- What becomes of a block once its handler is given a value. -/
def runHandler (r : Interp) (s : Scope) (param : Pat) (hs : List Stmt) (final : Body) (v : Value) :
    Eval Completion := do
  let inner ← child s
  bindCaught r inner v param
  finalize r s final (← outcome (runBlock r inner hs))

theorem runTry_eq {r : Interp} {s : Scope} {ss hs : List Stmt} {param : Pat} {final : Body}
    {e : EvalError} {v : Value} {m m₁ m₂ : Machine} (hblock : runBlock r s ss m = .error e m₁)
    (hcatch : e.isCatchable = true) (hcaught : caught e m₁ = .ok v m₂) :
    runTry r s ss param (.block hs) final m = runHandler r s param hs final v m₂ := by
  refine (Coupling.bind_eq_of_ok (Coupling.outcome_eq_of_error hblock)).trans ?_
  rw [handle, if_pos hcatch]
  simp only [bind_assoc]
  exact Coupling.bind_eq_of_ok hcaught

/-- A handler of an exception takes the value out of the slot. -/
theorem caught_of_some {t : String} {v : Value} {m : Machine} (h : m.exception = some v) :
    caught (.thrown t) m = .ok v { m with exception := none } := by
  refine (Coupling.bind_eq_of_ok (rfl : exception m = .ok m.exception m)).trans ?_
  rw [h]
  rfl

/-- Where the slot is empty the handler is given an error object that tells the failure. -/
theorem caught_of_none {t : String} {m : Machine} (h : m.exception = none) :
    caught (.thrown t) m = newError .error ("Uncaught " ++ t) m := by
  refine (Coupling.bind_eq_of_ok (rfl : exception m = .ok m.exception m)).trans ?_
  rw [h]
  rfl

/-- A parameter that is a name has the value it is given where the handler's block runs. -/
theorem runHandler_ident (n : Nat) (s : Scope) (id : Ident) (hs : List Stmt) (final : Body)
    (v : Value) (m : Machine) : ∃ inner m',
    lookup inner id.name m' = .ok (some { value := some v, isMutable := true }) m' ∧
      runHandler (interp (n + 1)) s (.ident id) hs final v m =
        (outcome (runBlock (interp (n + 1)) inner hs) >>= finalize (interp (n + 1)) s final) m' := by
  let inner : Scope := { s with inner := m.frames.size :: s.inner }
  let slot : Slot := { value := some v, isMutable := true }
  let m₁ : Machine := { m with frames := m.frames.push {} }
  have hchild : child s m = .ok inner m₁ := rfl
  have hbind : bindCaught (interp (n + 1)) inner v (.ident id) m₁ =
      .ok () (m₁.declare (.inner m.frames.size) id.name slot) := rfl
  refine ⟨inner, m₁.declare (.inner m.frames.size) id.name slot, ?_,
    (Coupling.bind_eq_of_ok hchild).trans (Coupling.bind_eq_of_ok hbind)⟩
  have hframe : ((m₁.declare (.inner m.frames.size) id.name slot).frame (.inner m.frames.size)).get?
      id.name = some slot := by
    simp [m₁, Machine.declare, Machine.frame, Array.getElem_modify, OrderedMap.get?_insert]
  have hfind : (m₁.declare (.inner m.frames.size) id.name slot).find? id.name inner.frames =
      some (.inner m.frames.size, slot) := by
    show Machine.find? _ _ (.inner m.frames.size :: _) = _
    rw [Machine.find?, hframe]
  show EStateM.Result.ok (Option.map _ (Machine.find? _ _ _)) _ = _
  rw [hfind]
  rfl

/-- The way of an exception: it is raised by a `throw`, leaves blocks, calls and declarations that
are evaluated, and passes finalizers that keep the slot. -/
structure Propagates (r : Interp) (v : Value) (t : String) : Prop where
  throwing : ∀ {s e m m₁ m₂ m'}, tick m = .ok () m₁ → r.expr s e m₁ = .ok v m₂ →
    describe v m₂ = .ok t m' →
    Raises SameException v t (runStmt r s (.throwing e)) m { m' with exception := some v }
  block : ∀ {s inner stmt} before {after m m₁ m₂ m₃ m'}, child s m = .ok inner m₁ →
    hoist inner (before ++ stmt :: after) m₁ = .ok () m₂ →
    runStmts r inner before m₂ = .ok .normal m₃ →
    Raises SameException v t (r.stmt inner stmt) m₃ m' →
    Raises SameException v t (runBlock r s (before ++ stmt :: after)) m m'
  call : ∀ {id d args m m₁ m'}, tick m = .ok () m₁ → m₁.depth < m₁.limits.depth →
    Raises SameException v t (invoke r (.function id (.defined d)) d args)
      { m₁ with depth := m₁.depth + 1 } m' →
    Raises SameException v t (callFunction r (.function id (.defined d)) args) m
      { m' with depth := m'.depth - 1 }
  declaration : ∀ {id tables name m m₁}, (m.instanceOf id).bindings.get? name = none →
    Raises SameException v t (evalDeclaration r tables { module := id } name)
      (Coupling.after (beginBinding id name) m) m₁ →
    Raises SameException v t (forceDeclaration r id tables name) m
      (Coupling.after (endBinding id name (.error (.thrown t))) m₁)
  finalizer : ∀ {s ss param final m m₁ m'}, Raises SameException v t (runBlock r s ss) m m₁ →
    runBody r s final m₁ = .ok .normal m' → SameException m₁ m' →
    Raises SameException v t (runTry r s ss param .absent final) m m'
  handler : ∀ {s ss param hs final e w inner m m₁ m₂ m₃ m₄ m₅ m'}, runBlock r s ss m = .error e m₁ →
    e.isCatchable = true → caught e m₁ = .ok w m₂ → child s m₂ = .ok inner m₃ →
    bindCaught r inner w param m₃ = .ok () m₄ →
    Raises SameException v t (runBlock r inner hs) m₄ m₅ →
    runBody r s final m₅ = .ok .normal m' → SameException m₅ m' →
    Raises SameException v t (runTry r s ss param (.block hs) final) m m'

theorem propagates (r : Interp) (v : Value) (t : String) : Propagates r v t where
  throwing := .throwing
  block before := .runBlock before
  call htick hdepth h := .next htick (.nested (fun _ _ hsame => hsame) hdepth h)
  declaration hnew h := .evalOnce (fun _ _ hsame => hsame) hnew h
  finalizer := .finalizer
  handler := .handler

/-- **A handler is given the value that was thrown.** An exception goes its way through blocks,
calls, declarations and finalizers that keep the slot, in any number. The handler that it reaches
binds its parameter to the very value. In general, whatever the finalizers on the way do, the
handler gets what they have left in the slot, and an error object that tells the failure if that
is nothing. -/
theorem handler_receives_thrown (n : Nat) (v : Value) (t : String) :
    let r := interp (n + 1)
    Propagates r v t ∧ ∀ s ss param hs final m m₁,
      (Raises SameException v t (runBlock r s ss) m m₁ →
        runTry r s ss param (.block hs) final m =
          runHandler r s param hs final v { m₁ with exception := none } ∧
        ∀ id, param = .ident id → ∃ inner m',
          lookup inner id.name m' = .ok (some { value := some v, isMutable := true }) m' ∧
          runTry r s ss param (.block hs) final m =
            (outcome (runBlock r inner hs) >>= finalize r s final) m') ∧
      (Raises (fun _ _ => True) v t (runBlock r s ss) m m₁ →
        ∃ w m', (m₁.exception = some w ∧ m' = { m₁ with exception := none } ∨
            m₁.exception = none ∧ newError .error ("Uncaught " ++ t) m₁ = .ok w m') ∧
          runTry r s ss param (.block hs) final m = runHandler r s param hs final w m') := by
  intro r
  refine ⟨propagates r v t, fun s ss param hs final m m₁ => ⟨fun h => ?_, fun h => ?_⟩⟩
  · have hrun : runTry r s ss param (.block hs) final m =
        runHandler r s param hs final v { m₁ with exception := none } :=
      runTry_eq h.eq_error rfl (caught_of_some h.exception_eq)
    refine ⟨hrun, ?_⟩
    rintro id rfl
    rw [hrun]
    exact runHandler_ident n s id hs final v _
  · cases hslot : m₁.exception with
    | some w => exact ⟨w, _, .inl ⟨rfl, rfl⟩, runTry_eq h.eq_error rfl (caught_of_some hslot)⟩
    | none =>
      refine ⟨_, _, .inr ⟨rfl, rfl⟩, runTry_eq h.eq_error rfl ?_⟩
      exact caught_of_none hslot

/-! ### Two programs -/

/-- A machine before any code has run. -/
def idle : Machine where
  graph := { loader := {}, features := {}, entry := { id := "/unit", module := { items := [] } } }
  limits := {}
  nesting := 0
  cache := {}
  steps := 100

/-- `() => { throw 'a' }`. -/
def thrower : Expr := .arrow [] (.block [.throwing (.str "a")]) false

/-- `try { (() => { throw 'a' })() } finally { }`. -/
def guardedCall : Stmt :=
  .tryCatch [.expr (.call thrower [] ⟨0, 0⟩) ⟨0, 0⟩] .hole .absent (.block [])

theorem raises_thrower : ∃ m,
    Raises SameException (.string "a") "a"
      ((interp 8).expr ⟨"/unit", [1, 0]⟩ (.call thrower [] ⟨0, 0⟩))
      { idle with steps := 98, frames := #[{}, {}] } m := by
  -- the function is made, called, and runs its statement
  exact ⟨_, .expr <| .next (x := (interp 7).expr _ thrower) rfl <|
    .next (x := evalItems (interp 7) _ []) rfl <| .call <|
    .next (x := tick) rfl <| .nested (fun _ _ h => h) (by decide) <|
    .next (x := child _) rfl <| .next (x := bindParams (interp 6) _ [] []) rfl <|
    .next rfl <| .next rfl <| .first <| .runStmts [] rfl <| .stmt <| .throwing rfl rfl rfl⟩

/-- The handler gets the value through a call and a finalizer. -/
theorem handler_receives_thrown_call : ∃ m₁,
    Raises SameException (.string "a") "a"
      (runBlock (interp 10) { module := "/unit" } [guardedCall]) idle m₁ ∧
    runTry (interp 10) { module := "/unit" } [guardedCall] (.ident ⟨"e", 0⟩) (.block []) .absent idle =
      runHandler (interp 10) { module := "/unit" } (.ident ⟨"e", 0⟩) [] .absent (.string "a")
        { m₁ with exception := none } := by
  obtain ⟨m₁, h⟩ := raises_thrower
  have hraises : Raises SameException (.string "a") "a"
      (runBlock (interp 10) { module := "/unit" } [guardedCall]) idle _ :=
    .runBlock [] rfl rfl rfl <| .stmt <| .next rfl <| .finalizer
      (.runBlock [] rfl rfl rfl <| .stmt <| .next rfl <| .first h) rfl rfl
  exact ⟨_, hraises, (((handler_receives_thrown 9 (.string "a") "a").2 _ _ _ _ _ _ _).1 hraises).1⟩

/-- `try { throw 'b' } catch { }`. -/
def swallowing : Stmt := .tryCatch [.throwing (.str "b")] .hole (.block []) .absent

/-- `try { throw 'a' } finally { try { throw 'b' } catch { } }`. -/
def disturbed : Stmt := .tryCatch [.throwing (.str "a")] .hole .absent (.block [swallowing])

/-- The finalizer throws and catches an exception of its own, and the handler around it is given
an error object in place of the value `'a'`. -/
theorem finalizer_loses_thrown : ∃ m₁ m₂,
    Raises (fun _ _ => True) (.string "a") "a"
      (runBlock (interp 10) { module := "/unit" } [disturbed]) idle m₁ ∧
    runTry (interp 10) { module := "/unit" } [disturbed] (.ident ⟨"e", 0⟩) (.block []) .absent idle =
      runHandler (interp 10) { module := "/unit" } (.ident ⟨"e", 0⟩) [] .absent (.object ⟨0⟩) m₂ ∧
    (m₂.objectCell ⟨0⟩).content =
      ⟨[("name", .string "Error"), ("message", .string "Uncaught a")]⟩ := by
  let m₀ : Machine := { idle with steps := 98, frames := #[{}, {}] }
  let m₁ : Machine := { idle with steps := 96, frames := #[{}, {}, {}, {}, {}, {}] }
  have hthrow : Raises (fun _ _ => True) (.string "a") "a"
      (runBlock (interp 9) ⟨"/unit", [0]⟩ [.throwing (.str "a")])
      { idle with steps := 99, frames := #[{}] } { m₀ with exception := some (.string "a") } :=
    .runBlock [] rfl rfl rfl <| .stmt <| .throwing rfl rfl rfl
  -- the exception that is caught inside leaves the slot empty
  have hfinal : runBody (interp 9) ⟨"/unit", [0]⟩ (.block [swallowing])
      { m₀ with exception := some (.string "a") } = .ok .normal m₁ := rfl
  have hraises : Raises (fun _ _ => True) (.string "a") "a"
      (runBlock (interp 10) { module := "/unit" } [disturbed]) idle m₁ :=
    .runBlock [] rfl rfl rfl <| .stmt <| .next rfl <| .finalizer hthrow hfinal trivial
  exact ⟨m₁, _, hraises, runTry_eq hraises.eq_error rfl (caught_of_none rfl), rfl⟩

end AtomicStyles
