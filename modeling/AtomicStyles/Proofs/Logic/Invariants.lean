import AtomicStyles.Proofs.Coupling.Basic
import AtomicStyles.Proofs.Logic.Evaluation

/-!
# Invariants of evaluation

An invariant is a property of machines that holds whenever a part of evaluation is entered and
left. It may depend on what is being initialized and on the calls that are going on. The operations
that concern names, modules and calls are asked to keep it, each by itself, and besides them only
all changes together that are made aside. Then every part of evaluation keeps it.

That it holds in between is said by an evaluation that is watched: whenever a part is entered it
looks at the machine and gives up unless a condition is met. If the invariant implies the condition,
the watched evaluation does what evaluation does.

## Main definitions

* `Invariant` — a property of machines during a run.
* `Invariant.Stable` — the property is kept by every operation on the machine.
* `Invariant.Lasting` — it keeps nothing out, and the evaluation of declarations keeps it as well.
* `Task` — what evaluation does.
* `watched` — evaluation that looks at the machine as it goes on.

## Main results

* `Invariant.Stable.lax` — an invariant as a lax calculus.
* `Invariant.Lasting.keeps_task` — **whatever evaluation does keeps a lasting invariant.**
-/

namespace AtomicStyles

open Script Eval Coupling

structure Invariant where
  Index : Type
  holds : Index → Machine → Prop
  /-- The index for the time in which what a key stands for is initialized. -/
  starting : Index → BindingKey → Index
  /-- The index for the time in which a function runs. -/
  calling : Index → Index := id
  Table : ModuleId → Tables → Prop := fun _ _ => True
  /-- The names that may be declared in a scope, with a value or without one. -/
  Open : Scope → String → Bool → Prop := fun _ _ _ => True
  /-- The modules whose top-level code may run. -/
  Runnable : ModuleId → Prop := fun _ => True

/-- What evaluation does with its parts: these themselves, the evaluation of declarations and of
whole modules, and style calls. -/
inductive Task : {α : Type} → (Interp → Eval α) → Prop
  | expr (s : Scope) (e : Expr) : Task fun r => r.expr s e
  | stmt (s : Scope) (stmt : Stmt) : Task fun r => r.stmt s stmt
  | bind (s : Scope) (kind : BindKind) (p : Pat) (v : Value) : Task fun r => r.bind s kind p v
  | call (f : Value) (args : List Value) : Task fun r => r.call f args
  | topLevel (id : ModuleId) (name : String) : Task fun r => r.topLevel id name
  | exported (id : ModuleId) (name : String) : Task fun r => r.exported id name
  | declaration (id : ModuleId) (t : Tables) (name : String) :
      Task fun r => forceDeclaration r id t name
  | wholeModule (id : ModuleId) (t : Tables) : Task fun r => runModule r id t
  | styleCall (argument : Expr) (needed : List BindingKey) :
      Task fun r => callValue r argument needed

/-! ### Watched evaluation -/

section Watched

variable {α : Type} (W : Machine → Prop) [DecidablePred W] (e : EvalError)

/-- The computation, unless the machine fails the condition where it begins. -/
def Eval.watch (x : Eval α) : Eval α := do
  if W (← get) then x else throw e

/-- Every part is watched. -/
def Interp.watch (r : Interp) : Interp where
  expr s expr := Eval.watch W e (r.expr s expr)
  stmt s stmt := Eval.watch W e (r.stmt s stmt)
  bind s kind p v := Eval.watch W e (r.bind s kind p v)
  call f args := Eval.watch W e (r.call f args)
  topLevel id name := Eval.watch W e (r.topLevel id name)
  exported id name := Eval.watch W e (r.exported id name)

def watched : Nat → Interp
  | 0 => .endless
  | n + 1 => (watched n).next.watch W e

/-- Evaluation, watched or not. -/
def watchedOrNot (n : Nat) : Bool → Interp
  | true => watched W e n
  | false => interp n

variable {W} {e}

theorem Eval.watch_eq {x : Eval α} {m : Machine} (h : W m) : watch W e x m = x m := by
  show (if W m then x else throw e : Eval α) m = x m
  rw [if_pos h]

end Watched

namespace Invariant

variable (I : Invariant) {α β : Type}

/-- After the computation the property holds again. -/
def Keeps (i : I.Index) (x : Eval α) : Prop := ∀ m, I.holds i m → I.holds i (after x m)

/-- Every operation that changes the machine keeps the property. -/
structure Stable : Prop where
  beside : ∀ {i m m'}, m.Beside m' → I.holds i m → I.holds i m'
  -- Names
  newFrame : ∀ {i m}, I.holds i m → ∀ (s : Scope) name hasValue,
    I.Open { s with inner := m.frames.size :: s.inner } name hasValue := by
      exact fun _ _ _ _ => trivial
  declare : ∀ {i m s name} (v : Option Value) isMutable, I.Open s name v.isSome → I.holds i m →
    I.holds i (m.declare s.nearest name ⟨v, isMutable⟩)
  /-- A name that is there can be given another value. -/
  reassign : ∀ {i m f name w} (v : Value), (m.frame f).get? name = some ⟨some w, true⟩ →
    I.holds i m → I.holds i (m.declare f name ⟨some v, true⟩)
  -- Calls
  enter : ∀ {i m}, I.holds i m → m.depth < m.limits.depth →
    I.holds (I.calling i) { m with depth := m.depth + 1 }
  leave : ∀ {i m}, I.holds (I.calling i) m → I.holds i { m with depth := m.depth - 1 }
  -- Modules
  load : ∀ {i} id, I.Keeps i (load id)
  table : ∀ {i m id t m'}, I.holds i m → Eval.load id m = .ok (.ok t) m' → I.Table id t := by
    exact fun _ _ => trivial
  runsWhole : ∀ {i m id t}, I.holds i m → I.Table id t → m.graph.runsWhole t = true →
    I.Runnable id := by exact fun _ _ _ => trivial
  isOpen : ∀ {i m id}, I.holds i m → (m.instanceOf id).status = .pending → I.Runnable id →
    ∀ name hasValue, I.Open { module := id } name hasValue := by exact fun _ _ _ _ _ => trivial
  beginModule : ∀ {i m id}, I.holds i m → (m.instanceOf id).status = .pending → I.Runnable id →
    I.holds (I.starting i (.body id)) (after (beginModule id) m)
  endModule : ∀ {i m id} (result : Except EvalError Unit), I.holds (I.starting i (.body id)) m →
    I.holds i (after (endModule id (.ofResult result)) m)

variable {I} {i j : I.Index} {m : Machine}

/-! ### Work that is done once -/

theorem runOnce_eq (id : ModuleId) (x : Eval Unit) (m : Machine) :
    runOnce id x m =
      match (m.instanceOf id).status with
      | .done => .ok () m
      | .running => .ok () m
      | .failed e => .error e m
      | .pending =>
        match x (after (beginModule id) m) with
        | .ok _ m' => .ok () (after (endModule id .done) m')
        | .error e m' => .error e (after (endModule id (.failed e)) m') := by
  have h : runOnce id x m =
      (match (m.instanceOf id).status with
      | .done => return ()
      | .running => return ()
      | .failed e => throw e
      | .pending => do
        beginModule id
        let result ← outcome x
        endModule id (.ofResult result)
        conclude result : Eval Unit) m := rfl
  rw [h]
  cases (m.instanceOf id).status with
  | pending =>
    show EStateM.bind (outcome x) _ (after (beginModule id) m) = _
    unfold EStateM.bind outcome
    cases x (after (beginModule id) m) <;> rfl
  | _ => rfl

theorem evalOnce_eq (id : ModuleId) (name : String) (x : Eval (List String)) (m : Machine) :
    evalOnce id name x m =
      match (m.instanceOf id).bindings.get? name with
      | some .ready => .ok () m
      | some .evaluating => .error (.circular id name) m
      | some (.failed e) => .error e m
      | none =>
        match x (after (beginBinding id name) m) with
        | .ok names m' => endBinding id name (.ok names) m'
        | .error e m' => endBinding id name (.error e) m' := by
  have h : evalOnce id name x m =
      (match (m.instanceOf id).bindings.get? name with
      | some .ready => return ()
      | some .evaluating => throw (.circular id name)
      | some (.failed e) => throw e
      | none => do
        beginBinding id name
        let result ← outcome x
        endBinding id name result : Eval Unit) m := rfl
  rw [h]
  rcases (m.instanceOf id).bindings.get? name with _ | status
  · show EStateM.bind (outcome x) _ (after (beginBinding id name) m) = _
    unfold EStateM.bind outcome
    cases x (after (beginBinding id name) m) <;> rfl
  · cases status <;> rfl

/-! ### The calculus of an invariant -/

/-- The run returns what meets a condition, or fails, and the property holds at its end. -/
def Leaves (I : Invariant) (i : I.Index) (Q : α → Prop) :
    EStateM.Result EvalError Machine α → Prop
  | .ok a m => Q a ∧ I.holds i m
  | .error _ m => I.holds i m

/-- All computations of a family have one and the same run from the machine. -/
def RunsAt (I : Invariant) (i : I.Index) (Q : α → Prop) (x : Bool → Eval α) (m : Machine) : Prop :=
  ∃ r, I.Leaves i Q r ∧ ∀ k, x k m = r

/-- To keep an invariant, as a calculus. -/
def calculus (I : Invariant) : Calculus where
  Bound := Bool
  Index := I.Index
  Known _ := True
  Fair _ := True
  Table := I.Table
  Open := I.Open
  Runnable := I.Runnable
  Below _ _ := True
  Holds i _ Q x := ∀ m, I.holds i m → I.RunsAt i Q x m
  fair _ := trivial
  pure ha m hm := ⟨.ok _ m, ⟨ha, hm⟩, fun _ => rfl⟩
  throw _ m hm := ⟨.error _ m, hm, fun _ => rfl⟩
  bind hx hf m hm := by
    obtain ⟨r, hr, heq⟩ := hx m hm
    cases r with
    | error e m₁ => exact ⟨.error e m₁, hr, fun k => bind_eq_of_error (heq k)⟩
    | ok a m₁ =>
      obtain ⟨r', hr', heq'⟩ := hf a hr.1 m₁ hr.2
      exact ⟨r', hr', fun k => (bind_eq_of_ok (heq k)).trans (heq' k)⟩
  outcome hx m hm := by
    obtain ⟨r, hr, heq⟩ := hx m hm
    cases r with
    | error e m₁ => exact ⟨.ok (.error e) m₁, ⟨trivial, hr⟩, fun k => outcome_eq_of_error (heq k)⟩
    | ok a m₁ => exact ⟨.ok (.ok a) m₁, hr, fun k => outcome_eq_of_ok (heq k)⟩

variable {Q : α → Prop} {x : Bool → Eval α}

theorem Leaves.holds {r : EStateM.Result EvalError Machine α} (h : I.Leaves i Q r) :
    I.holds i (machineOf r) := by
  cases r with
  | ok a m => exact h.2
  | error e m => exact h

theorem keeps_of_holds (h : I.calculus.Holds i Q x) (k : Bool) : I.Keeps i (x k) := by
  intro m hm
  obtain ⟨r, hr, heq⟩ := h m hm
  rw [after, heq]
  exact hr.holds

theorem leaves_of_holds {r : EStateM.Result EvalError Machine α} (h : I.holds i (machineOf r)) :
    I.Leaves i (fun _ => True) r := by
  cases r with
  | ok a m => exact ⟨trivial, h⟩
  | error e m => exact h

theorem holds_of_keeps {x : Eval α} (h : I.Keeps i x) :
    I.calculus.Holds i (fun _ => True) fun _ => x :=
  fun m hm => ⟨x m, leaves_of_holds (h m hm), fun _ => rfl⟩

/-- Work that is done between a change of the index and the change back. -/
theorem runsAt_between {P : α → Prop} {Q : β → Prop} {finish : Except EvalError α → Eval β}
    (hx : I.calculus.Holds j P x) (hm : I.holds j m)
    (hfinish : ∀ result m, Except.Meets P (fun _ => True) result → I.holds j m → I.Leaves i Q (finish result m)) :
    I.RunsAt i Q (fun k => do finish (← outcome (x k))) m := by
  obtain ⟨r, hr, heq⟩ := hx m hm
  cases r with
  | error e m₁ =>
    exact ⟨_, hfinish (.error e) m₁ trivial hr, fun k => bind_eq_of_ok (outcome_eq_of_error (heq k))⟩
  | ok a m₁ =>
    exact ⟨_, hfinish (.ok a) m₁ hr.1 hr.2, fun k => bind_eq_of_ok (outcome_eq_of_ok (heq k))⟩

theorem leaves_conclude {result : Except EvalError α} (h : Except.Meets Q (fun _ => True) result)
    (hm : I.holds i m) : I.Leaves i Q (conclude result m) := by
  cases result with
  | ok a => exact ⟨h, hm⟩
  | error e => exact hm

/-- Of two computations the one may be watched for what the invariant implies. -/
theorem holds_watch {W : Machine → Prop} [DecidablePred W] (hW : ∀ {i m}, I.holds i m → W m)
    {e : EvalError} {y : Bool → Eval α} (h : I.calculus.Holds i Q x)
    (htrue : y true = watch W e (x true)) (hfalse : y false = x false) :
    I.calculus.Holds i Q y := by
  intro m hm
  obtain ⟨r, hr, heq⟩ := h m hm
  refine ⟨r, hr, fun k => ?_⟩
  cases k with
  | true => rw [htrue, watch_eq (hW hm), heq]
  | false => rw [hfalse, heq]

namespace Stable

variable (S : I.Stable)

include S

theorem holds_nested {Q : α → Prop} {x : Bool → Eval α} (h : ∀ j, I.calculus.Holds j Q x) :
    I.calculus.Holds i Q fun k => nested (x k) := by
  intro m hm
  have hnested (k : Bool) : nested (x k) m = (if m.limits.depth ≤ m.depth then
      throw (.callDepth m.limits.depth) else do
        let result ← outcome (x k)
        modify fun m => { m with depth := m.depth - 1 }
        conclude result : Eval α) (if m.limits.depth ≤ m.depth then m else
          { m with depth := m.depth + 1 }) := by
    show (if m.limits.depth ≤ m.depth then (do throw (.callDepth (← limits).depth)) else do
      modify fun m => { m with depth := m.depth + 1 }
      let result ← outcome (x k)
      modify fun m => { m with depth := m.depth - 1 }
      conclude result : Eval α) m = _
    split <;> rfl
  simp only [RunsAt, hnested]
  split
  next => exact ⟨.error _ m, hm, fun _ => rfl⟩
  next hdepth =>
    refine runsAt_between (h _) (S.enter hm (Nat.lt_of_not_le hdepth)) fun result m hresult hm => ?_
    exact leaves_conclude hresult (S.leave hm)

theorem holds_assign (s : Scope) (name : String) (v : Value) :
    I.calculus.Holds i (fun _ => True) fun _ => assign s name v := by
  refine holds_of_keeps fun m hm => ?_
  have hassign : assign s name v m = _ := bind_eq_of_ok (rfl : (get : Eval Machine) m = .ok m m)
  rw [after, hassign]
  rcases hfind : m.find? name s.frames with _ | ⟨f, _ | _, _ | _⟩
  case some.some.true => exact S.reassign v (Machine.get?_frame_of_find? hfind) hm
  all_goals exact hm

theorem holds_tables (id : ModuleId) : I.calculus.Holds i (I.Table id) fun _ => tables id := by
  intro m hm
  have hload := S.load id m hm
  refine ⟨tables id m, ?_, fun _ => rfl⟩
  rw [after] at hload
  cases hend : Eval.load id m with
  | error e m' => cases hend
  | ok result m' =>
    rw [hend] at hload
    have htables : tables id m = conclude (result.mapError .load) m' := bind_eq_of_ok hend
    rw [htables]
    cases result with
    | ok t => exact ⟨S.table hm hend, hload⟩
    | error e => exact hload

theorem holds_runOnce {id : ModuleId} (hid : I.Runnable id) {x : Bool → Eval Unit}
    (h : I.calculus.Free { module := id } → ∀ j, I.calculus.Holds j (fun _ => True) x) :
    I.calculus.Holds i (fun _ => True) fun k => runOnce id (x k) := by
  intro m hm
  simp only [RunsAt, runOnce_eq]
  cases hs : (m.instanceOf id).status with
  | done => exact ⟨.ok () m, ⟨trivial, hm⟩, fun _ => rfl⟩
  | running => exact ⟨.ok () m, ⟨trivial, hm⟩, fun _ => rfl⟩
  | failed e => exact ⟨.error e m, hm, fun _ => rfl⟩
  | pending =>
    obtain ⟨r, hr, heq⟩ := h ⟨trivial, S.isOpen hm hs hid⟩ _ _ (S.beginModule hm hs hid)
    simp only [heq]
    refine ⟨_, ?_, fun _ => rfl⟩
    cases r with
    | ok a m₁ => exact ⟨trivial, S.endModule (.ok ()) hr.2⟩
    | error e m₁ => exact S.endModule (.error e) hr

theorem lax : I.calculus.Lax := by
  have hlook {i : I.Index} {γ : Type} (φ : Machine → γ) :
      I.calculus.Holds i (fun _ => True) fun _ => (do return φ (← get)) :=
    holds_of_keeps fun _ hm => hm
  have haside {i : I.Index} {γ : Type} {φ : Machine → γ × Machine} (h : Aside φ) :
      I.calculus.Holds i (fun _ => True) fun _ => modifyGet φ :=
    holds_of_keeps fun m hm => S.beside (h.beside m) hm
  exact
    { Calculus.Heapwise.of_aside (fun _ => trivial) (fun φ _ => hlook φ) haside with
      known := fun _ => trivial
      fair := fun _ => trivial
      below := fun _ _ => trivial
      look := fun φ _ => hlook φ
      quiet := fun h => haside h.toAside
      newFrame := fun m hm => ⟨.ok m.frames.size { m with frames := m.frames.push {} },
        ⟨S.newFrame hm, S.beside
          { frame := fun n => by simp only [Array.getD_eq_getD_getElem?]; grind
            frames := by simp } hm⟩,
        fun _ => rfl⟩
      declare := fun v isMutable hopen => holds_of_keeps fun m hm => S.declare v isMutable hopen hm
      assign := S.holds_assign
      tables := S.holds_tables
      runsWhole := fun ht m hm => ⟨.ok _ m, ⟨S.runsWhole hm ht, hm⟩, fun _ => rfl⟩
      nested := S.holds_nested
      runOnce := fun hid h => S.holds_runOnce hid h }

/-- Evaluation has its rule, also if it is watched for what the invariant implies. -/
theorem runs {W : Machine → Prop} [DecidablePred W] (hW : ∀ {i m}, I.holds i m → W m) {e : EvalError}
    (hforce : ∀ n, (∀ n' ≤ n, ∀ i size, S.lax.logic.Runs i size (watchedOrNot W e n')) →
      S.lax.Forces (watchedOrNot W e n)) (n : Nat) :
    ∀ i size, S.lax.logic.Runs i size (watchedOrNot W e n) := by
  refine S.lax.runs (R := fun n => watchedOrNot W e n) (fun k => by cases k <;> rfl) ?_ hforce n
  intro n i size h
  exact
    { expr := fun hs hsize => holds_watch hW (h.expr hs hsize) rfl rfl
      stmt := fun hs hsize => holds_watch hW (h.stmt hs hsize) rfl rfl
      bind := fun kind _ _ hs hsize hv => holds_watch hW (h.bind kind hs hsize hv) rfl rfl
      call := fun hf hargs => holds_watch hW (h.call hf hargs) rfl rfl
      topLevel := fun name hid => holds_watch hW (h.topLevel name hid) rfl rfl
      exported := fun name hid => holds_watch hW (h.exported name hid) rfl rfl
      assigned := fun _ _ hv => (holds_watch hW (h.topLevel _ trivial) rfl rfl).bind fun _ _ =>
        Logic.holds_writeOr (L := S.lax.logic) (I.calculus.throw trivial) _ _ hv }

end Stable

/-! ### The evaluation of declarations -/

/-- The declaration of each of the names is ready. -/
def readyAll (id : ModuleId) (names : List String) (m : Machine) : Machine :=
  names.foldl (fun m name => after (setBinding id name .ready) m) m

theorem forM_setBinding (id : ModuleId) (names : List String) (m : Machine) :
    (names.forM fun name => setBinding id name .ready : Eval Unit) m =
      .ok () (readyAll id names m) := by
  induction names generalizing m with
  | nil => rfl
  | cons name names ih => exact ih _

theorem endBinding_ok (id : ModuleId) (name : String) (names : List String) (m : Machine) :
    endBinding id name (.ok names) m = .ok () (after (reportBinding id name)
      (after (setBinding id name .ready) (readyAll id names (after endInitializing m)))) :=
  bind_eq_of_ok (forM_setBinding id names (after endInitializing m))

/-- The end of the evaluation of a declaration: states are set, and success is reported. -/
theorem holds_endBinding {id : ModuleId} {name : String} (result : Except EvalError (List String))
    (h : I.holds j (after endInitializing m))
    (hset : ∀ y status, (y ≠ name → ∃ names, result = .ok names ∧ y ∈ names) →
      (∀ e, result = .error e → status = .failed e) → I.Keeps j (setBinding id y status))
    (hreport : ∀ m, I.holds j m → I.holds i (after (reportBinding id name) m))
    (hji : ∀ m, I.holds j m → I.holds i m) : I.holds i (after (endBinding id name result) m) := by
  cases result with
  | error e => exact hji _ (hset name (.failed e) (absurd rfl) (by rintro _ ⟨⟩; rfl) _ h)
  | ok names =>
    have hall : I.holds j (readyAll id names (after endInitializing m)) :=
      List.foldlRecOn names _ h fun m hm y hy =>
        hset y .ready (fun _ => ⟨names, rfl, hy⟩) nofun m hm
    rw [after, endBinding_ok]
    exact hreport _ (hset name .ready (absurd rfl) nofun _ hall)

theorem holds_evalOnce {id : ModuleId} {name : String} {P : List String → Prop}
    {x : Bool → Eval (List String)}
    (hbegin : ∀ m, I.holds i m → (m.instanceOf id).bindings.get? name = none →
      I.holds j (after (beginBinding id name) m))
    (hx : I.calculus.Holds j P x)
    (hend : ∀ m₀ m result, I.holds j m₀ →
      (∀ names, result = .ok names → P names ∧ ∀ k, x k m₀ = .ok names m) → I.holds j m →
      I.holds i (after (endBinding id name result) m)) :
    I.calculus.Holds i (fun _ => True) fun k => evalOnce id name (x k) := by
  intro m hm
  simp only [RunsAt, evalOnce_eq]
  cases hs : (m.instanceOf id).bindings.get? name with
  | some status => cases status with
    | ready => exact ⟨.ok () m, ⟨trivial, hm⟩, fun _ => rfl⟩
    | evaluating => exact ⟨.error (.circular id name) m, hm, fun _ => rfl⟩
    | failed e => exact ⟨.error e m, hm, fun _ => rfl⟩
  | none =>
    have hm₀ := hbegin m hm hs
    obtain ⟨r, hr, heq⟩ := hx _ hm₀
    simp only [heq]
    refine ⟨_, leaves_of_holds ?_, fun _ => rfl⟩
    cases r with
    | ok names m₁ => exact hend _ m₁ (.ok names) hm₀ (by rintro _ ⟨⟩; exact ⟨hr.1, heq⟩) hr.2
    | error e m₁ => exact hend _ m₁ (.error e) hm₀ nofun hr

/-- A stable invariant that keeps nothing out, and that the evaluation of declarations keeps. -/
structure Lasting (I : Invariant) : Prop extends I.Stable where
  anyTable : ∀ id t, I.Table id t := by exact fun _ _ => trivial
  free : ∀ s name hasValue, I.Open s name hasValue := by exact fun _ _ _ => trivial
  runnable : ∀ id, I.Runnable id := by exact fun _ => trivial
  beginBinding : ∀ {i m id name}, I.holds i m → (m.instanceOf id).bindings.get? name = none →
    I.holds (I.starting i (.name id name)) (after (beginBinding id name) m)
  endBinding : ∀ {i m id name} result, I.holds (I.starting i (.name id name)) m →
    I.holds i (after (endBinding id name result) m)

namespace Lasting

variable (S : I.Lasting)

include S

/-- The evaluation of declarations has its rule. -/
theorem forces {R : Bool → Interp} (hr : ∀ i size, S.lax.logic.Runs i size R) : S.lax.Forces R :=
  S.lax.forces_of_evalOnce hr S.free fun _ _ _ h => holds_evalOnce (fun _ => S.beginBinding) (h _)
    fun _ _ result _ _ => S.endBinding result

/-- Watched evaluation keeps the property, and does what evaluation does. -/
theorem holds_task {W : Machine → Prop} [DecidablePred W] (hW : ∀ {i m}, I.holds i m → W m)
    (e : EvalError) {x : Interp → Eval α} (hx : Task x) (n : Nat) :
    I.calculus.Holds i (fun _ => True) fun k => x (watchedOrNot W e n k) := by
  have hL := S.lax
  have hr := S.runs hW (e := e) (fun n hr => S.forces (hr n le_rfl)) n
  have hmono {α : Type} [Held α] {x : Bool → Eval α}
      (h : I.calculus.Gives i x) : I.calculus.Holds i (fun _ => True) x :=
    Judgement.Holds.mono h fun _ _ => trivial
  cases hx with
  | expr s e => exact hmono ((hr i _).expr (hL.good s) (Nat.lt_succ_self _))
  | stmt s stmt =>
    exact hmono ((hr i _).stmt ⟨hL.good s, fun _ _ => S.free _ _ _⟩ (Nat.lt_succ_self _))
  | bind s kind p v =>
    exact hmono ((hr i _).bind kind ⟨hL.good s, fun _ _ => S.free _ _ _⟩ (Nat.lt_succ_self _)
      (hL.good v))
  | call f args => exact hmono ((hr i 0).call (hL.good f) (hL.good args))
  | topLevel id name => exact hmono ((hr i 0).topLevel name trivial)
  | exported id name => exact hmono ((hr i 0).exported name trivial)
  | declaration id t name => exact S.forces hr name (S.anyTable id t)
  | wholeModule id t =>
    exact hmono (α := Unit)
      (Logic.holds_runModule (L := hL.logic) (fun j _ => hr j) (S.runnable id) t)
  | styleCall argument needed =>
    exact hmono (hL.holds_callValue hr (S.forces hr) argument fun id _ => S.runnable id)

/-- Evaluation keeps the property, whatever it does. -/
theorem keeps_task {x : Interp → Eval α} (hx : Task x) (n : Nat) : I.Keeps i (x (interp n)) :=
  keeps_of_holds (S.holds_task (W := fun _ => True) (fun _ => trivial) .endless hx n) false

end Lasting
end Invariant

theorem Batch.snd_runJob (job : Job) (m : Machine) :
    (runJob job m).2 = Coupling.after (callValue (interp m.nesting) job.argument job.needed) m.reset := by
  show (resultOf (callValue (interp m.nesting) job.argument job.needed m.reset)).2 = _
  unfold Coupling.after
  cases callValue (interp m.nesting) job.argument job.needed m.reset <;> rfl

end AtomicStyles
