import AtomicStyles.Proofs.Binding.States
import AtomicStyles.Proofs.ExportValues
import AtomicStyles.Proofs.History
import AtomicStyles.Proofs.Termination.Evaluation

/-!
# A declaration that has failed

Once the evaluation of a declaration has failed, the failure is kept. A name that is declared
by itself is not there then, and nothing that happens later brings it back or makes the
declaration ready, so that all that reads the name fails with the same failure.

A declaration that binds several names by a pattern may fail half way. The names that it has
bound by then are there although the declaration has failed, and reading them gives their
values (`failed_pattern_leaves_names`).

## Main definitions

* `Happens` — what may happen to a machine while the style calls of a unit are evaluated.
* `Graph.Offers` — the exports that pass a name on.
* `Unreadable` — all that reads the name fails.
* `Failed` — the declaration of the name has failed.

## Main results

* `Happens.orderly`, `Happens.orderly_run` — what happens keeps failures, in one step and in many.
* `Unreadable.of_failed` — a name whose declaration has failed cannot be read.
* `failed_declaration_unreadable` — **a failure is kept for good.**
-/

namespace AtomicStyles

open Script Eval Coupling

/-! ### What may happen -/

/-- What may happen to a machine, as seen from a name that is declared by itself: parts of
evaluation and whole style calls run, and besides them, or around them, modules are loaded, names
are declared, and modules and declarations begin and end. Statements run at the top level of other
modules only, and a declaration binds the name only if it is the name's own. That one binds it as
the last thing it does, so that nothing happens between the two; it is part of the steps that
evaluate the name. -/
inductive Happens (g : Graph) (id : ModuleId) (name : String) : Machine → Machine → Prop where
  | expr {m : Machine} (n : Nat) (s : Scope) (e : Expr) :
      Happens g id name m (after ((interp n).expr s e) m)
  | stmt {m : Machine} (n : Nat) {s : Scope} (stmt : Stmt) : s.nearest ≠ .top id →
      Happens g id name m (after ((interp n).stmt s stmt) m)
  | bind {m : Machine} (n : Nat) {s : Scope} (kind : BindKind) {p : Pat} (v : Value) :
      (s.nearest = .top id → ∀ x ∈ p.names, x.name ≠ name) →
      Happens g id name m (after ((interp n).bind s kind p v) m)
  | call {m : Machine} (n : Nat) (f : Value) (args : List Value) :
      Happens g id name m (after ((interp n).call f args) m)
  | topLevel {m : Machine} (n : Nat) (other : ModuleId) (y : String) :
      Happens g id name m (after ((interp n).topLevel other y) m)
  | exported {m : Machine} (n : Nat) (other : ModuleId) (y : String) :
      Happens g id name m (after ((interp n).exported other y) m)
  | job {m : Machine} (job : Job) : .body id ∉ job.needed →
      Happens g id name m (Batch.runJob job m).2
  | loads {m : Machine} (other : ModuleId) : Happens g id name m (after (load other) m)
  | declares {m : Machine} {f : FrameRef} {y : String} (slot : Slot) : (f = .top id → y ≠ name) →
      Happens g id name m (m.declare f y slot)
  | setsStatus {m : Machine} (other : ModuleId) (status : ModuleStatus) :
      Happens g id name m (after (setStatus other status) m)
  | begins {m : Machine} {other : ModuleId} {y : String} : m.state? other y = none →
      Happens g id name m (after (beginBinding other y) m)
  | ends {m : Machine} {other : ModuleId} {y : String} {result : Except EvalError (List String)} :
      m.state? other y = some .evaluating →
      (∀ names, result = .ok names → other = id → name ∈ names → y = name) →
      Happens g id name m (after (endBinding other y result) m)
  | aside {m m' : Machine} : m'.modules = m.modules → Happens g id name m m'

namespace Happens

variable {g : Graph} {id : ModuleId} {name : String} {t : Tables} {m m' : Machine} {e : EvalError}

theorem of_proceeds (h : Proceeds g id name m m') : Orderly g id name m' ∧
    ∀ e, m.state? id name = some (.failed e) → m'.state? id name = some (.failed e) :=
  ⟨h.orderly, fun e => h.state (.failed e)⟩

theorem of_holds {α : Type} {x : Eval α} {Q : α → Prop}
    (hx : (states g id name).calculus.Holds m Q fun _ => x) (hm : Orderly g id name m) :
    Orderly g id name (after x m) ∧
      ∀ e, m.state? id name = some (.failed e) → (after x m).state? id name = some (.failed e) :=
  of_proceeds (Invariant.keeps_of_holds hx true m (.refl hm))

/-- What happens keeps the order and failures: the step lemma. -/
theorem orderly (h : g.DeclaresAlone id t name) (hstep : Happens g id name m m')
    (hm : Orderly g id name m) :
    Orderly g id name m' ∧
      ∀ e, m.state? id name = some (.failed e) → m'.state? id name = some (.failed e) := by
  have hL := (states_stable h).lax
  have hruns (n size : Nat) := states_runs h n m size
  cases hstep with
  | expr n s e => exact of_holds ((hruns n _).expr trivial (Nat.lt_succ_self (sizeOf e))) hm
  | stmt n stmt hs =>
    exact of_holds ((hruns n _).stmt ⟨trivial, fun y _ htop => absurd htop hs⟩
      (Nat.lt_succ_self (sizeOf stmt))) hm
  | bind n kind v hs =>
    exact of_holds ((hruns n _).bind kind ⟨trivial, fun x hx htop => hs htop x hx⟩
      (Nat.lt_succ_self _) (hL.good v)) hm
  | call n f args => exact of_holds ((hruns n 0).call (hL.good f) (hL.good args)) hm
  | topLevel n other y => exact of_holds ((hruns n 0).topLevel y trivial) hm
  | exported n other y => exact of_holds ((hruns n 0).exported y trivial) hm
  | job job hjob =>
    rw [Batch.snd_runJob]
    exact of_proceeds (states_callValue h m.nesting job.argument hjob m m.reset (.of_modules hm rfl))
  | loads other =>
    obtain ⟨m₁, hload, hm₁⟩ := Recached.exists_load hm.serves other
    rw [after, hload]
    exact of_proceeds (.of_recached hm hm₁)
  | declares slot hname => exact of_proceeds (.declare hm slot fun hf hy => absurd hy (hname hf))
  | setsStatus other status => exact of_proceeds (.setStatus hm other status)
  | @begins other y hs =>
    by_cases hself : other = id ∧ y = name
    · obtain ⟨rfl, rfl⟩ := hself
      exact ⟨orderly_beginBinding hm hs, fun e he => absurd (hs.symm.trans he) (by simp)⟩
    · exact of_proceeds (.beginBinding hm fun hid hy => hself ⟨hid, hy⟩)
  | @ends other y result hs hbound =>
    by_cases hself : other = id ∧ y = name
    · -- The declaration of the name itself ends, and what it has come to is noted.
      obtain ⟨rfl, rfl⟩ := hself
      exact ⟨orderly_endBinding hm hs result, fun e he => absurd (hs.symm.trans he) (by simp)⟩
    · have hother (hid : other = id) : y ≠ name := fun hy => hself ⟨hid, hy⟩
      refine of_proceeds (.endBinding hm hother ?_)
      exact fun names hnames hid hmem => hother hid (hbound names hnames hid hmem)
  | aside heq => exact of_proceeds (.of_modules hm heq)

/-- Whatever happens for however long keeps the order and failures: the run lemma. -/
theorem orderly_run (h : g.DeclaresAlone id t name)
    (hrun : Relation.ReflTransGen (Happens g id name) m m') (hm : Orderly g id name m) :
    Orderly g id name m' ∧
      ∀ e, m.state? id name = some (.failed e) → m'.state? id name = some (.failed e) := by
  induction hrun with
  | refl => exact ⟨hm, fun _ he => he⟩
  | tail _ hstep ih =>
    obtain ⟨hm', hkept⟩ := hstep.orderly h ih.1
    exact ⟨hm', fun e he => hkept e (ih.2 e he)⟩

end Happens

/-! ### Reading -/

/-- The run fails with the given failure, or since evaluation does not go deep enough. -/
def FailsWith (e : EvalError) : EStateM.Result EvalError Machine Value → Prop
  | .ok _ _ => False
  | .error e' _ => e' = e ∨ e' = .endless

/-- The module exports the name of another one, or its own, by way of imports and re-exports of
single names. -/
def Graph.Offers (g : Graph) (id : ModuleId) (name : String) (other : ModuleId) (y : String) :
    Prop :=
  ∃ t own, g.freshTables id = .ok t ∧ t.exports.get? own = some (.own name) ∧
    Relation.ReflTransGen g.Forwards (other, y) (id, own)

/-- All that reads the name fails, with the given failure. -/
structure Unreadable (g : Graph) (id : ModuleId) (name : String) (e : EvalError) (m : Machine) :
    Prop where
  /-- Code of the module reads the name, which means no inner name there. -/
  read : ∀ n s, s.module = id → m.find? name (s.inner.map .inner) = none →
    FailsWith e (Eval.read (interp n) s name m)
  /-- Code of another module reads the name, which it imports. -/
  imported : ∀ n s t y im target z, g.freshTables s.module = .ok t →
    t.declarations.contains y = false → t.imports.get? y = some im → im.source = .ok target →
    im.imported.exportName? = some z → g.Offers id name target z → m.find? y s.frames = none →
    FailsWith e (Eval.read (interp n) s y m)
  /-- The declaration is looked for by itself. -/
  topLevel : ∀ n, FailsWith e ((interp n).topLevel id name m)
  /-- The name is read as an export. -/
  exported : ∀ n other y, g.Offers id name other y → FailsWith e ((interp n).exported other y m)
  /-- The name is read as an export, also by way of re-exports of everything. -/
  starred : ∀ ids other t y, g.Closed ids → g.ExportsBound ids → other ∈ ids →
    g.freshTables other = .ok t → (g.exported t y).value = .ok (.name id name) →
    e.isLookup = false → g.limit < m.nesting →
    ∃ least, ∀ n, least ≤ n → ∃ m', (interp n).exported other y m = .error e m'

structure Failed (g : Graph) (id : ModuleId) (name : String) (e : EvalError) (m : Machine) :
    Prop where
  orderly : Orderly g id name m
  state : m.state? id name = some (.failed e)

section Reading

variable {g : Graph} {id other target : ModuleId} {name y z : String} {t t' : Tables}
  {m m' : Machine} {e : EvalError} {im : Import} {n : Nat}

theorem Failed.recached (hm : Failed g id name e m) (hm' : Recached g m' m) :
    Failed g id name e m' :=
  have hproceeds : Proceeds g id name m m' := .of_recached hm.orderly hm'
  ⟨hproceeds.orderly, hproceeds.state _ hm.state⟩

theorem FailsWith.of_comesTo {x x' : Eval Value} (hx : ComesTo g m x x')
    (h : ∀ m', Recached g m' m → FailsWith e (x' m')) : FailsWith e (x m) := by
  obtain ⟨m', hm', heq⟩ := hx
  rw [heq]
  exact h m' hm'

/-- Looking for the declaration finds the failure. -/
theorem Failed.comesTo_topLevelValue (hm : Failed g id name e m) (h : g.DeclaresAlone id t name)
    (r : Interp) : ComesTo g m (topLevelValue r id name) (throw e) := by
  obtain ⟨m', hm', hfails, -⟩ := exists_topLevelValue_eq r hm.orderly.serves h.tables h.apart
    h.isDeclared
  refine ⟨m', hm', hfails e m' ?_⟩
  rw [forceDeclaration, Invariant.evalOnce_eq,
    show (m'.instanceOf id).bindings.get? name = _ from (hm.recached hm').state]

theorem Failed.topLevel (hm : Failed g id name e m) (h : g.DeclaresAlone id t name) (n : Nat) :
    FailsWith e ((interp n).topLevel id name m) := by
  cases n with
  | zero => exact .inr rfl
  | succ n => exact .of_comesTo (hm.comesTo_topLevelValue h (interp n)) fun _ _ => .inl rfl

theorem failsWith_exported
    (h : ∀ depth, ∃ e' visited m', searchExport (interp n) y (depth + 1) other [] m =
      .ok (.error e', visited) m' ∧ (e' = e ∨ e' = .endless)) :
    FailsWith e ((interp (n + 1)).exported other y m) := by
  cases hnesting : m.nesting with
  | zero =>
    have hsearch : searchExport (interp n) y m.nesting other [] m = .ok (.error .endless, []) m := by
      rw [hnesting]
      rfl
    rw [exported_eq hsearch]
    exact .inr rfl
  | succ depth =>
    obtain ⟨e', visited, m', hsearch, he'⟩ := h depth
    rw [← hnesting] at hsearch
    rw [exported_eq hsearch]
    exact he'

/-- The search fails if what it comes to does. -/
theorem exists_search_eq {x : Eval (Except EvalError Value × List ModuleId)} {x' : Eval Value}
    {visited : List ModuleId} (hx : ComesTo g m x (answerOf x' visited))
    (h : ∀ m', Recached g m' m → FailsWith e (x' m')) :
    ∃ e' visited m', x m = .ok (.error e', visited) m' ∧ (e' = e ∨ e' = .endless) := by
  obtain ⟨m', hm', heq⟩ := hx
  have hfails := h m' hm'
  rw [answerOf_eq] at heq
  cases hend : x' m' with
  | ok v m₁ =>
    rw [hend] at hfails
    exact hfails.elim
  | error e' m₁ =>
    rw [hend] at hfails heq
    exact ⟨e', visited, m₁, heq, hfails⟩

/-- An import fails if the export that it names does. -/
theorem failsWith_importValue (hsource : im.source = .ok target)
    (hname : im.imported.exportName? = some z) (h : FailsWith e ((interp n).exported target z m)) :
    FailsWith e (importValue (interp n) other im m) := by
  simp only [importValue, hsource, hname]
  exact h

/-- A name that a module imports fails if the export that it names does. -/
theorem failsWith_topLevel_import (hserves : g.Serves m) (ht' : g.freshTables other = .ok t')
    (hdeclared : t'.declarations.contains y = false) (himport : t'.imports.get? y = some im)
    (hsource : im.source = .ok target) (hname : im.imported.exportName? = some z)
    (h : ∀ n m', Recached g m' m → FailsWith e ((interp n).exported target z m')) (n : Nat) :
    FailsWith e ((interp n).topLevel other y m) := by
  cases n with
  | zero => exact .inr rfl
  | succ n =>
    exact .of_comesTo (comesTo_topLevel hserves ht' hdeclared himport n) fun m' hm' =>
      failsWith_importValue hsource hname (h n m' hm')

/-- An export that passes on another one fails if that does. -/
theorem failsWith_exported_of_forwards (hserves : g.Serves m) (ht' : g.freshTables other = .ok t')
    (hforwards : t'.Forwards y im) (hsource : im.source = .ok target)
    (hname : im.imported.exportName? = some z)
    (h : ∀ n m', Recached g m' m → FailsWith e ((interp n).exported target z m')) (n : Nat) :
    FailsWith e ((interp n).exported other y m) := by
  cases n with
  | zero => exact .inr rfl
  | succ n =>
    obtain rfl := Graph.id_of_freshTables ht'
    refine failsWith_exported fun depth => ?_
    cases hforwards with
    | reexport hexport =>
      refine exists_search_eq (comesTo_reexport hserves ht' List.not_mem_nil none hexport)
        fun m' hm' => ?_
      exact failsWith_importValue hsource hname (h n m' hm')
    | own hexport hdeclared himport =>
      refine exists_search_eq (comesTo_own hserves ht' List.not_mem_nil none hexport)
        fun m' hm' => ?_
      exact failsWith_topLevel_import hm'.left ht' hdeclared himport hsource hname
        (fun n m₁ hm₁ => h n m₁ (hm₁.trans hm')) n

/-- However many modules pass the name on, it cannot be read as an export. -/
theorem Failed.exported (hm : Failed g id name e m) (h : g.DeclaresAlone id t name)
    (hoffers : g.Offers id name other y) (n : Nat) :
    FailsWith e ((interp n).exported other y m) := by
  obtain ⟨t₁, own, ht₁, hexport, hchain⟩ := hoffers
  cases h.tables.symm.trans ht₁
  -- The induction is on the modules that the search goes through, from the last one.
  suffices hpair : ∀ p, Relation.ReflTransGen g.Forwards p (id, own) →
      ∀ n m, Failed g id name e m → FailsWith e ((interp n).exported p.1 p.2 m) from
    hpair (other, y) hchain n m hm
  intro p hp
  induction hp using Relation.ReflTransGen.head_induction_on with
  | refl =>
    intro n m hm
    cases n with
    | zero => exact .inr rfl
    | succ n =>
      obtain rfl := Graph.id_of_freshTables h.tables
      refine failsWith_exported fun depth => exists_search_eq (comesTo_own hm.orderly.serves h.tables
        List.not_mem_nil none hexport) fun m' hm' => ?_
      exact (hm.recached hm').topLevel h n
  | head hstep _ ih =>
    intro n m hm
    obtain ⟨t', im, ht', hforwards, hsource, hname⟩ := hstep
    exact failsWith_exported_of_forwards hm.orderly.serves ht' hforwards hsource hname
      (fun n m' hm' => ih n m' (hm.recached hm')) n

/-- Reading a name that is in no frame looks for it in the module. -/
theorem read_eq (r : Interp) {s : Scope} (hfind : m.find? y s.frames = none) :
    Eval.read r s y m = r.topLevel s.module y m := by
  have hlookup : lookup s y m = .ok none m := by
    show EStateM.Result.ok ((m.find? y s.frames).map _) m = _
    rw [hfind]
    rfl
  exact bind_eq_of_ok hlookup

theorem Machine.find?_append (m : Machine) (y : String) (fs fs' : List FrameRef)
    (h : m.find? y fs = none) : m.find? y (fs ++ fs') = m.find? y fs' := by
  induction fs with
  | nil => rfl
  | cons f fs ih =>
    unfold find? at h
    split at h
    · cases h
    · next hget =>
      rw [List.cons_append, find?, hget]
      exact ih h

/-- Code of the module does not find the name in a frame. -/
theorem Failed.find?_eq_none {s : Scope} (hm : Failed g s.module name e m)
    (hinner : m.find? name (s.inner.map .inner) = none) : m.find? name s.frames = none := by
  have htop : (m.frame s.top).get? name = none :=
    hm.orderly.top?_eq_none (by rw [hm.state]; nofun)
  rw [Scope.frames, m.find?_append _ _ _ hinner]
  unfold Machine.find?
  rw [htop]
  rfl

/-- Re-exports of everything are left at the failure, unless it is that of a search itself. -/
theorem Failed.starred {ids : Set ModuleId} (hm : Failed g id name e m)
    (h : g.DeclaresAlone id t name) (hclosed : g.Closed ids) (hbound : g.ExportsBound ids)
    (hother : other ∈ ids) (ht' : g.freshTables other = .ok t')
    (hkey : (g.exported t' y).value = .ok (.name id name)) (he : e.isLookup = false)
    (hnesting : g.limit < m.nesting) :
    ∃ least, ∀ n, least ≤ n → ∃ m', (interp n).exported other y m = .error e m' := by
  obtain ⟨hops, least, halike⟩ := exists_alike_exported hclosed hbound hother ht' hkey
  refine ⟨least + 1 + hops, fun n hn => ?_⟩
  obtain ⟨k, rfl⟩ := Nat.exists_eq_add_of_le hn
  obtain ⟨m₁, -, hvalue⟩ := hm.comesTo_topLevelValue h (interp (least + k))
  have hkeyValue : keyValue (interp (least + k + 1)) (.name id name) m = .error e m₁ := hvalue
  have hclear : ¬ FailsLookup (keyValue (interp (least + k + 1)) (.name id name) m) := by
    rw [hkeyValue]
    exact Bool.eq_false_iff.1 he
  have hends := halike (least + k + 1) (by omega) m hm.orderly.serves hnesting (.inr hclear)
  rw [hkeyValue, show least + k + 1 + hops = least + 1 + hops + k by omega] at hends
  cases hend : (interp (least + 1 + hops + k)).exported other y m with
  | ok v m' =>
    rw [hend] at hends
    exact hends.elim
  | error e' m' =>
    rw [hend] at hends
    exact ⟨m', by rw [hends.1]⟩

theorem Unreadable.of_failed (h : g.DeclaresAlone id t name) (hm : Failed g id name e m) :
    Unreadable g id name e m where
  read n s hs hinner := by
    subst hs
    rw [read_eq _ (hm.find?_eq_none hinner)]
    exact hm.topLevel h n
  imported n s t' y im target z ht' hdeclared himport hsource hname hoffers hfind := by
    rw [read_eq _ hfind]
    exact failsWith_topLevel_import hm.orderly.serves ht' hdeclared himport hsource hname
      (fun n m' hm' => (hm.recached hm').exported h hoffers n) n
  topLevel n := hm.topLevel h n
  exported n other y hoffers := hm.exported h hoffers n
  starred ids other t' y hclosed hbound hother ht' hkey he hnesting :=
    hm.starred h hclosed hbound hother ht' hkey he hnesting

end Reading

/-! ### Failing -/

section Failing

variable {g : Graph} {id : ModuleId} {name : String} {t : Tables} {m m' : Machine} {e : EvalError}
  {n : Nat}

theorem orderly_start {limits : Limits} {cache : ModuleCache}
    (hcache : cache.Sound g.loader g.features) : Orderly g id name (.start g limits cache) where
  serves := ⟨rfl, hcache⟩
  ready htop := absurd rfl htop

/-- If evaluating the declaration fails, it has failed, unless it was being evaluated. -/
theorem Failed.of_force (h : g.DeclaresAlone id t name) (hm : Orderly g id name m)
    (hidle : m.state? id name ≠ some .evaluating)
    (hfail : forceDeclaration (interp n) id t name m = .error e m') : Failed g id name e m' := by
  cases hs : m.state? id name with
  | none =>
    obtain ⟨m₁, hm₁, ⟨heq, -⟩ | ⟨e₁, heq, hs₁⟩⟩ :=
      exists_forceDeclaration_eq h (states_runs h n) hm hs
    · cases heq.symm.trans hfail
    · cases heq.symm.trans hfail
      exact ⟨hm₁, hs₁⟩
  | some status =>
    rw [forceDeclaration, Invariant.evalOnce_eq,
      show (m.instanceOf id).bindings.get? name = _ from hs] at hfail
    cases status with
    | ready => cases hfail
    | evaluating => exact absurd hs hidle
    | failed e₁ =>
      cases hfail
      exact ⟨hm, hs⟩

/-- **A failure is kept for good.** Once evaluating a declaration has failed, whatever happens then,
all that reads the name fails in the same way: in its module, in modules that import it and as an
export. The name must be declared by itself; and the failure must not be that the declaration is
needed for its own evaluation, which may yet succeed. -/
theorem failed_declaration_unreadable (h : g.DeclaresAlone id t name) {limits : Limits}
    {cache : ModuleCache} (hcache : cache.Sound g.loader g.features) {m₀ : Machine}
    (hrun : Relation.ReflTransGen (Happens g id name) (.start g limits cache) m₀)
    (hidle : m₀.state? id name ≠ some .evaluating)
    (hfail : forceDeclaration (interp n) id t name m₀ = .error e m)
    (hlater : Relation.ReflTransGen (Happens g id name) m m') : Unreadable g id name e m' := by
  have hm₀ := (Happens.orderly_run h hrun (orderly_start hcache)).1
  have hm : Failed g id name e m := .of_force h hm₀ hidle hfail
  obtain ⟨hm', hkept⟩ := Happens.orderly_run h hlater hm.orderly
  exact .of_failed h ⟨hm', hkept e hm.state⟩

end Failing

/-! ### Failing by itself and half way -/

variable {name : String} {m : Machine}

/-- A declaration that binds names is one of the module. -/
theorem Tables.contains_of_mem_boundBy {t : Tables} {other : String} (h : name ∈ t.boundBy other) :
    t.declarations.contains other = true := by
  unfold boundBy declaration? at h
  cases hsite : t.declarations.get? other with
  | none =>
    rw [hsite] at h
    cases h
  | some site => exact Option.isSome_iff_exists.2 ⟨site, hsite⟩

/-- `export const a = /x/; export { a as b } from './unit'`. -/
def regexUnit : Module where
  items := [
    .exportDecl (.var .const [.mk (.ident ⟨"a", 0⟩) (some .regex)] false),
    .exports [.named (.ident ⟨"a", 1⟩) (some (.ident ⟨"b", 2⟩)) false] (some "./unit") false]

/-- The graph of this unit, which re-exports from itself. -/
def regexGraph : Graph where
  loader := {}
  features := {}
  entry := Tables.build "/unit" regexUnit fun _ => .ok "/unit"

theorem declaresAlone_regex :
    regexGraph.DeclaresAlone "/unit" regexGraph.entry "a" where
  tables := regexGraph.freshTables_entry
  apart := by cbv
  isDeclared := by cbv
  isPlain d kind h := by
    have hform : regexGraph.entry.declaration? "a" =
      some (.var (.mk (.ident ⟨"a", 0⟩) (some .regex)) .const) := by cbv
    rw [hform] at h
    cases h
    exact ⟨_, rfl⟩
  unique other h := by
    have hkeys : regexGraph.entry.declarations.keys = ["a"] := by cbv
    obtain ⟨site, hsite⟩ := Option.isSome_iff_exists.1 (Tables.contains_of_mem_boundBy h)
    have hmem := OrderedMap.mem_keys_of_get? hsite
    rw [hkeys] at hmem
    exact List.mem_singleton.1 hmem

/-- The second export of this unit is the first one. -/
theorem offers_regex : regexGraph.Offers "/unit" "a" "/unit" "b" := by
  have hfirst : regexGraph.entry.exports.get? "a" = some (.own "a") := by cbv
  have hsecond : regexGraph.entry.exports.get? "b" =
      some (.reexport ⟨"./unit", .named "a", .ok "/unit"⟩) := by cbv
  exact ⟨_, "a", regexGraph.freshTables_entry, hfirst,
    .single ⟨_, _, regexGraph.freshTables_entry, .reexport hsecond, rfl, rfl⟩⟩

theorem failed_declaration_unreadable_regex : ∃ m m',
    forceDeclaration (interp 1) "/unit" regexGraph.entry "a" (.start regexGraph {} {}) =
      .error (.unsupported .regularExpression) m ∧
    Batch.runJob ⟨.ident ⟨"a", 3⟩, [.name "/unit" "a"]⟩ m = m' ∧
    Unreadable regexGraph "/unit" "a" (.unsupported .regularExpression) m'.2 ∧
    ∀ n, FailsWith (.unsupported .regularExpression) ((interp n).exported "/unit" "b" m'.2) := by
  have hforce : forceDeclaration (interp 1) "/unit" regexGraph.entry "a" (.start regexGraph {} {}) =
      .error (.unsupported .regularExpression)
        (after (forceDeclaration (interp 1) "/unit" regexGraph.entry "a") (.start regexGraph {} {})) :=
    rfl
  have hunreadable := failed_declaration_unreadable declaresAlone_regex (.empty _ _) .refl nofun
    hforce (.single (.job ⟨.ident ⟨"a", 3⟩, [.name "/unit" "a"]⟩ (by simp)))
  exact ⟨_, _, hforce, rfl, hunreadable, fun n => hunreadable.exported n _ _ offers_regex⟩

/-- `{ a, b: { c } }`. -/
def nestedPattern : Pat :=
  .object [.shorthand ⟨"a", 0⟩ none, .keyValue (.name "b") (.object [.shorthand ⟨"c", 1⟩ none])]

/-- `const { a, b: { c } } = { a: 'red' }`. -/
def nestedUnit : Module where
  items := [.stmt (.decl (.var .const
    [.mk nestedPattern (some (.object [.keyValue (.name "a") (.str "red")]))] false))]

/-- The graph of this unit. -/
def nestedGraph : Graph where
  loader := {}
  features := {}
  entry := Tables.build "/unit" nestedUnit fun _ => .ok "/unit"

/-- **A pattern that fails half way leaves the names that it has bound.** -/
theorem failed_pattern_leaves_names : ∃ m,
    forceDeclaration (interp 2) "/unit" nestedGraph.entry "a" (.start nestedGraph {} {}) =
      .error (.thrown "TypeError: Cannot destructure 'undefined'") m ∧
    ∀ r, Eval.read r { module := "/unit" } "a" m = .ok (.string "red") m := by
  refine ⟨after (forceDeclaration (interp 2) "/unit" nestedGraph.entry "a")
    (.start nestedGraph {} {}), rfl, ?_⟩
  intro r
  rfl

end AtomicStyles
