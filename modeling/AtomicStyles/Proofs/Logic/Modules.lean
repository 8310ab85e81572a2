import AtomicStyles.Proofs.Logic.Statements

/-!
# Rules for modules and style calls

The top-level code of modules, their declarations, imports and exports, and the evaluation of
a style call. What is done once has less to use up, so that the rules for it ask for all parts
of evaluation below their index. A search for an export has a rule that carries along a
condition on the modules that have been visited.

## Main definitions

* `Tables.boundBy` — the names that a declaration binds.

## Main results

* `Logic.holds_topLevelValue` — names at the top level of a module.
* `Logic.holds_searchTables` — one step of the search for an export.
* `Logic.holds_callValue` — **a style call.**
-/

namespace AtomicStyles

open Script Eval List

/-- The names that the evaluation of a declaration binds. -/
def Tables.boundBy (t : Tables) (name : String) : List String :=
  match t.declaration? name with
  | some (.var d _) => d.pat.names.map Ident.text
  | some (.func _ _) => [name]
  | some (.enum _ _) => [name]
  | some (.value _) => [name]
  | some (.cls _) => []
  | none => []

namespace Logic

variable {L : Logic} {i : L.Index} {R : L.Bound → Interp}

/-! ### Whole modules -/

section Items

variable {size : Nat} (hr : L.Runs i size R) {s : Scope} (hs : L.Free s)

include hs

theorem holds_hoistItem (item : Item) : L.Gives i fun _ => hoistItem s item := by
  cases item with
  | stmt stmt =>
    cases stmt with
    | decl d => exact holds_hoistDecl hs d
    | _ => exact .pure trivial
  | exportDecl d => exact holds_hoistDecl hs d
  | exportDefaultFunc name f =>
    refine (holds_newFunc hs.good (name.map Ident.text) f).bind fun v hv => ?_
    exact L.declare true (hs.isOpen _ _) hv.some
  | exportDefaultExpr e => exact L.declare false (hs.isOpen _ _) nofun
  | _ => exact .pure trivial

include hr

theorem holds_runItem {item : Item} (hitem : sizeOf item ≤ size) :
    L.Gives i fun k => runItem (R k) s item := by
  cases item with
  | stmt stmt =>
    simp only [Item.stmt.sizeOf_spec] at hitem
    refine (hr.stmt hs (by omega)).bind fun c _ => ?_
    cases c with
    | normal => exact .pure trivial
    | _ => exact .unsupported _
  | exportDecl d =>
    simp only [Item.exportDecl.sizeOf_spec] at hitem
    exact holds_runDecl hr hs (by omega)
  | exportDefaultExpr e =>
    simp only [Item.exportDefaultExpr.sizeOf_spec] at hitem
    refine (hr.expr hs.good (by omega)).bind fun v hv => ?_
    exact L.declare false (hs.isOpen _ _) hv.some
  | exportDefaultClass => exact .unsupported _
  | importEquals => exact .unsupported _
  | exportAssignment => exact .unsupported _
  | namespaceExport => exact .unsupported _
  | _ => exact .pure trivial

theorem holds_runItems {items : List Item} (hitems : sizeOf items ≤ size) :
    L.Gives i fun k => runItems (R k) s items := by
  refine (holds_declareVars (hs.takes _)).bind fun _ _ => ?_
  refine (Judgement.Holds.forM items fun item _ => holds_hoistItem hs item).bind fun _ _ => ?_
  refine .forM items fun item hitem => ?_
  have hlt := sizeOf_lt_of_mem hitem
  exact holds_runItem hr hs (by omega)

end Items

variable (hlow : ∀ j, L.Below j i → ∀ size, L.Runs j size R)

include hlow in
theorem holds_runModule {id : ModuleId} (hid : L.Runnable id) (t : Tables) :
    L.Gives i fun k => runModule (R k) id t :=
  L.runOnce hid fun hfree j hj => holds_runItems (hlow j hj _) hfree le_rfl

/-! ### Single declarations -/

section Declarations

variable (hr : ∀ size, L.Runs i size R) {s : Scope} (hs : L.Good s)

include hr hs

theorem holds_initialValue (init : Option Expr) :
    L.Gives i fun k => initialValue (R k) s init := by
  cases init with
  | some e => exact (hr _).expr hs (Nat.lt_succ_self _)
  | none => exact .pure trivial

/-- The evaluation of a declaration gives the names that it binds. -/
theorem holds_evalDeclaration {t : Tables} {name : String}
    (hopen : ∀ bound ∈ t.boundBy name, L.Open s bound true) :
    L.Holds i (· = t.boundBy name) fun k => evalDeclaration (R k) t s name := by
  unfold evalDeclaration
  unfold Tables.boundBy at hopen ⊢
  generalize t.declaration? name = form at hopen ⊢
  cases form with
  | none => exact .throw nofun
  | some d =>
    cases d with
    | var d kind =>
      have hnames : L.Takes s d.pat.names :=
        ⟨hs, fun id hid => hopen id.name (mem_map_of_mem hid)⟩
      refine (holds_initialValue hr hs d.init).bind fun v hv => ?_
      exact ((hr _).bind _ hnames (Nat.lt_succ_self _) hv).bind fun _ _ => .pure rfl
    | func id f =>
      refine (holds_newFunc hs (id.map Ident.text) f).bind fun v hv => ?_
      exact (L.declare true (hopen name (.head _)) hv.some).bind fun _ _ => .pure rfl
    | enum id members =>
      refine (holds_evalEnum (hr _) hs le_rfl).bind fun v hv => ?_
      exact (L.declare false (hopen name (.head _)) hv.some).bind fun _ _ => .pure rfl
    | value e =>
      refine ((hr _).expr hs (Nat.lt_succ_self _)).bind fun v hv => ?_
      exact (L.declare false (hopen name (.head _)) hv.some).bind fun _ _ => .pure rfl
    | cls => exact .unsupported _

end Declarations

/-! ### Imports and exports -/

section Exports

variable {id : ModuleId} {t : Tables}

include hlow in
theorem holds_prepare (ht : L.Table id t) {name : String}
    (hforce : L.Gives i fun k => forceDeclaration (R k) id t name) :
    L.Gives i fun k => prepare (R k) id t name :=
  (L.runsWhole ht).bind fun _ hwhole =>
    .iteOf (fun hb => holds_runModule hlow (hwhole hb) t) fun _ => hforce

theorem holds_importValue {im : Import} (hknown : ∀ target, im.source = .ok target → L.Known target)
    (hexported : ∀ target name, im.source = .ok target → im.imported.exportName? = some name →
      L.Gives i fun k => (R k).exported target name) (importer : ModuleId) :
    L.Gives i fun k => importValue (R k) importer im := by
  unfold importValue
  cases hsource : im.source with
  | error e => exact .throw nofun
  | ok target =>
    have hid := hknown target hsource
    cases hname : im.imported.exportName? with
    | none => exact (L.tables hid).bind fun _ _ => .pure hid
    | some name => exact hexported target name hsource hname

include hlow in
/-- The evaluation of a declaration and that of an import ask for rules of their own. -/
theorem holds_topLevelValue (hid : L.Known id) {name : String}
    (hforce : ∀ t, L.Table id t → t.declarations.contains name = true →
      L.Gives i fun k => forceDeclaration (R k) id t name)
    (himport : ∀ t im, L.Table id t → t.declarations.contains name = false →
      t.imports.get? name = some im → L.Gives i fun k => importValue (R k) id im) :
    L.Gives i fun k => topLevelValue (R k) id name := by
  refine (L.tables hid).bind fun t ht => .iteOf (fun hname => ?_) fun hname => ?_
  · refine (holds_prepare hlow ht (hforce t ht hname)).bind fun _ _ => ?_
    refine (L.lookup { module := id } name).bind fun slot hslot => ?_
    rcases slot with _ | ⟨_ | v, isMutable⟩
    · exact .throw nofun
    · exact .throw nofun
    · exact .pure (hslot _ rfl v rfl)
  · cases him : t.imports.get? name with
    | some im => exact himport t im ht (Bool.eq_false_iff.2 hname) him
    | none => exact holds_global name

variable {V : List ModuleId → Prop} {find : L.Bound → ModuleId → ExportSearch}

/-- The results of a search for an export, while the modules visited meet a condition. -/
def SearchResult (L : Logic) (V : List ModuleId → Prop)
    (r : Except EvalError Value × List ModuleId) : Prop :=
  L.Good r.1 ∧ V r.2

theorem holds_searchStars (importer : ModuleId) {missing : EvalError} (hmissing : L.Fair missing)
    {first : Option EvalError} (hfirst : L.Good first) {stars : List Star}
    (hfind : ∀ star ∈ stars, ∀ target, star.source = .ok target → ∀ visited, V visited →
      L.Holds i (SearchResult L V) fun k => find k target visited)
    {visited : List ModuleId} (hvisited : V visited) :
    L.Holds i (SearchResult L V) fun k =>
      searchStars (find k) importer missing first stars visited := by
  induction stars generalizing first visited with
  | nil =>
    refine .pure ⟨?_, hvisited⟩
    cases first with
    | none => exact hmissing
    | some e => exact hfirst e rfl
  | cons star stars ih =>
    obtain ⟨hstar, hstars⟩ := forall_mem_cons.1 hfind
    have hsearch : L.Holds i (SearchResult L V) fun k =>
        searchStar (find k) importer star visited := by
      unfold searchStar
      cases hsource : star.source with
      | ok target => exact hstar target hsource visited hvisited
      | error e => exact .pure ⟨L.fair nofun, hvisited⟩
    refine hsearch.bind fun result hresult => ?_
    obtain ⟨found, visited'⟩ := result
    obtain ⟨hfound, hvisited'⟩ := hresult
    -- A failure of the lookup leaves the search to the next module, and the first one is kept.
    have hkept (e : EvalError) (he : L.Fair e) : L.Good (first <|> some e) := by
      cases first with
      | none => exact Judgement.Good.some (b := e) he
      | some e' => exact hfirst
    cases found with
    | ok v => exact .pure ⟨hfound, hvisited'⟩
    | error e =>
      cases e with
      | missingExport => exact ih hfirst hstars hvisited'
      | unresolvedImport => exact ih (hkept _ hfound) hstars hvisited'
      | load => exact ih (hkept _ hfound) hstars hvisited'
      | _ => exact .pure ⟨hfound, hvisited'⟩

theorem holds_searchTables {name : String}
    (hown : ∀ own, t.exports.get? name = some (.own own) →
      L.Gives i fun k => (R k).topLevel id own)
    (hreexport : ∀ im, t.exports.get? name = some (.reexport im) →
      L.Gives i fun k => importValue (R k) id im)
    (hfind : t.exports.get? name = none → name ≠ "default" → ∀ star ∈ t.stars, ∀ target,
      star.source = .ok target → ∀ visited, V visited →
      L.Holds i (SearchResult L V) fun k => find k target visited)
    {visited : List ModuleId} (hvisited : V visited) :
    L.Holds i (SearchResult L V) fun k => searchTables (R k) name (find k) id t visited := by
  unfold searchTables
  cases hexport : t.exports.get? name with
  | none =>
    have hmissing : L.Fair (.missingExport id name) := L.fair nofun
    refine .iteOf (fun _ => .pure ⟨hmissing, hvisited⟩) fun hname => ?_
    exact holds_searchStars id hmissing .none (hfind hexport hname) hvisited
  | some target =>
    cases target with
    | own own =>
      exact (hown own hexport).outcome.bind fun _ hresult => .pure ⟨hresult, hvisited⟩
    | reexport im =>
      exact (hreexport im hexport).outcome.bind fun _ hresult => .pure ⟨hresult, hvisited⟩

end Exports

/-! ### Style calls -/

variable (hr : ∀ size, L.Runs i size R)

include hr

variable {s : Scope}

theorem holds_convertEach {convert : L.Bound → Value → Eval StyleValue}
    (hconvert : ∀ v, L.Good v → L.Gives i fun k => convert k v) {v : Value} (hv : L.Good v) :
    L.Gives i fun k => convertEach (R k) (convert k) v :=
  (holds_entries (hr 0) hv).bind fun es hes => .mapM es fun e he =>
    (hconvert e.2 (hes e he).2).bind fun _ _ => .pure ⟨trivial, trivial⟩

theorem holds_detach (depth : Nat) {v : Value} (hv : L.Good v) :
    L.Gives i fun k => detach (R k) depth v := by
  induction depth generalizing v with
  | zero => exact .throw nofun
  | succ depth ih =>
    cases v with
    | array a =>
      refine (L.items a).bind fun vs hvs => ?_
      refine (Judgement.Holds.mapM _ fun v hv => ih (hvs.toList v hv)).bind fun ds _ => ?_
      exact .pure trivial
    | object o =>
      exact (holds_convertEach hr (fun v hv => ih hv) hv).bind fun _ _ => .pure trivial
    | module id =>
      exact (holds_convertEach hr (fun v hv => ih hv) hv).bind fun _ _ => .pure trivial
    | _ => exact .pure trivial

omit hr in
theorem good_add {failure : Option CallFailure} (hfailure : L.Good failure) (key : String)
    {e : EvalError} (he : L.Fair e) : L.Good (CallFailure.add failure key e) := by
  cases failure with
  | none => exact he
  | some f => exact hfailure f rfl

theorem holds_plainValue (hs : L.Good s) (p : PlainProperty) :
    L.Gives i fun k => p.value (R k) s := by
  cases p with
  | keyValue key e => exact (hr _).expr hs (Nat.lt_succ_self _)
  | shorthand name => exact holds_read (hr 0) hs name

theorem holds_evalEach (hs : L.Good s) {ps : Properties} (hps : L.Good ps)
    {failure : Option CallFailure} (hfailure : L.Good failure) (plain : List PlainProperty) :
    L.Gives i fun k => evalEach (R k) s ps failure plain := by
  induction plain generalizing ps failure with
  | nil =>
    cases failure with
    | none => exact .pure hps
    | some f => exact .pure (hfailure f rfl)
  | cons p plain ih =>
    refine (holds_plainValue hr hs p).outcome.bind fun result hresult => ?_
    cases result with
    | ok v => exact ih (hps.insert p.key hresult) hfailure
    | error e =>
      have hadd := good_add hfailure p.key hresult
      exact .ite (L.throw hresult) (.ite (.pure hadd) (ih hps hadd.some))

omit hr in
theorem holds_asFailure {α : Type} [Held α] {x : L.Bound → Eval α} (h : L.Gives i x) :
    L.Gives i fun k => asFailure (x k) := by
  refine h.outcome.bind fun result hresult => ?_
  cases result with
  | ok a => exact .pure hresult
  | error e => exact .pure hresult

theorem holds_evalStyles (hs : L.Good s) (e : Expr) : L.Gives i fun k => evalStyles (R k) s e := by
  have hempty : L.Good ({} : Properties) := nofun
  unfold evalStyles
  cases plainProperties e with
  | none => exact holds_asFailure ((hr _).expr hs (Nat.lt_succ_self _))
  | some plain =>
    refine (holds_evalEach hr hs hempty .none plain).bind fun result hresult => ?_
    cases result with
    | ok ps => exact (L.newObject hresult).bind fun v hv => .pure hv
    | error f => exact .pure hresult

include hlow

omit hr in
theorem holds_force (htop : ∀ id name, L.Known id →
      L.Gives i fun k => topLevelValue (R k) id name) {key : BindingKey}
    (hkey : L.Known key.module) (hbody : ∀ id, key = .body id → L.Runnable id) :
    L.Gives i fun k => force (R k) key := by
  cases key with
  | name id name => exact (htop id name hkey).bind fun _ _ => .pure trivial
  | body id => exact (L.tables hkey).bind fun t _ => holds_runModule hlow (hbody id rfl) t
  | everything id => exact (L.tables hkey).bind fun _ _ => .pure trivial

/-- A style call has its rule where the keys that it needs are those of known modules, and those that
it needs as a whole may run. -/
theorem holds_callValue
    (htop : ∀ id name, L.Known id → L.Gives i fun k => topLevelValue (R k) id name)
    (argument : Expr) {needed : List BindingKey} (hneeded : ∀ key ∈ needed, L.Known key.module)
    (hbodies : ∀ id, .body id ∈ needed → L.Runnable id) :
    L.Gives i fun k => callValue (R k) argument needed := by
  refine (Judgement.Holds.forM needed fun key hkey => ?_).bind fun _ _ => ?_
  · have hbody (id : ModuleId) (heq : key = .body id) := hbodies id (heq ▸ hkey)
    refine (holds_force hlow htop (hneeded key hkey) hbody).outcome.bind fun result hresult => ?_
    exact .ite (.conclude hresult) (.pure trivial)
  · refine L.unit.bind fun id hid => ?_
    refine (holds_evalStyles hr (s := { module := id }) hid argument).bind fun result hresult => ?_
    cases result with
    | error f => exact .pure hresult
    | ok v => exact holds_asFailure (holds_detach hr _ hresult)

end Logic
end AtomicStyles
