import AtomicStyles.Eval.Statements

/-!
# Modules at work

A module whose top-level code may have effects runs as a whole; of any other module each
declaration is evaluated when its name is first read. Either happens at most once, and a
failure is kept.

## Main definitions

* `Eval.runOnce`, `Eval.evalOnce` — work that is done at most once.
* `Eval.runModule` — the top-level code of a module.
* `Eval.forceDeclaration` — one declaration of a module.
* `Eval.topLevelValue` — the value of a name at the top level of a module.
* `Eval.exportValue` — the value of an export.
-/

namespace AtomicStyles

open Script

namespace Eval

/-! ### Work that is done once -/

/-- What has become of a module. -/
def instanceOf (id : ModuleId) : Eval Instance := return (← get).instanceOf id

def setStatus (id : ModuleId) (status : ModuleStatus) : Eval Unit :=
  modify fun m => m.modifyInstance id fun i => { i with status }

def setBinding (id : ModuleId) (name : String) (status : BindingStatus) : Eval Unit :=
  modify fun m => m.modifyInstance id fun i => { i with bindings := i.bindings.insert name status }

/-- Keeps in mind that the evaluation of what a key stands for has begun. -/
def recordStart (key : BindingKey) : Eval Unit :=
  modify fun m => { m with begun := key :: m.begun }

/-- One more than a count. -/
def increment (n : Option Nat) : Nat := n.getD 0 + 1

def reportModule (id : ModuleId) : Eval Unit :=
  modify fun m =>
    { m with report := { m.report with modules := m.report.modules.alter id increment } }

def reportBinding (id : ModuleId) (name : String) : Eval Unit :=
  modify fun m =>
    { m with
      report := { m.report with bindings := m.report.bindings.alter (.name id name) increment } }

def beginModule (id : ModuleId) : Eval Unit := do
  setStatus id .running
  recordStart (.body id)
  reportModule id
  beginInitializing

def endModule (id : ModuleId) (status : ModuleStatus) : Eval Unit := do
  endInitializing
  setStatus id status

/-- Runs the top-level code of a module unless that has been done. A module that is reached again
while it runs shows what it has initialized so far. -/
def runOnce (id : ModuleId) (body : Eval Unit) : Eval Unit := do
  match (← instanceOf id).status with
  | .done => return ()
  | .running => return ()
  | .failed e => throw e
  | .pending =>
    beginModule id
    let result ← outcome body
    endModule id (.ofResult result)
    conclude result

def beginBinding (id : ModuleId) (name : String) : Eval Unit := do
  setBinding id name .evaluating
  recordStart (.name id name)
  beginInitializing

/-- Keeps what the evaluation of a declaration has come to, success with the names it has bound. -/
def endBinding (id : ModuleId) (name : String) (result : Except EvalError (List String)) :
    Eval Unit := do
  endInitializing
  match result with
  | .ok names =>
    names.forM fun name => setBinding id name .ready
    setBinding id name .ready
    reportBinding id name
  | .error e =>
    setBinding id name (.failed e)
    throw e

/-- Evaluates a declaration, which gives the names it has bound, unless that has been done. -/
def evalOnce (id : ModuleId) (name : String) (declaration : Eval (List String)) : Eval Unit := do
  match (← instanceOf id).bindings.get? name with
  | some .ready => return ()
  | some .evaluating => throw (.circular id name)
  | some (.failed e) => throw e
  | none =>
    beginBinding id name
    let result ← outcome declaration
    endBinding id name result

/-! ### Whole modules -/

def itemVarNames : Item → List Ident
  | .stmt s => s.varNames
  | .exportDecl (.var .var ds _) => Declarator.names ds
  | _ => []

/-- Declares what an item makes known from the start. -/
def hoistItem (s : Scope) : Item → Eval Unit
  | .stmt (.decl d) => hoistDecl s d
  | .exportDecl d => hoistDecl s d
  | .exportDefaultFunc name f => do
    let name := name.map Ident.text
    declare s (name.getD Tables.defaultName) (some (← newFunc s name f)) true
  | .exportDefaultExpr _ => declare s Tables.defaultName none false
  | _ => return ()

def runItem (r : Interp) (s : Scope) : Item → Eval Unit
  | .stmt stmt => do
    match ← r.stmt s stmt with
    | .normal => return ()
    | _ => unsupported .topLevelJump
  | .exportDecl d => runDecl r s d
  | .exportDefaultExpr e => do declare s Tables.defaultName (some (← r.expr s e)) false
  | .exportDefaultClass _ _ => unsupported .classDeclaration
  | .importEquals _ _ => unsupported .moduleDialect
  | .exportAssignment _ => unsupported .moduleDialect
  | .namespaceExport _ => unsupported .moduleDialect
  | .imports _ _ _ => return ()
  | .exports _ _ _ => return ()
  | .exportAll _ _ => return ()
  | .exportDefaultFunc _ _ => return ()
  | .exportDefaultInterface _ => return ()

/-- Runs the top-level code of a module. -/
def runItems (r : Interp) (s : Scope) (items : List Item) : Eval Unit := do
  declareVars s (items.flatMap itemVarNames)
  items.forM (hoistItem s)
  items.forM (runItem r s)

/-- Runs the top-level code of a module that has not run. -/
def runModule (r : Interp) (id : ModuleId) (t : Tables) : Eval Unit :=
  runOnce id (runItems r { module := id } t.module.items)

/-! ### Single declarations -/

/-- The value that a variable starts with. -/
def initialValue (r : Interp) (s : Scope) : Option Expr → Eval Value
  | some e => r.expr s e
  | none => return .undefined

/-- Evaluates the declaration of a name; gives the names it has bound. A `var` by itself is like
any other declaration. -/
def evalDeclaration (r : Interp) (t : Tables) (s : Scope) (name : String) : Eval (List String) := do
  match t.declaration? name with
  | some (.var d kind) =>
    let v ← initialValue r s d.init
    r.bind s (if kind = .const then .const else .lexical) d.pat v
    return d.pat.names.map Ident.text
  | some (.func id f) =>
    declare s name (some (← newFunc s (id.map Ident.text) f)) true
    return [name]
  | some (.enum _ members) =>
    declare s name (some (← evalEnum r s members)) false
    return [name]
  | some (.value e) =>
    declare s name (some (← r.expr s e)) false
    return [name]
  | some (.cls _) => unsupported .classDeclaration
  | none => throw (.uninitialized name)

/-- Evaluates the declaration of a name unless that has been done. -/
def forceDeclaration (r : Interp) (id : ModuleId) (t : Tables) (name : String) : Eval Unit :=
  evalOnce id name (evalDeclaration r t { module := id } name)

/-! ### Imports and exports -/

def importValue (r : Interp) (importer : ModuleId) (i : Import) : Eval Value := do
  match i.source with
  | .error e => throw (.unresolvedImport importer i.specifier e)
  | .ok target =>
    match i.imported.exportName? with
    | none =>
      let _ ← tables target
      return .module target
    | some name => r.exported target name

/-- Whether the top-level code of a module runs as a whole. -/
def runsWhole (t : Tables) : Eval Bool := return (← get).graph.runsWhole t

/-- Evaluates what gives a declared name its value. -/
def prepare (r : Interp) (id : ModuleId) (t : Tables) (name : String) : Eval Unit := do
  if ← runsWhole t then runModule r id t else forceDeclaration r id t name

/-- The value of a name at the top level of a module: a declaration, an import, or a global
name. -/
def topLevelValue (r : Interp) (id : ModuleId) (name : String) : Eval Value := do
  let t ← tables id
  if t.declarations.contains name then
    prepare r id t name
    match ← lookup { module := id } name with
    | some { value := some v, .. } => return v
    | _ => throw (.uninitialized name)
  else
    match t.imports.get? name with
    | some i => importValue r id i
    | none => global name

/-- A search for an export that also says which modules it has been to. -/
abbrev ExportSearch := List ModuleId → Eval (Except EvalError Value × List ModuleId)

/-- Looks for an export in a module that is re-exported as a whole. -/
def searchStar (find : ModuleId → ExportSearch) (importer : ModuleId) (star : Star) :
    ExportSearch := fun visited =>
  match star.source with
  | .ok target => find target visited
  | .error e => return (.error (.unresolvedImport importer star.specifier e), visited)

/-- Looks for an export in all that a module re-exports as a whole. A module that lacks it or cannot
be loaded leaves the search to the next one. -/
def searchStars (find : ModuleId → ExportSearch) (importer : ModuleId) (missing : EvalError)
    (first : Option EvalError) : List Star → ExportSearch
  | [], visited => return (.error (first.getD missing), visited)
  | star :: stars, visited => do
    let (found, visited) ← searchStar find importer star visited
    match found with
    | .error (.missingExport _ _) => searchStars find importer missing first stars visited
    | .error (.unresolvedImport a b c) =>
      searchStars find importer missing (first <|> some (.unresolvedImport a b c)) stars visited
    | .error (.load e) =>
      searchStars find importer missing (first <|> some (.load e)) stars visited
    | found => return (found, visited)

/-- Looks for an export in a module with given tables. -/
def searchTables (r : Interp) (name : String) (find : ModuleId → ExportSearch) (id : ModuleId)
    (t : Tables) : ExportSearch := fun visited => do
  match t.exports.get? name with
  | some (.own own) => return (← outcome (r.topLevel id own), visited)
  | some (.reexport i) => return (← outcome (importValue r id i), visited)
  | none =>
    let missing := EvalError.missingExport id name
    if name = "default" then return (.error missing, visited)
    else searchStars find id missing none t.stars visited

/-- The value of an export of a module. A module that has been visited on the way has nothing to
offer. -/
def searchExport (r : Interp) (name : String) : Nat → ModuleId → ExportSearch
  | 0, _, visited => return (.error .endless, visited)
  | fuel + 1, id, visited => do
    if visited.contains id then return (.error (.missingExport id name), visited)
    else
      match ← outcome (tables id) with
      | .error e => return (.error e, id :: visited)
      | .ok t => searchTables r name (searchExport r name fuel) id t (id :: visited)

def exportValue (r : Interp) (id : ModuleId) (name : String) : Eval Value := do
  let (found, _) ← searchExport r name (← nesting) id []
  conclude found

def force (r : Interp) : BindingKey → Eval Unit
  | .name id name => do let _ ← topLevelValue r id name
  | .body id => do runModule r id (← tables id)
  | .everything id => do let _ ← tables id

end Eval
end AtomicStyles
