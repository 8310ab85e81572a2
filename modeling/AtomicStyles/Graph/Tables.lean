import AtomicStyles.Files.Loader
import AtomicStyles.Script.References

/-!
# The tables of a module

What a module imports, exports and declares at its top level, and what its top-level
code may change when it runs.

## Main definitions

* `Tables` — the tables of a module.
* `Tables.build` — the tables of a parsed module.
* `Tables.declarationReferences`, `Tables.bodyReferences` — what a declaration, and the
  whole top-level code, refers to.
* `Tables.itemWrites` — the top-level names that an item may change.
-/

namespace AtomicStyles

open Script

/-- What is imported from another module. -/
inductive ImportedName where
  | named (name : String)
  | default
  | everything
deriving Repr, DecidableEq, Inhabited

namespace ImportedName

/-- The import of the export called `name`. -/
def ofName (name : String) : ImportedName := if name = "default" then default else named name

/-- The name of the export that is read; `none` for a whole module. -/
def exportName? : ImportedName → Option String
  | named name => some name
  | default => some "default"
  | everything => none

end ImportedName

/-- Where an import or a re-export points. A specifier that names no module matters only when
the import is needed. -/
structure Import where
  specifier : String
  imported : ImportedName
  source : Except ResolveError ModuleId

/-- What an export gives. -/
inductive Export where
  /-- A top-level name of the module, declared or imported. -/
  | own (name : String)
  | reexport (i : Import)

/-- A re-export of all of another module. -/
structure Star where
  specifier : String
  source : Except ResolveError ModuleId

/-- Where a top-level name is declared: the index of the item, and of the declarator in it. -/
inductive DeclarationSite where
  | var (item declarator : Nat)
  | func (item : Nat)
  | cls (item : Nat)
  | enum (item : Nat)
  /-- The value of `export default`. -/
  | value (item : Nat)
deriving Repr, DecidableEq, Inhabited

def DeclarationSite.item : DeclarationSite → Nat
  | var i _ => i
  | func i => i
  | cls i => i
  | enum i => i
  | value i => i

/-- A declaration with its code. -/
inductive DeclarationForm where
  | var (d : Declarator) (kind : VarKind)
  | func (name : Option Ident) (f : Func)
  | cls (c : Script.Class)
  | enum (id : Ident) (members : List EnumMember)
  | value (e : Expr)

structure Tables where
  id : ModuleId
  module : Module
  imports : OrderedMap String Import := {}
  exports : OrderedMap String Export := {}
  stars : List Star := []
  declarations : OrderedMap String DeclarationSite := {}
  /-- Whether importing the module runs more than its declarations, or a declaration may
  change another top-level name. -/
  hasEffects : Bool := false

namespace Tables

/-- The name under which an unnamed default export is kept. -/
def defaultName : String := "*default*"

/-! ### Building the tables -/

def declare (t : Tables) (site : DeclarationSite) (name : String) : Tables :=
  { t with declarations := t.declarations.insert name site }

def addExport (t : Tables) (name : String) (e : Export) : Tables :=
  { t with exports := t.exports.insert name e }

/-- The names of a declaration with their sites; ambient declarations and types have none. -/
def declared (item : Nat) : Decl → List (String × DeclarationSite)
  | .var _ _ true => []
  | .var _ ds false =>
    ds.zipIdx.flatMap fun (d, i) => d.pat.names.map fun id => (id.name, .var item i)
  | .func id _ isDeclare => if isDeclare then [] else [(id.name, .func item)]
  | .cls id _ isDeclare => if isDeclare then [] else [(id.name, .cls item)]
  | .enum id _ isDeclare => if isDeclare then [] else [(id.name, .enum item)]
  | .using _ => []
  | .interface _ => []
  | .alias _ => []
  | .region _ _ => []

/-- Whether a declaration does more than declare. -/
def runsCode : Decl → Bool
  | .using _ => true
  | _ => false

def addDecl (t : Tables) (item : Nat) (d : Decl) : Tables :=
  let t := (declared item d).foldl (fun t (name, site) => t.declare site name) t
  { t with hasEffects := t.hasEffects || runsCode d }

/-- What a specifier imports; `none` for a type. -/
def importedOf : ImportSpecifier → Option ImportedName
  | .named _ _ true => none
  | .named id none false => some (.named id.name)
  | .named _ (some name) false => some (.ofName name.text)
  | .default _ => some .default
  | .everything _ => some .everything

def addImports (t : Tables) (specifier : String) (source : Except ResolveError ModuleId)
    (specifiers : List ImportSpecifier) : Tables :=
  specifiers.foldl (fun t s =>
    match importedOf s with
    | some imported =>
      { t with imports := t.imports.insert s.binding.name { specifier, imported, source } }
    | none => t) t

/-- Adds the exports of an export clause of the module's own names. -/
def addOwnExports (t : Tables) (specifiers : List ExportSpecifier) : Tables :=
  specifiers.foldl (fun t s =>
    match s with
    | .named orig exported false =>
      t.addExport ((exported.getD orig).text) (.own orig.text)
    | _ => t) t

/-- Adds the exports of an export clause that names another module. -/
def addReexports (t : Tables) (specifier : String) (source : Except ResolveError ModuleId)
    (specifiers : List ExportSpecifier) : Tables :=
  specifiers.foldl (fun t s =>
    match s with
    | .named _ _ true => t
    | .named orig exported false =>
      t.addExport ((exported.getD orig).text)
        (.reexport { specifier, imported := .ofName orig.text, source })
    | .everything name =>
      t.addExport name.text (.reexport { specifier, imported := .everything, source })) t

/-- Adds a default export kept under `name`. -/
def addDefault (t : Tables) (site : DeclarationSite) (name : Option Ident) : Tables :=
  let name := (name.map Ident.text).getD defaultName
  (t.declare site name).addExport "default" (.own name)

/-- Whether a statement that is no declaration does nothing when it runs. -/
def isInert : Stmt → Bool
  | .empty => true
  | .expr (.str _) _ => true
  | _ => false

def addItem (resolve : String → Except ResolveError ModuleId) (t : Tables) (entry : Item × Nat) :
    Tables :=
  let (i, item) := entry
  match i with
  | .imports specifiers source typeOnly =>
    if typeOnly then t else t.addImports source (resolve source) specifiers
  | .exportDecl d =>
    (declared item d).foldl (fun t (name, _) => t.addExport name (.own name)) (t.addDecl item d)
  | .exports specifiers source typeOnly =>
    if typeOnly then t
    else match source with
      | some source => t.addReexports source (resolve source) specifiers
      | none => t.addOwnExports specifiers
  | .exportDefaultFunc name _ => t.addDefault (.func item) name
  | .exportDefaultClass name _ => t.addDefault (.cls item) name
  | .exportDefaultInterface _ => t
  | .exportDefaultExpr _ => t.addDefault (.value item) none
  | .exportAll source typeOnly =>
    if typeOnly then t else { t with stars := t.stars ++ [⟨source, resolve source⟩] }
  | .stmt (.decl d) => t.addDecl item d
  | .stmt s => { t with hasEffects := t.hasEffects || !isInert s }
  | .importEquals _ _ => { t with hasEffects := true }
  | .exportAssignment _ => { t with hasEffects := true }
  | .namespaceExport _ => { t with hasEffects := true }

/-! ### References -/

def item? (t : Tables) (i : Nat) : Option Item := t.module.items[i]?

def formOf (site : DeclarationSite) (d : Decl) : Option DeclarationForm :=
  match site, d with
  | .var _ i, .var kind ds _ => ds[i]?.map fun d => .var d kind
  | .func _, .func id f _ => some (.func (some id) f)
  | .cls _, .cls _ c _ => some (.cls c)
  | .enum _, .enum id ms _ => some (.enum id ms)
  | _, _ => none

def declaration? (t : Tables) (name : String) : Option DeclarationForm := do
  let site ← t.declarations.get? name
  match ← t.item? site.item with
  | .stmt (.decl d) => formOf site d
  | .exportDecl d => formOf site d
  | .exportDefaultFunc name f => some (.func name f)
  | .exportDefaultClass _ c => some (.cls c)
  | .exportDefaultExpr e => some (.value e)
  | _ => none

/-- What the declaration of a top-level name refers to. A class refers to nothing. -/
def declarationReferences (t : Tables) (name : String) : References :=
  match t.declaration? name with
  | some (.var d _) => .ofDeclarator d
  | some (.func name f) => .ofFunc name f
  | some (.enum id ms) => .ofDecl (.enum id ms false)
  | some (.value e) => .ofExpr e
  | some (.cls _) => {}
  | none => {}

/-- What the top-level code refers to apart from the module's own declarations. -/
def bodyReferences (t : Tables) : References :=
  .ofItems t.declarations.keys t.module.items

/-! ### Writes -/

/-- What each item refers to, calls whose span is in `skipped` apart. -/
def itemReferences (t : Tables) (skipped : List Span) : List References :=
  t.module.items.map (References.ofItem skipped)

/-- The writes of all items that can be reached from the names on `pending` through
declarations; `fuel` bounds how many names are looked at. -/
def reachedWrites (t : Tables) (items : List References) :
    Nat → List String → List Nat → List String → List String
  | 0, _, _, writes => writes
  | _ + 1, [], _, writes => writes
  | fuel + 1, name :: pending, visited, writes =>
    match t.declarations.get? name with
    | none => reachedWrites t items fuel pending visited writes
    | some site =>
      if visited.contains site.item then reachedWrites t items fuel pending visited writes
      else
        match items[site.item]? with
        | none => reachedWrites t items fuel pending (site.item :: visited) writes
        | some r =>
          reachedWrites t items fuel (r.names.reverse ++ pending) (site.item :: visited)
            (writes ++ r.writes ++ r.deferredWrites)

/-- How many names the search through declarations can meet. -/
def nameCount (items : List References) : Nat :=
  (items.map fun r => r.names.length).foldl (· + ·) 1

/-- Whether a name is declared or imported at the top level. -/
def isOwn (t : Tables) (name : String) : Bool :=
  t.declarations.contains name || t.imports.contains name

/-- The top-level names that an item may change when it runs. When it runs a call, all
functions that it can reach through the module's declarations count. -/
def itemWrites (t : Tables) (items : List References) (item : Nat) : List String :=
  match items[item]? with
  | none => []
  | some r =>
    let writes :=
      if r.calls then
        reachedWrites t items (nameCount items) r.names.reverse [item]
          (r.writes ++ r.deferredWrites)
      else r.writes
    (References.distinctNames writes).filter t.isOwn

def writes (t : Tables) (skipped : List Span) : List (List String) :=
  let items := t.itemReferences skipped
  (List.range items.length).map (t.itemWrites items)

/-- The tables of a module; `resolve` finds the modules it names. -/
def build (id : ModuleId) (m : Module) (resolve : String → Except ResolveError ModuleId) :
    Tables :=
  let t := m.items.zipIdx.foldl (addItem resolve) { id, module := m }
  { t with hasEffects := t.hasEffects || (t.writes []).any fun ws => !ws.isEmpty }

end Tables
end AtomicStyles
