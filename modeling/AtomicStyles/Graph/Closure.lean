import AtomicStyles.Graph.Cache
import AtomicStyles.Graph.Key
import AtomicStyles.Site.Detect

/-!
# What a style call needs

The closure of a style call: the keys its argument reads as soon as it is evaluated,
dependencies first, and the keys that are only reachable through functions. Names that
occur in functions only may lead nowhere: they fail when and if they are read.

## Main definitions

* `Unresolved` — why a style call has no closure.
* `Graph.exported` — the key that an export of a module stands for.
* `Graph.edges` — the keys that a key depends on.
* `Graph.closure` — the closure of a style call.
-/

namespace AtomicStyles

open Script

/-- Why a style call cannot be evaluated ahead of time. -/
inductive Unresolved where
  | unresolvedImport (importer : ModuleId) (specifier : String) (cause : ResolveError)
  | load (cause : LoadError)
  | missingExport (module : ModuleId) (name : String)
  | circular (chain : List BindingKey)
  | innerBinding (name : String)
  | modified (name : String)
  /-- The search goes on without end: re-exports that lead back to themselves. -/
  | endless
deriving Repr, DecidableEq, Inhabited

namespace Unresolved

/-- A chain of keys that ends where it starts, in words. -/
def chainText (chain : List BindingKey) : String :=
  "Circular dependency: " ++ " -> ".intercalate (chain.map BindingKey.text)

def importText (importer : ModuleId) (specifier : String) (cause : ResolveError) : String :=
  "Cannot resolve '" ++ specifier ++ "' imported by " ++ importer ++ ": " ++ cause.message

def exportText (module : ModuleId) (name : String) : String :=
  module ++ " does not export '" ++ name ++ "'"

def message : Unresolved → String
  | unresolvedImport importer specifier cause => importText importer specifier cause
  | load cause => cause.message
  | missingExport module name => exportText module name
  | circular chain => chainText chain
  | innerBinding name =>
    "'" ++ name ++ "' is bound inside an enclosing function and is only known at runtime"
  | modified name =>
    "'" ++ name ++ "' is modified by top-level code of the unit that is not evaluated at build time"
  | endless => "Circular re-exports"

/-- Whether the failure is only that a module lacks an export. -/
def isMissingExport : Unresolved → Bool
  | missingExport _ _ => true
  | _ => false

end Unresolved

/-- The keys that a key depends on: those read at once, and those read inside functions. -/
structure Edges where
  eager : List BindingKey := []
  deferred : List BindingKey := []
deriving Repr, DecidableEq, Inhabited

/-- What a style call needs. -/
structure Closure where
  /-- The keys read when the argument is evaluated, dependencies first. -/
  order : List BindingKey := []
  /-- The keys that are only reachable through functions. -/
  deferred : List BindingKey := []
  modules : List ModuleId := []
deriving Repr, DecidableEq, Inhabited

/-- What is known so far while style calls are resolved. -/
structure Resolution where
  cache : ModuleCache := {}
  edges : OrderedMap BindingKey (Except Unresolved Edges) := {}

/-- A search that can fail and keeps what it learned in any case. -/
abbrev Resolving := ExceptT Unresolved (StateM Resolution)

/-- The outcome of a search, success or failure; a search that does not end has none. -/
def Unresolved.settle {α : Type} : Except Unresolved α → Except Unresolved (Except Unresolved α)
  | .error .endless => .error .endless
  | result => .ok result

/-- Goes on with the outcome of a search, success or failure. -/
def Resolving.outcome {α : Type} (x : Resolving α) : Resolving (Except Unresolved α) := do
  ofExcept (Unresolved.settle (← ExceptT.lift x.run))

namespace Graph

/-- The tables of a module, as part of a search. -/
def lookup (g : Graph) (id : ModuleId) : Resolving Tables := do
  let (t, cache) := g.tables id (← get).cache
  modify fun r => { r with cache }
  match t with
  | .ok t => return t
  | .error e => throw (.load e)

/-! ### Names to keys -/

/-- The key an import stands for; `find` looks for an export of a module. -/
def follow (g : Graph) (find : Tables → String → Resolving BindingKey) (importer : ModuleId)
    (i : Import) : Resolving BindingKey := do
  match i.source with
  | .error e => throw (.unresolvedImport importer i.specifier e)
  | .ok target =>
    match i.imported.exportName? with
    | none => return .everything target
    | some name => find (← g.lookup target) name

/-- The key a top-level name stands for; `none` for a name that the module neither declares nor
imports. -/
def bindVia (g : Graph) (find : Tables → String → Resolving BindingKey) (t : Tables)
    (name : String) : Resolving (Option BindingKey) := do
  if t.declarations.contains name then return some (.name t.id name)
  else
    match t.imports.get? name with
    | some i => return some (← g.follow find t.id i)
    | none => return none

/-- A search that also says which modules it has been to. -/
abbrev Search := List ModuleId → Resolving (Except Unresolved BindingKey × List ModuleId)

/-- Looks for an export in a module that is re-exported as a whole. -/
def searchStar (g : Graph) (find : Tables → Search) (importer : ModuleId) (s : Star) : Search :=
  fun visited => do
    match s.source with
    | .error e => return (.error (.unresolvedImport importer s.specifier e), visited)
    | .ok target =>
      match ← (g.lookup target).outcome with
      | .ok t => find t visited
      | .error e => return (.error e, visited)

/-- Looks for an export in all that a module re-exports as a whole. Another module may still have
the export, so a failure counts only when none has it. -/
def searchStars (g : Graph) (find : Tables → Search) (importer : ModuleId) (missing : Unresolved)
    (first : Option Unresolved) : List Star → Search
  | [], visited => return (.error (first.getD missing), visited)
  | s :: ss, visited => do
    let (found, visited) ← g.searchStar find importer s visited
    match found with
    | .ok k => return (.ok k, visited)
    | .error e =>
      let first := if e.isMissingExport then first else first <|> some e
      searchStars g find importer missing first ss visited

/-- The key that an export of a module stands for. A module that has been visited on the way
has nothing to offer. -/
def searchExport (g : Graph) : Nat → Tables → String → Search
  | 0, _, _, _ => throw .endless
  | fuel + 1, t, name, visited => do
    let missing := Unresolved.missingExport t.id name
    if visited.contains t.id then return (.error missing, visited)
    else
      let visited := t.id :: visited
      let find (t : Tables) (name : String) : Resolving BindingKey := do
        let (found, _) ← searchExport g fuel t name []
        ofExcept found
      match t.exports.get? name with
      | some (.own own) =>
        match ← (g.bindVia find t own).outcome with
        | .ok (some k) => return (.ok k, visited)
        | .ok none => return (.error missing, visited)
        | .error e => return (.error e, visited)
      | some (.reexport i) => return (← (g.follow find t.id i).outcome, visited)
      | none =>
        if name = "default" then return (.error missing, visited)
        else searchStars g (fun t => searchExport g fuel t name) t.id missing none t.stars visited

def exported (g : Graph) (t : Tables) (name : String) : Resolving BindingKey := do
  let (found, _) ← g.searchExport g.limit t name []
  ofExcept found

/-- The key that a top-level name of a module stands for. -/
def bind (g : Graph) (t : Tables) (name : String) : Resolving (Option BindingKey) :=
  g.bindVia g.exported t name

/-! ### Dependencies between keys -/

/-- The keys of the names that are read at once. -/
def bindEager (g : Graph) (t : Tables) (names : List String) : Resolving (List BindingKey) := do
  return (← names.mapM (g.bind t)).filterMap id

/-- The key that a search finds, or none where it fails. -/
def orNone (x : Resolving (Option BindingKey)) : Resolving (Option BindingKey) := do
  match ← x.outcome with
  | .ok k => return k
  | .error _ => return none

def succeeding (searches : List (Resolving (Option BindingKey))) : Resolving (List BindingKey) := do
  return (← searches.mapM orNone).filterMap id

/-- The keys of what code in a module refers to. Names that are read inside functions and lead
nowhere are left out. -/
def bindReferences (g : Graph) (t : Tables) (r : References) : Resolving Edges := do
  let eager ← g.bindEager t (Ident.texts r.eager)
  let deferred ← succeeding ((Ident.texts r.deferred).map (g.bind t))
  return { eager, deferred }

/-- The key of a module that is re-exported as a whole, if it can be loaded. -/
def starKey (g : Graph) (s : Star) : Resolving (Option BindingKey) := do
  match s.source with
  | .error _ => return none
  | .ok target =>
    let _ ← g.lookup target
    return some (.everything target)

/-- The keys that a key depends on, given the tables of its module. -/
def edgesIn (g : Graph) (t : Tables) : BindingKey → Resolving Edges
  | .name id name =>
    if g.runsWhole t then return { eager := [.body id] }
    else g.bindReferences t (t.declarationReferences name)
  | .body _ => g.bindReferences t t.bodyReferences
  | .everything _ => do
    let names ← succeeding (t.exports.keys.map fun name => some <$> g.exported t name)
    let stars ← succeeding (t.stars.map g.starKey)
    return { eager := names ++ stars }

/-- The keys that a key depends on, found anew. -/
def freshEdges (g : Graph) (k : BindingKey) : Resolving Edges := do
  g.edgesIn (← g.lookup k.module) k

/-- The keys that a key depends on, computed once. -/
def edges (g : Graph) (k : BindingKey) : Resolving Edges := do
  match (← get).edges.get? k with
  | some e => ofExcept e
  | none =>
    let e ← (g.freshEdges k).outcome
    modify fun r => { r with edges := r.edges.insert k e }
    ofExcept e

/-! ### Closures -/

/-- Adds a key to the order after all keys it depends on. `stack` holds the keys whose
dependencies are being added, the latest first. -/
def visit (g : Graph) : Nat → List BindingKey → List BindingKey → BindingKey →
    Resolving (List BindingKey)
  | 0, _, _, _ => throw .endless
  | fuel + 1, stack, order, k => do
    if order.contains k then return order
    else if stack.contains k then
      throw (.circular ((stack.takeWhile (· != k) ++ [k]).reverse ++ [k]))
    else
      let e ← g.edges k
      return (← e.eager.foldlM (visit g fuel (k :: stack)) order) ++ [k]

/-- All keys that can be reached from those in the queue, nearest first. -/
def reach (g : Graph) : Nat → List BindingKey → List BindingKey → Resolving (List BindingKey)
  | 0, seen, queue => if queue.all seen.contains then return seen else throw .endless
  | fuel + 1, seen, queue => do
    match queue.dropWhile seen.contains with
    | [] => return seen
    | k :: queue =>
      match ← (g.edges k).outcome with
      | .ok e => reach g fuel (seen ++ [k]) (queue ++ e.eager ++ e.deferred)
      | .error _ => reach g fuel (seen ++ [k]) queue

/-- The items of the unit that may change something, with the names they declare. -/
def unitWrites (g : Graph) (styleCalls : List Span) : List (List String × List String) :=
  let declares (item : Nat) := g.entry.declarations.entries.filterMap fun (name, site) =>
    if site.item = item then some name else none
  (g.entry.writes styleCalls).zipIdx.filterMap fun (writes, item) =>
    if writes.isEmpty then none else some (declares item, writes)

/-- Refuses a name whose key is needed. -/
def checkName (g : Graph) (needed : List BindingKey) (name : String) : Resolving Unit := do
  match ← (g.bind g.entry name).outcome with
  | .ok (some k) => if needed.contains k then throw (.modified name)
  | _ => return ()

/-- Refuses an item that writes a name whose key is needed, unless the item is evaluated itself. -/
def checkItem (g : Graph) (needed : List BindingKey) : List String × List String → Resolving Unit
  | (declares, writes) =>
    if declares.any fun name => needed.contains (.name g.entry.id name) then return ()
    else writes.forM (g.checkName needed)

/-- Only the unit's names in the closure are evaluated, so what it needs may not be changed by
the rest of the unit's top-level code. -/
def checkWrites (g : Graph) (needed : List BindingKey) (items : List (List String × List String)) :
    Resolving Unit := items.forM (g.checkItem needed)

def modulesOf (keys : List BindingKey) : List ModuleId :=
  References.distinctNames (keys.map BindingKey.module)

/-- The closure of a style call; `writes` is what the unit's items may change. -/
def closure (g : Graph) (writes : List (List String × List String)) (c : StyleCall) :
    Resolving Closure := do
  match c.innerNames with
  | name :: _ => throw (.innerBinding name)
  | [] =>
    let roots ← g.bindReferences g.entry c.references
    let order ← roots.eager.foldlM (g.visit g.limit []) []
    let reached ← g.reach g.limit [] (roots.eager ++ roots.deferred)
    let deferred := reached.filter fun k => !order.contains k
    g.checkWrites (order ++ deferred) writes
    return { order, deferred, modules := modulesOf (order ++ deferred) }

def closures (g : Graph) (calls : List StyleCall) (r : Resolution) :
    List (Except Unresolved Closure) × Resolution :=
  let writes := g.unitWrites (calls.map StyleCall.span)
  (calls.mapM fun c => (g.closure writes c).run) r

end Graph
end AtomicStyles
