import AtomicStyles.Config
import AtomicStyles.Script.References
import AtomicStyles.Script.Scope

/-!
# Finding style calls

A style call is a call of one of the configured functions, reached through an import of
the unit. Calls are matched by binding and not by name: a variable that hides the import
is not the function. A call with any other number of arguments than one, or with a
spread argument, is left alone.

## Main definitions

* `StyleImports` — the names of a unit that stand for the functions.
* `StyleCall` — a call with what its argument refers to.
* `StyleCall.detect` — the style calls of a unit, in the order of the source.
-/

namespace AtomicStyles

open Script

/-- The names of a unit that stand for style functions. -/
structure StyleImports where
  /-- The names of the functions themselves. -/
  direct : List String := []
  /-- The names of whole modules, each with the name of a function in it. -/
  modules : List (String × String) := []
deriving Repr, DecidableEq, Inhabited

namespace StyleImports

def append (a b : StyleImports) : StyleImports := ⟨a.direct ++ b.direct, a.modules ++ b.modules⟩

/-- The names that one specifier of an import of the function `name` brings. -/
def ofSpecifier (name : String) (s : ImportSpecifier) : StyleImports :=
  match s with
  | .named id _ false => if s.importedName? = some name then { direct := [id.name] } else {}
  | .everything id => { modules := [(id.name, name)] }
  | _ => {}

def ofItem (f : StyleFunction) : Item → StyleImports
  | .imports specifiers source false =>
    if source = f.source then (specifiers.map (ofSpecifier f.name)).foldl append {} else {}
  | _ => {}

/-- The names of a unit for the given functions. -/
def ofModule (m : Module) (fs : List StyleFunction) : StyleImports :=
  (m.items.flatMap fun i => fs.map fun f => ofItem f i).foldl append {}

def isEmpty (s : StyleImports) : Bool := s.direct.isEmpty && s.modules.isEmpty

/-- The name of a member, where the source shows it. -/
def memberName? : Key → Option String
  | .name s => some s
  | .computed (.str s) => some s
  | _ => none

def isFunction (s : StyleImports) (bindings : List (Nat × Binding)) : Expr → Bool
  | .ident id => s.direct.contains id.name && id.bindingIn bindings = .module
  | .member (.ident id) k =>
    id.bindingIn bindings = .module &&
      (match memberName? k with
      | some name => s.modules.contains (id.name, name)
      | none => false)
  | .paren e => s.isFunction bindings e
  | _ => false

end StyleImports

structure StyleCall where
  span : Span
  argument : Expr
  references : References
  /-- The names in the argument that are bound inside the unit's code, not at its top level. -/
  innerNames : List String
deriving Inhabited

namespace StyleCall

/-- The style call with one plain argument that a call is. -/
def ofCall (bindings : List (Nat × Binding)) (c : Call) : Option StyleCall :=
  match c.args with
  | [.spread _ _] => none
  | [e] =>
    let references := References.ofExpr e
    let ids := references.eager ++ references.deferred
    some
      { span := c.span, argument := e, references
        innerNames := Ident.texts (ids.filter fun id => id.bindingIn bindings = .inner) }
  | _ => none

/-- The style calls of a module. The inside of a style call is not searched. -/
def detect (m : Module) (fs : List StyleFunction) : List StyleCall :=
  let imports := StyleImports.ofModule m fs
  if imports.isEmpty then []
  else
    let bindings := m.bindings
    let isStyleCall (c : Call) := imports.isFunction bindings c.callee
    let nodes := m.nodes fun n => !n.call?.any isStyleCall
    (nodes.filterMap Node.call?).filterMap fun c =>
      if isStyleCall c then ofCall bindings c else none

end StyleCall
end AtomicStyles
