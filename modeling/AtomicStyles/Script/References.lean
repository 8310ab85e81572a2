import AtomicStyles.OrderedMap
import AtomicStyles.Script.Names
import AtomicStyles.Script.Node

/-!
# Free references

What a piece of code reads from around it, and what it may change there. A reference is
eager when it happens as soon as the code runs, and lazy when it happens inside a
function, that is, when and if the function is called. A name is written when it is
assigned, updated or deleted from, or when its object is handed to a call, which may
change it.

Scopes are taken coarsely: all names declared anywhere in a function body belong to the
function, and blocks outside functions are no scopes.

## Main definitions

* `Expr.root?` — the variable whose object an expression reaches into.
* `Use` — one reference, write or call.
* `References` — all of them, summed up.
-/

namespace AtomicStyles
namespace Script

/-! ### Roots -/

/-- The identifier that an expression such as `a.b[c].d` reads its object from. -/
def Expr.root? : Expr → Option Ident
  | .ident id => some id
  | .member e _ => e.root?
  | .chainMember _ e _ => e.root?
  | .paren e => e.root?
  | .typed _ e => e.root?
  | .spread e _ => e.root?
  | _ => none

mutual

/-- The identifiers that an assignment to the pattern writes, directly or through a member. -/
def Pat.roots : Pat → List Ident
  | .ident id => [id]
  | .array items => Pat.rootsList items
  | .hole => []
  | .rest p => p.roots
  | .object props => Pat.rootsProps props
  | .withDefault p _ => p.roots
  | .expr e => e.root?.toList
  | .decorated _ p => p.roots

/-- `Pat.roots` of several patterns. -/
def Pat.rootsList : List Pat → List Ident
  | [] => []
  | p :: ps => p.roots ++ Pat.rootsList ps

/-- `Pat.roots` of the properties of a pattern. -/
def Pat.rootsProps : List PatProperty → List Ident
  | [] => []
  | .keyValue _ p :: ps => p.roots ++ Pat.rootsProps ps
  | .shorthand id _ :: ps => id :: Pat.rootsProps ps
  | .rest p :: ps => p.roots ++ Pat.rootsProps ps

end

/-! ### Names declared in a function body -/

/-- Whether names declared inside the node belong to the function around it. -/
def Node.sharesNames : Node → Bool
  | .declarator _ => false
  | .decl (.func _ _ _) => false
  | .decl (.cls _ _ _) => false
  | .func _ => false
  | .expr (.arrow _ _ _) => false
  | .cls _ => false
  | _ => true

/-- The names that the left side of a loop declares. -/
def ForHead.declared (head : ForHead) (p : Pat) : List Ident :=
  match head with
  | .assign => []
  | _ => p.names

/-- The names a node declares, apart from its parts. -/
def Node.declared : Node → List Ident
  | .declarator d => d.pat.names
  | .decl (.func id _ _) => [id]
  | .decl (.cls id _ _) => [id]
  | .stmt (.forIn head p _ _) => head.declared p
  | .stmt (.forOf head p _ _ _) => head.declared p
  | _ => []

/-- The names declared anywhere in the code of a function, nested functions apart. -/
def Body.declared : Body → List String
  | .block ss =>
    (((Node.stmts ss).flatMap fun n => n.preorder Node.sharesNames).flatMap
      Node.declared).map Ident.text
  | _ => []

/-! ### Uses -/

/-- What code does to what is around it. -/
inductive Effect where
  | read (id : Ident)
  | write (id : Ident)
  | call
deriving Repr, DecidableEq, Inhabited

/-- An effect and whether it waits inside a function. -/
structure Use where
  effect : Effect
  isLazy : Bool
deriving Repr, DecidableEq, Inhabited

/-- The place of a walk over code: the names bound around it and whether it is inside a
function. -/
structure Place where
  bound : List String := []
  isLazy : Bool := false
deriving Repr, Inhabited

namespace Place

/-- The place inside a scope that binds `names`. -/
def bind (here : Place) (names : List String) : Place := { here with bound := names ++ here.bound }

/-- The place inside a function that binds `names`. -/
def enter (here : Place) (names : List String) : Place :=
  { bound := names ++ here.bound, isLazy := true }

/-- The use of an effect at a place: names bound there are not used from around it. -/
def use (here : Place) (effect : Effect) : List Use :=
  match effect with
  | .read id => if here.bound.contains id.name then [] else [⟨effect, here.isLazy⟩]
  | .write id => if here.bound.contains id.name then [] else [⟨effect, here.isLazy⟩]
  | .call => [⟨effect, here.isLazy⟩]

end Place

/-- The effects of a call: it may change its receiver and its arguments. -/
def callEffects (callee : Option Expr) (args : List Expr) : List Effect :=
  let receiver := match callee with
    | some (.member e _) => e.root?.toList
    | _ => []
  .call :: (receiver ++ args.filterMap Expr.root?).map .write

/-- The effects of a node itself, its parts apart. -/
def Node.effects : Node → List Effect
  | .ident id => [.read id]
  | .expr (.call callee args _) => callEffects (some callee) args
  | .expr (.chainCall _ callee args) => callEffects (some callee) args
  | .expr (.construct _ args) => callEffects none args
  | .expr (.tagged tag _) => callEffects (some tag) []
  | .expr (.assign _ target _) => target.roots.map .write
  | .expr (.update _ _ e) => e.root?.toList.map .write
  | .expr (.unary .delete e) => e.root?.toList.map .write
  | _ => []

def Ident.texts (ids : List Ident) : List String := ids.map Ident.text

/-- Parameters and code of a function. -/
def Place.function (here : Place) (ps : List Pat) (b : Body) : List (Place × Node) :=
  let inside := here.enter (Ident.texts (Pat.namesList ps) ++ b.declared)
  (Node.pats ps ++ [Node.body b]).map fun n => (inside, n)

/-- The identifier of the module's own that an export specifier names. -/
def Node.ownExport : ExportSpecifier → List Node
  | .named orig _ _ => Node.exportName orig
  | .everything _ => []

/-- The parts of a node that can refer to something, each with its place. -/
def Node.places (here : Place) : Node → List (Place × Node)
  | .func (.mk _ ps b _ _) => here.function ps b
  | .expr (.arrow ps b _) => here.function ps b
  | .expr (.func name f) => [(here.bind (Ident.texts name.toList), .func f)]
  | .item (.exportDefaultFunc name f) => [(here.bind (Ident.texts name.toList), .func f)]
  | .decl (.func _ f _) => [(here, .func f)]
  | .decl (.cls id c _) => [(here.bind [id.name], .cls c)]
  | .prop (.getter k b) => [(here, .key k), (here.enter (b.declared), .body b)]
  | .prop (.setter k p b) => (here, .key k) :: here.function [p] b
  | .stmt (.tryCatch ss p h f) =>
    (Node.stmts ss).map (fun n => (here, n)) ++
      [(here.bind (Ident.texts p.names), .body h), (here, .body f)]
  | .stmt (.labeled _ s) => [(here, .stmt s)]
  | .stmt (.breakTo _) => []
  | .stmt (.continueTo _) => []
  | .decl (.enum id ms _) =>
    let inside := here.bind (id.name :: Ident.texts (EnumMember.names ms))
    ms.flatMap fun m => (Node.expr? m.init).map fun n => (inside, n)
  | .decl (.interface _) => []
  | .decl (.alias _) => []
  | .decl (.region _ _) => []
  | .item (.imports _ _ _) => []
  | .item (.exportDefaultInterface _) => []
  | .item (.exports specifiers source typeOnly) =>
    if source.isSome || typeOnly then []
    else (specifiers.flatMap Node.ownExport).map fun n => (here, n)
  | n => n.children.map fun c => (here, c)

def Node.isSkipped (skipped : List Span) : Node → Bool
  | .expr (.call _ _ span) => skipped.contains span
  | _ => false

theorem Place.mem_function {here : Place} {ps : List Pat} {b : Body} {c : Place × Node}
    (h : c ∈ here.function ps b) : c.2 ∈ Node.pats ps ∨ c.2 = .body b := by
  obtain ⟨n, hn, rfl⟩ := List.mem_map.1 h
  simpa using hn

@[grind →]
theorem Node.sizeOf_le_of_mem_ownExport {s : ExportSpecifier} {c : Node}
    (h : c ∈ Node.ownExport s) : sizeOf c ≤ sizeOf s := by
  cases s <;> grind [Node.ownExport]

@[grind →]
theorem EnumMember.sizeOf_lt_of_mem_init {m : EnumMember} {c : Node} (h : c ∈ Node.expr? m.init) :
    sizeOf c < sizeOf m := by
  cases m <;> grind [EnumMember.init]

theorem Node.sizeOf_lt_of_mem_places {here : Place} {n : Node} {c : Place × Node}
    (h : c ∈ n.places here) : sizeOf c.2 < sizeOf n := by
  unfold Node.places at h
  split at h
  case h_20 =>
    obtain ⟨c, hc, rfl⟩ := List.mem_map.1 h
    exact sizeOf_lt_of_mem_children hc
  all_goals grind [→ Place.mem_function, Node.pats, → List.sizeOf_lt_of_mem]

/-- The uses in a node, in the order in which they are met. Calls whose span is in
`skipped` are left out with all that is in them. -/
def Node.uses (skipped : List Span) (here : Place) (n : Node) : List Use :=
  if n.isSkipped skipped then []
  else n.effects.flatMap here.use ++
    (n.places here).attach.flatMap fun c => Node.uses skipped c.1.1 c.1.2
termination_by sizeOf n
decreasing_by exact Node.sizeOf_lt_of_mem_places c.2

theorem Node.uses_eq (skipped : List Span) (here : Place) (n : Node) :
    n.uses skipped here = if n.isSkipped skipped then []
      else n.effects.flatMap here.use ++
        (n.places here).flatMap fun c => c.2.uses skipped c.1 := by
  rw [Node.uses,
    List.flatMap_subtype (g := fun c => Node.uses skipped c.1 c.2) fun _ _ => rfl]
  simp

/-! ### Uses where no call is left out -/

theorem Node.isSkipped_nil (n : Node) : n.isSkipped [] = false := by
  unfold Node.isSkipped
  split <;> rfl

theorem Node.mem_uses {place : Place} {n : Node} {u : Use} :
    u ∈ n.uses [] place ↔ (∃ e ∈ n.effects, u ∈ place.use e) ∨
      ∃ part ∈ n.places place, u ∈ part.2.uses [] part.1 := by
  rw [Node.uses_eq, Node.isSkipped_nil, if_neg Bool.false_ne_true, List.mem_append,
    List.mem_flatMap, List.mem_flatMap]

/-- What code refers to. No name is both eager and lazy: what is used eagerly is eager. -/
structure References where
  /-- The first eager occurrence of each name that is read. -/
  eager : List Ident := []
  /-- The first occurrence of each name that is read in functions only. -/
  deferred : List Ident := []
  writes : List String := []
  deferredWrites : List String := []
  /-- Whether a call happens outside all functions. -/
  calls : Bool := false
deriving Repr, DecidableEq, Inhabited

namespace References

/-- Identifiers without those whose name came before. -/
def distinct (ids : List Ident) : List Ident :=
  ids.foldl (fun acc id => if (Ident.texts acc).contains id.name then acc else acc ++ [id]) []

/-- Names without repetitions. -/
def distinctNames (names : List String) : List String :=
  names.foldl (fun acc name => if acc.contains name then acc else acc ++ [name]) []

def reads (isLazy : Bool) (uses : List Use) : List Ident :=
  distinct (uses.filterMap fun
    | ⟨.read id, l⟩ => if l = isLazy then some id else none
    | _ => none)

def written (isLazy : Bool) (uses : List Use) : List String :=
  distinctNames (uses.filterMap fun
    | ⟨.write id, l⟩ => if l = isLazy then some id.name else none
    | _ => none)

/-- The sum of uses. -/
def ofUses (uses : List Use) : References :=
  let eager := reads false uses
  let writes := written false uses
  { eager, writes
    deferred := (reads true uses).filter fun id => !(Ident.texts eager).contains id.name
    deferredWrites := (written true uses).filter fun name => !writes.contains name
    calls := uses.any fun u => u = ⟨.call, false⟩ }

/-- The references of nodes where `bound` are bound already. -/
def ofNodes (bound : List String) (skipped : List Span) (ns : List Node) : References :=
  ofUses (ns.flatMap fun n => n.uses skipped { bound })

def ofExpr (e : Expr) : References := ofNodes [] [] [.expr e]

/-- The references of a declarator, apart from the names it binds. -/
def ofDeclarator (d : Declarator) : References :=
  ofNodes (Ident.texts d.pat.names) [] [.declarator d]

/-- The references of a function, all of them lazy. -/
def ofFunc (name : Option Ident) (f : Func) : References :=
  ofNodes (Ident.texts name.toList) [] [.func f]

def ofDecl (d : Decl) : References := ofNodes [] [] [.decl d]

def ofItem (skipped : List Span) (i : Item) : References :=
  ofNodes [] skipped [.item i]

/-- The references of the items of a module to names other than `declared`. -/
def ofItems (declared : List String) (items : List Item) : References :=
  ofNodes declared [] (items.map .item)

/-- Whether the code reads nothing from around it. -/
def isEmpty (r : References) : Bool := r.eager.isEmpty && r.deferred.isEmpty

/-- All names that are read, the eager ones first. -/
def names (r : References) : List String := Ident.texts r.eager ++ Ident.texts r.deferred

end References

end Script
end AtomicStyles
