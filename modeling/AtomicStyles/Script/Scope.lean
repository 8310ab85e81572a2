import AtomicStyles.Script.Names
import AtomicStyles.Script.Node

/-!
# Lexical scoping

Where each identifier of a module is declared: in no place of the module (a global),
at its top level, or in a function, block or other scope inside it. Functions and
classes declared in a block belong to the block; a `var` belongs to the function around
it.

## Main definitions

* `Binding` — where a name is declared.
* `Env` — the scopes around a place.
* `Module.bindings` — the binding of each identifier, by its position.
-/

namespace AtomicStyles
namespace Script

inductive Binding where
  | global
  | module
  | inner
deriving Repr, DecidableEq, Inhabited

/-- The scopes around a place: the inner ones, nearest first, and the top level. -/
structure Env where
  inner : List (List String) := []
  top : List String := []
deriving Repr, Inhabited

namespace Env

/-- The environment inside a new scope. -/
def push (env : Env) (names : List Ident) : Env :=
  { env with inner := names.map Ident.text :: env.inner }

/-- The environment after the nearest scope has declared more names. -/
def declare (env : Env) (names : List Ident) : Env :=
  match env.inner with
  | [] => { env with top := env.top ++ names.map Ident.text }
  | scope :: scopes => { env with inner := (scope ++ names.map Ident.text) :: scopes }

/-- Where a name is declared. -/
def binding (env : Env) (name : String) : Binding :=
  if env.inner.any fun names => names.contains name then .inner
  else if env.top.contains name then .module
  else .global

end Env

/-! ### The names of a scope -/

/-- The names a declaration binds in the block around it. A variable that is declared to
stand elsewhere binds nothing. -/
def Decl.blockNames : Decl → List Ident
  | .var .var _ _ => []
  | .var _ _ true => []
  | d => d.names

/-- The declarations of a statement outside blocks: its own, or those of the statements that
it governs. -/
def Stmt.decls : Stmt → List Decl
  | .decl d => [d]
  | .ifElse _ s none => s.decls
  | .ifElse _ s (some t) => s.decls ++ t.decls
  | .whileLoop _ s => s.decls
  | .doLoop s _ => s.decls
  | .forLoop _ _ _ s => s.decls
  | .forIn _ _ _ s => s.decls
  | .forOf _ _ _ s _ => s.decls
  | .labeled _ s => s.decls
  | _ => []

def lexicalNames (ss : List Stmt) : List Ident :=
  ss.flatMap fun s => s.decls.flatMap Decl.blockNames

/-- Whether a `var` inside the node belongs to the function around the node. -/
def Node.sharesVars : Node → Bool
  | .stmt _ => true
  | .case _ => true
  | .body _ => true
  | .item (.stmt _) => true
  | .item (.exportDecl _) => true
  | _ => false

/-- The names a node declares by `var`, apart from its parts. -/
def Node.varNames : Node → List Ident
  | .decl (.var .var ds false) => Declarator.names ds
  | .stmt (.forIn (.decl .var) p _ _) => p.names
  | .stmt (.forOf (.decl .var) p _ _ _) => p.names
  | _ => []

/-- The names declared by `var` in some code, nested functions apart. -/
def hoistedNames (ns : List Node) : List Ident :=
  (ns.flatMap fun n => n.preorder Node.sharesVars).flatMap Node.varNames

def codeNames (ss : List Stmt) : List Ident :=
  lexicalNames ss ++ hoistedNames (Node.stmts ss)

/-- The names that an item declares in the items around it, apart from nested `var`s. -/
def Item.names : Item → List Ident
  | .stmt s => lexicalNames [s]
  | .exportDecl d => lexicalNames [.decl d]
  | .imports specifiers _ _ => specifiers.map ImportSpecifier.binding
  | .exportDefaultFunc name _ => name.toList
  | .exportDefaultClass name _ => name.toList
  | .importEquals id _ => [id]
  | _ => []

/-- The names that items declare in their scope. -/
def itemNames (items : List Item) : List Ident :=
  items.flatMap Item.names ++ hoistedNames (items.map .item)

/-- Whether the left side of a `for … in` or `for … of` loop declares names for the loop
alone. -/
def ForHead.isOwn : ForHead → Bool
  | .decl .var => false
  | .decl _ => true
  | .using => true
  | .assign => false

/-! ### Scopes inside a node -/

/-- Nodes that all see the same environment. -/
def seeing (env : Env) (ns : List Node) : List (Env × Node) := ns.map fun n => (env, n)

/-- The parts of some syntax in source order and the environment after them, where each part
sees the names declared before it. -/
abbrev Unfolding := Env × List (Env × Node)

/-- The unfolding of a list, from that of its items. -/
def unfoldAll {α : Type} (f : Env → α → Unfolding) (env : Env) : List α → Unfolding
  | [] => (env, [])
  | a :: as =>
    let (env, ns) := f env a
    let (env, ms) := unfoldAll f env as
    (env, ns ++ ms)

/-- Whether the node only holds parts of a pattern or declarator together. -/
def Node.isPattern : Node → Bool
  | .pat _ => true
  | .patProp _ => true
  | .declarator _ => true
  | _ => false

/-- What a pattern or declarator consists of: the names it declares, its keys and its values. -/
def Node.leaves (n : Node) : List Node := (n.preorder isPattern).filter fun c => !c.isPattern

/-- A part of a pattern. A name is declared where it stands. -/
def Node.unfoldLeaf (env : Env) : Node → Unfolding
  | .ident id =>
    let env := env.declare [id]
    (env, [(env, .ident id)])
  | n => (env, [(env, n)])

/-- A pattern or declarator whose names are declared where they stand. -/
def Node.unfold (env : Env) (n : Node) : Unfolding := unfoldAll Node.unfoldLeaf env n.leaves

/-- The first part of a `for` loop, which can declare names for the loop alone. -/
def loopStart (env : Env) : Option Stmt → Unfolding
  | some (.decl (.var .lexical ds _)) => unfoldAll Node.unfold (env.push []) (ds.map .declarator)
  | some (.decl (.var .const ds _)) => unfoldAll Node.unfold (env.push []) (ds.map .declarator)
  | some (.decl (.using ds)) => unfoldAll Node.unfold (env.push []) (ds.map .declarator)
  | i => (env, seeing env (Node.stmt? i))

/-- The left side of a `for … in` or `for … of` loop. -/
def ForHead.unfold (env : Env) (head : ForHead) (p : Pat) : Unfolding :=
  if head.isOwn then Node.unfold (env.push []) (.pat p) else (env, [(env, .pat p)])

/-- A clause of a `switch`, whose statements declare their names for it and the clauses after
it. -/
def Case.unfold (env : Env) (c : Case) : Unfolding :=
  match c with
  | .mk _ ss =>
    let env := env.declare (lexicalNames ss)
    (env, [(env, .case c)])

/-- Statements with a scope of their own, which declares the names that it is given for them. -/
def blockScope (names : List Stmt → List Ident) (env : Env) (ss : List Stmt) :
    List (Env × Node) :=
  seeing (env.push (names ss)) (Node.stmts ss)

/-- The code of a function or of a clause. -/
def bodyScope (names : List Stmt → List Ident) (env : Env) : Body → List (Env × Node)
  | .absent => []
  | .block ss => blockScope names env ss
  | .value e => [(env, .expr e)]

/-- Parameters and code. The values inside a parameter see all parameters but the one that
collects the rest. -/
def paramScope (env : Env) (ps : List Pat) (b : Body) : List (Env × Node) :=
  let before := env.push (Pat.namesList (ps.filter fun p => !p.isRest))
  let inside := env.push (Pat.namesList ps)
  (ps.map fun p => (if p.isRest then inside else before, .pat p)) ++
    bodyScope codeNames inside b

def Pat.decorators : Pat → List Expr
  | .decorated ds _ => ds
  | _ => []

/-- A parameter without its decorators. -/
def Pat.undecorated : Pat → Pat
  | .decorated _ p => p
  | p => p

/-- The decorators of the parameters of a class member: they see what the member sees. -/
def paramDecorators (env : Env) (ps : List Pat) : List (Env × Node) :=
  seeing env (Node.exprs (ps.flatMap Pat.decorators))

/-- Whether the name of a markup element is one of the elements that are not declared. -/
def isPlainTag (id : Ident) : Bool :=
  match id.name.toList with
  | c :: _ => c.isLower
  | [] => false

/-- The parts of a node, each with the environment it sees. The name of an element that is not
declared sees none. -/
def Node.scopes (env : Env) : Node → List (Env × Node)
  | .expr (.func name (.mk ds ps b a g)) =>
    let own := env.push name.toList
    seeing env (Node.exprs ds) ++ seeing own (Node.ident? name ++ [.func (.mk [] ps b a g)])
  | .expr (.arrow ps b _) => paramScope env ps b
  | .expr (.tagName id) => if isPlainTag id then [] else [(env, .ident id)]
  | .expr (.cls name (.mk ds ms base is)) =>
    let own := env.push name.toList
    seeing env (Node.expr? base) ++ seeing own (Node.ident? name ++ [.cls (.mk ds ms none is)])
  | .func (.mk ds ps b _ _) => seeing env (Node.exprs ds) ++ paramScope env ps b
  | .prop (.getter k b) => (env, .key k) :: bodyScope codeNames env b
  | .prop (.setter k p b) =>
    let (inside, ns) := Node.unfold (env.push []) (.pat p)
    (env, .key k) :: ns ++ bodyScope codeNames inside b
  | .member (.method .hidden f) => [(env, .func f)]
  | .member (.method k (.mk ds ps b a g)) =>
    (env, .key k) :: paramDecorators env ps ++
      [(env, .func (.mk ds (ps.map Pat.undecorated) b a g))]
  | .member (.constructor k ps b) =>
    (env, .key k) :: paramDecorators env ps ++
      paramScope env (ps.map Pat.undecorated) b
  | .member (.initializer ss) => blockScope codeNames env ss
  | .stmt (.block ss) => blockScope lexicalNames env ss
  | .stmt (.forLoop i t u s) =>
    let (inside, ns) := loopStart env i
    ns ++ seeing inside (Node.expr? t ++ Node.expr? u ++ [.stmt s])
  | .stmt (.forIn head p e s) =>
    let (inside, ns) := head.unfold env p
    ns ++ seeing inside [.expr e, .stmt s]
  | .stmt (.forOf head p e s _) =>
    let (inside, ns) := head.unfold env p
    ns ++ seeing inside [.expr e, .stmt s]
  | .stmt (.tryCatch ss p h f) =>
    let (caught, ns) := Node.unfold (env.push []) (.pat p)
    blockScope lexicalNames env ss ++ ns ++ bodyScope lexicalNames caught h ++
      bodyScope lexicalNames env f
  | .stmt (.switch e cs) =>
    let (_, ns) := unfoldAll Case.unfold (env.push []) cs
    (env, .expr e) :: ns
  | .stmt (.labeled _ s) => [(env, .stmt s)]
  | .stmt (.breakTo _) => []
  | .stmt (.continueTo _) => []
  | .decl (.enum id ms _) =>
    (env, .ident id) :: seeing (env.push (EnumMember.names ms)) (ms.map .enumMember)
  | .decl (.region id items) =>
    seeing env (Node.ident? id) ++ seeing (env.push (itemNames items)) (items.map .item)
  | n => seeing env n.children

/-! ### Parts are smaller -/

@[grind →]
theorem mem_of_mem_seeing {env : Env} {ns : List Node} {c : Env × Node} (h : c ∈ seeing env ns) :
    c.2 ∈ ns := by
  obtain ⟨n, hn, rfl⟩ := List.mem_map.1 h
  exact hn

theorem exists_mem_of_mem_unfoldAll {α : Type} {f : Env → α → Unfolding} {env : Env}
    {as : List α} {c : Env × Node} (h : c ∈ (unfoldAll f env as).2) :
    ∃ e, ∃ a ∈ as, c ∈ (f e a).2 := by
  induction as generalizing env with
  | nil => simp [unfoldAll] at h
  | cons a as ih =>
    rcases List.mem_append.1 h with h | h
    · exact ⟨env, a, List.mem_cons_self, h⟩
    · obtain ⟨e, b, hb, hc⟩ := ih h
      exact ⟨e, b, List.mem_cons_of_mem _ hb, hc⟩

theorem Node.sizeOf_le_of_mem_preorder {enter : Node → Bool} {n c : Node}
    (h : c ∈ n.preorder enter) : sizeOf c ≤ sizeOf n := by
  induction hsize : sizeOf n using Nat.strongRecOn generalizing n with
  | ind size ih =>
    rw [preorder_eq] at h
    rcases List.mem_cons.1 h with rfl | h
    · omega
    · split at h
      · obtain ⟨d, hd, hc⟩ := List.mem_flatMap.1 h
        have hlt := sizeOf_lt_of_mem_children hd
        have hle := ih (sizeOf d) (hsize ▸ hlt) hc rfl
        omega
      · cases h

theorem Node.mem_leaves_of_mem_unfold {env : Env} {n : Node} {c : Env × Node}
    (h : c ∈ (n.unfold env).2) : c.2 ∈ n.leaves := by
  obtain ⟨e, a, ha, hc⟩ := exists_mem_of_mem_unfoldAll h
  unfold Node.unfoldLeaf at hc
  split at hc <;> exact List.mem_singleton.1 hc ▸ ha

theorem Node.sizeOf_le_of_mem_unfold {env : Env} {n : Node} {c : Env × Node}
    (h : c ∈ (n.unfold env).2) : sizeOf c.2 ≤ sizeOf n :=
  sizeOf_le_of_mem_preorder (List.mem_filter.1 (mem_leaves_of_mem_unfold h)).1

theorem sizeOf_le_of_mem_loopStart {env : Env} {i : Option Stmt} {c : Env × Node}
    (h : c ∈ (loopStart env i).2) : sizeOf c.2 ≤ sizeOf i := by
  unfold loopStart at h
  split at h
  case h_4 => grind
  all_goals
    obtain ⟨e, d, hd, hc⟩ := exists_mem_of_mem_unfoldAll h
    have := Node.sizeOf_le_of_mem_unfold hc
    have := Node.sizeOf_le_of_mem_map (fun _ => rfl) hd
    grind

theorem ForHead.sizeOf_le_of_mem_unfold {env : Env} {head : ForHead} {p : Pat} {c : Env × Node}
    (h : c ∈ (head.unfold env p).2) : sizeOf c.2 ≤ 1 + sizeOf p := by
  unfold ForHead.unfold at h
  split at h
  · exact Node.sizeOf_le_of_mem_unfold h
  · grind

theorem sizeOf_le_of_mem_blockScope {names : List Stmt → List Ident} {env : Env} {ss : List Stmt}
    {c : Env × Node} (h : c ∈ blockScope names env ss) : sizeOf c.2 ≤ sizeOf ss := by
  grind [blockScope]

theorem sizeOf_le_of_mem_bodyScope {names : List Stmt → List Ident} {env : Env} {b : Body}
    {c : Env × Node} (h : c ∈ bodyScope names env b) : sizeOf c.2 ≤ sizeOf b := by
  cases b <;> grind [bodyScope, blockScope]

theorem sizeOf_lt_of_mem_paramScope {env : Env} {ps : List Pat} {b : Body} {c : Env × Node}
    (h : c ∈ paramScope env ps b) : sizeOf c.2 < sizeOf ps + sizeOf b := by
  have hps : 0 < sizeOf ps := by cases ps <;> grind
  have hb : 0 < sizeOf b := by cases b <;> grind
  rcases List.mem_append.1 h with h | h
  · obtain ⟨p, hp, rfl⟩ := List.mem_map.1 h
    have := List.sizeOf_lt_of_mem hp
    grind
  · have := sizeOf_le_of_mem_bodyScope h
    omega

theorem sizeOf_le_of_mem_paramDecorators {env : Env} {ps : List Pat} {c : Env × Node}
    (h : c ∈ paramDecorators env ps) : sizeOf c.2 ≤ sizeOf ps := by
  obtain ⟨e, he, hc⟩ := List.mem_map.1 (mem_of_mem_seeing h)
  obtain ⟨p, hp, he⟩ := List.mem_flatMap.1 he
  have hp := List.sizeOf_lt_of_mem hp
  have he : sizeOf e < sizeOf p := by
    cases p with
    | decorated ds p =>
      have := List.sizeOf_lt_of_mem he
      grind [Pat.decorators]
    | _ => simp [Pat.decorators] at he
  grind

theorem sizeOf_map_undecorated_le (ps : List Pat) :
    sizeOf (ps.map Pat.undecorated) ≤ sizeOf ps := by
  induction ps with
  | nil => simp
  | cons p ps ih =>
    have : sizeOf p.undecorated ≤ sizeOf p := by cases p <;> grind [Pat.undecorated]
    grind

theorem sizeOf_le_of_mem_unfoldCases {env : Env} {cs : List Case} {c : Env × Node}
    (h : c ∈ (unfoldAll Case.unfold env cs).2) : sizeOf c.2 ≤ sizeOf cs := by
  obtain ⟨e, ⟨t, ss⟩, hd, hc⟩ := exists_mem_of_mem_unfoldAll h
  have := List.sizeOf_lt_of_mem hd
  grind [Case.unfold]

theorem Node.sizeOf_lt_of_mem_scopes {env : Env} {n : Node} {c : Env × Node}
    (h : c ∈ n.scopes env) : sizeOf c.2 < sizeOf n := by
  unfold Node.scopes at h
  split at h
  case h_1 ds _ _ _ _ =>
    have : 0 < sizeOf ds := by cases ds <;> grind
    grind
  case h_4 base _ =>
    have : 0 < sizeOf base := by cases base <;> grind
    grind
  case h_23 => exact sizeOf_lt_of_mem_children (mem_of_mem_seeing h)
  all_goals grind [→ sizeOf_lt_of_mem_paramScope, → sizeOf_le_of_mem_bodyScope,
    → sizeOf_le_of_mem_paramDecorators, sizeOf_map_undecorated_le,
    → sizeOf_le_of_mem_blockScope, → Node.sizeOf_le_of_mem_unfold,
    → ForHead.sizeOf_le_of_mem_unfold, → sizeOf_le_of_mem_loopStart,
    → sizeOf_le_of_mem_unfoldCases, → List.sizeOf_lt_of_mem]

def Node.bindings (env : Env) (n : Node) : List (Nat × Binding) :=
  match n with
  | .ident id => [(id.pos, env.binding id.name)]
  | n => (n.scopes env).attach.flatMap fun c => Node.bindings c.1.1 c.1.2
termination_by sizeOf n
decreasing_by exact Node.sizeOf_lt_of_mem_scopes c.2

def Module.env (m : Module) : Env := { top := (itemNames m.items).map Ident.text }

def Module.bindings (m : Module) : List (Nat × Binding) :=
  m.items.flatMap fun i => Node.bindings m.env (.item i)

/-- The binding of an identifier, given those of its module. -/
def Ident.bindingIn (id : Ident) (bindings : List (Nat × Binding)) : Binding :=
  (bindings.lookup id.pos).getD .global

end Script
end AtomicStyles
