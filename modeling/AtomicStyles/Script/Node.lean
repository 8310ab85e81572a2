import AtomicStyles.Script.Syntax

/-!
# Walking over syntax trees

`Node` is any part of a tree. `Node.children` lists its parts in the order in which a
reader of the tree meets them, which is nearly the order of the source: of a loop that
tests last the test comes first, and of a class its base comes after its members.

## Main definitions

* `Node` — a part of a tree.
* `Node.children` — its direct parts.
* `Node.preorder` — all nodes below one, parents first.
-/

namespace AtomicStyles
namespace Script

/-- A part of a syntax tree. -/
inductive Node where
  | ident (id : Ident)
  | expr (e : Expr)
  | key (k : Key)
  | prop (p : Property)
  | pat (p : Pat)
  | patProp (p : PatProperty)
  | body (b : Body)
  | func (f : Func)
  | cls (c : Class)
  | member (m : Member)
  | declarator (d : Declarator)
  | enumMember (m : EnumMember)
  | case (c : Case)
  | stmt (s : Stmt)
  | decl (d : Decl)
  | item (i : Item)
deriving Inhabited

namespace Node

def ident? (id : Option Ident) : List Node := id.toList.map .ident

def expr? (e : Option Expr) : List Node := e.toList.map .expr

def stmt? (s : Option Stmt) : List Node := s.toList.map .stmt

def exprs (es : List Expr) : List Node := es.map .expr

/-- The nodes of several patterns. -/
def pats (ps : List Pat) : List Node := ps.map .pat

/-- The nodes of several statements. -/
def stmts (ss : List Stmt) : List Node := ss.map .stmt

/-- The identifier in an import or export clause, if it is one. -/
def exportName : ExportName → List Node
  | .ident id => [.ident id]
  | .str _ => []

def ofExpr : Expr → List Node
  | .ident id => [.ident id]
  | .template _ es => exprs es
  | .tagged e es => .expr e :: exprs es
  | .array es => exprs es
  | .spread e _ => [.expr e]
  | .object ps => ps.map .prop
  | .func name f => ident? name ++ [.func f]
  | .arrow ps b _ => pats ps ++ [.body b]
  | .cls name c => ident? name ++ [.cls c]
  | .unary _ e => [.expr e]
  | .update _ _ e => [.expr e]
  | .binary _ l r => [.expr l, .expr r]
  | .assign _ p e => [.pat p, .expr e]
  | .cond a b c => [.expr a, .expr b, .expr c]
  | .member e k => [.expr e, .key k]
  | .superMember k => [.key k]
  | .call e es _ => .expr e :: exprs es
  | .chainMember _ e k => [.expr e, .key k]
  | .chainCall _ e es => .expr e :: exprs es
  | .construct e es => .expr e :: exprs es
  | .sequence es => exprs es
  | .paren e => [.expr e]
  | .await e => [.expr e]
  | .yield e => expr? e
  | .markup es => exprs es
  | .tagName id => [.ident id]
  | .typed _ e => [.expr e]
  | .instantiated e => [.expr e]
  | .null | .bool _ | .num _ | .str _ | .bigInt | .regex | .hole | .this | .superRef | .importRef
  | .metaProperty | .privateName => []

/-- The parts of a key: only a computed key has any. -/
def ofKey : Key → List Node
  | .computed e => [.expr e]
  | _ => []

def ofProperty : Property → List Node
  | .keyValue k e => [.key k, .expr e]
  | .shorthand id => [.ident id]
  | .shorthandDefault id e => [.ident id, .expr e]
  | .method k f => [.key k, .func f]
  | .getter k b => [.key k, .body b]
  | .setter k p b => [.key k, .pat p, .body b]
  | .spread e _ => [.expr e]

/-- The parts of a pattern. -/
def ofPat : Pat → List Node
  | .ident id => [.ident id]
  | .array ps => pats ps
  | .hole => []
  | .rest p => [.pat p]
  | .object ps => ps.map .patProp
  | .withDefault p e => [.pat p, .expr e]
  | .expr e => [.expr e]
  | .decorated ds p => exprs ds ++ [.pat p]

/-- The parts of a property of a pattern. -/
def ofPatProperty : PatProperty → List Node
  | .keyValue k p => [.key k, .pat p]
  | .shorthand id e => .ident id :: expr? e
  | .rest p => [.pat p]

def ofBody : Body → List Node
  | .absent => []
  | .block ss => stmts ss
  | .value e => [.expr e]

/-- The parts of a class member. -/
def ofMember : Member → List Node
  | .constructor k ps b => .key k :: pats ps ++ [.body b]
  | .method k f => [.key k, .func f]
  | .field k e ds => .key k :: expr? e ++ exprs ds
  | .initializer ss => stmts ss
  | .indexSignature ids => ids.map .ident
  | .empty => []

/-- The parts of a statement. -/
def ofStmt : Stmt → List Node
  | .expr e _ => [.expr e]
  | .decl d => [.decl d]
  | .block ss => stmts ss
  | .empty => []
  | .debugger => []
  | .ret e => expr? e
  | .ifElse e s t => .expr e :: .stmt s :: stmt? t
  | .whileLoop e s => [.expr e, .stmt s]
  | .doLoop s e => [.expr e, .stmt s]
  | .forLoop i t u s => stmt? i ++ expr? t ++ expr? u ++ [.stmt s]
  | .forIn _ p e s => [.pat p, .expr e, .stmt s]
  | .forOf _ p e s _ => [.pat p, .expr e, .stmt s]
  | .breakTo id => ident? id
  | .continueTo id => ident? id
  | .throwing e => [.expr e]
  | .tryCatch ss p h f => stmts ss ++ [.pat p, .body h, .body f]
  | .switch e cs => .expr e :: cs.map .case
  | .labeled id s => [.ident id, .stmt s]

def ofDecl : Decl → List Node
  | .var _ ds _ => ds.map .declarator
  | .using ds => ds.map .declarator
  | .func id f _ => [.ident id, .func f]
  | .cls id c _ => [.ident id, .cls c]
  | .enum id ms _ => .ident id :: ms.map .enumMember
  | .interface id => [.ident id]
  | .alias id => [.ident id]
  | .region id items => ident? id ++ items.map .item

def ofImportSpecifier : ImportSpecifier → List Node
  | .named id imported _ => .ident id :: (imported.toList.flatMap exportName)
  | .default id => [.ident id]
  | .everything id => [.ident id]

def ofExportSpecifier : ExportSpecifier → List Node
  | .named orig exported _ => exportName orig ++ exported.toList.flatMap exportName
  | .everything name => exportName name

def ofItem : Item → List Node
  | .stmt s => [.stmt s]
  | .imports ss _ _ => ss.flatMap ofImportSpecifier
  | .exportDecl d => [.decl d]
  | .exports ss _ _ => ss.flatMap ofExportSpecifier
  | .exportDefaultFunc name f => ident? name ++ [.func f]
  | .exportDefaultClass name c => ident? name ++ [.cls c]
  | .exportDefaultInterface id => [.ident id]
  | .exportDefaultExpr e => [.expr e]
  | .exportAll _ _ => []
  | .importEquals id target => .ident id :: ident? target
  | .exportAssignment e => [.expr e]
  | .namespaceExport id => [.ident id]

/-- The direct parts of a node. -/
def children : Node → List Node
  | .ident _ => []
  | .expr e => ofExpr e
  | .key k => ofKey k
  | .prop p => ofProperty p
  | .pat p => ofPat p
  | .patProp p => ofPatProperty p
  | .body b => ofBody b
  | .func (.mk ds ps b _ _) => pats ps ++ exprs ds ++ [.body b]
  | .cls (.mk ds ms base is) => exprs ds ++ ms.map .member ++ expr? base ++ exprs is
  | .member m => ofMember m
  | .declarator (.mk p e) => .pat p :: expr? e
  | .enumMember (.named id e) => .ident id :: expr? e
  | .enumMember (.quoted _ e) => expr? e
  | .case (.mk e ss) => expr? e ++ stmts ss
  | .stmt s => ofStmt s
  | .decl d => ofDecl d
  | .item i => ofItem i

/-! ### Parts are smaller

Every walk over a tree ends because the parts of a node are smaller than the node. -/

@[grind →]
theorem sizeOf_le_of_mem_ident? {id : Option Ident} {c : Node} (h : c ∈ ident? id) :
    sizeOf c ≤ sizeOf id := by
  cases id <;> simp_all [ident?]

@[grind →]
theorem sizeOf_le_of_mem_expr? {e : Option Expr} {c : Node} (h : c ∈ expr? e) :
    sizeOf c ≤ sizeOf e := by
  cases e <;> simp_all [expr?]

@[grind →]
theorem sizeOf_le_of_mem_stmt? {s : Option Stmt} {c : Node} (h : c ∈ stmt? s) :
    sizeOf c ≤ sizeOf s := by
  cases s <;> simp_all [stmt?]

@[grind →]
theorem sizeOf_le_of_mem_exportName {name : ExportName} {c : Node} (h : c ∈ exportName name) :
    sizeOf c ≤ sizeOf name := by
  cases name <;> simp_all [exportName]

/-- What a constructor makes of the items of a list is no larger than the list. -/
theorem sizeOf_le_of_mem_map {α : Type} [SizeOf α] {f : α → Node} {as : List α} {c : Node}
    (hf : ∀ a, sizeOf (f a) = 1 + sizeOf a) (h : c ∈ as.map f) : sizeOf c ≤ sizeOf as := by
  obtain ⟨a, ha, rfl⟩ := List.mem_map.1 h
  have := List.sizeOf_lt_of_mem ha
  rw [hf]
  omega

@[grind →]
theorem sizeOf_le_of_mem_exprs {es : List Expr} {c : Node} (h : c ∈ exprs es) :
    sizeOf c ≤ sizeOf es :=
  sizeOf_le_of_mem_map (fun _ => rfl) h

@[grind →]
theorem sizeOf_le_of_mem_pats {ps : List Pat} {c : Node} (h : c ∈ pats ps) :
    sizeOf c ≤ sizeOf ps :=
  sizeOf_le_of_mem_map (fun _ => rfl) h

@[grind →]
theorem sizeOf_le_of_mem_stmts {ss : List Stmt} {c : Node} (h : c ∈ stmts ss) :
    sizeOf c ≤ sizeOf ss :=
  sizeOf_le_of_mem_map (fun _ => rfl) h

@[grind →]
theorem sizeOf_le_of_mem_ofExpr {e : Expr} {c : Node} (h : c ∈ ofExpr e) : sizeOf c ≤ sizeOf e := by
  cases e <;> grind [ofExpr, → List.sizeOf_lt_of_mem]

@[grind →]
theorem sizeOf_le_of_mem_ofStmt {s : Stmt} {c : Node} (h : c ∈ ofStmt s) : sizeOf c ≤ sizeOf s := by
  cases s <;> grind [ofStmt, → List.sizeOf_lt_of_mem]

@[grind →]
theorem sizeOf_le_of_mem_ofDecl {d : Decl} {c : Node} (h : c ∈ ofDecl d) : sizeOf c ≤ sizeOf d := by
  cases d <;> grind [ofDecl, → List.sizeOf_lt_of_mem]

@[grind →]
theorem sizeOf_le_of_mem_ofImportSpecifier {s : ImportSpecifier} {c : Node}
    (h : c ∈ ofImportSpecifier s) : sizeOf c ≤ sizeOf s := by
  rcases s with ⟨id, _ | name, t⟩ | id | id <;> grind [ofImportSpecifier]

@[grind →]
theorem sizeOf_le_of_mem_ofExportSpecifier {s : ExportSpecifier} {c : Node}
    (h : c ∈ ofExportSpecifier s) : sizeOf c ≤ sizeOf s := by
  rcases s with ⟨id, _ | name, t⟩ | name <;> grind [ofExportSpecifier]

@[grind →]
theorem sizeOf_le_of_mem_ofItem {i : Item} {c : Node} (h : c ∈ ofItem i) : sizeOf c ≤ sizeOf i := by
  cases i <;> grind [ofItem, → List.sizeOf_lt_of_mem]

theorem sizeOf_lt_of_mem_children {n c : Node} (h : c ∈ n.children) : sizeOf c < sizeOf n := by
  cases n with
  | ident id => simp [children] at h
  | expr e => grind [children]
  | key k => cases k <;> grind [children, ofKey]
  | prop p => cases p <;> grind [children, ofProperty]
  | pat p => cases p <;> grind [children, ofPat, → List.sizeOf_lt_of_mem]
  | patProp p => cases p <;> grind [children, ofPatProperty]
  | body b => cases b <;> grind [children, ofBody]
  | func f => cases f; grind [children]
  | cls c => cases c; grind [children, → List.sizeOf_lt_of_mem]
  | member m => cases m <;> grind [children, ofMember, → List.sizeOf_lt_of_mem]
  | declarator d => cases d; grind [children]
  | enumMember m => cases m <;> grind [children]
  | case c => cases c; grind [children]
  | stmt s => grind [children]
  | decl d => grind [children]
  | item i => grind [children]

/-- The node and the nodes below it, a parent before its parts, without the parts of the
nodes that `enter` refuses. -/
def preorder (enter : Node → Bool) (n : Node) : List Node :=
  n :: (if enter n then n.children.attach.flatMap fun c => preorder enter c.1 else [])
termination_by sizeOf n
decreasing_by exact sizeOf_lt_of_mem_children c.2

theorem preorder_eq (enter : Node → Bool) (n : Node) :
    n.preorder enter = n :: if enter n then n.children.flatMap (preorder enter) else [] := by
  rw [preorder, List.flatMap_subtype (g := preorder enter) fun _ _ => rfl]
  simp

end Node

/-- All nodes of a module, without the parts of those that `enter` refuses. -/
def Module.nodes (m : Module) (enter : Node → Bool) : List Node :=
  m.items.flatMap fun i => Node.preorder enter (.item i)

/-- The names that the module mentions as identifiers, in code or in types. -/
def Module.names (m : Module) : List String :=
  (m.nodes fun _ => true).filterMap (fun
    | .ident id => some id.name
    | _ => none) ++ m.typeNames

/-- A call expression with its position. -/
structure Call where
  callee : Expr
  args : List Expr
  span : Span
deriving Inhabited

def Node.call? : Node → Option Call
  | .expr (.call callee args span) => some { callee, args, span }
  | _ => none

/-- The calls of a module, a call before those inside it. -/
def Module.calls (m : Module) : List Call :=
  (m.nodes fun _ => true).filterMap Node.call?

end Script
end AtomicStyles
