import AtomicStyles.Failure

/-!
# Syntax trees of scripts

The trees of the scripts whose style calls are compiled: modules of the script
language with its typed, markup and decorator extensions. Types leave no tree; what
remains of them are the wrappers around expressions (`Expr.typed`) and the names that
the module mentions only in types.

An `Ident` is an identifier in its own right, with its position; the names of
properties and of members are plain text.

## Main definitions

* `Expr`, `Pat`, `Stmt`, `Item` — expressions, patterns, statements and module items.
* `Func`, `Class` — what function and class syntax has in common.
* `Module` — a parsed module.
-/

namespace AtomicStyles
namespace Script

/-- An identifier and the byte offset at which it starts. -/
structure Ident where
  name : String
  pos : Nat
deriving Repr, DecidableEq, Inhabited

/-- How a variable is declared. -/
inductive VarKind where
  | var
  | lexical
  | const
deriving Repr, DecidableEq, Inhabited

inductive UnaryOp where
  | negate
  | plus
  | not
  | complement
  | typeOf
  | void
  | delete
deriving Repr, DecidableEq, Inhabited

inductive BinaryOp where
  | eq
  | ne
  | strictEq
  | strictNe
  | lt
  | le
  | gt
  | ge
  | shiftLeft
  | shiftRight
  | shiftRightZero
  | add
  | sub
  | mul
  | div
  | rem
  | pow
  | bitOr
  | bitXor
  | bitAnd
  | isIn
  | instanceOf
  | or
  | and
  | coalesce
deriving Repr, DecidableEq, Inhabited

/-- A plain assignment, or one that combines the old value with the new. -/
inductive AssignOp where
  | set
  | update (op : BinaryOp)
deriving Repr, DecidableEq, Inhabited

/-- How the left side of a `for … in` or `for … of` loop binds its names. -/
inductive ForHead where
  | decl (kind : VarKind)
  | using
  /-- An assignment to what is there. -/
  | assign
deriving Repr, DecidableEq, Inhabited

/-- How a type assertion is written. -/
inductive TypeMark where
  /-- `e!` -/
  | nonNull
  /-- `e as T` -/
  | as
  /-- `e satisfies T` -/
  | satisfies
  /-- `<T>e` -/
  | angle
  /-- `e as const` or `<const>e` -/
  | const
deriving Repr, DecidableEq, Inhabited

/-- A name in an import or export clause. -/
inductive ExportName where
  | ident (id : Ident)
  | str (s : String)
deriving Repr, DecidableEq, Inhabited

def ExportName.text : ExportName → String
  | .ident id => id.name
  | .str s => s

inductive ImportSpecifier where
  | named (binding : Ident) (imported : Option ExportName) (typeOnly : Bool)
  | default (binding : Ident)
  | everything (binding : Ident)
deriving Repr, DecidableEq, Inhabited

inductive ExportSpecifier where
  | named (orig : ExportName) (exported : Option ExportName) (typeOnly : Bool)
  | everything (name : ExportName)
deriving Repr, DecidableEq, Inhabited

mutual

inductive Expr where
  | ident (id : Ident)
  | null
  | bool (b : Bool)
  | num (x : Float)
  | str (s : String)
  | bigInt
  | regex
  /-- The texts between the substitutions, escapes resolved. -/
  | template (texts : List String) (substitutions : List Expr)
  | tagged (tag : Expr) (substitutions : List Expr)
  | array (items : List Expr)
  /-- A missing item of an array. -/
  | hole
  /-- A spread item or argument; `hasComma` tells whether a comma stands after a spread item that
  is the last one. -/
  | spread (e : Expr) (hasComma : Bool)
  | object (props : List Property)
  | func (name : Option Ident) (f : Func)
  | arrow (params : List Pat) (body : Body) (isAsync : Bool)
  | cls (name : Option Ident) (c : Class)
  | unary (op : UnaryOp) (e : Expr)
  | update (isIncrement isBefore : Bool) (e : Expr)
  | binary (op : BinaryOp) (l r : Expr)
  | assign (op : AssignOp) (target : Pat) (e : Expr)
  | cond (test yes no : Expr)
  | member (obj : Expr) (key : Key)
  | superMember (key : Key)
  | call (callee : Expr) (args : List Expr) (span : Span)
  /-- A member access inside an optional chain; `isOptional` marks the links written `?.`. -/
  | chainMember (isOptional : Bool) (obj : Expr) (key : Key)
  /-- A call inside an optional chain. -/
  | chainCall (isOptional : Bool) (callee : Expr) (args : List Expr)
  | construct (callee : Expr) (args : List Expr)
  | sequence (es : List Expr)
  | paren (e : Expr)
  | await (e : Expr)
  | yield (e : Option Expr)
  | this
  | superRef
  | importRef
  /-- `new.target` or `import.meta`. -/
  | metaProperty
  /-- A private name, as on the left of `in`. -/
  | privateName
  /-- A markup element or fragment with the expressions inside it. -/
  | markup (parts : List Expr)
  /-- The name of a markup element. -/
  | tagName (id : Ident)
  /-- An expression with a type assertion around it. -/
  | typed (mark : TypeMark) (e : Expr)
  /-- An expression with type arguments after it. -/
  | instantiated (e : Expr)

/-- The key of a property, of a class member or of a member access. -/
inductive Key where
  | name (s : String)
  | str (s : String)
  | num (x : Float)
  | bigInt
  /-- A private name. -/
  | hidden
  | computed (e : Expr)

inductive Property where
  | keyValue (key : Key) (value : Expr)
  | shorthand (id : Ident)
  /-- A shorthand with a default, which only a pattern can hold. -/
  | shorthandDefault (id : Ident) (value : Expr)
  | method (key : Key) (f : Func)
  | getter (key : Key) (body : Body)
  | setter (key : Key) (param : Pat) (body : Body)
  | spread (e : Expr) (hasComma : Bool)

inductive Pat where
  | ident (id : Ident)
  | array (items : List Pat)
  /-- A missing item of an array pattern, or a missing pattern. -/
  | hole
  | rest (p : Pat)
  | object (props : List PatProperty)
  | withDefault (p : Pat) (value : Expr)
  | expr (e : Expr)
  /-- A parameter with decorators. -/
  | decorated (decorators : List Expr) (p : Pat)

inductive PatProperty where
  | keyValue (key : Key) (value : Pat)
  | shorthand (id : Ident) (value : Option Expr)
  | rest (p : Pat)

/-- The code of a function or of a block that can be missing. -/
inductive Body where
  | absent
  | block (stmts : List Stmt)
  | value (e : Expr)

inductive Func where
  | mk (decorators : List Expr) (params : List Pat) (body : Body) (isAsync isGenerator : Bool)

inductive Class where
  | mk (decorators : List Expr) (members : List Member) (base : Option Expr)
    (interfaces : List Expr)

inductive Member where
  | constructor (key : Key) (params : List Pat) (body : Body)
  | method (key : Key) (f : Func)
  | field (key : Key) (value : Option Expr) (decorators : List Expr)
  | initializer (stmts : List Stmt)
  | indexSignature (params : List Ident)
  | empty

inductive Declarator where
  | mk (pat : Pat) (init : Option Expr)

inductive EnumMember where
  | named (id : Ident) (init : Option Expr)
  | quoted (s : String) (init : Option Expr)

/-- A clause of a `switch`; the one without a test is the default. -/
inductive Case where
  | mk (test : Option Expr) (body : List Stmt)

inductive Stmt where
  | expr (e : Expr) (span : Span)
  | decl (d : Decl)
  | block (stmts : List Stmt)
  | empty
  | debugger
  | ret (e : Option Expr)
  | ifElse (test : Expr) (yes : Stmt) (no : Option Stmt)
  | whileLoop (test : Expr) (body : Stmt)
  | doLoop (body : Stmt) (test : Expr)
  | forLoop (init : Option Stmt) (test update : Option Expr) (body : Stmt)
  | forIn (head : ForHead) (target : Pat) (e : Expr) (body : Stmt)
  | forOf (head : ForHead) (target : Pat) (e : Expr) (body : Stmt) (isAwait : Bool)
  | breakTo (label : Option Ident)
  | continueTo (label : Option Ident)
  | throwing (e : Expr)
  /-- The parameter of the handler is `Pat.hole` where there is none. -/
  | tryCatch (body : List Stmt) (param : Pat) (handler finalizer : Body)
  | switch (e : Expr) (cases : List Case)
  | labeled (label : Ident) (body : Stmt)

inductive Decl where
  | var (kind : VarKind) (decls : List Declarator) (isDeclare : Bool)
  | using (decls : List Declarator)
  | func (id : Ident) (f : Func) (isDeclare : Bool)
  | cls (id : Ident) (c : Class) (isDeclare : Bool)
  | enum (id : Ident) (members : List EnumMember) (isDeclare : Bool)
  | interface (id : Ident)
  | alias (id : Ident)
  /-- A namespace; `none` for one that is named by a string. -/
  | region (id : Option Ident) (items : List Item)

/-- An item of a module body. -/
inductive Item where
  | stmt (s : Stmt)
  | imports (specifiers : List ImportSpecifier) (source : String) (typeOnly : Bool)
  | exportDecl (d : Decl)
  | exports (specifiers : List ExportSpecifier) (source : Option String) (typeOnly : Bool)
  | exportDefaultFunc (name : Option Ident) (f : Func)
  | exportDefaultClass (name : Option Ident) (c : Class)
  | exportDefaultInterface (id : Ident)
  | exportDefaultExpr (e : Expr)
  | exportAll (source : String) (typeOnly : Bool)
  | importEquals (id : Ident) (target : Option Ident)
  | exportAssignment (e : Expr)
  | namespaceExport (id : Ident)

end

instance : Inhabited Expr := ⟨.null⟩
instance : Inhabited Pat := ⟨.hole⟩
instance : Inhabited Stmt := ⟨.empty⟩
instance : Inhabited Item := ⟨.stmt .empty⟩
instance : Inhabited Func := ⟨.mk [] [] .absent false false⟩
instance : Inhabited Class := ⟨.mk [] [] none []⟩

structure Module where
  items : List Item := []
  /-- The names the module mentions in types. -/
  typeNames : List String := []
  /-- A bound on how deep the trees of the module nest. -/
  depth : Nat := 0
deriving Inhabited

end Script
end AtomicStyles
