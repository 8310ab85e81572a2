import AtomicStyles.Script.Syntax

/-!
# Names that syntax binds

## Main definitions

* `Pat.names` — the names a pattern binds.
* `Decl.names` — the names a declaration binds.
-/

namespace AtomicStyles
namespace Script

mutual

/-- The names a pattern binds, in source order. -/
def Pat.names : Pat → List Ident
  | .ident id => [id]
  | .array items => Pat.namesList items
  | .hole => []
  | .rest p => p.names
  | .object props => Pat.namesProps props
  | .withDefault p _ => p.names
  | .expr _ => []
  | .decorated _ p => p.names

/-- `Pat.names` of several patterns. -/
def Pat.namesList : List Pat → List Ident
  | [] => []
  | p :: ps => p.names ++ Pat.namesList ps

/-- `Pat.names` of the properties of a pattern. -/
def Pat.namesProps : List PatProperty → List Ident
  | [] => []
  | .keyValue _ p :: ps => p.names ++ Pat.namesProps ps
  | .shorthand id _ :: ps => id :: Pat.namesProps ps
  | .rest p :: ps => p.names ++ Pat.namesProps ps

end

def Declarator.pat : Declarator → Pat
  | .mk p _ => p

def Declarator.init : Declarator → Option Expr
  | .mk _ e => e

def Declarator.names (ds : List Declarator) : List Ident :=
  ds.flatMap fun d => d.pat.names

/-- The names a declaration binds where it stands. A `var` binds elsewhere too, in the
function around it. -/
def Decl.names : Decl → List Ident
  | .var _ ds _ => Declarator.names ds
  | .using ds => Declarator.names ds
  | .func id _ _ => [id]
  | .cls id _ _ => [id]
  | .enum id _ _ => [id]
  | .interface _ => []
  | .alias _ => []
  | .region id _ => id.toList

def EnumMember.names (ms : List EnumMember) : List Ident :=
  ms.filterMap fun
    | .named id _ => some id
    | .quoted _ _ => none

def EnumMember.init : EnumMember → Option Expr
  | .named _ e => e
  | .quoted _ e => e

def ImportSpecifier.binding : ImportSpecifier → Ident
  | .named id _ _ => id
  | .default id => id
  | .everything id => id

/-- The name under which the imported thing is exported; `none` for whole modules and default
exports. -/
def ImportSpecifier.importedName? : ImportSpecifier → Option String
  | .named id imported _ => some ((imported.map ExportName.text).getD id.name)
  | _ => none

def Ident.text (id : Ident) : String := id.name

/-- Whether a pattern collects the rest of its values. -/
def Pat.isRest : Pat → Bool
  | .rest _ => true
  | .decorated _ (.rest _) => true
  | _ => false

end Script
end AtomicStyles
