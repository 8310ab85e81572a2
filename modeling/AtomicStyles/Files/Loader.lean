import AtomicStyles.Files.Tree

/-!
# Finding modules

A specifier that starts with `./` or `../`, or is absolute, is looked up beside the
importing module: as it stands, with each extension, and as a directory with an
index file of each extension, in this order. Any other specifier names a package and
is not found in a tree of files.
-/

namespace AtomicStyles

/-- A module, known by the path under which it was found. -/
abbrev ModuleId := String

/-- Why a specifier names no module. -/
inductive ResolveError where
  | bareSpecifier (specifier : String)
  | noParent (importer : ModuleId)
  | noMatch (specifier : String) (importer : ModuleId)
deriving Repr, DecidableEq, Inhabited

def ResolveError.message : ResolveError → String
  | .bareSpecifier s => s!"'{s}' is a bare specifier and cannot be resolved from the file system"
  | .noParent importer => s!"{importer} has no parent directory"
  | .noMatch s importer => s!"no file matches '{s}' from {importer}"

/-- Files, and the extensions an import may leave out. -/
structure Loader where
  tree : Tree := {}
  extensions : List String := []
deriving Inhabited

namespace Loader

def isRelative (specifier : String) : Bool :=
  "./".isPrefixOf specifier || "../".isPrefixOf specifier

def inDirectory (base : Path) (file : String) : String := Path.text (base ++ [.name file])

/-- The paths a specifier with the given base can stand for, best first. -/
def candidates (l : Loader) (base : Path) : List String :=
  Path.text base :: l.extensions.map (Path.text base ++ ·)
    ++ l.extensions.map fun e => inDirectory base ("index" ++ e)

/-- The module a specifier names in `importer`. -/
def resolve (l : Loader) (importer : ModuleId) (specifier : String) :
    Except ResolveError ModuleId :=
  if !isRelative specifier && !(Path.ofText specifier).isAbsolute then
    .error (.bareSpecifier specifier)
  else
    match Path.parent? (Path.ofText importer) with
    | none => .error (.noParent importer)
    | some directory =>
      match (l.candidates (Path.normalize directory (Path.ofText specifier))).find? l.tree.isFile with
      | some id => .ok id
      | none => .error (.noMatch specifier importer)

/-- The source text of a module. -/
def read (l : Loader) (id : ModuleId) : Except ReadError String := l.tree.read id

/-- What a failed read says. -/
def readMessage (id : ModuleId) (e : ReadError) : String := s!"failed to read {id}: {e.message}"

end Loader
end AtomicStyles
