/-!
# Paths

A path is read as a list of components: the root, the current directory (only at the
very start), a parent step, or a name. Repeated and trailing separators and inner
`.` steps carry no component.

Normalizing resolves `.` and `..` by their spelling alone: a parent step removes the
component before it, and stops at the root.

## Main definitions

* `Path.components` — the components of a text.
* `Path.normalize` — a path against a current directory.
* `Path.parent?`, `Path.ancestors` — the directories above a path.
-/

namespace AtomicStyles

/-- One step of a path. -/
inductive Component where
  | root
  | here
  | up
  | name (s : String)
deriving Repr, DecidableEq, Inhabited

abbrev Path := List Component

namespace Path

/-- The component of a piece between separators that is not at the start of a path. -/
def inner (piece : String) : Path :=
  if piece = "" || piece = "." then [] else if piece = ".." then [.up] else [.name piece]

/-- The components of a relative text, cut at its separators. -/
def relative : List String → Path
  | [] => []
  | p :: ps => (if p = "." then [.here] else inner p) ++ ps.flatMap inner

/-- The pieces of a text between separators. -/
def pieces : List Char → List (List Char)
  | [] => [[]]
  | c :: cs =>
    match pieces cs with
    | [] => [[c]]
    | p :: ps => if c == '/' then [] :: p :: ps else (c :: p) :: ps

def ofText (s : String) : Path :=
  match (pieces s.toList).map String.ofList with
  | "" :: p :: ps => .root :: (p :: ps).flatMap inner
  | ps => relative ps

def componentText : Component → String
  | .root => "/"
  | .here => "."
  | .up => ".."
  | .name s => s

/-- Components joined by separators. -/
def joinText : Path → String
  | [] => ""
  | [c] => componentText c
  | c :: cs => componentText c ++ "/" ++ joinText cs

def text : Path → String
  | .root :: cs => "/" ++ joinText cs
  | cs => joinText cs

def isAbsolute (p : Path) : Bool := p.head? == some .root

/-- One step of normalizing; the components so far stand last first. -/
def step (acc : Path) : Component → Path
  | .root => .root :: acc
  | .here => acc
  | .up =>
    match acc with
    | [] => []
    | .root :: _ => acc
    | _ :: rest => rest
  | .name s => .name s :: acc

/-- Resolves `path` against the directory `cwd` by spelling alone. -/
def normalize (cwd path : Path) : Path :=
  (path.foldl step (if path.isAbsolute then [] else cwd.reverse)).reverse

/-- The path without its last component; the root and the empty path have no parent. -/
def parent? (p : Path) : Option Path :=
  match p with
  | [] => none
  | [.root] => none
  | _ => some p.dropLast

/-- Every directory above a path, nearest first. -/
def ancestors (p : Path) : List Path :=
  match p with
  | [] => []
  | [.root] => []
  | c :: cs => ((List.range (c :: cs).length).map fun n => (c :: cs).take n).reverse.filter
      fun q => !(c == .root && q.isEmpty)

end Path
end AtomicStyles
