import AtomicStyles.Files.Path

/-!
# Trees of files in memory

A tree maps normalized paths to files and directories and has a current directory
that relative paths are resolved against. Writing a file makes all its ancestors
directories, also those that were files.

## Main definitions

* `Tree.write`, `Tree.enter` — the operations that change a tree.
* `Tree.read`, `Tree.isFile`, `Tree.isDirectory` — what a tree answers.
-/

namespace AtomicStyles

/-- What stands at a path. -/
inductive Entry where
  | file (contents : String)
  | directory
deriving Repr, DecidableEq, Inhabited

/-- Why a file cannot be read. -/
inductive ReadError where
  | notFound
  | isDirectory
deriving Repr, DecidableEq, Inhabited

def ReadError.message : ReadError → String
  | .notFound => "File not found"
  | .isDirectory => "Path is a directory"

/-- Files and directories by normalized path. -/
structure Tree where
  entries : List (Path × Entry) := []
  cwd : Path := [.root]
deriving Repr, Inhabited

namespace Tree

def empty : Tree := {}

/-- The path a text stands for in this tree. -/
def resolve (t : Tree) (path : String) : Path := Path.normalize t.cwd (Path.ofText path)

/-- What stands at a normalized path: the entry stored last. -/
def entry? (t : Tree) (p : Path) : Option Entry := t.entries.lookup p

/-- Stores an entry at a normalized path. -/
def put (t : Tree) (p : Path) (e : Entry) : Tree := { t with entries := (p, e) :: t.entries }

/-- Stores the directories above `p`, then the file. -/
def writeAt (t : Tree) (p : Path) (contents : String) : Tree :=
  ((Path.ancestors p).foldl (fun t q => t.put q .directory) t).put p (.file contents)

/-- Writes a file and makes every directory above it. -/
def write (t : Tree) (path contents : String) : Tree := t.writeAt (t.resolve path) contents

/-- Changes the current directory. -/
def enter (t : Tree) (path : String) : Tree := { t with cwd := t.resolve path }

def read (t : Tree) (path : String) : Except ReadError String :=
  match t.entry? (t.resolve path) with
  | none => .error .notFound
  | some (.file contents) => .ok contents
  | some .directory => .error .isDirectory

def isFile (t : Tree) (path : String) : Bool :=
  match t.entry? (t.resolve path) with
  | some (.file _) => true
  | _ => false

def isDirectory (t : Tree) (path : String) : Bool :=
  match t.entry? (t.resolve path) with
  | some .directory => true
  | _ => false

/-- A tree with the given files written in order. -/
def ofFiles (files : List (String × String)) : Tree :=
  files.foldl (fun t f => t.write f.1 f.2) empty

end Tree
end AtomicStyles
