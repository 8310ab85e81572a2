import AtomicStyles.Graph.Tables
import AtomicStyles.Memo
import AtomicStyles.Script.Parse.Module

/-!
# Loading modules

The modules around a unit are read, parsed and tabulated at most once. A module that
cannot be loaded is not tried again. The unit itself is never loaded: its source is the
one at hand and not the one that may stand in the files.

## Main definitions

* `LoadError` — why a module has no tables.
* `Graph` — the modules as seen from one unit.
* `Graph.tables` — the tables of a module.
-/

namespace AtomicStyles

open Script

/-- Why a module cannot be used. -/
inductive LoadError where
  | unreadable (id : ModuleId) (cause : ReadError)
  | malformed (id : ModuleId)
  /-- The module parses with these features switched on besides. -/
  | missingFeatures (id : ModuleId) (features : List Feature)
deriving Repr, DecidableEq, Inhabited

/-- What is said of a source that is no module; what the fault is, is left open. -/
def malformedText : String := "Failed to parse module: ..."

def LoadError.message : LoadError → String
  | unreadable id cause => "Failed to read " ++ id ++ ": " ++ Loader.readMessage id cause
  | malformed id => "Failed to parse " ++ id ++ ": " ++ malformedText
  | missingFeatures id features =>
    id ++ " only parses with the parser features [" ++ ", ".intercalate (features.map Feature.name)
      ++ "] enabled"

namespace Features

def has (f : Features) : Feature → Bool
  | .jsx => f.jsx
  | .typescript => f.typescript
  | .decorators => f.decorators

/-- The features with others switched on. -/
def enable (f : Features) (more : List Feature) : Features :=
  ⟨f.jsx || more.contains .jsx, f.typescript || more.contains .typescript,
    f.decorators || more.contains .decorators⟩

/-- The choices out of a list, the empty one first; those without the last element come
before those with it. -/
def choices : List Feature → List (List Feature)
  | [] => [[]]
  | f :: fs => (choices fs).flatMap fun c => [c, f :: c]

/-- The choices out of the features that are off, smaller ones first. -/
def additions (f : Features) : List (List Feature) :=
  let off := [Feature.typescript, .jsx, .decorators].filter fun x => !f.has x
  ((choices off).filter fun c => !c.isEmpty).mergeSort fun a b => a.length ≤ b.length

/-- The fewest features with which a source parses besides those that are on. -/
def missing (f : Features) (source : String) : Option (List Feature) :=
  f.additions.find? fun more => (Module.parse? (f.enable more) source).isSome

end Features

/-- The modules loaded so far. -/
abbrev ModuleCache := Memo ModuleId (Except LoadError Tables)

namespace ModuleCache

/-- Reads, parses and tabulates a module. -/
def loadModule (l : Loader) (features : Features) (id : ModuleId) : Except LoadError Tables :=
  match l.read id with
  | .error e => .error (.unreadable id e)
  | .ok source =>
    match Module.parse? features source with
    | some m => .ok (Tables.build id m (l.resolve id))
    | none =>
      match features.missing source with
      | some more => .error (.missingFeatures id more)
      | none => .error (.malformed id)

/-- The tables of a module, loaded at the first request. -/
def load (c : ModuleCache) (l : Loader) (features : Features) (id : ModuleId) :
    Except LoadError Tables × ModuleCache :=
  let (r, _, c) := c.getOrInit id fun _ => loadModule l features id
  (r, c)

end ModuleCache

/-- How far a search through the modules around a unit may go: no farther than there are pairs of
characters in the sources. -/
def Loader.searchLimit (l : Loader) (entry : Tables) : Nat :=
  let sizes := l.tree.entries.map fun
    | (_, .file contents) => contents.length
    | (_, .directory) => 1
  let size := sizes.foldl (· + ·) (entry.module.depth + 16)
  size * size

structure Graph where
  loader : Loader
  features : Features
  entry : Tables
  /-- How deep a search may nest, and how many keys it may meet, before it is given up. -/
  limit : Nat := loader.searchLimit entry

namespace Graph

/-- The tables of a module; those of the unit are at hand. -/
def tables (g : Graph) (id : ModuleId) (c : ModuleCache) : Except LoadError Tables × ModuleCache :=
  if id = g.entry.id then (.ok g.entry, c) else c.load g.loader g.features id

/-- Whether the top-level code of a module runs as a whole, and not name by name. That of the
unit never does. -/
def runsWhole (g : Graph) (t : Tables) : Bool := t.hasEffects && t.id ≠ g.entry.id

end Graph
end AtomicStyles
