import AtomicStyles.Json.Reader

/-!
# Configuration

The options of the compiler, read from JSON. Options stand in an object or, by
position, in an array; those that are missing have a default. Unknown and repeated
options are refused.

## Main definitions

* `Config`, `Config.ofText` — the options, and reading them.
* `Config.check` — the conditions on their values.
* `Config.styleFunctions` — the functions whose calls are compiled.
-/

namespace AtomicStyles

/-- An extension of the plain language that the parser can accept. -/
inductive Feature where
  | jsx
  | typescript
  | decorators
deriving Repr, DecidableEq, Inhabited

def Feature.name : Feature → String
  | .jsx => "jsx"
  | .typescript => "typescript"
  | .decorators => "decorators"

/-- The extensions a parse accepts. -/
structure Features where
  jsx : Bool := false
  typescript : Bool := false
  decorators : Bool := false
deriving Repr, DecidableEq, Inhabited, Hashable

def Features.ofList (fs : List Feature) : Features :=
  ⟨fs.contains .jsx, fs.contains .typescript, fs.contains .decorators⟩

/-- How the rules reach the page: inside the rewritten call, or apart from it. -/
inductive Emission where
  | inline
  | extract
deriving Repr, DecidableEq, Inhabited

/-- A function that defines styles, by the module it comes from and its exported name. -/
structure StyleFunction where
  source : String
  name : String
deriving Repr, DecidableEq, Inhabited

/-- The options of the compiler. -/
structure Config where
  moduleSource : String := "@griffel/react"
  importName : String := "makeStyles"
  aliases : List StyleFunction := []
  features : List Feature := []
  runtimeSource : Option String := none
  runtimeName : String := "__styles"
  emission : Emission := .inline
  classPrefix : String := "f"
  /-- The number of steps one evaluation may take. -/
  maxSteps : Nat := 100000
  /-- How deep calls may nest in one evaluation. -/
  maxDepth : Nat := 64
  warnOnUnresolved : Bool := true
  extensions : List String := [".ts", ".tsx", ".js", ".jsx", ".mjs"]
deriving Repr, DecidableEq, Inhabited

/-- Why a configuration is refused. -/
inductive ConfigError where
  | invalid
  | emptyOption (name : String)
  | invalidPrefix (text : String)
  | zeroLimit (name : String)
deriving Repr, DecidableEq

def ConfigError.message : ConfigError → String
  | .invalid => "Invalid style compiler configuration"
  | .emptyOption name => s!"Option '{name}' must not be empty"
  | .invalidPrefix text =>
    s!"Class name prefix '{text}' must start with a letter, '_' or '-' and contain only [A-Za-z0-9_-]"
  | .zeroLimit name => s!"Option '{name}' must be greater than zero"

namespace Config

/-! ### Reading option values -/

def readString : Json → Option String
  | .str s => some s
  | _ => none

def readBool : Json → Option Bool
  | .bool b => some b
  | _ => none

/-- A natural number below `2 ^ 64`, written as an integer. -/
def readNat : Json → Option Nat
  | .int n => if 0 ≤ n then some n.toNat else none
  | _ => none

def readList {α : Type} (f : Json → Option α) : Json → Option (List α)
  | .arr items => items.mapM f
  | _ => none

/-- One of several words, alone or as the name of an object's only field over `null`. -/
def readWord : Json → Option String
  | .str s => some s
  | .obj [(s, .null)] => some s
  | _ => none

def readFeature (v : Json) : Option Feature := do
  match ← readWord v with
  | "jsx" => some .jsx
  | "typescript" => some .typescript
  | "decorators" => some .decorators
  | _ => none

def readEmission (v : Json) : Option Emission := do
  match ← readWord v with
  | "inline" => some .inline
  | "extract" => some .extract
  | _ => none

/-- The value of a field that is written exactly once. -/
def onlyField (name : String) (fields : List (String × Json)) : Option Json :=
  match fields.filter fun f => f.1 == name with
  | [f] => some f.2
  | _ => none

def readStyleFunction : Json → Option StyleFunction
  | .obj fields => do
    let source ← onlyField "moduleSource" fields
    let name ← onlyField "importName" fields
    return ⟨← readString source, ← readString name⟩
  | .arr [source, name] => do return ⟨← readString source, ← readString name⟩
  | _ => none

/-- The options in the order of the array form, each with how it is set. -/
def setters : List (String × (Config → Json → Option Config)) :=
  [("moduleSource", fun c v => do return { c with moduleSource := ← readString v }),
    ("importName", fun c v => do return { c with importName := ← readString v }),
    ("aliases", fun c v => do return { c with aliases := ← readList readStyleFunction v }),
    ("parserFeatures", fun c v => do return { c with features := ← readList readFeature v }),
    ("runtimeSource", fun c v =>
      match v with
      | .null => some { c with runtimeSource := none }
      | v => do return { c with runtimeSource := some (← readString v) }),
    ("runtimeImportName", fun c v => do return { c with runtimeName := ← readString v }),
    ("cssEmission", fun c v => do return { c with emission := ← readEmission v }),
    ("classNamePrefix", fun c v => do return { c with classPrefix := ← readString v }),
    ("maxEvaluationSteps", fun c v => do return { c with maxSteps := ← readNat v }),
    ("maxCallDepth", fun c v => do return { c with maxDepth := ← readNat v }),
    ("warnOnUnresolved", fun c v => do return { c with warnOnUnresolved := ← readBool v }),
    ("extensions", fun c v => do return { c with extensions := ← readList readString v })]

/-- Sets the options of an object; `seen` holds the names so far. -/
def setFields (c : Config) (seen : List String) : List (String × Json) → Option Config
  | [] => some c
  | (name, v) :: rest => do
    if seen.contains name then none
    else
      let set ← setters.lookup name
      setFields (← set c v) (name :: seen) rest

def setItems (c : Config) :
    List (String × (Config → Json → Option Config)) → List Json → Option Config
  | _, [] => some c
  | [], _ :: _ => none
  | (_, set) :: sets, v :: vs => do setItems (← set c v) sets vs

/-- The options a document holds. -/
def ofJson? : Json → Option Config
  | .obj fields => setFields {} [] fields
  | .arr items => setItems {} setters items
  | _ => none

/-! ### Conditions on the values -/

/-- Whether a text may be the prefix of class names. -/
def isValidPrefix : List Char → Bool
  | [] => false
  | c :: cs =>
    (c.isAlpha || c == '_' || c == '-') && cs.all fun c => c.isAlphanum || c == '_' || c == '-'

/-- The first condition a configuration violates, in the order in which they are checked. -/
def check (c : Config) : Option ConfigError :=
  if c.moduleSource = "" then some (.emptyOption "moduleSource")
  else if c.importName = "" then some (.emptyOption "importName")
  else if c.runtimeName = "" then some (.emptyOption "runtimeImportName")
  else if c.runtimeSource = some "" then some (.emptyOption "runtimeSource")
  else if c.aliases.any fun a => a.source = "" || a.name = "" then some (.emptyOption "aliases")
  else if !isValidPrefix c.classPrefix.toList then some (.invalidPrefix c.classPrefix)
  else if c.maxSteps = 0 then some (.zeroLimit "maxEvaluationSteps")
  else if c.maxDepth = 0 then some (.zeroLimit "maxCallDepth")
  else none

/-- The configuration a document holds, if its values are allowed. -/
def ofJson (v : Json) : Except ConfigError Config :=
  match ofJson? v with
  | none => .error .invalid
  | some c =>
    match c.check with
    | some e => .error e
    | none => .ok c

/-- Reads a configuration. The further fields of a style function, an object inside two others,
are only skipped. -/
def ofText (s : String) : Except ConfigError Config :=
  match Json.parseRaw? 125 s with
  | none => .error .invalid
  | some v => ofJson v

/-! ### What follows from the options -/

/-- The functions whose calls are compiled, the main one first. -/
def styleFunctions (c : Config) : List StyleFunction := ⟨c.moduleSource, c.importName⟩ :: c.aliases

/-- Where the runtime primitive is imported from. -/
def runtimeModule (c : Config) : String := c.runtimeSource.getD c.moduleSource

/-- The extensions of the language the parser accepts. -/
def parseFeatures (c : Config) : Features := .ofList c.features

end Config
end AtomicStyles
