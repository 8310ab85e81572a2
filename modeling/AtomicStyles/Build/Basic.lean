import AtomicStyles.Eval.Batch
import AtomicStyles.Output.ImportPlan
import AtomicStyles.Output.RuntimeCall
import AtomicStyles.Site.State
import AtomicStyles.Style.Sheet

/-!
# Builds and their units

A build transforms units one after the other. The modules it has loaded and the rules it
has extracted are shared by all of them.

## Main definitions

* `Build` — the state of a build.
* `SourceUnit` — a unit to transform.
* `UnitError` — why a whole unit fails.
* `Site` — a style call with its state.
* `UnitOutput` — a transformed unit.
-/

namespace AtomicStyles

structure Build where
  config : Config
  loader : Loader
  cache : ModuleCache := {}
  /-- The rules extracted so far. -/
  sheet : Sheet := {}

structure SourceUnit where
  id : ModuleId
  source : String
  /-- The modules of specifiers that are known beforehand. -/
  imports : OrderedMap String ModuleId := {}

inductive UnitError where
  | malformed (id : ModuleId)
  /-- A module that the unit needs parses with these features only. -/
  | missingFeatures (id : ModuleId) (features : List Feature)
deriving Repr, DecidableEq, Inhabited

namespace UnitError

def message : UnitError → String
  | malformed id => "Failed to parse " ++ id ++ ": " ++ malformedText
  | missingFeatures id features =>
    id ++ " needs the parser features [" ++ ", ".intercalate (features.map Feature.name)
      ++ "], which 'parserFeatures' does not enable"

/-- A module that cannot be loaded for want of features is a fault of the build; any other
failure to load is one of the style call that needs the module. -/
def ofLoad? : LoadError → Option UnitError
  | .missingFeatures id features => some (.missingFeatures id features)
  | .unreadable _ _ => none
  | .malformed _ => none

/-- The fault of the build that makes a style call unresolvable. -/
def ofUnresolved? : Unresolved → Option UnitError
  | .load e => ofLoad? e
  | _ => none

/-- The fault of the build that makes an evaluation fail. -/
def ofEval? : EvalError → Option UnitError
  | .load e => ofLoad? e
  | _ => none

end UnitError

structure Site where
  call : StyleCall
  state : SiteState Closure StyleValue Compiled := .detected

namespace Site

/-- Moves a site to the next state if that may follow. -/
def advance (s : Site) (next : SiteState Closure StyleValue Compiled) : Site :=
  { s with state := (s.state.advance next).2 }

/-- Gives up on a site. -/
def skip (s : Site) (f : SiteFailure) : Site := { s with state := s.state.skip f }

/-- The compiled styles of a site that is to be rewritten. -/
def compiled? (s : Site) : Option Compiled :=
  match s.state with
  | .compiled c => some c
  | _ => none

end Site

/-- What became of a style call. -/
inductive SiteOutcome where
  | rewritten (styles : Compiled)
  | skipped (failure : SiteFailure)

structure UnitOutput where
  /-- The source with its style calls rewritten. -/
  code : String
  /-- The rules of the rewritten calls where rules are extracted, in cascade order. -/
  artifacts : List String := []
  diagnostics : List Diagnostic := []
  sites : List (Span × SiteOutcome) := []
  report : Report := {}

end AtomicStyles
