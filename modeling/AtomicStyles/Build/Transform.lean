import AtomicStyles.Build.Basic

/-!
# Transforming a unit

The style calls of a unit are found, resolved, evaluated together, compiled and
rewritten. A call that fails on the way is left as it stands and reported; the others
are not affected.

## Main definitions

* `Build.resolveSites`, `Build.evaluateSites` — the values of the style calls.
* `Build.compileSite`, `Build.replaceSites` — their styles and new texts.
* `Build.transform` — a whole unit.
* `Build.transformAll` — all units of a build.
-/

namespace AtomicStyles

open Script

namespace Build

/-! ### Resolving -/

/-- Resolves the style calls one after the other; a fault of the build ends it. -/
def resolveSites (g : Graph) (writes : List (List String × List String)) :
    List Site → Resolution → Except UnitError (List Site) × Resolution
  | [], r => (.ok [], r)
  | site :: sites, r =>
    match (g.closure writes site.call).run r with
    | (.ok closure, r) =>
      let (rest, r) := resolveSites g writes sites r
      (rest.map (site.advance (.resolving closure) :: ·), r)
    | (.error e, r) =>
      match UnitError.ofUnresolved? e with
      | some fatal => (.error fatal, r)
      | none =>
        let (rest, r) := resolveSites g writes sites r
        (rest.map (site.skip ⟨.unresolvableDependency, e.message, []⟩ :: ·), r)

/-! ### Evaluating -/

def jobs (sites : List Site) : List Job :=
  sites.filterMap fun s => s.state.closure?.map fun c => ⟨s.call.argument, c.order⟩

/-- What is reported about a style call that has no value. -/
def evalFailure (f : CallFailure) (isPoisoned : Bool) : SiteFailure :=
  { kind := f.error.kind
    message := f.error.message
      ++ (if isPoisoned then " (after changing shared module state)" else "")
    failedKeys := f.keys }

/-- Gives the resolved sites their results, the first of which is that of job number `i`; a
fault of the build ends it. -/
def giveResults (poisoned : List Nat) :
    Nat → List Site → List JobResult → Except UnitError (List Site)
  | _, [], _ => .ok []
  | i, s :: ss, results =>
    match s.state.closure?, results with
    | some _, .ok v :: results => do
      return s.advance (.resolved v) :: (← giveResults poisoned (i + 1) ss results)
    | some _, .error f :: results =>
      match UnitError.ofEval? f.error with
      | some fatal => .error fatal
      | none => do
        return s.skip (evalFailure f (poisoned.contains i))
          :: (← giveResults poisoned (i + 1) ss results)
    | _, results => do return s :: (← giveResults poisoned i ss results)

def evaluateSites (b : Build) (g : Graph) (sites : List Site) (cache : ModuleCache) :
    Except UnitError (List Site × Report) × ModuleCache :=
  let batch := Batch.evaluate g ⟨b.config.maxSteps, b.config.maxDepth⟩ cache (jobs sites)
  let given := giveResults batch.poisoned 0 sites batch.results
  (given.map fun sites => (sites, batch.report), batch.cache)

/-! ### Compiling and rewriting -/

def compileSite (b : Build) (s : Site) : Site :=
  match s.state with
  | .resolved v =>
    match StyleObject.compile b.config.classPrefix v with
    | .ok c => s.advance (.compiled c)
    | .error e => s.skip ⟨.malformedStyleObject, e.message, []⟩
  | _ => s

/-- The text that replaces a call; extracted rules are not in it. -/
def callText (b : Build) (name : String) (c : Compiled) : String :=
  match b.config.emission with
  | .inline => RuntimeCall.text name c.classes c.groups
  | .extract => RuntimeCall.text name c.classes {}

def edits (b : Build) (name : String) (sites : List Site) : List Edit :=
  sites.filterMap fun s => s.compiled?.map fun c =>
    ⟨s.call.span.start, s.call.span.stop, b.callText name c⟩

def markRewritten (s : Site) : Site :=
  match s.compiled? with
  | some c => s.advance (.rewritten c)
  | none => s

def replaceSites (b : Build) (m : Module) (source : String) (sites : List Site) : String :=
  let runtime := b.config.runtimeModule
  let imported := b.config.runtimeName
  let plan := RuntimeImport.plan m source runtime imported
  let statement := RuntimeImport.statement plan.name imported runtime
  Splice.replaceCalls source (b.edits plan.name sites) (some (plan, statement))

/-! ### Reporting -/

/-- What became of a site. -/
def outcome (s : Site) : SiteOutcome :=
  match s.state with
  | .rewritten c => .rewritten c
  | .skipped f => .skipped f
  | _ => .skipped ⟨.evaluationFailure, "Call site did not complete compilation", []⟩

def diagnostic? (b : Build) (s : Site) : Option Diagnostic :=
  match s.state with
  | .skipped f =>
    some
      { severity := if b.config.warnOnUnresolved then .warning else .info
        kind := f.kind
        message := "makeStyles call is not compiled (" ++ f.kind.text ++ "): " ++ f.message
        range := s.call.span
        hints :=
          if f.failedKeys.isEmpty then []
          else ["These style keys could not be evaluated: " ++ ", ".intercalate f.failedKeys] }
  | _ => none

/-- The groups of rules of the rewritten sites that are extracted, site by site. -/
def extracted (b : Build) (sites : List Site) : List (List (String × List String)) :=
  match b.config.emission with
  | .inline => []
  | .extract => sites.filterMap fun s =>
    match s.state with
    | .rewritten c => some c.groups.entries
    | _ => none

/-- The output of a unit with finished sites, and the build with the rules extracted from
them. -/
def finish (b : Build) (code : String) (sites : List Site) (report : Report) :
    UnitOutput × Build :=
  let groups := b.extracted sites
  let artifacts := groups.foldl Sheet.insertGroups Sheet.empty
  ({ code
     artifacts := artifacts.rules
     diagnostics := sites.filterMap b.diagnostic?
     sites := sites.map fun s => (s.call.span, outcome s)
     report },
    { b with sheet := groups.foldl (fun sheet gs => (sheet.add gs).2) b.sheet })

/-! ### Units -/

def graph (b : Build) (u : SourceUnit) (m : Module) : Graph :=
  let resolve (specifier : String) : Except ResolveError ModuleId :=
    match u.imports.get? specifier with
    | some id => .ok id
    | none => b.loader.resolve u.id specifier
  { loader := b.loader, features := b.config.parseFeatures
    entry := Tables.build u.id m resolve }

def transformCalls (b : Build) (u : SourceUnit) (m : Module) (calls : List StyleCall) :
    Except UnitError UnitOutput × Build :=
  let g := b.graph u m
  let writes := g.unitWrites (calls.map StyleCall.span)
  let (resolved, r) := resolveSites g writes (calls.map fun call => { call }) { cache := b.cache }
  let b := { b with cache := r.cache }
  match resolved with
  | .error e => (.error e, b)
  | .ok sites =>
    let (evaluated, cache) := b.evaluateSites g sites r.cache
    let b := { b with cache }
    match evaluated with
    | .error e => (.error e, b)
    | .ok (sites, report) =>
      let sites := sites.map b.compileSite
      let code := b.replaceSites m u.source sites
      let (output, b) := b.finish code (sites.map markRewritten) report
      (.ok output, b)

def mentionsStyles (b : Build) (source : String) : Bool :=
  b.config.styleFunctions.any fun f => Text.contains f.name.toList source.toList

/-- Transforms a unit. One that mentions no function that defines styles is not even parsed. -/
def transform (b : Build) (u : SourceUnit) : Except UnitError UnitOutput × Build :=
  if b.mentionsStyles u.source then
    match Module.parse? b.config.parseFeatures u.source with
    | none => (.error (.malformed u.id), b)
    | some m =>
      match StyleCall.detect m b.config.styleFunctions with
      | [] => (.ok { code := u.source }, b)
      | calls => b.transformCalls u m calls
  else (.ok { code := u.source }, b)

/-- Transforms units one after the other; gives with each result the build after it. -/
def transformAll (b : Build) : List SourceUnit → List (Except UnitError UnitOutput × Build)
  | [] => []
  | u :: us =>
    let (result, b) := b.transform u
    (result, b) :: transformAll b us

end Build
end AtomicStyles
