import AtomicStyles.Build.Transform
import AtomicStyles.Proofs.Resolving

/-!
# Every style call is accounted for

The style calls of a unit go through four passes, each of which touches only some of them:
they are resolved, those with a closure are evaluated together, those with a value are
compiled, and those with styles are rewritten. No call is lost on the way, none is left half
processed, and each gets the result of its own job.

## Main definitions

* `Build.resolutions` — what the calls resolve to.
* `Build.jobNumber` — which job belongs to a call.
* `Build.Fate` — what may become of a call, by what it resolves and evaluates to.
* `Build.Accounted` — the output of a unit says of each of its calls what became of it.

## Main results

* `Batch.length_evaluate` — a batch has one result for each job.
* `Build.giveResults_getElem?` — a call gets the result of its own job.
* `Build.transform_accounts` — **the output of a unit accounts for every call that is found.**
* `Build.detected_not_reported` — a unit that spells the name of the function with an escape is
  not looked into.
-/

namespace AtomicStyles

open Script List

/-! ### One result for each job -/

namespace Batch

theorem length_runJobs (jobs : List Job) (m : Machine) :
    (runJobs jobs m).1.length = jobs.length := by
  induction jobs generalizing m with
  | nil => rfl
  | cons job jobs ih => exact congrArg (· + 1) (ih _)

theorem length_run (g : Graph) (limits : Limits) (cache : ModuleCache) (jobs : List Job) :
    (run g limits cache jobs).results.length = jobs.length := by
  rw [run, length_map, length_runJobs]

theorem length_merge (poisoned : List Nat) (i : Nat) (results again : List JobResult) :
    (merge poisoned i results again).length = results.length := by
  induction results generalizing i again with
  | nil => rfl
  | cons r rs ih =>
    unfold merge
    split
    · exact congrArg (· + 1) (ih _ _)
    · cases again <;> exact congrArg (· + 1) (ih _ _)

theorem length_evaluate (g : Graph) (limits : Limits) (cache : ModuleCache) (jobs : List Job) :
    (evaluate g limits cache jobs).results.length = jobs.length := by
  unfold evaluate
  dsimp only
  split
  · exact length_run ..
  · rw [length_merge, length_run]

end Batch

namespace Build

/-! ### Resolving -/

/-- What calls resolve to, one after the other. -/
def resolutions (g : Graph) (writes : List (List String × List String)) :
    List StyleCall → Resolution → List (Except Unresolved Closure) × Resolution
  | [], r => ([], r)
  | call :: calls, r =>
    let (result, r) := (g.closure writes call).run r
    let (results, r) := resolutions g writes calls r
    (result :: results, r)

/-- A call once it is known what it resolves to. -/
def resolvedSite (call : StyleCall) : Except Unresolved Closure → Site
  | .ok closure => { call, state := .resolving closure }
  | .error e => { call, state := .skipped ⟨.unresolvableDependency, e.message, []⟩ }

section

variable (g : Graph) (writes : List (List String × List String))

theorem length_resolutions (calls : List StyleCall) (r : Resolution) :
    (resolutions g writes calls r).1.length = calls.length := by
  induction calls generalizing r with
  | nil => rfl
  | cons call calls ih => exact congrArg (· + 1) (ih _)

/-- The first pass, unless it comes upon a fault of the build. -/
theorem resolveSites_eq (calls : List StyleCall) (r : Resolution) :
    (∃ e, (resolveSites g writes (calls.map fun call => { call }) r).1 = .error e) ∨
    resolveSites g writes (calls.map fun call => { call }) r =
      (.ok (List.zipWith resolvedSite calls (resolutions g writes calls r).1),
        (resolutions g writes calls r).2) := by
  induction calls generalizing r with
  | nil => exact .inr rfl
  | cons call calls ih =>
    rw [map_cons, resolveSites, resolutions]
    rcases hrun : (g.closure writes call).run r with ⟨e | closure, r'⟩
    · simp only
      split
      · exact .inl ⟨_, rfl⟩
      · rcases ih r' with ⟨e', he⟩ | hrest
        · exact .inl ⟨e', by rw [he]; rfl⟩
        · exact .inr (by rw [hrest]; rfl)
    · simp only
      rcases ih r' with ⟨e', he⟩ | hrest
      · exact .inl ⟨e', by rw [he]; rfl⟩
      · exact .inr (by rw [hrest]; rfl)

end

/-! ### Evaluating -/

/-- The number of the job that belongs to the call with an index: how many calls before it have
been resolved. -/
def jobNumber (resolutions : List (Except Unresolved Closure)) (k : Nat) : Nat :=
  (resolutions.take k).countP Except.isOk

/-- A call once it has been evaluated. -/
def evaluatedSite (call : StyleCall) (resolution : Except Unresolved Closure)
    (result : Option JobResult) (isPoisoned : Bool) : Site :=
  match resolution, result with
  | .ok _, some (.ok v) => { call, state := .resolved v }
  | .ok _, some (.error f) => { call, state := .skipped (evalFailure f isPoisoned) }
  | _, _ => resolvedSite call resolution

theorem jobNumber_error (e : Unresolved) (rs : List (Except Unresolved Closure)) (k : Nat) :
    jobNumber (.error e :: rs) (k + 1) = jobNumber rs k := by
  exact countP_cons_of_neg Bool.false_ne_true

theorem jobNumber_ok (c : Closure) (rs : List (Except Unresolved Closure)) (k : Nat) :
    jobNumber (.ok c :: rs) (k + 1) = jobNumber rs k + 1 := by
  exact countP_cons_of_pos rfl

theorem evaluatedSite_none (call : StyleCall) (resolution : Except Unresolved Closure)
    (isPoisoned : Bool) : evaluatedSite call resolution none isPoisoned =
      resolvedSite call resolution := by
  cases resolution <;> rfl

/-- In the second pass a call gets the result of its own job. -/
theorem giveResults_getElem? {poisoned : List Nat} {i : Nat} {calls : List StyleCall}
    {rs : List (Except Unresolved Closure)} {results : List JobResult} {sites : List Site}
    (h : giveResults poisoned i (List.zipWith resolvedSite calls rs) results = .ok sites)
    (k : Nat) :
    sites[k]? = (calls.zip rs)[k]?.map fun (call, resolution) =>
      evaluatedSite call resolution results[jobNumber rs k]?
        (poisoned.contains (i + jobNumber rs k)) := by
  induction calls generalizing i rs results sites k with
  | nil =>
    cases h
    rfl
  | cons call calls ih =>
    cases rs with
    | nil =>
      cases h
      rfl
    | cons resolution rs =>
      rw [zipWith_cons_cons] at h
      rw [zip_cons_cons]
      cases resolution with
      | error e =>
        obtain ⟨rest, hrest, ⟨⟩⟩ := bind_eq_ok_iff.1 h
        cases k with
        | zero => rfl
        | succ k => rw [List.getElem?_cons_succ, List.getElem?_cons_succ, ih hrest, jobNumber_error]
      | ok closure =>
        cases results with
        | nil =>
          obtain ⟨rest, hrest, ⟨⟩⟩ := bind_eq_ok_iff.1 h
          cases k with
          | zero => rfl
          | succ k =>
            rw [List.getElem?_cons_succ, List.getElem?_cons_succ, ih hrest]
            simp only [List.getElem?_nil, evaluatedSite_none]
        | cons result results =>
          -- The job of this call comes before those of the calls after it.
          have hnext k : i + 1 + jobNumber rs k = i + jobNumber (.ok closure :: rs) (k + 1) := by
            rw [jobNumber_ok]
            omega
          cases result with
          | ok v =>
            obtain ⟨rest, hrest, ⟨⟩⟩ := bind_eq_ok_iff.1 h
            cases k with
            | zero => rfl
            | succ k =>
              rw [List.getElem?_cons_succ, List.getElem?_cons_succ, ih hrest, hnext, jobNumber_ok,
                List.getElem?_cons_succ]
          | error f =>
            simp only [resolvedSite, giveResults, SiteState.closure?] at h
            split at h
            · cases h
            · obtain ⟨rest, hrest, ⟨⟩⟩ := bind_eq_ok_iff.1 h
              cases k with
              | zero => rfl
              | succ k =>
                rw [List.getElem?_cons_succ, List.getElem?_cons_succ, ih hrest, hnext,
                  jobNumber_ok, List.getElem?_cons_succ]

/-- The job of a resolved call is there. -/
theorem jobNumber_lt {calls : List StyleCall} {rs : List (Except Unresolved Closure)} {k : Nat}
    {call : StyleCall} {closure : Closure} (h : (calls.zip rs)[k]? = some (call, .ok closure)) :
    jobNumber rs k < (jobs (List.zipWith resolvedSite calls rs)).length := by
  induction calls generalizing rs k with
  | nil => cases h
  | cons first calls ih =>
    cases rs with
    | nil => cases h
    | cons resolution rs =>
      rw [zip_cons_cons] at h
      rw [zipWith_cons_cons]
      cases k with
      | zero =>
        cases h
        exact Nat.succ_pos _
      | succ k =>
        have hlt := ih (List.getElem?_cons_succ ▸ h)
        cases resolution with
        | error e => rw [jobNumber_error]; exact hlt
        | ok c => rw [jobNumber_ok]; exact Nat.succ_lt_succ hlt

/-! ### Compiling and rewriting -/

/-- What becomes of a call, by what it resolves to and, if it has a job, by the result of the
job. -/
inductive Fate (b : Build) : Except Unresolved Closure → Option JobResult → Bool →
    SiteState Closure StyleValue Compiled → Prop
  | unresolved (e : Unresolved) (result : Option JobResult) (isPoisoned : Bool) :
    Fate b (.error e) result isPoisoned (.skipped ⟨.unresolvableDependency, e.message, []⟩)
  | failed (c : Closure) (f : CallFailure) (isPoisoned : Bool) :
    Fate b (.ok c) (some (.error f)) isPoisoned (.skipped (evalFailure f isPoisoned))
  | malformed (c : Closure) (v : StyleValue) (isPoisoned : Bool) (e : StyleError)
    (h : StyleObject.compile b.config.classPrefix v = .error e) :
    Fate b (.ok c) (some (.ok v)) isPoisoned (.skipped ⟨.malformedStyleObject, e.message, []⟩)
  | rewritten (c : Closure) (v : StyleValue) (isPoisoned : Bool) (styles : Compiled)
    (h : StyleObject.compile b.config.classPrefix v = .ok styles) :
    Fate b (.ok c) (some (.ok v)) isPoisoned (.rewritten styles)

/-- A site that has been through the third pass. -/
def Compilable (s : Site) : Prop := (∃ c, s.state = .compiled c) ∨ ∃ f, s.state = .skipped f

theorem call_evaluatedSite (call : StyleCall) (resolution : Except Unresolved Closure)
    (result : Option JobResult) (isPoisoned : Bool) :
    (evaluatedSite call resolution result isPoisoned).call = call := by
  unfold evaluatedSite
  split
  · rfl
  · rfl
  · cases resolution <;> rfl

theorem call_compileSite (b : Build) (s : Site) : (b.compileSite s).call = s.call := by
  unfold compileSite
  split
  · split <;> rfl
  · rfl

/-- The last two passes over a call that has been evaluated if it has a job. -/
theorem compileSite_evaluatedSite (b : Build) (call : StyleCall)
    (resolution : Except Unresolved Closure) (result : Option JobResult) (isPoisoned : Bool)
    (h : ∀ c, resolution = .ok c → result ≠ none) :
    Compilable (b.compileSite (evaluatedSite call resolution result isPoisoned)) ∧
      Fate b resolution result isPoisoned
        (markRewritten (b.compileSite (evaluatedSite call resolution result isPoisoned))).state := by
  cases resolution with
  | error e => exact ⟨.inr ⟨_, rfl⟩, .unresolved ..⟩
  | ok c =>
    rcases result with _ | f | v
    · exact absurd rfl (h c rfl)
    · exact ⟨.inr ⟨_, rfl⟩, .failed ..⟩
    · simp only [evaluatedSite, compileSite]
      cases hv : StyleObject.compile b.config.classPrefix v with
      | error e => exact ⟨.inr ⟨_, rfl⟩, .malformed c v _ e hv⟩
      | ok styles => exact ⟨.inl ⟨styles, rfl⟩, .rewritten c v _ styles hv⟩

theorem call_markRewritten (s : Site) : (markRewritten s).call = s.call := by
  unfold markRewritten
  split <;> rfl

theorem markRewritten_compiled {s : Site} {c : Compiled} (h : s.state = .compiled c) :
    markRewritten s = { s with state := .rewritten c } := by
  have hc : s.compiled? = some c := by rw [Site.compiled?, h]
  unfold markRewritten
  rw [hc]
  dsimp only [Site.advance]
  rw [h]
  rfl

theorem markRewritten_skipped {s : Site} {f : SiteFailure} (h : s.state = .skipped f) :
    markRewritten s = s := by
  have hc : s.compiled? = none := by rw [Site.compiled?, h]
  unfold markRewritten
  rw [hc]

/-! ### Reporting -/

/-- The range and the styles of a call that was rewritten. -/
def rewritten? : Span × SiteOutcome → Option (Span × Compiled)
  | (span, .rewritten c) => some (span, c)
  | (_, .skipped _) => none

/-- The range and the failure of a call that was skipped. -/
def skipped? : Span × SiteOutcome → Option (Span × SiteFailure)
  | (_, .rewritten _) => none
  | (span, .skipped f) => some (span, f)

def reports (sites : List Site) : List (Span × SiteOutcome) :=
  sites.map fun s => (s.call.span, outcome s)

section

variable (b : Build) {sites : List Site} (h : ∀ s ∈ sites, Compilable s)

include h

theorem edits_eq (name : String) : b.edits name sites =
    ((reports (sites.map markRewritten)).filterMap rewritten?).map fun (span, c) =>
      ⟨span.start, span.stop, b.callText name c⟩ := by
  rw [edits, reports, map_map, filterMap_map, map_filterMap]
  refine filterMap_congr fun s hs => ?_
  rcases h s hs with ⟨c, hc⟩ | ⟨f, hf⟩
  · simp [Site.compiled?, markRewritten_compiled hc, hc, rewritten?, outcome]
  · simp [Site.compiled?, markRewritten_skipped hf, hf, rewritten?, outcome]

theorem diagnostics_eq : ((sites.map markRewritten).filterMap b.diagnostic?).map
      (fun d => (d.range, d.kind)) =
    ((reports (sites.map markRewritten)).filterMap skipped?).map fun (span, f) => (span, f.kind) := by
  rw [reports, map_map, filterMap_map, filterMap_map, map_filterMap,
    map_filterMap]
  refine filterMap_congr fun s hs => ?_
  rcases h s hs with ⟨c, hc⟩ | ⟨f, hf⟩
  · simp [markRewritten_compiled hc, diagnostic?, skipped?, outcome]
  · simp [markRewritten_skipped hf, hf, diagnostic?, skipped?, outcome]

end

/-! ### Units -/

section

variable (b : Build) (u : SourceUnit) (m : Module) (calls : List StyleCall)

def unitResolutions : List (Except Unresolved Closure) × Resolution :=
  resolutions (b.graph u m) ((b.graph u m).unitWrites (calls.map StyleCall.span)) calls
    { cache := b.cache }

/-- The outcome of the jobs of a unit. -/
def unitBatch : Batch :=
  Batch.evaluate (b.graph u m) ⟨b.config.maxSteps, b.config.maxDepth⟩
    (b.unitResolutions u m calls).2.cache
    (jobs (List.zipWith resolvedSite calls (b.unitResolutions u m calls).1))

/-- The site of the call with an index has the fate that its own resolution and its own job give
it. -/
def HasFate (k : Nat) (s : Site) : Prop :=
  ∃ resolution, (b.unitResolutions u m calls).1[k]? = some resolution ∧
    b.Fate resolution
      (b.unitBatch u m calls).results[jobNumber (b.unitResolutions u m calls).1 k]?
      ((b.unitBatch u m calls).poisoned.contains (jobNumber (b.unitResolutions u m calls).1 k))
      s.state

/-- The text of the import that rewritten calls need, and where it goes. -/
def runtimeImport (source : String) : RuntimeImport × String :=
  let plan := RuntimeImport.plan m source b.config.runtimeModule b.config.runtimeName
  (plan, RuntimeImport.statement plan.name b.config.runtimeName b.config.runtimeModule)

end

variable {b b' : Build} {u : SourceUnit} {m : Module} {calls : List StyleCall} {output : UnitOutput}

/-- A unit with output comes upon no fault of the build. -/
theorem transformCalls_eq_ok (h : b.transformCalls u m calls = (.ok output, b')) :
    ∃ sites, giveResults (b.unitBatch u m calls).poisoned 0
        (List.zipWith resolvedSite calls (b.unitResolutions u m calls).1)
        (b.unitBatch u m calls).results = .ok sites ∧
      (output, b') = finish { b with cache := (b.unitBatch u m calls).cache }
        (b.replaceSites m u.source (sites.map b.compileSite))
        ((sites.map b.compileSite).map markRewritten) (b.unitBatch u m calls).report := by
  have hpass := resolveSites_eq (b.graph u m)
    ((b.graph u m).unitWrites (calls.map StyleCall.span)) calls { cache := b.cache }
  unfold transformCalls at h
  dsimp only at h
  rcases hpass with ⟨e, he⟩ | hok
  · rw [he] at h
    cases h
  · rw [hok] at h
    dsimp only [evaluateSites] at h
    unfold unitBatch unitResolutions
    generalize hgive : giveResults _ 0 _ _ = given at h ⊢
    cases given with
    | error e => cases h
    | ok sites =>
      cases h
      exact ⟨sites, rfl, rfl⟩

/-- The sites of a unit after the third pass, and the output that is made of them. -/
theorem transformCalls_ok (h : b.transformCalls u m calls = (.ok output, b')) :
    ∃ sites : List Site, sites.map Site.call = calls ∧ (∀ s ∈ sites, Compilable s) ∧
      (∀ k s, sites[k]? = some s → b.HasFate u m calls k (markRewritten s)) ∧
      (output, b') = finish { b with cache := (b.unitBatch u m calls).cache }
        (b.replaceSites m u.source sites) (sites.map markRewritten)
        (b.unitBatch u m calls).report := by
  obtain ⟨given, hgiven, hfinish⟩ := transformCalls_eq_ok h
  have hget k : (given.map b.compileSite)[k]? =
      (calls.zip (b.unitResolutions u m calls).1)[k]?.map fun (call, resolution) =>
        b.compileSite (evaluatedSite call resolution
          (b.unitBatch u m calls).results[jobNumber (b.unitResolutions u m calls).1 k]?
          ((b.unitBatch u m calls).poisoned.contains
            (jobNumber (b.unitResolutions u m calls).1 k))) := by
    rw [List.getElem?_map, giveResults_getElem? hgiven, Option.map_map, Nat.zero_add]
    rfl
  have hsite k s (hs : (given.map b.compileSite)[k]? = some s) :
      Compilable s ∧ b.HasFate u m calls k (markRewritten s) := by
    rw [hget, Option.map_eq_some_iff] at hs
    obtain ⟨⟨call, resolution⟩, hk, rfl⟩ := hs
    -- A call that has been resolved has a job, and the job has a result.
    have hjob c (hc : resolution = .ok c) :
        (b.unitBatch u m calls).results[jobNumber (b.unitResolutions u m calls).1 k]? ≠ none := by
      have hlt := jobNumber_lt (hc ▸ hk)
      rw [← Batch.length_evaluate (b.graph u m) ⟨b.config.maxSteps, b.config.maxDepth⟩
        (b.unitResolutions u m calls).2.cache] at hlt
      exact fun hnone => absurd hlt (not_lt.2 (List.getElem?_eq_none_iff.1 hnone))
    obtain ⟨hc, hfate⟩ := b.compileSite_evaluatedSite call resolution _
      ((b.unitBatch u m calls).poisoned.contains (jobNumber (b.unitResolutions u m calls).1 k)) hjob
    exact ⟨hc, resolution, (List.getElem?_zip_eq_some.1 hk).2, hfate⟩
  refine ⟨given.map b.compileSite, ?_, ?_, fun k s hs => (hsite k s hs).2, hfinish⟩
  · have hlen : calls.length ≤ (b.unitResolutions u m calls).1.length :=
      (length_resolutions ..).ge
    conv_rhs => rw [← map_fst_zip hlen]
    refine ext_getElem? fun k => ?_
    rw [List.getElem?_map, hget, Option.map_map, List.getElem?_map]
    congr 1
    funext ⟨call, resolution⟩
    exact (b.call_compileSite _).trans (call_evaluatedSite ..)
  · intro s hs
    obtain ⟨k, hk⟩ := mem_iff_getElem?.1 hs
    exact (hsite k s hk).1

/-- The output of a unit says of each of its calls what became of it: a call has a fate of its own,
which is reported in its place; the calls that are replaced are those that are rewritten, and
those in the diagnostics are those that are skipped. -/
structure Accounted (b : Build) (u : SourceUnit) (m : Module) (sites : List Site)
    (output : UnitOutput) : Prop where
  calls : sites.map Site.call = StyleCall.detect m b.config.styleFunctions
  fates : ∀ k s, sites[k]? = some s →
    b.HasFate u m (StyleCall.detect m b.config.styleFunctions) k s
  terminal : ∀ s ∈ sites, s.state.isTerminal = true
  reports : output.sites = reports sites
  diagnostics : output.diagnostics.map (fun d => (d.range, d.kind)) =
    (output.sites.filterMap skipped?).map fun (span, f) => (span, f.kind)
  code : output.code = Splice.replaceCalls u.source
    ((output.sites.filterMap rewritten?).map fun (span, c) =>
      ⟨span.start, span.stop, b.callText (b.runtimeImport m u.source).1.name c⟩)
    (some (b.runtimeImport m u.source))
  unchanged : output.sites.filterMap rewritten? = [] → output.code = u.source

theorem Fate.isTerminal {resolution : Except Unresolved Closure} {result : Option JobResult}
    {isPoisoned : Bool} {state : SiteState Closure StyleValue Compiled}
    (h : b.Fate resolution result isPoisoned state) : state.isTerminal = true := by
  cases h <;> rfl

/-- The styles of a rewritten call come from the compiler. -/
theorem Fate.exists_compile {resolution : Except Unresolved Closure} {result : Option JobResult}
    {isPoisoned : Bool} {c : Compiled} (h : b.Fate resolution result isPoisoned (.rewritten c)) :
    ∃ v, StyleObject.compile b.config.classPrefix v = .ok c := by
  cases h with
  | rewritten _ v _ _ hv => exact ⟨v, hv⟩

theorem accounted_of_transformCalls
    (h : b.transformCalls u m (StyleCall.detect m b.config.styleFunctions) = (.ok output, b')) :
    ∃ sites, b.Accounted u m sites output := by
  obtain ⟨sites, hcalls, hcompilable, hfates, hfinish⟩ := transformCalls_ok h
  have hfate k s (hs : (sites.map markRewritten)[k]? = some s) :
      b.HasFate u m (StyleCall.detect m b.config.styleFunctions) k s := by
    rw [List.getElem?_map, Option.map_eq_some_iff] at hs
    obtain ⟨s, hs, rfl⟩ := hs
    exact hfates k s hs
  cases hfinish
  have hcode : b.replaceSites m u.source sites = Splice.replaceCalls u.source
      (((reports (sites.map markRewritten)).filterMap rewritten?).map fun (span, c) =>
        ⟨span.start, span.stop, b.callText (b.runtimeImport m u.source).1.name c⟩)
      (some (b.runtimeImport m u.source)) := by
    rw [← edits_eq b hcompilable]
    rfl
  refine ⟨sites.map markRewritten, ?_, hfate, ?_, rfl, ?_, hcode, fun hnone => ?_⟩
  · rw [← hcalls, map_map]
    exact map_congr_left fun s _ => call_markRewritten s
  · intro s hs
    obtain ⟨k, hk⟩ := mem_iff_getElem?.1 hs
    obtain ⟨_, _, hstate⟩ := hfate k s hk
    exact hstate.isTerminal
  · exact diagnostics_eq _ hcompilable
  · refine hcode.trans ?_
    have hnone' : (reports (sites.map markRewritten)).filterMap rewritten? = [] := hnone
    rw [hnone']
    rfl

/-- The output of a unit accounts for every call that is found in it. A unit that does not mention a
function that defines styles is left as it is, without a look into it. -/
theorem transform_accounts (h : b.transform u = (.ok output, b')) :
    (b.mentionsStyles u.source = true → ∃ m sites,
      Module.parse? b.config.parseFeatures u.source = some m ∧ b.Accounted u m sites output) ∧
    (b.mentionsStyles u.source = false → output = { code := u.source } ∧ b' = b) := by
  unfold transform at h
  refine ⟨fun hm => ?_, fun hm => ?_⟩
  · rw [if_pos hm] at h
    cases hparse : Module.parse? b.config.parseFeatures u.source with
    | none =>
      rw [hparse] at h
      cases h
    | some m =>
      rw [hparse] at h
      dsimp only at h
      split at h
      · -- No call is found, and there is nothing to account for.
        rename_i hdetect
        cases h
        exact ⟨m, [], rfl, hdetect.symm, fun _ _ hs => (by cases hs), fun _ hs => (by cases hs),
          rfl, rfl, rfl, fun _ => rfl⟩
      · obtain ⟨sites, hsites⟩ := accounted_of_transformCalls h
        exact ⟨m, sites, rfl, hsites⟩
  · rw [if_neg (Bool.eq_false_iff.1 hm)] at h
    cases h
    exact ⟨rfl, rfl⟩

/-- A build whose style function is `css` of `lib`. -/
def smallBuild : Build where
  config := { moduleSource := "lib", importName := "css" }
  loader := {}

/-- `import {css} from 'lib'; css({a: {color: 'red'}}); css({b: x})`; nothing declares `x`. -/
def mixedUnit : SourceUnit where
  id := "/unit"
  source := "import \x7bcss\x7d from 'lib'; css(\x7ba: \x7bcolor: 'red'\x7d\x7d); css(\x7bb: x\x7d)"

/-- The first call is rewritten, and the second one is skipped. -/
theorem transform_accounts_mixed : ∃ output b', smallBuild.transform mixedUnit = (.ok output, b') ∧
    (∃ m sites, Module.parse? smallBuild.config.parseFeatures mixedUnit.source = some m ∧
      smallBuild.Accounted mixedUnit m sites output) ∧
    output.sites.map (fun site => ((rewritten? site).isSome, (skipped? site).isSome)) =
      [(true, false), (false, true)] := by
  have hfates : (smallBuild.transform mixedUnit).1.toOption.map (fun output => output.sites.map
      fun site => ((rewritten? site).isSome, (skipped? site).isSome)) =
      some [(true, false), (false, true)] := by decide +kernel
  rcases h : smallBuild.transform mixedUnit with ⟨e | output, b'⟩
  · rw [h] at hfates
    cases hfates
  · rw [h] at hfates
    exact ⟨output, b', rfl, (transform_accounts h).1 (by decide +kernel), Option.some.inj hfates⟩

/-- A unit that calls the style function of a namespace with the namespace itself and spells the
name of the function with an escape. -/
def escapedUnit : SourceUnit where
  id := "/unit"
  source := "import * as g from 'lib';g['c\\x73s'](g);"

/-- The syntax of this unit. -/
def escapedModule : Module where
  items := [
    .imports [.everything ⟨"g", 12⟩] "lib" false,
    .stmt (.expr (.call (.member (.ident ⟨"g", 25⟩) (.computed (.str "css")))
      [.ident ⟨"g", 37⟩] ⟨25, 39⟩) ⟨25, 40⟩)]
  depth := 232

/-- Whether a module is the one above. -/
def isEscaped (m : Module) : Bool :=
  match m.items with
  | [.imports [.everything a] source false,
      .stmt (.expr (.call (.member (.ident b) (.computed (.str name))) [.ident c] call) stmt)] =>
    decide (a = ⟨"g", 12⟩ ∧ source = "lib" ∧ b = ⟨"g", 25⟩ ∧ name = "css" ∧ c = ⟨"g", 37⟩ ∧
      call = ⟨25, 39⟩ ∧ stmt = ⟨25, 40⟩ ∧ m.typeNames = [] ∧ m.depth = 232)
  | _ => false

theorem eq_escapedModule {m : Module} (h : isEscaped m = true) : m = escapedModule := by
  obtain ⟨items, typeNames, depth⟩ := m
  unfold isEscaped at h
  split at h
  · rename_i hitems
    obtain ⟨rfl, rfl, rfl, rfl, rfl, rfl, rfl, rfl, rfl⟩ := of_decide_eq_true h
    subst hitems
    rfl
  · cases h

/-- One call is found in the unit, but nothing is reported about it. -/
theorem detected_not_reported :
    (∃ m, Module.parse? smallBuild.config.parseFeatures escapedUnit.source = some m ∧
      StyleCall.detect m smallBuild.config.styleFunctions =
        [⟨⟨25, 39⟩, .ident ⟨"g", 37⟩, .ofExpr (.ident ⟨"g", 37⟩), []⟩]) ∧
    smallBuild.transform escapedUnit = (.ok { code := escapedUnit.source }, smallBuild) := by
  have hm : smallBuild.mentionsStyles escapedUnit.source = false := by decide +kernel
  have hescaped : (Module.parse? smallBuild.config.parseFeatures escapedUnit.source).any
      isEscaped = true := by decide +kernel
  rw [transform, if_neg (Bool.eq_false_iff.1 hm)]
  cases hparse : Module.parse? smallBuild.config.parseFeatures escapedUnit.source with
  | none =>
    rw [hparse] at hescaped
    cases hescaped
  | some m =>
    rw [hparse] at hescaped
    cases eq_escapedModule hescaped
    exact ⟨⟨_, rfl, by cbv⟩, rfl⟩

end Build
end AtomicStyles
