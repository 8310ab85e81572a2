import AtomicStyles.Build.Transform
import AtomicStyles.Proofs.Coupling.Loading

/-!
# A unit does not depend on the units before it

The units of a build share the modules that have been loaded. Since a build holds of a module
nothing but what loading gives, what a unit is transformed into is the same after any other
units, and the same as in a build that begins with it.

## Main definitions

* `ModuleCache.Sound` — only what loading gives is held.
* `Build.Sound` — the same of a build.
* `Build.fresh` — the build as it begins.
* `Build.afterAll` — the build after units.

## Main results

* `Batch.evaluate_recached` — jobs come to the same results whatever has been loaded.
* `Build.transform_history` — **what a unit is transformed into does not depend on the history of
  the build.**
* `Build.results_transformAll` — so each unit of a build is transformed as if it came first.
-/

namespace AtomicStyles

open Script Eval Coupling

def ModuleCache.Sound (l : Loader) (features : Features) (c : ModuleCache) : Prop :=
  ∀ id e, c.get? id = some e → e = ModuleCache.loadModule l features id

theorem ModuleCache.Sound.empty (l : Loader) (features : Features) :
    ModuleCache.Sound l features {} :=
  fun _ _ h => by cases h

/-! ### Jobs -/

namespace Batch

variable {g : Graph} {m m' : Machine}

theorem recached_start (limits : Limits) {cache cache' : ModuleCache}
    (h : cache.Sound g.loader g.features) (h' : cache'.Sound g.loader g.features) :
    Recached g (.start g limits cache) (.start g limits cache') :=
  ⟨⟨rfl, h⟩, ⟨rfl, h'⟩, rfl⟩

theorem resultOf_alike {R : Machine → Machine → Prop} {x y : EStateM.Result EvalError Machine JobResult}
    (h : Alike R x y) : (resultOf x).1 = (resultOf y).1 ∧ R (resultOf x).2 (resultOf y).2 := by
  cases x <;> cases y
  · exact h
  · exact h.elim
  · exact h.elim
  · obtain ⟨rfl, hR⟩ := h
    exact ⟨rfl, hR⟩

/-- A job on two machines that differ only in what has been loaded. -/
theorem runJob_recached (h : Recached g m m') (job : Job) :
    (runJob job m).1 = (runJob job m').1 ∧ Recached g (runJob job m).2 (runJob job m').2 := by
  have hreset : Recached g m.reset m'.reset :=
    ⟨⟨h.left.graph, h.left.cache⟩, ⟨h.right.graph, h.right.cache⟩, by rw [h.eq]; rfl⟩
  obtain ⟨hvalue, hmachine⟩ := resultOf_alike <| (Recached.kept g).has_callValue
    m.nesting job.argument job.needed _ _ hreset
  have hbefore : m.mutations = m'.mutations := by rw [h.eq]
  have hafter := congrArg Machine.mutations hmachine.eq
  have hrun m : runJob job m =
      (((resultOf (runCall (interp m.nesting) job.argument job.needed m)).1,
        !(resultOf (runCall (interp m.nesting) job.argument job.needed m)).1.isOk &&
          decide (m.mutations <
            (resultOf (runCall (interp m.nesting) job.argument job.needed m)).2.mutations)),
        (resultOf (runCall (interp m.nesting) job.argument job.needed m)).2) := rfl
  have hcall n m : runCall (interp n) job.argument job.needed m =
      callValue (interp n) job.argument job.needed m.reset := rfl
  rw [hrun m, hrun m', ← h.nesting_eq, hcall, hcall, hvalue, hafter, hbefore]
  exact ⟨rfl, hmachine⟩

/-- The same of jobs one after the other. -/
theorem runJobs_recached (h : Recached g m m') (jobs : List Job) :
    (runJobs jobs m).1 = (runJobs jobs m').1 ∧
      Recached g (runJobs jobs m).2 (runJobs jobs m').2 := by
  induction jobs generalizing m m' with
  | nil => exact ⟨rfl, h⟩
  | cons job jobs ih =>
    obtain ⟨hfirst, hmachine⟩ := runJob_recached h job
    obtain ⟨hrest, hlast⟩ := ih hmachine
    exact ⟨congrArg₂ List.cons hfirst hrest, hlast⟩

/-- Batches that differ only in the modules that they have loaded, which are as loading gives
them. -/
structure SameRun (g : Graph) (b b' : Batch) : Prop where
  results : b.results = b'.results
  poisoned : b.poisoned = b'.poisoned
  report : b.report = b'.report
  sound : b.cache.Sound g.loader g.features
  sound' : b'.cache.Sound g.loader g.features

section

variable (limits : Limits) (jobs : List Job) {cache cache' : ModuleCache}
  (h : cache.Sound g.loader g.features) (h' : cache'.Sound g.loader g.features)

include h h'

theorem run_recached : SameRun g (run g limits cache jobs) (run g limits cache' jobs) := by
  obtain ⟨hresults, hmachine⟩ := runJobs_recached (recached_start limits h h') jobs
  constructor
  · exact congrArg (List.map _) hresults
  · exact congrArg (fun rs => (List.zipIdx rs).filterMap _) hresults
  · exact (congrArg Machine.report hmachine.eq :)
  · exact hmachine.left.cache
  · exact hmachine.right.cache

theorem evaluate_recached :
    SameRun g (evaluate g limits cache jobs) (evaluate g limits cache' jobs) := by
  have hfirst := run_recached limits jobs h h'
  unfold evaluate
  dsimp only
  rw [hfirst.poisoned]
  split
  · exact hfirst
  · have hsecond := run_recached limits (clean (run g limits cache' jobs).poisoned jobs)
      hfirst.sound hfirst.sound'
    constructor
    · dsimp only
      rw [hfirst.results, hsecond.results]
    · rfl
    · dsimp only
      rw [hsecond.report]
    · exact hsecond.sound
    · exact hsecond.sound'

end

end Batch

/-! ### Units -/

namespace Build

/-- A build holds of a module only what loading gives. -/
def Sound (b : Build) : Prop := b.cache.Sound b.loader b.config.parseFeatures

def fresh (b : Build) : Build := { config := b.config, loader := b.loader }

/-- The first pass does not depend on what is known, as long as that is sound. -/
theorem resolveSites_steady (g : Graph) (writes : List (List String × List String))
    (sites : List Site) {r r' : Resolution} (h : r.Sound g) (h' : r'.Sound g) :
    (resolveSites g writes sites r).1 = (resolveSites g writes sites r').1 ∧
      (resolveSites g writes sites r).2.Sound g := by
  induction sites generalizing r r' with
  | nil => exact ⟨rfl, h⟩
  | cons site sites ih =>
    have hsteady := g.steady_closure writes site.call
    have hvalue := (hsteady.value_eq r h).trans (hsteady.value_eq r' h').symm
    have hsound := hsteady.sound r h
    have hsound' := hsteady.sound r' h'
    unfold Resolving.result at hvalue hsound hsound'
    unfold resolveSites
    rcases hr : (g.closure writes site.call).run r with ⟨e | closure, s⟩ <;>
      rcases hr' : (g.closure writes site.call).run r' with ⟨e' | closure', s'⟩ <;>
      rw [hr, hr'] at hvalue <;> rw [hr] at hsound <;> rw [hr'] at hsound'
    · obtain rfl := Except.error.inj hvalue
      dsimp only
      split
      · exact ⟨rfl, hsound⟩
      · obtain ⟨hrest, hlast⟩ := ih hsound hsound'
        exact ⟨congrArg (Except.map _) hrest, hlast⟩
    · cases hvalue
    · cases hvalue
    · obtain rfl := Except.ok.inj hvalue
      obtain ⟨hrest, hlast⟩ := ih hsound hsound'
      exact ⟨congrArg (Except.map _) hrest, hlast⟩

variable {b : Build}

/-- What calls are transformed into does not depend on the history of the build, and the build
stays sound. -/
theorem transformCalls_history (h : b.Sound) (u : SourceUnit) (m : Module) (calls : List StyleCall) :
    (b.transformCalls u m calls).1 = (b.fresh.transformCalls u m calls).1 ∧
      (b.transformCalls u m calls).2.Sound ∧ (b.transformCalls u m calls).2.fresh = b.fresh := by
  have hr : ({ cache := b.cache } : Resolution).Sound (b.graph u m) := ⟨h, fun _ _ he => by cases he⟩
  have hr' : ({ cache := b.fresh.cache } : Resolution).Sound (b.graph u m) := .empty _
  obtain ⟨hsites, hsound⟩ := resolveSites_steady (b.graph u m)
    ((b.graph u m).unitWrites (calls.map StyleCall.span)) (calls.map fun call => { call }) hr hr'
  obtain ⟨-, hsound'⟩ := resolveSites_steady (b.graph u m)
    ((b.graph u m).unitWrites (calls.map StyleCall.span)) (calls.map fun call => { call }) hr' hr
  have hgraph : b.fresh.graph u m = b.graph u m := rfl
  unfold transformCalls
  rw [hgraph]
  dsimp only
  generalize resolveSites (b.graph u m) _ _ { cache := b.cache } = first at hsites hsound ⊢
  generalize resolveSites (b.graph u m) _ _ { cache := b.fresh.cache } = first' at hsites hsound' ⊢
  obtain ⟨resolved, r⟩ := first
  obtain ⟨resolved', r'⟩ := first'
  obtain rfl : resolved = resolved' := hsites
  cases resolved with
  | error e => exact ⟨rfl, hsound.cache, rfl⟩
  | ok sites =>
    have hbatch := Batch.evaluate_recached ⟨b.config.maxSteps, b.config.maxDepth⟩ (jobs sites)
      hsound.cache hsound'.cache
    dsimp only [evaluateSites, fresh]
    rw [hbatch.results, hbatch.poisoned, hbatch.report]
    cases giveResults (Batch.evaluate (b.graph u m) ⟨b.config.maxSteps, b.config.maxDepth⟩ r'.cache
      (jobs sites)).poisoned 0 sites (Batch.evaluate (b.graph u m)
        ⟨b.config.maxSteps, b.config.maxDepth⟩ r'.cache (jobs sites)).results with
    | error e => exact ⟨rfl, hbatch.sound, rfl⟩
    | ok given => exact ⟨rfl, hbatch.sound, rfl⟩

/-- What a unit is transformed into does not depend on the history of the build, and the build stays
sound. -/
theorem transform_history (h : b.Sound) (u : SourceUnit) :
    (b.transform u).1 = (b.fresh.transform u).1 ∧ (b.transform u).2.Sound ∧
      (b.transform u).2.fresh = b.fresh := by
  have hmentions : b.fresh.mentionsStyles u.source = b.mentionsStyles u.source := rfl
  unfold transform
  rw [hmentions]
  split
  · have hparse : Module.parse? b.fresh.config.parseFeatures u.source =
        Module.parse? b.config.parseFeatures u.source := rfl
    rw [hparse]
    cases Module.parse? b.config.parseFeatures u.source with
    | none => exact ⟨rfl, h, rfl⟩
    | some m =>
      have hdetect : StyleCall.detect m b.fresh.config.styleFunctions =
          StyleCall.detect m b.config.styleFunctions := rfl
      dsimp only
      rw [hdetect]
      cases StyleCall.detect m b.config.styleFunctions with
      | nil => exact ⟨rfl, h, rfl⟩
      | cons call calls => exact transformCalls_history h u m (call :: calls)
  · exact ⟨rfl, h, rfl⟩

def afterAll (b : Build) (us : List SourceUnit) : Build := ((b.transformAll us).map (·.2)).getLastD b

@[simp] theorem afterAll_cons (b : Build) (u : SourceUnit) (us : List SourceUnit) :
    b.afterAll (u :: us) = (b.transform u).2.afterAll us :=
  List.getLastD_cons ..

theorem results_transformAll (h : b.Sound) (us : List SourceUnit) :
    (b.transformAll us).map (·.1) = us.map fun u => (b.fresh.transform u).1 := by
  induction us generalizing b with
  | nil => rfl
  | cons u us ih =>
    obtain ⟨hresult, hsound, hfresh⟩ := transform_history h u
    rw [transformAll, List.map_cons, ih hsound, hfresh, hresult, List.map_cons]

end Build
end AtomicStyles
