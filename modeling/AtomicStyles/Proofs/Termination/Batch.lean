import AtomicStyles.Proofs.ExportValues
import AtomicStyles.Proofs.History
import AtomicStyles.Proofs.Sites
import AtomicStyles.Proofs.Termination.Evaluation

/-!
# The evaluation of a unit ends

All style calls of a unit are evaluated on one machine, which stays sound from call to call.
How deep evaluation may go is bounded by the limit of the graph: from some limit on the outcome
is one and the same, and no style call fails because a limit was met. What may not exist is the
text of an array that contains itself.

## Main results

* `Batch.exists_runJobs` — style calls end one after the other.
* `Batch.evaluation_ends` — **the evaluation of a unit ends.**
-/

namespace AtomicStyles

open Script Eval List

variable {g : Graph} {ids : Finset ModuleId} {m : Machine}

theorem Sound.reset (hm : Sound g ids m) : Sound g ids m.reset :=
  { hm with exception := nofun }

theorem Sound.start {cache : ModuleCache} (limits : Limits)
    (hcache : cache.Sound g.loader g.features) : Sound g ids (.start g limits cache) where
  graph := rfl
  cache := hcache
  objects := fun c hc => absurd hc (Array.not_mem_empty c)
  arrays := fun c hc => absurd hc (Array.not_mem_empty c)
  frames := fun f hf => absurd hf (Array.not_mem_empty f)
  instances := fun _ hi => absurd hi not_mem_nil
  globals := fun _ hp => absurd hp not_mem_nil
  exception := nofun

namespace Batch

/-- The job has a value, or fails, but not for want of bounds. -/
def Ended (result : JobResult) : Prop := ∀ f, result = .error f → f.error ≠ .endless

theorem ended_of_good {result : JobResult} (h : (ending g ids).Good result) : Ended result := by
  rintro f rfl
  exact h

variable (hspans : g.Spans ids) (hends : g.ReexportsEnd ids)

include hspans hends

/-- A style call ends on a sound machine. -/
theorem endsAt_callValue (hm : Sound g ids m) (argument : Expr) {needed : List BindingKey}
    (hneeded : ∀ key ∈ needed, key.module ∈ ids) :
    EndsAt g ids (ending g ids).Good (fun b => callValue (interp b.1) argument needed) m := by
  have hruns (c size : Nat) := ending_runs hspans hends c size
  have hholds : (ending g ids).Gives (cost g ids m) fun b =>
      callValue (interp b.1) argument needed :=
    Logic.holds_callValue (L := endingLogic hspans) (fun j _ => hruns j) (hruns _)
      (fun id name hid => ending_topLevel hspans (fun j _ => hruns j) hends hid name) argument
      hneeded fun id hid => hneeded (.body id) hid
  exact hholds m hm le_rfl

/-- A job comes to a result, the same one under all large bounds. -/
theorem exists_runJob (hm : Sound g ids m) {job : Job}
    (hjob : ∀ key ∈ job.needed, key.module ∈ ids) :
    ∃ result m', Sound g ids m' ∧ Ended result.1 ∧
      ∀ᶠ n in Filter.atTop, ∀ limit,
        runJob job (m.bounded limit n) = (result, m'.bounded limit n) := by
  -- The depth of evaluation is that of the machine.
  have hcall {result : EStateM.Result EvalError Machine JobResult}
      (h : Settles (fun b => callValue (interp b.1) job.argument job.needed) m.reset result) :
      ∀ᶠ n in Filter.atTop, ∀ limit,
        runCall (interp n) job.argument job.needed (m.bounded limit n) =
          boundedResult limit n result :=
    Filter.tendsto_atTop_diagonal.eventually h
  have hnesting (limit n : Nat) : (m.bounded limit n).nesting = n := rfl
  cases endsAt_callValue hspans hends hm.reset job.argument hjob with
  | returns result m' hresult hm' h =>
    refine ⟨(result, !result.isOk && m.mutations < m'.mutations), m', hm'.sound,
      ended_of_good hresult, ?_⟩
    filter_upwards [hcall h] with n hn limit
    rw [runJob, hnesting, hn]
    rfl
  | fails e m' he hm' h =>
    refine ⟨(.error { error := e }, m.mutations < m'.mutations), m', hm'.sound, ?_, ?_⟩
    · rintro _ ⟨⟩
      exact he
    · filter_upwards [hcall h] with n hn limit
      rw [runJob, hnesting, hn]
      rfl

variable {jobs : List Job}

/-- Jobs come to their results one after the other. -/
theorem exists_runJobs (hm : Sound g ids m)
    (hjobs : ∀ job ∈ jobs, ∀ key ∈ job.needed, key.module ∈ ids) :
    ∃ results m', Sound g ids m' ∧ (∀ result ∈ results, Ended result.1) ∧
      ∀ᶠ n in Filter.atTop, ∀ limit,
        runJobs jobs (m.bounded limit n) = (results, m'.bounded limit n) := by
  induction jobs generalizing m with
  | nil => exact ⟨[], m, hm, nofun, .of_forall fun _ _ => rfl⟩
  | cons job jobs ih =>
    obtain ⟨hjob, hjobs⟩ := forall_mem_cons.1 hjobs
    obtain ⟨result, m₁, hm₁, hresult, hrun⟩ := exists_runJob hspans hends hm hjob
    obtain ⟨results, m₂, hm₂, hresults, hruns⟩ := ih hm₁ hjobs
    refine ⟨result :: results, m₂, hm₂, forall_mem_cons.2 ⟨hresult, hresults⟩, ?_⟩
    filter_upwards [hrun, hruns] with n hn hns limit
    simp only [runJobs, hn, hns]

omit hspans hends in
/-- The bounds of a fresh machine grow with the limit of the graph. -/
theorem tendsto_nesting (limits : Limits) :
    Filter.Tendsto (fun limit => (limits.steps + limit) * limit) Filter.atTop Filter.atTop := by
  refine Filter.tendsto_atTop_mono (fun limit => ?_) Filter.tendsto_id
  calc limit ≤ limit * limit := Nat.le_mul_self limit
    _ ≤ (limits.steps + limit) * limit := Nat.mul_le_mul_right limit (Nat.le_add_left _ _)

/-- A run comes to one outcome, under all large limits of the graph. -/
theorem exists_run (limits : Limits) {cache : ModuleCache}
    (hcache : cache.Sound g.loader g.features)
    (hjobs : ∀ job ∈ jobs, ∀ key ∈ job.needed, key.module ∈ ids) :
    ∃ batch : Batch, batch.cache.Sound g.loader g.features ∧
      (∀ result ∈ batch.results, Ended result) ∧
      ∀ᶠ limit in Filter.atTop, run (g.withLimit limit) limits cache jobs = batch := by
  obtain ⟨results, m, hm, hresults, hruns⟩ :=
    exists_runJobs hspans hends (.start limits hcache) hjobs
  have hstart (limit : Nat) : Machine.start (g.withLimit limit) limits cache =
      (Machine.start g limits cache).bounded limit ((limits.steps + limit) * limit) := rfl
  have hlarge := (tendsto_nesting limits).eventually hruns
  -- The outcome is that under one of the limits that are large enough.
  obtain ⟨limit, hrun⟩ := hlarge.exists
  refine ⟨run (g.withLimit limit) limits cache jobs, ?_, ?_, ?_⟩
  · rw [run, hstart, hrun]
    exact hm.cache
  · rw [run, hstart, hrun]
    exact forall_mem_map.2 hresults
  · filter_upwards [hlarge] with limit' hrun'
    rw [run, run, hstart, hstart, hrun, hrun']
    rfl

omit hspans hends in
theorem mem_of_mem_merge {poisoned : List Nat} {i : Nat} {results again : List JobResult}
    {result : JobResult} (h : result ∈ merge poisoned i results again) :
    result ∈ results ∨ result ∈ again := by
  fun_induction merge with
  | case1 => exact .inl h
  | case2 i r rs again hpoisoned ih =>
    rcases mem_cons.1 h with rfl | h
    · exact .inl (.head _)
    · exact (ih h).imp_left (mem_cons_of_mem _)
  | case3 i r rs hclean ih =>
    rcases mem_cons.1 h with rfl | h
    · exact .inl (.head _)
    · exact (ih h).imp_left (mem_cons_of_mem _)
  | case4 i r rs hclean a again ih =>
    rcases mem_cons.1 h with rfl | h
    · exact .inr (.head _)
    · exact (ih h).imp (mem_cons_of_mem _) (mem_cons_of_mem _)

omit hspans hends in
theorem mem_of_mem_clean {poisoned : List Nat} {jobs : List Job} {job : Job}
    (h : job ∈ clean poisoned jobs) : job ∈ jobs := by
  obtain ⟨⟨job', i⟩, hmem, heq⟩ := mem_filterMap.1 h
  dsimp only at heq
  split at heq
  · cases heq
  · cases heq
    exact fst_mem_of_mem_zipIdx hmem

/-- The evaluation of jobs comes to one outcome, under all large limits of the graph. -/
theorem exists_evaluate (limits : Limits) {cache : ModuleCache}
    (hcache : cache.Sound g.loader g.features)
    (hjobs : ∀ job ∈ jobs, ∀ key ∈ job.needed, key.module ∈ ids) :
    ∃ batch : Batch, (∀ result ∈ batch.results, Ended result) ∧
      ∀ᶠ limit in Filter.atTop, evaluate (g.withLimit limit) limits cache jobs = batch := by
  obtain ⟨first, hcache₁, hended₁, hrun₁⟩ := exists_run hspans hends limits hcache hjobs
  by_cases hpoisoned : first.poisoned.isEmpty = true
  · refine ⟨first, hended₁, ?_⟩
    filter_upwards [hrun₁] with limit hrun
    rw [evaluate, hrun]
    exact if_pos hpoisoned
  · have hjobs₂ (job : Job) (hjob : job ∈ clean first.poisoned jobs) :=
      hjobs job (mem_of_mem_clean hjob)
    -- The second run starts from a fresh machine that has the modules which the first one loaded.
    obtain ⟨second, -, hended₂, hrun₂⟩ := exists_run hspans hends limits hcache₁ hjobs₂
    refine ⟨{ results := merge first.poisoned 0 first.results second.results,
              poisoned := first.poisoned,
              report := { second.report with isRetried := true },
              cache := second.cache }, fun result hresult => ?_, ?_⟩
    · exact (mem_of_mem_merge hresult).elim (hended₁ result) (hended₂ result)
    · filter_upwards [hrun₁, hrun₂] with limit hrun₁ hrun₂
      rw [evaluate, hrun₁]
      dsimp only
      rw [if_neg hpoisoned, hrun₂]

/-- The evaluation of a unit ends: from some limit on its outcome does not change, and each of its
style calls has a value or fails for a reason other than that limit. A conversion to text ends
with a text, unless an array is reached that contains itself. The limits of the native stack and of
memory are left out. The program dies of them where there is an outcome here: on `flat(Infinity)` of
an array that contains itself, and on `repeat` and `Array.from` with huge counts. -/
theorem evaluation_ends (limits : Limits) {cache : ModuleCache}
    (hcache : cache.Sound g.loader g.features) {jobs : List Job}
    (hjobs : ∀ job ∈ jobs, ∀ key ∈ job.needed, key.module ∈ ids) :
    (∃ batch : Batch, batch.results.length = jobs.length ∧
      (∀ result ∈ batch.results, Ended result) ∧
      ∀ᶠ limit in Filter.atTop, evaluate (g.withLimit limit) limits cache jobs = batch) ∧
    ∀ m v, text v m = .error .endlessText m ↔ m.Circular v := by
  obtain ⟨batch, hended, hevaluate⟩ := exists_evaluate hspans hends limits hcache hjobs
  refine ⟨⟨batch, ?_, hended, hevaluate⟩, text_eq_error_iff⟩
  obtain ⟨limit, heq⟩ := hevaluate.exists
  rw [← heq]
  exact length_evaluate ..

omit hspans hends

/-- The one chain of re-exports of this unit leads from one name to another. -/
theorem reexportsEnd_mirror : mirrorGraph.ReexportsEnd {"/unit"} := by
  obtain ⟨himports, hexports, hstars, hdeclared⟩ := entry_mirror
  have hforwards (name : String) (q : ModuleId × String)
      (h : mirrorGraph.Forwards ("/unit", name) q) : name = "y" ∧ q = ("/unit", "x") := by
    obtain ⟨t, im, ht, him, hsource, hname⟩ := h
    cases mirrorGraph.freshTables_entry.symm.trans ht
    cases him with
    | own _ _ himport => rw [himports] at himport; cases himport
    | reexport hexport =>
      have hmem := OrderedMap.mem_entries_of_get? hexport
      rw [hexports] at hmem
      simp only [mem_cons, Prod.mk.injEq, Export.reexport.injEq, reduceCtorEq, and_false,
        not_mem_nil, or_false, false_or] at hmem
      rcases hmem with ⟨rfl, rfl⟩ | ⟨rfl, rfl⟩
      · exact ⟨rfl, Prod.ext (Except.ok.inj hsource).symm (Option.some.inj hname).symm⟩
      · cases hname
  have hincludes (name : String) (id : ModuleId)
      (h : Relation.ReflTransGen (mirrorGraph.Includes name) "/unit" id) : id = "/unit" := by
    induction h with
    | refl => rfl
    | tail _ hstep ih =>
      subst ih
      obtain ⟨t, ht, -, -, star, hstar, hsource⟩ := hstep
      cases mirrorGraph.freshTables_entry.symm.trans ht
      rw [hstars] at hstar
      cases mem_singleton.1 hstar
      exact (Except.ok.inj hsource).symm
  have hpasses (name : String) (q : ModuleId × String)
      (h : mirrorGraph.PassesOn ("/unit", name) q) : name = "y" ∧ q = ("/unit", "x") := by
    obtain ⟨id, hreach, hforward⟩ := h
    cases hincludes name id hreach
    exact hforwards name q hforward
  intro id hid name
  cases Finset.mem_singleton.1 hid
  refine ⟨_, fun q hq => ?_⟩
  obtain ⟨-, rfl⟩ := hpasses name q hq
  refine ⟨_, fun q hq => ?_⟩
  obtain ⟨hname, -⟩ := hpasses "x" q hq
  exact absurd hname (by decide)

/-- A style call whose argument is a name of the unit. -/
def mirrorJob : Job where
  argument := .ident ⟨"x", 4⟩
  needed := [.name "/unit" "x"]

/-- A unit that passes on its own exports is evaluated to an end. -/
theorem evaluation_ends_mirror :
    mirrorGraph.Spans {"/unit"} ∧ mirrorGraph.ReexportsEnd {"/unit"} ∧
    ∃ batch : Batch, batch.results.length = 1 ∧ (∀ result ∈ batch.results, Ended result) ∧
      ∀ᶠ limit in Filter.atTop,
        evaluate (mirrorGraph.withLimit limit) {} {} [mirrorJob] = batch := by
  have hspans : mirrorGraph.Spans {"/unit"} :=
    ⟨Finset.mem_singleton.2 rfl, by simpa using closed_mirror⟩
  have hjobs : ∀ job ∈ [mirrorJob], ∀ key ∈ job.needed,
      key.module ∈ ({"/unit"} : Finset ModuleId) := by
    simp [mirrorJob, BindingKey.module]
  exact ⟨hspans, reexportsEnd_mirror,
    (evaluation_ends hspans reexportsEnd_mirror {} (.empty _ _) hjobs).1⟩

/-- An array that is put into itself has no text. -/
theorem text_of_own_item : ∃ m, (do
    let list ← newArray #[]
    let _ ← callList (interp 1) ⟨0⟩ .push [list]
    text list) (.start mirrorGraph {} {}) = .error .endlessText m :=
  ⟨_, rfl⟩

end Batch
end AtomicStyles
