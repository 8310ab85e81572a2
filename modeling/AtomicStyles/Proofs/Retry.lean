import AtomicStyles.Proofs.History
import AtomicStyles.Proofs.Sites
import AtomicStyles.Proofs.Starts

/-!
# The second run of a batch

Jobs that fail after a write which others can see are poisoned. If there are any, the others are
run a second time on a fresh machine, and their results take the place of those of the first run. A
result of the second run has the number of its job among the jobs that are not poisoned, and is put
back to where the job stands among all of them. So whatever jobs are poisoned, the outcome is that
of one run of the others alone, and a poisoned job keeps its failure.

## Main definitions

* `Batch.cleanCount` — the number of a job among those that are not poisoned.
* `Batch.evaluateWith` — the evaluation of jobs with any way to run them, and `Batch.logged` to
  write down what is run.
* `Batch.Aligned` — the outcome of jobs against the first run and a run of those not poisoned.

## Main results

* `Batch.exists_clean_eq` — a job that is not poisoned among the others.
* `Batch.getElem?_merge_of_not_mem` — results are put back to where their jobs stand.
* `Batch.isRetried_run` — one run by itself does not count as a second one.
* `Batch.evaluate_aligned` — **every job has its own result, after one run or two.**
-/

namespace AtomicStyles

open Script Eval Coupling
open List hiding after

namespace Batch

/-! ### The order of jobs -/

/-- How many of the `k` jobs from the `i`-th on are not poisoned. -/
def cleanCount (poisoned : List Nat) (i k : Nat) : Nat :=
  (List.range' i k).countP fun j => !poisoned.contains j

variable {poisoned : List Nat} {i : Nat} {jobs : List Job}

theorem cleanCount_succ_of_mem (h : i ∈ poisoned) (k : Nat) :
    cleanCount poisoned i (k + 1) = cleanCount poisoned (i + 1) k := by
  simp [cleanCount, List.range'_succ, h]

theorem cleanCount_succ_of_not_mem (h : i ∉ poisoned) (k : Nat) :
    cleanCount poisoned i (k + 1) = cleanCount poisoned (i + 1) k + 1 := by
  simp [cleanCount, List.range'_succ, h]

theorem cleanCount_nil (i k : Nat) : cleanCount [] i k = k := by
  simp [cleanCount]

/-- The jobs that are not poisoned, of some that start with the `i`-th. -/
def cleanFrom (poisoned : List Nat) (i : Nat) (jobs : List Job) : List Job :=
  (jobs.zipIdx i).filterMap fun (job, i) => if poisoned.contains i then none else some job

theorem clean_eq_cleanFrom (poisoned : List Nat) (jobs : List Job) :
    clean poisoned jobs = cleanFrom poisoned 0 jobs := rfl

theorem cleanFrom_cons_of_mem (h : i ∈ poisoned) (job : Job) (jobs : List Job) :
    cleanFrom poisoned i (job :: jobs) = cleanFrom poisoned (i + 1) jobs := by
  simp [cleanFrom, h]

theorem cleanFrom_cons_of_not_mem (h : i ∉ poisoned) (job : Job) (jobs : List Job) :
    cleanFrom poisoned i (job :: jobs) = job :: cleanFrom poisoned (i + 1) jobs := by
  simp [cleanFrom, h]

theorem clean_nil (jobs : List Job) : clean [] jobs = jobs := by
  rw [clean_eq_cleanFrom]
  generalize 0 = i
  induction jobs generalizing i with
  | nil => rfl
  | cons job jobs ih => rw [cleanFrom_cons_of_not_mem not_mem_nil, ih]

theorem length_cleanFrom (poisoned : List Nat) (i : Nat) (jobs : List Job) :
    (cleanFrom poisoned i jobs).length = cleanCount poisoned i jobs.length := by
  induction jobs generalizing i with
  | nil => rfl
  | cons job jobs ih =>
    rw [length_cons]
    by_cases h : i ∈ poisoned
    · rw [cleanFrom_cons_of_mem h, cleanCount_succ_of_mem h, ih]
    · rw [cleanFrom_cons_of_not_mem h, cleanCount_succ_of_not_mem h, length_cons, ih]

/-- **A job that is not poisoned among the others:** first come those of the jobs before it. -/
theorem exists_clean_eq {job : Job} (h : jobs[i]? = some job) (hi : i ∉ poisoned) :
    ∃ rest, clean poisoned jobs = clean poisoned (jobs.take i) ++ job :: rest := by
  obtain ⟨hlt, rfl⟩ := List.getElem?_eq_some_iff.1 h
  -- cut at the job, the numbers after it go on from its own
  have hlength : (jobs.take i).length = i := by simp [hlt.le]
  refine ⟨cleanFrom poisoned (i + 1) (jobs.drop (i + 1)), ?_⟩
  conv_lhs => rw [← take_append_drop i jobs, drop_eq_getElem_cons hlt]
  rw [clean, zipIdx_append, filterMap_append, hlength, Nat.zero_add]
  exact congrArg _ (cleanFrom_cons_of_not_mem hi _ _)

theorem length_clean_take (h : i ≤ jobs.length) :
    (clean poisoned (jobs.take i)).length = cleanCount poisoned 0 i := by
  rw [clean_eq_cleanFrom, length_cleanFrom, length_take_of_le h]

theorem take_clean (h : i < jobs.length) (hi : i ∉ poisoned) :
    (clean poisoned jobs).take (cleanCount poisoned 0 i) = clean poisoned (jobs.take i) := by
  obtain ⟨rest, heq⟩ := exists_clean_eq (List.getElem?_eq_getElem h) hi
  rw [heq, ← length_clean_take h.le, take_left]

/-- The job stands among those that are not poisoned at the place that its number says. -/
theorem getElem?_clean (h : i < jobs.length) (hi : i ∉ poisoned) :
    (clean poisoned jobs)[cleanCount poisoned 0 i]? = jobs[i]? := by
  have hjob := List.getElem?_eq_getElem h
  obtain ⟨rest, heq⟩ := exists_clean_eq hjob hi
  rw [heq, hjob, ← length_clean_take h.le, List.getElem?_append_right le_rfl, Nat.sub_self]
  rfl

/-! ### The order of results -/

theorem getElem?_merge_of_mem {k : Nat} (h : i + k ∈ poisoned) (results again : List JobResult) :
    (merge poisoned i results again)[k]? = results[k]? := by
  fun_induction merge poisoned i results again generalizing k with
  | case1 => rfl
  | case2 i r rs again hi ih =>
    cases k with
    | zero => rfl
    | succ k => exact ih (by rwa [Nat.add_right_comm])
  | case3 i r rs hi ih =>
    cases k with
    | zero => rfl
    | succ k => exact ih (by rwa [Nat.add_right_comm])
  | case4 i r rs hi a again ih =>
    cases k with
    | zero => exact absurd (contains_iff_mem.2 h) hi
    | succ k => exact ih (by rwa [Nat.add_right_comm])

theorem getElem?_merge_of_not_mem {k : Nat} (h : i + k ∉ poisoned) {results again : List JobResult}
    (hk : k < results.length) {a : JobResult} (ha : again[cleanCount poisoned i k]? = some a) :
    (merge poisoned i results again)[k]? = some a := by
  fun_induction merge poisoned i results again generalizing k with
  | case1 => cases hk
  | case2 i r rs again hi ih =>
    have hmem := contains_iff_mem.1 hi
    cases k with
    | zero => exact absurd hmem h
    | succ k =>
      rw [cleanCount_succ_of_mem hmem] at ha
      exact ih (by rwa [Nat.add_right_comm]) (Nat.lt_of_succ_lt_succ hk) ha
  | case3 i r rs hi ih => cases ha
  | case4 i r rs hi b again ih =>
    cases k with
    | zero => exact ha
    | succ k =>
      rw [cleanCount_succ_of_not_mem (mt contains_iff_mem.2 hi), List.getElem?_cons_succ] at ha
      exact ih (by rwa [Nat.add_right_comm]) (Nat.lt_of_succ_lt_succ hk) ha

/-! ### One run -/

/-- Each job is run on the machine that the jobs before it leave. -/
theorem getElem?_runJobs (jobs : List Job) (m : Machine) (k : Nat) :
    (runJobs jobs m).1[k]? =
      jobs[k]?.map fun job => (runJob job (runJobs (jobs.take k) m).2).1 := by
  induction jobs generalizing m k with
  | nil => rfl
  | cons job jobs ih =>
    cases k with
    | zero => rfl
    | succ k => exact ih (runJob job m).2 k

theorem getElem?_run (g : Graph) (limits : Limits) (cache : ModuleCache) (jobs : List Job)
    (k : Nat) :
    (run g limits cache jobs).results[k]? = jobs[k]?.map fun job =>
      (runJob job (runJobs (jobs.take k) (.start g limits cache)).2).1.1 := by
  show ((runJobs jobs (.start g limits cache)).1.map (·.1))[k]? = _
  rw [List.getElem?_map, getElem?_runJobs, Option.map_map]
  rfl

/-- Only a job that fails is poisoned. -/
theorem exists_failure_of_runJob {job : Job} {m : Machine} {r : JobResult}
    (h : (runJob job m).1 = (r, true)) : ∃ f, r = .error f := by
  have hflag : (runJob job m).1.2 =
      (!(runJob job m).1.1.isOk && m.mutations < (runJob job m).2.mutations) := rfl
  rw [h] at hflag
  cases r with
  | error f => exact ⟨f, rfl⟩
  | ok v => cases hflag

theorem exists_failure_of_mem_poisoned {g : Graph} {limits : Limits} {cache : ModuleCache}
    (h : i ∈ (run g limits cache jobs).poisoned) :
    i < jobs.length ∧ ∃ f, (run g limits cache jobs).results[i]? = some (.error f) := by
  obtain ⟨⟨⟨r, isPoisoned⟩, j⟩, hmem, heq⟩ := mem_filterMap.1 h
  obtain ⟨rfl, rfl⟩ : isPoisoned = true ∧ j = i := by
    cases isPoisoned <;> simp_all
  have hget : (runJobs jobs (.start g limits cache)).1[j]? = some (r, true) := by
    simpa [mk_mem_zipIdx_iff_getElem?] using hmem
  rw [getElem?_runJobs] at hget
  obtain ⟨job, hjob, hrun⟩ := Option.map_eq_some_iff.1 hget
  obtain ⟨f, rfl⟩ := exists_failure_of_runJob hrun
  refine ⟨(List.getElem?_eq_some_iff.1 hjob).1, f, ?_⟩
  rw [getElem?_run, hjob, Option.map_some, hrun]

/-! ### The report -/

/-- Nothing has been evaluated a second time. -/
def unretried : Invariant where
  Index := Unit
  holds _ m := m.report.isRetried = false
  starting i _ := i

/-- Evaluation itself never says that it is the second one. -/
theorem unretried_lasting : unretried.Lasting := by
  refine Invariant.lasting_of_ledger ?_ ?_ ?_ ?_ ?_ ?_
  · intro _ m m' hledger h
    have hreport : m'.report = m.report := congrArg (·.2.2) hledger
    exact (congrArg Report.isRetried hreport).trans h
  · exact fun _ _ _ h => h
  · exact fun h _ => h
  · exact fun _ h => h
  · exact fun h _ => h
  · intro i m id name result h
    exact Invariant.holds_endBinding (I := unretried) (j := i) result h (fun _ _ _ _ _ hm => hm)
      (fun _ hm => hm) fun _ hm => hm

theorem isRetried_runJobs (jobs : List Job) {m : Machine} (h : m.report.isRetried = false) :
    (runJobs jobs m).2.report.isRetried = false := by
  induction jobs generalizing m with
  | nil => exact h
  | cons job jobs ih =>
    refine ih (m := (runJob job m).2) ?_
    rw [snd_runJob]
    exact unretried_lasting.keeps_task (i := ()) (.styleCall job.argument job.needed) m.nesting _ h

theorem isRetried_run (g : Graph) (limits : Limits) (cache : ModuleCache) (jobs : List Job) :
    (run g limits cache jobs).report.isRetried = false :=
  isRetried_runJobs jobs rfl

/-! ### The runs that are made -/

/-- The evaluation of jobs with any way to run them. -/
def evaluateWith {M : Type → Type} [Monad M] (run : ModuleCache → List Job → M Batch)
    (cache : ModuleCache) (jobs : List Job) : M Batch := do
  let first ← run cache jobs
  if first.poisoned.isEmpty then return first
  else
    let second ← run first.cache (clean first.poisoned jobs)
    return { results := merge first.poisoned 0 first.results second.results
             poisoned := first.poisoned
             report := { second.report with isRetried := true }
             cache := second.cache }

theorem evaluate_eq_evaluateWith (g : Graph) (limits : Limits) (cache : ModuleCache)
    (jobs : List Job) :
    evaluate g limits cache jobs = evaluateWith (M := Id) (run g limits) cache jobs := rfl

/-- Runs jobs, and writes down which. -/
def logged (run : ModuleCache → List Job → Batch) (cache : ModuleCache) (jobs : List Job) :
    StateM (List (List Job)) Batch := do
  modify (· ++ [jobs])
  return run cache jobs

/-- Jobs are run once, and those that are not poisoned once more if there are others. -/
theorem evaluateWith_logged (run : ModuleCache → List Job → Batch) (cache : ModuleCache)
    (jobs : List Job) :
    evaluateWith (logged run) cache jobs [] =
      (evaluateWith (M := Id) run cache jobs,
        if (run cache jobs).poisoned.isEmpty then [jobs]
        else [jobs, clean (run cache jobs).poisoned jobs]) := by
  show (if (run cache jobs).poisoned.isEmpty then pure (run cache jobs) else _ :
    StateM (List (List Job)) Batch) [jobs] =
      ((if (run cache jobs).poisoned.isEmpty then run cache jobs else _ : Batch), _)
  split <;> rfl

theorem poisoned_evaluate (g : Graph) (limits : Limits) (cache : ModuleCache) (jobs : List Job) :
    (evaluate g limits cache jobs).poisoned = (run g limits cache jobs).poisoned := by
  unfold evaluate
  dsimp only
  split <;> rfl

/-! ### The outcome of all jobs -/

/-- The outcome of jobs against the first run and a run of those that are not poisoned. -/
structure Aligned (jobs : List Job) (first last batch : Batch) : Prop where
  length : batch.results.length = jobs.length
  /-- A poisoned job has failed, and keeps the failure of the first run. -/
  poisoned : ∀ i ∈ batch.poisoned, i < jobs.length ∧
    ∃ f, first.results[i]? = some (.error f) ∧ batch.results[i]? = some (.error f)
  /-- Any other job has the result that it has among those not poisoned. -/
  clean : ∀ i < jobs.length, i ∉ batch.poisoned →
    (Batch.clean batch.poisoned jobs)[cleanCount batch.poisoned 0 i]? = jobs[i]? ∧
      batch.results[i]? = last.results[cleanCount batch.poisoned 0 i]?
  report : batch.report = { last.report with isRetried := !batch.poisoned.isEmpty }

variable {g : Graph} (limits : Limits) (jobs : List Job) {cache fresh : ModuleCache}

/-- Without poisoned jobs there is one run, of all jobs. -/
theorem aligned_of_poisoned_eq_nil (h : (run g limits cache jobs).poisoned = [])
    (hrun : SameRun g (run g limits cache jobs) (run g limits fresh jobs)) :
    Aligned jobs (run g limits cache jobs) (run g limits fresh jobs) (run g limits cache jobs) where
  length := length_run ..
  poisoned := by simp [h]
  clean i hlt hi := by
    refine ⟨getElem?_clean hlt hi, ?_⟩
    rw [h, cleanCount_nil, hrun.results]
  report := by
    have hretried := isRetried_run g limits fresh jobs
    -- a report that says nothing of a second run is what it is without saying so
    rw [h, hrun.report]
    generalize (run g limits fresh jobs).report = report at hretried
    cases report
    cases hretried
    rfl

/-- With poisoned jobs the results of the second run are put back among the failures. -/
theorem aligned_merge {first second last : Batch} (hfirst : first = run g limits cache jobs)
    (hsecond : second = run g limits first.cache (clean first.poisoned jobs))
    (hlast : second.results = last.results) (hreport : second.report = last.report)
    (hne : first.poisoned.isEmpty = false) :
    Aligned jobs first last
      { results := merge first.poisoned 0 first.results second.results
        poisoned := first.poisoned
        report := { second.report with isRetried := true }
        cache := second.cache } where
  length := by rw [length_merge, hfirst, length_run]
  poisoned i hi := by
    rw [hfirst] at hi
    obtain ⟨hlt, f, hf⟩ := exists_failure_of_mem_poisoned hi
    rw [← hfirst] at hi hf
    exact ⟨hlt, f, hf, (getElem?_merge_of_mem (by rwa [Nat.zero_add]) _ _).trans hf⟩
  clean i hlt hi := by
    have hclean := getElem?_clean hlt hi
    refine ⟨hclean, ?_⟩
    have hlength : i < first.results.length := by rwa [hfirst, length_run]
    -- the job has a result in the second run, since it is one of the jobs of that run
    have hresult := getElem?_run g limits first.cache (Batch.clean first.poisoned jobs)
      (cleanCount first.poisoned 0 i)
    rw [← hsecond, hclean, List.getElem?_eq_getElem hlt, Option.map_some] at hresult
    rw [← hlast, hresult]
    exact getElem?_merge_of_not_mem (by rwa [Nat.zero_add]) hlength hresult
  report := by simp [hne, hreport]

section

variable (hcache : cache.Sound g.loader g.features) (hfresh : fresh.Sound g.loader g.features)

include hcache hfresh

/-- The last run may as well be made with any other modules loaded. -/
theorem aligned_evaluate : Aligned jobs (run g limits cache jobs)
    (run g limits fresh (clean (evaluate g limits cache jobs).poisoned jobs))
    (evaluate g limits cache jobs) := by
  have hfirst := run_recached limits jobs hcache hfresh
  rw [poisoned_evaluate, evaluate]
  dsimp only
  split
  · next hempty =>
    have hnil := isEmpty_iff.1 hempty
    rw [hnil, clean_nil]
    exact aligned_of_poisoned_eq_nil limits jobs hnil hfirst
  · next hne =>
    -- the second run has the modules that the first one has loaded
    have hsecond := run_recached limits (clean (run g limits cache jobs).poisoned jobs)
      hfirst.sound hfresh
    exact aligned_merge limits jobs rfl rfl hsecond.results hsecond.report (Bool.eq_false_iff.2 hne)

/-- **Every job has its own result, after one run or two.** A poisoned job has failed and keeps the
failure of the first run. Any other has the result that it has in one run of the jobs that are not
poisoned, on a fresh machine that may have loaded whatever modules; that run is the last that is
made, and the report is about it. -/
theorem evaluate_aligned :
    ∃ batch runs, evaluate g limits cache jobs = batch ∧
      evaluateWith (logged (run g limits)) cache jobs [] = (batch, runs) ∧
      runs.length ≤ 2 ∧ runs.getLast? = some (clean batch.poisoned jobs) ∧
      (batch.report.isRetried = true ↔ runs.length = 2) ∧
      Aligned jobs (run g limits cache jobs) (run g limits fresh (clean batch.poisoned jobs))
        batch ∧
      ∀ i job, jobs[i]? = some job → i ∉ batch.poisoned →
        batch.results[i]? = some (runJob job
          (runJobs (clean batch.poisoned (jobs.take i)) (.start g limits fresh)).2).1.1 := by
  have haligned := aligned_evaluate limits jobs hcache hfresh
  have hlogged := evaluateWith_logged (run g limits) cache jobs
  rw [← evaluate_eq_evaluateWith, ← poisoned_evaluate] at hlogged
  refine ⟨_, _, rfl, hlogged, ?_, ?_, ?_, haligned, ?_⟩
  · split <;> simp
  · split
    · next hempty => simp [List.isEmpty_iff.1 hempty, clean_nil]
    · rfl
  · rw [haligned.report]
    split
    · next hempty => simp [hempty]
    · next hne => simp [Bool.eq_false_iff.2 hne]
  · intro i job hjob hi
    have hlt := (List.getElem?_eq_some_iff.1 hjob).1
    obtain ⟨hclean, hresult⟩ := haligned.clean i hlt hi
    rw [hresult, getElem?_run, hclean, hjob, Option.map_some, take_clean hlt hi]

end

/-- The graph of the unit `let n = null`. -/
def noteGraph : Graph where
  loader := {}
  features := {}
  entry := Tables.build "/unit"
    { items := [.stmt (.decl (.var .lexical [.mk (.ident ⟨"n", 0⟩) (some .null)] false))] }
    fun _ => .ok "/unit"
  limit := 5

/-- A style call with the argument `(n = true, this)`, which changes the unit and fails. -/
def spoiler : Job where
  argument := .sequence [.assign .set (.ident ⟨"n", 1⟩) (.bool true), .this]
  needed := [.name "/unit" "n"]

/-- A style call with the argument `n`. -/
def reader : Job where
  argument := .ident ⟨"n", 2⟩
  needed := [.name "/unit" "n"]

/-- The job after a poisoned one has another result in the first run, and gets its own. -/
theorem evaluate_aligned_spoiled :
    ModuleCache.Sound noteGraph.loader noteGraph.features {} ∧
    (run noteGraph { steps := 2 } {} [spoiler, reader]).results[1]? = some (.ok (.bool true)) ∧
    ∃ batch, evaluate noteGraph { steps := 2 } {} [spoiler, reader] = batch ∧
      batch.poisoned = [0] ∧ batch.report.isRetried = true ∧
      batch.results[1]? = some (.ok .null) ∧
      Aligned [spoiler, reader] (run noteGraph { steps := 2 } {} [spoiler, reader])
        (run noteGraph { steps := 2 } {} [reader]) batch := by
  have hpoisoned : (evaluate noteGraph { steps := 2 } {} [spoiler, reader]).poisoned = [0] := by
    rw [poisoned_evaluate]
    cbv
  have hreader : (run noteGraph { steps := 2 } {} [reader]).results = [.ok .null] := by cbv
  obtain ⟨batch, runs, rfl, -, -, -, -, haligned, -⟩ :=
    evaluate_aligned { steps := 2 } [spoiler, reader] (ModuleCache.Sound.empty noteGraph.loader _)
      (ModuleCache.Sound.empty noteGraph.loader noteGraph.features)
  have hclean : clean [0] [spoiler, reader] = [reader] := rfl
  rw [hpoisoned, hclean] at haligned
  refine ⟨.empty _ _, by cbv, _, rfl, hpoisoned, ?_, ?_, haligned⟩
  · rw [haligned.report, hpoisoned]
    rfl
  · have hresult := (haligned.clean 1 (by decide) (by rw [hpoisoned]; decide)).2
    rw [hpoisoned, hreader] at hresult
    exact hresult

end Batch
end AtomicStyles
