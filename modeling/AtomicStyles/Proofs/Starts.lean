import AtomicStyles.Proofs.Logic.Invariants

/-!
# Everything is started once

The style calls of a unit share the modules that they need. The top-level code of a module
and each declaration that is evaluated by itself are started at most once while a batch
runs, whatever calls them again and whatever fails: what has a state keeps one, and only
what has none is started.

## Main definitions

* `Machine.Started` — whether the evaluation of what a key stands for has begun.
* `Machine.ledger` — what a machine knows about the starts.
* `Starts` — what runs the code behind a key only once.
* `StartedOnce` — the invariant, while some keys are being evaluated.
* `Batch.lastMachine` — the machine behind the report of a batch.

## Main results

* `Invariant.lasting_of_ledger` — an invariant of the ledger lasts if starts and ends keep it.
* `startedOnce_lasting` — the invariant lasts.
* `keepsStarted_interp` — what has a state keeps one in every part of evaluation.
* `Batch.begun_once` — **in a batch everything is started at most once.**
-/

namespace AtomicStyles

open Script Eval Coupling
open List hiding after

/-! ### What has begun -/

def Machine.Started (m : Machine) : BindingKey → Prop
  | .name id name => (m.instanceOf id).bindings.get? name ≠ none
  | .body id => (m.instanceOf id).status ≠ .pending
  | .everything _ => False

/-- What has begun stays begun when a module's state only goes on. -/
theorem Machine.Started.modifyInstance {m : Machine} {key : BindingKey} (h : m.Started key)
    (id : ModuleId) {f : Instance → Instance}
    (hb : ∀ i name, i.bindings.get? name ≠ none → (f i).bindings.get? name ≠ none)
    (hs : ∀ i, i.status ≠ .pending → (f i).status ≠ .pending) :
    (m.modifyInstance id f).Started key := by
  cases key with
  | everything => exact h
  | name id' name =>
    rw [Started, instanceOf_modifyInstance]
    split
    · rename_i hid
      exact hb _ name (beq_iff_eq.1 hid ▸ h)
    · exact h
  | body id' =>
    rw [Started, instanceOf_modifyInstance]
    split
    · rename_i hid
      exact hs _ (beq_iff_eq.1 hid ▸ h)
    · exact h

theorem Machine.started_setStatus (m : Machine) (id : ModuleId) {status : ModuleStatus}
    (hs : status ≠ .pending) : (after (setStatus id status) m).Started (.body id) := by
  show ((m.modifyInstance id fun i => { i with status }).instanceOf id).status ≠ .pending
  rw [instanceOf_modifyInstance, beq_self_eq_true, if_pos rfl]
  exact hs

theorem Machine.started_setBinding (m : Machine) (id : ModuleId) (name : String)
    (status : BindingStatus) : (after (setBinding id name status) m).Started (.name id name) := by
  show ((m.modifyInstance id fun i =>
    { i with bindings := i.bindings.insert name status }).instanceOf id).bindings.get? name ≠ none
  rw [instanceOf_modifyInstance, beq_self_eq_true, if_pos rfl, OrderedMap.get?_insert,
    beq_self_eq_true, if_pos rfl]
  exact Option.some_ne_none _

/-! ### The ledger -/

/-- What a machine knows about what has been started: the states of the modules, the starts in
their order, and the report. -/
def Machine.ledger (m : Machine) : OrderedMap ModuleId Instance × List BindingKey × Report :=
  (m.instances, m.begun, m.report)

/-- An invariant that looks at the ledger alone lasts if the starts and the ends of evaluations keep
it, and new names at the top level of a module. -/
theorem Invariant.lasting_of_ledger {Index : Type} {holds : Index → Machine → Prop}
    {starting : Index → BindingKey → Index}
    (congr : ∀ {i m m'}, m'.ledger = m.ledger → holds i m → holds i m')
    (declare : ∀ {i m} id name slot, holds i m →
      holds i (m.modifyInstance id fun x => { x with names := x.names.insert name slot }))
    (beginModule : ∀ {i m id}, holds i m → (m.instanceOf id).status = .pending →
      holds (starting i (.body id)) (after (beginModule id) m))
    (endModule : ∀ {i m id} (result : Except EvalError Unit), holds (starting i (.body id)) m →
      holds i (after (endModule id (.ofResult result)) m))
    (beginBinding : ∀ {i m id name}, holds i m → (m.instanceOf id).bindings.get? name = none →
      holds (starting i (.name id name)) (after (beginBinding id name) m))
    (endBinding : ∀ {i m id name} result, holds (starting i (.name id name)) m →
      holds i (after (endBinding id name result) m)) :
    Invariant.Lasting { Index, holds, starting } := by
  have hdeclare {i : Index} {m : Machine} (f : FrameRef) (name : String) (slot : Slot)
      (h : holds i m) : holds i (m.declare f name slot) := by
    cases f with
    | top id => exact declare id name slot h
    | inner n =>
      refine congr ?_ h
      rfl
  exact
    { beside := fun h => congr (by rw [Machine.ledger, h.instances, h.begun, h.report]; rfl)
      declare := fun _ _ _ => hdeclare _ _ _
      reassign := fun _ _ => hdeclare _ _ _
      enter := fun {i m} h _ => congr (i := i) (m := m) rfl h
      leave := congr rfl
      load := fun _ _ => congr rfl
      beginModule := fun h hs _ => beginModule h hs
      endModule
      beginBinding
      endBinding }

/-! ### What has a state keeps one -/

namespace Machine.Started

variable {m : Machine} {key : BindingKey}

theorem congr {m' : Machine} (h : m.Started key) (hm : m'.instances = m.instances) :
    m'.Started key := by
  have hof id : m'.instanceOf id = m.instanceOf id := by rw [instanceOf, hm, instanceOf]
  cases key with
  | name id name => rwa [Started, hof]
  | body id => rwa [Started, hof]
  | everything id => exact h

theorem setStatus (h : m.Started key) (id : ModuleId) {status : ModuleStatus}
    (hs : status ≠ .pending) : (after (setStatus id status) m).Started key :=
  h.modifyInstance id (f := fun i => { i with status }) (fun _ _ hn => hn) fun _ _ => hs

theorem setBinding (h : m.Started key) (id : ModuleId) (name : String) (status : BindingStatus) :
    (after (setBinding id name status) m).Started key :=
  h.modifyInstance id (f := fun i => { i with bindings := i.bindings.insert name status })
    (fun _ _ hn => OrderedMap.get?_insert_ne_none hn name status) fun _ hs => hs

end Machine.Started

/-- The status of one module is changed at a time. -/
theorem Machine.started_body_setStatus {m : Machine} {id id' : ModuleId} {status : ModuleStatus}
    (h : (after (setStatus id status) m).Started (.body id')) :
    id' = id ∨ m.Started (.body id') := by
  change ((m.modifyInstance id fun i => { i with status }).instanceOf id').status ≠ .pending at h
  rw [instanceOf_modifyInstance] at h
  split at h
  · rename_i heq
    exact .inl (beq_iff_eq.1 heq).symm
  · exact .inr h

/-- What had a state on another machine has one. -/
def startedSince : Invariant where
  Index := Machine
  holds base m := ∀ key, base.Started key → m.Started key
  starting base _ := base

theorem startedSince_lasting : startedSince.Lasting := by
  refine Invariant.lasting_of_ledger ?_ ?_ ?_ ?_ ?_ ?_
  · intro _ m m' hledger h key hk
    exact (h key hk).congr (congrArg Prod.fst hledger)
  · intro _ m id name slot h key hk
    exact (h key hk).modifyInstance id (fun _ _ hn => hn) fun _ hs => hs
  · intro _ m id h _ key hk
    exact (h key hk).setStatus id ModuleStatus.noConfusion
  · intro _ m id result h key hk
    refine Machine.Started.setStatus (m := after endInitializing m) (h key hk) id ?_
    cases result <;> exact ModuleStatus.noConfusion
  · intro _ m id name h _ key hk
    exact (h key hk).setBinding id name .evaluating
  · intro i m id name result h
    refine Invariant.holds_endBinding (I := startedSince) (j := i) result h ?_ (fun _ hm => hm) fun _ hm => hm
    exact fun name status _ _ _ hm key hk => (hm key hk).setBinding id name status

/-- What has a state before a computation has one after it. -/
def KeepsStarted {α : Type} (x : Eval α) : Prop :=
  ∀ m key, m.Started key → (after x m).Started key

/-- The same of every part of evaluation. -/
structure Interp.KeepsStarted (r : Interp) : Prop where
  expr : ∀ s e, AtomicStyles.KeepsStarted (r.expr s e)
  stmt : ∀ s stmt, AtomicStyles.KeepsStarted (r.stmt s stmt)
  bind : ∀ s kind p v, AtomicStyles.KeepsStarted (r.bind s kind p v)
  call : ∀ f args, AtomicStyles.KeepsStarted (r.call f args)
  topLevel : ∀ id name, AtomicStyles.KeepsStarted (r.topLevel id name)
  exported : ∀ id name, AtomicStyles.KeepsStarted (r.exported id name)

theorem keepsStarted_task {α : Type} {x : Interp → Eval α} (hx : Task x) (n : Nat) :
    KeepsStarted (x (interp n)) :=
  fun m key hk => startedSince_lasting.keeps_task (i := m) hx n m (fun _ hk => hk) key hk

theorem keepsStarted_interp (fuel : Nat) : (interp fuel).KeepsStarted where
  expr s e := keepsStarted_task (.expr s e) fuel
  stmt s stmt := keepsStarted_task (.stmt s stmt) fuel
  bind s kind p v := keepsStarted_task (.bind s kind p v) fuel
  call f args := keepsStarted_task (.call f args) fuel
  topLevel id name := keepsStarted_task (.topLevel id name) fuel
  exported id name := keepsStarted_task (.exported id name) fuel

theorem Batch.started_runJob (job : Job) {m : Machine} {key : BindingKey} (h : m.Started key) :
    (runJob job m).2.Started key := by
  rw [snd_runJob]
  exact keepsStarted_task (.styleCall job.argument job.needed) m.nesting m.reset key (h.congr rfl)

/-! ### What runs when something is started -/

theorem runOnce_of_pending {m : Machine} {id : ModuleId} {x : Eval Unit}
    (h : (m.instanceOf id).status = .pending) :
    runOnce id x m = (do
      let result ← outcome x
      endModule id (.ofResult result)
      conclude result : Eval Unit) (after (beginModule id) m) := by
  rw [Invariant.runOnce_eq, h]
  show _ = EStateM.bind (outcome x) _ _
  unfold EStateM.bind outcome
  cases x (after (beginModule id) m) <;> rfl

theorem evalOnce_of_pending {m : Machine} {id : ModuleId} {name : String} {x : Eval (List String)}
    (h : (m.instanceOf id).bindings.get? name = none) :
    evalOnce id name x m = (do
      let result ← outcome x
      endBinding id name result : Eval Unit) (after (beginBinding id name) m) := by
  rw [Invariant.evalOnce_eq, h]
  show _ = EStateM.bind (outcome x) _ _
  unfold EStateM.bind outcome
  cases x (after (beginBinding id name) m) <;> rfl

/-- A computation that runs the code behind a key unless it has been started: if it has, the code
has no part in it, and otherwise the start is recorded before the code runs. -/
structure Starts {α : Type} (key : BindingKey) (start : Eval α → Eval Unit) : Prop where
  again : ∀ {m : Machine}, m.Started key → ∀ code code', start code m = start code' m
  first : ∀ {m : Machine}, ¬ m.Started key → ∃ m₁ finish, m₁.Started key ∧
    m₁.begun = key :: m.begun ∧ ∀ code, start code m = (outcome code >>= finish) m₁

theorem starts_runOnce (id : ModuleId) : Starts (.body id) (runOnce id) where
  again {m} hm code code' := by
    rw [Invariant.runOnce_eq, Invariant.runOnce_eq]
    cases hs : (m.instanceOf id).status with
    | pending => exact absurd hs hm
    | _ => rfl
  first {m} hm := by
    have hs : (m.instanceOf id).status = .pending := not_not.1 hm
    refine ⟨after (beginModule id) m, _, ?_, rfl, fun code => runOnce_of_pending hs⟩
    exact (m.started_setStatus id ModuleStatus.noConfusion).congr rfl

theorem starts_evalOnce (id : ModuleId) (name : String) :
    Starts (.name id name) (evalOnce id name) where
  again {m} hm code code' := by
    rw [Invariant.evalOnce_eq, Invariant.evalOnce_eq]
    cases hs : (m.instanceOf id).bindings.get? name with
    | none => exact absurd hs hm
    | some status => cases status <;> rfl
  first {m} hm := by
    have hs : (m.instanceOf id).bindings.get? name = none := not_not.1 hm
    refine ⟨after (beginBinding id name) m, _, ?_, rfl, fun code => evalOnce_of_pending hs⟩
    exact (m.started_setBinding id name .evaluating).congr rfl

/-! ### What is begun is begun once -/

/-- What holds while the evaluation of some keys has not come to its end. -/
structure StartedOnce (busy : List BindingKey) (m : Machine) : Prop where
  nodup : m.begun.Nodup
  started : ∀ key ∈ m.begun, m.Started key
  body : ∀ id, m.Started (.body id) → .body id ∈ m.begun
  busy_nodup : busy.Nodup
  busy_begun : ∀ key ∈ busy, key ∈ m.begun
  modules : ∀ e ∈ m.report.modules.entries, e.2 = 1 ∧ .body e.1 ∈ m.begun
  reported : ∀ id, .body id ∈ m.begun → m.report.modules.get? id = some 1
  bindings : ∀ e ∈ m.report.bindings.entries, e.2 = 1 ∧ e.1 ∈ m.begun ∧ e.1 ∉ busy

def startedOnce : Invariant where
  Index := List BindingKey
  holds := StartedOnce
  starting i key := key :: i

namespace StartedOnce

variable {busy : List BindingKey} {m : Machine}

theorem congr {m' : Machine} (h : StartedOnce busy m) (hm : m'.ledger = m.ledger) :
    StartedOnce busy m' := by
  have hinstances : m'.instances = m.instances := congrArg Prod.fst hm
  have hbegun : m'.begun = m.begun := congrArg (·.2.1) hm
  have hreport : m'.report = m.report := congrArg (·.2.2) hm
  have hstarted key (hk : m'.Started key) : m.Started key := hk.congr hinstances.symm
  constructor <;> (try rw [hbegun]) <;> (try rw [hreport])
  · exact h.nodup
  · exact fun key hk => (h.started key hk).congr hinstances
  · exact fun id hid => h.body id (hstarted _ hid)
  · exact h.busy_nodup
  · exact h.busy_begun
  · exact h.modules
  · exact h.reported
  · exact h.bindings

/-- A change to what is known about a module that leaves its status. -/
theorem modifyInstance (h : StartedOnce busy m) (id : ModuleId) {f : Instance → Instance}
    (hb : ∀ i name, i.bindings.get? name ≠ none → (f i).bindings.get? name ≠ none)
    (hs : ∀ i, (f i).status = i.status) : StartedOnce busy (m.modifyInstance id f) :=
  { h with
    started := fun key hk => (h.started key hk).modifyInstance id hb fun i hi => by rwa [hs]
    body := fun id' hid => h.body id' (by
      rw [Machine.Started, Machine.instanceOf_modifyInstance] at hid
      split at hid
      · rename_i heq
        rw [hs, beq_iff_eq.1 heq] at hid
        exact hid
      · exact hid) }

theorem setBinding (h : StartedOnce busy m) (id : ModuleId) (name : String)
    (status : BindingStatus) : StartedOnce busy (after (setBinding id name status) m) :=
  h.modifyInstance id (f := fun i => { i with bindings := i.bindings.insert name status })
    (fun _ _ hn => OrderedMap.get?_insert_ne_none hn name status) fun _ => rfl

variable {id : ModuleId} {key : BindingKey}

theorem setStatus (h : StartedOnce busy m) {status : ModuleStatus} (hs : status ≠ .pending)
    (hid : .body id ∈ m.begun) : StartedOnce busy (after (setStatus id status) m) :=
  { h with
    started := fun key hk => (h.started key hk).setStatus id hs
    body := fun id' hid' => by
      rcases Machine.started_body_setStatus hid' with rfl | hid'
      · exact hid
      · exact h.body id' hid' }

/-- What has no state has not been begun. -/
theorem not_mem_begun (h : StartedOnce busy m) (hk : ¬ m.Started key) : key ∉ m.begun :=
  fun hmem => hk (h.started key hmem)

theorem nodup_cons (h : StartedOnce busy m) (hk : key ∉ m.begun) : (key :: busy).Nodup :=
  List.nodup_cons.2 ⟨fun hmem => hk (h.busy_begun key hmem), h.busy_nodup⟩

theorem bindings_cons (h : StartedOnce busy m) (hk : key ∉ m.begun) :
    ∀ e ∈ m.report.bindings.entries, e.2 = 1 ∧ e.1 ∈ key :: m.begun ∧ e.1 ∉ key :: busy := by
  intro e he
  obtain ⟨hone, hbegun, hbusy⟩ := h.bindings e he
  refine ⟨hone, .tail _ hbegun, fun hmem => ?_⟩
  rcases mem_cons.1 hmem with heq | hmem
  · exact hk (heq ▸ hbegun)
  · exact hbusy hmem

theorem beginModule (h : StartedOnce busy m) (hs : (m.instanceOf id).status = .pending) :
    StartedOnce (.body id :: busy) (after (beginModule id) m) := by
  have hrunning : ModuleStatus.running ≠ .pending := ModuleStatus.noConfusion
  have hnew : .body id ∉ m.begun := h.not_mem_begun fun hk => hk hs
  -- A module that is not in the report is counted for the first time.
  have hcount : increment (m.report.modules.get? id) = 1 := by
    cases hget : m.report.modules.get? id with
    | none => rfl
    | some n => exact absurd (h.modules _ (OrderedMap.mem_entries_of_get? hget)).2 hnew
  have hset key (hk : m.Started key) : (after (Eval.beginModule id) m).Started key :=
    (hk.setStatus id hrunning).congr rfl
  constructor
  · exact List.nodup_cons.2 ⟨hnew, h.nodup⟩
  · intro key hk
    rcases List.mem_cons.1 hk with rfl | hk
    · exact (m.started_setStatus id hrunning).congr rfl
    · exact hset key (h.started key hk)
  · intro id' hid'
    have hrun : (after (Eval.setStatus id .running) m).Started (.body id') := hid'.congr rfl
    rcases Machine.started_body_setStatus hrun with rfl | hid'
    · exact List.mem_cons_self
    · exact List.mem_cons_of_mem _ (h.body id' hid')
  · exact h.nodup_cons hnew
  · exact List.cons_subset_cons _ h.busy_begun
  · intro e he
    rcases OrderedMap.mem_put he with rfl | he
    · exact ⟨hcount, List.mem_cons_self⟩
    · exact (h.modules e he).imp_right (List.mem_cons_of_mem _)
  · intro id' hid'
    show (m.report.modules.insert id (increment (m.report.modules.get? id))).get? id' = some 1
    rw [OrderedMap.get?_insert]
    split
    · rw [hcount]
    · rename_i hne
      refine h.reported id' ((List.mem_cons.1 hid').resolve_left fun heq => hne ?_)
      exact beq_iff_eq.2 (BindingKey.body.inj heq).symm
  · exact h.bindings_cons hnew

theorem beginBinding (h : StartedOnce busy m) {name : String}
    (hs : (m.instanceOf id).bindings.get? name = none) :
    StartedOnce (.name id name :: busy) (after (beginBinding id name) m) := by
  have hnew : .name id name ∉ m.begun := h.not_mem_begun fun hk => hk hs
  have hset := h.setBinding id name .evaluating
  constructor
  · exact List.nodup_cons.2 ⟨hnew, h.nodup⟩
  · intro key hk
    rcases List.mem_cons.1 hk with rfl | hk
    · exact (m.started_setBinding id name .evaluating).congr rfl
    · exact (hset.started key hk).congr rfl
  · exact fun id' hid' => List.mem_cons_of_mem _ (hset.body id' (hid'.congr rfl))
  · exact h.nodup_cons hnew
  · exact List.cons_subset_cons _ h.busy_begun
  · exact fun e he => (h.modules e he).imp_right (List.mem_cons_of_mem _)
  · intro id' hid'
    exact h.reported id' ((List.mem_cons.1 hid').resolve_left BindingKey.noConfusion)
  · exact h.bindings_cons hnew

theorem of_cons (h : StartedOnce (key :: busy) m) : StartedOnce busy m :=
  { h with
    busy_nodup := h.busy_nodup.of_cons
    busy_begun := fun k hk => h.busy_begun k (.tail _ hk)
    bindings := fun e he =>
      let ⟨hone, hbegun, hbusy⟩ := h.bindings e he
      ⟨hone, hbegun, fun hmem => hbusy (.tail _ hmem)⟩ }

theorem reportBinding {name : String} (h : StartedOnce (.name id name :: busy) m) :
    StartedOnce busy (after (reportBinding id name) m) :=
  { h.of_cons with
    bindings := fun e he => by
      rcases OrderedMap.mem_put he with rfl | he
      · -- What is being evaluated is not in the report.
        have hcount : increment (m.report.bindings.get? (.name id name)) = 1 := by
          cases hget : m.report.bindings.get? (.name id name) with
          | none => rfl
          | some n =>
            have hbusy := (h.bindings _ (OrderedMap.mem_entries_of_get? hget)).2.2
            exact absurd List.mem_cons_self hbusy
        exact ⟨hcount, h.busy_begun _ List.mem_cons_self, (List.nodup_cons.1 h.busy_nodup).1⟩
      · exact h.of_cons.bindings e he }

end StartedOnce

theorem startedOnce_lasting : startedOnce.Lasting := by
  refine Invariant.lasting_of_ledger (fun hm h => h.congr hm) ?_
    (fun h hs => h.beginModule hs) ?_ (fun h hs => h.beginBinding hs) ?_
  · exact fun id name slot h => h.modifyInstance id (fun _ _ hn => hn) fun _ => rfl
  · intro busy m id result h
    have hend : StartedOnce (.body id :: busy) (after endInitializing m) := h.congr rfl
    refine (hend.setStatus ?_ (h.busy_begun _ (.head _))).of_cons
    cases result <;> exact ModuleStatus.noConfusion
  · intro busy m id name result h
    have hend : StartedOnce (.name id name :: busy) (after endInitializing m) := h.congr rfl
    refine Invariant.holds_endBinding (I := startedOnce) (j := .name id name :: busy) result hend
      ?_ ?_ ?_
    · exact fun name status _ _ _ hm => hm.setBinding id name status
    · exact fun _ hm => hm.reportBinding
    · exact fun _ hm => hm.of_cons

/-! ### Batches -/

namespace Batch

theorem startedOnce_runJob (job : Job) {m : Machine} (h : StartedOnce [] m) :
    StartedOnce [] (runJob job m).2 := by
  have hreset : StartedOnce [] m.reset := h.congr rfl
  rw [snd_runJob]
  exact startedOnce_lasting.keeps_task (.styleCall job.argument job.needed) m.nesting _ hreset

theorem startedOnce_runJobs (jobs : List Job) {m : Machine} (h : StartedOnce [] m) :
    StartedOnce [] (runJobs jobs m).2 := by
  induction jobs generalizing m with
  | nil => exact h
  | cons job jobs ih => exact ih (startedOnce_runJob job h)

theorem startedOnce_start (g : Graph) (limits : Limits) (cache : ModuleCache) :
    StartedOnce [] (.start g limits cache) where
  nodup := nodup_nil
  started _ hk := absurd hk not_mem_nil
  body _ hid := absurd rfl hid
  busy_nodup := nodup_nil
  busy_begun _ hk := hk
  modules _ he := absurd he not_mem_nil
  reported _ hid := absurd hid not_mem_nil
  bindings _ he := absurd he not_mem_nil

/-- The machine behind the report of a batch: that of the first run, or that of the second one if
there are poisoned jobs. -/
def lastMachine (g : Graph) (limits : Limits) (cache : ModuleCache) (jobs : List Job) : Machine :=
  let first := run g limits cache jobs
  if first.poisoned.isEmpty then (runJobs jobs (.start g limits cache)).2
  else (runJobs (clean first.poisoned jobs) (.start g limits first.cache)).2

variable (g : Graph) (limits : Limits) (cache : ModuleCache) (jobs : List Job)

theorem modules_evaluate : (evaluate g limits cache jobs).report.modules =
    (lastMachine g limits cache jobs).report.modules := by
  unfold evaluate lastMachine
  dsimp only
  split <;> rfl

theorem bindings_evaluate : (evaluate g limits cache jobs).report.bindings =
    (lastMachine g limits cache jobs).report.bindings := by
  unfold evaluate lastMachine
  dsimp only
  split <;> rfl

theorem startedOnce_lastMachine : StartedOnce [] (lastMachine g limits cache jobs) := by
  unfold lastMachine
  dsimp only
  split <;> exact startedOnce_runJobs _ (startedOnce_start ..)

/-- In a batch everything is started at most once, and the report says so: the modules in it are
those whose top-level code was started, each with a count of one, and every declaration in it was
started and has a count of one. The top-level code of a module and each declaration are evaluated
only where they have not been started, which is recorded before, and no part of evaluation takes the
state of a module or a declaration away. -/
theorem begun_once :
    (lastMachine g limits cache jobs).begun.Nodup ∧
    (∀ id, .body id ∈ (lastMachine g limits cache jobs).begun ↔
      (evaluate g limits cache jobs).report.modules.get? id = some 1) ∧
    (∀ e ∈ (evaluate g limits cache jobs).report.modules.entries, e.2 = 1) ∧
    (∀ e ∈ (evaluate g limits cache jobs).report.bindings.entries,
      e.2 = 1 ∧ e.1 ∈ (lastMachine g limits cache jobs).begun) ∧
    (∀ id, .body id ∈ (lastMachine g limits cache jobs).begun ↔
      (lastMachine g limits cache jobs).Started (.body id)) ∧
    (∀ r id t, ∃ start, Starts (.body id) start ∧
      runModule r id t = start (runItems r { module := id } t.module.items)) ∧
    (∀ r id t name, ∃ start, Starts (.name id name) start ∧
      forceDeclaration r id t name = start (evalDeclaration r t { module := id } name)) ∧
    (∀ fuel, (interp fuel).KeepsStarted) ∧
    ∀ job (m : Machine) key, m.Started key → (runJob job m).2.Started key := by
  have h := startedOnce_lastMachine g limits cache jobs
  rw [modules_evaluate, bindings_evaluate]
  refine ⟨h.nodup, fun id => ⟨h.reported id, fun hget => ?_⟩, fun e he => (h.modules e he).1,
    fun e he => ?_, fun id => ⟨h.started _, h.body id⟩, fun r id t => ⟨_, starts_runOnce id, rfl⟩,
    fun r id t name => ⟨_, starts_evalOnce id name, rfl⟩, keepsStarted_interp,
    fun job m key hk => started_runJob job hk⟩
  · exact (h.modules _ (OrderedMap.mem_entries_of_get? hget)).2
  · exact ⟨(h.bindings e he).1, (h.bindings e he).2.1⟩

end Batch
end AtomicStyles
