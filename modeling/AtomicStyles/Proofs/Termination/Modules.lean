import AtomicStyles.Proofs.Termination.Operations

/-!
# Modules and evaluation that ends

A module that is asked for is one of finitely many, so that a list of different modules cannot
grow for ever. The evaluation of a key begins once, after which one key less is left: what is
evaluated then may be asked to end at a lower cost only. With this the judgement that
computations end has all rules of evaluation.

## Main definitions

* `Visited` — different modules of a collection.
* `endingLogic` — the rules of evaluation that ends.

## Main results

* `ending_exportNames` — the search for all exports of a module ends.
* `ending_runOnce`, `ending_evalOnce` — work that is done once ends.
-/

namespace AtomicStyles

open Script Eval Coupling
open List hiding after

variable {g : Graph} {ids : Finset ModuleId} {c : Nat} {α β : Type} {m : Machine} {id : ModuleId}

/-! ### Loading -/

theorem ending_load (id : ModuleId) :
    (ending g ids).Holds c (· = g.freshTables id) fun _ => load id := by
  intro m hm _
  obtain ⟨m', hload, hm'⟩ := Recached.exists_load hm.serves id
  have hsound : Sound g ids { m with cache := m'.cache } := { hm with cache := hm'.left.cache }
  refine .returns (g.freshTables id) m' rfl ?_ (.of_forall fun limit nesting => ?_)
  · rw [hm'.eq]
    exact .of_eq hsound rfl rfl
  · have hbounded : load id (m.bounded limit nesting) =
        boundedResult limit nesting (load id m) := rfl
    rw [hbounded, hload]

theorem ending_tables (hid : id ∈ ids) :
    (ending g ids).Holds c ((ending g ids).Table id) fun _ => tables id := by
  refine (ending_load id).bind fun r hr => ?_
  subst hr
  cases ht : g.freshTables id with
  | ok t => exact .pure ⟨hid, ht⟩
  | error e => exact .throw nofun

/-! ### Searches through modules -/

/-- Different modules of a collection, at least as many as a number. -/
structure Visited (ids : Finset ModuleId) (n : Nat) (visited : List ModuleId) : Prop where
  mem : ∀ id ∈ visited, id ∈ ids
  nodup : visited.Nodup
  length : n ≤ visited.length

namespace Visited

variable {n : Nat} {visited : List ModuleId}

theorem nil : Visited ids 0 [] := ⟨nofun, .nil, le_rfl⟩

theorem mono (h : Visited ids (n + 1) visited) : Visited ids n visited :=
  ⟨h.mem, h.nodup, (Nat.le_succ n).trans h.length⟩

theorem cons (h : Visited ids n visited) (hid : id ∈ ids) (hnew : id ∉ visited) :
    Visited ids (n + 1) (id :: visited) :=
  ⟨forall_mem_cons.2 ⟨hid, h.mem⟩, h.nodup.cons hnew, Nat.succ_le_succ h.length⟩

theorem concat (h : Visited ids n visited) (hid : id ∈ ids) (hnew : id ∉ visited) :
    Visited ids (n + 1) (visited ++ [id]) := by
  have hperm : (id :: visited).Perm (visited ++ [id]) :=
    (perm_append_singleton id visited).symm
  have hcons := h.cons hid hnew
  refine ⟨fun id' hid' => hcons.mem id' (hperm.mem_iff.2 hid'), hperm.nodup_iff.1 hcons.nodup, ?_⟩
  rw [← hperm.length_eq]
  exact hcons.length

/-- There are no more of them than the collection has. -/
theorem le_card (h : Visited ids n visited) : n ≤ ids.card :=
  calc n ≤ visited.length := h.length
    _ = visited.toFinset.card := (toFinset_card_of_nodup h.nodup).symm
    _ ≤ ids.card := Finset.card_le_card fun id hid => h.mem id (mem_toFinset.1 hid)

end Visited

/-- Computations that are the same under all large bounds. -/
theorem ending_congr {Q : α → Prop} {x y : Bounds → Eval α}
    (h : ∀ᶠ b in Filter.atTop, y b = x b) (hx : (ending g ids).Holds c Q x) :
    (ending g ids).Holds c Q y := by
  intro m hm hc
  refine .of_eq (.refl hm) (hx m hm hc) ?_
  filter_upwards [h] with b hb limit
  rw [hb]

/-- A search that has gone some way can go one step further. -/
theorem eventually_fuel (lost : Nat) :
    ∀ᶠ b : Bounds in Filter.atTop, b.2 - lost = b.2 - (lost + 1) + 1 := by
  filter_upwards [Filter.eventually_ge_atTop ((0, lost + 1) : Bounds)] with b hb
  have hlost : lost + 1 ≤ b.2 := hb.2
  omega

/-- A search that goes as deep as the machine allows. -/
theorem ending_nesting {Q : α → Prop} {x : Bounds → Nat → Eval α}
    (h : (ending g ids).Holds c Q fun b => x b b.2) :
    (ending g ids).Holds c Q fun b => (do x b (← nesting)) :=
  fun m hm hc => .of_eq (.refl hm) (h m hm hc) (.of_forall fun _ _ => rfl)

/-- The search for all exports ends, since each step visits one more module. -/
theorem ending_exportNames (hspans : g.Spans ids) {n : Nat} (lost : Nat) (hid : id ∈ ids)
    {acc : List ModuleId × List String} (hacc : Visited ids n acc.1) :
    (ending g ids).Holds c (fun acc => Visited ids n acc.1) fun b =>
      exportNames (b.2 - lost) id acc := by
  -- On the number of modules that have not been visited.
  induction hleft : ids.card - n using Nat.strong_induction_on generalizing n lost id acc with
  | _ left ih =>
    obtain ⟨visited, names⟩ := acc
    have hfuel := (eventually_fuel lost).mono fun b hb =>
      congrArg (exportNames · id (visited, names)) hb
    refine ending_congr hfuel ?_
    simp only [exportNames]
    refine .iteOf (fun _ => .pure hacc) fun hseen => ?_
    have hnew : id ∉ visited := by simpa using hseen
    have hvisited := hacc.concat hid hnew
    have hless := hvisited.le_card
    refine (ending_tables hid).bind fun t ht => ?_
    -- What is passed from star to star has this module in it, and does not lose it again.
    refine Judgement.Holds.mono ?_ fun acc (h : Visited ids (n + 1) acc.1) => h.mono
    refine .foldlM _ (fun acc hacc star hstar => ?_) hvisited
    cases hsource : star.source with
    | error e => exact .pure hacc
    | ok target =>
      have htarget := hspans.closed id hid t ht.2 target (.star hstar hsource)
      exact ih _ (by omega) (lost + 1) htarget hacc rfl

theorem ending_exportsOf (hspans : g.Spans ids) (hid : id ∈ ids) :
    (ending g ids).Gives c fun _ => exportsOf id := by
  unfold exportsOf
  refine ending_nesting ?_
  exact (ending_exportNames hspans 0 hid .nil).bind fun _ _ => .pure fun _ _ => trivial

/-! ### Work that is done once -/

theorem onward_setStatus (hm : Sound g ids m) (id : ModuleId) {status : ModuleStatus}
    (hstatus : Clean ids status) (hbegun : status ≠ .pending) :
    Onward g ids m (after (setStatus id status) m) :=
  .modifyInstance hm id (f := fun i => { i with status }) (fun _ hi => ⟨hi.1, hstatus, hi.2.2⟩)
    (fun _ _ hn => hn) fun _ _ => hbegun

theorem onward_setBinding (hm : Sound g ids m) (id : ModuleId) (name : String)
    {status : BindingStatus} (hstatus : Clean ids status) :
    Onward g ids m (after (setBinding id name status) m) :=
  .modifyInstance hm id (f := fun i => { i with bindings := i.bindings.insert name status })
    (fun _ hi => ⟨hi.1, hi.2.1,
      Judgement.Good.insert (J := endingJudgement g ids) hi.2.2 name hstatus⟩)
    (fun _ _ hn => OrderedMap.get?_insert_ne_none hn name status) fun _ hs => hs

theorem ending_endInitializing :
    (ending g ids).Gives c fun _ => endInitializing :=
  ending_modify (fun _ _ _ => rfl) fun _ hm => .of_eq { hm with } rfl rfl

theorem ending_setBinding (id : ModuleId) (name : String) {status : BindingStatus}
    (hstatus : (ending g ids).Good status) :
    (ending g ids).Gives c fun _ => setBinding id name status :=
  ending_modify (fun _ _ _ => rfl) fun _ hm => onward_setBinding hm id name hstatus

theorem ending_endModule (id : ModuleId) {result : Except EvalError Unit}
    (hresult : (ending g ids).Good result) :
    (ending g ids).Gives c fun _ => (do
      endModule id (.ofResult result)
      conclude result) := by
  have hstatus : Clean ids (ModuleStatus.ofResult result) ∧
      ModuleStatus.ofResult result ≠ .pending := by
    cases result with
    | ok _ => exact ⟨trivial, nofun⟩
    | error e => exact ⟨hresult, nofun⟩
  have hset : (ending g ids).Gives c fun _ =>
      setStatus id (ModuleStatus.ofResult result) :=
    ending_modify (fun _ _ _ => rfl) fun _ hm => onward_setStatus hm id hstatus.1 hstatus.2
  refine Judgement.Holds.bind (P := (ending g ids).Good) ?_ fun _ _ => .conclude hresult
  exact ending_endInitializing.bind fun _ _ => hset

theorem ending_endBinding (id : ModuleId) (name : String) {result : Except EvalError (List String)}
    (hresult : (ending g ids).Good result) :
    (ending g ids).Gives c fun _ => endBinding id name result := by
  refine ending_endInitializing.bind fun _ _ => ?_
  cases result with
  | error e =>
    exact (ending_setBinding id name hresult).bind fun _ _ => (ending g ids).throw hresult
  | ok names =>
    have hready (name : String) : (ending g ids).Gives c fun _ =>
        setBinding id name .ready := ending_setBinding id name trivial
    refine (Judgement.Holds.forM names fun name _ => hready name).bind fun _ _ => ?_
    refine (hready name).bind fun _ _ => ?_
    exact ending_modify (fun _ _ _ => rfl) fun _ hm => .of_eq { hm with } rfl rfl

/-- The top-level code of a module runs at a lower cost. -/
theorem ending_runOnce (hid : id ∈ ids) {x : Bounds → Eval Unit}
    (h : ∀ j < c, (ending g ids).Gives j x) :
    (ending g ids).Gives c fun b => runOnce id (x b) := by
  intro m hm hc
  have hclean := (hm.clean_instanceOf id).2.1
  cases hs : (m.instanceOf id).status with
  | pending =>
    have hset : Onward g ids m (after (setStatus id .running) m) :=
      onward_setStatus hm id trivial nofun
    have hbegin : Onward g ids m (after (beginModule id) m) :=
      ⟨{ hset.sound with }, le_rfl, fun key hk => (hset.started key hk).congr rfl⟩
    have hrunning : (after (setStatus id .running) m).Started (.body id) :=
      m.started_setStatus id nofun
    have hstarted : (after (beginModule id) m).Started (.body id) := hrunning.congr rfl
    -- From here on the body of the module is no longer among what can be used up.
    have hless := hbegin.cost_lt_of_started (Graph.body_mem_keysWithin hid)
      (fun hstarted => hstarted hs) hstarted
    have hx := h _ (hless.trans_le hc) _ hbegin.sound le_rfl
    refine .of_eq hbegin (hx.outcome.bind fun result m' hresult hm' => ?_)
      (.of_forall fun b limit => runOnce_of_pending hs)
    exact ending_endModule id hresult m' hm'.sound le_rfl
  | failed e =>
    rw [hs] at hclean
    refine .of_error hm hclean fun b limit nesting => ?_
    rw [Invariant.runOnce_eq, show ((m.bounded limit nesting).instanceOf id).status = _ from hs]
  | _ =>
    refine .of_ok (a := ()) hm trivial fun b limit nesting => ?_
    rw [Invariant.runOnce_eq, show ((m.bounded limit nesting).instanceOf id).status = _ from hs]

/-- A declaration is evaluated at a lower cost. -/
theorem ending_evalOnce {t : Tables} (ht : (ending g ids).Table id t) {name : String}
    (hname : t.declarations.contains name = true) {x : Bounds → Eval (List String)}
    (h : ∀ j < c, (ending g ids).Gives j x) :
    (ending g ids).Gives c fun b => evalOnce id name (x b) := by
  intro m hm hc
  have hclean := (hm.clean_instanceOf id).2.2
  cases hs : (m.instanceOf id).bindings.get? name with
  | none =>
    have hset : Onward g ids m (after (setBinding id name .evaluating) m) :=
      onward_setBinding hm id name trivial
    have hbegin : Onward g ids m (after (beginBinding id name) m) :=
      ⟨{ hset.sound with }, le_rfl, fun key hk => (hset.started key hk).congr rfl⟩
    have hstarted : (after (beginBinding id name) m).Started (.name id name) :=
      (m.started_setBinding id name .evaluating).congr rfl
    -- Only a declared name is a key of the module; those are finitely many.
    have hkey := Graph.name_mem_keysWithin (Graph.holds_of_freshTables ht.2 ht.1) hname
    rw [Graph.id_of_freshTables ht.2] at hkey
    have hless := hbegin.cost_lt_of_started hkey (fun hstarted => hstarted hs) hstarted
    have hx := h _ (hless.trans_le hc) _ hbegin.sound le_rfl
    refine .of_eq hbegin (hx.outcome.bind fun result m' hresult hm' => ?_)
      (.of_forall fun b limit => evalOnce_of_pending hs)
    exact ending_endBinding id name hresult m' hm'.sound le_rfl
  | some status =>
    -- A failure that has been kept is thrown again; it did not say that a bound was met.
    have hstatus := Judgement.Good.get? (J := endingJudgement g ids) hclean hs
    have heq (limit nesting : Nat) :
        ((m.bounded limit nesting).instanceOf id).bindings.get? name = some status := hs
    cases status with
    | ready =>
      refine .of_ok (a := ()) hm trivial fun b limit nesting => ?_
      rw [Invariant.evalOnce_eq, heq]
    | evaluating =>
      refine .of_error (e := .circular id name) hm nofun fun b limit nesting => ?_
      rw [Invariant.evalOnce_eq, heq]
    | failed e =>
      refine .of_error hm hstatus fun b limit nesting => ?_
      rw [Invariant.evalOnce_eq, heq]

/-! ### The rules -/

def endingLogic (hspans : g.Spans ids) : Logic where
  toCalculus := ending g ids
  tick := ending_tick
  spend := ending_spend
  call h := ending_spend fun j hj => ending_nested (h j hj)
  turns hturn hstate := ending_turns hturn hstate
  newObject := ending_newObject
  newArray hxs := ending_modifyGet (fun _ _ _ => rfl) (fun _ _ => trivial) fun _ hm =>
    .of_eq { hm with arrays := clean_push hm.arrays hxs } rfl rfl
  newFunction hf := ending_modifyGet (fun _ _ _ => rfl) (fun _ _ => hf) fun _ hm =>
    .of_eq { hm with } rfl rfl
  newFrame := ending_modifyGet (fun _ _ _ => rfl) (fun _ _ _ _ _ => trivial) fun _ hm =>
    .of_eq { hm with frames := clean_push hm.frames nofun } rfl rfl
  properties o := ending_read (fun _ _ _ => rfl) fun m hm => hm.clean_objectCell o
  items := ending_items
  isFrozen v := by
    cases v with
    | object o => exact ending_read (fun _ _ _ => rfl) fun _ _ => trivial
    | array a => exact ending_read (fun _ _ _ => rfl) fun _ _ => trivial
    | _ => exact .pure trivial
  freeze := ending_freeze
  putProperty o frozen key _ hv := ending_changeProperties o frozen fun _ hps => hps.insert key hv
  dropProperty o frozen key := ending_changeProperties o frozen fun _ hps => hps.erase key
  changeArray a _ _ hx := (ending_beforeArrayWrite a).bind fun _ _ => hx.bind fun _ hf =>
    ending_modifyArray a fun cell hcell => hf cell.content hcell
  sortArray a _ h := (ending_beforeArrayWrite a).bind fun _ _ => (ending_items a).bind
    fun xs hxs => (h xs.toList hxs.toList).bind fun _ hsorted =>
      ending_modifyArray a fun _ _ => hsorted.toArray
  text := ending_text
  flattened depth _ hvs := ending_read (fun m _ _ => Machine.flatten_congr (by rfl) depth _)
    fun m hm => hm.clean_flatten depth hvs
  madeGlobal global := ending_read (fun _ _ _ => rfl) fun m hm v hv => by
    obtain ⟨before, rest, heq, -⟩ := lookup_eq_some_iff.1 hv
    exact (hm.globals (global, v) (heq ▸ mem_append_right before (.head _))).2
  keepGlobal global v hv := ending_modify (fun _ _ _ => rfl) fun m hm =>
    .of_eq { hm with globals := forall_mem_cons.2 ⟨⟨trivial, hv⟩, hm.globals⟩ } rfl rfl
  exception := ending_read (fun _ _ _ => rfl) fun _ hm => hm.exception
  setException := ending_setException
  ownSlot s name := ending_read (fun m limit nesting => by cases s.nearest <;> rfl)
    fun m hm slot hslot => Judgement.Good.get? (J := endingJudgement g ids) (hm.clean_frame _) hslot
  lookup s name := ending_read
    (fun m limit nesting => congrArg (Option.map _) (find?_bounded m name s.frames limit nesting))
    fun m hm slot hslot => by
      obtain ⟨⟨f, slot⟩, hfind, rfl⟩ := Option.map_eq_some_iff.1 hslot
      exact hm.clean_find? hfind
  declare isMutable _ hv := ending_declare _ _ hv
  assign := ending_assign
  recordWrite := ending_recordWrite
  unit := ending_read (fun _ _ _ => rfl) fun m hm => by
    rw [hm.graph]
    exact hspans.entry
  tables := ending_tables
  exportsOf := ending_exportsOf hspans
  runsWhole ht := ending_read (fun _ _ _ => rfl) fun _ _ _ => ht.1
  runOnce hid h := ending_runOnce hid (h ⟨hid, fun _ _ => trivial⟩)

end AtomicStyles
