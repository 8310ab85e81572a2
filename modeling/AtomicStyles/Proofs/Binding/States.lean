import AtomicStyles.Proofs.Coupling.Loading
import AtomicStyles.Proofs.Logic.Invariants

/-!
# The state of a declaration

In a module whose declarations are evaluated one by one, what has become of a declaration is
kept in two places: its state says whether it is being evaluated, has been, or has failed, and
its name is there at the top level of the module or is not. Reading a name looks for the name
first and at the state only if there is none. The two agree for a name that is declared by
itself and not inside a pattern: the name is there only if the declaration has been evaluated
with success. Besides, a state that a declaration has is not given up while other code runs.

Both are an invariant of evaluation. It keeps the name from being declared at the top level of its
module; the evaluation of its own declaration, which ends by declaring it, has a rule for itself.

## Main definitions

* `Graph.DeclaresAlone` — a name that is declared by itself.
* `Orderly` — the name is there only if its declaration has been evaluated.
* `Proceeds` — what evaluation does to the state of a declaration.
* `states` — the invariant.

## Main results

* `states_forces` — the evaluation of a declaration, also of the name itself.
* `states_runs` — **every part of evaluation keeps the states of declarations.**
-/

namespace AtomicStyles

open Script Eval Coupling

/-- The name is declared by itself in a module whose declarations are evaluated one by one: it is a
variable that is no part of a pattern, a function, an enumeration or a default export, and no other
declaration binds it. -/
structure Graph.DeclaresAlone (g : Graph) (id : ModuleId) (t : Tables) (name : String) : Prop where
  tables : g.freshTables id = .ok t
  apart : g.runsWhole t = false
  isDeclared : t.declarations.contains name = true
  isPlain : ∀ d kind, t.declaration? name = some (.var d kind) → ∃ x, d.pat = .ident x
  unique : ∀ other, name ∈ t.boundBy other → other = name

namespace Machine

/-- How far the declaration of a name has come; none if its evaluation has not begun. -/
def state? (m : Machine) (id : ModuleId) (name : String) : Option BindingStatus :=
  (m.instanceOf id).bindings.get? name

/-- The name at the top level of its module, if it is there. -/
def top? (m : Machine) (id : ModuleId) (name : String) : Option Slot :=
  (m.instanceOf id).names.get? name

/-- What is known about modules. -/
def modules (m : Machine) : Graph × ModuleCache × OrderedMap ModuleId Instance :=
  (m.graph, m.cache, m.instances)

end Machine

/-- The machine serves the graph, and the name is there only if its declaration has been
evaluated. -/
structure Orderly (g : Graph) (id : ModuleId) (name : String) (m : Machine) : Prop where
  serves : g.Serves m
  ready : m.top? id name ≠ none → m.state? id name = some .ready

/-- From the first machine evaluation has come to the second: a state of the declaration is kept. -/
structure Proceeds (g : Graph) (id : ModuleId) (name : String) (m m' : Machine) : Prop where
  orderly : Orderly g id name m'
  state : ∀ status, m.state? id name = some status → m'.state? id name = some status

variable {g : Graph} {id : ModuleId} {name : String} {t : Tables} {α β : Type}

namespace Proceeds

variable {m m' m'' : Machine}

theorem refl (h : Orderly g id name m) : Proceeds g id name m m := ⟨h, fun _ hs => hs⟩

theorem trans (h : Proceeds g id name m m') (h' : Proceeds g id name m' m'') :
    Proceeds g id name m m'' :=
  ⟨h'.orderly, fun status hs => h'.state status (h.state status hs)⟩

/-- What does not change what is known about modules keeps the states. -/
theorem of_instances (h : Orderly g id name m) (hserves : g.Serves m')
    (heq : m'.instances = m.instances) : Proceeds g id name m m' := by
  have hof : m'.instanceOf id = m.instanceOf id := by
    rw [Machine.instanceOf, heq, Machine.instanceOf]
  refine ⟨⟨hserves, ?_⟩, fun status hs => ?_⟩
  · simpa only [Machine.top?, Machine.state?, hof] using h.ready
  · rwa [Machine.state?, hof]

theorem of_modules (h : Orderly g id name m) (heq : m'.modules = m.modules) :
    Proceeds g id name m m' := by
  obtain ⟨hgraph, hcache, hinstances⟩ : m'.graph = m.graph ∧ m'.cache = m.cache ∧
      m'.instances = m.instances := by simpa [Machine.modules] using heq
  refine of_instances h ⟨hgraph.trans h.serves.graph, ?_⟩ hinstances
  rw [hcache]
  exact h.serves.cache

theorem of_recached (h : Orderly g id name m) (hm : Recached g m' m) : Proceeds g id name m m' :=
  of_instances h hm.left (by rw [hm.eq])

/-- So does a change of what is known about a module that neither adds the name nor changes its
state. -/
theorem modifyInstance (h : Orderly g id name m) (other : ModuleId) {f : Instance → Instance}
    (hnames : other = id → (f (m.instanceOf id)).names.get? name ≠ none → m.top? id name ≠ none)
    (hstate : other = id → (f (m.instanceOf id)).bindings.get? name = m.state? id name) :
    Proceeds g id name m (m.modifyInstance other f) := by
  by_cases hid : other = id
  · subst hid
    have hof : (m.modifyInstance other f).instanceOf other = f (m.instanceOf other) := by
      rw [Machine.instanceOf_modifyInstance, if_pos (beq_self_eq_true _)]
    have hkept : (m.modifyInstance other f).state? other name = m.state? other name := by
      rw [Machine.state?, hof, hstate rfl]
    refine ⟨⟨⟨h.serves.graph, h.serves.cache⟩, fun htop => ?_⟩, fun status hs => hkept.trans hs⟩
    rw [Machine.top?, hof] at htop
    exact hkept.trans (h.ready (hnames rfl htop))
  · have hof : (m.modifyInstance other f).instanceOf id = m.instanceOf id := by
      rw [Machine.instanceOf_modifyInstance, if_neg (mt beq_iff_eq.1 hid)]
    refine ⟨⟨⟨h.serves.graph, h.serves.cache⟩, ?_⟩, fun status hs => ?_⟩
    · simpa only [Machine.top?, Machine.state?, hof] using h.ready
    · rwa [Machine.state?, hof]

/-- A name may be declared unless it is the one that is observed; that one may be if it is there. -/
theorem declare (h : Orderly g id name m) {f : FrameRef} {y : String} (slot : Slot)
    (hname : f = .top id → y = name → m.top? id name ≠ none) :
    Proceeds g id name m (m.declare f y slot) := by
  cases f with
  | inner n => exact of_modules h rfl
  | top other =>
    refine modifyInstance h other (f := fun i => { i with names := i.names.insert y slot })
      (fun hid htop => ?_) fun _ => rfl
    by_cases hy : y = name
    · exact hname (congrArg _ hid) hy
    · rwa [OrderedMap.get?_insert, if_neg (mt beq_iff_eq.1 hy)] at htop

/-- Another declaration may have its state set. -/
theorem setBinding (h : Orderly g id name m) {other : ModuleId} {y : String}
    (hother : other = id → y ≠ name) (status : BindingStatus) :
    Proceeds g id name m (after (setBinding other y status) m) := by
  refine modifyInstance h other (f := fun i => { i with bindings := i.bindings.insert y status })
    (fun _ htop => htop) fun hid => ?_
  rw [OrderedMap.get?_insert, if_neg (mt beq_iff_eq.1 (hother hid))]
  rfl

theorem setStatus (h : Orderly g id name m) (other : ModuleId) (status : ModuleStatus) :
    Proceeds g id name m (after (setStatus other status) m) :=
  modifyInstance h other (f := fun i => { i with status }) (fun _ htop => htop) fun _ => rfl

end Proceeds

/-! ### The invariant -/

/-- Evaluation proceeds from a machine, in which the declaration may have a state. -/
def states (g : Graph) (id : ModuleId) (name : String) : Invariant where
  Index := Machine
  holds := Proceeds g id name
  starting base _ := base
  Table other t := g.freshTables other = .ok t
  Open s y _ := s.nearest = .top id → y ≠ name
  Runnable other := other ≠ id

theorem states_stable (h : g.DeclaresAlone id t name) : (states g id name).Stable where
  beside hbeside hm := hm.trans (.of_modules hm.orderly
    (by rw [Machine.modules, hbeside.graph, hbeside.cache, hbeside.instances]; rfl))
  newFrame _ _ _ _ := nofun
  declare _ _ hopen hm := hm.trans (.declare hm.orderly _ fun htop hy => absurd hy (hopen htop))
  reassign _ hget hm := hm.trans (.declare hm.orderly _ (by
    rintro rfl rfl
    exact hget.trans_ne nofun))
  enter hm _ := hm.trans (.of_modules hm.orderly rfl)
  leave hm := hm.trans (.of_modules hm.orderly rfl)
  load other m hm := by
    obtain ⟨m', hload, hm'⟩ := Recached.exists_load hm.orderly.serves other
    rw [after, hload]
    exact hm.trans (.of_recached hm.orderly hm')
  table {_ _ other _ _} hm hload := by
    obtain ⟨m', hload', -⟩ := Recached.exists_load hm.orderly.serves other
    exact (EStateM.Result.ok.inj (hload'.symm.trans hload)).1
  runsWhole hm ht hwhole := by
    -- The module of the name does not run as a whole, so that this is another one.
    rintro rfl
    cases h.tables.symm.trans ht
    rw [hm.orderly.serves.graph, h.apart] at hwhole
    cases hwhole
  isOpen _ _ hid _ _ := by
    rintro ⟨⟩
    exact absurd rfl hid
  beginModule {_ _ other} hm _ _ := by
    have hset : Proceeds g id name _ _ := .setStatus hm.orderly other .running
    exact hm.trans (hset.trans (.of_modules hset.orderly rfl))
  endModule {_ _ other} result hm := by
    have hend : Proceeds g id name _ (after endInitializing _) := .of_modules hm.orderly rfl
    exact hm.trans (hend.trans (.setStatus hend.orderly other _))

/-- The evaluation of another declaration begins. -/
theorem Proceeds.beginBinding {m : Machine} (hm : Orderly g id name m) {other : ModuleId}
    {y : String} (hother : other = id → y ≠ name) :
    Proceeds g id name m (after (beginBinding other y) m) :=
  have hset : Proceeds g id name m _ := .setBinding hm hother .evaluating
  hset.trans (.of_modules hset.orderly rfl)

/-- The evaluation of another declaration ends. It has not bound the name. -/
theorem Proceeds.endBinding {m : Machine} (hm : Orderly g id name m) {other : ModuleId} {y : String}
    (hother : other = id → y ≠ name) {result : Except EvalError (List String)}
    (hresult : ∀ names, result = .ok names → other = id → name ∉ names) :
    Proceeds g id name m (after (endBinding other y result) m) := by
  refine Invariant.holds_endBinding (I := states g id name) (j := m) result
    (.of_modules hm rfl) (fun z status hz _ m' hm' => ?_)
    (fun m' hm' => hm'.trans (.of_modules hm'.orderly rfl)) fun _ hm' => hm'
  refine hm'.trans (.setBinding hm'.orderly (fun hid => ?_) status)
  rintro rfl
  obtain ⟨names, hnames, hmem⟩ := hz (hother hid).symm
  exact hresult names hnames hid hmem

/-! ### The evaluation of the declaration itself -/

section Declaration

variable {m : Machine} {n : Nat}

theorem state?_setBinding (m : Machine) (id : ModuleId) (name : String) (status : BindingStatus) :
    (after (setBinding id name status) m).state? id name = some status := by
  show ((m.modifyInstance id fun i =>
    { i with bindings := i.bindings.insert name status }).instanceOf id).bindings.get? name = _
  rw [Machine.instanceOf_modifyInstance, if_pos (beq_self_eq_true _), OrderedMap.get?_insert,
    if_pos (beq_self_eq_true _)]

theorem top?_setBinding (m : Machine) (id : ModuleId) (name : String) (status : BindingStatus) :
    (after (setBinding id name status) m).top? id name = m.top? id name := by
  show ((m.modifyInstance id fun i =>
    { i with bindings := i.bindings.insert name status }).instanceOf id).names.get? name = _
  rw [Machine.instanceOf_modifyInstance, if_pos (beq_self_eq_true _)]
  rfl

/-- A declaration that has been evaluated is ready, whatever names it has bound. -/
theorem exists_endBinding_ok (id : ModuleId) (name : String) (names : List String)
    (hm : g.Serves m) :
    ∃ m', endBinding id name (.ok names) m = .ok () m' ∧ g.Serves m' ∧
      m'.state? id name = some .ready := by
  have hall : g.Serves (Invariant.readyAll id names (after endInitializing m)) :=
    List.foldlRecOn names _ ⟨hm.graph, hm.cache⟩ fun _ hm _ _ => ⟨hm.graph, hm.cache⟩
  exact ⟨_, Invariant.endBinding_ok id name names m, ⟨hall.graph, hall.cache⟩,
    state?_setBinding _ id name .ready⟩

/-- The name is not there before it is declared. -/
theorem Orderly.top?_eq_none (hm : Orderly g id name m) (hs : m.state? id name ≠ some .ready) :
    m.top? id name = none :=
  by_contra fun htop => hs (hm.ready htop)

/-- The last step of the evaluation of a declaration: it declares a name, or fails and does
nothing. -/
def Finishes (id : ModuleId) (x : Eval (List String)) : Prop :=
  ∀ m, (∃ e, x m = .error e m) ∨ ∃ names y slot, x m = .ok names (m.declare (.top id) y slot)

theorem finishes_declare (id : ModuleId) (y : String) (v : Value) (isMutable : Bool)
    (names : List String) :
    Finishes id (do declare { module := id } y (some v) isMutable; return names) :=
  fun _ => .inr ⟨names, y, _, rfl⟩

/-- A variable that is no part of a pattern is declared at last. -/
theorem finishes_bind (id : ModuleId) (kind : VarKind) (x : Ident) (v : Value) (n : Nat)
    (names : List String) :
    Finishes id (do
      (interp n).bind { module := id } (if kind = .const then .const else .lexical) (.ident x) v
      return names) := by
  cases n with
  | zero => exact fun _ => .inl ⟨.endless, rfl⟩
  | succ n =>
    split
    · exact finishes_declare id x.name v false names
    · exact finishes_declare id x.name v true names

/-- A declaration by itself is evaluated in two steps: first its value is, then its name is
declared. -/
theorem exists_evalDeclaration_eq (h : g.DeclaresAlone id t name)
    (hr : ∀ base size, (states_stable h).lax.logic.Runs base size fun _ => interp n) :
    ∃ (value : Eval Value) (last : Value → Eval (List String)),
      evalDeclaration (interp n) t { module := id } name = value >>= last ∧
      (∀ base, (states g id name).Keeps base value) ∧ ∀ v, Finishes id (last v) := by
  have hL := (states_stable h).lax
  have hfails (e : EvalError) (base : Machine) :
      (states g id name).Keeps base (throw e : Eval Value) := fun _ hm => hm
  have hvalue {x : Bool → Eval Value} (hx : ∀ base, (states g id name).calculus.Holds base
      (states g id name).calculus.Good x) (base : Machine) :
      (states g id name).Keeps base (x true) := Invariant.keeps_of_holds (hx base) true
  unfold evalDeclaration
  cases hform : t.declaration? name with
  | none => exact ⟨throw _, fun _ => throw .endless, rfl, hfails _, fun _ _ => .inl ⟨_, rfl⟩⟩
  | some form =>
    cases form with
    | cls c => exact ⟨throw _, fun _ => throw .endless, rfl, hfails _, fun _ _ => .inl ⟨_, rfl⟩⟩
    | var d kind =>
      obtain ⟨x, hpat⟩ := h.isPlain d kind hform
      dsimp only
      rw [hpat]
      exact ⟨_, _, rfl, hvalue fun base => Logic.holds_initialValue (hr base) trivial d.init,
        fun v => finishes_bind id kind x v n _⟩
    | func f code =>
      exact ⟨_, _, rfl, hvalue fun _ => Logic.holds_newFunc (L := hL.logic) trivial _ _,
        fun v => finishes_declare id name v true _⟩
    | enum e members =>
      exact ⟨_, _, rfl, hvalue fun base => Logic.holds_evalEnum (hr base _) trivial le_rfl,
        fun v => finishes_declare id name v false _⟩
    | value e =>
      exact ⟨_, _, rfl, hvalue fun base => (hr base _).expr trivial (Nat.lt_succ_self _),
        fun v => finishes_declare id name v false _⟩

theorem orderly_beginBinding (hm : Orderly g id name m) (hs : m.state? id name = none) :
    Orderly g id name (after (beginBinding id name) m) where
  serves := ⟨hm.serves.graph, hm.serves.cache⟩
  ready htop := by
    have hnone : m.top? id name = none := hm.top?_eq_none (by rw [hs]; nofun)
    exact absurd ((top?_setBinding m id name .evaluating).trans hnone) htop

/-- A declaration that fails while it is evaluated keeps the failure, and its name is not there. -/
theorem exists_endBinding_error (hm : Orderly g id name m)
    (hs : m.state? id name = some .evaluating) (e : EvalError) :
    ∃ m', endBinding id name (.error e) m = .error e m' ∧ Orderly g id name m' ∧
      m'.state? id name = some (.failed e) := by
  refine ⟨after (setBinding id name (.failed e)) (after endInitializing m), rfl,
    ⟨⟨hm.serves.graph, hm.serves.cache⟩, fun htop => ?_⟩, state?_setBinding _ id name _⟩
  have hnone : (after endInitializing m).top? id name = none :=
    hm.top?_eq_none (by rw [hs]; nofun)
  exact absurd ((top?_setBinding _ id name _).trans hnone) htop

/-- However the evaluation of the declaration ends, the order is kept. -/
theorem orderly_endBinding (hm : Orderly g id name m) (hs : m.state? id name = some .evaluating)
    (result : Except EvalError (List String)) :
    Orderly g id name (after (endBinding id name result) m) := by
  cases result with
  | error e =>
    obtain ⟨m₁, hend, hm₁, -⟩ := exists_endBinding_error hm hs e
    rwa [after, hend]
  | ok names =>
    obtain ⟨m₁, hend, hserves, hs₁⟩ := exists_endBinding_ok id name names hm.serves
    rw [after, hend]
    exact ⟨hserves, fun _ => hs₁⟩

/-- A declaration whose evaluation has not begun is evaluated, and what that comes to is noted. -/
theorem forceDeclaration_eq {r : Interp} {m₁ m₂ : Machine} {result : Except EvalError (List String)}
    (hs : m.state? id name = none) (hbegin : after (beginBinding id name) m = m₁)
    (hresult : outcome (evalDeclaration r t { module := id } name) m₁ = .ok result m₂) :
    forceDeclaration r id t name m = endBinding id name result m₂ := by
  have hinstance : instanceOf id m = .ok (m.instanceOf id) m := rfl
  have hbegun : beginBinding id name m = .ok () m₁ := by
    rw [← hbegin]
    rfl
  have honce : forceDeclaration r id t name m = _ := bind_eq_of_ok hinstance
  rw [show (m.instanceOf id).bindings.get? name = none from hs] at honce
  exact honce.trans ((bind_eq_of_ok hbegun).trans (bind_eq_of_ok hresult))

/-- The first evaluation of the declaration makes it ready, or makes it fail with the failure that
it has come to. -/
theorem exists_forceDeclaration_eq (h : g.DeclaresAlone id t name)
    (hr : ∀ base size, (states_stable h).lax.logic.Runs base size fun _ => interp n)
    (hm : Orderly g id name m)
    (hs : m.state? id name = none) :
    ∃ m', Orderly g id name m' ∧
      ((forceDeclaration (interp n) id t name m = .ok () m' ∧ m'.state? id name = some .ready) ∨
        ∃ e, forceDeclaration (interp n) id t name m = .error e m' ∧
          m'.state? id name = some (.failed e)) := by
  obtain ⟨value, last, heq, hvalue, hlast⟩ := exists_evalDeclaration_eq h hr
  obtain ⟨m₁, hbegin⟩ : ∃ m₁, after (beginBinding id name) m = m₁ := ⟨_, rfl⟩
  have hm₁ : Orderly g id name m₁ := hbegin ▸ orderly_beginBinding hm hs
  have hs₁ : m₁.state? id name = some .evaluating :=
    hbegin ▸ state?_setBinding m id name .evaluating
  have hproceeds : Proceeds g id name m₁ (after value m₁) := hvalue m₁ m₁ (.refl hm₁)
  -- Up to the last step the declaration is being evaluated, so that its name is not there.
  have hfails {m₂ : Machine} {e : EvalError} (hm₂ : Proceeds g id name m₁ m₂)
      (hend : (value >>= last) m₁ = .error e m₂) :
      ∃ m', forceDeclaration (interp n) id t name m = .error e m' ∧ Orderly g id name m' ∧
        m'.state? id name = some (.failed e) := by
    rw [← heq] at hend
    rw [forceDeclaration_eq hs hbegin (outcome_eq_of_error hend)]
    exact exists_endBinding_error hm₂.orderly (hm₂.state _ hs₁) e
  cases hend : value m₁ with
  | error e m₂ =>
    rw [after, hend] at hproceeds
    obtain ⟨m', hforce, hm', hs'⟩ := hfails hproceeds (bind_eq_of_error hend)
    exact ⟨m', hm', .inr ⟨e, hforce, hs'⟩⟩
  | ok v m₂ =>
    rw [after, hend] at hproceeds
    rcases hlast v m₂ with ⟨e, herror⟩ | ⟨names, y, slot, hdeclared⟩
    · obtain ⟨m', hforce, hm', hs'⟩ := hfails hproceeds ((bind_eq_of_ok hend).trans herror)
      exact ⟨m', hm', .inr ⟨e, hforce, hs'⟩⟩
    · have hend' := (bind_eq_of_ok hend).trans hdeclared
      rw [← heq] at hend'
      have hserves : g.Serves (m₂.declare (.top id) y slot) :=
        ⟨hproceeds.orderly.serves.graph, hproceeds.orderly.serves.cache⟩
      obtain ⟨m', hnoted, hm', hs'⟩ := exists_endBinding_ok id name names hserves
      have hforce := forceDeclaration_eq hs hbegin (outcome_eq_of_ok hend')
      exact ⟨m', ⟨hm', fun _ => hs'⟩, .inl ⟨hforce.trans hnoted, hs'⟩⟩

/-- A name that is there is found. -/
theorem lookup_eq_of_top? {slot : Slot} (h : m.top? id name = some slot) :
    lookup { module := id } name m = .ok (some slot) m := by
  show EStateM.Result.ok ((m.find? name [.top id]).map _) m = _
  unfold Machine.find?
  rw [show (m.frame (.top id)).get? name = _ from h]
  rfl

/-- The value of a name that is evaluated by itself: the module is loaded, and the declaration is
evaluated. -/
theorem exists_topLevelValue_eq (r : Interp) (hm : g.Serves m) (ht : g.freshTables id = .ok t)
    (hapart : g.runsWhole t = false) (hname : t.declarations.contains name = true) :
    ∃ m₀, Recached g m₀ m ∧
      (∀ e m', forceDeclaration r id t name m₀ = .error e m' →
        topLevelValue r id name m = .error e m') ∧
      ∀ m' v isMutable, forceDeclaration r id t name m₀ = .ok () m' →
        m'.top? id name = some ⟨some v, isMutable⟩ → topLevelValue r id name m = .ok v m' := by
  obtain ⟨m₀, hload, hm₀⟩ := Recached.exists_load hm id
  have htables : tables id m = .ok t m₀ := by
    refine (bind_eq_of_ok hload).trans ?_
    rw [ht]
    rfl
  have hprepare : prepare r id t name m₀ = forceDeclaration r id t name m₀ := by
    refine (bind_eq_of_ok rfl).trans ?_
    rw [hm₀.left.graph, hapart]
    rfl
  have hvalue : topLevelValue r id name m = _ := bind_eq_of_ok htables
  rw [if_pos hname] at hvalue
  refine ⟨m₀, hm₀, fun e m' hforce => ?_, fun m' v isMutable hforce htop => ?_⟩
  · exact hvalue.trans (bind_eq_of_error (hprepare.trans hforce))
  · refine hvalue.trans ((bind_eq_of_ok (hprepare.trans hforce)).trans ?_)
    exact bind_eq_of_ok (lookup_eq_of_top? htop)

end Declaration

/-! ### Evaluation -/

section Evaluation

variable (h : g.DeclaresAlone id t name) {n : Nat}

/-- A declaration is evaluated without binding the name, unless it is that of the name itself. -/
theorem states_forces
    (hr : ∀ base size, (states_stable h).lax.logic.Runs base size fun _ => interp n) :
    (states_stable h).lax.Forces fun _ => interp n := by
  intro base other t' y ht'
  by_cases hself : other = id ∧ y = name
  · obtain ⟨rfl, rfl⟩ := hself
    cases h.tables.symm.trans ht'
    refine Invariant.holds_of_keeps fun m hm => ?_
    cases hs : m.state? other y with
    | none =>
      have hnew {m' : Machine} (hm' : Orderly g other y m') : Proceeds g other y m m' :=
        ⟨hm', fun status hstatus => absurd (hs.symm.trans hstatus) nofun⟩
      obtain ⟨m', hm', ⟨heq, -⟩ | ⟨e, heq, -⟩⟩ := exists_forceDeclaration_eq h hr hm.orderly hs
      all_goals
        rw [after, heq]
        exact hm.trans (hnew hm')
    | some status =>
      rw [after, forceDeclaration, Invariant.evalOnce_eq,
        show (m.instanceOf other).bindings.get? y = _ from hs]
      cases status <;> exact hm
  · have hother (hid : other = id) : y ≠ name := fun hy => hself ⟨hid, hy⟩
    have hbound (hid : other = id) : name ∉ t'.boundBy y := by
      subst hid
      cases h.tables.symm.trans ht'
      exact fun hmem => hother rfl (h.unique y hmem)
    have hopen (bound : String) (hmem : bound ∈ t'.boundBy y) :
        (states g id name).Open { module := other } bound true := by
      rintro ⟨⟩ rfl
      exact hbound rfl hmem
    have hdeclaration := Logic.holds_evalDeclaration (hr base) (s := { module := other }) trivial
      hopen
    refine Invariant.holds_evalOnce (j := base) (fun m hm _ => ?_) hdeclaration
      fun _ m result _ hresult hm => ?_
    · exact hm.trans (.beginBinding hm.orderly hother)
    · refine hm.trans (.endBinding hm.orderly hother ?_)
      rintro names rfl hid
      rw [(hresult names rfl).1]
      exact hbound hid

theorem states_runs (n : Nat) (base : Machine) (size : Nat) :
    (states_stable h).lax.logic.Runs base size fun _ => interp n :=
  (states_stable h).lax.runs_interp (fun n hr => states_forces h (hr n le_rfl)) n base size

include h in
/-- So does a style call, unless it runs the module of the name as a whole. -/
theorem states_callValue (n : Nat) (argument : Expr) {needed : List BindingKey}
    (hneeded : .body id ∉ needed) (base : Machine) :
    (states g id name).Keeps base (callValue (interp n) argument needed) := by
  have hr := states_runs h n
  refine Invariant.keeps_of_holds ((states_stable h).lax.holds_callValue hr (states_forces h hr)
    argument fun other hother => ?_) true
  rintro rfl
  exact hneeded hother

end Evaluation
end AtomicStyles
