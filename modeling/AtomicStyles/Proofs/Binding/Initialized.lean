import AtomicStyles.Proofs.Binding.Patterns
import AtomicStyles.Proofs.Binding.States
import AtomicStyles.Proofs.Ending
import AtomicStyles.Proofs.Starts

/-!
# Declarations bind what they announce

The table of a module says where each of its names is declared. The declaration that stands there
binds the name: evaluating it gives the name a value, and nothing takes the value away again. So
reading a name of a module whose declarations are evaluated one by one never finds that the name has
no value after its declaration has been evaluated.

A pattern gives values to the names that it reaches. Those are all of its names unless something
follows on the rest of an array pattern, where binding stops. No variable that a module declares is
declared in this way.

## Main definitions

* `Announces` — an item holds a declaration that binds a name.
* `Tables.Parsed` — the tables of a module that has been parsed.
* `Settled` — declarations that have been evaluated have given their names values.
* `settling` — this as an invariant, which keeps the values of names.

## Main results

* `Tables.exists_announces` — the declarations of a module are those that its table names.
* `binds_bind` — a pattern that has been bound has given values to the names that it reaches.
* `settling_runs` — every part of evaluation keeps machines settled.
* `declarations_bind_names` — **declarations bind what they announce.**
-/

namespace AtomicStyles

open Script Eval Coupling
open List hiding after

/-! ### What declarations announce -/

/-- The item is the declaration, exported or not. -/
def Declaring (item : Item) (d : Decl) : Prop := item = .stmt (.decl d) ∨ item = .exportDecl d

/-- The item holds a declaration of the form at the site, and the declaration binds the name. -/
inductive Announces (item : Item) : DeclarationSite → DeclarationForm → String → Prop
  | var {kind : VarKind} {ds : List Declarator} {d : Declarator} {x : Ident} (k : Nat) {i : Nat} :
      Declaring item (.var kind ds false) → ds[i]? = some d → x ∈ d.pat.names →
      Announces item (.var k i) (.var d kind) x.name
  | func {id : Ident} {f : Func} (k : Nat) : Declaring item (.func id f false) →
      Announces item (.func k) (.func (some id) f) id.name
  | cls {id : Ident} {c : Script.Class} (k : Nat) : Declaring item (.cls id c false) →
      Announces item (.cls k) (.cls c) id.name
  | enum {id : Ident} {members : List EnumMember} (k : Nat) :
      Declaring item (.enum id members false) → Announces item (.enum k) (.enum id members) id.name
  | defaultFunc {id : Option Ident} {f : Func} (k : Nat) : item = .exportDefaultFunc id f →
      Announces item (.func k) (.func id f) ((id.map Ident.text).getD Tables.defaultName)
  | defaultClass {id : Option Ident} {c : Script.Class} (k : Nat) :
      item = .exportDefaultClass id c →
      Announces item (.cls k) (.cls c) ((id.map Ident.text).getD Tables.defaultName)
  | defaultValue {e : Expr} (k : Nat) : item = .exportDefaultExpr e →
      Announces item (.value k) (.value e) Tables.defaultName

namespace Tables

variable {item : Item} {k : Nat} {name : String} {site : DeclarationSite}

theorem announces_of_declared {d : Decl} (hitem : Declaring item d)
    (h : (name, site) ∈ declared k d) : site.item = k ∧ ∃ form, Announces item site form name := by
  cases d with
  | var kind ds isDeclare =>
    cases isDeclare with
    | true => cases h
    | false =>
      obtain ⟨⟨d, i⟩, hd, hnames⟩ := mem_flatMap.1 h
      obtain ⟨x, hx, heq⟩ := mem_map.1 hnames
      cases heq
      exact ⟨rfl, _, .var k hitem (mk_mem_zipIdx_iff_getElem?.1 hd) hx⟩
  | func id f isDeclare =>
    cases isDeclare with
    | true => cases h
    | false =>
      cases mem_singleton.1 h
      exact ⟨rfl, _, .func k hitem⟩
  | cls id c isDeclare =>
    cases isDeclare with
    | true => cases h
    | false =>
      cases mem_singleton.1 h
      exact ⟨rfl, _, .cls k hitem⟩
  | enum id members isDeclare =>
    cases isDeclare with
    | true => cases h
    | false =>
      cases mem_singleton.1 h
      exact ⟨rfl, _, .enum k hitem⟩
  | _ => cases h

theorem announces_of_declaredBy (h : (name, site) ∈ declaredBy item k) :
    site.item = k ∧ ∃ form, Announces item site form name := by
  cases item with
  | stmt s =>
    cases s with
    | decl d => exact announces_of_declared (.inl rfl) h
    | _ => cases h
  | exportDecl d => exact announces_of_declared (.inr rfl) h
  | exportDefaultFunc id f =>
    cases mem_singleton.1 h
    exact ⟨rfl, _, .defaultFunc k rfl⟩
  | exportDefaultClass id c =>
    cases mem_singleton.1 h
    exact ⟨rfl, _, .defaultClass k rfl⟩
  | exportDefaultExpr e =>
    cases mem_singleton.1 h
    exact ⟨rfl, _, .defaultValue k rfl⟩
  | _ => cases h

/-- The form of a declaration is found at its site. -/
theorem declaration?_eq {t : Tables} {form : DeclarationForm}
    (hsite : t.declarations.get? name = some site) (hitem : t.item? site.item = some item)
    (h : Announces item site form name) :
    t.declaration? name = some form := by
  cases h with
  | var k hd hi _ => rcases hd with rfl | rfl <;> simp [declaration?, hsite, hitem, formOf, hi]
  | func k hd => rcases hd with rfl | rfl <;> simp [declaration?, hsite, hitem, formOf]
  | cls k hd => rcases hd with rfl | rfl <;> simp [declaration?, hsite, hitem, formOf]
  | enum k hd => rcases hd with rfl | rfl <;> simp [declaration?, hsite, hitem, formOf]
  | defaultFunc k hd => subst hd; simp [declaration?, hsite, hitem]
  | defaultClass k hd => subst hd; simp [declaration?, hsite, hitem]
  | defaultValue k hd => subst hd; simp [declaration?, hsite, hitem]

theorem exists_announces {id : ModuleId} {m : Module}
    {resolve : String → Except ResolveError ModuleId}
    (h : (build id m resolve).declarations.contains name = true) :
    ∃ site item form, (build id m resolve).declarations.get? name = some site ∧
      m.items[site.item]? = some item ∧ Announces item site form name ∧
      (build id m resolve).declaration? name = some form := by
  obtain ⟨site, hsite⟩ := Option.isSome_iff_exists.1 h
  have hall : ∀ e ∈ (build id m resolve).declarations.entries,
      ∃ item form, m.items[e.2.item]? = some item ∧ Announces item e.2 form e.1 := by
    refine List.foldlRecOn (motive := fun t : Tables => ∀ e ∈ t.declarations.entries,
      ∃ item form, m.items[e.2.item]? = some item ∧ Announces item e.2 form e.1) m.items.zipIdx
      (addItem resolve) (fun e he => absurd he not_mem_nil) fun t ht entry hentry e he => ?_
    have hknown : (addItem resolve t entry).declarations = _ :=
      congrArg (·.2.2) (known_addItem resolve t entry)
    rw [hknown] at he
    rcases OrderedMap.mem_foldl_insert he with he | he
    · exact ht e he
    · obtain ⟨hitem, form, hform⟩ := announces_of_declaredBy he
      rw [hitem]
      exact ⟨_, form, mk_mem_zipIdx_iff_getElem?.1 hentry, hform⟩
  obtain ⟨item, form, hitem, hform⟩ := hall _ (OrderedMap.mem_entries_of_get? hsite)
  refine ⟨site, item, form, hsite, hitem, hform, declaration?_eq hsite ?_ hform⟩
  rw [item?, module_build, hitem]

end Tables

/-- The tables are those of a module that has been parsed. -/
def Tables.Parsed (t : Tables) : Prop :=
  ∃ features source m resolve, Module.parse? features source = some m ∧ t = .build t.id m resolve

/-- A variable is one of the names of its pattern, which reaches them all. -/
theorem Tables.Parsed.whole {t : Tables} (h : t.Parsed) {name : String} {d : Declarator}
    {kind : VarKind} (hd : t.declaration? name = some (.var d kind)) :
    name ∈ d.pat.names.map Ident.text ∧ d.pat.Whole := by
  obtain ⟨features, source, m, resolve, hparse, ht⟩ := h
  obtain ⟨site, hsite, -⟩ := Option.bind_eq_some_iff.1 hd
  rw [ht] at hsite
  obtain ⟨_, item, form, -, hitem, hform, heq⟩ := exists_announces (Option.isSome_of_eq_some hsite)
  rw [← ht, hd] at heq
  cases heq
  have hwhole := Module.whole_of_parse hparse item (mem_of_getElem? hitem)
  cases hform with
  | var k hdecl hi hx =>
    refine ⟨mem_map_of_mem hx, ?_⟩
    rcases hdecl with rfl | rfl <;> exact hwhole d (mem_of_getElem? hi)

/-! ### Names with values -/

namespace Machine

variable {m : Machine} {f f' : FrameRef} {name y : String}

/-- The name is there in the frame, and has a value. -/
def Initialized (m : Machine) (f : FrameRef) (name : String) : Prop :=
  ∃ v isMutable, (m.frame f).get? name = some ⟨some v, isMutable⟩

theorem state?_declare (m : Machine) (f : FrameRef) (y : String) (slot : Slot) (id : ModuleId)
    (name : String) : (m.declare f y slot).state? id name = m.state? id name := by
  cases f with
  | inner n => rfl
  | top other =>
    simp only [state?, declare, instanceOf_modifyInstance]
    split
    · next h => rw [beq_iff_eq.1 h]
    · rfl

/-- A name that is declared is there, if the frame is. -/
theorem get?_frame_declare (hf : ∀ n, f = .inner n → n < m.frames.size) (slot : Slot) :
    ((m.declare f name slot).frame f).get? name = some slot := by
  cases f with
  | top id => simp [frame, declare, instanceOf_modifyInstance, OrderedMap.get?_insert]
  | inner n =>
    simp only [frame, declare]
    rw [getD_modify, if_pos ⟨rfl, hf n rfl⟩, OrderedMap.get?_insert, if_pos (beq_self_eq_true _)]

/-- Every other name is what it was. -/
theorem get?_frame_declare_of_ne (slot : Slot) (h : f = f' → name ≠ y) :
    ((m.declare f name slot).frame f').get? y = (m.frame f').get? y := by
  cases f with
  | top id =>
    cases f' with
    | inner n => rfl
    | top other =>
      by_cases hid : id = other
      · subst hid
        simp [frame, declare, instanceOf_modifyInstance, OrderedMap.get?_insert, h rfl]
      · simp [frame, declare, instanceOf_modifyInstance, hid]
  | inner n =>
    cases f' with
    | top id => rfl
    | inner n' =>
      simp only [frame, declare, getD_modify]
      split
      · next hn => rw [OrderedMap.get?_insert, if_neg (mt beq_iff_eq.1 (h (congrArg _ hn.1)))]
      · rfl

/-- A name with a value is in a frame that is there. -/
theorem Initialized.lt_size {n : Nat} (h : m.Initialized (.inner n) y) : n < m.frames.size := by
  obtain ⟨v, isMutable, hget⟩ := h
  by_contra hn
  rw [frame, Array.getD_eq_getD_getElem?, Array.getElem?_eq_none (Nat.le_of_not_lt hn)] at hget
  cases hget

/-- A name keeps a value unless it is declared anew without one. -/
theorem Initialized.declare (h : m.Initialized f' y) {v : Option Value} (isMutable : Bool)
    (hv : f = f' → name = y → v.isSome = true) :
    (m.declare f name ⟨v, isMutable⟩).Initialized f' y := by
  by_cases hsame : f = f' ∧ name = y
  · obtain ⟨rfl, rfl⟩ := hsame
    obtain ⟨w, rfl⟩ := Option.isSome_iff_exists.1 (hv rfl rfl)
    refine ⟨w, isMutable, get?_frame_declare ?_ _⟩
    rintro n rfl
    exact h.lt_size
  · obtain ⟨w, isMutable', hget⟩ := h
    refine ⟨w, isMutable', ?_⟩
    rw [get?_frame_declare_of_ne _ fun hf hname => hsame ⟨hf, hname⟩, hget]

end Machine

/-! ### The invariant -/

section Settling

variable {g : Graph} {F : Set FrameRef} {S : Set (FrameRef × String)} {m m' : Machine}
  {id : ModuleId} {name : String}

/-- The module has the tables, and its declarations are evaluated one by one. -/
structure Graph.Apart (g : Graph) (id : ModuleId) (t : Tables) : Prop where
  tables : g.freshTables id = .ok t
  apart : g.runsWhole t = false

/-- Declarations that have been evaluated one by one have given their names values. -/
structure Settled (g : Graph) (m : Machine) : Prop where
  serves : g.Serves m
  ready : ∀ {id t name}, g.Apart id t → t.Parsed → m.state? id name = some .ready →
    m.Initialized (.top id) name

/-- Names can be bound in the frame: it is there, and if it is that of a module whose code runs as a
whole, this has begun to. -/
def Graph.Live (g : Graph) (m : Machine) : FrameRef → Prop
  | .top id => (∃ t, g.Apart id t) ∨ m.Started (.body id)
  | .inner n => n < m.frames.size

/-- Names of the frame keep their values: it is a given one, or that of a module whose declarations
are evaluated one by one. -/
def Graph.Guards (g : Graph) (F : Set FrameRef) (f : FrameRef) : Prop :=
  f ∈ F ∨ ∃ id t, f = .top id ∧ g.Apart id t

/-- The machine is settled, and some names of frames that are guarded have values. -/
def settling (g : Graph) (F : Set FrameRef) : Invariant where
  Index := Set (FrameRef × String)
  holds S m := Settled g m ∧ (∀ f ∈ F, g.Live m f) ∧
    ∀ e ∈ S, g.Guards F e.1 ∧ m.Initialized e.1 e.2
  starting S _ := S
  Table id t := g.freshTables id = .ok t
  Open s _ hasValue := g.Guards F s.nearest → hasValue = true
  Runnable id := ∀ t, ¬ g.Apart id t

/-- What a step has to keep. Declarations become ready only where their names are initialized. -/
theorem holds_settling (h : (settling g F).holds S m) (hserves : g.Serves m')
    (hkept : ∀ f y, g.Guards F f → m.Initialized f y → m'.Initialized f y)
    (hready : ∀ id t y, g.Apart id t → t.Parsed → m'.state? id y = some .ready →
      m.state? id y = some .ready ∨ (.top id, y) ∈ S)
    (hstarted : ∀ id, m.Started (.body id) → m'.Started (.body id))
    (hsize : m.frames.size ≤ m'.frames.size) : (settling g F).holds S m' := by
  obtain ⟨hm, hF, hS⟩ := h
  refine ⟨⟨hserves, fun {id t y} hid ht hy => ?_⟩, fun f hf => ?_, fun e he => ?_⟩
  -- What has become ready has had its value before, as one of the names of `S`.
  · have hguards : g.Guards F (.top id) := .inr ⟨id, t, rfl, hid⟩
    rcases hready id t y hid ht hy with hy | hy
    · exact hkept _ y hguards (hm.ready hid ht hy)
    · exact hkept _ y hguards (hS _ hy).2
  · cases f with
    | top id => exact (hF _ hf).imp_right (hstarted id)
    | inner n => exact Nat.lt_of_lt_of_le (hF _ hf) hsize
  · exact ⟨(hS e he).1, hkept _ _ (hS e he).1 (hS e he).2⟩

/-- A change that leaves names and what is known about modules. -/
theorem settling_congr (h : (settling g F).holds S m) (hserves : g.Serves m')
    (hinstances : m'.instances = m.instances)
    (hframes : ∀ n, m'.frames.getD n {} = m.frames.getD n {})
    (hsize : m.frames.size ≤ m'.frames.size) : (settling g F).holds S m' := by
  have hof id : m'.instanceOf id = m.instanceOf id := by
    rw [Machine.instanceOf, hinstances, Machine.instanceOf]
  have hframe f : m'.frame f = m.frame f := by
    cases f with
    | top id => rw [Machine.frame, hof, Machine.frame]
    | inner n => exact hframes n
  refine holds_settling h hserves (fun f y _ hy => ?_) (fun id t y _ _ hy => .inl ?_)
    (fun id hid => hid.congr hinstances) hsize
  · rwa [Machine.Initialized, hframe]
  · rwa [Machine.state?, hof] at hy

theorem settling_of_modules (h : (settling g F).holds S m) (hmodules : m'.modules = m.modules)
    (hframes : m'.frames = m.frames) : (settling g F).holds S m' := by
  obtain ⟨hgraph, hcache, hinstances⟩ : m'.graph = m.graph ∧ m'.cache = m.cache ∧
      m'.instances = m.instances := by simpa [Machine.modules] using hmodules
  exact settling_congr h ⟨hgraph.trans h.1.serves.graph, hcache ▸ h.1.serves.cache⟩ hinstances
    (fun n => by rw [hframes]) (by rw [hframes])

/-- A change of what is known about a module that leaves its names. -/
theorem settling_modifyInstance (h : (settling g F).holds S m) {φ : Instance → Instance}
    (hnames : ∀ i, (φ i).names = i.names)
    (hready : ∀ i t y, g.Apart id t → t.Parsed → (φ i).bindings.get? y = some .ready →
      i.bindings.get? y = some .ready ∨ (.top id, y) ∈ S)
    (hstarted : ∀ id', m.Started (.body id') → (m.modifyInstance id φ).Started (.body id')) :
    (settling g F).holds S (m.modifyInstance id φ) := by
  refine holds_settling h ⟨h.1.serves.graph, h.1.serves.cache⟩ (fun f y _ hy => ?_)
    (fun other t y hother ht hy => ?_) hstarted le_rfl
  · have hframe : (m.modifyInstance id φ).frame f = m.frame f := by
      cases f with
      | inner n => rfl
      | top other =>
        rw [Machine.frame, Machine.instanceOf_modifyInstance]
        split
        · next hid => rw [hnames, beq_iff_eq.1 hid, Machine.frame]
        · rfl
    rwa [Machine.Initialized, hframe]
  · rw [Machine.state?, Machine.instanceOf_modifyInstance] at hy
    split at hy
    · next hid =>
      cases beq_iff_eq.1 hid
      exact hready _ t y hother ht hy
    · exact .inl hy

theorem settling_setStatus (h : (settling g F).holds S m) (id : ModuleId) {status : ModuleStatus}
    (hs : status ≠ .pending) : (settling g F).holds S (after (setStatus id status) m) :=
  settling_modifyInstance h (φ := fun i => { i with status }) (fun _ => rfl)
    (fun _ _ _ _ _ hy => .inl hy) fun _ hid => hid.setStatus id hs

theorem settling_setBinding (h : (settling g F).holds S m) (id : ModuleId) (name : String)
    (status : BindingStatus)
    (hs : ∀ t, g.Apart id t → t.Parsed → status = .ready → (.top id, name) ∈ S) :
    (settling g F).holds S (after (setBinding id name status) m) := by
  refine settling_modifyInstance h
    (φ := fun i => { i with bindings := i.bindings.insert name status }) (fun _ => rfl)
    (fun i t y hid ht hy => ?_) fun _ hid => hid.setBinding id name status
  rw [OrderedMap.get?_insert] at hy
  split at hy
  · next hname =>
    cases beq_iff_eq.1 hname
    exact .inr (hs t hid ht (Option.some.inj hy))
  · exact .inl hy

theorem settling_declare (h : (settling g F).holds S m) {f : FrameRef} {v : Option Value}
    (isMutable : Bool) (hv : g.Guards F f → v.isSome = true) :
    (settling g F).holds S (m.declare f name ⟨v, isMutable⟩) := by
  have hkept f' y (hf' : g.Guards F f') (hy : m.Initialized f' y) :
      (m.declare f name ⟨v, isMutable⟩).Initialized f' y :=
    hy.declare isMutable fun hf _ => hv (hf ▸ hf')
  refine holds_settling h ?_ hkept (fun id t y _ _ hy => .inl ?_) (fun id hid => ?_) ?_
  · cases f <;> exact ⟨h.1.serves.graph, h.1.serves.cache⟩
  · rwa [Machine.state?_declare] at hy
  · cases f with
    | inner n => exact hid
    | top id' =>
      exact hid.modifyInstance id' (f := fun i => { i with names := i.names.insert name _ })
        (fun _ _ hb => hb) fun _ hs => hs
  · cases f with
    | inner n => simp [Machine.declare]
    | top id' => exact le_rfl

theorem settling_stable (g : Graph) (F : Set FrameRef) : (settling g F).Stable where
  beside hbeside hm := settling_congr hm
    ⟨hbeside.graph.trans hm.1.serves.graph, hbeside.cache ▸ hm.1.serves.cache⟩ hbeside.instances
    hbeside.frame hbeside.frames
  newFrame hm s _ _ := by
    rintro (hF | ⟨id, t, hid, -⟩)
    · exact absurd (hm.2.1 _ hF) (Nat.lt_irrefl _)
    · cases hid
  declare v isMutable hopen hm := settling_declare hm isMutable hopen
  reassign v _ hm := settling_declare hm true fun _ => rfl
  enter hm _ := settling_of_modules hm rfl rfl
  leave hm := settling_of_modules hm rfl rfl
  load {S} id m hm := by
    obtain ⟨m', hload, hm'⟩ := Recached.exists_load hm.1.serves id
    have hkept : (settling g F).holds S m' := settling_congr hm hm'.left (by rw [hm'.eq])
      (fun n => by rw [hm'.eq]) (by rw [hm'.eq])
    rwa [after, hload]
  table {_ _ id _ _} hm hload := by
    obtain ⟨m', hload', -⟩ := Recached.exists_load hm.1.serves id
    exact (EStateM.Result.ok.inj (hload'.symm.trans hload)).1
  runsWhole hm ht hwhole := by
    intro t' ht'
    cases ht'.tables.symm.trans ht
    rw [hm.1.serves.graph, ht'.apart] at hwhole
    cases hwhole
  isOpen {_ _ id} hm hpending hid _ _ := by
    rintro (hF | ⟨id', t, ⟨⟩, hid'⟩)
    · exact absurd hpending ((hm.2.1 _ hF).resolve_left (not_exists.2 hid))
    · exact absurd hid' (hid t)
  beginModule {S m id} hm _ _ := by
    have hm' : (settling g F).holds S (after (setStatus id .running) m) :=
      settling_setStatus hm id (by rintro ⟨⟩)
    exact settling_of_modules hm' rfl rfl
  endModule {S m id} result hm := by
    have hm' : (settling g F).holds S (after endInitializing m) := settling_of_modules hm rfl rfl
    refine settling_setStatus hm' id ?_
    cases result <;> rintro ⟨⟩

end Settling

/-! ### Patterns -/

section Binding

variable {g : Graph} {F : Set FrameRef} {α β : Type} {s : Scope} {names names' : List String}
  {x : Eval α}

/-- The computation keeps what has a value, and if it succeeds, the names have values in the
scope. -/
def Binds (g : Graph) (F : Set FrameRef) (s : Scope) (names : List String) (x : Eval α) : Prop :=
  ∀ (S : Set (FrameRef × String)) m a m', (settling g F).holds S m → x m = .ok a m' →
    (settling g F).holds S m' ∧ ∀ y ∈ names, m'.Initialized s.nearest y

namespace Binds

theorem pure (a : α) : Binds g F s [] (pure a) := by
  rintro S m _ _ hm ⟨⟩
  exact ⟨hm, nofun⟩

theorem throw (e : EvalError) : Binds g F s names (throw e : Eval α) := by
  rintro S m a m' hm ⟨⟩

theorem mono (h : Binds g F s names x) (hsub : names' ⊆ names) : Binds g F s names' x :=
  fun S m a m' hm hx => (h S m a m' hm hx).imp_right fun hnames y hy => hnames y (hsub hy)

/-- Names are bound after a computation that keeps the invariant, whatever names have values. -/
theorem after {x : Bool → Eval α} {Q : α → Prop} {f : α → Eval β}
    (h : ∀ S, (settling g F).calculus.Holds S Q x) (hf : ∀ a, Binds g F s names (f a)) :
    Binds g F s names (x false >>= f) := by
  intro S m b m' hm hb
  have hm₁ := Invariant.keeps_of_holds (h S) false m hm
  unfold Coupling.after at hm₁
  cases hx : x false m with
  | error e m₁ => cases (bind_eq_of_error hx).symm.trans hb
  | ok a m₁ =>
    rw [hx] at hm₁
    exact hf a S m₁ b m' hm₁ ((bind_eq_of_ok hx).symm.trans hb)

theorem bind (hs : g.Guards F s.nearest) {f : α → Eval β} (h : Binds g F s names x)
    (hf : ∀ a, Binds g F s names' (f a)) : Binds g F s (names ++ names') (x >>= f) := by
  intro S m b m' hm hb
  cases hx : x m with
  | error e m₁ => cases (bind_eq_of_error hx).symm.trans hb
  | ok a m₁ =>
    obtain ⟨hm₁, hnames⟩ := h S m a m₁ hm hx
    -- The names that have got values keep them while others get theirs.
    let S₁ : Set (FrameRef × String) := S ∪ {e | e.1 = s.nearest ∧ e.2 ∈ names}
    have hmore : (settling g F).holds S₁ m₁ := by
      refine ⟨hm₁.1, hm₁.2.1, ?_⟩
      rintro ⟨f, y⟩ (he | ⟨rfl, hy⟩)
      · exact hm₁.2.2 _ he
      · exact ⟨hs, hnames y hy⟩
    obtain ⟨hm', hnames'⟩ := hf a _ _ _ _ hmore ((bind_eq_of_ok hx).symm.trans hb)
    refine ⟨⟨hm'.1, hm'.2.1, fun e he => hm'.2.2 e (.inl he)⟩, fun y hy => ?_⟩
    rcases mem_append.1 hy with hy | hy
    · exact (hm'.2.2 (s.nearest, y) (.inr ⟨rfl, hy⟩)).2
    · exact hnames' y hy

theorem declare (hs : g.Guards F s.nearest) (name : String) (v : Value) (isMutable : Bool) :
    Binds g F s [name] (declare s name (some v) isMutable) := by
  rintro S m _ _ hm ⟨⟩
  refine ⟨settling_declare hm isMutable fun _ => rfl, fun y hy => ?_⟩
  cases mem_singleton.1 hy
  refine ⟨v, isMutable, Machine.get?_frame_declare (fun n hn => ?_) _⟩
  rcases hs with hs | ⟨id, t, hid, -⟩
  · have hlive := hm.2.1 _ hs
    rwa [hn] at hlive
  · cases hid.symm.trans hn

end Binds

variable {n : Nat} {kind : BindKind} (hkind : kind ≠ .var) (hs : g.Guards F s.nearest)

include hkind hs

theorem binds_bindName (name : String) (v : Value) :
    Binds g F s [name] (bindName s kind name v) := by
  cases kind with
  | lexical => exact .declare hs name v true
  | const => exact .declare hs name v false
  | var => exact absurd rfl hkind

variable {W : Machine → Prop} [DecidablePred W] {e : EvalError}

section Parts

variable (hr : ∀ S size, (settling_stable g F).lax.logic.Runs S size (watchedOrNot W e n))
  (hbind : ∀ p v, Binds g F s p.reached ((interp n).bind s kind p v))

include hbind

omit hkind in
theorem binds_bindItems (ps : List Pat) (vs : List Value) :
    Binds g F s (Pat.reachedList ps) (bindItems (interp n) s kind ps vs) := by
  have hL := (settling_stable g F).lax
  induction ps generalizing vs with
  | nil => exact .pure ()
  | cons p ps ih =>
    cases p with
    | hole => exact ih _
    | rest p =>
      exact .after (fun _ => hL.logic.newArray (hL.good vs.toArray)) fun v => hbind p v
    | _ => exact .bind hs (hbind _ _) fun _ => ih _

include hr in
theorem binds_bindProperties (v : Value) (used : List String) (ps : List PatProperty) :
    Binds g F s (Pat.reachedProps ps) (bindProperties (interp n) s kind v used ps) := by
  have hL := (settling_stable g F).lax
  have hproperty (key : String) (S) := Logic.holds_getProperty (hr S 0) (hL.good v) key
  induction ps generalizing used with
  | nil => exact .pure ()
  | cons p ps ih =>
    cases p with
    | keyValue key p =>
      refine .after (fun S => Logic.holds_propertyKey (hr S _) (hL.good s) le_rfl) fun key => ?_
      refine .after (hproperty key) fun w => ?_
      exact .bind hs (hbind p w) fun _ => ih _
    | shorthand id default =>
      refine .after (hproperty id.name) fun found => ?_
      refine .after (fun S => Logic.holds_orDefault (hr S _) (hL.good s) le_rfl (hL.good found))
        fun w => ?_
      exact .bind hs (binds_bindName hkind hs id.name w) fun _ => ih _
    | rest p =>
      refine .after (fun S => Logic.holds_entries (hr S 0) (hL.good v)) fun es => ?_
      refine .after (fun S => hL.logic.newObject (hL.good _)) fun w => ?_
      exact .bind hs (hbind p w) fun _ => ih _

end Parts

/-- A pattern that is bound gives values to all names that it reaches. -/
theorem binds_bind (hr : ∀ n' < n, ∀ S size,
    (settling_stable g F).lax.logic.Runs S size (watchedOrNot W e n')) (p : Pat) (v : Value) :
    Binds g F s p.reached ((interp n).bind s kind p v) := by
  have hL := (settling_stable g F).lax
  induction n generalizing p v with
  | zero => exact .throw _
  | succ n ih =>
    have hbind := ih fun n' hn' => hr n' (Nat.lt_succ_of_lt hn')
    have hr := hr n (Nat.lt_succ_self n)
    change Binds g F s p.reached (bindPattern (interp n) s kind p v)
    cases p with
    | ident id => exact binds_bindName hkind hs id.name v
    | withDefault p e =>
      refine .after (fun S => Logic.holds_orDefault (hr S _) (hL.good s) le_rfl (hL.good v))
        fun w => ?_
      exact hbind p w
    | array ps =>
      refine .after (fun S => Logic.holds_iterate (L := hL.logic) (hL.good v)) fun vs => ?_
      exact binds_bindItems hs hbind ps vs
    | object ps =>
      by_cases hv : v.isNullish = true
      · have heq : bindPattern (interp n) s kind (.object ps) v = _ := if_pos hv
        rw [heq]
        refine .after (fun S => hL.logic.text (i := S) v) fun t => ?_
        rintro S m a m' hm ⟨⟩
      · have heq : bindPattern (interp n) s kind (.object ps) v = _ := if_neg hv
        rw [heq]
        exact binds_bindProperties hkind hs hr hbind v [] ps
    | rest p => exact hbind p v
    | decorated ds p => exact hbind p v
    | expr e => exact .throw _
    | hole => exact .throw _

end Binding

/-! ### Declarations -/

section Declarations

variable {g : Graph} {F : Set FrameRef} {W : Machine → Prop} [DecidablePred W] {e : EvalError}
  {n : Nat} (hr : ∀ n' ≤ n, ∀ S size,
    (settling_stable g F).lax.logic.Runs S size (watchedOrNot W e n'))

include hr

/-- A declaration gives values to its name and to the names it gives. -/
theorem binds_evalDeclaration {s : Scope} (hs : g.Guards F s.nearest) {t : Tables} (ht : t.Parsed)
    (name : String) :
    Binds g F s (name :: t.boundBy name) (evalDeclaration (interp n) t s name) := by
  have hL := (settling_stable g F).lax
  have hself (v : Value) (isMutable : Bool) : Binds g F s [name, name]
      (do declare s name (some v) isMutable; return [name]) :=
    .mono (.bind hs (.declare hs name v isMutable) fun _ => .pure _) (by simp)
  unfold evalDeclaration Tables.boundBy
  cases hd : t.declaration? name with
  | none => exact .throw _
  | some form =>
    cases form with
    | var d kind =>
      refine .after (fun S => Logic.holds_initialValue (hr n le_rfl S) (hL.good s) d.init)
        fun v => ?_
      have hkind : (if kind = .const then BindKind.const else .lexical) ≠ .var := by
        split <;> exact nofun
      have hbind := binds_bind hkind hs (fun n' hn' => hr n' (Nat.le_of_lt hn')) d.pat v
      obtain ⟨hname, hwhole⟩ := ht.whole hd
      refine .mono (.bind hs hbind fun _ => .pure _) fun y hy => ?_
      rw [append_nil, ← hwhole]
      rcases mem_cons.1 hy with rfl | hy
      · exact hname
      · exact hy
    | func id f =>
      exact .after (fun S => Logic.holds_newFunc (L := hL.logic) (hL.good s) _ f) fun v =>
        hself v true
    | enum id members =>
      exact .after (fun S => Logic.holds_evalEnum (hr n le_rfl S _) (hL.good s) le_rfl) fun v =>
        hself v false
    | value e =>
      exact .after (fun S => (hr n le_rfl S _).expr (hL.good s) (Nat.lt_succ_self _)) fun v =>
        hself v false
    | cls c => exact .throw _

/-- The evaluation of declarations keeps machines settled. -/
theorem settling_forces : (settling_stable g F).lax.Forces (watchedOrNot W e n) := by
  intro S id t name ht
  have hL := (settling_stable g F).lax
  have hdeclaration := Logic.holds_evalDeclaration (hr n le_rfl S) (s := { module := id })
    (hL.good _) fun _ (_ : _ ∈ t.boundBy name) _ => rfl
  refine Invariant.holds_evalOnce (j := S) (fun m hm _ => ?_) hdeclaration
    fun m₀ m result hm₀ hresult hm => ?_
  · have hbegin := settling_setBinding hm id name .evaluating fun _ _ _ => nofun
    exact settling_of_modules hbegin rfl rfl
  · -- The names have values before their declarations become ready.
    let S₁ : Set (FrameRef × String) :=
      S ∪ {e | g.Apart id t ∧ t.Parsed ∧ ∃ names, result = .ok names ∧
        ∃ y ∈ name :: names, e = (.top id, y)}
    have hS₁ : (settling g F).holds S₁ m := by
      refine ⟨hm.1, hm.2.1, ?_⟩
      rintro _ (he | ⟨hid, hwhole, names, rfl, y, hy, rfl⟩)
      · exact hm.2.2 _ he
      · have hguards : g.Guards F (.top id) := .inr ⟨id, t, rfl, hid⟩
        obtain ⟨rfl, hrun⟩ := hresult names rfl
        have hbinds := binds_evalDeclaration hr (s := { module := id }) hguards hwhole name
        exact ⟨hguards, (hbinds S m₀ _ m hm₀ (hrun false)).2 y hy⟩
    have hless (m') (hm' : (settling g F).holds S₁ m') : (settling g F).holds S m' :=
      ⟨hm'.1, hm'.2.1, fun e he => hm'.2.2 e (.inl he)⟩
    refine Invariant.holds_endBinding (I := settling g F) (j := S₁) result
      (settling_of_modules hS₁ rfl rfl) (fun y status hy hstatus m' hm' => ?_)
      (fun m' hm' => settling_of_modules (hless m' hm') rfl rfl) hless
    refine settling_setBinding hm' id y status fun t' hid hwhole hready => ?_
    cases hid.tables.symm.trans ht
    refine .inr ⟨hid, hwhole, ?_⟩
    cases result with
    | error e => cases (hstatus e rfl).symm.trans hready
    | ok names =>
      refine ⟨names, rfl, y, ?_, rfl⟩
      by_cases hname : y = name
      · exact hname ▸ (.head _)
      · obtain ⟨_, ⟨⟩, hmem⟩ := hy hname
        exact .tail _ hmem

end Declarations

/-- Every part of evaluation keeps machines settled, also if it is watched for this. -/
theorem settling_runs (g : Graph) (F : Set FrameRef) [DecidablePred (Settled g)] (e : EvalError)
    (n : Nat) (S : Set (FrameRef × String)) (size : Nat) :
    (settling_stable g F).lax.logic.Runs S size (watchedOrNot (Settled g) e n) :=
  (settling_stable g F).runs (fun hm => hm.1) (fun _ => settling_forces) n S size

/-- A declaration that has been evaluated is ready. -/
theorem state?_of_forceDeclaration {r : Interp} {id : ModuleId} {t : Tables} {name : String}
    {m m' : Machine} (h : forceDeclaration r id t name m = .ok () m') :
    m'.state? id name = some .ready := by
  rw [forceDeclaration, Invariant.evalOnce_eq] at h
  cases hs : (m.instanceOf id).bindings.get? name with
  | some status =>
    rw [hs] at h
    cases status <;> cases h
    exact hs
  | none =>
    rw [hs] at h
    cases hx : evalDeclaration r t { module := id } name (after (beginBinding id name) m) with
    | error e m₁ =>
      rw [hx] at h
      cases h
    | ok names m₁ =>
      rw [hx] at h
      cases (Invariant.endBinding_ok id name names m₁).symm.trans h
      exact state?_setBinding _ id name .ready

namespace Settled

variable {g : Graph} {m m' : Machine} {n : Nat}

theorem holds (h : Settled g m) {F : Set FrameRef} (hF : ∀ f ∈ F, g.Live m f) :
    (settling g F).holds (∅ : Set (FrameRef × String)) m := ⟨h, hF, nofun⟩

theorem start {limits : Limits} {cache : ModuleCache} (h : g.Serves (.start g limits cache)) :
    Settled g (.start g limits cache) := ⟨h, nofun⟩

theorem recached (h : Settled g m) (hm : Recached g m' m) : Settled g m' :=
  (settling_congr (h.holds (F := ∅) nofun) hm.left (by rw [hm.eq]) (fun n => by rw [hm.eq])
    (by rw [hm.eq])).1

open Classical in
/-- A pattern that is bound gives values to all names that it reaches. -/
theorem initialized_of_bind (h : Settled g m) {s : Scope} (hs : g.Live m s.nearest)
    {kind : BindKind} (hkind : kind ≠ .var) {p : Pat} {v : Value}
    (hbind : (interp n).bind s kind p v m = .ok () m') :
    ∀ y ∈ p.reached, m'.Initialized s.nearest y := by
  have hbinds := binds_bind (n := n) (F := {s.nearest}) hkind (.inl rfl)
    (fun n' _ => settling_runs g _ .endless n') p v
  refine (hbinds _ m _ m' (h.holds ?_) hbind).2
  rintro _ ⟨⟩
  exact hs

open Classical in
/-- A declaration that is evaluated gives its name a value. -/
theorem initialized_of_force (h : Settled g m) {id : ModuleId} {t : Tables} (hid : g.Apart id t)
    (ht : t.Parsed) {name : String} (hforce : forceDeclaration (interp n) id t name m = .ok () m') :
    m'.Initialized (.top id) name := by
  have hforces := settling_forces (i := (∅ : Set (FrameRef × String)))
    (fun n' (_ : n' ≤ n) => settling_runs g ∅ .endless n') name hid.tables
  have hm' := Invariant.keeps_of_holds hforces false m (h.holds nofun)
  unfold after at hm'
  rw [watchedOrNot, hforce] at hm'
  exact hm'.1.ready hid ht (state?_of_forceDeclaration hforce)

/-- A style call leaves the machine settled, and meets settled machines only. -/
theorem callValue [DecidablePred (Settled g)] (h : Settled g m) (argument : Expr)
    {needed : List BindingKey} (hneeded : ∀ id t, .body id ∈ needed → ¬ g.Apart id t) :
    Settled g (after (callValue (interp n) argument needed) m) ∧
    ∀ e, callValue (watched (Settled g) e n) argument needed m =
      callValue (interp n) argument needed m := by
  have hL := (settling_stable g ∅).lax
  have hcall (e) := hL.holds_callValue (settling_runs g ∅ e n)
    (settling_forces fun n' _ => settling_runs g ∅ e n') argument (i := (∅ : Set _))
    fun id hid t => hneeded id t hid
  refine ⟨(Invariant.keeps_of_holds (hcall .endless) false m (h.holds nofun)).1, fun e => ?_⟩
  obtain ⟨r, -, heq⟩ := hcall e m (h.holds nofun)
  exact (heq true).trans (heq false).symm

end Settled

/-- **Declarations bind what they announce.** Each name in the table of a module has a declaration,
which binds it. Machines are settled at the start, after every style call and wherever a style call
looks at them. On a settled machine a pattern that is bound in a live frame, unless by `var`, gives
values to all names it reaches; a declaration of a parsed module that is evaluated by itself gives
its name a value; and reading the name finds this value, or fails as the declaration does. -/
theorem declarations_bind_names :
    (∀ id module resolve name, (Tables.build id module resolve).declarations.contains name = true →
      ∃ site item form, (Tables.build id module resolve).declarations.get? name = some site ∧
        module.items[site.item]? = some item ∧ Announces item site form name ∧
        (Tables.build id module resolve).declaration? name = some form) ∧
    ∀ (g : Graph) [DecidablePred (Settled g)],
      (∀ limits cache, g.Serves (.start g limits cache) → Settled g (.start g limits cache)) ∧
      ∀ m, Settled g m →
        (∀ job : Job, (∀ id t, .body id ∈ job.needed → ¬ g.Apart id t) →
          Settled g (Batch.runJob job m).2 ∧
          ∀ e n, callValue (watched (Settled g) e n) job.argument job.needed m.reset =
            callValue (interp n) job.argument job.needed m.reset) ∧
        (∀ n s kind p v m', g.Live m s.nearest → kind ≠ .var →
          (interp n).bind s kind p v m = .ok () m' →
          ∀ y ∈ p.reached, m'.Initialized s.nearest y) ∧
        ∀ n id t name, g.Apart id t → t.Parsed → t.declarations.contains name = true →
          (∀ m', forceDeclaration (interp n) id t name m = .ok () m' →
            m'.Initialized (.top id) name) ∧
          ∃ m₀, Recached g m₀ m ∧
            (∀ m', forceDeclaration (interp n) id t name m₀ = .ok () m' →
              ∃ v isMutable, m'.top? id name = some ⟨some v, isMutable⟩ ∧
                topLevelValue (interp n) id name m = .ok v m') ∧
            ∀ e m', forceDeclaration (interp n) id t name m₀ = .error e m' →
              topLevelValue (interp n) id name m = .error e m' := by
  refine ⟨fun _ _ _ _ => Tables.exists_announces, fun g _ => ⟨fun _ _ => .start, fun m hm => ?_⟩⟩
  refine ⟨fun job hjob => ?_, fun n s kind p v m' hs hkind => hm.initialized_of_bind hs hkind,
    fun n id t name hid ht hname => ⟨fun m' => hm.initialized_of_force hid ht, ?_⟩⟩
  · have hreset : (settling g ∅).holds (∅ : Set (FrameRef × String)) m.reset :=
      settling_of_modules (hm.holds nofun) rfl rfl
    rw [Batch.snd_runJob]
    exact ⟨(hreset.1.callValue job.argument hjob).1,
      fun e n => (hreset.1.callValue job.argument hjob).2 e⟩
  · obtain ⟨m₀, hm₀, hfails, hvalue⟩ :=
      exists_topLevelValue_eq (interp n) hm.serves hid.tables hid.apart hname
    refine ⟨m₀, hm₀, fun m' hforce => ?_, hfails⟩
    obtain ⟨v, isMutable, htop⟩ := (hm.recached hm₀).initialized_of_force hid ht hforce
    exact ⟨v, isMutable, htop, hvalue m' v isMutable hforce htop⟩

/-- `const [a, ...b] = ['red']`. -/
def restUnit : Module := (Module.parse? {} "const [a, ...b] = ['red']").getD {}

/-- The graph of this unit. -/
def restGraph : Graph where
  loader := {}
  features := {}
  entry := Tables.build "/unit" restUnit fun _ => .ok "/unit"

theorem id_rest : restGraph.entry.id = "/unit" := Tables.id_build _ _ _

theorem parsed_rest : restGraph.entry.Parsed := by
  have hparse : (Module.parse? {} "const [a, ...b] = ['red']").isSome = true := by decide +kernel
  obtain ⟨m, hm⟩ := Option.isSome_iff_exists.1 hparse
  refine ⟨{}, _, m, fun _ => .ok "/unit", hm, ?_⟩
  rw [id_rest, restGraph, restUnit, hm, Option.getD_some]

theorem apart_rest : restGraph.Apart "/unit" restGraph.entry :=
  ⟨id_rest ▸ restGraph.freshTables_entry, by decide +kernel⟩

theorem declarations_bind_names_rest : ∃ m,
    forceDeclaration (interp 3) "/unit" restGraph.entry "b" (.start restGraph {} {}) = .ok () m ∧
    m.Initialized (.top "/unit") "b" := by
  obtain ⟨hstart, hsettled⟩ := @declarations_bind_names.2 restGraph (Classical.decPred _)
  have hunit := (hsettled _ (hstart {} {} ⟨rfl, nofun⟩)).2.2 3 "/unit" restGraph.entry "b"
    apart_rest parsed_rest (by decide +kernel)
  have hends : ((forceDeclaration (interp 3) "/unit" restGraph.entry "b").run'
      (.start restGraph {} {})).isSome = true := by decide +kernel
  unfold EStateM.run' EStateM.run at hends
  split at hends
  · next m hforce => exact ⟨m, hforce, hunit.1 m hforce⟩
  · cases hends

/-- `[...a, b]`. -/
def restFirst : Pat := .array [.rest (.ident ⟨"a", 0⟩), .ident ⟨"b", 1⟩]

/-- **Binding ends with the rest of an array pattern.** What follows it is bound no more, though the
pattern has its names. -/
theorem names_after_rest_unbound : "b" ∈ restFirst.names.map Ident.text ∧ ∃ m,
    (interp 3).bind { module := "/unit" } .const restFirst (.string "xy") (.start restGraph {} {}) =
      .ok () m ∧ ¬ m.Initialized (.top "/unit") "b" := by
  refine ⟨by decide, _, rfl, ?_⟩
  rintro ⟨v, isMutable, ⟨⟩⟩

end AtomicStyles
