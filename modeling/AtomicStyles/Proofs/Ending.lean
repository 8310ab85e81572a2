import AtomicStyles.Proofs.ExportSearch
import AtomicStyles.Proofs.Traversal

/-!
# Resolution ends

The modules around a unit may be finitely many and still keep a search going for ever:
re-exports can lead back to themselves. Where no search for an export does, resolution
ends: finitely many modules have finitely many keys, and no walk comes to a key twice.
How deep searches and walks may go is bounded by the limit of the graph, so the statements
are about all limits from some point on.

## Main definitions

* `Graph.Spans` — modules that hold the unit and all modules they point to.
* `Graph.ExportsEnd` — each search for an export ends.
* `Graph.Settled` — all searches end within the limit of the graph.

## Main results

* `Graph.Reachable.mem_keysWithin` — what can be reached are keys of the modules.
* `Graph.eventually_settled` — from some limit on, all searches end.
-/

namespace AtomicStyles

open Script Resolving List

/-! ### What tables know -/

namespace Tables

/-- The module, and the names that it declares. -/
def known (t : Tables) : ModuleId × Module × OrderedMap String DeclarationSite :=
  (t.id, t.module, t.declarations)

/-- The tables with more names that are declared. -/
def declareAll (t : Tables) (ds : List (String × DeclarationSite)) : Tables :=
  { t with declarations := ds.foldl (fun m e => m.insert e.1 e.2) t.declarations }

/-- What adds imports and exports one by one keeps it. -/
theorem known_foldl {α : Type} {f : Tables → α → Tables} (hf : ∀ t a, (f t a).known = t.known)
    (as : List α) (t : Tables) : (as.foldl f t).known = t.known := by
  induction as generalizing t with
  | nil => rfl
  | cons a as ih => rw [foldl_cons, ih, hf]

theorem known_addImports (t : Tables) (specifier : String) (source : Except ResolveError ModuleId)
    (specifiers : List ImportSpecifier) :
    (t.addImports specifier source specifiers).known = t.known := by
  unfold addImports
  refine known_foldl (fun t s => ?_) _ _
  split <;> rfl

theorem known_addOwnExports (t : Tables) (specifiers : List ExportSpecifier) :
    (t.addOwnExports specifiers).known = t.known := by
  unfold addOwnExports
  refine known_foldl (fun t s => ?_) _ _
  split <;> rfl

theorem known_addReexports (t : Tables) (specifier : String) (source : Except ResolveError ModuleId)
    (specifiers : List ExportSpecifier) :
    (t.addReexports specifier source specifiers).known = t.known := by
  unfold addReexports
  refine known_foldl (fun t s => ?_) _ _
  split <;> rfl

theorem known_addDecl (t : Tables) (item : Nat) (d : Decl) :
    (t.addDecl item d).known = (t.declareAll (declared item d)).known := by
  show ((declared item d).foldl _ t).known = _
  induction declared item d generalizing t with
  | nil => rfl
  | cons e ds ih => exact ih (t.declare e.2 e.1)

/-- The names that an item declares, with their sites. -/
def declaredBy : Item → Nat → List (String × DeclarationSite)
  | .stmt (.decl d), item => declared item d
  | .exportDecl d, item => declared item d
  | .exportDefaultFunc name _, item => [((name.map Ident.text).getD defaultName, .func item)]
  | .exportDefaultClass name _, item => [((name.map Ident.text).getD defaultName, .cls item)]
  | .exportDefaultExpr _, item => [(defaultName, .value item)]
  | _, _ => []

theorem known_addItem (resolve : String → Except ResolveError ModuleId) (t : Tables)
    (entry : Item × Nat) : (addItem resolve t entry).known =
      (t.declareAll (declaredBy entry.1 entry.2)).known := by
  obtain ⟨i, item⟩ := entry
  cases i with
  | imports specifiers source typeOnly =>
    dsimp only [addItem]
    split
    · rfl
    · exact known_addImports _ _ _ _
  | exportDecl d =>
    dsimp only [addItem]
    refine (known_foldl ?_ _ _).trans (known_addDecl t item d)
    exact fun _ _ => rfl
  | exports specifiers source typeOnly =>
    dsimp only [addItem]
    split
    · rfl
    · split
      · exact known_addReexports _ _ _ _
      · exact known_addOwnExports _ _
  | exportAll source typeOnly =>
    dsimp only [addItem]
    split <;> rfl
  | stmt s =>
    cases s with
    | decl d => exact known_addDecl t item d
    | _ => rfl
  | _ => rfl

section Build

variable (id : ModuleId) (m : Module) (resolve : String → Except ResolveError ModuleId)

theorem id_build : (build id m resolve).id = id :=
  List.foldlRecOn (motive := fun t : Tables => t.id = id) m.items.zipIdx (addItem resolve) rfl
    fun t ht entry _ => (congrArg Prod.fst (known_addItem resolve t entry)).trans ht

theorem module_build : (build id m resolve).module = m :=
  List.foldlRecOn (motive := fun t : Tables => t.module = m) m.items.zipIdx (addItem resolve) rfl
    fun t ht entry _ => (congrArg (·.2.1) (known_addItem resolve t entry)).trans ht

end Build

/-- The module imports or re-exports something of another one. -/
inductive PointsTo (t : Tables) : ModuleId → Prop where
  | imported {name : String} {i : Import} {target : ModuleId} : t.imports.get? name = some i →
      i.source = .ok target → PointsTo t target
  | reexported {name : String} {i : Import} {target : ModuleId} :
      t.exports.get? name = some (.reexport i) → i.source = .ok target → PointsTo t target
  | star {s : Star} {target : ModuleId} : s ∈ t.stars → s.source = .ok target → PointsTo t target

end Tables

namespace Graph

variable {g : Graph} {ids : Finset ModuleId} {k k' : BindingKey} {t : Tables}

variable {id : ModuleId}

theorem id_of_freshTables (h : g.freshTables id = .ok t) : t.id = id := by
  unfold freshTables at h
  split at h
  · next heq =>
    cases h
    exact heq.symm
  · unfold ModuleCache.loadModule at h
    split at h
    · cases h
    · split at h
      · cases h
        exact Tables.id_build _ _ _
      · split at h <;> cases h

theorem freshTables_entry : g.freshTables g.entry.id = .ok g.entry := if_pos rfl

/-! ### The keys of finitely many modules -/

/-- The modules that the modules point to are among them. -/
def Closed (g : Graph) (ids : Set ModuleId) : Prop :=
  ∀ id ∈ ids, ∀ t, g.freshTables id = .ok t → ∀ target, t.PointsTo target → target ∈ ids

/-- The modules hold the unit and all modules that they point to. -/
structure Spans (g : Graph) (ids : Finset ModuleId) : Prop where
  entry : g.entry.id ∈ ids
  closed : g.Closed ids

/-- The tables are those of one of the modules. -/
structure Holds (g : Graph) (ids : Set ModuleId) (t : Tables) : Prop where
  tables : g.freshTables t.id = .ok t
  mem : t.id ∈ ids

theorem holds_of_freshTables {ids : Set ModuleId} (ht : g.freshTables id = .ok t) (hid : id ∈ ids) :
    g.Holds ids t := by
  cases id_of_freshTables ht
  exact ⟨ht, hid⟩

theorem Spans.holds_entry (h : g.Spans ids) : g.Holds ids g.entry := ⟨freshTables_entry, h.entry⟩

def keysOf (g : Graph) (id : ModuleId) : Finset BindingKey :=
  match g.freshTables id with
  | .ok t => (.body id :: .everything id :: t.declarations.keys.map (.name id)).toFinset
  | .error _ => {.body id, .everything id}

def keysWithin (g : Graph) (ids : Finset ModuleId) : Finset BindingKey := ids.biUnion g.keysOf

theorem module_of_mem_keysOf (h : k ∈ g.keysOf id) : k.module = id := by
  unfold keysOf at h
  split at h
  · simp only [mem_toFinset, mem_cons, mem_map] at h
    rcases h with rfl | rfl | ⟨name, -, rfl⟩ <;> rfl
  · simp only [Finset.mem_insert, Finset.mem_singleton] at h
    rcases h with rfl | rfl <;> rfl

theorem module_mem_of_mem_keysWithin (h : k ∈ g.keysWithin ids) : k.module ∈ ids := by
  obtain ⟨id, hid, hk⟩ := Finset.mem_biUnion.1 h
  rwa [module_of_mem_keysOf hk]

theorem body_mem_keysWithin (h : id ∈ ids) : .body id ∈ g.keysWithin ids := by
  refine Finset.mem_biUnion.2 ⟨id, h, ?_⟩
  unfold keysOf
  split <;> simp

theorem everything_mem_keysWithin (h : id ∈ ids) : .everything id ∈ g.keysWithin ids := by
  refine Finset.mem_biUnion.2 ⟨id, h, ?_⟩
  unfold keysOf
  split <;> simp

theorem name_mem_keysWithin {name : String} (ht : g.Holds ids t)
    (hname : t.declarations.contains name = true) : .name t.id name ∈ g.keysWithin ids := by
  refine Finset.mem_biUnion.2 ⟨t.id, ht.mem, ?_⟩
  obtain ⟨site, hsite⟩ := Option.isSome_iff_exists.1 hname
  have := OrderedMap.mem_keys_of_get? hsite
  simp [keysOf, ht.tables, this]

end Graph

namespace Query

/-- What is looked for lies in the modules. -/
def Within (g : Graph) (ids : Set ModuleId) : Query → Prop
  | .exported t _ => g.Holds ids t
  | .imported _ i => ∀ target, i.source = .ok target → target ∈ ids
  | .star _ _ s => ∀ target, s.source = .ok target → target ∈ ids
  | .stars _ _ _ ss => ∀ s ∈ ss, ∀ target, s.source = .ok target → target ∈ ids

variable {g : Graph} {ids : Set ModuleId} {t : Tables} {i : Import} {name own : String}

/-! What a query turns into lies in the modules again. -/

theorem within_import (h : g.Holds ids t) (hclosed : g.Closed ids)
    (himport : t.imports.get? own = some i) : (imported t.id i).Within g ids :=
  fun _ hsource => hclosed _ h.mem _ h.tables _ (.imported himport hsource)

theorem within_reexport (h : g.Holds ids t) (hclosed : g.Closed ids)
    (hexport : t.exports.get? name = some (.reexport i)) : (imported t.id i).Within g ids :=
  fun _ hsource => hclosed _ h.mem _ h.tables _ (.reexported hexport hsource)

theorem within_stars (h : g.Holds ids t) (hclosed : g.Closed ids) :
    (stars t.id name none t.stars).Within g ids :=
  fun _ hs _ hsource => hclosed _ h.mem _ h.tables _ (.star hs hsource)

end Query

/-- What is found in the modules is one of their keys. -/
theorem Finds.mem_keysWithin {g : Graph} {ids : Finset ModuleId} (hspans : g.Spans ids) {fuel : Nat}
    {q : Query} {visited visited' : List ModuleId} {found : Except Unresolved BindingKey}
    (h : Finds g.freshTables fuel q visited found visited') (hq : q.Within g ids) :
    ∀ k, found = .ok k → k ∈ g.keysWithin ids := by
  induction h with
  | visited | unbound | noDefault | unresolved | unloadable | starUnresolved | starUnloadable
  | noStar => rintro _ ⟨⟩
  | declared _ _ hdeclared =>
    rintro _ ⟨⟩
    exact Graph.name_mem_keysWithin hq hdeclared
  | ownImport _ _ _ himport _ ih => exact ih (Query.within_import hq hspans.closed himport)
  | reexport _ hexport _ ih => exact ih (Query.within_reexport hq hspans.closed hexport)
  | throughStars _ _ _ _ ih => exact ih (Query.within_stars hq hspans.closed)
  | everything hsource =>
    rintro _ ⟨⟩
    exact Graph.everything_mem_keysWithin (hq _ hsource)
  | loaded hsource _ hload _ ih => exact ih (Graph.holds_of_freshTables hload (hq _ hsource))
  | starLoaded hsource hload _ ih => exact ih (Graph.holds_of_freshTables hload (hq _ hsource))
  | thisStar _ ih => exact ih (hq _ (.head _))
  | nextStar _ _ _ ih => exact ih fun s hs => hq s (.tail _ hs)

namespace Graph

variable {g : Graph} {ids : Finset ModuleId} {k k' : BindingKey} {t : Tables} {name : String}

/-- What an export is found to be, if the search ends, it is by the rules. -/
theorem finds_of_value_exported {found : Except Unresolved BindingKey}
    (h : (g.exported t name).value = found) (hends : found ≠ .error .endless) :
    ∃ visited, Finds g.freshTables g.limit (.exported t name) [] found visited := by
  have hvalue : (g.exportedWithin g.limit t name).value = found := h
  obtain ⟨visited, hanswer⟩ :=
    Query.exists_of_settle_eq_ok (Unresolved.settle_eq_ok_iff.2 ⟨hvalue, hvalue ▸ hends⟩)
  exact ⟨visited, finds_of_answer hanswer⟩

/-- What a top-level name stands for: its declaration, or what its import finds. -/
theorem finds_of_binds (h : g.Binds t name k) :
    t.declarations.contains name = true ∧ k = .name t.id name ∨
    ∃ i, t.imports.get? name = some i ∧
      Finds g.freshTables g.limit (.imported t.id i) [] (.ok k) [] := by
  unfold Binds Graph.bind at h
  rw [g.value_bindVia g.steady_exported] at h
  split at h
  · next hdeclared =>
    cases h
    exact .inl ⟨hdeclared, rfl⟩
  · split at h
    · next i himport =>
      obtain ⟨k', hk', heq⟩ := Query.exists_of_map_eq_ok h
      cases heq
      refine .inr ⟨i, himport, finds_of_answer ?_⟩
      exact congrArg (fun x => (Unresolved.settle x).map (·, [])) hk'
    · cases h

/-- The keys of names in the modules are keys of the modules. -/
theorem Binds.mem_keysWithin (hspans : g.Spans ids) (ht : g.Holds ids t) (h : g.Binds t name k) :
    k ∈ g.keysWithin ids := by
  rcases finds_of_binds h with ⟨hdeclared, rfl⟩ | ⟨i, himport, hfinds⟩
  · exact name_mem_keysWithin ht hdeclared
  · exact hfinds.mem_keysWithin hspans (Query.within_import ht hspans.closed himport) k rfl

/-- What is used by a key of the modules is a key of the modules. -/
theorem Uses.mem_keysWithin (hspans : g.Spans ids) {names : References → List String}
    (h : g.Uses names k k') (hk : k ∈ g.keysWithin ids) : k' ∈ g.keysWithin ids := by
  have hid := module_mem_of_mem_keysWithin hk
  cases h with
  | whole => exact body_mem_keysWithin hid
  | declaration _ ht _ _ hk' => exact hk'.mem_keysWithin hspans (holds_of_freshTables ht hid)
  | body _ ht _ hk' => exact hk'.mem_keysWithin hspans (holds_of_freshTables ht hid)
  | member _ ht _ hk' =>
    obtain ⟨visited, hfinds⟩ := finds_of_value_exported hk' nofun
    exact hfinds.mem_keysWithin hspans (holds_of_freshTables ht hid) k' rfl
  | star _ ht hs hsource _ =>
    exact everything_mem_keysWithin (hspans.closed _ hid _ ht _ (.star hs hsource))

/-- What can be reached from keys of the modules are keys of the modules. -/
theorem Reachable.mem_keysWithin (hspans : g.Spans ids) {names : References → List String}
    {roots : List BindingKey} (hroots : ∀ k ∈ roots, k ∈ g.keysWithin ids)
    (h : Reachable (g.Uses names) roots k) : k ∈ g.keysWithin ids := by
  obtain ⟨root, hroot, hpath⟩ := h
  induction hpath with
  | refl => exact hroots root hroot
  | tail _ hstep ih => exact hstep.mem_keysWithin hspans ih

/-! ### What resolution can fail with -/

variable {i : Import} {e : Unresolved}

/-- What an import finds is missing or cannot be loaded, or the search does not end. -/
theorem isLookup_of_value_follow_eq_error {importer : ModuleId}
    (h : (g.follow g.exported importer i).value = .error e) : e.isLookup = true ∨ e = .endless := by
  by_cases hends : e = .endless
  · exact .inr hends
  · have hne : (g.follow g.exported importer i).value ≠ .error .endless := by
      rw [h]
      exact fun heq => hends (Except.error.inj heq)
    have hanswer : (Query.imported importer i).answer g g.limit [] = .ok (.error e, []) := by
      refine (congrArg (Except.map (·, [])) (Unresolved.settle_of_ne hne)).trans ?_
      rw [h]
      rfl
    exact .inl ((finds_of_answer hanswer).isLookup trivial e rfl)

theorem isLookup_of_value_bind_eq_error (h : (g.bind t name).value = .error e) :
    e.isLookup = true ∨ e = .endless := by
  rw [Graph.bind, g.value_bindVia g.steady_exported] at h
  split at h
  · cases h
  · split at h
    · exact isLookup_of_value_follow_eq_error (Query.eq_error_of_map_eq_error h)
    · cases h

/-- What code refers to cannot be found where one of the names that it reads at once cannot, or
where the search for one of its names does not end. -/
theorem exists_of_value_bindReferences_eq_error {r : References}
    (h : (g.bindReferences t r).value = .error e) :
    ∃ name, (g.bind t name).value = .error e ∧ (name ∈ r.eagerNames ∨ e = .endless) := by
  have hlate := g.steady_succeeding (steady_deferred (t := t) (Ident.texts r.deferred))
  rw [bindReferences, value_bind_eq_error (g.steady_bindEager t _) fun _ =>
    hlate.bind fun _ => .pure _] at h
  rcases h with h | ⟨_, -, h⟩
  · rw [bindEager, value_bind_eq_error (.mapM fun name _ => g.steady_bind t name) fun _ =>
      .pure _] at h
    rcases h with h | ⟨_, -, h⟩
    · obtain ⟨name, hname, h⟩ :=
        exists_of_value_mapM_eq_error (fun name _ => g.steady_bind t name) h
      exact ⟨name, h, .inl hname⟩
    · cases h
  · rw [value_bind_eq_error hlate fun _ => .pure _] at h
    rcases h with h | ⟨_, -, h⟩
    · obtain ⟨rfl, x, hx, hends⟩ := g.exists_of_value_succeeding_eq_error (steady_deferred _) h
      obtain ⟨name, -, rfl⟩ := mem_map.1 hx
      exact ⟨name, hends, .inr rfl⟩
    · cases h

/-- Why the dependencies of a key cannot be found: its module cannot be loaded, or a name or an
export in it leads nowhere. -/
theorem cases_of_value_edges_eq_error (h : (g.edges k).value = .error e) :
    (∃ cause, e = .load cause) ∨ ∃ t, g.freshTables k.module = .ok t ∧
      ((∃ name, (g.bind t name).value = .error e) ∨
        e = .endless ∧ ∃ name ∈ t.exports.keys, (g.exported t name).value = .error .endless) := by
  cases hload : g.freshTables k.module with
  | error cause =>
    rw [value_edges, freshEdges, value_bind (g.steady_lookup _) fun t => g.steady_edgesIn t k,
      value_lookup, hload] at h
    exact .inl ⟨cause, (Except.error.inj h).symm⟩
  | ok t =>
    rw [value_edges_of_tables hload] at h
    refine .inr ⟨t, rfl, ?_⟩
    cases k with
    | name m name =>
      by_cases hwhole : g.runsWhole t
      · rw [edgesIn, if_pos hwhole] at h
        cases h
      · rw [edgesIn, if_neg hwhole] at h
        obtain ⟨used, hused, -⟩ := exists_of_value_bindReferences_eq_error h
        exact .inl ⟨used, hused⟩
    | body m =>
      obtain ⟨used, hused, -⟩ := exists_of_value_bindReferences_eq_error h
      exact .inl ⟨used, hused⟩
    | everything m => exact .inr (exists_of_value_edgesIn_everything_eq_error h)

theorem isLookup_of_value_edges_eq_error (h : (g.edges k).value = .error e) :
    e.isLookup = true ∨ e = .endless := by
  rcases cases_of_value_edges_eq_error h with ⟨cause, rfl⟩ | ⟨t, -, ⟨name, h⟩ | ⟨rfl, -⟩⟩
  · exact .inl rfl
  · exact isLookup_of_value_bind_eq_error h
  · exact .inr rfl

/-- A list of checks fails where one of them does. -/
theorem exists_of_value_forM_eq_error {α : Type} {f : α → Resolving PUnit} {as : List α}
    (hf : ∀ a, Steady g (f a)) (h : (as.forM f).value = .error e) :
    ∃ a ∈ as, (f a).value = .error e := by
  induction as with
  | nil => cases h
  | cons a as ih =>
    rcases (value_bind_eq_error (hf a) fun _ => Steady.forM hf as).1 h with h | ⟨_, -, h⟩
    · exact ⟨a, .head _, h⟩
    · obtain ⟨a', ha', h⟩ := ih h
      exact ⟨a', .tail _ ha', h⟩

/-- The check of a name fails where its key is needed, or where the search for it does not end. -/
theorem cases_of_value_checkName_eq_error {needed : List BindingKey} {name : String}
    (h : (g.checkName needed name).value = .error e) :
    e = .modified name ∨ e = .endless ∧ (g.bind g.entry name).value = .error .endless := by
  unfold checkName at h
  rw [value_bind_eq_error (g.steady_bind g.entry name).outcome ?steady] at h
  case steady =>
    intro found
    split
    · split
      · exact .throw _
      · exact .pure _
    · exact .pure _
  rcases h with h | ⟨found, -, h⟩
  · rw [value_outcome] at h
    obtain ⟨hends, rfl⟩ := Unresolved.settle_eq_error h
    exact .inr ⟨rfl, hends⟩
  · split at h
    · split at h
      · exact .inl (Except.error.inj h).symm
      · cases h
    · cases h

/-- The check for writes fails where a name that is needed is written, or where the search for a
name does not end. -/
theorem cases_of_value_checkWrites_eq_error {needed : List BindingKey}
    {items : List (List String × List String)} (h : (g.checkWrites needed items).value = .error e) :
    (∃ name, e = .modified name) ∨
      e = .endless ∧ ∃ name, (g.bind g.entry name).value = .error .endless := by
  obtain ⟨⟨declares, writes⟩, -, hitem⟩ :=
    exists_of_value_forM_eq_error (g.steady_checkItem needed) h
  rw [checkItem] at hitem
  split at hitem
  · cases hitem
  · obtain ⟨name, -, hname⟩ := exists_of_value_forM_eq_error (g.steady_checkName needed) hitem
    rcases cases_of_value_checkName_eq_error hname with rfl | ⟨rfl, hends⟩
    · exact .inl ⟨name, rfl⟩
    · exact .inr ⟨rfl, name, hends⟩

/-! ### Searches that end -/

/-- The same modules, with another bound on searches. -/
def withLimit (g : Graph) (limit : Nat) : Graph := { g with limit }

/-- Each search for an export of the modules ends. -/
def ExportsEnd (g : Graph) (ids : Finset ModuleId) : Prop :=
  ∀ id ∈ ids, ∀ t, g.freshTables id = .ok t →
    ∀ name, ∃ fuel, (g.searchExport fuel t name []).value ≠ .error .endless

/-- All searches in the modules end within the limit of the graph, and the modules have fewer
keys than that. -/
structure Settled (g : Graph) (ids : Finset ModuleId) : Prop where
  imports : ∀ id ∈ ids, ∀ t, g.freshTables id = .ok t → ∀ name i, t.imports.get? name = some i →
    (g.follow g.exported t.id i).value ≠ .error .endless
  exports : ∀ id ∈ ids, ∀ t, g.freshTables id = .ok t → ∀ name ∈ t.exports.keys,
    (g.exported t name).value ≠ .error .endless
  card : (g.keysWithin ids).card < g.limit

/-- A search for an export that ends finds something by the rules. -/
theorem exists_finds_exported (hends : g.ExportsEnd ids) {id : ModuleId} (hid : id ∈ ids)
    (ht : g.freshTables id = .ok t) (name : String) :
    ∃ fuel found visited, Finds g.freshTables fuel (.exported t name) [] found visited := by
  obtain ⟨fuel, hfuel⟩ := hends id hid t ht name
  cases hanswer : (Query.exported t name).answer g fuel [] with
  | error e =>
    refine absurd ?_ hfuel
    rw [← Query.answer_eq_error hanswer]
    exact hanswer
  | ok r => exact ⟨fuel, r.1, r.2, finds_of_answer hanswer⟩

/-- So does an import. -/
theorem exists_finds_imported (hends : g.ExportsEnd ids) {importer : ModuleId}
    (hsource : ∀ target, i.source = .ok target → target ∈ ids) :
    ∃ fuel found, Finds g.freshTables fuel (.imported importer i) [] found [] := by
  cases hs : i.source with
  | error e => exact ⟨0, _, .unresolved hs⟩
  | ok target =>
    cases hname : i.imported.exportName? with
    | none => exact ⟨0, _, .everything hs hname⟩
    | some name =>
      cases hload : g.freshTables target with
      | error e => exact ⟨0, _, .unloadable hs hname hload⟩
      | ok t =>
        obtain ⟨fuel, found, visited, hfinds⟩ :=
          exists_finds_exported hends (hsource target hs) hload name
        exact ⟨fuel, found, .loaded hs hname hload hfinds⟩

theorem eventually_exported_ne_endless (hends : g.ExportsEnd ids) {id : ModuleId} (hid : id ∈ ids)
    (ht : g.freshTables id = .ok t) (name : String) :
    ∀ᶠ limit in Filter.atTop, ((g.withLimit limit).exported t name).value ≠ .error .endless := by
  obtain ⟨fuel, found, visited, hfinds⟩ := exists_finds_exported hends hid ht name
  refine (Filter.eventually_ge_atTop fuel).mono fun limit hlimit => ?_
  have hanswer := (hfinds.mono hlimit).answer (g := g.withLimit limit)
  have hvalue := (g.withLimit limit).value_exportedWithin limit t name
  rw [show ((g.withLimit limit).searchExport limit t name []).value = _ from hanswer]
    at hvalue
  rw [show ((g.withLimit limit).exported t name).value = found from hvalue]
  exact hfinds.ne_endless trivial

theorem eventually_follow_ne_endless (hends : g.ExportsEnd ids)
    (hsource : ∀ target, i.source = .ok target → target ∈ ids) (importer : ModuleId) :
    ∀ᶠ limit in Filter.atTop,
      ((g.withLimit limit).follow (g.withLimit limit).exported importer i).value ≠
        .error .endless := by
  obtain ⟨fuel, found, hfinds⟩ := exists_finds_imported hends hsource
  refine (Filter.eventually_ge_atTop fuel).mono fun limit hlimit hvalue => ?_
  have hanswer := (hfinds.mono hlimit).answer (g := g.withLimit limit)
  rw [Query.answer, show ((g.withLimit limit).follow
    ((g.withLimit limit).exportedWithin limit) importer i).value = _ from hvalue] at hanswer
  cases hanswer

/-- What holds from some limit on of each name of each module holds from some limit on of all: there
are finitely many. -/
theorem eventually_forall_names {P : Nat → Tables → String → Prop} (names : Tables → List String)
    (h : ∀ id ∈ ids, ∀ t, g.freshTables id = .ok t → ∀ name ∈ names t, ∀ᶠ limit in Filter.atTop, P limit t name) :
    ∀ᶠ limit in Filter.atTop, ∀ id ∈ ids, ∀ t, g.freshTables id = .ok t → ∀ name ∈ names t,
      P limit t name := by
  refine (Filter.eventually_all_finset ids).2 fun id hid => ?_
  cases ht : g.freshTables id with
  | error e => exact .of_forall fun _ _ h => by cases h
  | ok t =>
    have hall := (Filter.eventually_all_finite (names t).finite_toSet).2 (h id hid t ht)
    refine hall.mono fun limit hlimit t' ht' => ?_
    cases ht'
    exact hlimit

theorem eventually_settled (hspans : g.Spans ids) (hends : g.ExportsEnd ids) :
    ∀ᶠ limit in Filter.atTop, (g.withLimit limit).Settled ids := by
  have himports : ∀ᶠ limit in Filter.atTop, ∀ id ∈ ids, ∀ t, g.freshTables id = .ok t →
      ∀ name ∈ t.imports.keys, ∀ i, t.imports.get? name = some i →
        ((g.withLimit limit).follow (g.withLimit limit).exported t.id i).value ≠
          .error .endless := by
    refine eventually_forall_names _ fun id hid t ht name _ => ?_
    cases himport : t.imports.get? name with
    | none => exact .of_forall fun _ _ h => by cases h
    | some i =>
      have hsource := Query.within_import (holds_of_freshTables ht hid) hspans.closed himport
      refine (eventually_follow_ne_endless hends hsource t.id).mono ?_
      rintro limit hlimit i ⟨⟩
      exact hlimit
  have hexports := eventually_forall_names (fun t => t.exports.keys)
    fun id hid t ht name _ => eventually_exported_ne_endless hends hid ht name
  filter_upwards [himports, hexports, Filter.eventually_gt_atTop (g.keysWithin ids).card]
    with limit himports hexports hcard
  exact {
    imports := fun id hid t ht name i himport =>
      himports id hid t ht name (OrderedMap.mem_keys_of_get? himport) i himport
    exports := hexports
    card := hcard }

namespace Settled

/-- The search for a name of the modules ends. -/
theorem bind_ne_endless (h : g.Settled ids) (ht : g.Holds ids t) (name : String) :
    (g.bind t name).value ≠ .error .endless := by
  intro hvalue
  rw [Graph.bind, g.value_bindVia g.steady_exported] at hvalue
  split at hvalue
  · cases hvalue
  · split at hvalue
    · next i himport =>
      have hfollow := Query.eq_error_of_map_eq_error hvalue
      exact h.imports t.id ht.mem t ht.tables name i himport hfollow
    · cases hvalue

/-- The search for the dependencies of a key ends. -/
theorem edges_ne_endless (h : g.Settled ids) (hk : k ∈ g.keysWithin ids) :
    (g.edges k).value ≠ .error .endless := by
  intro hvalue
  have hid := module_mem_of_mem_keysWithin hk
  rcases cases_of_value_edges_eq_error hvalue with
    ⟨cause, hcause⟩ | ⟨t, ht, ⟨name, hname⟩ | ⟨-, name, hname, hends⟩⟩
  · cases hcause
  · exact h.bind_ne_endless (holds_of_freshTables ht hid) name hname
  · exact h.exports _ hid t ht name hname hends

/-- The keys that a style call starts with are keys of the modules. -/
theorem mem_keysWithin_of_roots (hspans : g.Spans ids) {r : References} {roots : Edges}
    (hroots : (g.bindReferences g.entry r).value = .ok roots) :
    ∀ k ∈ roots.eager ++ roots.deferred, k ∈ g.keysWithin ids := by
  intro k hk
  obtain ⟨name, -, hk⟩ := (mem_of_value_bindReferences hroots).1 hk
  exact hk.mem_keysWithin hspans hspans.holds_entry

/-- The walk that puts keys in order ends. -/
theorem visit_ne_endless (h : g.Settled ids) (hspans : g.Spans ids) {roots : List BindingKey}
    (hroots : ∀ k ∈ roots, k ∈ g.keysWithin ids) :
    (roots.foldlM (g.visit g.limit []) []).value ≠ .error .endless := by
  intro hvalue
  have hvisited := visited_roots g g.limit roots
  rw [hvalue] at hvisited
  cases hvisited with
  | failed hk hedges => exact h.edges_ne_endless (hk.mem_keysWithin hspans hroots) hedges
  | @deep path hnodup hlength hpath =>
    -- A path without repetitions is no longer than there are keys.
    have hsub : path.toFinset ⊆ g.keysWithin ids := by
      intro k hk
      rcases hpath k (mem_toFinset.1 hk) with hk | hk
      · cases hk
      · exact hk.mem_keysWithin hspans hroots
    have hcard := Finset.card_le_card hsub
    rw [toFinset_card_of_nodup hnodup, hlength] at hcard
    exact absurd h.card (by simpa using hcard)

end Settled

end Graph
end AtomicStyles
