import AtomicStyles.Proofs.Resolving

/-!
# What a key depends on

A key depends on the keys of the names that its code reads: at once, or inside functions
only. The search for dependencies finds exactly these, so that closures can be compared
with what is reachable in a relation on keys.

## Main definitions

* `Graph.Binds` — the key that a top-level name stands for.
* `Graph.Uses` — the keys that a key uses, by the names that count as used.
* `Graph.Depends`, `Graph.Refers` — the same, for names read at once and for all names.

## Main results

* `Graph.depends_iff`, `Graph.refers_iff` — the dependencies that are found are these.
-/

namespace AtomicStyles

open Script Resolving List

/-- The names that are read at once. -/
def Script.References.eagerNames (r : References) : List String := Ident.texts r.eager

namespace Graph

/-- The top-level name of a module stands for the key. -/
def Binds (g : Graph) (t : Tables) (name : String) (k : BindingKey) : Prop :=
  (g.bind t name).value = .ok (some k)

/-- All that a key refers to at once can be found. -/
def Resolves (g : Graph) (k : BindingKey) : Prop := ∃ e, (g.edges k).value = .ok e

/-- The second key is used by the first one. Of the references of code, the names that `names`
picks count as used. A key that does not resolve uses nothing. -/
inductive Uses (g : Graph) (names : References → List String) : BindingKey → BindingKey → Prop where
  | whole {m : ModuleId} {name : String} {t : Tables} : g.freshTables m = .ok t →
      g.runsWhole t = true → Uses g names (.name m name) (.body m)
  | declaration {m : ModuleId} {name used : String} {t : Tables} {k : BindingKey} :
      g.Resolves (.name m name) → g.freshTables m = .ok t → g.runsWhole t = false →
      used ∈ names (t.declarationReferences name) → g.Binds t used k → Uses g names (.name m name) k
  | body {m : ModuleId} {used : String} {t : Tables} {k : BindingKey} :
      g.Resolves (.body m) → g.freshTables m = .ok t → used ∈ names t.bodyReferences →
      g.Binds t used k → Uses g names (.body m) k
  | member {m : ModuleId} {name : String} {t : Tables} {k : BindingKey} :
      g.Resolves (.everything m) → g.freshTables m = .ok t → name ∈ t.exports.keys →
      (g.exported t name).value = .ok k → Uses g names (.everything m) k
  | star {m target : ModuleId} {t t' : Tables} {s : Star} :
      g.Resolves (.everything m) → g.freshTables m = .ok t → s ∈ t.stars →
      s.source = .ok target → g.freshTables target = .ok t' →
      Uses g names (.everything m) (.everything target)

/-- The second key is read as soon as the first one is evaluated. -/
def Depends (g : Graph) : BindingKey → BindingKey → Prop := g.Uses References.eagerNames

/-- The second key is read when the first one is evaluated, or later inside its functions. -/
def Refers (g : Graph) : BindingKey → BindingKey → Prop := g.Uses References.names

variable {g : Graph} {t : Tables} {k k' : BindingKey}

/-! ### The keys of names -/

theorem mem_bindEager {names : List String} {ks : List BindingKey}
    (h : (g.bindEager t names).value = .ok ks) : k ∈ ks ↔ ∃ name ∈ names, g.Binds t name k := by
  have hsteady : ∀ name ∈ names, Steady g (g.bind t name) := fun name _ => g.steady_bind t name
  obtain ⟨os, hos, h⟩ := exists_of_value_bind (.mapM hsteady) (fun _ => .pure _) h
  cases h
  rw [mem_filterMap]
  simp only [id, exists_eq_right]
  exact mem_iff_of_value_mapM hsteady hos

/-- A search that is made for its key, if it has one. -/
theorem value_orNone_eq_some {x : Resolving (Option BindingKey)} (hx : Steady g x) :
    (orNone x).value = .ok (some k) ↔ x.value = .ok (some k) := by
  -- A search that does not end is not passed over like one that fails.
  rw [g.value_orNone hx]
  by_cases hends : x.value = .error .endless
  · rw [hends]
    exact ⟨nofun, nofun⟩
  · rw [Unresolved.settle_of_ne hends]
    rcases x.value with _ | _ | _
    · exact ⟨nofun, nofun⟩
    · exact ⟨nofun, nofun⟩
    · exact ⟨fun h => (by cases h; rfl), fun h => (by cases h; rfl)⟩

theorem mem_succeeding {searches : List (Resolving (Option BindingKey))} {ks : List BindingKey}
    (hsteady : ∀ x ∈ searches, Steady g x) (h : (succeeding searches).value = .ok ks) :
    k ∈ ks ↔ ∃ x ∈ searches, x.value = .ok (some k) := by
  have hnone : ∀ x ∈ searches, Steady g (orNone x) := fun x hx => g.steady_orNone (hsteady x hx)
  obtain ⟨os, hos, h⟩ := exists_of_value_bind (.mapM hnone) (fun _ => .pure _) h
  cases h
  rw [mem_filterMap]
  simp only [id, exists_eq_right]
  rw [mem_iff_of_value_mapM hnone hos]
  exact exists_congr fun x => and_congr_right fun hx => value_orNone_eq_some (hsteady x hx)

theorem steady_deferred (names : List String) : ∀ x ∈ names.map (g.bind t), Steady g x := by
  intro x hx
  obtain ⟨name, -, rfl⟩ := mem_map.1 hx
  exact g.steady_bind t name

variable {r : References} {e : Edges} {m : ModuleId}

/-- What code refers to is found name by name. -/
theorem exists_of_value_bindReferences (h : (g.bindReferences t r).value = .ok e) :
    (g.bindEager t r.eagerNames).value = .ok e.eager ∧
      (succeeding ((Ident.texts r.deferred).map (g.bind t))).value = .ok e.deferred := by
  obtain ⟨eager, heager, h⟩ := exists_of_value_bind (g.steady_bindEager t _)
    (fun _ => (g.steady_succeeding (steady_deferred _)).bind fun _ => .pure _) h
  obtain ⟨deferred, hlate, h⟩ :=
    exists_of_value_bind (g.steady_succeeding (steady_deferred _)) (fun _ => .pure _) h
  cases h
  exact ⟨heager, hlate⟩

theorem mem_eager_of_value_bindReferences (h : (g.bindReferences t r).value = .ok e) :
    k ∈ e.eager ↔ ∃ name ∈ r.eagerNames, g.Binds t name k :=
  mem_bindEager (exists_of_value_bindReferences h).1

theorem mem_of_value_bindReferences (h : (g.bindReferences t r).value = .ok e) :
    k ∈ e.eager ++ e.deferred ↔ ∃ name ∈ r.names, g.Binds t name k := by
  obtain ⟨heager, hlate⟩ := exists_of_value_bindReferences h
  rw [mem_append, mem_bindEager heager, mem_succeeding (steady_deferred _) hlate]
  simp only [References.names, References.eagerNames, mem_append, mem_map,
    exists_exists_and_eq_and, or_and_right, exists_or]
  rfl

/-! ### The dependencies that are found -/

/-- The dependencies of a key are those found in its module. -/
theorem value_edges_of_tables (h : g.freshTables k.module = .ok t) :
    (g.edges k).value = (g.edgesIn t k).value := by
  have hlookup : (g.lookup k.module).value = .ok t := by
    rw [value_lookup, h]
    rfl
  rw [value_edges, freshEdges]
  exact value_bind_of_ok (g.steady_lookup _) (fun t => g.steady_edgesIn t k) hlookup

/-- The module of a key that resolves can be loaded. -/
theorem exists_tables_of_value_edges (h : (g.edges k).value = .ok e) :
    ∃ t, g.freshTables k.module = .ok t ∧ (g.edgesIn t k).value = .ok e := by
  rw [value_edges, freshEdges] at h
  obtain ⟨t, ht, h⟩ := exists_of_value_bind (g.steady_lookup _) (fun t => g.steady_edgesIn t k) h
  rw [value_lookup] at ht
  refine ⟨t, ?_, h⟩
  cases hfresh : g.freshTables k.module with
  | error e => rw [hfresh] at ht; cases ht
  | ok t' => rw [hfresh] at ht; rw [Except.ok.inj ht]

theorem steady_members (names : List String) :
    ∀ x ∈ names.map fun name => some <$> g.exported t name, Steady g x := by
  intro x hx
  obtain ⟨name, -, rfl⟩ := mem_map.1 hx
  exact (g.steady_exported t name).map some

theorem steady_stars (stars : List Star) : ∀ x ∈ stars.map g.starKey, Steady g x := by
  intro x hx
  obtain ⟨s, -, rfl⟩ := mem_map.1 hx
  exact g.steady_starKey s

theorem value_member_eq_some {name : String} :
    (some <$> g.exported t name).value = .ok (some k) ↔ (g.exported t name).value = .ok k := by
  rw [← bind_pure_comp, value_bind (g.steady_exported t name) fun k => .pure (some k)]
  cases (g.exported t name).value with
  | error e => exact ⟨nofun, nofun⟩
  | ok k' => exact ⟨fun h => (by cases h; rfl), fun h => (by cases h; rfl)⟩

theorem value_starKey_eq_some {s : Star} :
    (g.starKey s).value = .ok (some k) ↔
    ∃ target t, s.source = .ok target ∧ g.freshTables target = .ok t ∧ k = .everything target := by
  unfold starKey
  split
  · next hsource =>
    simp only [hsource, reduceCtorEq, false_and, exists_false, iff_false]
    exact fun h => by cases h
  · next target hsource =>
    rw [value_bind (g.steady_lookup target) (fun _ => .pure _), value_lookup, hsource]
    cases ht : g.freshTables target with
    | error e =>
      refine ⟨nofun, ?_⟩
      rintro ⟨_, t, heq, ht', -⟩
      cases heq
      cases ht.symm.trans ht'
    | ok t =>
      constructor
      · intro h
        cases h
        exact ⟨target, t, rfl, ht, rfl⟩
      · rintro ⟨_, _, heq, -, rfl⟩
        cases heq
        rfl

/-- The dependencies of a module's exports: the exports that can be found, and the modules that
are re-exported as a whole. -/
theorem mem_of_value_edgesIn_everything (h : (g.edgesIn t (.everything m)).value = .ok e) :
    e.deferred = [] ∧
    (k ∈ e.eager ↔ (∃ name ∈ t.exports.keys, (g.exported t name).value = .ok k) ∨
      ∃ s ∈ t.stars, (g.starKey s).value = .ok (some k)) := by
  obtain ⟨names, hnames, h⟩ := exists_of_value_bind (g.steady_succeeding (steady_members _))
    (fun _ => (g.steady_succeeding (steady_stars _)).bind fun _ => .pure _) h
  obtain ⟨stars, hstars, h⟩ :=
    exists_of_value_bind (g.steady_succeeding (steady_stars _)) (fun _ => .pure _) h
  cases h
  refine ⟨rfl, ?_⟩
  rw [mem_append, mem_succeeding (steady_members _) hnames,
    mem_succeeding (steady_stars _) hstars]
  simp only [mem_map, exists_exists_and_eq_and, value_member_eq_some]

theorem value_starKey_ne_endless (s : Star) : (g.starKey s).value ≠ .error .endless := by
  unfold starKey
  split
  · exact nofun
  · next target _ =>
    rw [value_bind (g.steady_lookup target) (fun _ => .pure _), value_lookup]
    cases g.freshTables target with
    | error e => exact nofun
    | ok t => exact nofun

/-- The dependencies of a module's exports fail only where the search for one does not end. -/
theorem exists_of_value_edgesIn_everything_eq_error {e : Unresolved}
    (h : (g.edgesIn t (.everything m)).value = .error e) :
    e = .endless ∧ ∃ name ∈ t.exports.keys, (g.exported t name).value = .error .endless := by
  rw [edgesIn, value_bind_eq_error (g.steady_succeeding (steady_members _)) fun _ =>
    (g.steady_succeeding (steady_stars _)).bind fun _ => .pure _] at h
  rcases h with h | ⟨_, -, h⟩
  · obtain ⟨rfl, x, hx, hends⟩ := g.exists_of_value_succeeding_eq_error (steady_members _) h
    obtain ⟨name, hname, rfl⟩ := mem_map.1 hx
    rw [← bind_pure_comp,
      value_bind_eq_error (g.steady_exported t name) fun k => .pure (some k)] at hends
    rcases hends with hends | ⟨_, -, hends⟩
    · exact ⟨rfl, name, hname, hends⟩
    · cases hends
  · rw [value_bind_eq_error (g.steady_succeeding (steady_stars _)) fun _ => .pure _] at h
    rcases h with h | ⟨_, -, h⟩
    · obtain ⟨-, x, hx, hends⟩ := g.exists_of_value_succeeding_eq_error (steady_stars _) h
      obtain ⟨s, -, rfl⟩ := mem_map.1 hx
      exact absurd hends (value_starKey_ne_endless s)
    · cases h

/-- **The dependencies that are found are the keys that are used.** Of the dependencies, `pick`
takes those whose names are picked by `names`. -/
theorem uses_iff {names : References → List String} {pick : Edges → List BindingKey}
    (heager : ∀ e : Edges, e.deferred = [] → pick e = e.eager)
    (hpick : ∀ {t r e k}, (g.bindReferences t r).value = .ok e → (k ∈ pick e ↔ ∃ name ∈ names r, g.Binds t name k)) :
    g.Uses names k k' ↔ ∃ e, (g.edges k).value = .ok e ∧ k' ∈ pick e := by
  constructor
  · intro h
    cases h with
    | @whole m name t ht hwhole =>
      refine ⟨{ eager := [.body m] }, ?_, ?_⟩
      · rw [value_edges_of_tables ht, edgesIn, if_pos hwhole]
        rfl
      · rw [heager _ rfl]
        exact mem_singleton.2 rfl
    | declaration hres ht hwhole hused hk =>
      obtain ⟨e, he⟩ := hres
      refine ⟨e, he, ?_⟩
      rw [value_edges_of_tables ht, edgesIn, if_neg (by simp [hwhole])] at he
      exact (hpick he).2 ⟨_, hused, hk⟩
    | body hres ht hused hk =>
      obtain ⟨e, he⟩ := hres
      refine ⟨e, he, ?_⟩
      rw [value_edges_of_tables ht] at he
      exact (hpick he).2 ⟨_, hused, hk⟩
    | member hres ht hname hk =>
      obtain ⟨e, he⟩ := hres
      refine ⟨e, he, ?_⟩
      rw [value_edges_of_tables ht] at he
      obtain ⟨hnone, hmem⟩ := mem_of_value_edgesIn_everything he
      rw [heager e hnone]
      exact hmem.2 (.inl ⟨_, hname, hk⟩)
    | star hres ht hs hsource ht' =>
      -- A module that is re-exported as a whole counts only if it can be loaded.
      obtain ⟨e, he⟩ := hres
      refine ⟨e, he, ?_⟩
      rw [value_edges_of_tables ht] at he
      obtain ⟨hnone, hmem⟩ := mem_of_value_edgesIn_everything he
      rw [heager e hnone]
      exact hmem.2 (.inr ⟨_, hs, value_starKey_eq_some.2 ⟨_, _, hsource, ht', rfl⟩⟩)
  · rintro ⟨e, he, hmem⟩
    obtain ⟨t, ht, hedges⟩ := exists_tables_of_value_edges he
    cases k with
    | name m name =>
      -- Where a module runs as a whole, a name of it depends on the run and on nothing else.
      by_cases hwhole : g.runsWhole t
      · rw [edgesIn, if_pos hwhole] at hedges
        cases hedges
        rw [heager _ rfl, mem_singleton] at hmem
        rw [hmem]
        exact .whole ht hwhole
      · rw [edgesIn, if_neg hwhole] at hedges
        obtain ⟨used, hused, hk⟩ := (hpick hedges).1 hmem
        exact .declaration ⟨e, he⟩ ht (by simpa using hwhole) hused hk
    | body m =>
      obtain ⟨used, hused, hk⟩ := (hpick hedges).1 hmem
      exact .body ⟨e, he⟩ ht hused hk
    | everything m =>
      obtain ⟨hnone, hiff⟩ := mem_of_value_edgesIn_everything hedges (k := k')
      rw [heager e hnone] at hmem
      rcases hiff.1 hmem with ⟨name, hname, hk⟩ | ⟨s, hs, hk⟩
      · exact .member ⟨e, he⟩ ht hname hk
      · obtain ⟨target, t', hsource, ht', rfl⟩ := value_starKey_eq_some.1 hk
        exact .star ⟨e, he⟩ ht hs hsource ht'

/-- The dependencies that are found eager are the keys that are read at once. -/
theorem depends_iff : g.Depends k k' ↔ ∃ e, (g.edges k).value = .ok e ∧ k' ∈ e.eager :=
  uses_iff (fun _ _ => rfl) mem_eager_of_value_bindReferences

/-- The dependencies that are found are the keys that are read. -/
theorem refers_iff : g.Refers k k' ↔ ∃ e, (g.edges k).value = .ok e ∧ k' ∈ e.eager ++ e.deferred :=
  uses_iff (fun _ h => by rw [h, append_nil]) mem_of_value_bindReferences

theorem depends_iff_of_edges (h : (g.edges k).value = .ok e) : g.Depends k k' ↔ k' ∈ e.eager := by
  simp [depends_iff, h]

theorem refers_iff_of_edges (h : (g.edges k).value = .ok e) :
    g.Refers k k' ↔ k' ∈ e.eager ++ e.deferred := by
  simp [refers_iff, h]

end Graph
end AtomicStyles
