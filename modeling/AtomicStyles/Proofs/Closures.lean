import AtomicStyles.Proofs.Traversal

/-!
# Closures are exact

A resolver starts with the modules that others may have loaded, and resolves style calls
one after the other. Whatever it has resolved before, the closure that it finds for a call
holds exactly the keys that can be reached from the names of the argument, each once and
after all keys it depends on.

## Main definitions

* `Graph.Resolver` — what is known to a resolver after some style calls.
* `Graph.IsClosure` — the keys that a style call needs, in a right order.

## Main results

* `References.pairwise_distinctNames` — names without repetitions keep their order.
* `closure_exact` — closures are exact, and the same for every resolver.
-/

namespace AtomicStyles

open Script Resolving List

/-! ### Names without repetitions -/

namespace Script.References

theorem distinctNames_concat (names : List String) (name : String) :
    distinctNames (names ++ [name]) =
      if name ∈ distinctNames names then distinctNames names
      else distinctNames names ++ [name] := by
  simp only [distinctNames, foldl_append, foldl_cons, foldl_nil,
    contains_iff_mem]

@[simp] theorem mem_distinctNames {names : List String} {name : String} :
    name ∈ distinctNames names ↔ name ∈ names := by
  induction names using List.reverseRecOn with
  | nil => rfl
  | append_singleton names last ih =>
    rw [distinctNames_concat]
    split <;> grind

/-- Names without repetitions stand in the order in which they first came. -/
theorem pairwise_distinctNames (names : List String) :
    (distinctNames names).Pairwise fun a b => names.idxOf a < names.idxOf b := by
  induction names using List.reverseRecOn with
  | nil => exact .nil
  | append_singleton names last ih =>
    have hold : (distinctNames names).Pairwise fun a b =>
        (names ++ [last]).idxOf a < (names ++ [last]).idxOf b :=
      ih.imp_of_mem fun ha hb hlt => by
        rwa [idxOf_append_of_mem (mem_distinctNames.1 ha),
          idxOf_append_of_mem (mem_distinctNames.1 hb)]
    rw [distinctNames_concat]
    split
    · exact hold
    · next hlast =>
      rw [mem_distinctNames] at hlast
      refine pairwise_append.2 ⟨hold, pairwise_singleton _ _, fun a ha b hb => ?_⟩
      rw [mem_singleton.1 hb, idxOf_append_of_mem (mem_distinctNames.1 ha),
        idxOf_append_of_notMem hlast]
      exact Nat.lt_add_right _ (idxOf_lt_length_of_mem (mem_distinctNames.1 ha))

theorem nodup_distinctNames (names : List String) : (distinctNames names).Nodup :=
  (pairwise_distinctNames names).imp fun {a b} hlt heq => by
    rw [heq] at hlt
    exact lt_irrefl _ hlt

end Script.References

namespace Graph

/-! ### Resolvers -/

/-- What is known to a resolver: at first the modules that have been loaded, then what it has
learned from the style calls that it resolved. -/
inductive Resolver (g : Graph) : Resolution → Prop where
  | start {cache : ModuleCache} :
      (∀ id e, cache.get? id = some e → e = ModuleCache.loadModule g.loader g.features id) →
      Resolver g { cache }
  | resolve {r : Resolution} (writes : List (List String × List String)) (c : StyleCall) :
      Resolver g r → Resolver g ((g.closure writes c).result r).2

variable {g : Graph} {k k' : BindingKey}

theorem Resolver.sound {r : Resolution} (h : g.Resolver r) : r.Sound g := by
  induction h with
  | start hcache => exact ⟨hcache, fun _ _ he => by cases he⟩
  | resolve writes c _ ih => exact (g.steady_closure writes c).sound _ ih

/-- Whatever a resolver has resolved before, it answers as if nothing were known. -/
theorem Resolver.result_closure {r : Resolution} (h : g.Resolver r)
    (writes : List (List String × List String)) (c : StyleCall) :
    ((g.closure writes c).result r).1 = (g.closure writes c).value :=
  (g.steady_closure writes c).value_eq r h.sound

/-! ### Exact closures -/

/-- A key can be reached from the names of a style call: from those that `names` picks of its
references, along the keys that are used in the same way. -/
def CallReaches (g : Graph) (names : References → List String) (c : StyleCall) (k : BindingKey) :
    Prop :=
  ∃ name ∈ names c.references, ∃ root, g.Binds g.entry name root ∧
    Relation.ReflTransGen (g.Uses names) root k

/-- The closure of a style call: the keys that are read when the argument is evaluated, in an
order in which they can be evaluated, the keys that may be read later, and their modules. -/
structure IsClosure (g : Graph) (c : StyleCall) (closure : Closure) : Prop where
  nodup_order : closure.order.Nodup
  mem_order_iff : ∀ k, k ∈ closure.order ↔ g.CallReaches References.eagerNames c k
  depends_before : ∀ before k after, closure.order = before ++ k :: after →
    ∀ k', g.Depends k k' → k' ∈ before
  nodup_deferred : closure.deferred.Nodup
  disjoint : closure.order.Disjoint closure.deferred
  mem_iff : ∀ k, k ∈ closure.order ++ closure.deferred ↔ g.CallReaches References.names c k
  nodup_modules : closure.modules.Nodup
  mem_modules_iff : ∀ m, m ∈ closure.modules ↔
    ∃ k ∈ closure.order ++ closure.deferred, k.module = m
  /-- Modules stand in the order in which their keys first appear. -/
  pairwise_modules : closure.modules.Pairwise fun m m' =>
    ((closure.order ++ closure.deferred).map BindingKey.module).idxOf m <
      ((closure.order ++ closure.deferred).map BindingKey.module).idxOf m'

/-- What is read at once is read. -/
theorem Depends.refers (h : g.Depends k k') : g.Refers k k' := by
  obtain ⟨e, he, hk'⟩ := depends_iff.1 h
  exact refers_iff.2 ⟨e, he, mem_append_left _ hk'⟩

/-- The keys of the references that are picked are the roots. -/
theorem callReaches_iff {names : References → List String} {c : StyleCall}
    {roots : List BindingKey}
    (hroots : ∀ k, k ∈ roots ↔ ∃ name ∈ names c.references, g.Binds g.entry name k) :
    g.CallReaches names c k ↔ Reachable (g.Uses names) roots k := by
  constructor
  · rintro ⟨name, hname, root, hroot, hpath⟩
    exact ⟨root, (hroots root).2 ⟨name, hname, hroot⟩, hpath⟩
  · rintro ⟨root, hroot, hpath⟩
    obtain ⟨name, hname, hroot⟩ := (hroots root).1 hroot
    exact ⟨name, hname, root, hroot, hpath⟩

/-- **The closure that is found is exact.** -/
theorem isClosure_of_value_closure {writes : List (List String × List String)} {c : StyleCall}
    {closure : Closure} (h : (g.closure writes c).value = .ok closure) : g.IsClosure c closure := by
  obtain ⟨roots, reached, hroots, horder, hreaching, hdeferred, hmodules⟩ :=
    exists_of_value_closure h
  have hvisited := visited_roots g g.limit roots.eager
  rw [horder] at hvisited
  obtain ⟨hordered, -, hkeys, hnew⟩ := hvisited
  have hmem : ∀ k, k ∈ closure.order ↔ Reachable g.Depends roots.eager k := by
    refine fun k => ⟨fun hk => ?_, ?_⟩
    · exact (hnew k hk).elim (fun hk => by cases hk) And.right
    · rintro ⟨root, hroot, hpath⟩
      exact hordered.mem_of_reflTransGen (hkeys hroot) hpath
  -- The second walk comes to all keys of the order, so filtering them out loses none.
  have hsub : ∀ k ∈ closure.order, k ∈ reached := by
    intro k hk
    obtain ⟨root, hroot, hpath⟩ := (hmem k).1 hk
    exact hreaching.mem_iff.2 ⟨root, mem_append_left _ hroot,
      Relation.ReflTransGen.mono (fun _ _ => Depends.refers) _ _ hpath⟩
  have hall : ∀ k, k ∈ closure.order ++ closure.deferred ↔ k ∈ reached := by
    intro k
    have := hsub k
    rw [hdeferred]
    simp only [mem_append, mem_filter, Bool.not_eq_true', contains_eq_mem,
      decide_eq_false_iff_not]
    tauto
  exact {
    nodup_order := hordered.nodup
    mem_order_iff := fun k => by
      rw [hmem, callReaches_iff fun k => mem_eager_of_value_bindReferences hroots]
      rfl
    depends_before := fun before k after heq k' hk' => hordered.mem_before heq hk'
    nodup_deferred := by
      rw [hdeferred]
      exact hreaching.nodup.filter _
    disjoint := fun k hk hk' => by
      rw [hdeferred] at hk'
      simp [hk] at hk'
    mem_iff := fun k => by
      rw [hall, hreaching.mem_iff, callReaches_iff fun k => mem_of_value_bindReferences hroots]
      rfl
    nodup_modules := by
      rw [hmodules]
      exact References.nodup_distinctNames _
    mem_modules_iff := fun m => by
      rw [hmodules, modulesOf, References.mem_distinctNames, mem_map]
    pairwise_modules := by
      conv => arg 2; rw [hmodules]
      exact References.pairwise_distinctNames _ }

end Graph

/-- **Closures are exact.** For every resolver, a closure that it finds is the one that is found
when nothing is known. Its order holds exactly the keys that can be reached from the names that
the argument reads at once, each one after all keys it depends on. Its order and its deferred
keys together hold exactly the keys that can be reached from all names of the argument. -/
theorem closure_exact {g : Graph} {r : Resolution} {writes : List (List String × List String)}
    {c : StyleCall} {closure : Closure} (hr : g.Resolver r)
    (h : ((g.closure writes c).result r).1 = .ok closure) :
    ((g.closure writes c).result {}).1 = .ok closure ∧ g.IsClosure c closure := by
  rw [hr.result_closure] at h
  exact ⟨h, Graph.isClosure_of_value_closure h⟩

/-- `const a = b; const b = () => { return c }; const c = null; css(a)`. -/
def chainUnit : Module where
  items := [
    .stmt (.decl (.var .const [.mk (.ident ⟨"a", 0⟩) (some (.ident ⟨"b", 1⟩))] false)),
    .stmt (.decl (.var .const [.mk (.ident ⟨"b", 2⟩)
      (some (.arrow [] (.block [.ret (some (.ident ⟨"c", 3⟩))]) false))] false)),
    .stmt (.decl (.var .const [.mk (.ident ⟨"c", 4⟩) (some .null)] false)),
    .stmt (.expr (.call (.ident ⟨"css", 5⟩) [.ident ⟨"a", 6⟩] ⟨5, 7⟩) ⟨5, 7⟩)]

/-- The graph of this unit alone. -/
def chainGraph : Graph where
  loader := {}
  features := {}
  entry := Tables.build "/unit" chainUnit fun _ => .ok "/lib"

/-- The call `css(a)`. -/
def chainCall : StyleCall where
  span := ⟨5, 7⟩
  argument := .ident ⟨"a", 6⟩
  references := { eager := [⟨"a", 6⟩] }
  innerNames := []

/-- A second look at the same call gives the same exact closure. -/
theorem closure_exact_chain : ∃ r, chainGraph.Resolver r ∧ ∃ closure,
    ((chainGraph.closure [] chainCall).result r).1 = .ok closure ∧
      closure.order = [.name "/unit" "b", .name "/unit" "a"] ∧
      closure.deferred = [.name "/unit" "c"] ∧ chainGraph.IsClosure chainCall closure := by
  have hr : chainGraph.Resolver ((chainGraph.closure [] chainCall).result {}).2 :=
    .resolve [] chainCall (.start nofun)
  have hclosure : ((chainGraph.closure [] chainCall).result
      ((chainGraph.closure [] chainCall).result {}).2).1 =
      .ok { order := [.name "/unit" "b", .name "/unit" "a"], deferred := [.name "/unit" "c"],
            modules := ["/unit"] } := by cbv
  exact ⟨_, hr, _, hclosure, rfl, rfl, (closure_exact hr hclosure).2⟩

end AtomicStyles
