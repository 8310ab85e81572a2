import AtomicStyles.Proofs.Closures
import AtomicStyles.Proofs.Ending

/-!
# Circular dependencies are reported exactly

A style call is refused as circular where a key that it reads at once depends on itself,
and only there. The chain that is reported starts and ends with the same key, and each of
its keys depends on the next one. Names that are read inside functions never count.

## Main definitions

* `Graph.Readable` — a style call whose names and dependencies can all be found.

## Main results

* `Graph.isCycle_of_value_closure` — a reported chain is a cycle.
* `Graph.circular_iff` — a cycle is reported where there is one.
* `cycles_reported` — both, for every resolver.
-/

namespace AtomicStyles

open Script Resolving List

namespace Graph

variable {g : Graph} {ids : Finset ModuleId} {c : StyleCall}
  {writes : List (List String × List String)}

/-- A style call outside all functions whose names can be found, as well as the dependencies of
all keys that it reads at once. -/
structure Readable (g : Graph) (c : StyleCall) : Prop where
  outer : c.innerNames = []
  binds : ∀ name ∈ c.references.eagerNames, ∃ k, (g.bind g.entry name).value = .ok k
  resolves : ∀ k, g.CallReaches References.eagerNames c k → g.Resolves k

/-- A cycle is reported by the walk that puts keys in order, and by nothing else. -/
theorem value_closure_eq_circular_iff {chain : List BindingKey} :
    (g.closure writes c).value = .error (.circular chain) ↔ c.innerNames = [] ∧
      ∃ roots, (g.bindReferences g.entry c.references).value = .ok roots ∧
        (roots.eager.foldlM (g.visit g.limit []) []).value = .error (.circular chain) := by
  constructor
  · intro h
    cases refuses_of_value_closure h with
    | roots hroots =>
      obtain ⟨name, hname, -⟩ := exists_of_value_bindReferences_eq_error hroots
      rcases isLookup_of_value_bind_eq_error hname with he | he <;> cases he
    | order hnames hroots horder => exact ⟨hnames, _, hroots, horder⟩
    | reached _ hreach => cases value_reach_eq_error hreach
    | written hwrites =>
      rcases cases_of_value_checkWrites_eq_error hwrites with ⟨_, he⟩ | ⟨he, -⟩ <;> cases he
  · rintro ⟨hnames, roots, hroots, h⟩
    rw [value_closure hnames, bind_eq_error_iff]
    refine .inr ⟨roots, hroots, ?_⟩
    rw [bind_eq_error_iff]
    exact .inl h

theorem isCycle_of_value_closure {chain : List BindingKey}
    (h : (g.closure writes c).value = .error (.circular chain)) : g.IsCycle chain := by
  obtain ⟨-, roots, -, h⟩ := value_closure_eq_circular_iff.1 h
  have hvisited := visited_roots g g.limit roots.eager
  rw [h] at hvisited
  cases hvisited with
  | cycle _ hcycle => exact hcycle
  | failed _ he => rcases isLookup_of_value_edges_eq_error he with he | he <;> cases he

/-- What a readable style call starts with can be found. -/
theorem Readable.exists_roots (hc : g.Readable c) (h : g.Settled ids) (hspans : g.Spans ids) :
    ∃ roots, (g.bindReferences g.entry c.references).value = .ok roots := by
  cases hroots : (g.bindReferences g.entry c.references).value with
  | ok roots => exact ⟨roots, rfl⟩
  | error e =>
    obtain ⟨name, he, hname | rfl⟩ := exists_of_value_bindReferences_eq_error hroots
    · obtain ⟨k, hk⟩ := hc.binds name hname
      cases he.symm.trans hk
    · exact absurd he (h.bind_ne_endless hspans.holds_entry name)

theorem circular_iff (h : g.Settled ids) (hspans : g.Spans ids) (hc : g.Readable c) :
    (∃ chain, (g.closure writes c).value = .error (.circular chain)) ↔
      ∃ k, g.CallReaches References.eagerNames c k ∧ Relation.TransGen g.Depends k k := by
  obtain ⟨roots, hroots⟩ := hc.exists_roots h hspans
  have hreaches : ∀ k, g.CallReaches References.eagerNames c k ↔
      Reachable g.Depends roots.eager k :=
    fun k => callReaches_iff fun k => mem_eager_of_value_bindReferences hroots
  have hwalk : ∀ chain, (g.closure writes c).value = .error (.circular chain) ↔
      (roots.eager.foldlM (g.visit g.limit []) []).value = .error (.circular chain) := by
    intro chain
    rw [value_closure_eq_circular_iff, hroots]
    exact ⟨fun ⟨_, _, heq, hvisit⟩ => Except.ok.inj heq ▸ hvisit,
      fun hvisit => ⟨hc.outer, roots, rfl, hvisit⟩⟩
  have hvisited := visited_roots g g.limit roots.eager
  simp only [hwalk, hreaches]
  cases horder : (roots.eager.foldlM (g.visit g.limit []) []).value with
  | ok order =>
    -- The keys have been put in order, so none of them depends on itself.
    rw [horder] at hvisited
    obtain ⟨hordered, -, hkeys, -⟩ := hvisited
    refine ⟨nofun, ?_⟩
    rintro ⟨k, ⟨root, hroot, hpath⟩, hcycle⟩
    exact absurd hcycle (hordered.not_transGen (hordered.mem_of_reflTransGen (hkeys hroot) hpath))
  | error e =>
    rw [horder] at hvisited
    cases hvisited with
    | @cycle k chain hk hcycle =>
      exact ⟨fun _ => ⟨k, hk, hcycle.transGen⟩, fun _ => ⟨k :: chain, rfl⟩⟩
    | failed hk he =>
      obtain ⟨e', he'⟩ := hc.resolves _ ((hreaches _).2 hk)
      cases he.symm.trans he'
    | deep =>
      -- The walk ends in a graph where all searches do.
      refine absurd horder (h.visit_ne_endless hspans fun k hk => ?_)
      exact Settled.mem_keysWithin_of_roots hspans hroots k (mem_append_left _ hk)

end Graph

/-- **Cycles are reported exactly.** Where the modules around a unit are finitely many and each
search for an export ends, every resolver that may search far enough refuses a readable style call
as circular if and only if a key that it reads at once depends on itself. On every graph, a chain
that is reported holds at least two keys, ends where it starts, and each of its keys depends on
the next one. -/
theorem cycles_reported :
    (∀ (g : Graph) (ids : Finset ModuleId), g.Spans ids → g.ExportsEnd ids →
      ∀ᶠ limit in Filter.atTop, ∀ r, (g.withLimit limit).Resolver r → ∀ writes c,
        (g.withLimit limit).Readable c →
        ((∃ chain, (((g.withLimit limit).closure writes c).result r).1 = .error (.circular chain)) ↔
          ∃ k, (g.withLimit limit).CallReaches References.eagerNames c k ∧
            Relation.TransGen (g.withLimit limit).Depends k k)) ∧
    (∀ (g : Graph) (r : Resolution), g.Resolver r → ∀ writes c chain,
      ((g.closure writes c).result r).1 = .error (.circular chain) →
      2 ≤ chain.length ∧ chain.head? = chain.getLast? ∧ chain.IsChain g.Depends) := by
  refine ⟨fun g ids hspans hends => ?_, fun g r hr writes c chain h => ?_⟩
  · refine (Graph.eventually_settled hspans hends).mono fun limit hsettled r hr writes c hc => ?_
    simp only [hr.result_closure]
    exact Graph.circular_iff hsettled ⟨hspans.entry, hspans.closed⟩ hc
  · rw [hr.result_closure] at h
    obtain ⟨hlength, hends, hchain⟩ := Graph.isCycle_of_value_closure h
    exact ⟨hlength, hends, hchain⟩

/-- `const a = b; const b = a; css(a)`. -/
def loopUnit : Module where
  items := [
    .stmt (.decl (.var .const [.mk (.ident ⟨"a", 0⟩) (some (.ident ⟨"b", 1⟩))] false)),
    .stmt (.decl (.var .const [.mk (.ident ⟨"b", 2⟩) (some (.ident ⟨"a", 3⟩))] false)),
    .stmt (.expr (.call (.ident ⟨"css", 4⟩) [.ident ⟨"a", 5⟩] ⟨4, 6⟩) ⟨4, 6⟩)]

/-- The graph of this unit alone. -/
def loopGraph : Graph where
  loader := {}
  features := {}
  entry := Tables.build "/unit" loopUnit fun _ => .ok "/lib"

/-- The call `css(a)`. -/
def loopCall : StyleCall where
  span := ⟨4, 6⟩
  argument := .ident ⟨"a", 5⟩
  references := { eager := [⟨"a", 5⟩] }
  innerNames := []

theorem edges_loop (limit : Nat) :
    ((loopGraph.withLimit limit).edges (.name "/unit" "a")).value =
      .ok { eager := [.name "/unit" "b"] } ∧
    ((loopGraph.withLimit limit).edges (.name "/unit" "b")).value =
      .ok { eager := [.name "/unit" "a"] } := ⟨by cbv, by cbv⟩

theorem bind_loop (limit : Nat) :
    ((loopGraph.withLimit limit).bind loopGraph.entry "a").value =
      .ok (some (.name "/unit" "a")) := by
  cbv

theorem entry_loop : loopGraph.entry.imports = {} ∧ loopGraph.entry.exports = {} ∧
    loopGraph.entry.stars = [] := ⟨by cbv, by cbv, by cbv⟩

theorem spans_loop : loopGraph.Spans {loopGraph.entry.id} where
  entry := Finset.mem_singleton.2 rfl
  closed id hid t ht target htarget := by
    rw [Finset.mem_singleton.1 hid, Graph.freshTables_entry] at ht
    cases ht
    obtain ⟨himports, hexports, hstars⟩ := entry_loop
    cases htarget with
    | imported h => rw [himports] at h; cases h
    | reexported h => rw [hexports] at h; cases h
    | star h => rw [hstars] at h; cases h

theorem exportsEnd_loop : loopGraph.ExportsEnd {loopGraph.entry.id} := by
  intro id hid t ht name
  rw [Finset.mem_singleton.1 hid, Graph.freshTables_entry] at ht
  cases ht
  obtain ⟨-, hexports, hstars⟩ := entry_loop
  refine ⟨1, fun h => ?_⟩
  replace h : (Query.exported loopGraph.entry name).answer loopGraph 1 [] = .error .endless := h
  rw [Query.answer_exported_succ, if_neg not_mem_nil, hexports, hstars] at h
  dsimp only [OrderedMap.get?, OrderedMap.find] at h
  split at h <;> cases h

theorem readable_loop (limit : Nat) : (loopGraph.withLimit limit).Readable loopCall where
  outer := rfl
  binds name hname := by
    rw [mem_singleton.1 hname]
    exact ⟨_, bind_loop limit⟩
  resolves k hk := by
    obtain ⟨name, hname, root, hroot, hpath⟩ := hk
    rw [mem_singleton.1 hname] at hroot
    cases hroot.symm.trans (bind_loop limit)
    have hkey : k = .name "/unit" "a" ∨ k = .name "/unit" "b" := by
      induction hpath with
      | refl => exact .inl rfl
      | tail _ hstep ih =>
        rcases ih with rfl | rfl
        · have hnext := (Graph.depends_iff_of_edges (edges_loop limit).1).1 hstep
          exact .inr (mem_singleton.1 hnext)
        · have hnext := (Graph.depends_iff_of_edges (edges_loop limit).2).1 hstep
          exact .inl (mem_singleton.1 hnext)
    rcases hkey with rfl | rfl
    · exact ⟨_, (edges_loop limit).1⟩
    · exact ⟨_, (edges_loop limit).2⟩

/-- The two names are reported as a cycle. -/
theorem cycles_reported_loop : ∃ limit chain,
    (((loopGraph.withLimit limit).closure [] loopCall).result {}).1 = .error (.circular chain) ∧
      2 ≤ chain.length ∧ chain.head? = chain.getLast? ∧
      chain.IsChain (loopGraph.withLimit limit).Depends := by
  obtain ⟨limit, h⟩ := (cycles_reported.1 loopGraph _ spans_loop exportsEnd_loop).exists
  have hr : (loopGraph.withLimit limit).Resolver {} := .start nofun
  have hcycle : Relation.TransGen (loopGraph.withLimit limit).Depends (.name "/unit" "a")
      (.name "/unit" "a") :=
    .tail (.single (Graph.depends_iff.2 ⟨_, (edges_loop limit).1, mem_cons_self⟩))
      (Graph.depends_iff.2 ⟨_, (edges_loop limit).2, mem_cons_self⟩)
  obtain ⟨chain, hchain⟩ := (h {} hr [] loopCall (readable_loop limit)).2
    ⟨_, ⟨"a", mem_cons_self, _, bind_loop limit, .refl⟩, hcycle⟩
  exact ⟨limit, chain, hchain, cycles_reported.2 _ {} hr [] loopCall chain hchain⟩

end AtomicStyles
