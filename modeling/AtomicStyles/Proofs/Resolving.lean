import Mathlib
import AtomicStyles.Graph.Closure

/-!
# What is known does not change what is found

Style calls are resolved one after the other, and what one search learns is kept for the
next: loaded modules and the dependencies of keys. A `Resolution` is sound when it holds
nothing but what a search from scratch would find. From every sound resolution a search
gives the same answer, the one it gives when nothing is known.

## Main definitions

* `Resolving.value` — the answer of a search when nothing is known.
* `Resolution.Sound` — only what a search from scratch would find is known.
* `Resolving.Steady` — the answer of a search does not depend on what is known.

## Main results

* `Graph.steady_closure` — the closure of a style call does not depend on what is known.
* `Resolving.value_bind` — a steady search answers step by step.
-/

namespace AtomicStyles

open Script List

namespace Resolving

variable {α β : Type}

/-- The answer of a search and what is known after it. -/
def result (x : Resolving α) (r : Resolution) : Except Unresolved α × Resolution := x.run r

def value (x : Resolving α) : Except Unresolved α := (x.result {}).1

theorem result_bind (x : Resolving α) (f : α → Resolving β) (r : Resolution) :
    (x >>= f).result r = match x.result r with
      | (.ok a, r) => (f a).result r
      | (.error e, r) => (.error e, r) := by
  simp only [result, ExceptT.run, bind, ExceptT.bind, ExceptT.mk, StateT.bind]
  rcases x r with ⟨_ | _, r'⟩ <;> rfl

@[simp] theorem result_pure (a : α) (r : Resolution) :
    (pure a : Resolving α).result r = (.ok a, r) := rfl

@[simp] theorem result_throw (e : Unresolved) (r : Resolution) :
    (throw e : Resolving α).result r = (.error e, r) := rfl

@[simp] theorem result_ofExcept (e : Except Unresolved α) (r : Resolution) :
    (ofExcept e : Resolving α).result r = (e, r) := by
  cases e <;> rfl

@[simp] theorem result_outcome (x : Resolving α) (r : Resolution) :
    x.outcome.result r = (Unresolved.settle (x.result r).1, (x.result r).2) :=
  result_ofExcept (Unresolved.settle (x.result r).1) (x.result r).2

@[simp] theorem result_get (r : Resolution) : (get : Resolving Resolution).result r = (.ok r, r) :=
  rfl

@[simp] theorem result_modify (f : Resolution → Resolution) (r : Resolution) :
    (modify f : Resolving PUnit).result r = (.ok ⟨⟩, f r) := rfl

@[simp] theorem value_pure (a : α) : (pure a : Resolving α).value = .ok a := rfl

@[simp] theorem value_throw (e : Unresolved) : (throw e : Resolving α).value = .error e := rfl

@[simp] theorem value_ofExcept (e : Except Unresolved α) :
    (ofExcept e : Resolving α).value = e := by
  simp [value]

@[simp] theorem value_outcome (x : Resolving α) : x.outcome.value = Unresolved.settle x.value :=
  congrArg Prod.fst (result_outcome x {})

end Resolving

/-! ### Answers that are made in steps -/

section Steps

variable {ε α β : Type} {x : Except ε α} {f : α → Except ε β}

/-- Two steps succeed together where each one does. -/
theorem bind_eq_ok_iff {b : β} : x >>= f = .ok b ↔ ∃ a, x = .ok a ∧ f a = .ok b := by
  cases x with
  | error e => exact ⟨nofun, nofun⟩
  | ok a => exact ⟨fun h => ⟨a, rfl, h⟩, fun ⟨_, ha, h⟩ => Except.ok.inj ha ▸ h⟩

/-- Two steps fail together where one of them does. -/
theorem bind_eq_error_iff {e : ε} :
    x >>= f = .error e ↔ x = .error e ∨ ∃ a, x = .ok a ∧ f a = .error e := by
  cases x with
  | error e' =>
    refine ⟨fun h => .inl (congrArg Except.error (Except.error.inj h)), ?_⟩
    rintro (h | ⟨a, ha, -⟩)
    · exact congrArg Except.error (Except.error.inj h)
    · cases ha
  | ok a =>
    refine ⟨fun h => .inr ⟨a, rfl, h⟩, ?_⟩
    rintro (h | ⟨_, ha, h⟩)
    · cases h
    · exact Except.ok.inj ha ▸ h

end Steps

/-! ### Searches that end -/

namespace Unresolved

variable {α : Type} {x : Except Unresolved α}

/-- What ends has an outcome. -/
theorem settle_of_ne (h : x ≠ .error .endless) : settle x = .ok x := by
  rcases x with (_ | _ | _ | _ | _ | _ | _) | a
  all_goals first | rfl | exact (h rfl).elim

theorem settle_eq_ok_iff {y : Except Unresolved α} :
    settle x = .ok y ↔ x = y ∧ x ≠ .error .endless := by
  by_cases h : x = .error .endless
  · rw [h]
    exact ⟨fun he => (by cases he), fun he => (he.2 rfl).elim⟩
  · rw [settle_of_ne h]
    exact ⟨fun he => ⟨Except.ok.inj he, h⟩, fun he => congrArg Except.ok he.1⟩

/-- Only what does not end has no outcome. -/
theorem settle_eq_error {e : Unresolved} (h : settle x = .error e) :
    x = .error .endless ∧ e = .endless := by
  by_cases hx : x = .error .endless
  · rw [hx] at h
    exact ⟨hx, (Except.error.inj h).symm⟩
  · rw [settle_of_ne hx] at h
    cases h

end Unresolved

/-! ### Sound resolutions -/

structure Resolution.Sound (g : Graph) (r : Resolution) : Prop where
  cache : ∀ id e, r.cache.get? id = some e → e = ModuleCache.loadModule g.loader g.features id
  edges : ∀ k e, r.edges.get? k = some e → e = (g.freshEdges k).value

theorem Resolution.Sound.empty (g : Graph) : ({} : Resolution).Sound g where
  cache _ _ h := by cases h
  edges _ _ h := by cases h

namespace Resolving

variable {α β : Type} {g : Graph}

/-- The answer of the search does not depend on what is known, as long as that is sound, and what
it learns is sound. -/
structure Steady (g : Graph) (x : Resolving α) : Prop where
  value_eq : ∀ r, r.Sound g → (x.result r).1 = x.value
  sound : ∀ r, r.Sound g → (x.result r).2.Sound g

theorem Steady.pure (a : α) : Steady g (pure a : Resolving α) := ⟨fun _ _ => rfl, fun _ h => h⟩

theorem Steady.throw (e : Unresolved) : Steady g (throw e : Resolving α) :=
  ⟨fun _ _ => rfl, fun _ h => h⟩

theorem Steady.ofExcept (e : Except Unresolved α) : Steady g (ofExcept e : Resolving α) :=
  ⟨fun _ _ => by simp, fun _ h => by simpa using h⟩

variable {x : Resolving α} {f : α → Resolving β} {as : List α}

theorem Steady.outcome {x : Resolving α} (h : Steady g x) : Steady g x.outcome where
  value_eq r hr := by rw [result_outcome, value_outcome, h.value_eq r hr]
  sound r hr := by rw [result_outcome]; exact h.sound r hr

/-- After its first step a steady search goes on with the answer of that step. -/
theorem Steady.result_bind_eq (hx : Steady g x) (f : α → Resolving β) {r : Resolution}
    (hr : r.Sound g) :
    (x >>= f).result r = match x.value with
      | .ok a => (f a).result (x.result r).2
      | .error e => (.error e, (x.result r).2) := by
  rw [result_bind, ← hx.value_eq r hr]
  rcases x.result r with ⟨_ | _, r'⟩ <;> rfl

theorem value_bind (hx : Steady g x) (hf : ∀ a, Steady g (f a)) :
    (x >>= f).value = x.value >>= fun a => (f a).value := by
  have hr := hx.sound {} (.empty g)
  rw [value, hx.result_bind_eq f (.empty g)]
  cases x.value with
  | error e => rfl
  | ok a => exact (hf a).value_eq _ hr

theorem Steady.bind {x : Resolving α} {f : α → Resolving β} (hx : Steady g x)
    (hf : ∀ a, Steady g (f a)) : Steady g (x >>= f) where
  value_eq r hr := by
    rw [value_bind hx hf, hx.result_bind_eq f hr]
    cases x.value with
    | error e => rfl
    | ok a => exact (hf a).value_eq _ (hx.sound r hr)
  sound r hr := by
    rw [hx.result_bind_eq f hr]
    cases x.value with
    | error e => exact hx.sound r hr
    | ok a => exact (hf a).sound _ (hx.sound r hr)

/-- After a first step that succeeds, a steady search answers as the rest of it. -/
theorem value_bind_of_ok (hx : Steady g x) (hf : ∀ a, Steady g (f a)) {a : α}
    (h : x.value = .ok a) : (x >>= f).value = (f a).value := by
  rw [value_bind hx hf, h]
  rfl

/-- A steady search that succeeds has succeeded in each step. -/
theorem exists_of_value_bind (hx : Steady g x) (hf : ∀ a, Steady g (f a)) {b : β}
    (h : (x >>= f).value = .ok b) : ∃ a, x.value = .ok a ∧ (f a).value = .ok b := by
  rw [value_bind hx hf] at h
  exact bind_eq_ok_iff.1 h

/-- A steady search that fails has failed in one of its steps. -/
theorem value_bind_eq_error (hx : Steady g x) (hf : ∀ a, Steady g (f a)) {e : Unresolved} :
    (x >>= f).value = .error e ↔
      x.value = .error e ∨ ∃ a, x.value = .ok a ∧ (f a).value = .error e := by
  rw [value_bind hx hf, bind_eq_error_iff]

theorem Steady.map (hx : Steady g x) (f : α → β) : Steady g (f <$> x) := by
  rw [← bind_pure_comp]
  exact hx.bind fun a => .pure (f a)

theorem Steady.mapM (hf : ∀ a ∈ as, Steady g (f a)) : Steady g (as.mapM f) := by
  induction as with
  | nil => exact .pure []
  | cons a as ih =>
    rw [mapM_cons]
    exact (hf a (.head _)).bind fun b =>
      (ih fun a ha => hf a (.tail _ ha)).bind fun bs => .pure (b :: bs)

theorem Steady.forM {f : α → Resolving PUnit} (hf : ∀ a, Steady g (f a)) (as : List α) :
    Steady g (as.forM f) := by
  induction as with
  | nil => exact .pure PUnit.unit
  | cons a as ih => exact (hf a).bind fun _ => ih

theorem Steady.foldlM {f : β → α → Resolving β} (hf : ∀ b a, Steady g (f b a)) (b : β)
    (as : List α) : Steady g (as.foldlM f b) := by
  induction as generalizing b with
  | nil => exact .pure b
  | cons a as ih =>
    rw [foldlM_cons]
    exact (hf b a).bind fun b => ih b

/-- Searches that succeed together succeed one by one, with the answers in their order. -/
theorem map_value_of_value_mapM {bs : List β} (hf : ∀ a ∈ as, Steady g (f a))
    (h : (as.mapM f).value = .ok bs) : as.map (fun a => (f a).value) = bs.map .ok := by
  induction as generalizing bs with
  | nil =>
    cases h
    rfl
  | cons a as ih =>
    have hrest : ∀ a ∈ as, Steady g (f a) := fun a ha => hf a (.tail _ ha)
    rw [mapM_cons] at h
    obtain ⟨b, hb, h⟩ := exists_of_value_bind (hf a (.head _))
      (fun b => (Steady.mapM hrest).bind fun bs => .pure (b :: bs)) h
    obtain ⟨bs', hbs, h⟩ := exists_of_value_bind (Steady.mapM hrest) (fun bs => .pure (b :: bs)) h
    cases h
    rw [map_cons, map_cons, hb, ih hrest hbs]

/-- The answers of searches that all succeed. -/
theorem mem_iff_of_value_mapM {bs : List β} (hf : ∀ a ∈ as, Steady g (f a))
    (h : (as.mapM f).value = .ok bs) {b : β} : b ∈ bs ↔ ∃ a ∈ as, (f a).value = .ok b := by
  rw [← mem_map_of_injective (fun _ _ => Except.ok.inj) (f := Except.ok (ε := Unresolved)),
    ← map_value_of_value_mapM hf h, mem_map]

/-- Of searches that fail together, one fails. -/
theorem exists_of_value_mapM_eq_error {e : Unresolved} (hf : ∀ a ∈ as, Steady g (f a))
    (h : (as.mapM f).value = .error e) : ∃ a ∈ as, (f a).value = .error e := by
  induction as with
  | nil => cases h
  | cons a as ih =>
    have hrest : ∀ a ∈ as, Steady g (f a) := fun a ha => hf a (.tail _ ha)
    rw [mapM_cons, value_bind_eq_error (hf a (.head _)) fun b =>
      (Steady.mapM hrest).bind fun bs => .pure (b :: bs)] at h
    rcases h with h | ⟨b, -, h⟩
    · exact ⟨a, .head _, h⟩
    · rw [value_bind_eq_error (.mapM hrest) fun bs => .pure (b :: bs)] at h
      rcases h with h | ⟨bs, -, h⟩
      · obtain ⟨a', ha', h⟩ := ih hrest h
        exact ⟨a', .tail _ ha', h⟩
      · cases h

/-- A search that goes through a list answers step by step. -/
theorem value_foldlM {f : β → α → Resolving β} (hf : ∀ b a, Steady g (f b a)) (b : β)
    (as : List α) : (as.foldlM f b).value = as.foldlM (fun b a => (f b a).value) b := by
  induction as generalizing b with
  | nil => rfl
  | cons a as ih =>
    rw [foldlM_cons, foldlM_cons, value_bind (hf b a) fun b => Steady.foldlM hf b as]
    exact bind_congr ih

end Resolving

/-! ### Every search over a graph is steady -/

namespace Graph

open Resolving

variable (g : Graph)

/-- The tables of a module as they are loaded when nothing is known. -/
def freshTables (id : ModuleId) : Except LoadError Tables :=
  if id = g.entry.id then .ok g.entry else ModuleCache.loadModule g.loader g.features id

/-- A cache that holds only what is loaded from scratch answers so and stays so. -/
theorem load_eq {c : ModuleCache}
    (hc : ∀ id e, c.get? id = some e → e = ModuleCache.loadModule g.loader g.features id)
    (id : ModuleId) :
    (c.load g.loader g.features id).1 = ModuleCache.loadModule g.loader g.features id ∧
      ∀ id' e, (c.load g.loader g.features id).2.get? id' = some e →
        e = ModuleCache.loadModule g.loader g.features id' := by
  unfold ModuleCache.load Memo.getOrInit
  cases h : c.get? id with
  | some e => exact ⟨hc id e h, hc⟩
  | none =>
    refine ⟨rfl, fun id' e he => ?_⟩
    rw [Memo.get?, OrderedMap.get?_insert] at he
    split at he
    · next heq => rw [← Option.some.inj he, beq_iff_eq.1 heq]
    · exact hc id' e he

/-- The same for the tables of any module. -/
theorem tables_eq {c : ModuleCache}
    (hc : ∀ id e, c.get? id = some e → e = ModuleCache.loadModule g.loader g.features id)
    (id : ModuleId) :
    (g.tables id c).1 = g.freshTables id ∧
      ∀ id' e, (g.tables id c).2.get? id' = some e →
        e = ModuleCache.loadModule g.loader g.features id' := by
  unfold tables freshTables
  by_cases h : id = g.entry.id
  · rw [if_pos h, if_pos h]
    exact ⟨rfl, hc⟩
  · rw [if_neg h, if_neg h]
    exact g.load_eq hc id

variable {r : Resolution}

/-- What a search finds for the tables of a module. -/
theorem result_lookup (id : ModuleId) (hr : r.Sound g) :
    ∃ cache, (g.lookup id).result r =
      ((g.freshTables id).mapError .load, { r with cache }) ∧
      ({ r with cache } : Resolution).Sound g := by
  have hresult : (g.lookup id).result r =
      ((g.tables id r.cache).1.mapError .load, { r with cache := (g.tables id r.cache).2 }) := by
    simp only [lookup, result_bind, result_get, result_modify]
    cases (g.tables id r.cache).1 <;> rfl
  have htables := g.tables_eq hr.cache id
  exact ⟨(g.tables id r.cache).2, by rw [hresult, htables.1], htables.2, hr.edges⟩

theorem steady_lookup (id : ModuleId) : Steady g (g.lookup id) where
  value_eq r hr := by
    obtain ⟨_, h, -⟩ := g.result_lookup id hr
    obtain ⟨_, h', -⟩ := g.result_lookup id (.empty g)
    rw [h, value, h']
  sound r hr := by
    obtain ⟨_, h, hs⟩ := g.result_lookup id hr
    rw [h]
    exact hs

theorem value_lookup (id : ModuleId) : (g.lookup id).value = (g.freshTables id).mapError .load := by
  obtain ⟨_, h, -⟩ := g.result_lookup id (.empty g)
  rw [value, h]

theorem steady_follow {find : Tables → String → Resolving BindingKey}
    (hfind : ∀ t name, Steady g (find t name)) (importer : ModuleId) (i : Import) :
    Steady g (g.follow find importer i) := by
  unfold follow
  split
  · exact .throw _
  · split
    · exact .pure _
    · exact (g.steady_lookup _).bind fun t => hfind t _

theorem steady_bindVia {find : Tables → String → Resolving BindingKey}
    (hfind : ∀ t name, Steady g (find t name)) (t : Tables) (name : String) :
    Steady g (g.bindVia find t name) := by
  unfold bindVia
  split
  · exact .pure _
  · split
    · exact (g.steady_follow hfind _ _).bind fun k => .pure (some k)
    · exact .pure none

theorem steady_searchStar {find : Tables → Search} (hfind : ∀ t visited, Steady g (find t visited))
    (importer : ModuleId) (s : Star) (visited : List ModuleId) :
    Steady g (g.searchStar find importer s visited) := by
  unfold searchStar
  split
  · exact .pure _
  · refine (g.steady_lookup _).outcome.bind fun t => ?_
    split
    · exact hfind _ _
    · exact .pure _

theorem steady_searchStars {find : Tables → Search} (hfind : ∀ t visited, Steady g (find t visited))
    (importer : ModuleId) (missing : Unresolved) (first : Option Unresolved) (stars : List Star)
    (visited : List ModuleId) :
    Steady g (g.searchStars find importer missing first stars visited) := by
  induction stars generalizing first visited with
  | nil => exact .pure _
  | cons s ss ih =>
    refine (g.steady_searchStar hfind importer s visited).bind fun r => ?_
    split
    split
    · exact .pure _
    · exact ih _ _

theorem steady_searchExport (fuel : Nat) (t : Tables) (name : String) (visited : List ModuleId) :
    Steady g (g.searchExport fuel t name visited) := by
  induction fuel generalizing t name visited with
  | zero => exact .throw _
  | succ fuel ih =>
    have hfind : ∀ t name, Steady g (g.searchExport fuel t name [] >>= fun r => ofExcept r.1) :=
      fun t name => (ih t name []).bind fun r => .ofExcept r.1
    unfold searchExport
    split
    · exact .pure _
    · split
      · refine (g.steady_bindVia hfind _ _).outcome.bind fun found => ?_
        split <;> exact .pure _
      · exact (g.steady_follow hfind _ _).outcome.bind fun found => .pure _
      · split
        · exact .pure _
        · exact g.steady_searchStars (fun t visited => ih t name visited) _ _ _ _ _

theorem steady_exported (t : Tables) (name : String) : Steady g (g.exported t name) :=
  (g.steady_searchExport _ _ _ _).bind fun r => .ofExcept r.1

theorem steady_bind (t : Tables) (name : String) : Steady g (g.bind t name) :=
  g.steady_bindVia g.steady_exported t name

theorem steady_bindEager (t : Tables) (names : List String) : Steady g (g.bindEager t names) :=
  (Steady.mapM fun name _ => g.steady_bind t name).bind fun _ => .pure _

theorem steady_orNone {x : Resolving (Option BindingKey)} (h : Steady g x) :
    Steady g (orNone x) := by
  refine h.outcome.bind fun found => ?_
  split <;> exact .pure _

theorem value_orNone {x : Resolving (Option BindingKey)} (h : Steady g x) :
    (orNone x).value = (Unresolved.settle x.value).map fun found => found.toOption.join := by
  rw [orNone, value_bind h.outcome fun found => by split <;> exact .pure _, value_outcome]
  rcases Unresolved.settle x.value with _ | _ | _ <;> rfl

theorem steady_succeeding {searches : List (Resolving (Option BindingKey))}
    (h : ∀ x ∈ searches, Steady g x) : Steady g (succeeding searches) :=
  (Steady.mapM fun x hx => g.steady_orNone (h x hx)).bind fun _ => .pure _

/-- Searches that are made for their keys fail only where one of them does not end. -/
theorem exists_of_value_succeeding_eq_error {searches : List (Resolving (Option BindingKey))}
    {e : Unresolved} (h : ∀ x ∈ searches, Steady g x)
    (he : (succeeding searches).value = .error e) :
    e = .endless ∧ ∃ x ∈ searches, x.value = .error .endless := by
  have hnone : ∀ x ∈ searches, Steady g (orNone x) := fun x hx => g.steady_orNone (h x hx)
  rw [succeeding, value_bind_eq_error (.mapM hnone) fun _ => .pure _] at he
  rcases he with he | ⟨_, -, he⟩
  · obtain ⟨x, hx, he⟩ := exists_of_value_mapM_eq_error hnone he
    rw [g.value_orNone (h x hx)] at he
    cases hsettle : Unresolved.settle x.value with
    | error e' =>
      obtain ⟨hends, rfl⟩ := Unresolved.settle_eq_error hsettle
      rw [hsettle] at he
      exact ⟨(Except.error.inj he).symm, x, hx, hends⟩
    | ok found =>
      rw [hsettle] at he
      cases he
  · cases he

theorem steady_bindReferences (t : Tables) (r : References) : Steady g (g.bindReferences t r) :=
  (g.steady_bindEager t _).bind fun _ =>
    (g.steady_succeeding fun _ hx => by
      obtain ⟨name, -, rfl⟩ := mem_map.1 hx
      exact g.steady_bind t name).bind fun _ => .pure _

theorem steady_starKey (s : Star) : Steady g (g.starKey s) := by
  unfold starKey
  split
  · exact .pure _
  · exact (g.steady_lookup _).bind fun _ => .pure _

theorem steady_edgesIn (t : Tables) (k : BindingKey) : Steady g (g.edgesIn t k) := by
  cases k with
  | name id name =>
    by_cases h : g.runsWhole t
    · rw [edgesIn, if_pos h]
      exact .pure _
    · rw [edgesIn, if_neg h]
      exact g.steady_bindReferences t _
  | body id => exact g.steady_bindReferences t _
  | everything id =>
    refine (g.steady_succeeding fun x hx => ?_).bind fun _ =>
      (g.steady_succeeding fun x hx => ?_).bind fun _ => .pure _
    · obtain ⟨name, -, rfl⟩ := mem_map.1 hx
      exact (g.steady_exported t name).map some
    · obtain ⟨s, -, rfl⟩ := mem_map.1 hx
      exact g.steady_starKey s

theorem steady_freshEdges (k : BindingKey) : Steady g (g.freshEdges k) :=
  (g.steady_lookup _).bind fun t => g.steady_edgesIn t k

/-- What is known about the dependencies of keys after one more has been found. -/
theorem sound_insert (hr : r.Sound g) (k : BindingKey) :
    ({ r with edges := r.edges.insert k (g.freshEdges k).value } : Resolution).Sound g where
  cache := hr.cache
  edges k' e he := by
    rw [OrderedMap.get?_insert] at he
    split at he
    · next heq => rw [← Option.some.inj he, beq_iff_eq.1 heq]
    · exact hr.edges k' e he

/-- The dependencies of a key are those that are found from scratch. -/
theorem result_edges (k : BindingKey) (hr : r.Sound g) :
    ∃ r', (g.edges k).result r = ((g.freshEdges k).value, r') ∧ r'.Sound g := by
  have hfresh := g.steady_freshEdges k
  cases h : r.edges.get? k with
  | some e =>
    refine ⟨r, ?_, hr⟩
    simp only [edges, result_bind, result_get, h, result_ofExcept, hr.edges k e h]
  | none =>
    have hvalue := hfresh.value_eq r hr
    have hsound := hfresh.sound r hr
    rcases hresult : (g.freshEdges k).result r with ⟨e, r'⟩
    rw [hresult] at hvalue hsound
    have hedges : (g.edges k).result r = match Unresolved.settle e with
        | .ok e => (e, { r' with edges := r'.edges.insert k e })
        | .error e => (.error e, r') := by
      simp only [edges, result_bind, result_get, h, result_outcome, hresult]
      cases Unresolved.settle e with
      | error e => rfl
      | ok e => simp only [result_modify, result_ofExcept]
    -- A search that does not end is not kept.
    by_cases he : e = .error .endless
    · refine ⟨r', ?_, hsound⟩
      rw [hedges, ← hvalue, he]
      rfl
    · refine ⟨_, ?_, g.sound_insert hsound k⟩
      rw [hedges, Unresolved.settle_of_ne he, ← hvalue]

theorem value_edges (k : BindingKey) : (g.edges k).value = (g.freshEdges k).value := by
  obtain ⟨r, h, -⟩ := g.result_edges k (.empty g)
  calc (g.edges k).value = ((g.freshEdges k).value, r).1 := congrArg Prod.fst h
    _ = (g.freshEdges k).value := rfl

theorem steady_edges (k : BindingKey) : Steady g (g.edges k) where
  value_eq r hr := by
    obtain ⟨_, h, -⟩ := g.result_edges k hr
    rw [value_edges, h]
  sound r hr := by
    obtain ⟨_, h, hs⟩ := g.result_edges k hr
    rw [h]
    exact hs

theorem steady_visit (fuel : Nat) (stack order : List BindingKey) (k : BindingKey) :
    Steady g (g.visit fuel stack order k) := by
  induction fuel generalizing stack order k with
  | zero => exact .throw _
  | succ fuel ih =>
    unfold visit
    split
    · exact .pure _
    · split
      · exact .throw _
      · exact (g.steady_edges k).bind fun e =>
          (Steady.foldlM (fun order k' => ih (k :: stack) order k') order e.eager).bind fun _ =>
            .pure _

theorem steady_reach (fuel : Nat) (seen queue : List BindingKey) :
    Steady g (g.reach fuel seen queue) := by
  induction fuel generalizing seen queue with
  | zero =>
    unfold reach
    split
    · exact .pure _
    · exact .throw _
  | succ fuel ih =>
    unfold reach
    split
    · exact .pure _
    · refine (g.steady_edges _).outcome.bind fun e => ?_
      split
      · exact ih _ _
      · exact ih _ _

theorem steady_checkName (needed : List BindingKey) (name : String) :
    Steady g (g.checkName needed name) := by
  refine (g.steady_bind g.entry name).outcome.bind fun found => ?_
  split
  · split
    · exact .throw _
    · exact .pure _
  · exact .pure _

theorem steady_checkItem (needed : List BindingKey) (item : List String × List String) :
    Steady g (g.checkItem needed item) := by
  obtain ⟨declares, writes⟩ := item
  rw [checkItem]
  split
  · exact .pure _
  · exact Steady.forM (g.steady_checkName needed) writes

theorem steady_checkWrites (needed : List BindingKey) (items : List (List String × List String)) :
    Steady g (g.checkWrites needed items) := Steady.forM (g.steady_checkItem needed) items

theorem steady_closure (writes : List (List String × List String)) (c : StyleCall) :
    Steady g (g.closure writes c) := by
  unfold closure
  split
  · exact .throw _
  · refine (g.steady_bindReferences _ _).bind fun roots => ?_
    refine (Steady.foldlM (g.steady_visit _ []) [] roots.eager).bind fun order => ?_
    refine (g.steady_reach _ _ _).bind fun reached => ?_
    exact (g.steady_checkWrites _ _).bind fun _ => .pure _

end Graph
end AtomicStyles
