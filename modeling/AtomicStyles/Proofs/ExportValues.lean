import AtomicStyles.Proofs.Closures
import AtomicStyles.Proofs.Coupling.Loading
import AtomicStyles.Proofs.Ending

/-!
# The value of an export

An export is looked for twice: ahead of evaluation, to find the key that it stands for, and
during evaluation, to find its value. The two searches follow the same rules, and the value
that is found is the value of the key. They part where a re-export of everything leads to a
binding whose own evaluation fails for want of an export or a module, since evaluation then
tries the next one, and where a module exports a name that it neither declares nor imports.

## Main definitions

* `Eval.keyValue` — the value of what a key stands for.
* `Query.evaluate` — what a query comes to during evaluation.
* `Query.Direct` — a query that passes no re-export of everything.
* `Graph.ExportsBound` — modules that export only names which they declare or import.

## Main results

* `Finds.meets` — what is found of the key is found of the value.
* `export_values_agree` — **both searches agree.**
-/

namespace AtomicStyles

open Script Eval Coupling
open List hiding after

/-- Whether the failure is that something is missing or cannot be loaded. -/
def EvalError.isLookup : EvalError → Bool
  | unresolvedImport _ _ _ => true
  | load _ => true
  | missingExport _ _ => true
  | _ => false

/-- The run fails since something is missing or cannot be loaded. -/
def FailsLookup {α : Type} : EStateM.Result EvalError Machine α → Prop
  | .ok _ _ => False
  | .error e _ => e.isLookup = true

/-- The value of what a key stands for; the code of a module as a whole has none. -/
def Eval.keyValue (r : Interp) : BindingKey → Eval Value
  | .name id name => r.topLevel id name
  | .everything id => do
    let _ ← tables id
    return .module id
  | .body _ => return .undefined

/-- What a computation comes to, as the answer of a search. -/
def Eval.answerOf (x : Eval Value) (visited : List ModuleId) :
    Eval (Except EvalError Value × List ModuleId) := do
  return (← outcome x, visited)

/-- What a query comes to during evaluation, with a bound on the depth of the search and a first
failure. -/
def Query.evaluate (r : Interp) (depth : Nat) (first : Option EvalError)
    (visited : List ModuleId) : Query → Eval (Except EvalError Value × List ModuleId)
  | .exported t name => searchExport r name depth t.id visited
  | .imported importer i => answerOf (importValue r importer i) visited
  | .star importer name s => searchStar (searchExport r name depth) importer s visited
  | .stars importer name _ ss =>
    searchStars (searchExport r name depth) importer (.missingExport importer name) first ss visited

/-! ### Steps of evaluation -/

section Steps

variable {g : Graph} {α : Type} {m m' : Machine} {id : ModuleId} {t : Tables}

theorem answerOf_eq (x : Eval Value) (visited : List ModuleId) (m : Machine) :
    answerOf x visited m =
      match x m with
      | .ok v m' => .ok (.ok v, visited) m'
      | .error e m' => .ok (.error e, visited) m' := by
  show EStateM.bind (outcome x) (fun result => pure (result, visited)) m = _
  unfold EStateM.bind outcome
  cases x m <;> rfl

/-- On the machine, `x` comes to what `y` comes to once some modules have been loaded. -/
def ComesTo (g : Graph) (m : Machine) (x y : Eval α) : Prop :=
  ∃ m', Recached g m' m ∧ x m = y m'

theorem ComesTo.trans {x y z : Eval α} (h : ComesTo g m x y)
    (h' : ∀ m', Recached g m' m → ComesTo g m' y z) : ComesTo g m x z := by
  obtain ⟨m₁, hm₁, hx⟩ := h
  obtain ⟨m₂, hm₂, hy⟩ := h' m₁ hm₁
  exact ⟨m₂, hm₂.trans hm₁, hx.trans hy⟩

theorem ComesTo.answerOf {x y : Eval Value} (h : ComesTo g m x y) (visited : List ModuleId) :
    ComesTo g m (answerOf x visited) (answerOf y visited) := by
  obtain ⟨m', hm', hx⟩ := h
  exact ⟨m', hm', by rw [answerOf_eq, answerOf_eq, hx]⟩

/-- Asking for the tables of a module does nothing but load it. -/
theorem exists_tables_eq (h : g.Serves m) (id : ModuleId) :
    ∃ m', Recached g m' m ∧ tables id m = conclude ((g.freshTables id).mapError .load) m' := by
  obtain ⟨m', hload, hm'⟩ := Recached.exists_load h id
  exact ⟨m', hm', bind_eq_of_ok hload⟩

theorem comesTo_outcome_tables (h : g.Serves m) (id : ModuleId)
    (k : Except EvalError Tables → Eval α) :
    ComesTo g m (outcome (tables id) >>= k) (k ((g.freshTables id).mapError .load)) := by
  obtain ⟨m', hm', htables⟩ := exists_tables_eq h id
  refine ⟨m', hm', bind_eq_of_ok ?_⟩
  unfold outcome
  rw [htables]
  cases g.freshTables id <;> rfl

theorem comesTo_tables (h : g.Serves m) (id : ModuleId) (k : Tables → Eval α) :
    ComesTo g m (tables id >>= k) (conclude ((g.freshTables id).mapError .load) >>= k) := by
  obtain ⟨m', hm', htables⟩ := exists_tables_eq h id
  refine ⟨m', hm', ?_⟩
  show EStateM.bind (tables id) k m = EStateM.bind (conclude _) k m'
  unfold EStateM.bind
  rw [htables]

variable {r : Interp} {name own : String} {depth : Nat} {visited : List ModuleId} {i : Import}

/-- A module that has been visited has nothing to offer. -/
theorem searchExport_visited (hmem : id ∈ visited) :
    searchExport r name (depth + 1) id visited m =
      .ok (.error (.missingExport id name), visited) m := by
  rw [searchExport, if_pos (contains_iff_mem.2 hmem)]
  rfl

/-- Else the search goes on with the tables of the module, if it can be loaded. -/
theorem comesTo_searchExport (h : g.Serves m) (hmem : id ∉ visited) (r : Interp) (name : String)
    (depth : Nat) :
    ComesTo g m (searchExport r name (depth + 1) id visited)
      (match g.freshTables id with
      | .error e => pure (.error (.load e), id :: visited)
      | .ok t => searchTables r name (searchExport r name depth) id t (id :: visited)) := by
  rw [searchExport, if_neg (mt contains_iff_mem.1 hmem)]
  refine (comesTo_outcome_tables h id _).trans fun m' hm' => ⟨m', .refl hm'.left, ?_⟩
  cases g.freshTables id <;> rfl

/-- The value of a name that a module imports is the value of the import. -/
theorem comesTo_topLevel (h : g.Serves m) (ht : g.freshTables id = .ok t)
    (hdeclared : t.declarations.contains own = false) (himport : t.imports.get? own = some i)
    (n : Nat) : ComesTo g m ((interp (n + 1)).topLevel id own) (importValue (interp n) id i) := by
  have hload : ComesTo g m (topLevelValue (interp n) id own) _ := comesTo_tables h id _
  refine hload.trans fun m' hm' => ⟨m', .refl hm'.left, ?_⟩
  rw [ht]
  refine (bind_eq_of_ok rfl).trans ?_
  simp only [hdeclared, himport, Bool.false_eq_true, if_false]

section Exported

variable (h : g.Serves m) (ht : g.freshTables t.id = .ok t) (hmem : t.id ∉ visited)
  (first : Option EvalError)

include h ht hmem

/-- An export that is the module's own is the value of a name. -/
theorem comesTo_own (hexport : t.exports.get? name = some (.own own)) :
    ComesTo g m ((Query.exported t name).evaluate r (depth + 1) first visited)
      (answerOf (r.topLevel t.id own) (t.id :: visited)) := by
  have hsearch := comesTo_searchExport h hmem r name depth
  simp only [ht, searchTables, hexport] at hsearch
  exact hsearch

/-- An export that the module imports is the value of the import. -/
theorem comesTo_ownImport (hexport : t.exports.get? name = some (.own own))
    (hdeclared : t.declarations.contains own = false) (himport : t.imports.get? own = some i)
    (n : Nat) :
    ComesTo g m ((Query.exported t name).evaluate (interp (n + 1)) (depth + 1) first visited)
      ((Query.imported t.id i).evaluate (interp n) depth first (t.id :: visited)) :=
  (comesTo_own h ht hmem first hexport).trans fun _ hm' =>
    (comesTo_topLevel hm'.left ht hdeclared himport n).answerOf _

/-- A re-export is the value of what it points to. -/
theorem comesTo_reexport (hexport : t.exports.get? name = some (.reexport i)) :
    ComesTo g m ((Query.exported t name).evaluate r (depth + 1) first visited)
      ((Query.imported t.id i).evaluate r depth first (t.id :: visited)) := by
  have hsearch := comesTo_searchExport h hmem r name depth
  simp only [ht, searchTables, hexport] at hsearch
  exact hsearch

/-- Any other export is looked for in what the module re-exports as a whole. -/
theorem comesTo_stars (hexport : t.exports.get? name = none) (hname : name ≠ "default") :
    ComesTo g m ((Query.exported t name).evaluate r (depth + 1) first visited)
      ((Query.stars t.id name none t.stars).evaluate r depth none (t.id :: visited)) := by
  have hsearch := comesTo_searchExport h hmem r name depth
  simp only [ht, searchTables, hexport, if_neg hname] at hsearch
  exact hsearch

/-- The name `default` is not passed on. -/
theorem comesTo_noDefault (hexport : t.exports.get? "default" = none) :
    ComesTo g m ((Query.exported t "default").evaluate r (depth + 1) first visited)
      (pure (.error (.missingExport t.id "default"), t.id :: visited)) := by
  have hsearch := comesTo_searchExport h hmem r "default" depth
  simp only [ht, searchTables, hexport, if_true] at hsearch
  exact hsearch

end Exported

variable {found : Except EvalError Value}

/-- The value of an export is what the search for it finds. -/
theorem exported_eq {n : Nat} {visited' : List ModuleId}
    (h : searchExport (interp n) name m.nesting id [] m = .ok (found, visited') m') :
    (interp (n + 1)).exported id name m = conclude found m' := by
  have hnesting : nesting m = .ok m.nesting m := rfl
  exact (bind_eq_of_ok hnesting).trans (bind_eq_of_ok h)

theorem answerOf_exported_eq {n : Nat} {visited' : List ModuleId}
    (h : searchExport (interp n) name m.nesting id [] m = .ok (found, visited') m')
    (visited : List ModuleId) :
    answerOf ((interp (n + 1)).exported id name) visited m = .ok (found, visited) m' := by
  rw [answerOf_eq, exported_eq h]
  cases found <;> rfl

variable {find : ModuleId → ExportSearch} {importer : ModuleId} {missing : EvalError}
  {first : Option EvalError} {s : Star} {ss : List Star} {visited' : List ModuleId}

/-- A module that lacks the export leaves the search to the next one. -/
theorem searchStars_of_isLookup {e : EvalError}
    (h : searchStar find importer s visited m = .ok (.error e, visited') m')
    (he : e.isLookup = true) :
    ∃ first', searchStars find importer missing first (s :: ss) visited m =
        searchStars find importer missing first' ss visited' m' ∧
      (∀ e' ∈ first', e' ∈ first ∨ e' = e) ∧
      ∀ id name, e = .missingExport id name → first' = first := by
  have hor : ∀ e' ∈ (first <|> some e), e' ∈ first ∨ e' = e := by
    intro e' he'
    cases first with
    | none => exact .inr (Option.some.inj he').symm
    | some e₁ => exact .inl he'
  cases e with
  | missingExport id name => exact ⟨first, bind_eq_of_ok h, fun _ => .inl, fun _ _ _ => rfl⟩
  | unresolvedImport a b c => exact ⟨_, bind_eq_of_ok h, hor, nofun⟩
  | load e => exact ⟨_, bind_eq_of_ok h, hor, nofun⟩
  | _ => cases he

/-- A module that has the export ends the search, also where the export fails in itself. -/
theorem searchStars_of_found (h : searchStar find importer s visited m = .ok (found, visited') m')
    (hfound : ∀ e, found = .error e → e.isLookup = false) :
    searchStars find importer missing first (s :: ss) visited m = .ok (found, visited') m' := by
  refine (bind_eq_of_ok h).trans ?_
  cases found with
  | ok v => rfl
  | error e =>
    cases e with
    | missingExport => cases hfound _ rfl
    | unresolvedImport => cases hfound _ rfl
    | load => cases hfound _ rfl
    | _ => rfl

end Steps

/-! ### Failures -/

/-- The failure of evaluation that stands for a failure of the search for a key: something is
missing or cannot be loaded, and if it is an export, it is the same one. -/
structure Unresolved.Matches (e : Unresolved) (e' : EvalError) : Prop where
  isLookup : e'.isLookup = true
  missing : ∀ id name, e = .missingExport id name → e' = .missingExport id name

/-- The same ones out of the modules that can be loaded. -/
def Graph.SameLoadable (g : Graph) (ids ids' : List ModuleId) : Prop :=
  ∀ id t, g.freshTables id = .ok t → (id ∈ ids ↔ id ∈ ids')

/-- Every name that one of the modules exports as its own is declared or imported by it. -/
def Graph.ExportsBound (g : Graph) (ids : Set ModuleId) : Prop :=
  ∀ id ∈ ids, ∀ t, g.freshTables id = .ok t → ∀ name own, t.exports.get? name = some (.own own) →
    t.declarations.contains own = true ∨ ∃ i, t.imports.get? own = some i

/-- A first failure that the search for a key has met stands for one that evaluation has met. -/
def Query.FirstsMatch (first : Option EvalError) : Query → Prop
  | .stars _ _ first' _ => (∀ e ∈ first', e.isMissingExport = false) ∧
      (first' = none → first = none) ∧ ∀ e ∈ first, e.isLookup = true
  | _ => True

/-- What the evaluation of a query starts from, next to a search for its key: a machine for the
modules of the graph that nests deeper than the search, and what the search has met so far. -/
structure Query.Starts (g : Graph) (fuel : Nat) (q : Query) (visited : List ModuleId)
    (m : Machine) (depth : Nat) (visited₁ : List ModuleId) (first : Option EvalError) : Prop where
  serves : g.Serves m
  nesting : fuel < m.nesting
  depth : fuel < depth
  visited : g.SameLoadable visited₁ visited
  first : q.FirstsMatch first

/-- On the machine, the query comes to what a search for its key has found, after a visit to the
given modules: it fails, with a failure that stands for the one of the search, and has visited the
same modules, or it ends like the evaluation of the key. -/
def Meets (g : Graph) (m : Machine) (value : BindingKey → EStateM.Result EvalError Machine Value)
    (found : Except Unresolved BindingKey) (visited : List ModuleId)
    (x : Eval (Except EvalError Value × List ModuleId)) : Prop :=
  ∃ answer visited₁ m', x m = .ok (answer, visited₁) m' ∧
    match found with
    | .error e => ∃ e', answer = .error e' ∧ Recached g m' m ∧ e.Matches e' ∧
        g.SameLoadable visited₁ visited
    | .ok k => Alike (Recached g) (conclude answer m') (value k)

section Searches

variable {g : Graph} {ids : Set ModuleId} {fuel : Nat} {q : Query}
  {visited visited' visited₁ : List ModuleId} {found : Except Unresolved BindingKey}
  {m m' : Machine} {t : Tables} {name own : String} {i : Import}

theorem Graph.SameLoadable.cons (h : g.SameLoadable visited visited') (id : ModuleId) :
    g.SameLoadable (id :: visited) (id :: visited') := by
  intro id' t ht
  rw [mem_cons, mem_cons, h id' t ht]

theorem Graph.SameLoadable.cons_left (h : g.SameLoadable visited visited') {id : ModuleId}
    {e : LoadError} (hload : g.freshTables id = .error e) :
    g.SameLoadable (id :: visited) visited' := by
  intro id' t ht
  have hne : id' ≠ id := by
    rintro rfl
    rw [hload] at ht
    cases ht
  rw [mem_cons, or_iff_right hne, h id' t ht]

theorem Unresolved.Matches.missingExport (id : ModuleId) (name : String) :
    (Unresolved.missingExport id name).Matches (.missingExport id name) :=
  ⟨rfl, by rintro _ _ ⟨⟩; rfl⟩

variable {name : String}

/-- The search goes on in a module that has not been visited. -/
theorem Query.Starts.exists_next {t : Tables} {depth : Nat} {visited₁ : List ModuleId}
    {first : Option EvalError}
    (h : (exported t name).Starts g (fuel + 1) visited m depth visited₁ first)
    (ht : g.freshTables t.id = .ok t) (hmem : t.id ∉ visited) :
    ∃ depth', depth = depth' + 1 ∧ t.id ∉ visited₁ ∧
      ∀ m', Recached g m' m → ∀ (q' : Query) first', q'.FirstsMatch first' →
        q'.Starts g fuel (t.id :: visited) m' depth' (t.id :: visited₁) first' := by
  obtain ⟨depth', rfl⟩ := Nat.exists_eq_add_one_of_ne_zero (Nat.ne_zero_of_lt h.depth)
  refine ⟨depth', rfl, mt (h.visited _ _ ht).1 hmem, fun m' hm' q' first' hfirst => ?_⟩
  have hnesting : fuel < m'.nesting := by
    rw [hm'.nesting_eq]
    exact Nat.lt_of_succ_lt h.nesting
  exact ⟨hm'.left, hnesting, Nat.lt_of_succ_lt_succ h.depth, h.visited.cons t.id, hfirst⟩

/-- The first failures stand for each other after one more failure. -/
theorem Query.FirstsMatch.next {importer : ModuleId} {s : Star} {ss : List Star}
    {first : Option Unresolved} {first₁ first₂ : Option EvalError} {e : Unresolved} {e' : EvalError}
    (h : (stars importer name first (s :: ss)).FirstsMatch first₁) (he : e.Matches e')
    (hmem : ∀ e₁ ∈ first₂, e₁ ∈ first₁ ∨ e₁ = e')
    (hmissing : ∀ id name, e' = .missingExport id name → first₂ = first₁) :
    (stars importer name (if e.isMissingExport then first else first <|> some e) ss).FirstsMatch
      first₂ := by
  obtain ⟨hfirst, hnone, hlookup⟩ := h
  refine ⟨fun e₁ he₁ => ?_, fun hfirst₂ => ?_, fun e₁ he₁ => ?_⟩
  · split at he₁
    · exact hfirst e₁ he₁
    · -- Only a failure other than a missing export becomes the first one.
      next hother =>
      cases first with
      | none =>
        cases he₁
        exact Bool.eq_false_iff.2 hother
      | some e₂ => exact hfirst e₁ he₁
  · cases e with
    | missingExport id name => rw [hmissing id name (he.missing id name rfl), hnone hfirst₂]
    | _ => cases first <;> cases hfirst₂
  · rcases hmem e₁ he₁ with he₁ | rfl
    · exact hlookup e₁ he₁
    · exact he.isLookup

/-- The failures that two searches end with when no module is left stand for each other. -/
theorem Query.FirstsMatch.matches {importer : ModuleId} {first : Option Unresolved}
    {first₁ : Option EvalError} (h : (stars importer name first []).FirstsMatch first₁) :
    (first.getD (.missingExport importer name)).Matches
      (first₁.getD (.missingExport importer name)) := by
  obtain ⟨hother, hnone, hlookup⟩ := h
  cases first with
  | none =>
    rw [hnone rfl]
    exact .missingExport importer name
  | some e =>
    refine ⟨?_, fun id name he => ?_⟩
    · cases first₁ with
      | none => rfl
      | some e' => exact hlookup e' rfl
    · cases (he : e = _)
      cases hother _ rfl

/-! ### Direct queries -/

/-- The query passes no re-export of everything. -/
inductive Query.Direct (load : ModuleId → Except LoadError Tables) : Query → Prop where
  | declared {t : Tables} {name own : String} : t.exports.get? name = some (.own own) →
      t.declarations.contains own = true → Direct load (.exported t name)
  | ownImport {t : Tables} {name own : String} {i : Import} :
      t.exports.get? name = some (.own own) → t.declarations.contains own = false →
      t.imports.get? own = some i → Direct load (.imported t.id i) →
      Direct load (.exported t name)
  | reexport {t : Tables} {name : String} {i : Import} :
      t.exports.get? name = some (.reexport i) → Direct load (.imported t.id i) →
      Direct load (.exported t name)
  | everything {importer target : ModuleId} {i : Import} : i.source = .ok target →
      i.imported.exportName? = none → Direct load (.imported importer i)
  | loaded {importer target : ModuleId} {i : Import} {t : Tables} {name : String} :
      i.source = .ok target → i.imported.exportName? = some name → load target = .ok t →
      Direct load (.exported t name) → Direct load (.imported importer i)

namespace Query.Direct

variable {load : ModuleId → Except LoadError Tables}

theorem of_ownImport (h : (exported t name).Direct load)
    (hexport : t.exports.get? name = some (.own own))
    (hdeclared : t.declarations.contains own = false) (himport : t.imports.get? own = some i) :
    (imported t.id i).Direct load := by
  cases h with
  | declared hexport' hdeclared' =>
    cases hexport.symm.trans hexport'
    cases hdeclared.symm.trans hdeclared'
  | ownImport hexport' _ himport' h =>
    cases hexport.symm.trans hexport'
    cases himport.symm.trans himport'
    exact h
  | reexport hexport' => cases hexport.symm.trans hexport'

theorem of_reexport (h : (exported t name).Direct load)
    (hexport : t.exports.get? name = some (.reexport i)) : (imported t.id i).Direct load := by
  cases h with
  | declared hexport' => cases hexport.symm.trans hexport'
  | ownImport hexport' => cases hexport.symm.trans hexport'
  | reexport hexport' h =>
    cases hexport.symm.trans hexport'
    exact h

theorem of_loaded {importer target : ModuleId} (h : (imported importer i).Direct load)
    (hsource : i.source = .ok target) (hname : i.imported.exportName? = some name)
    (hload : load target = .ok t) : (exported t name).Direct load := by
  cases h with
  | everything _ hname' => cases hname.symm.trans hname'
  | loaded hsource' hname' hload' h =>
    cases hsource.symm.trans hsource'
    cases hname.symm.trans hname'
    cases hload.symm.trans hload'
    exact h

theorem not_of_stars (h : (exported t name).Direct load) (hexport : t.exports.get? name = none) :
    False := by
  cases h with
  | declared hexport' => cases hexport.symm.trans hexport'
  | ownImport hexport' => cases hexport.symm.trans hexport'
  | reexport hexport' => cases hexport.symm.trans hexport'

end Query.Direct

/-! ### Both searches side by side -/

/-- The value of a key does not depend on which modules have been loaded. -/
theorem Recached.alike_keyValue (h : Recached g m m') (n : Nat) (k : BindingKey) :
    Alike (Recached g) (keyValue (interp n) k m) (keyValue (interp n) k m') := by
  cases k with
  | name id name => exact (((kept g).runs n () 0).topLevel name trivial ()).1 m m' h
  | everything id =>
    exact (trait g).bind (P := fun _ => True) (alike_tables id)
      (.of_forall _ fun _ => trivial) (fun _ _ => (trait g).pure _) m m' h
  | body id => exact ⟨rfl, h⟩

namespace Meets

variable {x y : Eval (Except EvalError Value × List ModuleId)}
  {value : BindingKey → EStateM.Result EvalError Machine Value} {importer target : ModuleId}
  {first : Option EvalError}

theorem of_error {e : Unresolved} {e' : EvalError} (hx : x m = .ok (.error e', visited₁) m')
    (hm : Recached g m' m) (he : e.Matches e') (hvisited : g.SameLoadable visited₁ visited) :
    Meets g m value (.error e) visited x :=
  ⟨_, _, _, hx, e', rfl, hm, he, hvisited⟩

theorem of_eq (h : Meets g m' value found visited y) (hm : Recached g m' m) (hx : x m = y m') :
    Meets g m value found visited x := by
  obtain ⟨answer, visited₁, m₁, hend, hanswer⟩ := h
  refine ⟨answer, visited₁, m₁, hx.trans hend, ?_⟩
  cases found with
  | error e =>
    obtain ⟨e', he', hm₁, hmatches⟩ := hanswer
    exact ⟨e', he', hm₁.trans hm, hmatches⟩
  | ok k => exact hanswer

theorem of_comesTo (h : ComesTo g m x y)
    (hy : ∀ m', Recached g m' m → Meets g m' value found visited y) :
    Meets g m value found visited x := by
  obtain ⟨m', hm', hx⟩ := h
  exact (hy m' hm').of_eq hm' hx

theorem answerOf {z : Eval Value} {k : BindingKey} (h : Alike (Recached g) (z m) (value k))
    (visited₁ : List ModuleId) : Meets g m value (.ok k) visited (answerOf z visited₁) := by
  have hanswer := answerOf_eq z visited₁ m
  cases hz : z m with
  | ok v m' => exact ⟨.ok v, visited₁, m', by rw [hanswer, hz], by rwa [hz] at h⟩
  | error e m' => exact ⟨.error e, visited₁, m', by rw [hanswer, hz], by rwa [hz] at h⟩

/-- A module that cannot be loaded has nothing to offer during evaluation either. -/
theorem unloadable {e : LoadError} (h : g.Serves m) (hload : g.freshTables target = .error e)
    (hvisited : g.SameLoadable visited₁ visited) (r : Interp) (depth : Nat) :
    Meets g m value (.error (.load e)) visited
      (searchExport r name (depth + 1) target visited₁) := by
  -- Evaluation notes also the modules that it fails to load; a second time they count as visited.
  by_cases hmem : target ∈ visited₁
  · exact of_error (searchExport_visited hmem) (.refl h) ⟨rfl, nofun⟩ hvisited
  · refine of_comesTo (comesTo_searchExport h hmem r name depth) fun m' hm' => ?_
    rw [hload]
    exact of_error rfl (.refl hm'.left) ⟨rfl, nofun⟩ (hvisited.cons_left hload)

/-- An import comes to what the export that it names comes to. -/
theorem imported {n depth : Nat}
    (h : Meets g m value found visited' (searchExport (interp n) name m.nesting target []))
    (hsource : i.source = .ok target) (hname : i.imported.exportName? = some name)
    (hvisited : g.SameLoadable visited₁ visited) :
    Meets g m value found visited
      ((Query.imported importer i).evaluate (interp (n + 1)) depth first visited₁) := by
  obtain ⟨answer, _, m', hend, hfound⟩ := h
  have hanswer := answerOf_exported_eq hend visited₁
  refine ⟨answer, visited₁, m', ?_, ?_⟩
  · simp only [Query.evaluate, importValue, hsource, hname]
    exact hanswer
  · cases found with
    | error e =>
      obtain ⟨e', he', hm', hmatches, -⟩ := hfound
      exact ⟨e', he', hm', hmatches, hvisited⟩
    | ok k => exact hfound

/-- A module that is re-exported as a whole ends the search, unless the export fails for want of
something else. -/
theorem stars {find : ModuleId → ExportSearch} {missing : EvalError} {s : Star} {ss : List Star}
    {k : BindingKey} (h : Meets g m value (.ok k) visited' (searchStar find importer s visited₁))
    (hk : ¬ FailsLookup (value k)) :
    Meets g m value (.ok k) visited
      (searchStars find importer missing first (s :: ss) visited₁) := by
  obtain ⟨answer, visited₂, m', hend, hanswer⟩ := h
  refine ⟨answer, visited₂, m', searchStars_of_found hend fun e he => ?_, hanswer⟩
  subst he
  dsimp only at hanswer
  cases hvalue : value k with
  | ok v m₁ =>
    rw [hvalue] at hanswer
    exact hanswer.elim
  | error e' m₁ =>
    rw [hvalue] at hanswer hk
    obtain ⟨rfl, -⟩ := hanswer
    exact Bool.eq_false_iff.2 hk

end Meets

/-- **What is found of the key is found of the value.** From some depth on, the query ends like the
evaluation of the key, a number of calls deeper, and where the search fails it fails likewise. Where
a module is re-exported as a whole on the way to a key, the key must not fail for want of something
else. -/
theorem Finds.meets (h : Finds g.freshTables fuel q visited found visited')
    (hclosed : g.Closed ids) (hbound : g.ExportsBound ids) (hq : q.Within g ids) :
    ∃ hops least, ∀ n, least ≤ n → ∀ m m₁ depth visited₁ first,
      Recached g m₁ m → q.Starts g fuel visited m₁ depth visited₁ first →
      (∀ k, found = .ok k →
        q.Direct g.freshTables ∨ ¬ FailsLookup (keyValue (interp n) k m)) →
        Meets g m₁ (fun k => keyValue (interp n) k m) found visited'
          (q.evaluate (interp (n + hops)) depth first visited₁) := by
  induction h with
  | unbound _ hexport hdeclared himport =>
    -- Such a module exports a name that it neither declares nor imports.
    rcases hbound _ hq.mem _ hq.tables _ _ hexport with hown | ⟨i, hown⟩
    · rw [hdeclared] at hown
      cases hown
    · rw [himport] at hown
      cases hown
  | visited hmem =>
    -- The module can be loaded, so both searches have been to it.
    refine ⟨0, 0, fun n _ m m₁ depth visited₁ first _ hs _ => ?_⟩
    obtain ⟨depth, rfl⟩ := Nat.exists_eq_add_one_of_ne_zero (Nat.ne_zero_of_lt hs.depth)
    exact .of_error (searchExport_visited ((hs.visited _ _ hq.tables).2 hmem)) (.refl hs.serves)
      (.missingExport _ _) hs.visited
  | declared hmem hexport _ =>
    refine ⟨0, 0, fun n _ m m₁ depth visited₁ first hm hs _ => ?_⟩
    obtain ⟨depth, rfl, hmem₁, -⟩ := hs.exists_next hq.tables hmem
    refine .of_comesTo (comesTo_own hs.serves hq.tables hmem₁ _ hexport) fun m₂ hm₂ => ?_
    exact .answerOf ((hm₂.trans hm).alike_keyValue n (.name _ _)) _
  | ownImport hmem hexport hdeclared himport _ ih =>
    obtain ⟨hops, least, ih⟩ := ih (Query.within_import hq hclosed himport)
    refine ⟨hops + 1, least, fun n hn m m₁ depth visited₁ first hm hs hclear => ?_⟩
    obtain ⟨depth, rfl, hmem₁, hnext⟩ := hs.exists_next hq.tables hmem
    -- The import is evaluated one call deeper than the export
    refine .of_comesTo (comesTo_ownImport hs.serves hq.tables hmem₁ _ hexport hdeclared himport
      (n + hops)) fun m₂ hm₂ => ?_
    exact ih n hn m m₂ _ _ _ (hm₂.trans hm) (hnext m₂ hm₂ _ _ trivial) fun k hk =>
      (hclear k hk).imp_left fun hdirect => hdirect.of_ownImport hexport hdeclared himport
  | reexport hmem hexport _ ih =>
    obtain ⟨hops, least, ih⟩ := ih (Query.within_reexport hq hclosed hexport)
    refine ⟨hops, least, fun n hn m m₁ depth visited₁ first hm hs hclear => ?_⟩
    obtain ⟨depth, rfl, hmem₁, hnext⟩ := hs.exists_next hq.tables hmem
    refine .of_comesTo (comesTo_reexport hs.serves hq.tables hmem₁ _ hexport) fun m₂ hm₂ => ?_
    exact ih n hn m m₂ _ _ _ (hm₂.trans hm) (hnext m₂ hm₂ _ _ trivial) fun k hk =>
      (hclear k hk).imp_left fun hdirect => hdirect.of_reexport hexport
  | noDefault hmem hexport =>
    refine ⟨0, 0, fun n _ m m₁ depth visited₁ first _ hs _ => ?_⟩
    obtain ⟨depth, rfl, hmem₁, -⟩ := hs.exists_next hq.tables hmem
    refine .of_comesTo (comesTo_noDefault hs.serves hq.tables hmem₁ _ hexport) fun m₂ hm₂ => ?_
    exact .of_error rfl (.refl hm₂.left) (.missingExport _ _) (hs.visited.cons _)
  | throughStars hmem hexport hname _ ih =>
    obtain ⟨hops, least, ih⟩ := ih (Query.within_stars hq hclosed)
    refine ⟨hops, least, fun n hn m m₁ depth visited₁ first hm hs hclear => ?_⟩
    obtain ⟨depth, rfl, hmem₁, hnext⟩ := hs.exists_next hq.tables hmem
    refine .of_comesTo (comesTo_stars hs.serves hq.tables hmem₁ _ hexport hname) fun m₂ hm₂ => ?_
    exact ih n hn m m₂ _ _ _ (hm₂.trans hm) (hnext m₂ hm₂ _ _ ⟨nofun, fun _ => rfl, nofun⟩)
      fun k hk => .inr ((hclear k hk).resolve_left fun hdirect => hdirect.not_of_stars hexport)
  | unresolved hsource =>
    refine ⟨0, 0, fun n _ m m₁ depth visited₁ first _ hs _ => ?_⟩
    simp only [Query.evaluate, importValue, hsource]
    exact .of_error (answerOf_eq _ visited₁ m₁) (.refl hs.serves) ⟨rfl, nofun⟩ hs.visited
  | everything hsource hname =>
    refine ⟨0, 0, fun n _ m m₁ depth visited₁ first hm hs _ => ?_⟩
    simp only [Query.evaluate, importValue, hsource, hname]
    exact .answerOf (hm.alike_keyValue n (.everything _)) _
  | unloadable hsource hname hload =>
    refine ⟨1, 0, fun n _ m m₁ depth visited₁ first _ hs _ => ?_⟩
    obtain ⟨d, hd⟩ := Nat.exists_eq_add_one_of_ne_zero (Nat.ne_zero_of_lt hs.nesting)
    refine .imported (?_ : Meets g m₁ _ _ [] _) hsource hname hs.visited
    rw [hd]
    exact .unloadable hs.serves hload (fun _ _ _ => .rfl) _ d
  | loaded hsource hname hload _ ih =>
    obtain ⟨hops, least, ih⟩ := ih (Graph.holds_of_freshTables hload (hq _ hsource))
    refine ⟨hops + 1, least, fun n hn m m₁ depth visited₁ first hm hs hclear => ?_⟩
    -- Behind an import the search starts anew: no module has been visited.
    have hsearch := ih n hn m m₁ m₁.nesting [] none hm
      ⟨hs.serves, hs.nesting, hs.nesting, fun _ _ _ => .rfl, trivial⟩ fun k hk =>
        (hclear k hk).imp_left fun hdirect => hdirect.of_loaded hsource hname hload
    rw [Query.evaluate, Graph.id_of_freshTables hload] at hsearch
    exact hsearch.imported hsource hname hs.visited
  | starUnresolved hsource =>
    refine ⟨0, 0, fun n _ m m₁ depth visited₁ first _ hs _ => ?_⟩
    simp only [Query.evaluate, searchStar, hsource]
    exact .of_error rfl (.refl hs.serves) ⟨rfl, nofun⟩ hs.visited
  | starUnloadable hsource hload =>
    refine ⟨0, 0, fun n _ m m₁ depth visited₁ first _ hs _ => ?_⟩
    obtain ⟨depth, rfl⟩ := Nat.exists_eq_add_one_of_ne_zero (Nat.ne_zero_of_lt hs.depth)
    simp only [Query.evaluate, searchStar, hsource]
    exact .unloadable hs.serves hload hs.visited _ depth
  | starLoaded hsource hload _ ih =>
    obtain ⟨hops, least, ih⟩ := ih (Graph.holds_of_freshTables hload (hq _ hsource))
    refine ⟨hops, least, fun n hn m m₁ depth visited₁ first hm hs hclear => ?_⟩
    have hsearch := ih n hn m m₁ depth visited₁ first hm { hs with first := trivial }
      fun k hk => .inr ((hclear k hk).resolve_left nofun)
    rw [Query.evaluate, Graph.id_of_freshTables hload] at hsearch
    simp only [Query.evaluate, searchStar, hsource]
    exact hsearch
  | noStar =>
    refine ⟨0, 0, fun n _ m m₁ depth visited₁ first _ hs _ => ?_⟩
    exact .of_error rfl (.refl hs.serves) hs.first.matches hs.visited
  | thisStar _ ih =>
    obtain ⟨hops, least, ih⟩ := ih (hq _ (.head _))
    refine ⟨hops, least, fun n hn m m₁ depth visited₁ first hm hs hclear => ?_⟩
    -- The value must not look like a failure of the search, or the next module would be tried.
    have hvalue := (hclear _ rfl).resolve_left nofun
    refine Meets.stars (ih n hn m m₁ depth visited₁ none hm { hs with first := trivial } ?_) hvalue
    rintro _ ⟨⟩
    exact .inr hvalue
  | nextStar _ _ ihStar ih =>
    obtain ⟨hopsStar, leastStar, ihStar⟩ := ihStar (hq _ (.head _))
    obtain ⟨hops, least, ih⟩ := ih fun s hs => hq s (.tail _ hs)
    refine ⟨hops, max (leastStar + hopsStar) least,
      fun n hn m m₁ depth visited₁ first hm hs hclear => ?_⟩
    -- The first module fails on both sides, so that both go on with the next one.
    obtain ⟨n', hn'⟩ := Nat.exists_eq_add_of_le'
      (Nat.le_of_add_left_le ((le_of_max_le_left hn).trans (Nat.le_add_right n hops)))
    obtain ⟨_, visited₂, m₂, hstar, e', rfl, hm₂, he', hvisited₂⟩ :=
      ihStar n' (by omega) m m₁ depth visited₁ none hm { hs with first := trivial } nofun
    rw [← hn'] at hstar
    obtain ⟨first', hstars, hmem, hmissing⟩ := searchStars_of_isLookup hstar he'.isLookup
    have hnesting := hm₂.nesting_eq ▸ hs.nesting
    have hrest := ih n (le_of_max_le_right hn) m m₂ depth visited₂ first' (hm₂.trans hm)
      ⟨hm₂.left, hnesting, hs.depth, hvisited₂, hs.first.next he' hmem hmissing⟩
      fun k hk => .inr ((hclear k hk).resolve_left nofun)
    exact hrest.of_eq hm₂ hstars

end Searches

/-! ### Agreement -/

section Agreement

variable {g : Graph} {ids : Set ModuleId} {id : ModuleId} {t : Tables} {name : String}
  {m : Machine}

theorem Coupling.Alike.recached {x y z : EStateM.Result EvalError Machine Value}
    (h : Alike (Recached g) x y) (h' : Alike (Recached g) y z) : Alike (Recached g) x z := by
  cases x <;> cases y <;> cases z <;> first | exact h.elim | exact h'.elim | skip
  · exact ⟨h.1.trans h'.1, h.2.trans h'.2⟩
  · exact ⟨h.1.trans h'.1, h.2.trans h'.2⟩

theorem Query.starts_exported (hm : g.Serves m) (hnesting : g.limit < m.nesting) :
    (exported t name).Starts g g.limit [] m m.nesting [] none :=
  ⟨hm, hnesting, hnesting, fun _ _ _ => .rfl, trivial⟩

/-- A machine nests deeper than a search goes, whatever its limits are. -/
theorem Machine.limit_lt_nesting_start (hlimit : 1 < g.limit) (limits : Limits)
    (cache : ModuleCache) : g.limit < (Machine.start g limits cache).nesting :=
  calc g.limit < g.limit * g.limit := lt_mul_self hlimit
    _ ≤ (limits.steps + g.limit) * g.limit := Nat.mul_le_mul_right _ (Nat.le_add_left _ _)

/-- The value of a module as a whole, which must be one that can be loaded. -/
theorem alike_everything (hm : g.Serves m) (r : Interp) (target : ModuleId) :
    Alike (Recached g) (keyValue r (.everything target) m)
      (match g.freshTables target with
      | .ok _ => .ok (.module target) m
      | .error e => .error (.load e) m) := by
  obtain ⟨m', hm', hvalue⟩ :=
    comesTo_tables hm target fun _ => (pure (.module target) : Eval Value)
  rw [show keyValue r (.everything target) m = _ from hvalue]
  cases g.freshTables target with
  | ok t => exact ⟨rfl, hm'⟩
  | error e => exact ⟨rfl, hm'⟩

variable (hclosed : g.Closed ids) (hbound : g.ExportsBound ids) (hid : id ∈ ids)
  (ht : g.freshTables id = .ok t)

include hclosed hbound hid ht

/-- The value of an export whose key is known is the value of the key. -/
theorem exists_alike_exported {k : BindingKey} (h : (g.exported t name).value = .ok k) :
    ∃ hops least, ∀ n, least ≤ n → ∀ m, g.Serves m → g.limit < m.nesting →
      (Query.exported t name).Direct g.freshTables ∨ ¬ FailsLookup (keyValue (interp n) k m) →
        Alike (Recached g) ((interp (n + hops)).exported id name m) (keyValue (interp n) k m) := by
  obtain ⟨visited, hfinds⟩ := Graph.finds_of_value_exported h nofun
  obtain ⟨hops, least, hmeets⟩ :=
    hfinds.meets hclosed hbound (Graph.holds_of_freshTables ht hid)
  refine ⟨hops + 1, least, fun n hn m hm hnesting hclear => ?_⟩
  obtain ⟨found, _, m', hsearch, hfound⟩ :=
    hmeets n hn m m _ _ _ (.refl hm) (Query.starts_exported hm hnesting) fun k hk => by
      cases hk
      exact hclear
  rw [Query.evaluate, Graph.id_of_freshTables ht] at hsearch
  rw [← Nat.add_assoc, exported_eq hsearch]
  exact hfound

/-- The value of an export that stands for a module as a whole is the module, if that can be
loaded. -/
theorem exists_alike_everything {target : ModuleId}
    (h : (g.exported t name).value = .ok (.everything target)) :
    ∃ least, ∀ n, least ≤ n → ∀ m, g.Serves m → g.limit < m.nesting →
      (∀ t', g.freshTables target = .ok t' →
        Alike (Recached g) ((interp n).exported id name m) (.ok (.module target) m)) ∧
      ∀ e, g.freshTables target = .error e → (Query.exported t name).Direct g.freshTables →
        Alike (Recached g) ((interp n).exported id name m) (.error (.load e) m) := by
  obtain ⟨hops, least, halike⟩ := exists_alike_exported hclosed hbound hid ht h
  refine ⟨least + hops, fun n hn m hm hnesting => ?_⟩
  obtain ⟨n, rfl⟩ := Nat.exists_eq_add_of_le' (Nat.le_of_add_left_le hn)
  have hvalue := halike n (Nat.le_of_add_le_add_right hn) m hm hnesting
  have hmodule := alike_everything hm (interp n) target
  refine ⟨fun t' ht' => ?_, fun e he hdirect => ?_⟩
  · -- A module that can be loaded is no failure, whatever has been passed on the way.
    rw [ht'] at hmodule
    refine (hvalue (.inr fun hfails => ?_)).recached hmodule
    cases hend : keyValue (interp n) (.everything target) m with
    | ok v m' =>
      rw [hend] at hfails
      exact hfails
    | error e m' =>
      rw [hend] at hmodule
      exact hmodule
  · rw [he] at hmodule
    exact (hvalue (.inl hdirect)).recached hmodule

/-- An export that is known to be missing is missing. -/
theorem exists_alike_missing {id' : ModuleId} {name' : String}
    (h : (g.exported t name).value = .error (.missingExport id' name')) :
    ∃ least, ∀ n, least ≤ n → ∀ m, g.Serves m → g.limit < m.nesting →
      Alike (Recached g) ((interp n).exported id name m)
        (.error (.missingExport id' name') m) := by
  obtain ⟨visited, hfinds⟩ := Graph.finds_of_value_exported h nofun
  obtain ⟨hops, least, hmeets⟩ :=
    hfinds.meets hclosed hbound (Graph.holds_of_freshTables ht hid)
  refine ⟨least + (hops + 1), fun n hn m hm hnesting => ?_⟩
  obtain ⟨n, rfl⟩ := Nat.exists_eq_add_of_le' (Nat.le_of_add_left_le hn)
  obtain ⟨_, _, m', hsearch, e', rfl, hm', he', -⟩ := hmeets n (Nat.le_of_add_le_add_right hn) m m
    _ _ _ (.refl hm) (Query.starts_exported hm hnesting) nofun
  rw [Query.evaluate, Graph.id_of_freshTables ht] at hsearch
  rw [← Nat.add_assoc, exported_eq hsearch, he'.missing _ _ rfl]
  exact ⟨rfl, hm'⟩

end Agreement

/-- **Both searches for an export agree.** Take modules that import only from one another and export
only names which they declare or import. From some nesting depth on, and on every machine for these
modules: if a resolver finds a name, the value of the export is the value of the name, evaluated a
fixed number of calls deeper; if it finds a module as a whole, the value is the module, or the
failure to load it; if it finds the export missing, evaluation fails with the same export missing.
Where a re-export of everything is passed on the way, this is said only of names whose evaluation
does not itself fail since something is missing, and of modules that can be loaded. -/
theorem export_values_agree {g : Graph} {r : Resolution} {ids : Set ModuleId} {id : ModuleId}
    {t : Tables} (hr : g.Resolver r) (hclosed : g.Closed ids) (hbound : g.ExportsBound ids)
    (hid : id ∈ ids) (ht : g.freshTables id = .ok t) (name : String) :
    (∀ id' name', ((g.exported t name).result r).1 = .ok (.name id' name') →
      ∃ hops least, ∀ n, least ≤ n → ∀ m, g.Serves m → g.limit < m.nesting →
        (Query.exported t name).Direct g.freshTables ∨
            ¬ FailsLookup ((interp n).topLevel id' name' m) →
          Alike (Recached g) ((interp (n + hops)).exported id name m)
            ((interp n).topLevel id' name' m)) ∧
    (∀ target, ((g.exported t name).result r).1 = .ok (.everything target) →
      ∃ least, ∀ n, least ≤ n → ∀ m, g.Serves m → g.limit < m.nesting →
        (∀ t', g.freshTables target = .ok t' →
          Alike (Recached g) ((interp n).exported id name m) (.ok (.module target) m)) ∧
        ∀ e, g.freshTables target = .error e → (Query.exported t name).Direct g.freshTables →
          Alike (Recached g) ((interp n).exported id name m) (.error (.load e) m)) ∧
    ∀ id' name', ((g.exported t name).result r).1 = .error (.missingExport id' name') →
      ∃ least, ∀ n, least ≤ n → ∀ m, g.Serves m → g.limit < m.nesting →
        Alike (Recached g) ((interp n).exported id name m)
          (.error (.missingExport id' name') m) := by
  rw [(g.steady_exported t name).value_eq r hr.sound]
  exact ⟨fun id' name' h => exists_alike_exported hclosed hbound hid ht h,
    fun target h => exists_alike_everything hclosed hbound hid ht h,
    fun id' name' h => exists_alike_missing hclosed hbound hid ht h⟩

/-- `export const x = null; export { x as y } from './unit'; export * as all from './unit';
export * from './unit'`. -/
def mirrorUnit : Module where
  items := [
    .exportDecl (.var .const [.mk (.ident ⟨"x", 0⟩) (some .null)] false),
    .exports [.named (.ident ⟨"x", 1⟩) (some (.ident ⟨"y", 2⟩)) false] (some "./unit") false,
    .exports [.everything (.ident ⟨"all", 3⟩)] (some "./unit") false,
    .exportAll "./unit" false]

/-- The graph of this unit, which re-exports from itself. -/
def mirrorGraph : Graph where
  loader := {}
  features := {}
  entry := Tables.build "/unit" mirrorUnit fun _ => .ok "/unit"

theorem entry_mirror : mirrorGraph.entry.imports = {} ∧
    mirrorGraph.entry.exports.entries = [("x", .own "x"),
      ("y", .reexport ⟨"./unit", .named "x", .ok "/unit"⟩),
      ("all", .reexport ⟨"./unit", .everything, .ok "/unit"⟩)] ∧
    mirrorGraph.entry.stars = [⟨"./unit", .ok "/unit"⟩] ∧
    mirrorGraph.entry.declarations.contains "x" = true := ⟨by cbv, by cbv, by cbv, by cbv⟩

theorem closed_mirror : mirrorGraph.Closed {"/unit"} := by
  intro id hid t ht target htarget
  cases Set.mem_singleton_iff.1 hid
  cases mirrorGraph.freshTables_entry.symm.trans ht
  obtain ⟨himports, hexports, hstars, -⟩ := entry_mirror
  cases htarget with
  | imported h => rw [himports] at h; cases h
  | reexported h hsource =>
    have hmem := OrderedMap.mem_entries_of_get? h
    rw [hexports] at hmem
    simp only [mem_cons, Prod.mk.injEq, Export.reexport.injEq, reduceCtorEq, and_false,
      not_mem_nil, or_false, false_or] at hmem
    rcases hmem with ⟨-, rfl⟩ | ⟨-, rfl⟩
    · exact (Except.ok.inj hsource).symm
    · exact (Except.ok.inj hsource).symm
  | star h hsource =>
    rw [hstars] at h
    cases mem_singleton.1 h
    exact (Except.ok.inj hsource).symm

theorem exportsBound_mirror : mirrorGraph.ExportsBound {"/unit"} := by
  intro id hid t ht name own h
  cases Set.mem_singleton_iff.1 hid
  cases mirrorGraph.freshTables_entry.symm.trans ht
  obtain ⟨-, hexports, -, hdeclared⟩ := entry_mirror
  have hmem := OrderedMap.mem_entries_of_get? h
  rw [hexports] at hmem
  simp only [mem_cons, Prod.mk.injEq, Export.own.injEq, reduceCtorEq, and_false,
    not_mem_nil, or_false] at hmem
  exact .inl (hmem.2 ▸ hdeclared)

theorem direct_mirror : (Query.exported mirrorGraph.entry "y").Direct mirrorGraph.freshTables := by
  refine .reexport (i := ⟨"./unit", .named "x", .ok "/unit"⟩) (by cbv) ?_
  refine .loaded (t := mirrorGraph.entry) rfl rfl mirrorGraph.freshTables_entry ?_
  exact .declared (by cbv) entry_mirror.2.2.2

/-- Before the first style call, the unit's exports have the values of what they stand for. -/
theorem export_values_agree_mirror :
    (∃ hops n, Alike (Recached mirrorGraph)
      ((interp (n + hops)).exported "/unit" "y" (.start mirrorGraph {} {}))
      ((interp n).topLevel "/unit" "x" (.start mirrorGraph {} {}))) ∧
    (∃ n, Alike (Recached mirrorGraph)
      ((interp n).exported "/unit" "all" (.start mirrorGraph {} {}))
      (.ok (.module "/unit") (.start mirrorGraph {} {}))) ∧
    ∃ n, Alike (Recached mirrorGraph)
      ((interp n).exported "/unit" "z" (.start mirrorGraph {} {}))
      (.error (.missingExport "/unit" "z") (.start mirrorGraph {} {})) := by
  have hr : mirrorGraph.Resolver {} := .start nofun
  have hm : mirrorGraph.Serves (.start mirrorGraph {} {}) := ⟨rfl, nofun⟩
  have hnesting : mirrorGraph.limit < (Machine.start mirrorGraph {} {}).nesting :=
    Machine.limit_lt_nesting_start (by decide +kernel) {} {}
  have hagree := export_values_agree hr closed_mirror exportsBound_mirror rfl
    mirrorGraph.freshTables_entry
  obtain ⟨hops, n₁, hy⟩ := (hagree "y").1 "/unit" "x" (by cbv)
  obtain ⟨n₂, hall⟩ := (hagree "all").2.1 "/unit" (by cbv)
  obtain ⟨n₃, hz⟩ := (hagree "z").2.2 "/unit" "z" (by cbv)
  exact ⟨⟨hops, n₁, hy n₁ le_rfl _ hm hnesting (.inl direct_mirror)⟩,
    ⟨n₂, (hall n₂ le_rfl _ hm hnesting).1 _ mirrorGraph.freshTables_entry⟩,
    ⟨n₃, hz n₃ le_rfl _ hm hnesting⟩⟩

/-- `export * as lost from './lost'; export { undefined }`. -/
def strayUnit : Module where
  items := [
    .exports [.everything (.ident ⟨"lost", 0⟩)] (some "./lost") false,
    .exports [.named (.ident ⟨"undefined", 1⟩) none false] none false]

/-- The graph of this unit; there is no other module. -/
def strayGraph : Graph where
  loader := {}
  features := {}
  entry := Tables.build "/unit" strayUnit fun _ => .ok "/lost"

/-- `export * from './a'; export * from './b'`. -/
def barrelUnit : Module where
  items := [.exportAll "./a" false, .exportAll "./b" false]

/-- The graph of this unit; both modules export `x`, the first one with the value of a name that
the unit does not export. -/
def barrelGraph : Graph where
  loader := { tree := { entries := [
    ([.root, .name "a"], .file "import\x7by\x7dfrom'./unit';export let x=y"),
    ([.root, .name "b"], .file "export let x=null"),
    ([.root, .name "unit"], .file "")] } }
  features := {}
  entry := Tables.build "/unit" barrelUnit fun specifier => .ok (specifier.drop 1).toString

/-- Where the searches differ: a module that cannot be loaded is what an export stands for but not
its value; a name that the module does not declare has a value although the export is missing; and
of a name found through a re-export of everything, whose evaluation fails since something is
missing, the value is that of the next one of this name. -/
theorem export_values_differ :
    (((strayGraph.exported strayGraph.entry "lost").result {}).1 = .ok (.everything "/lost") ∧
      ∀ n, ∃ m, (interp (n + 1)).exported "/unit" "lost" (.start strayGraph {} {}) =
        .error (.load (.unreadable "/lost" .notFound)) m) ∧
    (((strayGraph.exported strayGraph.entry "undefined").result {}).1 =
        .error (.missingExport "/unit" "undefined") ∧
      ∀ n, ∃ m, (interp (n + 2)).exported "/unit" "undefined" (.start strayGraph {} {}) =
        .ok .undefined m) ∧
    ((barrelGraph.exported barrelGraph.entry "x").result {}).1 = .ok (.name "/a" "x") ∧
      ∀ n, (∃ m, (interp (n + 8)).topLevel "/a" "x" (.start barrelGraph {} {}) =
          .error (.missingExport "/unit" "y") m) ∧
        ∃ m, (interp (n + 8)).exported "/unit" "x" (.start barrelGraph {} {}) = .ok .null m := by
  refine ⟨⟨by cbv, fun n => ?_⟩, ⟨by cbv, fun n => ?_⟩, by decide +kernel, fun n => ⟨?_, ?_⟩⟩
  · exact ⟨after ((interp (n + 1)).exported "/unit" "lost") (.start strayGraph {} {}), by cbv⟩
  · exact ⟨.start strayGraph {} {}, by cbv⟩
  · set_option maxRecDepth 10000 in
    exact ⟨after ((interp (n + 8)).topLevel "/a" "x") (.start barrelGraph {} {}), by cbv⟩
  · set_option maxRecDepth 10000 in
    exact ⟨after ((interp (n + 8)).exported "/unit" "x") (.start barrelGraph {} {}), by cbv⟩

end AtomicStyles
