import AtomicStyles.Proofs.Resolving

/-!
# The search for an export, as rules

What an export of a module stands for is found by following imports and re-exports from
module to module. The search is given by rules, one for each turn that it can take, with
a bound on its depth. A search that ends follows the rules, and finds the same with every
larger bound.

## Main definitions

* `Query` — what is looked for.
* `Finds` — what a query finds, and which modules have been visited after it.
* `Query.answer` — what a query comes to when it is run.

## Main results

* `Finds.mono` — a larger bound does not change what is found.
* `Finds.isLookup` — a search fails only where something is missing or cannot be loaded.
-/

namespace AtomicStyles

open Script Resolving

/-- Whether the failure is that something is missing or cannot be loaded. -/
def Unresolved.isLookup : Unresolved → Bool
  | unresolvedImport _ _ _ => true
  | load _ => true
  | missingExport _ _ => true
  | _ => false

inductive Query where
  | exported (t : Tables) (name : String)
  /-- What an import or a re-export of a module points to. -/
  | imported (importer : ModuleId) (i : Import)
  /-- An export in a module that is re-exported as a whole. -/
  | star (importer : ModuleId) (name : String) (s : Star)
  /-- An export in any of the modules that are re-exported as a whole, after a first failure. -/
  | stars (importer : ModuleId) (name : String) (first : Option Unresolved) (ss : List Star)

/-- Within a bound on the depth of the search, the query finds the key or fails, given the modules
that have been visited before it and after it. -/
inductive Finds (load : ModuleId → Except LoadError Tables) :
    Nat → Query → List ModuleId → Except Unresolved BindingKey → List ModuleId → Prop where
  | visited {fuel name visited} {t : Tables} : t.id ∈ visited →
      Finds load (fuel + 1) (.exported t name) visited (.error (.missingExport t.id name)) visited
  | declared {fuel name own visited} {t : Tables} :
      t.id ∉ visited → t.exports.get? name = some (.own own) →
      t.declarations.contains own = true →
      Finds load (fuel + 1) (.exported t name) visited (.ok (.name t.id own)) (t.id :: visited)
  | unbound {fuel name own visited} {t : Tables} :
      t.id ∉ visited → t.exports.get? name = some (.own own) →
      t.declarations.contains own = false → t.imports.get? own = none →
      Finds load (fuel + 1) (.exported t name) visited (.error (.missingExport t.id name))
        (t.id :: visited)
  | ownImport {fuel name own visited visited' i found} {t : Tables} :
      t.id ∉ visited → t.exports.get? name = some (.own own) →
      t.declarations.contains own = false → t.imports.get? own = some i →
      Finds load fuel (.imported t.id i) (t.id :: visited) found visited' →
      Finds load (fuel + 1) (.exported t name) visited found visited'
  | reexport {fuel name visited visited' i found} {t : Tables} :
      t.id ∉ visited → t.exports.get? name = some (.reexport i) →
      Finds load fuel (.imported t.id i) (t.id :: visited) found visited' →
      Finds load (fuel + 1) (.exported t name) visited found visited'
  | noDefault {fuel visited} {t : Tables} : t.id ∉ visited → t.exports.get? "default" = none →
      Finds load (fuel + 1) (.exported t "default") visited
        (.error (.missingExport t.id "default")) (t.id :: visited)
  | throughStars {fuel name visited visited' found} {t : Tables} :
      t.id ∉ visited → t.exports.get? name = none → name ≠ "default" →
      Finds load fuel (.stars t.id name none t.stars) (t.id :: visited) found visited' →
      Finds load (fuel + 1) (.exported t name) visited found visited'
  | unresolved {fuel importer visited e} {i : Import} : i.source = .error e →
      Finds load fuel (.imported importer i) visited
        (.error (.unresolvedImport importer i.specifier e)) visited
  | everything {fuel importer target visited} {i : Import} :
      i.source = .ok target → i.imported.exportName? = none →
      Finds load fuel (.imported importer i) visited (.ok (.everything target)) visited
  | unloadable {fuel importer target visited name e} {i : Import} :
      i.source = .ok target → i.imported.exportName? = some name → load target = .error e →
      Finds load fuel (.imported importer i) visited (.error (.load e)) visited
  | loaded {fuel importer target visited visited' name t found} {i : Import} :
      i.source = .ok target → i.imported.exportName? = some name → load target = .ok t →
      Finds load fuel (.exported t name) [] found visited' →
      Finds load fuel (.imported importer i) visited found visited
  | starUnresolved {fuel importer name visited e} {s : Star} : s.source = .error e →
      Finds load fuel (.star importer name s) visited
        (.error (.unresolvedImport importer s.specifier e)) visited
  | starUnloadable {fuel importer target name visited e} {s : Star} :
      s.source = .ok target → load target = .error e →
      Finds load fuel (.star importer name s) visited (.error (.load e)) visited
  | starLoaded {fuel importer target name t visited visited' found} {s : Star} :
      s.source = .ok target → load target = .ok t →
      Finds load fuel (.exported t name) visited found visited' →
      Finds load fuel (.star importer name s) visited found visited'
  | noStar {fuel importer name first visited} :
      Finds load fuel (.stars importer name first []) visited
        (.error (first.getD (.missingExport importer name))) visited
  | thisStar {fuel importer name first s ss visited visited' k} :
      Finds load fuel (.star importer name s) visited (.ok k) visited' →
      Finds load fuel (.stars importer name first (s :: ss)) visited (.ok k) visited'
  | nextStar {fuel importer name first s ss visited visited' visited'' e found} :
      Finds load fuel (.star importer name s) visited (.error e) visited' →
      Finds load fuel
        (.stars importer name (if e.isMissingExport then first else first <|> some e) ss)
        visited' found visited'' →
      Finds load fuel (.stars importer name first (s :: ss)) visited found visited''

/-- The failures that a query starts with come from lookups. -/
def Query.Clean : Query → Prop
  | .stars _ _ first _ => ∀ e ∈ first, e.isLookup = true
  | _ => True

theorem Finds.isLookup {load : ModuleId → Except LoadError Tables} {fuel : Nat} {q : Query}
    {visited visited' : List ModuleId} {found : Except Unresolved BindingKey}
    (h : Finds load fuel q visited found visited') (hq : q.Clean) :
    ∀ e, found = .error e → e.isLookup = true := by
  induction h with
  | declared | everything | thisStar => rintro _ ⟨⟩
  | visited | unbound | noDefault | unresolved | unloadable | starUnresolved | starUnloadable =>
    rintro _ ⟨⟩
    rfl
  | ownImport _ _ _ _ _ ih => exact ih trivial
  | reexport _ _ _ ih => exact ih trivial
  | throughStars _ _ _ _ ih => exact ih (by rintro _ ⟨⟩)
  | loaded _ _ _ _ ih => exact ih trivial
  | starLoaded _ _ _ ih => exact ih trivial
  | @noStar _ _ _ first =>
    rintro _ ⟨⟩
    cases first with
    | none => rfl
    | some e => exact hq e rfl
  | @nextStar _ _ _ first _ _ _ _ _ e' _ _ _ ihStar ih =>
    -- The failure of this star may become the first one that the rest starts with.
    have he' : e'.isLookup = true := ihStar trivial e' rfl
    refine ih fun e he => ?_
    split at he
    · exact hq e he
    · cases first with
      | none => cases he; exact he'
      | some e₁ => exact hq e he

theorem Finds.ne_endless {load : ModuleId → Except LoadError Tables} {fuel : Nat} {q : Query}
    {visited visited' : List ModuleId} {found : Except Unresolved BindingKey}
    (h : Finds load fuel q visited found visited') (hq : q.Clean) : found ≠ .error .endless :=
  fun hends => Bool.false_ne_true (h.isLookup hq _ hends)

namespace Graph

variable (g : Graph)

/-- The key that an export stands for, found by a search of bounded depth. -/
def exportedWithin (fuel : Nat) (t : Tables) (name : String) : Resolving BindingKey := do
  let (found, _) ← g.searchExport fuel t name []
  ofExcept found

theorem steady_exportedWithin (fuel : Nat) (t : Tables) (name : String) :
    Steady g (g.exportedWithin fuel t name) :=
  (g.steady_searchExport _ _ _ _).bind fun r => .ofExcept r.1

theorem value_exportedWithin (fuel : Nat) (t : Tables) (name : String) :
    (g.exportedWithin fuel t name).value =
      (g.searchExport fuel t name []).value >>= fun r => r.1 := by
  rw [exportedWithin, value_bind (g.steady_searchExport _ _ _ _) fun r => .ofExcept r.1]
  exact bind_congr fun r => value_ofExcept r.1

/-- What a top-level name stands for. -/
theorem value_bindVia {find : Tables → String → Resolving BindingKey}
    (hfind : ∀ t name, Steady g (find t name)) (t : Tables) (name : String) :
    (g.bindVia find t name).value =
      if t.declarations.contains name then .ok (some (.name t.id name))
      else match t.imports.get? name with
        | some i => (g.follow find t.id i).value.map some
        | none => .ok none := by
  unfold bindVia
  split
  · rfl
  · cases t.imports.get? name with
    | none => rfl
    | some i =>
      refine (value_bind (g.steady_follow hfind t.id i) fun k => .pure (some k)).trans ?_
      dsimp only
      cases (g.follow find t.id i).value <;> rfl

end Graph

/-- What a query comes to when searches are bounded by `fuel`. -/
def Query.answer (g : Graph) (fuel : Nat) (visited : List ModuleId) :
    Query → Except Unresolved (Except Unresolved BindingKey × List ModuleId)
  | .exported t name => (g.searchExport fuel t name visited).value
  | .imported importer i =>
    (Unresolved.settle (g.follow (g.exportedWithin fuel) importer i).value).map (·, visited)
  | .star importer name s =>
    (g.searchStar (fun t => g.searchExport fuel t name) importer s visited).value
  | .stars importer name first ss =>
    (g.searchStars (fun t => g.searchExport fuel t name) importer
      (.missingExport importer name) first ss visited).value

namespace Query

variable {g : Graph} {fuel : Nat} {visited visited' : List ModuleId}

/-! ### One step of each query -/

theorem answer_imported (importer : ModuleId) (i : Import) :
    (imported importer i).answer g fuel visited =
      match i.source with
      | .error e => .ok (.error (.unresolvedImport importer i.specifier e), visited)
      | .ok target =>
        match i.imported.exportName? with
        | none => .ok (.ok (.everything target), visited)
        | some name =>
          match g.freshTables target with
          | .error e => .ok (.error (.load e), visited)
          | .ok t =>
            (Unresolved.settle (g.exportedWithin fuel t name).value).map (·, visited) := by
  cases hsource : i.source with
  | error e =>
    simp only [answer, Graph.follow, hsource]
    rfl
  | ok target =>
    cases hname : i.imported.exportName? with
    | none =>
      simp only [answer, Graph.follow, hsource, hname]
      rfl
    | some name =>
      simp only [answer, Graph.follow, hsource, hname]
      rw [value_bind (g.steady_lookup target) fun t => g.steady_exportedWithin fuel t name,
        g.value_lookup]
      cases g.freshTables target with
      | error e => rfl
      | ok t => rfl

theorem answer_star (importer : ModuleId) (name : String) (s : Star) :
    (star importer name s).answer g fuel visited =
      match s.source with
      | .error e => .ok (.error (.unresolvedImport importer s.specifier e), visited)
      | .ok target =>
        match g.freshTables target with
        | .error e => .ok (.error (.load e), visited)
        | .ok t => (exported t name).answer g fuel visited := by
  cases hsource : s.source with
  | error e =>
    simp only [answer, Graph.searchStar, hsource]
    rfl
  | ok target =>
    simp only [answer, Graph.searchStar, hsource]
    rw [value_bind (g.steady_lookup target).outcome
      (fun t => by split <;> [exact g.steady_searchExport _ _ _ _; exact .pure _]), value_outcome,
      g.value_lookup]
    cases g.freshTables target with
    | error e => rfl
    | ok t => rfl

theorem answer_stars_cons (importer : ModuleId) (name : String) (first : Option Unresolved)
    (s : Star) (ss : List Star) :
    (stars importer name first (s :: ss)).answer g fuel visited =
      ((star importer name s).answer g fuel visited >>= fun r =>
        match r.1 with
        | .ok k => .ok (.ok k, r.2)
        | .error e =>
          (stars importer name (if e.isMissingExport then first else first <|> some e) ss).answer g
            fuel r.2) := by
  have hfind : ∀ t visited, Steady g (g.searchExport fuel t name visited) :=
    fun t visited => g.steady_searchExport fuel t name visited
  refine (value_bind (g.steady_searchStar hfind importer s visited) fun r => ?_).trans
    (bind_congr fun r => ?_)
  · split
    split
    · exact .pure _
    · exact g.steady_searchStars hfind _ _ _ _ _
  · obtain ⟨found, visited⟩ := r
    cases found <;> rfl

/-- What a search for an export does first. -/
theorem answer_exported_succ (t : Tables) (name : String) :
    (exported t name).answer g (fuel + 1) visited =
      if t.id ∈ visited then .ok (.error (.missingExport t.id name), visited)
      else match t.exports.get? name with
        | some (.own own) =>
          if t.declarations.contains own then .ok (.ok (.name t.id own), t.id :: visited)
          else match t.imports.get? own with
            | some i => (imported t.id i).answer g fuel (t.id :: visited)
            | none => .ok (.error (.missingExport t.id name), t.id :: visited)
        | some (.reexport i) => (imported t.id i).answer g fuel (t.id :: visited)
        | none =>
          if name = "default" then .ok (.error (.missingExport t.id name), t.id :: visited)
          else (stars t.id name none t.stars).answer g fuel (t.id :: visited) := by
  have hfind : ∀ t name, Steady g (g.exportedWithin fuel t name) := g.steady_exportedWithin fuel
  have hfollow : ∀ i, Steady g (g.follow (g.exportedWithin fuel) t.id i) :=
    fun i => g.steady_follow hfind t.id i
  show (g.searchExport (fuel + 1) t name visited).value = _
  rw [Graph.searchExport]
  simp only [List.contains_iff_mem]
  split
  · rfl
  · cases hexport : t.exports.get? name with
    | none =>
      dsimp only
      split <;> rfl
    | some e =>
      cases e with
      | own own =>
        dsimp only
        refine (value_bind (g.steady_bindVia hfind t own).outcome
          fun found => by split <;> exact .pure _).trans ?_
        rw [value_outcome, g.value_bindVia hfind]
        split
        · rfl
        · cases t.imports.get? own with
          | none => rfl
          | some i =>
            dsimp only [answer]
            cases hvalue : (g.follow (g.exportedWithin fuel) t.id i).value with
            | error e => cases e <;> rfl
            | ok k => rfl
      | reexport i =>
        dsimp only
        refine (value_bind (hfollow i).outcome fun _ => .pure _).trans ?_
        rw [value_outcome, answer]
        cases Unresolved.settle (g.follow (g.exportedWithin fuel) t.id i).value <;> rfl

/-! ### Queries and rules -/

theorem exists_of_map_eq_ok {α β : Type} {x : Except Unresolved α} {f : α → β} {b : β}
    (h : x.map f = .ok b) : ∃ a, x = .ok a ∧ f a = b := by
  cases x with
  | error e => cases h
  | ok a => exact ⟨a, rfl, Except.ok.inj h⟩

variable {e : Unresolved} {q : Query}

theorem eq_error_of_map_eq_error {α β : Type} {x : Except Unresolved α} {f : α → β}
    (h : x.map f = .error e) : x = .error e := by
  cases x with
  | error e' => exact congrArg Except.error (Except.error.inj h)
  | ok a => cases h

/-- Queries of one depth fail only where the search does not end, if searches for exports do. -/
theorem answer_eq_error_of
    (hsearch : ∀ {t name visited e}, (exported t name).answer g fuel visited = .error e → e = .endless)
    (h : q.answer g fuel visited = .error e) : e = .endless := by
  have hstar : ∀ {importer name s visited e},
      (star importer name s).answer g fuel visited = .error e → e = .endless := by
    intro importer name s visited e h
    rw [answer_star] at h
    split at h
    · cases h
    · split at h
      · cases h
      · exact hsearch h
  cases q with
  | exported t name => exact hsearch h
  | imported importer i =>
    -- An import passes on every failure of the search but this one as something found.
    exact (Unresolved.settle_eq_error (eq_error_of_map_eq_error h)).2
  | star importer name s => exact hstar h
  | stars importer name first ss =>
    induction ss generalizing first visited with
    | nil => cases h
    | cons s ss ih =>
      rw [answer_stars_cons, bind_eq_error_iff] at h
      rcases h with h | ⟨⟨found, visited'⟩, -, h⟩
      · exact hstar h
      · cases found with
        | ok k => cases h
        | error e => exact ih _ h

/-- A query by itself fails only where the search does not end. -/
theorem answer_eq_error (h : q.answer g fuel visited = .error e) : e = .endless := by
  refine answer_eq_error_of ?_ h
  clear h
  induction fuel with
  | zero =>
    intro t name visited e h
    exact (Except.error.inj h).symm
  | succ fuel ih =>
    intro t name visited e h
    rw [answer_exported_succ] at h
    split at h
    · cases h
    · split at h
      · split at h
        · cases h
        · split at h
          · exact answer_eq_error_of ih h
          · cases h
      · exact answer_eq_error_of ih h
      · split at h
        · cases h
        · exact answer_eq_error_of ih h

/-- What an import finds is what the export that it names is found to be. -/
theorem exists_of_settle_eq_ok {t : Tables} {name : String} {found : Except Unresolved BindingKey}
    (h : Unresolved.settle (g.exportedWithin fuel t name).value = .ok found) :
    ∃ visited', (exported t name).answer g fuel [] = .ok (found, visited') := by
  obtain ⟨hvalue, hends⟩ := Unresolved.settle_eq_ok_iff.1 h
  rw [g.value_exportedWithin] at hvalue hends
  cases hanswer : (exported t name).answer g fuel [] with
  | error e =>
    have hsearch : (g.searchExport fuel t name []).value = .error e := hanswer
    rw [answer_eq_error hanswer] at hsearch
    rw [hsearch] at hends
    exact absurd rfl hends
  | ok r =>
    have hsearch : (g.searchExport fuel t name []).value = .ok r := hanswer
    rw [hsearch] at hvalue
    exact ⟨r.2, congrArg (fun found => Except.ok (found, r.2)) hvalue⟩

/-- Queries of one depth follow the rules if searches for exports do. -/
theorem finds_of_answer_of {found : Except Unresolved BindingKey}
    (hsearch : ∀ {t name visited found visited'}, (exported t name).answer g fuel visited = .ok (found, visited') → Finds g.freshTables fuel (.exported t name) visited found visited')
    (h : q.answer g fuel visited = .ok (found, visited')) :
    Finds g.freshTables fuel q visited found visited' := by
  -- The search in one star is needed for itself and for each star of a list.
  have hstar : ∀ {importer name s visited found visited'},
      (star importer name s).answer g fuel visited = .ok (found, visited') →
      Finds g.freshTables fuel (.star importer name s) visited found visited' := by
    intro importer name s visited found visited' h
    rw [answer_star] at h
    split at h
    · next hsource =>
      cases h
      exact .starUnresolved hsource
    · next target hsource =>
      split at h
      · next hload =>
        cases h
        exact .starUnloadable hsource hload
      · next t hload => exact .starLoaded hsource hload (hsearch h)
  cases q with
  | exported t name => exact hsearch h
  | imported importer i =>
    rw [answer_imported] at h
    split at h
    · next hsource =>
      cases h
      exact .unresolved hsource
    · next target hsource =>
      split at h
      · next hname =>
        cases h
        exact .everything hsource hname
      · next name hname =>
        split at h
        · next hload =>
          cases h
          exact .unloadable hsource hname hload
        · next t hload =>
          obtain ⟨found, hfound, h⟩ := exists_of_map_eq_ok h
          cases h
          obtain ⟨visited', hanswer⟩ := exists_of_settle_eq_ok hfound
          exact .loaded hsource hname hload (hsearch hanswer)
  | star importer name s => exact hstar h
  | stars importer name first ss =>
    induction ss generalizing first visited with
    | nil =>
      cases h
      exact .noStar
    | cons s ss ih =>
      rw [answer_stars_cons, bind_eq_ok_iff] at h
      obtain ⟨⟨found, visited₁⟩, hfound, h⟩ := h
      cases found with
      | ok k =>
        cases h
        exact .thisStar (hstar hfound)
      | error e => exact .nextStar (hstar hfound) (ih _ h)

end Query

open Query

variable {g : Graph} {fuel : Nat} {visited visited' : List ModuleId} {q : Query}
  {found : Except Unresolved BindingKey}

/-- **A search that ends follows the rules.** -/
theorem finds_of_answer (h : q.answer g fuel visited = .ok (found, visited')) :
    Finds g.freshTables fuel q visited found visited' := by
  -- Only a search for an export has a depth; the other queries are settled at the depth of the
  -- searches that they make.
  refine finds_of_answer_of ?_ h
  clear h
  induction fuel with
  | zero =>
    intro t name visited found visited' h
    cases h
  | succ fuel ih =>
    intro t name visited found visited' h
    rw [answer_exported_succ] at h
    split at h
    · next hmem =>
      cases h
      exact .visited hmem
    · next hmem =>
      split at h
      · next own hexport =>
        split at h
        · next hdeclared =>
          cases h
          exact .declared hmem hexport hdeclared
        · next hdeclared =>
          rw [Bool.not_eq_true] at hdeclared
          split at h
          · next i himport =>
            exact .ownImport hmem hexport hdeclared himport (finds_of_answer_of ih h)
          · next himport =>
            cases h
            exact .unbound hmem hexport hdeclared himport
      · next i hexport => exact .reexport hmem hexport (finds_of_answer_of ih h)
      · next hexport =>
        split at h
        · next hname =>
          cases h
          subst hname
          exact .noDefault hmem hexport
        · next hname => exact .throughStars hmem hexport hname (finds_of_answer_of ih h)

/-- What the rules find is found. -/
theorem Finds.answer (h : Finds g.freshTables fuel q visited found visited') :
    q.answer g fuel visited = .ok (found, visited') := by
  induction h with
  | visited hmem => rw [answer_exported_succ, if_pos hmem]
  | declared hmem hexport hdeclared =>
    simp only [answer_exported_succ, if_neg hmem, hexport, hdeclared, if_true]
  | unbound hmem hexport hdeclared himport =>
    simp only [answer_exported_succ, if_neg hmem, hexport, hdeclared, himport,
      Bool.false_eq_true, if_false]
  | ownImport hmem hexport hdeclared himport _ ih =>
    simp only [answer_exported_succ, if_neg hmem, hexport, hdeclared, himport, ih,
      Bool.false_eq_true, if_false]
  | reexport hmem hexport _ ih => simp only [answer_exported_succ, if_neg hmem, hexport, ih]
  | noDefault hmem hexport => simp only [answer_exported_succ, if_neg hmem, hexport, if_true]
  | throughStars hmem hexport hname _ ih =>
    simp only [answer_exported_succ, if_neg hmem, hexport, if_neg hname, ih]
  | unresolved hsource => simp only [answer_imported, hsource]
  | everything hsource hname => simp only [answer_imported, hsource, hname]
  | unloadable hsource hname hload => simp only [answer_imported, hsource, hname, hload]
  | @loaded fuel _ _ _ _ name t found _ hsource hname hload hfinds ih =>
    have hvalue : (g.exportedWithin fuel t name).value = found := by
      rw [g.value_exportedWithin]
      exact congrArg (· >>= fun r => r.1) ih
    simp only [answer_imported, hsource, hname, hload, hvalue,
      Unresolved.settle_of_ne (hfinds.ne_endless trivial)]
    rfl
  | starUnresolved hsource => simp only [answer_star, hsource]
  | starUnloadable hsource hload => simp only [answer_star, hsource, hload]
  | starLoaded hsource hload _ ih => simp only [answer_star, hsource, hload, ih]
  | noStar => rfl
  | thisStar _ ih =>
    rw [answer_stars_cons, ih]
    rfl
  | nextStar _ _ ihStar ih =>
    rw [answer_stars_cons, ihStar]
    exact ih

theorem Finds.succ {load : ModuleId → Except LoadError Tables}
    (h : Finds load fuel q visited found visited') :
    Finds load (fuel + 1) q visited found visited' := by
  induction h with
  | visited hmem => exact .visited hmem
  | declared hmem hexport hdeclared => exact .declared hmem hexport hdeclared
  | unbound hmem hexport hdeclared himport => exact .unbound hmem hexport hdeclared himport
  | ownImport hmem hexport hdeclared himport _ ih =>
    exact .ownImport hmem hexport hdeclared himport ih
  | reexport hmem hexport _ ih => exact .reexport hmem hexport ih
  | noDefault hmem hexport => exact .noDefault hmem hexport
  | throughStars hmem hexport hname _ ih => exact .throughStars hmem hexport hname ih
  | unresolved hsource => exact .unresolved hsource
  | everything hsource hname => exact .everything hsource hname
  | unloadable hsource hname hload => exact .unloadable hsource hname hload
  | loaded hsource hname hload _ ih => exact .loaded hsource hname hload ih
  | starUnresolved hsource => exact .starUnresolved hsource
  | starUnloadable hsource hload => exact .starUnloadable hsource hload
  | starLoaded hsource hload _ ih => exact .starLoaded hsource hload ih
  | noStar => exact .noStar
  | thisStar _ ih => exact .thisStar ih
  | nextStar _ _ ihStar ih => exact .nextStar ihStar ih

theorem Finds.mono {load : ModuleId → Except LoadError Tables} {fuel' : Nat}
    (h : Finds load fuel q visited found visited') (hle : fuel ≤ fuel') :
    Finds load fuel' q visited found visited' :=
  Nat.le_induction h (fun _ _ => Finds.succ) fuel' hle

end AtomicStyles
