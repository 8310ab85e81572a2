import AtomicStyles.Proofs.Termination.Modules

/-!
# Evaluation ends

The parts of evaluation call each other in three ways. A call and the begin of an evaluation
use something up, a part of the code is smaller than the whole, and an export that is passed on
is looked for where it comes from. The last may lead back to where it began: a module that
passes on its own exports through another one is searched for ever, once the search has failed
elsewhere. Where no chain of re-exports goes on for ever, every part of evaluation ends: by
induction on the cost, inside that along the chains of re-exports, and last on the size of the
code.

## Main definitions

* `Graph.PassesOn` — what the search for an export may turn into.
* `Graph.ReexportsEnd` — no chain of re-exports goes on for ever.

## Main results

* `ending_exported` — the search for the value of an export ends.
* `ending_runs` — **all parts of evaluation end.**
-/

namespace AtomicStyles

open Script Eval Coupling

/-! ### Chains of re-exports -/

/-- The module exports an import under the name. -/
inductive Tables.Forwards (t : Tables) (name : String) (im : Import) : Prop where
  | reexport : t.exports.get? name = some (.reexport im) → Forwards t name im
  | own {own : String} : t.exports.get? name = some (.own own) →
      t.declarations.contains own = false → t.imports.get? own = some im → Forwards t name im

theorem Tables.Forwards.pointsTo {t : Tables} {name : String} {im : Import} {target : ModuleId}
    (h : t.Forwards name im) (hsource : im.source = .ok target) : t.PointsTo target := by
  cases h with
  | reexport hexport => exact .reexported hexport hsource
  | own _ _ himport => exact .imported himport hsource

namespace Graph

/-- The first module has no export of the name and passes on all exports of the second one. -/
def Includes (g : Graph) (name : String) (id target : ModuleId) : Prop :=
  ∃ t, g.freshTables id = .ok t ∧ t.exports.get? name = none ∧ name ≠ "default" ∧
    ∃ star ∈ t.stars, star.source = .ok target

/-- The export of the first module is one that it imports from the second. -/
def Forwards (g : Graph) (p q : ModuleId × String) : Prop :=
  ∃ t im, g.freshTables p.1 = .ok t ∧ t.Forwards p.2 im ∧ im.source = .ok q.1 ∧
    im.imported.exportName? = some q.2

/-- The search for an export may turn into that for another one. -/
def PassesOn (g : Graph) (p q : ModuleId × String) : Prop :=
  ∃ id, Relation.ReflTransGen (g.Includes p.2) p.1 id ∧ g.Forwards (id, p.2) q

def ReexportsEnd (g : Graph) (ids : Finset ModuleId) : Prop :=
  ∀ id ∈ ids, ∀ name, Acc (fun q p => g.PassesOn p q) (id, name)

end Graph

variable {g : Graph} {ids : Finset ModuleId} {c : Nat} {α : Type} {m : Machine} {id : ModuleId}
  {name : String}

/-! ### Parts of evaluation -/

/-- A part of evaluation ends if what it does with the parts one level below does. -/
theorem ending_interp {Q : α → Prop} (part step : Interp → Eval α)
    (hstep : ∀ n, part (interp (n + 1)) = step (interp n))
    (h : (ending g ids).Holds c Q fun b => step (interp b.1)) :
    (ending g ids).Holds c Q fun b => part (interp b.1) := by
  have heq : ∀ᶠ b : Bounds in Filter.atTop, part (interp b.1) = step (interp (b.1 - 1)) := by
    filter_upwards [Filter.eventually_ge_atTop ((1, 0) : Bounds)] with b hb
    have hdepth : b.1 = b.1 - 1 + 1 := (Nat.sub_add_cancel hb.1).symm
    rw [← hstep, ← hdepth]
  refine ending_congr heq fun m hm hc => ?_
  cases h m hm hc with
  | returns a m' ha hm' hx =>
    exact .returns a m' ha hm' (.succ_depth (x := fun n _ => step (interp n)) hx)
  | fails e m' he hm' hx =>
    exact .fails e m' he hm' (.succ_depth (x := fun n _ => step (interp n)) hx)

section Exports

variable (hspans : g.Spans ids)

include hspans

/-- An import ends if what it turns into does. -/
theorem ending_importValue (hid : id ∈ ids) {t : Tables} (ht : g.freshTables id = .ok t)
    {im : Import} (him : ∀ target, im.source = .ok target → t.PointsTo target)
    (hexported : ∀ target name, target ∈ ids → im.source = .ok target →
      im.imported.exportName? = some name →
      (ending g ids).Gives c fun b => (interp b.1).exported target name) :
    (ending g ids).Gives c fun b => importValue (interp b.1) id im := by
  have htarget (target : ModuleId) (hsource : im.source = .ok target) : target ∈ ids :=
    hspans.closed id hid t ht target (him target hsource)
  exact Logic.holds_importValue (L := endingLogic hspans) (R := fun b => interp b.1) htarget
    (fun target name hsource hname => hexported target name (htarget target hsource) hsource hname)
    id

variable (hlow : ∀ j < c, ∀ size, (endingLogic hspans).Runs j size fun b => interp b.1)

include hlow

/-- A declaration is evaluated with the parts of evaluation at a lower cost. -/
theorem ending_forceDeclaration {t : Tables} (ht : (ending g ids).Table id t)
    (hname : t.declarations.contains name = true) :
    (ending g ids).Gives c fun b => forceDeclaration (interp b.1) id t name :=
  ending_evalOnce ht hname fun j hj => Judgement.Holds.mono
    (Logic.holds_evalDeclaration (L := endingLogic hspans) (hlow j hj) (s := { module := id }) ht.1
      fun _ _ => trivial) fun _ _ _ _ => trivial

/-- The search for an export ends: it visits one more module with each step, and what an export
turns into ends. -/
theorem ending_searchExport {source : ModuleId} {n : Nat} (lost : Nat) (hid : id ∈ ids)
    (hreach : Relation.ReflTransGen (g.Includes name) source id)
    (hpassed : ∀ q, g.PassesOn (source, name) q → q.1 ∈ ids →
      (ending g ids).Gives c fun b => (interp b.1).exported q.1 q.2)
    {visited : List ModuleId} (hvisited : Visited ids n visited) :
    (ending g ids).Holds c ((endingLogic hspans).SearchResult (Visited ids n)) fun b =>
      searchExport (interp b.1) name (b.2 - lost) id visited := by
  -- On the number of modules that have not been visited; how much fuel is lost does not matter.
  induction hleft : ids.card - n using Nat.strong_induction_on
    generalizing n lost id visited with
  | _ left ih =>
    have hfuel := (eventually_fuel lost).mono fun b hb =>
      congrArg (searchExport (interp b.1) name · id visited) hb
    refine ending_congr hfuel ?_
    simp only [searchExport]
    have hmissing : (ending g ids).Fair (.missingExport id name) := nofun
    refine .iteOf (fun _ => .pure ⟨hmissing, hvisited⟩) fun hseen => ?_
    have hnew : id ∉ visited := by simpa using hseen
    have hcons := hvisited.cons hid hnew
    have hless := hcons.le_card
    refine (ending_tables hid).outcome.bind fun result hresult => ?_
    cases result with
    | error e => exact .pure ⟨hresult, hcons.mono⟩
    | ok t =>
      have ht := hresult.2
      -- What the module exports under the name may be an import, from where the search goes on.
      have himport (im : Import) (him : t.Forwards name im) :
          (ending g ids).Gives c fun b => importValue (interp b.1) id im :=
        ending_importValue hspans hid ht (fun _ => him.pointsTo)
          fun target name' hmem hsource hname =>
            hpassed (target, name') ⟨id, hreach, t, im, ht, him, hsource, hname⟩ hmem
      have hown (own : String) (hexport : t.exports.get? name = some (.own own)) :
          (ending g ids).Gives c fun b => (interp b.1).topLevel id own := by
        refine ending_interp (·.topLevel id own) (topLevelValue · id own) (fun _ => rfl) ?_
        refine Logic.holds_topLevelValue (L := endingLogic hspans) hlow hid
          (fun t ht hname => ending_forceDeclaration hspans hlow ht hname) ?_
        intro t' im ht' hdecl him
        cases ht.symm.trans ht'.2
        exact himport im (.own hexport hdecl him)
      refine Judgement.Holds.mono ?_ fun r (hr : (endingLogic hspans).SearchResult
        (Visited ids (n + 1)) r) => ⟨hr.1, hr.2.mono⟩
      refine Logic.holds_searchTables (L := endingLogic hspans) hown
        (fun im hexport => himport im (.reexport hexport))
        (fun hnone hname star hstar target hsource visited' hvisited' => ?_) hcons
      have htarget := hspans.closed id hid t ht target (.star hstar hsource)
      have hnext : g.Includes name id target := ⟨t, ht, hnone, hname, star, hstar, hsource⟩
      exact ih _ (by omega) (lost + 1) htarget (hreach.tail hnext) hvisited' rfl

theorem ending_exported (hends : g.ReexportsEnd ids) (hid : id ∈ ids) (name : String) :
    (ending g ids).Gives c fun b => (interp b.1).exported id name := by
  have hacc := hends id hid name
  generalize hp : (id, name) = p at hacc
  -- Along the chain of re-exports: what the export turns into is looked for from anew, with no
  -- module visited.
  induction hacc generalizing id name with
  | intro p _ ih =>
    subst hp
    refine ending_interp (·.exported id name) (exportValue · id name) (fun _ => rfl) ?_
    unfold exportValue
    refine ending_nesting ?_
    have hpassed (q : ModuleId × String) (hq : g.PassesOn (id, name) q) (hmem : q.1 ∈ ids) :=
      ih q hq hmem q.2 rfl
    exact (ending_searchExport hspans hlow 0 hid .refl hpassed .nil).bind fun _ hfound =>
      .conclude hfound.1

theorem ending_topLevel (hends : g.ReexportsEnd ids) (hid : id ∈ ids) (name : String) :
    (ending g ids).Gives c fun b => topLevelValue (interp b.1) id name := by
  refine Logic.holds_topLevelValue (L := endingLogic hspans) hlow hid
    (fun t ht hname => ending_forceDeclaration hspans hlow ht hname) fun t im ht _ himport => ?_
  exact ending_importValue hspans hid ht.2 (fun _ => .imported himport) fun _ name hmem _ _ =>
    ending_exported hspans hlow hends hmem name

end Exports

/-! ### Assignments -/

/-- A name that is there can be assigned to, or cannot, but is not missing. -/
theorem exists_assign_eq {s : Scope} {f : FrameRef} {slot : Slot}
    (h : m.find? name s.frames = some (f, slot)) (v : Value) :
    ∃ a m', assign s name v m = .ok a m' ∧ a ≠ .missing := by
  have hget : (get : Eval Machine) m = .ok m m := rfl
  unfold assign
  rw [bind_eq_of_ok hget, h]
  rcases slot with ⟨_ | _, _ | _⟩ <;> exact ⟨_, _, rfl, nofun⟩

theorem writeOr_eq {s : Scope} {f : FrameRef} {slot : Slot}
    (h : m.find? name s.frames = some (f, slot)) (x y : Eval Unit) (v : Value) :
    writeOr x s name v m = writeOr y s name v m := by
  obtain ⟨a, m', ha, hne⟩ := exists_assign_eq h v
  unfold writeOr
  rw [bind_eq_of_ok ha, bind_eq_of_ok ha]
  cases a with
  | missing => exact absurd rfl hne
  | _ => rfl

theorem lookup_bounded (m : Machine) (s : Scope) (name : String) (limit nesting : Nat) :
    lookup s name (m.bounded limit nesting) =
      .ok ((m.find? name s.frames).map (·.2)) (m.bounded limit nesting) := by
  rw [← find?_bounded m name s.frames limit nesting]
  rfl

/-- After a declaration has been evaluated, its name can be written. -/
theorem ending_assigned (hspans : g.Spans ids)
    (hlow : ∀ j < c, ∀ size, (endingLogic hspans).Runs j size fun b => interp b.1) {t : Tables}
    (ht : (ending g ids).Table id t) (hname : t.declarations.contains name = true) {v : Value}
    (hv : (ending g ids).Good v) :
    (ending g ids).Gives c fun b => (do
      let _ ← topLevelValue (interp b.1) id name
      writeOr (throw .endless) { module := id } name v) := by
  simp only [topLevelValue, bind_assoc]
  refine (ending_tables ht.1).bind fun t' ht' => ?_
  cases ht.2.symm.trans ht'.2
  simp only [if_pos hname, bind_assoc]
  have hforce := ending_forceDeclaration hspans hlow ht hname
  refine Judgement.Holds.bind (Logic.holds_prepare (L := endingLogic hspans) hlow ht hforce)
    fun _ _ m hm hc => ?_
  rcases hfind : m.find? name (Scope.frames { module := id }) with _ | ⟨f, _ | v', isMutable⟩
  · refine .of_error (e := .uninitialized name) hm nofun fun b limit nesting => ?_
    rw [bind_eq_of_ok (lookup_bounded m _ name limit nesting), hfind]
    rfl
  · refine .of_error (e := .uninitialized name) hm nofun fun b limit nesting => ?_
    rw [bind_eq_of_ok (lookup_bounded m _ name limit nesting), hfind]
    rfl
  · -- The name is there, so that it does not matter what is done otherwise.
    have hwrite := Logic.holds_writeOr (L := endingLogic hspans) (i := c)
      (Judgement.Holds.pure (a := ()) trivial) { module := id } name hv m hm hc
    refine .of_eq (.refl hm) hwrite (.of_forall fun b limit => ?_)
    rw [bind_eq_of_ok (lookup_bounded m _ name limit b.2), hfind]
    exact writeOr_eq ((find?_bounded m name _ limit b.2).trans hfind) _ _ v

/-! ### Evaluation -/

/-- All parts of evaluation end, on code of any size and at any cost. -/
theorem ending_runs (hspans : g.Spans ids) (hends : g.ReexportsEnd ids) (c : Nat) :
    ∀ size, (endingLogic hspans).Runs c size fun b => interp b.1 := by
  induction c using Nat.strong_induction_on with
  | _ c hlow =>
    -- Calls, names and exports run code of any size at a lower cost, so that they end for every
    -- size at once; the induction on the size is left to the code itself.
    have hcall {f : Value} {args : List Value} (hf : (ending g ids).Good f)
        (hargs : (ending g ids).Good args) :
        (ending g ids).Gives c fun b => (interp b.1).call f args :=
      ending_interp (·.call f args) (callFunction · f args) (fun _ => rfl)
        (Logic.holds_callFunction (L := endingLogic hspans) hlow hf hargs)
    have htop {id : ModuleId} (name : String) (hid : id ∈ ids) :
        (ending g ids).Gives c fun b => (interp b.1).topLevel id name :=
      ending_interp (·.topLevel id name) (topLevelValue · id name) (fun _ => rfl)
        (ending_topLevel hspans hlow hends hid name)
    have hassigned {id : ModuleId} {t : Tables} {name : String} {v : Value}
        (ht : (ending g ids).Table id t) (hname : t.declarations.contains name = true)
        (hv : (ending g ids).Good v) :
        (ending g ids).Gives c fun b => (do
          let _ ← (interp b.1).topLevel id name
          writeOr (throw .endless) { module := id } name v) :=
      ending_interp (fun r => do
          let _ ← r.topLevel id name
          writeOr (throw .endless) { module := id } name v)
        (fun r => do
          let _ ← topLevelValue r id name
          writeOr (throw .endless) { module := id } name v)
        (fun _ => rfl) (ending_assigned hspans hlow ht hname hv)
    intro size
    induction size with
    | zero =>
      exact
        { expr := fun _ h => absurd h (Nat.not_lt_zero _)
          stmt := fun _ h => absurd h (Nat.not_lt_zero _)
          bind := fun _ _ _ _ h => absurd h (Nat.not_lt_zero _)
          call := hcall
          topLevel := htop
          exported := fun name hid => ending_exported hspans hlow hends hid name
          assigned := hassigned }
    | succ size ih =>
      exact
        { expr := fun hs he => ending_interp (·.expr _ _) (evalExpr · _ _) (fun _ => rfl)
            (Logic.holds_evalExpr ih hs (Nat.le_of_lt_succ he))
          stmt := fun hs hstmt => ending_interp (·.stmt _ _) (runStmt · _ _) (fun _ => rfl)
            (Logic.holds_runStmt ih hs (Nat.le_of_lt_succ hstmt))
          bind := fun kind _ _ hs hp hv =>
            ending_interp (·.bind _ kind _ _) (bindPattern · _ kind _ _) (fun _ => rfl)
              (Logic.holds_bindPattern ih kind hs (Nat.le_of_lt_succ hp) hv)
          call := hcall
          topLevel := htop
          exported := fun name hid => ending_exported hspans hlow hends hid name
          assigned := hassigned }

end AtomicStyles
