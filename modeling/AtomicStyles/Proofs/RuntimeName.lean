import Mathlib
import AtomicStyles.Output.ImportPlan
import AtomicStyles.Proofs.Places
import AtomicStyles.Site.Detect

/-!
# The name of the runtime primitive

Rewritten calls refer to the runtime primitive by a name of the unit, which reaches an import
unless a scope around the call declares it. If the import is added, its name occurs
nowhere in the unit, so it reaches the import from every place; the search for such a name
ends, since the unit mentions finitely many. If the unit has an import of its own, the name
of that import is taken as it is, and a function around a call can have a parameter or a
variable of that name.

## Main definitions

* `RuntimeImport.candidate` — the names that are tried.
* `RuntimeImport.extend` — the unit with the import that is added.
* `StyleCall.Stands` — where a style call stands.

## Main results

* `RuntimeImport.fresh_eq` — the search ends at the first name that is not taken.
* `RuntimeImport.runtime_name_reaches_import` — from where the name reaches the import.
* `RuntimeImport.runtime_name_captured` — a call from where it does not.
-/

namespace AtomicStyles

open Script List

namespace RuntimeImport

/-! ### The search for a name -/

/-- The names that are tried, from the first one on. -/
def candidate (base : String) (n : Nat) : String := if n = 1 then base else base ++ toString n

theorem candidate_injective (base : String) : Function.Injective (candidate base) := by
  have hne : ∀ n : Nat, base ≠ base ++ toString n := by
    intro n heq
    have hlen := congrArg String.length heq
    have hpos : 0 < (toString n).length := Nat.length_repr_pos
    rw [String.length_append] at hlen
    omega
  intro j k h
  unfold candidate at h
  split at h
  · next hj =>
    split at h
    · next hk => rw [hj, hk]
    · exact absurd h (hne k)
  · split at h
    · exact absurd h.symm (hne j)
    · exact Nat.repr_inj.1 ((String.append_right_inj base).1 h)

/-- Among more candidates than there are taken names one is not taken. -/
theorem exists_candidate (base : String) (taken : List String) :
    ∃ n, 1 ≤ n ∧ n < 1 + (taken.length + 1) ∧ candidate base n ∉ taken := by
  by_contra hnone
  -- otherwise the candidates, one more than there are taken names, are all among these
  have hsub : (List.range' 1 (taken.length + 1)).map (candidate base) ⊆ taken := by
    intro name hname
    obtain ⟨n, hn, rfl⟩ := mem_map.1 hname
    rw [mem_range'_1] at hn
    by_contra hfree
    exact hnone ⟨n, hn.1, hn.2, hfree⟩
  have hnodup : ((List.range' 1 (taken.length + 1)).map (candidate base)).Nodup :=
    (nodup_range' 1).map (candidate_injective base)
  have hlen := (hnodup.subperm hsub).length_le
  rw [length_map, length_range'] at hlen
  omega

theorem freshFrom_eq {base : String} {taken : List String} {n fuel : Nat}
    (h : ∃ k, n ≤ k ∧ k < n + fuel ∧ candidate base k ∉ taken) :
    ∃ k, n ≤ k ∧ k < n + fuel ∧ freshFrom base taken n fuel = candidate base k ∧
      candidate base k ∉ taken ∧ ∀ j, n ≤ j → j < k → candidate base j ∈ taken := by
  induction fuel generalizing n with
  | zero =>
    obtain ⟨k, hle, hlt, -⟩ := h
    omega
  | succ fuel ih =>
    obtain ⟨k, hle, hlt, hfree⟩ := h
    have hstep : freshFrom base taken n (fuel + 1) =
        if taken.contains (candidate base n) then freshFrom base taken (n + 1) fuel
        else candidate base n := rfl
    by_cases htaken : candidate base n ∈ taken
    · -- the search goes on, and the free candidate lies ahead
      have hk : k ≠ n := by
        rintro rfl
        exact hfree htaken
      rw [hstep, if_pos (contains_iff_mem.2 htaken)]
      obtain ⟨l, hle', hlt', heq, hfree', hfirst⟩ := ih (n := n + 1) ⟨k, by omega, by omega, hfree⟩
      refine ⟨l, by omega, by omega, heq, hfree', fun j hj hjl => ?_⟩
      by_cases hjn : j = n
      · exact hjn ▸ htaken
      · exact hfirst j (by omega) hjl
    · rw [hstep, if_neg (mt contains_iff_mem.1 htaken)]
      exact ⟨n, le_rfl, by omega, rfl, htaken, fun j hj hjn => by omega⟩

/-- **The search ends at the first candidate that is not taken.** -/
theorem fresh_eq (base : String) (taken : List String) :
    ∃ n, 1 ≤ n ∧ n ≤ taken.length + 1 ∧ fresh base taken = candidate base n ∧
      candidate base n ∉ taken ∧ ∀ k, 1 ≤ k → k < n → candidate base k ∈ taken := by
  obtain ⟨n, hle, hlt, heq, hfree, hfirst⟩ := freshFrom_eq (exists_candidate base taken)
  exact ⟨n, hle, by omega, heq, hfree, hfirst⟩

/-! ### The unit with its import -/

/-- The statement that imports `imported` under the name `name`. -/
def item (name imported source : String) : Item :=
  .imports [.named ⟨name, 0⟩ (if name = imported then none else some (.ident ⟨imported, 0⟩)) false]
    source false

def isDirective (i : Item) : Bool := (directiveEnd? i).isSome

/-- The unit after the import has been added behind its directives, if it has to be. -/
def extend (m : Module) (source imported : String) : RuntimeImport → Module
  | .existing _ => m
  | .insert name _ =>
    let directives := m.items.takeWhile isDirective
    let rest := m.items.dropWhile isDirective
    { m with items := directives ++ item name imported source :: rest }

variable {m : Module} {i : Item} {source imported : String}

theorem mem_items_extend (source imported : String) (p : RuntimeImport) (hi : i ∈ m.items) :
    i ∈ (p.extend m source imported).items := by
  cases p with
  | existing name => exact hi
  | insert name offset =>
    have hsplit : m.items.takeWhile isDirective ++ m.items.dropWhile isDirective = m.items :=
      takeWhile_append_dropWhile
    rw [← hsplit] at hi
    rcases mem_append.1 hi with hi | hi
    · exact mem_append_left _ hi
    · exact mem_append_right _ (.tail _ hi)

theorem of_mem_items_extend {p : RuntimeImport} (hi : i ∈ (p.extend m source imported).items) :
    i ∈ m.items ∨ i = item p.name imported source := by
  cases p with
  | existing name => exact .inl hi
  | insert name offset =>
    rcases mem_append.1 hi with hi | hi
    · exact .inl ((takeWhile_sublist _).subset hi)
    · rcases mem_cons.1 hi with rfl | hi
      · exact .inr rfl
      · exact .inl ((dropWhile_sublist _).subset hi)

def nameOf? (source imported : String) : Item → Option String
  | .imports specifiers from? false => if from? = source then nameIn imported specifiers else none
  | _ => none

theorem nameIn?_eq (m : Module) (source imported : String) :
    nameIn? m source imported = m.items.findSome? (nameOf? source imported) := rfl

theorem nameOf?_of_isDirective (h : isDirective i) : nameOf? source imported i = none := by
  cases i with
  | stmt s => rfl
  | _ => cases h

theorem nameOf?_item (name imported source : String) :
    nameOf? source imported (item name imported source) = some name := by
  by_cases hname : name = imported
  · simp [nameOf?, item, nameIn, hname, ImportSpecifier.importedName?]
  · simp [nameOf?, item, nameIn, hname, ImportSpecifier.importedName?, ExportName.text]

theorem plan_of_none (text : String) (h : nameIn? m source imported = none) :
    plan m text source imported = .insert (fresh imported m.names) (insertionPoint m text) := by
  unfold plan
  split
  · next name hname =>
    rw [h] at hname
    cases hname
  · rfl

/-- The unit imports the primitive under the name that calls use. -/
theorem nameIn?_extend_plan (m : Module) (text source imported : String) :
    nameIn? ((plan m text source imported).extend m source imported) source imported =
      some (plan m text source imported).name := by
  unfold plan
  split
  · next name hname => exact hname
  · have hdirectives : (m.items.takeWhile isDirective).findSome? (nameOf? source imported) = none := by
      rw [findSome?_eq_none_iff]
      intro i hi
      exact nameOf?_of_isDirective (mem_takeWhile_imp hi)
    rw [nameIn?_eq, extend, findSome?_append, hdirectives, findSome?_cons, nameOf?_item]
    rfl

/-- A name that a unit imports is declared at its top level. -/
theorem mem_top_of_nameIn? {name : String} (h : nameIn? m source imported = some name) :
    name ∈ m.env.top := by
  rw [nameIn?_eq] at h
  obtain ⟨i, hi, h⟩ := exists_of_findSome?_eq_some h
  unfold nameOf? at h
  split at h
  · next specifiers from? =>
    split at h
    · obtain ⟨s, hs, h⟩ := exists_of_findSome?_eq_some h
      split at h
      · next id imported' =>
        split at h
        · cases h
          refine mem_map.2 ⟨id, mem_append_left _ (mem_flatMap.2 ⟨_, hi, ?_⟩), rfl⟩
          exact mem_map.2 ⟨_, hs, rfl⟩
        · cases h
      · cases h
    · cases h
  · cases h

end RuntimeImport

/-! ### Scopes around a call -/

namespace Script

variable {env : Env} {name : String}

theorem Env.binding_eq_module :
    env.binding name = .module ↔ ¬ env.Declares name ∧ name ∈ env.top := by
  constructor
  · intro h
    refine ⟨fun hdeclares => ?_, ?_⟩
    · rw [hdeclares.binding] at h
      cases h
    · unfold Env.binding at h
      split at h
      · cases h
      · split at h
        · next htop => exact contains_iff_mem.1 htop
        · cases h
  · rintro ⟨hdeclares, htop⟩
    have hinner : ¬ (env.inner.any fun names => names.contains name) = true := by
      intro hany
      obtain ⟨names, hnames, hname⟩ := any_eq_true.1 hany
      exact hdeclares ⟨names, hnames, contains_iff_mem.1 hname⟩
    rw [Env.binding, if_neg hinner, if_pos (contains_iff_mem.2 htop)]

variable {n : Node}

/-- The top level of a module stays in sight. -/
theorem Sees.mem_top {there : Env} {c : Node} (h : Sees env n there c) (hname : name ∈ env.top) :
    name ∈ there.top := by
  have hkept : Env.Kept (name ∈ ·.top) fun _ => True := by
    refine ⟨fun h _ => h, fun {env ids} h _ => ?_⟩
    unfold Env.declare
    split
    · exact mem_append_left _ h
    · exact h
  exact (h.kept hkept hname fun _ _ => trivial).1

/-- A name that the node does not mention is not declared by a scope inside it. -/
theorem Sees.not_declares {there : Env} {c : Node} (h : Sees env n there c)
    (hname : ¬ env.Declares name) (hn : n.All fun id => id.name ≠ name) :
    ¬ there.Declares name := by
  have hkept : Env.Kept (¬ ·.Declares name) fun id => id.name ≠ name := by
    constructor
    · rintro env ids h hids ⟨names, hnames, hmem⟩
      rcases mem_cons.1 hnames with rfl | hnames
      · obtain ⟨id, hid, heq⟩ := mem_map.1 hmem
        exact hids id hid heq
      · exact h ⟨names, hnames, hmem⟩
    · rintro env ids h hids ⟨names, hnames, hmem⟩
      unfold Env.declare at hnames
      split at hnames
      · next hinner =>
        rw [hinner] at hnames
        cases hnames
      · next scope scopes hinner =>
        rcases mem_cons.1 hnames with rfl | hnames
        · rcases mem_append.1 hmem with hmem | hmem
          · exact h ⟨scope, hinner ▸ (.head _), hmem⟩
          · obtain ⟨id, hid, heq⟩ := mem_map.1 hmem
            exact hids id hid heq
        · exact h ⟨names, hinner ▸ .tail _ hnames, hmem⟩
  exact (h.kept hkept hname hn).1

theorem Module.not_declares_env (m : Module) : ¬ m.env.Declares name := by
  rintro ⟨names, hnames, -⟩
  cases hnames

/-- The items of a module do not mention a name that is not among its names. -/
theorem Module.all_of_not_mem_names {m : Module} (hname : name ∉ m.names) {i : Item}
    (hi : i ∈ m.items) : (Node.item i).All fun id => id.name ≠ name := by
  rintro id hid rfl
  refine hname (mem_append_left _ (mem_filterMap.2 ⟨.ident id, ?_, rfl⟩))
  exact mem_flatMap.2 ⟨i, hi, hid⟩

theorem Node.eq_of_call? {c : Call} (h : n.call? = some c) :
    n = .expr (.call c.callee c.args c.span) := by
  unfold Node.call? at h
  split at h
  · cases h
    rfl
  · cases h

end Script

/-- The style call stands in `there`, somewhere in the module. -/
def StyleCall.Stands (call : StyleCall) (m : Module) (there : Env) : Prop :=
  ∃ i ∈ m.items, ∃ callee, Sees m.env (.item i) there (.expr (.call callee [call.argument] call.span))

variable {call : StyleCall}

theorem StyleCall.args_of_ofCall {bindings : List (Nat × Binding)} {c : Call}
    (h : StyleCall.ofCall bindings c = some call) :
    c.args = [call.argument] ∧ call.span = c.span := by
  unfold StyleCall.ofCall at h
  split at h
  · cases h
  · next e _ hargs =>
    cases h
    exact ⟨hargs, rfl⟩
  · cases h

theorem StyleCall.exists_call_of_mem_detect {m : Module} {fs : List StyleFunction}
    (h : call ∈ StyleCall.detect m fs) :
    ∃ enter, ∃ c ∈ (m.nodes enter).filterMap Node.call?, StyleCall.ofCall m.bindings c = some call := by
  unfold StyleCall.detect at h
  dsimp only at h
  split at h
  · cases h
  · obtain ⟨c, hc, hcall⟩ := mem_filterMap.1 h
    split at hcall
    · exact ⟨_, c, hc, hcall⟩
    · cases hcall

/-- A style call of a module stands somewhere in each module that has its items. -/
theorem StyleCall.exists_stands {m m' : Module} {fs : List StyleFunction}
    (h : call ∈ StyleCall.detect m fs) (hitems : ∀ i ∈ m.items, i ∈ m'.items) :
    ∃ there, call.Stands m' there := by
  obtain ⟨enter, c, hc, hcall⟩ := exists_call_of_mem_detect h
  obtain ⟨n, hn, hnc⟩ := mem_filterMap.1 hc
  obtain ⟨i, hi, hn⟩ := mem_flatMap.1 hn
  obtain ⟨hargs, hspan⟩ := args_of_ofCall hcall
  rw [Node.eq_of_call? hnc, hargs, ← hspan] at hn
  obtain ⟨there, hsees⟩ := Node.Has.exists_sees (Node.mem_preorder_all hn) m'.env
  exact ⟨there, i, hitems i hi, c.callee, hsees⟩

namespace RuntimeImport

/-- No expression stands in the import that is added. -/
theorem not_sees_item {env there : Env} {name imported source : String} {e : Expr} :
    ¬ Sees env (.item (item name imported source)) there (.expr e) := by
  have hident : ∀ part ∈ (Node.item (item name imported source)).children,
      ∃ id, part = .ident id := by
    intro part hpart
    by_cases hname : name = imported
    · simp_all [item, Node.children, Node.ofItem, Node.ofImportSpecifier]
    · rw [item, if_neg hname] at hpart
      rcases mem_cons.1 hpart with rfl | hpart
      · exact ⟨_, rfl⟩
      · exact ⟨_, mem_singleton.1 hpart⟩
  intro h
  cases h with
  | inside hpart hbelow =>
    obtain ⟨id, rfl⟩ := hident _ (mem_of_mem_seeing hpart)
    cases hbelow with
    | inside hpart _ => cases hpart

/-- **From where the name of the runtime primitive reaches the import.** The unit that results
imports the primitive under the name that rewritten calls use. Every style call stands somewhere
in it, and there the name is that of the import exactly if no scope around the call declares it.
No scope does if the import has to be added: the name is the first candidate that the unit does
not mention, and there is one. -/
theorem runtime_name_reaches_import (m : Module) (fs : List StyleFunction)
    (text source imported : String) :
    let p := plan m text source imported
    let m' := p.extend m source imported
    nameIn? m' source imported = some p.name ∧
      (∀ call ∈ StyleCall.detect m fs, (∃ there, call.Stands m' there) ∧
        ∀ there, call.Stands m' there →
          (there.binding p.name = .module ↔ ¬ there.Declares p.name) ∧
          (nameIn? m source imported = none → there.binding p.name = .module)) ∧
      (nameIn? m source imported = none →
        ∃ n, 1 ≤ n ∧ n ≤ m.names.length + 1 ∧ p.name = candidate imported n ∧
          candidate imported n ∉ m.names ∧ ∀ k, 1 ≤ k → k < n → candidate imported k ∈ m.names) := by
  intro p m'
  have himport : nameIn? m' source imported = some p.name := nameIn?_extend_plan m text source imported
  have htop : p.name ∈ m'.env.top := mem_top_of_nameIn? himport
  have hfresh : nameIn? m source imported = none → p.name = fresh imported m.names := by
    intro hnone
    rw [show p = .insert (fresh imported m.names) (insertionPoint m text) from plan_of_none text hnone]
    rfl
  refine ⟨himport, fun call hcall => ⟨?_, ?_⟩, ?_⟩
  · exact StyleCall.exists_stands hcall fun i hi => mem_items_extend source imported p hi
  · rintro there ⟨i, hi, callee, hsees⟩
    have hiff : there.binding p.name = .module ↔ ¬ there.Declares p.name := by
      rw [Env.binding_eq_module, and_iff_left (hsees.mem_top htop)]
    refine ⟨hiff, fun hnone => hiff.2 ?_⟩
    -- the added import holds no call, so the call stands in an item of the unit
    have hi : i ∈ m.items := by
      rcases of_mem_items_extend hi with hi | rfl
      · exact hi
      · exact absurd hsees not_sees_item
    refine hsees.not_declares m'.not_declares_env (Module.all_of_not_mem_names ?_ hi)
    obtain ⟨n, -, -, heq, hfree, -⟩ := fresh_eq imported m.names
    rw [hfresh hnone, heq]
    exact hfree
  · intro hnone
    rw [hfresh hnone]
    exact fresh_eq imported m.names

/-- `function f(runtime) { css({}) }`, where `css` is imported. -/
def plainUnit : Module where
  items := [
    .imports [.named ⟨"css", 0⟩ none false] "lib" false,
    .stmt (.decl (.func ⟨"f", 1⟩ (.mk [] [.ident ⟨"runtime", 2⟩] (.block
      [.expr (.call (.ident ⟨"css", 3⟩) [.object []] ⟨3, 4⟩) ⟨3, 4⟩]) false false) false))]

/-- The call `css({})` of the unit. -/
def plainCall : StyleCall where
  span := ⟨3, 4⟩
  argument := .object []
  references := {}
  innerNames := []

/-- The parameter has the name of the primitive, so the import is added under the next one. -/
theorem runtime_name_reaches_import_plain :
    let p := plan plainUnit "" "lib" "runtime"
    p.name = "runtime2" ∧ plainCall ∈ StyleCall.detect plainUnit [⟨"lib", "css"⟩] ∧
      ∃ there, plainCall.Stands (p.extend plainUnit "lib" "runtime") there ∧
        there.Declares "runtime" ∧ there.binding p.name = .module := by
  intro p
  have hdetect : plainCall ∈ StyleCall.detect plainUnit [⟨"lib", "css"⟩] := by
    have : StyleCall.detect plainUnit [⟨"lib", "css"⟩] = [plainCall] := by cbv
    rw [this]
    exact mem_cons_self
  have hnone : nameIn? plainUnit "lib" "runtime" = none := by decide +kernel
  obtain ⟨there, hcall, hdeclares⟩ := exists_sees_call (p.extend plainUnit "lib" "runtime").env
    ⟨"f", 1⟩ ⟨"runtime", 2⟩ (.ident ⟨"css", 3⟩) (.object []) ⟨3, 4⟩
  have hstands : plainCall.Stands (p.extend plainUnit "lib" "runtime") there :=
    ⟨_, mem_items_extend "lib" "runtime" p (.tail _ (.head _)), _, hcall⟩
  have hreaches := runtime_name_reaches_import plainUnit [⟨"lib", "css"⟩] "" "lib" "runtime"
  exact ⟨by decide +kernel, hdetect, there, hstands, hdeclares,
    ((hreaches.2.1 plainCall hdetect).2 there hstands).2 hnone⟩

/-- `function f(runtime) { css({}) }`, where `css` and `runtime` are imported. -/
def shadowingUnit : Module where
  items := [
    .imports [.named ⟨"css", 0⟩ none false, .named ⟨"runtime", 1⟩ none false] "lib" false,
    .stmt (.decl (.func ⟨"f", 2⟩ (.mk [] [.ident ⟨"runtime", 3⟩] (.block
      [.expr (.call (.ident ⟨"css", 4⟩) [.object []] ⟨4, 5⟩) ⟨4, 5⟩]) false false) false))]

/-- The name of the unit's own import is taken, and the rewritten call calls the parameter. -/
theorem runtime_name_captured :
    plan shadowingUnit "" "lib" "runtime" = .existing "runtime" ∧
      ∃ call ∈ StyleCall.detect shadowingUnit [⟨"lib", "css"⟩], ∃ there,
        call.Stands shadowingUnit there ∧ there.binding "runtime" = .inner := by
  have hdetect : StyleCall.detect shadowingUnit [⟨"lib", "css"⟩] =
      [{ span := ⟨4, 5⟩, argument := .object [], references := {}, innerNames := [] }] := by cbv
  rw [hdetect]
  obtain ⟨there, hcall, hdeclares⟩ := exists_sees_call shadowingUnit.env ⟨"f", 2⟩ ⟨"runtime", 3⟩
    (.ident ⟨"css", 4⟩) (.object []) ⟨4, 5⟩
  exact ⟨by decide +kernel, _, mem_singleton.2 rfl, there, ⟨_, .tail _ (.head _), _, hcall⟩,
    hdeclares.binding⟩

end RuntimeImport
end AtomicStyles
