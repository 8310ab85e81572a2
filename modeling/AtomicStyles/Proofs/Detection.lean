import AtomicStyles.Build.Transform
import AtomicStyles.Proofs.InnerNames
import AtomicStyles.Proofs.Output.Splicing
import AtomicStyles.Proofs.Positions
import AtomicStyles.Proofs.RuntimeName

/-!
# Style calls are found once and do not overlap

A call is one of a style function if its callee, through parentheses, is a name that an import
of the function brings, or a member of a whole module that is imported, and no scope around it
hides that name. Among these calls, those that lie in no other one are the ones to compile; with
a single plain argument they are reported. A function that is imported as the default export of
its module has no such name: `detect_misses_default_import`.

## Main definitions

* `Module.IsStyleFunction` — an expression stands for a style function.
* `Module.IsSite` — the position of a call to compile.

## Main results

* `StyleImports.isFunction_iff` — the detector's test of a callee, in terms of scopes.
* `StyleCall.detect_eq` — what is detected, by position.
* `StyleCall.detect_outermost_once` — **the outermost style calls are reported, each once, with
  ranges apart from each other, and splicing drops none of them.**
-/

namespace AtomicStyles

open Script List

/-! ### Names of style functions -/

namespace StyleImports

variable {name member : String} {f : StyleFunction} {fs : List StyleFunction} {m : Module}

theorem direct_foldl_append (ss : List StyleImports) (s : StyleImports) :
    (ss.foldl append s).direct = s.direct ++ ss.flatMap direct := by
  induction ss generalizing s with
  | nil => simp
  | cons t ss ih => simp [ih, append]

theorem modules_foldl_append (ss : List StyleImports) (s : StyleImports) :
    (ss.foldl append s).modules = s.modules ++ ss.flatMap modules := by
  induction ss generalizing s with
  | nil => simp
  | cons t ss ih => simp [ih, append]

/-- The module imports the function's module by the specifier, as a value. -/
def HasSpecifier (m : Module) (f : StyleFunction) (s : ImportSpecifier) : Prop :=
  ∃ specifiers, .imports specifiers f.source false ∈ m.items ∧ s ∈ specifiers

theorem mem_direct_ofSpecifier {s : ImportSpecifier} : name ∈ (ofSpecifier member s).direct ↔
    ∃ id imported, s = .named id imported false ∧ s.importedName? = some member ∧ id.name = name := by
  unfold ofSpecifier
  split
  · next id imported =>
    split
    · next h => simp [h, eq_comm]
    · next h => simp [h]
  · simp
  · next hnamed _ =>
    simp only [not_mem_nil, false_iff]
    rintro ⟨id, imported, rfl, -⟩
    exact hnamed id imported rfl

theorem mem_modules_ofSpecifier {s : ImportSpecifier} :
    (name, member) ∈ (ofSpecifier f.name s).modules ↔
      ∃ id, s = .everything id ∧ id.name = name ∧ f.name = member := by
  unfold ofSpecifier
  split
  · split <;> simp
  · simp [eq_comm]
  · next hall =>
    simp only [not_mem_nil, false_iff]
    rintro ⟨id, rfl, -⟩
    exact hall id rfl

/-- What the items of a module bring for a function comes from the specifiers of its imports. -/
theorem mem_ofModule {α : Type} {part : StyleImports → List α} {a : α}
    (happend : ∀ (ss : List StyleImports) s, part (ss.foldl append s) = part s ++ ss.flatMap part)
    (hempty : part {} = []) : a ∈ part (ofModule m fs) ↔
      ∃ f ∈ fs, ∃ s, HasSpecifier m f s ∧ a ∈ part (ofSpecifier f.name s) := by
  have hitem : ∀ {f : StyleFunction} {i : Item}, a ∈ part (ofItem f i) ↔
      ∃ specifiers, i = .imports specifiers f.source false ∧
        ∃ s ∈ specifiers, a ∈ part (ofSpecifier f.name s) := by
    intro f i
    unfold ofItem
    split
    · next specifiers source =>
      split
      · next hsource =>
        subst hsource
        simp [happend, hempty]
      · next hsource =>
        simp only [hempty, not_mem_nil, false_iff]
        rintro ⟨_, heq, -⟩
        cases heq
        exact hsource rfl
    · next hother =>
      simp only [hempty, not_mem_nil, false_iff]
      rintro ⟨specifiers, rfl, -⟩
      exact hother specifiers f.source rfl
  rw [ofModule, happend, hempty, nil_append, mem_flatMap]
  constructor
  · rintro ⟨s, hs, ha⟩
    obtain ⟨i, hi, hs⟩ := mem_flatMap.1 hs
    obtain ⟨f, hf, rfl⟩ := mem_map.1 hs
    obtain ⟨specifiers, rfl, s, hs, ha⟩ := hitem.1 ha
    exact ⟨f, hf, s, ⟨specifiers, hi, hs⟩, ha⟩
  · rintro ⟨f, hf, s, ⟨specifiers, hi, hs⟩, ha⟩
    exact ⟨_, mem_flatMap.2 ⟨_, hi, mem_map.2 ⟨f, hf, rfl⟩⟩,
      hitem.2 ⟨specifiers, rfl, s, hs, ha⟩⟩

theorem mem_direct_ofModule : name ∈ (ofModule m fs).direct ↔ ∃ f ∈ fs, ∃ id imported,
    HasSpecifier m f (.named id imported false) ∧
      (ImportSpecifier.named id imported false).importedName? = some f.name ∧ id.name = name := by
  rw [mem_ofModule direct_foldl_append rfl]
  simp only [mem_direct_ofSpecifier]
  constructor
  · rintro ⟨f, hf, s, hs, id, imported, rfl, hname⟩
    exact ⟨f, hf, id, imported, hs, hname⟩
  · rintro ⟨f, hf, id, imported, hs, hname⟩
    exact ⟨f, hf, _, hs, id, imported, rfl, hname⟩

theorem mem_modules_ofModule : (name, member) ∈ (ofModule m fs).modules ↔ ∃ f ∈ fs, ∃ id,
    HasSpecifier m f (.everything id) ∧ id.name = name ∧ f.name = member := by
  rw [mem_ofModule modules_foldl_append rfl]
  simp only [mem_modules_ofSpecifier]
  constructor
  · rintro ⟨f, hf, s, hs, id, rfl, hname⟩
    exact ⟨f, hf, id, hs, hname⟩
  · rintro ⟨f, hf, id, hs, hname⟩
    exact ⟨f, hf, _, hs, id, rfl, hname⟩

end StyleImports

/-! ### Expressions that stand for a style function -/

namespace Script
namespace Module

open StyleImports (HasSpecifier memberName?)

variable {m : Module} {fs : List StyleFunction} {f : StyleFunction} {id : Ident} {e : Expr}

/-- The identifier stands where no scope inside the module declares its name. -/
def Reaches (m : Module) (id : Ident) : Prop :=
  ∃ env, m.Holds env (.ident id) ∧ ¬ env.Declares id.name

/-- An expression stands for a style function: it is a name under which the function is imported,
the function as a member of its module, or one of these in parentheses. -/
inductive IsStyleFunction (m : Module) (fs : List StyleFunction) : Expr → Prop
  | direct {f : StyleFunction} {own id : Ident} {imported : Option ExportName} : f ∈ fs →
      HasSpecifier m f (.named own imported false) →
      (ImportSpecifier.named own imported false).importedName? = some f.name →
      own.name = id.name → m.Reaches id → IsStyleFunction m fs (.ident id)
  | member {f : StyleFunction} {own id : Ident} {k : Key} : f ∈ fs →
      HasSpecifier m f (.everything own) → own.name = id.name → m.Reaches id →
      memberName? k = some f.name → IsStyleFunction m fs (.member (.ident id) k)
  | paren {e : Expr} : IsStyleFunction m fs e → IsStyleFunction m fs (.paren e)

theorem mem_top_of_hasSpecifier {s : ImportSpecifier} (h : HasSpecifier m f s) :
    s.binding.name ∈ m.env.top := by
  obtain ⟨specifiers, hi, hs⟩ := h
  refine mem_map.2 ⟨s.binding, mem_append_left _ (mem_flatMap.2 ⟨_, hi, ?_⟩), rfl⟩
  exact mem_map.2 ⟨s, hs, rfl⟩

/-- The binding of an imported name is the module's where no scope hides it. -/
theorem bindingIn_eq_module_iff (hm : m.WellPlaced) (hid : ∃ env, m.Holds env (.ident id))
    (htop : id.name ∈ m.env.top) : id.bindingIn m.bindings = .module ↔ m.Reaches id := by
  constructor
  · intro h
    obtain ⟨env, hholds⟩ := hid
    rw [hholds.bindingIn hm] at h
    exact ⟨env, hholds, (Env.binding_eq_module.1 h).1⟩
  · rintro ⟨env, hholds, hfree⟩
    have ⟨i, hi, hsees⟩ := hholds
    rw [hholds.bindingIn hm]
    exact Env.binding_eq_module.2 ⟨hfree, hsees.mem_top htop⟩

theorem Holds.part {env : Env} {n c : Node} (h : m.Holds env n) (hc : (env, c) ∈ n.scopes env) :
    m.Holds env c := by
  obtain ⟨i, hi, hsees⟩ := h
  exact ⟨i, hi, hsees.trans (.inside hc .here)⟩

end Module
end Script

open Script.Module in
/-- The test of a callee finds the expressions that stand for a style function. -/
theorem StyleImports.isFunction_iff {m : Module} {fs : List StyleFunction} (hm : m.WellPlaced)
    (e : Expr) (he : ∃ env, m.Holds env (.expr e)) :
    (StyleImports.ofModule m fs).isFunction m.bindings e = true ↔ m.IsStyleFunction fs e := by
  fun_induction StyleImports.isFunction (StyleImports.ofModule m fs) m.bindings e with
  | case1 id =>
    have hid : ∃ env, m.Holds env (.ident id) :=
      he.imp fun env h => h.part (mem_singleton.2 rfl)
    simp only [Bool.and_eq_true, contains_iff_mem, decide_eq_true_eq, mem_direct_ofModule]
    constructor
    · rintro ⟨⟨f, hf, own, imported, hs, hname, heq⟩, hbinding⟩
      refine .direct hf hs hname heq ((bindingIn_eq_module_iff hm hid ?_).1 hbinding)
      exact heq ▸ mem_top_of_hasSpecifier hs
    · rintro (⟨hf, hs, hname, heq, hreaches⟩)
      exact ⟨⟨_, hf, _, _, hs, hname, heq⟩,
        (bindingIn_eq_module_iff hm hid (heq ▸ mem_top_of_hasSpecifier hs)).2 hreaches⟩
  | case2 id k =>
    have hid : ∃ env, m.Holds env (.ident id) :=
      he.imp fun env h => (h.part (.head _)).part (mem_singleton.2 rfl)
    simp only [Bool.and_eq_true, decide_eq_true_eq]
    constructor
    · rintro ⟨hbinding, hmember⟩
      split at hmember
      · next name hk =>
        obtain ⟨f, hf, own, hs, heq, rfl⟩ := mem_modules_ofModule.1 (contains_iff_mem.1 hmember)
        refine .member hf hs heq ((bindingIn_eq_module_iff hm hid ?_).1 hbinding) hk
        exact heq ▸ mem_top_of_hasSpecifier hs
      · cases hmember
    · rintro (_ | ⟨hf, hs, heq, hreaches, hk⟩)
      refine ⟨(bindingIn_eq_module_iff hm hid (heq ▸ mem_top_of_hasSpecifier hs)).2 hreaches, ?_⟩
      rw [hk]
      exact contains_iff_mem.2 (mem_modules_ofModule.2 ⟨_, hf, _, hs, heq, rfl⟩)
  | case3 e ih =>
    rw [ih (he.imp fun env h => h.part (mem_singleton.2 rfl))]
    exact ⟨.paren, fun h => by cases h; assumption⟩
  | case4 e hident hmember hparen =>
    simp only [Bool.false_eq_true, false_iff]
    intro h
    cases h with
    | direct => exact hident _ rfl
    | member => exact hmember _ _ rfl
    | paren => exact hparen _ rfl

/-! ### Positions of style calls -/

namespace Script.Module

variable {m : Module} {fs : List StyleFunction} {p q : List Nat} {c : Call}

/-- At the position stands a call of a style function with one plain argument, and it lies in no
other call of one. -/
structure IsSite (m : Module) (fs : List StyleFunction) (p : List Nat) (argument : Expr)
    (span : Span) : Prop where
  call : ∃ callee, m.callAt? p = some ⟨callee, [argument], span⟩ ∧ m.IsStyleFunction fs callee
  plain : ∀ e known, argument ≠ .spread e known
  outermost : ∀ q c, q <+: p → q ≠ p → m.callAt? q = some c → ¬ m.IsStyleFunction fs c.callee

/-- The callee of a call sees some scopes. -/
theorem exists_holds_callee (h : m.callAt? p = some c) : ∃ env, m.Holds env (.expr c.callee) := by
  obtain ⟨n, hn, hc⟩ := Option.bind_eq_some_iff.1 h
  have hmem : n ∈ m.nodes fun _ => true := by
    rw [← map_snd_visits]
    exact mem_map.2 ⟨(p, n), mem_visits.2 ⟨hn, fun _ _ _ _ _ => rfl⟩, rfl⟩
  obtain ⟨i, hi, hn⟩ := mem_flatMap.1 hmem
  rw [Node.eq_of_call? hc] at hn
  obtain ⟨env, hsees⟩ := Node.Has.exists_sees hn m.env
  exact ⟨env, Holds.part ⟨i, hi, hsees⟩ (.head _)⟩

/-- Two sites are not inside each other, so their spans are apart. -/
theorem IsSite.apart (hm : m.Nested) {a b : Expr} {s t : Span} (hp : m.IsSite fs p a s)
    (hq : m.IsSite fs q b t) (hne : p ≠ q) : s.Apart t := by
  obtain ⟨bytes, hlayout⟩ := hm
  obtain ⟨callee, hcall, hfun⟩ := hp.call
  obtain ⟨callee', hcall', hfun'⟩ := hq.call
  exact hlayout.apart_of_not_prefix hcall hcall'
    (fun hpre => hq.outermost p _ hpre hne hcall hfun)
    (fun hpre => hp.outermost q _ hpre hne.symm hcall' hfun')

theorem IsSite.start_lt_stop (hm : m.Nested) {a : Expr} {s : Span} (hp : m.IsSite fs p a s) :
    s.start < s.stop := by
  obtain ⟨bytes, hlayout⟩ := hm
  obtain ⟨callee, hcall, -⟩ := hp.call
  exact (hlayout.call p _ hcall).1

end Script.Module

namespace StyleCall

variable {m : Module} {fs : List StyleFunction} {p : List Nat} {n : Node} {s : StyleCall}

/-- Whether the callee of a call is a style function of the unit. -/
def isCall (m : Module) (fs : List StyleFunction) (c : Call) : Bool :=
  (StyleImports.ofModule m fs).isFunction m.bindings c.callee

def ofNode? (m : Module) (fs : List StyleFunction) (n : Node) : Option StyleCall :=
  n.call?.bind fun c => if isCall m fs c then ofCall m.bindings c else none

theorem isFunction_of_isEmpty {imports : StyleImports} (h : imports.isEmpty = true)
    (bindings : List (Nat × Binding)) (e : Expr) : imports.isFunction bindings e = false := by
  obtain ⟨hdirect, hmodules⟩ : imports.direct = [] ∧ imports.modules = [] := by
    simpa [StyleImports.isEmpty] using h
  fun_induction StyleImports.isFunction imports bindings e with
  | case1 id => simp [hdirect]
  | case2 id k => split <;> simp [hmodules]
  | case3 e ih => exact ih
  | case4 => rfl

/-- What is detected: the style calls that the walk meets, where it stays out of style calls. -/
theorem detect_eq (m : Module) (fs : List StyleFunction) : detect m fs =
    (m.visits fun n => !n.call?.any (isCall m fs)).filterMap fun v => ofNode? m fs v.2 := by
  unfold detect
  dsimp only
  split
  · next hempty =>
    refine (filterMap_eq_nil_iff.2 fun v _ => ?_).symm
    simp [ofNode?, isCall, isFunction_of_isEmpty hempty]
  · rw [filterMap_filterMap, ← m.map_snd_visits, filterMap_map]
    rfl

theorem ofCall_eq_some_iff (bindings : List (Nat × Binding)) {c : Call} {e : Expr} :
    (∃ s, ofCall bindings c = some s ∧ s.argument = e ∧ s.span = c.span) ↔
      c.args = [e] ∧ ∀ e' known, e ≠ .spread e' known := by
  constructor
  · rintro ⟨s, hs, rfl, -⟩
    refine ⟨(args_of_ofCall hs).1, ?_⟩
    rintro e' known he
    simp [ofCall, (args_of_ofCall hs).1, he] at hs
  · rintro ⟨hargs, hplain⟩
    unfold ofCall
    split
    · next e' known heq =>
      rw [heq] at hargs
      exact absurd (singleton_inj.1 hargs).symm (hplain e' known)
    · next e' _ heq =>
      rw [heq] at hargs
      exact ⟨_, rfl, singleton_inj.1 hargs, rfl⟩
    · next hother =>
      exact absurd hargs (hother e)

theorem isCall_iff (hm : m.WellPlaced) {c : Call} (hc : m.callAt? p = some c) :
    isCall m fs c = true ↔ m.IsStyleFunction fs c.callee :=
  StyleImports.isFunction_iff hm c.callee (Module.exists_holds_callee hc)

/-- The walk is kept out of a position by the style calls around it only. -/
theorem enters_iff (hm : m.WellPlaced) :
    (∀ q, q <+: p → q ≠ p → ∀ d, m.at? q = some d → (!d.call?.any (isCall m fs)) = true) ↔
      ∀ q c, q <+: p → q ≠ p → m.callAt? q = some c → ¬ m.IsStyleFunction fs c.callee := by
  constructor
  · intro h q c hq hne hc
    obtain ⟨d, hd, hcall⟩ := Option.bind_eq_some_iff.1 hc
    have := h q hq hne d hd
    rw [← isCall_iff hm hc]
    simpa [hcall] using this
  · intro h q hq hne d hd
    cases hcall : d.call? with
    | none => rfl
    | some c =>
      have hc : m.callAt? q = some c := by rw [Module.callAt?, hd, Option.bind_some, hcall]
      have := h q c hq hne hc
      rw [← isCall_iff hm hc] at this
      simpa using this

/-- A style call that the walk meets is at a site. -/
theorem isSite_of_mem_visits (hm : m.WellPlaced)
    (hv : (p, n) ∈ m.visits fun n => !n.call?.any (isCall m fs)) (hs : ofNode? m fs n = some s) :
    m.IsSite fs p s.argument s.span := by
  obtain ⟨hat, hway⟩ := Module.mem_visits.1 hv
  obtain ⟨c, hcall, hs⟩ := Option.bind_eq_some_iff.1 hs
  have hc : m.callAt? p = some c := by rw [Module.callAt?, hat, Option.bind_some, hcall]
  split at hs
  · next hstyle =>
    obtain ⟨hargs, hspan⟩ := args_of_ofCall hs
    obtain ⟨-, hplain⟩ := (ofCall_eq_some_iff m.bindings).1 ⟨s, hs, rfl, hspan⟩
    refine ⟨⟨c.callee, ?_, (isCall_iff hm hc).1 hstyle⟩, hplain, (enters_iff hm).1 hway⟩
    rw [hc, hspan, ← hargs]
  · cases hs

/-- The walk meets every site. -/
theorem exists_mem_visits_of_isSite (hm : m.WellPlaced) {argument : Expr} {span : Span}
    (h : m.IsSite fs p argument span) :
    ∃ n, (p, n) ∈ (m.visits fun n => !n.call?.any (isCall m fs)) ∧ (ofNode? m fs n).isSome := by
  obtain ⟨callee, hc, hfun⟩ := h.call
  obtain ⟨n, hat, hcall⟩ := Option.bind_eq_some_iff.1 hc
  refine ⟨n, Module.mem_visits.2 ⟨hat, (enters_iff hm).2 h.outermost⟩, ?_⟩
  have hstyle := (isCall_iff hm hc).2 hfun
  obtain ⟨s, hs, -, -⟩ := (ofCall_eq_some_iff m.bindings (c := ⟨callee, [argument], span⟩)).2
    ⟨rfl, h.plain⟩
  simp [ofNode?, hcall, hstyle, hs]

theorem forall₂_filterMap {α β γ : Type} {R : β → γ → Prop} {f : α → Option γ} {g : α → β}
    {as : List α} (h : ∀ a ∈ as, ∀ b, f a = some b → R (g a) b) :
    List.Forall₂ R ((as.filter fun a => (f a).isSome).map g) (as.filterMap f) := by
  induction as with
  | nil => exact .nil
  | cons a as ih =>
    have has := ih fun a' ha' => h a' (mem_cons_of_mem a ha')
    cases hf : f a with
    | none =>
      rw [filter_cons_of_neg (by simp [hf]), filterMap_cons_none hf]
      exact has
    | some b =>
      rw [filter_cons_of_pos (by simp [hf]), filterMap_cons_some hf]
      exact .cons (h a (.head _) b hf) has

/-- What holds of any two of some positions carries over to what is found at them. -/
theorem pairwise_of_forall₂ {α β : Type} {R : α → β → Prop} {P : α → α → Prop} {Q : β → β → Prop}
    {as : List α} {bs : List β} (h : List.Forall₂ R as bs) (has : as.Pairwise P)
    (hQ : ∀ a a' b b', R a b → R a' b' → P a a' → Q b b') : bs.Pairwise Q := by
  induction h with
  | nil => exact .nil
  | @cons a b as bs hab h ih =>
    have ⟨hhead, htail⟩ := pairwise_cons.1 has
    refine pairwise_cons.2 ⟨fun b' hb' => ?_, ih htail⟩
    obtain ⟨a', ha', hr⟩ : ∃ a' ∈ as, R a' b' := by
      obtain ⟨i, hi, rfl⟩ := getElem_of_mem hb'
      have hi' : i < as.length := h.length_eq ▸ hi
      exact ⟨as[i], getElem_mem hi', h.get hi' hi⟩
    exact hQ a a' b b' hab hr (hhead a' ha')

end StyleCall

/-- The ranges of compiled sites are those of their calls. -/
theorem Build.pairwise_apart_edits (b : Build) (name : String) {sites : List Site}
    (h : (sites.map Site.call).Pairwise fun s t => s.span.Apart t.span) :
    (b.edits name sites).Pairwise Edit.Apart := by
  refine List.Pairwise.filterMap _ ?_ (pairwise_map.1 h)
  rintro s t hapart e he e' he'
  obtain ⟨c, -, rfl⟩ := Option.map_eq_some_iff.1 he
  obtain ⟨c', -, rfl⟩ := Option.map_eq_some_iff.1 he'
  exact hapart

theorem Build.start_lt_stop_of_mem_edits (b : Build) (name : String) {sites : List Site}
    (h : ∀ s ∈ sites.map Site.call, s.span.start < s.span.stop) :
    ∀ e ∈ b.edits name sites, e.start < e.stop := by
  intro e he
  obtain ⟨s, hs, he⟩ := mem_filterMap.1 he
  obtain ⟨c, -, rfl⟩ := Option.map_eq_some_iff.1 he
  exact h s.call (mem_map.2 ⟨s, hs, rfl⟩)

namespace StyleCall

/-- The positions of the calls that are detected. -/
def places (m : Module) (fs : List StyleFunction) : List (List Nat) :=
  ((m.visits fun n => !n.call?.any (isCall m fs)).filter
    fun v => (ofNode? m fs v.2).isSome).map Prod.fst

theorem nodup_places (m : Module) (fs : List StyleFunction) : (places m fs).Nodup :=
  (filter_sublist.map Prod.fst).nodup (m.nodup_visits _)

theorem mem_places_iff (hm : m.WellPlaced) :
    p ∈ places m fs ↔ ∃ argument span, m.IsSite fs p argument span := by
  constructor
  · intro hp
    obtain ⟨⟨p, n⟩, hv, rfl⟩ := mem_map.1 hp
    obtain ⟨hv, hsome⟩ := mem_filter.1 hv
    obtain ⟨s, hs⟩ := Option.isSome_iff_exists.1 hsome
    exact ⟨_, _, isSite_of_mem_visits hm hv hs⟩
  · rintro ⟨argument, span, hsite⟩
    obtain ⟨n, hv, hsome⟩ := exists_mem_visits_of_isSite hm hsite
    exact mem_map.2 ⟨(p, n), mem_filter.2 ⟨hv, hsome⟩, rfl⟩

theorem forall₂_places (hm : m.WellPlaced) :
    List.Forall₂ (fun p s => m.IsSite fs p s.argument s.span) (places m fs) (detect m fs) :=
  detect_eq m fs ▸ forall₂_filterMap fun _ hv _ hs => isSite_of_mem_visits hm hv hs

theorem pairwise_apart_detect (hm : m.WellPlaced) (hnested : m.Nested) :
    (detect m fs).Pairwise fun s t => s.span.Apart t.span :=
  pairwise_of_forall₂ (forall₂_places hm) (nodup_places m fs)
    fun _ _ _ _ hp hq hne => hp.apart hnested hq hne

theorem start_lt_stop_of_mem_detect (hm : m.WellPlaced) (hnested : m.Nested) :
    ∀ s ∈ detect m fs, s.span.start < s.span.stop := by
  rw [detect_eq]
  intro s hs
  obtain ⟨⟨p, n⟩, hv, hs⟩ := mem_filterMap.1 hs
  exact (isSite_of_mem_visits hm hv hs).start_lt_stop hnested

/-- **The outermost style calls are reported, each once.** There is a list of positions without
repetition that has exactly the positions of the sites, and the calls that are detected are those
at these positions. Their ranges are apart from each other, so of the edits that rewrite some of
them the guard of the splice keeps every one, whatever import is added. -/
theorem detect_outermost_once (m : Module) (fs : List StyleFunction) (hplaced : m.WellPlaced)
    (hnested : m.Nested) :
    (∃ places : List (List Nat), places.Nodup ∧
      (∀ p, p ∈ places ↔ ∃ argument span, m.IsSite fs p argument span) ∧
      List.Forall₂ (fun p s => m.IsSite fs p s.argument s.span) places (detect m fs)) ∧
    (detect m fs).Pairwise (fun s t => s.span.Apart t.span) ∧
    ∀ (b : Build) (name source : String) (imported : Option (RuntimeImport × String))
      (sites : List Site), (sites.map Site.call).Sublist (detect m fs) →
      let calls := b.edits name sites
      let made := Splice.kept 0
        ((calls ++ Splice.insertion source imported).mergeSort Splice.before)
      (∀ e ∈ calls, e ∈ made) ∧ (calls ≠ [] → Splice.replaceCalls source calls imported =
        String.ofList (Splice.applySorted 0 source.toList made)) := by
  have hapart : (detect m fs).Pairwise fun s t => s.span.Apart t.span :=
    pairwise_apart_detect hplaced hnested
  refine ⟨⟨places m fs, nodup_places m fs, fun p => mem_places_iff hplaced, forall₂_places hplaced⟩,
    hapart, fun b name source imported sites hsites => ⟨?_, fun hne => ?_⟩⟩
  · exact Splice.mem_kept_mergeSort
      (b.start_lt_stop_of_mem_edits name fun s hs =>
        start_lt_stop_of_mem_detect hplaced hnested s (hsites.subset hs))
      (b.pairwise_apart_edits name (hapart.sublist hsites))
      Splice.start_eq_stop_of_mem_insertion
  · rw [Splice.replaceCalls_of_ne_nil source imported hne, Splice.apply, Splice.applySorted_kept]

/-- `(c)(c({})); function f(c) { c({}) } c({})`, where the style function is imported as `c`. -/
def aliasedUnit : Module where
  items := [
    .imports [.named ⟨"c", 9⟩ (some (.ident ⟨"css", 2⟩)) false] "lib" false,
    .stmt (.expr (.call (.paren (.ident ⟨"c", 21⟩))
      [.call (.ident ⟨"c", 24⟩) [.object []] ⟨24, 29⟩] ⟨20, 30⟩) ⟨20, 31⟩),
    .stmt (.decl (.func ⟨"f", 40⟩ (.mk [] [.ident ⟨"c", 42⟩] (.block
      [.expr (.call (.ident ⟨"c", 47⟩) [.object []] ⟨47, 52⟩) ⟨47, 52⟩]) false false) false)),
    .stmt (.expr (.call (.ident ⟨"c", 60⟩) [.object []] ⟨60, 65⟩) ⟨60, 65⟩)]

/-- The call inside another one and the call of the parameter are not reported. -/
theorem detect_outermost_once_aliased :
    aliasedUnit.WellPlaced ∧ aliasedUnit.Nested ∧
      (detect aliasedUnit [⟨"lib", "css"⟩]).map StyleCall.span = [⟨20, 30⟩, ⟨60, 65⟩] ∧
      (detect aliasedUnit [⟨"lib", "css"⟩]).Pairwise (fun s t => s.span.Apart t.span) ∧
      ∃ places : List (List Nat), places.Nodup ∧
        (∀ p, p ∈ places ↔ ∃ argument span, aliasedUnit.IsSite [⟨"lib", "css"⟩] p argument span) ∧
        List.Forall₂ (fun p s => aliasedUnit.IsSite [⟨"lib", "css"⟩] p s.argument s.span) places
          (detect aliasedUnit [⟨"lib", "css"⟩]) := by
  have hplaced : aliasedUnit.WellPlaced := by
    have hbindings : aliasedUnit.bindings = [(9, .module), (2, .global), (21, .module), (24, .module),
      (40, .module), (42, .inner), (47, .inner), (60, .module)] := by cbv
    rw [Module.WellPlaced, hbindings]
    decide
  have hnested : aliasedUnit.Nested := by
    have hspans : aliasedUnit.callSpans = [([1, 0, 0], ⟨20, 30⟩), ([1, 0, 0, 1], ⟨24, 29⟩),
      ([2, 0, 0, 1, 1, 0, 0], ⟨47, 52⟩), ([3, 0, 0], ⟨60, 65⟩)] := by cbv
    rw [Module.nested_iff, hspans]
    decide
  obtain ⟨hplaces, hapart, -⟩ :=
    detect_outermost_once aliasedUnit [⟨"lib", "css"⟩] hplaced hnested
  exact ⟨hplaced, hnested, by cbv, hapart, hplaces⟩

/-- `c({})`, where `c` is the default export of the module of the style function. -/
def defaultUnit : Module where
  items := [
    .imports [.default ⟨"c", 7⟩] "lib" false,
    .stmt (.expr (.call (.ident ⟨"c", 20⟩) [.object []] ⟨20, 25⟩) ⟨20, 25⟩)]

/-- `c({})`, where the default export is imported by its name. -/
def namedDefaultUnit : Module where
  items := [
    .imports [.named ⟨"c", 18⟩ (some (.ident ⟨"default", 7⟩)) false] "lib" false,
    .stmt (.expr (.call (.ident ⟨"c", 20⟩) [.object []] ⟨20, 25⟩) ⟨20, 25⟩)]

/-- A style function that is the default export of its module is found under an import by name,
but not under a default import, though both have the exported thing. -/
theorem detect_misses_default_import :
    defaultUnit.WellPlaced ∧ defaultUnit.Nested ∧ detect defaultUnit [⟨"lib", "default"⟩] = [] ∧
      (detect namedDefaultUnit [⟨"lib", "default"⟩]).map StyleCall.span = [⟨20, 25⟩] := by
  have hbindings : defaultUnit.bindings = [(7, .module), (20, .module)] := by cbv
  have hspans : defaultUnit.callSpans = [([1, 0, 0], ⟨20, 25⟩)] := by cbv
  rw [Module.WellPlaced, hbindings, Module.nested_iff, hspans]
  exact ⟨by decide, by decide, by cbv, by cbv⟩

end StyleCall
end AtomicStyles
