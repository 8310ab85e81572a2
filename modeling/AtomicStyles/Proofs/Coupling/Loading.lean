import AtomicStyles.Proofs.Coupling.Basic
import AtomicStyles.Proofs.Logic.Traits
import AtomicStyles.Proofs.Resolving

/-!
# Which modules have been loaded does not show

Modules are loaded when they are first asked for. On two machines that differ only in the
modules that have been loaded, every computation comes to the same end, as long as both hold
nothing but what loading gives.

## Main definitions

* `Graph.Serves` — a machine for the modules of a graph.
* `Recached` — machines that differ only in the modules that have been loaded.

## Main results

* `Recached.exists_load` — loading a module changes nothing else.
* `Recached.kept` — **evaluation does not depend on which modules have been loaded.**
-/

namespace AtomicStyles

open Script Eval Coupling

/-! ### Machines for the modules of a graph -/

/-- The machine evaluates in the modules of the graph, and holds only what loading gives. -/
structure Graph.Serves (g : Graph) (m : Machine) : Prop where
  graph : m.graph = g
  cache : ∀ id e, m.cache.get? id = some e → e = ModuleCache.loadModule g.loader g.features id

structure Recached (g : Graph) (m m' : Machine) : Prop where
  left : g.Serves m
  right : g.Serves m'
  eq : m = { m' with cache := m.cache }

namespace Recached

variable {g : Graph} {α : Type} {m m' m'' : Machine}

theorem refl (h : g.Serves m) : Recached g m m := ⟨h, h, rfl⟩

theorem trans (h : Recached g m m') (h' : Recached g m' m'') : Recached g m m'' :=
  ⟨h.left, h'.right, by rw [h.eq, h'.eq]⟩

theorem symm (h : Recached g m m') : Recached g m' m := ⟨h.right, h.left, by rw [h.eq]⟩

theorem nesting_eq (h : Recached g m m') : m.nesting = m'.nesting := by rw [h.eq]

/-- Loading gives the tables of the module, and a machine that differs in nothing else. -/
theorem exists_load (h : g.Serves m) (id : ModuleId) :
    ∃ m', load id m = .ok (g.freshTables id) m' ∧ Recached g m' m := by
  obtain ⟨hvalue, hcache⟩ := g.tables_eq h.cache id
  refine ⟨{ m with cache := (g.tables id m.cache).2 }, ?_, ⟨h.graph, hcache⟩, h, rfl⟩
  have hload : load id m =
      .ok (m.graph.tables id m.cache).1 { m with cache := (m.graph.tables id m.cache).2 } := rfl
  rw [hload, h.graph, hvalue]

/-! ### Computations that come to the same end -/

/-- The computation comes to the same end on machines that differ only in the modules that have been
loaded. -/
def trait (g : Graph) : Trait where
  has x := ∀ m m', Recached g m m' → Alike (Recached g) (x m) (x m')
  pure _ _ _ hm := ⟨rfl, hm⟩
  throw _ _ _ hm := ⟨rfl, hm⟩
  bind := by
    intro _ _ _ x f hx hreturns hf m m' hm
    have ha := hx m m' hm
    show Alike (Recached g) (EStateM.bind x f m) (EStateM.bind x f m')
    unfold EStateM.bind
    cases hxm : x m <;> cases hym : x m' <;> rw [hxm, hym] at ha
    · obtain ⟨rfl, hm⟩ := ha
      exact hf _ (hreturns _ _ _ hxm) _ _ hm
    · exact ha.elim
    · exact ha.elim
    · exact ha
  outcome := by
    intro _ x h m m' hm
    have ha := h m m' hm
    unfold Eval.outcome
    cases hxm : x m <;> cases hym : x m' <;> rw [hxm, hym] at ha
    · obtain ⟨rfl, hm⟩ := ha
      exact ⟨rfl, hm⟩
    · exact ha.elim
    · exact ha.elim
    · obtain ⟨rfl, hm⟩ := ha
      exact ⟨rfl, hm⟩

theorem alike_of_blind {φ : Machine → α × Machine} (h : Blind φ) :
    (trait g).has (modifyGet φ) := by
  intro m m' hm
  -- With the modules of the machine itself put in place, the step says that it keeps them.
  have hcache : ∀ m, (φ m).2.cache = m.cache := fun m =>
    (congrArg (fun r => r.2.cache) (h.recache m m.cache) :)
  have heq : φ m = ((φ m').1, { (φ m').2 with cache := m.cache }) := by
    conv_lhs => rw [hm.eq]
    exact h.recache m' m.cache
  show (φ m).1 = (φ m').1 ∧ Recached g (φ m).2 (φ m').2
  refine ⟨(congrArg Prod.fst heq :), ⟨?_, ?_⟩, ⟨?_, ?_⟩, ?_⟩
  · rw [h.graph, hm.left.graph]
  · rw [hcache]
    exact hm.left.cache
  · rw [h.graph, hm.right.graph]
  · rw [hcache]
    exact hm.right.cache
  · rw [hcache]
    exact (congrArg Prod.snd heq :)

/-- What follows on a look at the machine does not depend on the loaded modules. -/
theorem alike_get_bind {k : Machine → Eval α} (h : ∀ m cache, k { m with cache } = k m)
    (hk : ∀ m, (trait g).has (k m)) : (trait g).has (get >>= k) := by
  intro m m' hm
  have heq : k m = k m' := by
    conv_lhs => rw [hm.eq]
    exact h m' m.cache
  show Alike _ (k m m) (k m' m')
  rw [heq]
  exact hk m' m m' hm

theorem alike_assign (s : Scope) (name : String) (v : Value) :
    (trait g).has (assign s name v) := by
  refine alike_get_bind (fun m cache => ?_) fun m => ?_
  · rw [show Machine.find? { m with cache } name s.frames = m.find? name s.frames from
      Machine.find?_congr (by rfl) (by rfl) _ _]
  rcases m.find? name s.frames with _ | ⟨f, _ | _, _ | _⟩
  case some.some.true =>
    refine (trait g).bind (P := fun _ => True) ?_ (.of_forall _ fun _ => trivial) fun _ _ =>
      (trait g).pure _
    cases f <;> exact alike_of_blind {}
  all_goals exact (trait g).pure _

theorem alike_tables (id : ModuleId) : (trait g).has (tables id) := by
  refine (trait g).bind (P := fun _ => True) (fun m m' hm => ?_) (.of_forall _ fun _ => trivial)
    fun t _ => ?_
  -- One machine may find the module where the other has to load it; both hold it then.
  · obtain ⟨m₁, hload, hm₁⟩ := exists_load hm.left id
    obtain ⟨m₁', hload', hm₁'⟩ := exists_load hm.right id
    rw [hload, hload']
    exact ⟨rfl, hm₁.trans (hm.trans hm₁'.symm)⟩
  · cases t with
    | ok t => exact (trait g).pure t
    | error e => exact (trait g).throw (.load e)

/-- Code that is evaluated on machines that differ only in the modules that have been loaded comes to
the same end. -/
theorem kept (g : Graph) : (trait g).Kept := by
  have hlook {γ : Type} (φ : Machine → γ) (hφ : ∀ m cache, φ { m with cache } = φ m) :
      (trait g).has (do return φ (← get)) :=
    alike_get_bind (fun m cache => congrArg pure (hφ m cache)) fun _ => (trait g).pure _
  exact
    { Calculus.Heapwise.of_aside (fun _ => trivial)
        (fun φ hφ => Trait.holds_of_has (hlook φ hφ) fun _ => trivial)
        fun h => Trait.holds_of_has (alike_of_blind h.toBlind) fun _ => trivial with
      look := hlook
      change := fun h _ => alike_of_blind h
      assign := alike_assign
      tables := alike_tables }

end Recached
end AtomicStyles
