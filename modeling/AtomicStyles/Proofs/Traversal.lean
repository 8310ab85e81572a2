import AtomicStyles.Proofs.Dependencies

/-!
# Walks over the dependencies

Two walks make a closure. The first one puts keys in order, each after all keys it
depends on, and stops at a key that it comes back to. The second one collects all keys
that can be reached, whether read at once or inside functions. For each walk there is one
statement about what a step keeps, and one about what the whole walk gives.

## Main definitions

* `Graph.Reachable` — the keys that can be reached from some roots.
* `Graph.Reaching` — how far the second walk has come.
* `Graph.Ordered` — keys that come after all they depend on.
* `Graph.IsCycle` — a chain of dependencies that ends where it starts.
* `Graph.Visited` — what can come of the first walk.

## Main results

* `Graph.Reaching.reach` — the second walk ends with the keys that can be reached.
* `Graph.visited_visit` — what comes of the first walk.
-/

namespace AtomicStyles

open Script Resolving List

namespace Graph

variable {g : Graph} {k k' : BindingKey} {fuel : Nat}

/-- A key can be reached from one of the roots. -/
def Reachable (R : BindingKey → BindingKey → Prop) (roots : List BindingKey) (k : BindingKey) :
    Prop := ∃ root ∈ roots, Relation.ReflTransGen R root k

namespace Reachable

variable {R : BindingKey → BindingKey → Prop} {roots roots' : List BindingKey}

theorem root (h : k ∈ roots) : Reachable R roots k := ⟨k, h, .refl⟩

theorem tail (h : Reachable R roots k) (hk : R k k') : Reachable R roots k' := by
  obtain ⟨root, hroot, hpath⟩ := h
  exact ⟨root, hroot, hpath.tail hk⟩

theorem of_subset (h : Reachable R roots k) (hsub : roots ⊆ roots') : Reachable R roots' k := by
  obtain ⟨root, hroot, hpath⟩ := h
  exact ⟨root, hsub hroot, hpath⟩

/-- What can be reached from what a key leads to can be reached from the key. -/
theorem of_step (h : Reachable R roots k) (hroots : ∀ root ∈ roots, R k' root) :
    Reachable R [k'] k := by
  obtain ⟨root, hroot, hpath⟩ := h
  exact ⟨k', mem_singleton.2 rfl, .head (hroots root hroot) hpath⟩

end Reachable

/-! ### All keys that can be reached -/

/-- The keys that a key brings into the queue. -/
def successors (g : Graph) (k : BindingKey) : List BindingKey :=
  match (g.edges k).value with
  | .ok e => e.eager ++ e.deferred
  | .error _ => []

theorem mem_successors : k' ∈ g.successors k ↔ g.Refers k k' := by
  unfold successors
  cases h : (g.edges k).value with
  | error e => simp [refers_iff, h]
  | ok e => rw [refers_iff_of_edges h]

variable {seen queue : List BindingKey}

/-- One step of the walk: the first key of the queue that has not been seen is looked at. -/
theorem value_reach_cons {skipped : List BindingKey} (hskipped : skipped ⊆ seen) (hk : k ∉ seen) :
    (g.reach (fuel + 1) seen (skipped ++ k :: queue)).value =
      if (g.edges k).value = .error .endless then .error .endless
      else (g.reach fuel (seen ++ [k]) (queue ++ g.successors k)).value := by
  have hdrop : (skipped ++ k :: queue).dropWhile seen.contains = k :: queue := by
    rw [dropWhile_append_of_pos fun x hx => contains_iff_mem.2 (hskipped hx),
      dropWhile_cons_of_neg (by simpa using hk)]
  rw [reach, hdrop]
  dsimp only
  rw [value_bind (g.steady_edges k).outcome
    (fun found => by split <;> exact g.steady_reach _ _ _), value_outcome, successors]
  split
  · next hends =>
    rw [hends]
    rfl
  · next hends =>
    rw [Unresolved.settle_of_ne hends]
    cases (g.edges k).value with
    | error e => exact congrArg (fun q => (g.reach fuel _ q).value) (append_nil queue).symm
    | ok e =>
      exact congrArg (fun q => (g.reach fuel _ q).value) (append_assoc queue e.eager _)

theorem value_reach_of_subset (h : queue ⊆ seen) : (g.reach fuel seen queue).value = .ok seen := by
  have hall : ∀ k ∈ queue, seen.contains k = true := fun k hk => contains_iff_mem.2 (h hk)
  cases fuel with
  | zero =>
    rw [reach, if_pos (all_eq_true.2 hall)]
    rfl
  | succ fuel =>
    rw [reach, dropWhile_eq_nil_iff.2 hall]
    rfl

theorem value_reach_zero (h : ¬ queue ⊆ seen) : (g.reach 0 seen queue).value = .error .endless := by
  rw [reach, if_neg (by simpa [subset_def] using h)]
  rfl

/-- The first key of the queue that has not been seen. -/
theorem exists_not_mem_of_not_subset (h : ¬ queue ⊆ seen) :
    ∃ skipped k rest, queue = skipped ++ k :: rest ∧ skipped ⊆ seen ∧ k ∉ seen := by
  induction queue with
  | nil => exact absurd (nil_subset seen) h
  | cons k queue ih =>
    by_cases hk : k ∈ seen
    · obtain ⟨skipped, k', rest, rfl, hskipped, hk'⟩ :=
        ih fun hsub => h (cons_subset.2 ⟨hk, hsub⟩)
      exact ⟨k :: skipped, k', rest, rfl, cons_subset.2 ⟨hk, hskipped⟩, hk'⟩
    · exact ⟨[], k, queue, rfl, nil_subset seen, hk⟩

/-- How far the walk from the roots has come: the keys in `seen` have been looked at, and those
in the queue have not. -/
structure Reaching (g : Graph) (roots seen queue : List BindingKey) : Prop where
  nodup : seen.Nodup
  rooted : ∀ k ∈ roots, k ∈ seen ++ queue
  reachable : ∀ k ∈ seen ++ queue, Reachable g.Refers roots k
  closed : ∀ k ∈ seen, ∀ k', g.Refers k k' → k' ∈ seen ++ queue

namespace Reaching

variable {roots seen skipped queue reached : List BindingKey}

theorem start (g : Graph) (roots : List BindingKey) : g.Reaching roots [] roots where
  nodup := nodup_nil
  rooted _ hk := hk
  reachable _ hk := .root hk
  closed _ hk := by cases hk

/-- The keys of the queue that have been seen are not needed any more. -/
theorem skip (h : g.Reaching roots seen (skipped ++ queue)) (hskipped : skipped ⊆ seen) :
    g.Reaching roots seen queue := by
  have hsub : ∀ k ∈ seen ++ (skipped ++ queue), k ∈ seen ++ queue := by
    intro k hk
    have := @hskipped k
    grind
  exact {
    nodup := h.nodup
    rooted := fun k hk => hsub k (h.rooted k hk)
    reachable := fun k hk => h.reachable k (by grind)
    closed := fun k hk k' hk' => hsub k' (h.closed k hk k' hk') }

/-- A key that is looked at brings its successors into the queue. -/
theorem step (h : g.Reaching roots seen (k :: queue)) (hk : k ∉ seen) :
    g.Reaching roots (seen ++ [k]) (queue ++ g.successors k) := by
  have hsub : ∀ k' ∈ seen ++ k :: queue, k' ∈ seen ++ [k] ++ (queue ++ g.successors k) := by grind
  exact {
    nodup := nodup_append.2 ⟨h.nodup, nodup_singleton k, by grind⟩
    rooted := fun k' hk' => hsub k' (h.rooted k' hk')
    reachable := fun k' hk' => by
      by_cases hold : k' ∈ seen ++ k :: queue
      · exact h.reachable k' hold
      · have hnew : k' ∈ g.successors k := by grind
        exact (h.reachable k (by grind)).tail (mem_successors.1 hnew)
    closed := fun k₁ hk₁ k' hk' => by
      rcases mem_append.1 hk₁ with hk₁ | hk₁
      · exact hsub k' (h.closed k₁ hk₁ k' hk')
      · rw [mem_singleton.1 hk₁] at hk'
        have := mem_successors.2 hk'
        grind }

/-- Once all queued keys have been seen, the walk is at its end. -/
theorem finish (h : g.Reaching roots seen queue) (hsub : queue ⊆ seen) :
    g.Reaching roots seen [] := by
  rw [← append_nil queue] at h
  exact h.skip hsub

/-- **What the whole walk gives**: a walk that has come to its end. -/
theorem reach (h : g.Reaching roots seen queue)
    (hreach : (g.reach fuel seen queue).value = .ok reached) : g.Reaching roots reached [] := by
  induction fuel generalizing seen queue with
  | zero =>
    by_cases hsub : queue ⊆ seen
    · rw [value_reach_of_subset hsub] at hreach
      cases hreach
      exact h.finish hsub
    · rw [value_reach_zero hsub] at hreach
      cases hreach
  | succ fuel ih =>
    by_cases hsub : queue ⊆ seen
    · rw [value_reach_of_subset hsub] at hreach
      cases hreach
      exact h.finish hsub
    · obtain ⟨skipped, k, rest, rfl, hskipped, hk⟩ := exists_not_mem_of_not_subset hsub
      rw [value_reach_cons hskipped hk] at hreach
      split at hreach
      · cases hreach
      · exact ih ((h.skip hskipped).step hk) hreach

/-- At the end of the walk exactly the keys that can be reached have been seen. -/
theorem mem_iff (h : g.Reaching roots reached []) :
    k ∈ reached ↔ Reachable g.Refers roots k := by
  constructor
  · intro hk
    exact h.reachable k (mem_append_left _ hk)
  · rintro ⟨root, hroot, hpath⟩
    induction hpath with
    | refl => simpa using h.rooted root hroot
    | tail _ hk ih => simpa using h.closed _ ih _ hk

end Reaching

/-- The walk fails only where it does not end. -/
theorem value_reach_eq_error {seen queue : List BindingKey} {e : Unresolved}
    (h : (g.reach fuel seen queue).value = .error e) : e = .endless := by
  induction fuel generalizing seen queue with
  | zero =>
    by_cases hsub : queue ⊆ seen
    · rw [value_reach_of_subset hsub] at h
      cases h
    · rw [value_reach_zero hsub] at h
      exact (Except.error.inj h).symm
  | succ fuel ih =>
    by_cases hsub : queue ⊆ seen
    · rw [value_reach_of_subset hsub] at h
      cases h
    · obtain ⟨skipped, k, rest, rfl, hskipped, hk⟩ := exists_not_mem_of_not_subset hsub
      rw [value_reach_cons hskipped hk] at h
      split at h
      · exact (Except.error.inj h).symm
      · exact ih h

/-! ### Keys in order -/

/-- Keys in the order of their dependencies: each key comes once, and after all keys it
depends on. -/
inductive Ordered (g : Graph) : List BindingKey → Prop where
  | nil : Ordered g []
  | snoc {order : List BindingKey} {k : BindingKey} : Ordered g order → k ∉ order →
      (∀ k', g.Depends k k' → k' ∈ order) → Ordered g (order ++ [k])

namespace Ordered

variable {order : List BindingKey}

theorem nodup (h : g.Ordered order) : order.Nodup := by
  induction h with
  | nil => exact nodup_nil
  | snoc _ hk _ ih => exact nodup_append.2 ⟨ih, nodup_singleton _, by grind⟩

theorem mem_before (h : g.Ordered order) {before after : List BindingKey}
    (horder : order = before ++ k :: after) (hk : g.Depends k k') : k' ∈ before := by
  induction h generalizing after with
  | nil => simp at horder
  | @snoc order last _ _ hdeps ih =>
    rcases eq_nil_or_concat after with rfl | ⟨after, last', rfl⟩
    · obtain ⟨rfl, hlast⟩ := append_inj' horder rfl
      cases hlast
      exact hdeps k' hk
    · rw [concat_eq_append, ← cons_append, ← append_assoc] at horder
      exact ih (append_inj' horder rfl).1

/-- The keys hold all that can be reached from them. -/
theorem mem_of_reflTransGen (h : g.Ordered order) (hk : k ∈ order)
    (hpath : Relation.ReflTransGen g.Depends k k') : k' ∈ order := by
  induction hpath with
  | refl => exact hk
  | tail _ hstep ih =>
    obtain ⟨before, after, horder⟩ := append_of_mem ih
    rw [horder]
    exact mem_append_left _ (h.mem_before horder hstep)

/-- No key in the order depends on itself. -/
theorem not_transGen (h : g.Ordered order) (hk : k ∈ order) :
    ¬ Relation.TransGen g.Depends k k := by
  induction h with
  | nil => cases hk
  | @snoc order last hordered hlast hdeps ih =>
    rcases mem_append.1 hk with hk | hk
    · exact ih hk
    · rw [mem_singleton.1 hk]
      intro hcycle
      -- The first step leads into the earlier keys, and no step leads out of them.
      obtain ⟨next, hnext, hpath⟩ := Relation.TransGen.head'_iff.1 hcycle
      exact hlast (hordered.mem_of_reflTransGen (hdeps next hnext) hpath)

end Ordered

/-- A chain of keys each of which depends on the next one, and that ends where it starts. -/
structure IsCycle (g : Graph) (chain : List BindingKey) : Prop where
  two_le_length : 2 ≤ chain.length
  head_eq_last : chain.head? = chain.getLast?
  isChain : chain.IsChain g.Depends

/-- The chain that is cut out of the stack at a key that is met again. -/
theorem isCycle_of_mem_stack {stack : List BindingKey}
    (hstack : (k :: stack).IsChain fun a b => g.Depends b a) (hk : k ∈ stack) :
    g.IsCycle (k :: ((stack.takeWhile (· != k)).reverse ++ [k])) := by
  obtain ⟨rest, hrest⟩ : ∃ rest, stack = stack.takeWhile (· != k) ++ k :: rest := by
    obtain ⟨before, rest, rfl, hbefore⟩ := eq_append_cons_of_mem hk
    refine ⟨rest, ?_⟩
    rw [takeWhile_append_of_pos (by
      intro x hx
      simpa using fun heq : x = k => hbefore (heq ▸ hx))]
    simp
  have hcut : (k :: (stack.takeWhile (· != k) ++ [k])) <+: k :: stack := by
    refine ⟨rest, ?_⟩
    conv_rhs => rw [hrest]
    simp
  have hchain : k :: ((stack.takeWhile (· != k)).reverse ++ [k]) =
      (k :: (stack.takeWhile (· != k) ++ [k])).reverse := by simp
  refine ⟨by simp, ?_, ?_⟩
  · rw [← cons_append, getLast?_concat]
    rfl
  · rw [hchain, isChain_reverse]
    exact hstack.prefix hcut

/-- A key on a cycle depends on itself. -/
theorem IsCycle.transGen {chain : List BindingKey} (h : g.IsCycle (k :: chain)) :
    Relation.TransGen g.Depends k k := by
  cases chain with
  | nil => exact absurd h.two_le_length (by simp)
  | cons next chain =>
    obtain ⟨hnext, hrest⟩ := isChain_cons_cons.1 h.isChain
    have hlast : (next :: chain).getLast (cons_ne_nil _ _) = k := by
      have := h.head_eq_last
      rw [head?_cons, getLast?_cons_cons,
        getLast?_eq_getLast_of_ne_nil (cons_ne_nil _ _)] at this
      exact (Option.some.inj this).symm
    exact .head' hnext (relationReflTransGen_of_exists_isChain_cons chain hrest hlast)

/-- What can come of adding keys to an order by walks of depth `fuel` while the dependencies of
the keys on the stack are being added. -/
inductive Visited (g : Graph) (fuel : Nat) (stack order keys : List BindingKey) :
    Except Unresolved (List BindingKey) → Prop where
  /-- All keys have been added, with what they depend on and nothing else. -/
  | done {order' : List BindingKey} : g.Ordered order' → order ⊆ order' → keys ⊆ order' →
      (∀ k ∈ order', k ∈ order ∨ k ∉ stack ∧ Reachable g.Depends keys k) →
      Visited g fuel stack order keys (.ok order')
  | cycle {k : BindingKey} {chain : List BindingKey} : Reachable g.Depends keys k →
      g.IsCycle (k :: chain) → Visited g fuel stack order keys (.error (.circular (k :: chain)))
  | failed {k : BindingKey} {e : Unresolved} : Reachable g.Depends keys k →
      (g.edges k).value = .error e → Visited g fuel stack order keys (.error e)
  /-- There is a path that is longer than the depth allows. -/
  | deep {path : List BindingKey} : path.Nodup → path.length = fuel + stack.length →
      (∀ k ∈ path, k ∈ stack ∨ Reachable g.Depends keys k) →
      Visited g fuel stack order keys (.error .endless)

namespace Visited

variable {stack order order' keys keys' : List BindingKey}
  {result : Except Unresolved (List BindingKey)}

/-- A failure stays a failure when more keys are to be added. -/
theorem error_of_subset {e : Unresolved} (h : g.Visited fuel stack order keys (.error e))
    (hsub : keys ⊆ keys') : g.Visited fuel stack order keys' (.error e) := by
  cases h with
  | cycle hk hcycle => exact .cycle (hk.of_subset hsub) hcycle
  | failed hk he => exact .failed (hk.of_subset hsub) he
  | deep hnodup hlength hpath =>
    exact .deep hnodup hlength fun k hk => (hpath k hk).imp_right (·.of_subset hsub)

/-- After one key the others are added to the order that it leaves. -/
theorem cons (hk : g.Visited fuel stack order [k] (.ok order'))
    (h : g.Visited fuel stack order' keys result) :
    g.Visited fuel stack order (k :: keys) result := by
  have hone : [k] ⊆ k :: keys := cons_subset.2 ⟨.head _, nil_subset _⟩
  have hrest : keys ⊆ k :: keys := subset_cons_self k keys
  cases hk with
  | done hordered hsub hmem hnew =>
    cases h with
    | done hordered' hsub' hmem' hnew' =>
      refine .done hordered' (List.Subset.trans hsub hsub') ?_ fun k₁ hk₁ => ?_
      · exact cons_subset.2 ⟨hsub' (hmem (.head _)), hmem'⟩
      · rcases hnew' k₁ hk₁ with hk₁ | ⟨hstack, hk₁⟩
        · exact (hnew k₁ hk₁).imp_right fun ⟨hstack, hk₁⟩ => ⟨hstack, hk₁.of_subset hone⟩
        · exact .inr ⟨hstack, hk₁.of_subset hrest⟩
    | cycle hk hcycle => exact .cycle (hk.of_subset hrest) hcycle
    | failed hk he => exact .failed (hk.of_subset hrest) he
    | deep hnodup hlength hpath =>
      exact .deep hnodup hlength fun k hk => (hpath k hk).imp_right (·.of_subset hrest)

/-- A key is added after all keys that it depends on. -/
theorem snoc (hstack : k ∉ stack) (horder : k ∉ order) (hkeys : ∀ k', g.Depends k k' ↔ k' ∈ keys)
    (h : g.Visited fuel (k :: stack) order keys result) :
    g.Visited (fuel + 1) stack order [k] (result.map (· ++ [k])) := by
  have hstep : ∀ {k'}, Reachable g.Depends keys k' → Reachable g.Depends [k] k' :=
    fun hk' => hk'.of_step fun root hroot => (hkeys root).2 hroot
  cases h with
  | @done order' hordered hsub hmem hnew =>
    -- The walks below the key do not come back to it.
    have hk : k ∉ order' := fun hk =>
      (hnew k hk).elim horder fun hnew => hnew.1 (.head _)
    refine .done (hordered.snoc hk fun k' hk' => hmem ((hkeys k').1 hk')) ?_ ?_ fun k' hk' => ?_
    · exact List.Subset.trans hsub (subset_append_left _ _)
    · exact subset_append_right _ _
    · rcases mem_append.1 hk' with hk' | hk'
      · exact (hnew k' hk').imp_right fun ⟨hnot, hk'⟩ =>
          ⟨fun hmem => hnot (.tail _ hmem), hstep hk'⟩
      · rw [mem_singleton.1 hk']
        exact .inr ⟨hstack, .root (.head _)⟩
  | cycle hk hcycle => exact .cycle (hstep hk) hcycle
  | failed hk he => exact .failed (hstep hk) he
  | deep hnodup hlength hpath =>
    refine .deep hnodup (by rw [hlength, length_cons]; omega) fun k' hk' => ?_
    rcases hpath k' hk' with hk' | hk'
    · rcases mem_cons.1 hk' with rfl | hk'
      · exact .inr (.root (.head _))
      · exact .inl hk'
    · exact .inr (hstep hk')

/-- Keys are added one after the other. -/
theorem foldlM {f : List BindingKey → BindingKey → Except Unresolved (List BindingKey)}
    (hf : ∀ order, ∀ k ∈ keys, g.Ordered order → g.Visited fuel stack order [k] (f order k))
    (horder : g.Ordered order) : g.Visited fuel stack order keys (keys.foldlM f order) := by
  induction keys generalizing order with
  | nil => exact .done horder (List.Subset.refl _) (nil_subset _) fun _ hk => .inl hk
  | cons k keys ih =>
    have hk := hf order k (.head _) horder
    rw [foldlM_cons]
    cases hresult : f order k with
    | error e =>
      rw [hresult] at hk
      exact hk.error_of_subset (cons_subset.2 ⟨.head _, nil_subset _⟩)
    | ok order' =>
      rw [hresult] at hk
      refine hk.cons (ih (fun order k hk => hf order k (.tail _ hk)) ?_)
      cases hk with
      | done hordered => exact hordered

end Visited

/-- What a walk from a key does first. -/
theorem value_visit_succ (fuel : Nat) (stack order : List BindingKey) (k : BindingKey) :
    (g.visit (fuel + 1) stack order k).value =
      if k ∈ order then .ok order
      else if k ∈ stack then
        .error (.circular (k :: ((stack.takeWhile (· != k)).reverse ++ [k])))
      else do
        let e ← (g.edges k).value
        let order ← e.eager.foldlM (fun order k' =>
          (g.visit fuel (k :: stack) order k').value) order
        return order ++ [k] := by
  have hsteady : ∀ e : Edges, Steady g (e.eager.foldlM (g.visit fuel (k :: stack)) order) :=
    fun e => .foldlM (fun order k' => g.steady_visit fuel (k :: stack) order k') order e.eager
  rw [visit]
  simp only [contains_iff_mem]
  split
  · rfl
  · split
    · simp
    · rw [value_bind (g.steady_edges k) fun e => (hsteady e).bind fun _ => .pure _]
      refine bind_congr fun e => ?_
      rw [value_bind (hsteady e) fun _ => .pure _, value_foldlM fun order k' =>
        g.steady_visit fuel (k :: stack) order k']
      rfl

/-- **What comes of a walk from a key.** -/
theorem visited_visit {stack order : List BindingKey} (hnodup : stack.Nodup)
    (hstack : (k :: stack).IsChain fun a b => g.Depends b a) (horder : g.Ordered order) :
    g.Visited fuel stack order [k] (g.visit fuel stack order k).value := by
  induction fuel generalizing stack order k with
  | zero => exact .deep hnodup (Nat.zero_add _).symm fun _ hk => .inl hk
  | succ fuel ih =>
    rw [value_visit_succ]
    split
    · next hk =>
      exact .done horder (List.Subset.refl _) (cons_subset.2 ⟨hk, nil_subset _⟩)
        fun _ hk => .inl hk
    · next hk =>
      split
      · next hmem => exact .cycle (.root (.head _)) (isCycle_of_mem_stack hstack hmem)
      · next hmem =>
        cases he : (g.edges k).value with
        | error e => exact .failed (.root (.head _)) he
        | ok e =>
          have hdeps : ∀ k', g.Depends k k' ↔ k' ∈ e.eager := fun k' => depends_iff_of_edges he
          refine .snoc hmem hk hdeps (.foldlM (fun order k' hk' hordered => ?_) horder)
          exact ih (nodup_cons.2 ⟨hmem, hnodup⟩)
            (isChain_cons_cons.2 ⟨(hdeps k').2 hk', hstack⟩) hordered

/-- What comes of the walks from all roots. -/
theorem visited_roots (g : Graph) (fuel : Nat) (roots : List BindingKey) :
    g.Visited fuel [] [] roots (roots.foldlM (g.visit fuel []) []).value := by
  rw [value_foldlM (g.steady_visit fuel [])]
  exact .foldlM (fun order k _ hordered =>
    visited_visit nodup_nil (isChain_singleton k) hordered) .nil

/-! ### Closures -/

variable {writes : List (List String × List String)} {c : StyleCall}

/-- The closure of a style call is made by the two walks from what its argument refers to. -/
theorem value_closure (hnames : c.innerNames = []) :
    (g.closure writes c).value = do
      let roots ← (g.bindReferences g.entry c.references).value
      let order ← (roots.eager.foldlM (g.visit g.limit []) []).value
      let reached ← (g.reach g.limit [] (roots.eager ++ roots.deferred)).value
      let deferred := reached.filter fun k => !order.contains k
      (g.checkWrites (order ++ deferred) writes).value
      return { order, deferred, modules := modulesOf (order ++ deferred) } := by
  rw [closure, hnames]
  dsimp only
  refine (value_bind (g.steady_bindReferences _ _) fun roots =>
    (Steady.foldlM (g.steady_visit _ []) [] roots.eager).bind fun order =>
      (g.steady_reach _ _ _).bind fun reached =>
        (g.steady_checkWrites _ _).bind fun _ => .pure _).trans (bind_congr fun roots => ?_)
  refine (value_bind (Steady.foldlM (g.steady_visit _ []) [] roots.eager) fun order =>
    (g.steady_reach _ _ _).bind fun reached =>
      (g.steady_checkWrites _ _).bind fun _ => .pure _).trans (bind_congr fun order => ?_)
  refine (value_bind (g.steady_reach _ _ _) fun reached =>
    (g.steady_checkWrites _ _).bind fun _ => .pure _).trans (bind_congr fun reached => ?_)
  exact value_bind (g.steady_checkWrites _ _) fun _ => .pure _

/-- How a closure comes about. -/
theorem exists_of_value_closure {closure : Closure} (h : (g.closure writes c).value = .ok closure) :
    ∃ roots reached, (g.bindReferences g.entry c.references).value = .ok roots ∧
      (roots.eager.foldlM (g.visit g.limit []) []).value = .ok closure.order ∧
      g.Reaching (roots.eager ++ roots.deferred) reached [] ∧
      closure.deferred = reached.filter (fun k => !closure.order.contains k) ∧
      closure.modules = modulesOf (closure.order ++ closure.deferred) := by
  cases hnames : c.innerNames with
  | cons name names =>
    rw [Graph.closure, hnames] at h
    cases h
  | nil =>
    rw [value_closure hnames] at h
    obtain ⟨roots, hroots, h⟩ := bind_eq_ok_iff.1 h
    obtain ⟨order, horder, h⟩ := bind_eq_ok_iff.1 h
    obtain ⟨reached, hreach, h⟩ := bind_eq_ok_iff.1 h
    obtain ⟨_, -, h⟩ := bind_eq_ok_iff.1 h
    cases h
    exact ⟨roots, reached, hroots, horder, (Reaching.start g _).reach hreach, rfl, rfl⟩

/-- Where the closure of a style call can fail, step by step. -/
inductive Refuses (g : Graph) (writes : List (List String × List String)) (c : StyleCall) :
    Unresolved → Prop where
  | inner {name : String} {names : List String} : c.innerNames = name :: names →
      Refuses g writes c (.innerBinding name)
  | roots {e : Unresolved} : (g.bindReferences g.entry c.references).value = .error e →
      Refuses g writes c e
  | order {roots : Edges} {e : Unresolved} : c.innerNames = [] →
      (g.bindReferences g.entry c.references).value = .ok roots →
      (roots.eager.foldlM (g.visit g.limit []) []).value = .error e → Refuses g writes c e
  | reached {roots : Edges} {e : Unresolved} :
      (g.bindReferences g.entry c.references).value = .ok roots →
      (g.reach g.limit [] (roots.eager ++ roots.deferred)).value = .error e →
      Refuses g writes c e
  | written {needed : List BindingKey} {e : Unresolved} :
      (g.checkWrites needed writes).value = .error e → Refuses g writes c e

theorem refuses_of_value_closure {e : Unresolved} (h : (g.closure writes c).value = .error e) :
    g.Refuses writes c e := by
  cases hnames : c.innerNames with
  | cons name names =>
    rw [Graph.closure, hnames] at h
    cases h
    exact .inner hnames
  | nil =>
    rw [value_closure hnames] at h
    rcases bind_eq_error_iff.1 h with h | ⟨roots, hroots, h⟩
    · exact .roots h
    rcases bind_eq_error_iff.1 h with h | ⟨order, -, h⟩
    · exact .order hnames hroots h
    rcases bind_eq_error_iff.1 h with h | ⟨reached, -, h⟩
    · exact .reached hroots h
    rcases bind_eq_error_iff.1 h with h | ⟨_, -, h⟩
    · exact .written h
    · cases h

end Graph
end AtomicStyles
