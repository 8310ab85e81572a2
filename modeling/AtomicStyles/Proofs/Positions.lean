import Mathlib
import AtomicStyles.Script.Node

/-!
# Positions in a syntax tree

A position is the way from a module to a node: the number of an item, then the number of a part
at each step. The walk over a module meets the positions whose way is open to it, each once, so
what it finds can be counted by position even where two nodes of the module are alike.

## Main definitions

* `Node.at?`, `Module.at?`, `Module.callAt?` — what stands at a position.
* `Module.visits` — the walk, with the positions it meets.
* `Module.Nested` — the spans of calls nest as the calls do.

## Main results

* `Module.mem_visits`, `Module.nodup_visits` — which positions the walk meets, and that it meets
  them once.
* `Module.map_snd_visits` — it is the walk `Module.nodes`.
* `Module.nested_iff` — nesting, as a condition on the calls alone.
-/

namespace AtomicStyles

open List

/-- Neither of two spans reaches into the other. -/
def Span.Apart (s t : Span) : Prop := s.stop ≤ t.start ∨ t.stop ≤ s.start

instance (s t : Span) : Decidable (s.Apart t) :=
  inferInstanceAs (Decidable (s.stop ≤ t.start ∨ t.stop ≤ s.start))

namespace Script

variable {enter : Node → Bool} {n c : Node} {m : Module} {p q : List Nat} {i j k : Nat}

/-! ### What stands at a position -/

/-- The node at a position below a node. -/
def Node.at? : Node → List Nat → Option Node
  | n, [] => some n
  | n, i :: p => n.children[i]?.bind fun c => c.at? p

def Module.at? (m : Module) : List Nat → Option Node
  | [] => none
  | i :: p => m.items[i]?.bind fun item => (Node.item item).at? p

def Module.callAt? (m : Module) (p : List Nat) : Option Call := (m.at? p).bind Node.call?

@[simp] theorem Node.at?_nil (n : Node) : n.at? [] = some n := by
  rw [Node.at?]

theorem Node.at?_cons (n : Node) (i : Nat) (p : List Nat) :
    n.at? (i :: p) = n.children[i]?.bind fun c => c.at? p := by
  rw [Node.at?]

/-- There is a node at every position on the way to a node. -/
theorem Node.isSome_at?_of_append (h : (n.at? (p ++ q)).isSome) : (n.at? p).isSome := by
  induction p generalizing n with
  | nil => simp
  | cons i p ih =>
    rw [cons_append, at?_cons] at h
    rw [at?_cons]
    cases hc : n.children[i]? with
    | none => simp [hc] at h
    | some c => exact ih (by simpa [hc] using h)

theorem Module.isSome_at?_of_append (hp : p ≠ []) (h : (m.at? (p ++ q)).isSome) :
    (m.at? p).isSome := by
  cases p with
  | nil => exact absurd rfl hp
  | cons i p =>
    rw [cons_append, at?] at h
    rw [at?]
    cases hi : m.items[i]? with
    | none => simp [hi] at h
    | some item => exact Node.isSome_at?_of_append (q := q) (by simpa [hi] using h)

/-! ### The walk with its positions -/

section

variable {α : Type} {f g : α → List (List Nat × Node)} {as : List α}

/-- What lists of positions say of the items of a list, each item with its number in front. -/
def numbered (f : α → List (List Nat × Node)) (k : Nat) : List α → List (List Nat × Node)
  | [] => []
  | a :: as => (f a).map (fun v => (k :: v.1, v.2)) ++ numbered f (k + 1) as

theorem numbered_map {β : Type} (r : β → α) (bs : List β) :
    numbered f k (bs.map r) = numbered (fun b => f (r b)) k bs := by
  induction bs generalizing k with
  | nil => rfl
  | cons b bs ih => rw [map_cons, numbered, numbered, ih]

theorem mem_numbered : (p, c) ∈ numbered f k as ↔
    ∃ i q a, p = (k + i) :: q ∧ as[i]? = some a ∧ (q, c) ∈ f a := by
  induction as generalizing k with
  | nil => simp [numbered]
  | cons a as ih =>
    rw [numbered, mem_append, ih]
    constructor
    · rintro (h | ⟨i, q, b, rfl, hb, hmem⟩)
      · obtain ⟨⟨q, d⟩, hmem, heq⟩ := mem_map.1 h
        cases heq
        exact ⟨0, q, a, rfl, rfl, hmem⟩
      · exact ⟨i + 1, q, b, by rw [Nat.add_assoc, Nat.add_comm 1], hb, hmem⟩
    · rintro ⟨i, q, b, rfl, hb, hmem⟩
      cases i with
      | zero =>
        cases hb
        exact .inl (mem_map.2 ⟨(q, c), hmem, rfl⟩)
      | succ i => exact .inr ⟨i, q, b, by rw [Nat.add_assoc, Nat.add_comm 1], hb, hmem⟩

theorem nodup_numbered (h : ∀ a ∈ as, ((f a).map Prod.fst).Nodup) :
    ((numbered f k as).map Prod.fst).Nodup := by
  induction as generalizing k with
  | nil => simp [numbered]
  | cons a as ih =>
    rw [numbered, map_append, map_map]
    refine nodup_append'.2 ⟨?_, ih fun b hb => h b (mem_cons_of_mem a hb), ?_⟩
    · have hinj : Function.Injective (List.cons k : List Nat → List Nat) := cons_injective
      simpa [Function.comp_def] using (h a (.head _)).map hinj
    · -- positions in later items start with a larger number
      intro p hp hp'
      obtain ⟨v, -, rfl⟩ := mem_map.1 hp
      obtain ⟨⟨p', d⟩, hmem, heq⟩ := mem_map.1 hp'
      obtain ⟨i, q, b, rfl, -, -⟩ := mem_numbered.1 hmem
      have : k + 1 + i = k := (List.cons.inj heq).1
      omega

theorem map_snd_numbered : (numbered f k as).map Prod.snd = as.flatMap fun a => (f a).map Prod.snd := by
  induction as generalizing k with
  | nil => rfl
  | cons a as ih => simp [numbered, ih]

end

/-- The walk `Node.preorder`, with the positions it meets. -/
def Node.visits (enter : Node → Bool) (n : Node) : List (List Nat × Node) :=
  ([], n) :: (if enter n then numbered (fun c => c.1.visits enter) 0 n.children.attach else [])
termination_by sizeOf n
decreasing_by exact sizeOf_lt_of_mem_children c.2

/-- The walk over a module, with the positions it meets. -/
def Module.visits (m : Module) (enter : Node → Bool) : List (List Nat × Node) :=
  numbered (fun i => (Node.item i).visits enter) 0 m.items

namespace Node

theorem visits_eq (enter : Node → Bool) (n : Node) : n.visits enter =
    ([], n) :: if enter n then numbered (visits enter) 0 n.children else [] := by
  rw [visits]
  congr 2
  rw [← numbered_map Subtype.val, attach_map_subtype_val]

/-- The walk meets a position if it may enter every node on the way to it. -/
theorem mem_visits : (p, c) ∈ n.visits enter ↔
    n.at? p = some c ∧ ∀ q, q <+: p → q ≠ p → ∀ d, n.at? q = some d → enter d = true := by
  induction p generalizing n with
  | nil =>
    have hnot : ∀ f k, ([], c) ∉ numbered f k n.children := fun f k h => by
      obtain ⟨i, q, a, heq, -⟩ := mem_numbered.1 h
      cases heq
    have hself : ([], c) ∈ n.visits enter ↔ n = c := by
      rw [visits_eq, mem_cons, Prod.mk.injEq, eq_comm (a := n)]
      split <;> simp [hnot]
    simp [hself]
  | cons i p ih =>
    have hvisit : (i :: p, c) ∈ n.visits enter ↔
        enter n = true ∧ ∃ d, n.children[i]? = some d ∧ (p, c) ∈ d.visits enter := by
      rw [visits_eq]
      by_cases henter : enter n = true <;> simp [henter, mem_numbered]
    rw [hvisit, at?_cons, Option.bind_eq_some_iff]
    constructor
    · rintro ⟨henter, d, hd, hmem⟩
      obtain ⟨hat, hway⟩ := ih.1 hmem
      refine ⟨⟨d, hd, hat⟩, fun q hq hne e he => ?_⟩
      rcases prefix_cons_iff.1 hq with rfl | ⟨q, rfl, htail⟩
      · rw [at?_nil] at he
        cases he
        exact henter
      · rw [at?_cons, hd] at he
        exact hway q htail (fun h => hne (h ▸ rfl)) e he
    · rintro ⟨⟨d, hd, hat⟩, hway⟩
      refine ⟨hway [] nil_prefix (by simp) n (at?_nil n), d, hd, ih.2 ⟨hat, ?_⟩⟩
      intro q hq hne e he
      refine hway (i :: q) (cons_prefix_cons.2 ⟨rfl, hq⟩) (by simpa using hne) e ?_
      rw [at?_cons, hd]
      exact he

theorem nodup_visits (enter : Node → Bool) (n : Node) : ((n.visits enter).map Prod.fst).Nodup := by
  induction hsize : sizeOf n using Nat.strongRecOn generalizing n with
  | ind size ih =>
    rw [visits_eq]
    split
    · refine nodup_cons.2 ⟨fun h => ?_, nodup_numbered fun c hc =>
        ih _ (hsize ▸ sizeOf_lt_of_mem_children hc) c rfl⟩
      obtain ⟨⟨p, c⟩, hmem, hp⟩ := mem_map.1 h
      obtain ⟨i, q, a, rfl, -⟩ := mem_numbered.1 hmem
      cases hp
    · simp

theorem map_snd_visits (enter : Node → Bool) (n : Node) :
    (n.visits enter).map Prod.snd = n.preorder enter := by
  induction hsize : sizeOf n using Nat.strongRecOn generalizing n with
  | ind size ih =>
    rw [visits_eq, preorder_eq]
    split
    · rw [map_cons, map_snd_numbered]
      congr 1
      exact flatMap_congr fun c hc => ih _ (hsize ▸ sizeOf_lt_of_mem_children hc) c rfl
    · rfl

end Node

namespace Module

/-- **The walk over a module meets the nodes to which the way is open.** -/
theorem mem_visits : (p, c) ∈ m.visits enter ↔
    m.at? p = some c ∧ ∀ q, q <+: p → q ≠ p → ∀ d, m.at? q = some d → enter d = true := by
  cases p with
  | nil =>
    refine ⟨fun h => ?_, fun h => absurd h.1 (by simp [at?])⟩
    obtain ⟨i, q, a, heq, -⟩ := mem_numbered.1 h
    cases heq
  | cons i p =>
    have hvisit : (i :: p, c) ∈ m.visits enter ↔
        ∃ item, m.items[i]? = some item ∧ (p, c) ∈ (Node.item item).visits enter := by
      simp [visits, mem_numbered]
    rw [hvisit, at?, Option.bind_eq_some_iff]
    constructor
    · rintro ⟨item, hitem, hmem⟩
      obtain ⟨hat, hway⟩ := Node.mem_visits.1 hmem
      refine ⟨⟨item, hitem, hat⟩, fun q hq hne d hd => ?_⟩
      rcases prefix_cons_iff.1 hq with rfl | ⟨q, rfl, htail⟩
      · cases hd
      · rw [at?, hitem] at hd
        exact hway q htail (fun h => hne (h ▸ rfl)) d hd
    · rintro ⟨⟨item, hitem, hat⟩, hway⟩
      refine ⟨item, hitem, Node.mem_visits.2 ⟨hat, fun q hq hne d hd => ?_⟩⟩
      refine hway (i :: q) (cons_prefix_cons.2 ⟨rfl, hq⟩) (by simpa using hne) d ?_
      rw [at?, hitem]
      exact hd

theorem nodup_visits (m : Module) (enter : Node → Bool) : ((m.visits enter).map Prod.fst).Nodup :=
  nodup_numbered fun i _ => Node.nodup_visits enter (.item i)

theorem map_snd_visits (m : Module) (enter : Node → Bool) :
    (m.visits enter).map Prod.snd = m.nodes enter := by
  rw [visits, map_snd_numbered, nodes]
  exact flatMap_congr fun i _ => Node.map_snd_visits enter (.item i)

end Module

/-! ### Spans -/

namespace Module

/-- The bytes that belong to each node of a module. What belongs to a part belongs to the node,
two parts of a node share nothing, and to a call belong the bytes of its span. The bytes of other
nodes need not be in one piece: a method has decorators before its key. -/
structure Layout (m : Module) (bytes : List Nat → Set Nat) : Prop where
  part : ∀ p i, (m.at? (p ++ [i])).isSome → bytes (p ++ [i]) ⊆ bytes p
  apart : ∀ p i j, i ≠ j → (m.at? (p ++ [i])).isSome → (m.at? (p ++ [j])).isSome →
    Disjoint (bytes (p ++ [i])) (bytes (p ++ [j]))
  call : ∀ p c, m.callAt? p = some c →
    c.span.start < c.span.stop ∧ bytes p = Set.Ico c.span.start c.span.stop

/-- Spans nest as the nodes do. -/
def Nested (m : Module) : Prop := ∃ bytes, m.Layout bytes

variable {bytes : List Nat → Set Nat} {d : Call}

theorem isSome_at?_of_callAt? {c : Call} (h : m.callAt? p = some c) : (m.at? p).isSome := by
  unfold callAt? at h
  cases hp : m.at? p with
  | none => simp [hp] at h
  | some n => rfl

theorem Layout.subset (h : m.Layout bytes) (hp : p ≠ []) (hq : (m.at? (p ++ q)).isSome) :
    bytes (p ++ q) ⊆ bytes p := by
  induction q using List.reverseRecOn with
  | nil => simp
  | append_singleton q i ih =>
    rw [← append_assoc] at hq ⊢
    have hway := isSome_at?_of_append (by simp [hp]) hq
    exact (h.part _ i hq).trans (ih hway)

/-- Two positions, neither of which is on the way to the other, part somewhere. -/
theorem exists_fork (hpq : ¬ p <+: q) (hqp : ¬ q <+: p) :
    ∃ way i j p' q', i ≠ j ∧ p = way ++ [i] ++ p' ∧ q = way ++ [j] ++ q' := by
  induction p generalizing q with
  | nil => exact absurd nil_prefix hpq
  | cons i p ih =>
    cases q with
    | nil => exact absurd nil_prefix hqp
    | cons j q =>
      by_cases hij : i = j
      · subst hij
        obtain ⟨way, i', j', p', q', hne, rfl, rfl⟩ := ih
          (fun h => hpq (cons_prefix_cons.2 ⟨rfl, h⟩))
          (fun h => hqp (cons_prefix_cons.2 ⟨rfl, h⟩))
        exact ⟨i :: way, i', j', p', q', hne, rfl, rfl⟩
      · exact ⟨[], i, j, p, q, hij, rfl, rfl⟩

theorem not_prefix_of_fork {way p' q' : List Nat} (hij : i ≠ j) :
    ¬ way ++ [i] ++ p' <+: way ++ [j] ++ q' := by
  intro h
  rw [append_assoc, append_assoc, prefix_append_right_inj] at h
  exact hij (cons_prefix_cons.1 h).1

/-- Calls neither of which lies inside the other have spans apart from each other. -/
theorem Layout.apart_of_not_prefix (h : m.Layout bytes) {c d : Call} (hc : m.callAt? p = some c)
    (hd : m.callAt? q = some d) (hpq : ¬ p <+: q) (hqp : ¬ q <+: p) : c.span.Apart d.span := by
  obtain ⟨hcspan, hcbytes⟩ := h.call p c hc
  obtain ⟨hdspan, hdbytes⟩ := h.call q d hd
  have hpsome := isSome_at?_of_callAt? hc
  have hqsome := isSome_at?_of_callAt? hd
  obtain ⟨way, i, j, p', q', hij, rfl, rfl⟩ := exists_fork hpq hqp
  have hfork := h.apart way i j hij (isSome_at?_of_append (by simp) hpsome)
    (isSome_at?_of_append (by simp) hqsome)
  have hdisjoint := hfork.mono (h.subset (by simp) hpsome) (h.subset (by simp) hqsome)
  rw [hcbytes, hdbytes, Set.Ico_disjoint_Ico] at hdisjoint
  unfold Span.Apart
  omega

/-- A call inside another has its span inside the other's. -/
theorem Layout.inside_of_prefix (h : m.Layout bytes) {c d : Call} (hc : m.callAt? p = some c)
    (hd : m.callAt? q = some d) (hpq : p <+: q) :
    c.span.start ≤ d.span.start ∧ d.span.stop ≤ c.span.stop := by
  obtain ⟨rest, rfl⟩ := hpq
  have hp : p ≠ [] := by
    rintro rfl
    cases hc
  have hsub := h.subset hp (isSome_at?_of_callAt? hd)
  obtain ⟨hdspan, hdbytes⟩ := h.call _ d hd
  rw [hdbytes, (h.call p c hc).2, Set.Ico_subset_Ico_iff hdspan] at hsub
  exact hsub

/-- The positions and the spans of the calls of a module. -/
def callSpans (m : Module) : List (List Nat × Span) :=
  (m.visits fun _ => true).filterMap fun v => v.2.call?.map fun c => (v.1, c.span)

theorem mem_callSpans {s : Span} :
    (p, s) ∈ m.callSpans ↔ ∃ c, m.callAt? p = some c ∧ c.span = s := by
  rw [callSpans, mem_filterMap]
  constructor
  · rintro ⟨⟨q, n⟩, hmem, heq⟩
    obtain ⟨c, hcall, hpair⟩ := Option.map_eq_some_iff.1 heq
    cases hpair
    exact ⟨c, Option.bind_eq_some_iff.2 ⟨n, (mem_visits.1 hmem).1, hcall⟩, rfl⟩
  · rintro ⟨c, hc, rfl⟩
    obtain ⟨n, hn, hcall⟩ := Option.bind_eq_some_iff.1 hc
    exact ⟨(p, n), mem_visits.2 ⟨hn, by simp⟩, by simp [hcall]⟩

/-- **Spans nest** if every call has a span, that of a call inside another lies in the other's,
and those of all other calls are apart. -/
theorem nested_iff : m.Nested ↔ ∀ v ∈ m.callSpans, v.2.start < v.2.stop ∧ ∀ w ∈ m.callSpans,
    (v.1 <+: w.1 → v.2.start ≤ w.2.start ∧ w.2.stop ≤ v.2.stop) ∧
    (¬ v.1 <+: w.1 → ¬ w.1 <+: v.1 → v.2.Apart w.2) := by
  constructor
  · rintro ⟨bytes, h⟩ ⟨p, s⟩ hv
    obtain ⟨c, hc, rfl⟩ := mem_callSpans.1 hv
    refine ⟨(h.call p c hc).1, fun ⟨q, t⟩ hw => ?_⟩
    obtain ⟨d, hd, rfl⟩ := mem_callSpans.1 hw
    exact ⟨h.inside_of_prefix hc hd, h.apart_of_not_prefix hc hd⟩
  · intro h
    -- to each node belong the bytes of the calls at it and below it
    refine ⟨fun p => {b | ∃ q c, p <+: q ∧ m.callAt? q = some c ∧
      b ∈ Set.Ico c.span.start c.span.stop}, ?_, ?_, ?_⟩
    · rintro p i - b ⟨q, c, hq, hc, hb⟩
      exact ⟨q, c, (prefix_append p [i]).trans hq, hc, hb⟩
    · rintro p i j hij - -
      refine Set.disjoint_left.2 ?_
      rintro b ⟨_, c, ⟨p', rfl⟩, hc, hb⟩ ⟨_, d, ⟨q', rfl⟩, hd, hb'⟩
      have happ : c.span.Apart d.span :=
        ((h _ (mem_callSpans.2 ⟨c, hc, rfl⟩)).2 _ (mem_callSpans.2 ⟨d, hd, rfl⟩)).2
          (not_prefix_of_fork hij) (not_prefix_of_fork hij.symm)
      have hb := Set.mem_Ico.1 hb
      have hb' := Set.mem_Ico.1 hb'
      rcases happ with happ | happ <;> omega
    · intro p c hc
      have hp := h _ (mem_callSpans.2 ⟨c, hc, rfl⟩)
      refine ⟨hp.1, Set.Subset.antisymm ?_ fun b hb => ⟨p, c, prefix_rfl, hc, hb⟩⟩
      rintro b ⟨q, d, hpq, hd, hb⟩
      have hsub := (hp.2 _ (mem_callSpans.2 ⟨d, hd, rfl⟩)).1 hpq
      exact Set.Ico_subset_Ico hsub.1 hsub.2 hb

end Module
end Script
end AtomicStyles
