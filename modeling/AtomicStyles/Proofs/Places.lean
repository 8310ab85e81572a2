import AtomicStyles.Proofs.Scopes

/-!
# What stands in a scope

The parts of a node with their environments leave out what is no variable: labels, names of
markup elements that are not declared, and the wrappers of patterns and bodies. Nothing else
is lost that way: an expression or identifier that is reached over parts of parts, without
labels and such names, stands somewhere below the node, in an environment of its own.

## Main definitions

* `Below` — an expression or identifier is reached over parts of parts.
* `Node.Has` — the expression is part of the node.

## Main results

* `Node.partsHave_scopes` — nothing is lost on the way to the parts of a node.
* `Below.exists_sees` — what is reached stands somewhere below the node.
* `Node.Has.exists_sees` — every expression of a node stands somewhere below it.
-/

namespace AtomicStyles
namespace Script

open List

/-- The parts of a node without labels and names of markup elements that are not declared. -/
def Node.kept : Node → List Node
  | .expr (.tagName id) => if isPlainTag id then [] else [.ident id]
  | .stmt (.labeled _ s) => [.stmt s]
  | .stmt (.breakTo _) => []
  | .stmt (.continueTo _) => []
  | n => n.children

theorem Node.mem_children_of_mem_kept {n c : Node} (h : c ∈ n.kept) : c ∈ n.children := by
  unfold kept at h
  split at h
  · split at h
    · cases h
    · exact h
  · exact .tail _ h
  · cases h
  · cases h
  · exact h

theorem Node.mem_kept_of_mem_children {n c : Node} (h : c ∈ n.children) :
    c ∈ n.kept ∨ ∃ id, c = .ident id := by
  unfold kept
  split
  · exact .inr ⟨_, mem_singleton.1 h⟩
  · exact (mem_cons.1 h).symm.imp_right fun hc => ⟨_, hc⟩
  · obtain ⟨id, -, rfl⟩ := mem_map.1 h
    exact .inr ⟨id, rfl⟩
  · obtain ⟨id, -, rfl⟩ := mem_map.1 h
    exact .inr ⟨id, rfl⟩
  · exact .inl h

def Node.isTerm : Node → Bool
  | .expr _ => true
  | .ident _ => true
  | _ => false

/-- The expression or identifier `t` is the node, or is reached from it over parts of parts. -/
inductive Below (t : Node) : Node → Prop where
  | here : t.isTerm = true → Below t t
  | inside {n c : Node} : c ∈ n.kept → Below t c → Below t n

/-- The expression or identifier is reached from one of the parts. -/
def PartsHave (t : Node) (parts : List (Env × Node)) : Prop := ∃ part ∈ parts, Below t part.2

variable {t : Node} {env : Env}

namespace Below

variable {n : Node}

/-- A wrapper is not what is looked for. -/
theorem exists_inner (h : Below t n) (hn : n.isTerm = false) : ∃ c ∈ n.kept, Below t c := by
  cases h with
  | here ht => exact absurd ht (Bool.eq_false_iff.1 hn)
  | inside hc h => exact ⟨_, hc, h⟩

theorem not_hidden : ¬ Below t (.key .hidden) := by
  intro h
  obtain ⟨c, hc, -⟩ := h.exists_inner rfl
  cases hc

end Below

namespace PartsHave

variable {parts parts' : List (Env × Node)} {n : Node}

theorem left (h : PartsHave t parts) : PartsHave t (parts ++ parts') := by
  obtain ⟨part, hpart, h⟩ := h
  exact ⟨part, mem_append_left _ hpart, h⟩

theorem right (h : PartsHave t parts') : PartsHave t (parts ++ parts') := by
  obtain ⟨part, hpart, h⟩ := h
  exact ⟨part, mem_append_right _ hpart, h⟩

theorem head (h : Below t n) : PartsHave t ((env, n) :: parts) := ⟨(env, n), .head _, h⟩

theorem tail {part : Env × Node} (h : PartsHave t parts) : PartsHave t (part :: parts) := by
  obtain ⟨part', hpart, h⟩ := h
  exact ⟨part', .tail _ hpart, h⟩

theorem seeing {ns : List Node} (h : Below t n) (hn : n ∈ ns) : PartsHave t (Script.seeing env ns) :=
  ⟨(env, n), mem_map_of_mem hn, h⟩

end PartsHave

/-! ### Other syntax -/

theorem partsHave_unfoldAll {α : Type} {f : Env → α → Unfolding} {as : List α} {a : α} (ha : a ∈ as)
    (hf : ∀ env, PartsHave t (f env a).2) : PartsHave t (unfoldAll f env as).2 := by
  induction as generalizing env with
  | nil => cases ha
  | cons b as ih =>
    rcases mem_cons.1 ha with rfl | ha
    · exact (hf env).left
    · exact (ih ha).right

/-- What is reached from a pattern is reached from something that it consists of. -/
theorem Below.exists_leaf {n : Node} (h : Below t n) (hn : n.isPattern = true) :
    ∃ c ∈ n.leaves, Below t c := by
  induction hsize : sizeOf n using Nat.strongRecOn generalizing n with
  | ind size ih =>
    have hterm : n.isTerm = false := by cases n <;> first | rfl | cases hn
    obtain ⟨c, hc, h⟩ := h.exists_inner hterm
    replace hc := Node.mem_children_of_mem_kept hc
    have hleaves : c.leaves ⊆ n.leaves := by
      refine filter_subset _ fun d hd => ?_
      rw [Node.preorder_eq, if_pos hn]
      exact .tail _ (mem_flatMap.2 ⟨c, hc, hd⟩)
    cases hp : c.isPattern with
    | true =>
      obtain ⟨d, hd, h⟩ := ih _ (hsize ▸ Node.sizeOf_lt_of_mem_children hc) h hp rfl
      exact ⟨d, hleaves hd, h⟩
    | false =>
      refine ⟨c, hleaves (mem_filter.2 ⟨?_, by rw [hp]; rfl⟩), h⟩
      rw [Node.preorder_eq]
      exact .head _

theorem Node.partsHave_unfold {n : Node} (h : Below t n) (hn : n.isPattern = true) :
    PartsHave t (n.unfold env).2 := by
  obtain ⟨c, hc, h⟩ := h.exists_leaf hn
  refine partsHave_unfoldAll hc fun env => ?_
  unfold Node.unfoldLeaf
  split <;> exact .head h

variable {c n : Node} {p : Pat} {b : Body} {ps : List Pat} {e : Expr}

theorem partsHave_loopStart {i : Option Stmt} (hc : c ∈ Node.stmt? i) (h : Below t c) :
    PartsHave t (loopStart env i).2 := by
  have hdeclarators : ∀ {d : Decl} {ds : List Declarator}, i = some (.decl d) →
      (Node.decl d).children = ds.map .declarator →
      PartsHave t (unfoldAll Node.unfold (env.push []) (ds.map .declarator)).2 := by
    rintro d ds rfl hchildren
    rw [mem_singleton.1 hc] at h
    obtain ⟨c, hc, h⟩ := h.exists_inner rfl
    rw [mem_singleton.1 hc] at h
    obtain ⟨c, hc, h⟩ := h.exists_inner rfl
    replace hc := hchildren ▸ Node.mem_children_of_mem_kept hc
    obtain ⟨a, -, rfl⟩ := mem_map.1 hc
    exact partsHave_unfoldAll hc fun env => Node.partsHave_unfold h rfl
  unfold loopStart
  split
  · exact hdeclarators rfl rfl
  · exact hdeclarators rfl rfl
  · exact hdeclarators rfl rfl
  · exact .seeing h hc

theorem ForHead.partsHave_unfold (head : ForHead) (h : Below t (.pat p)) :
    PartsHave t (head.unfold env p).2 := by
  unfold ForHead.unfold
  split
  · exact Node.partsHave_unfold h rfl
  · exact .head h

theorem partsHave_bodyScope {names : List Stmt → List Ident} (h : Below t (.body b)) :
    PartsHave t (bodyScope names env b) := by
  obtain ⟨c, hc, hce⟩ := h.exists_inner rfl
  cases b with
  | absent => cases hc
  | block ss => exact .seeing hce hc
  | value d =>
    rw [mem_singleton.1 hc] at hce
    exact .head hce

theorem partsHave_paramScope (hc : c ∈ Node.pats ps ++ [.body b]) (h : Below t c) :
    PartsHave t (paramScope env ps b) := by
  rcases mem_append.1 hc with hc | hc
  · obtain ⟨p, hp, rfl⟩ := mem_map.1 hc
    exact PartsHave.left ⟨_, mem_map_of_mem hp, h⟩
  · rw [mem_singleton.1 hc] at h
    exact (partsHave_bodyScope h).right

theorem partsHave_paramDecorators (hp : p ∈ ps) (hc : c ∈ Node.exprs p.decorators) (h : Below t c) :
    PartsHave t (paramDecorators env ps) := by
  obtain ⟨d, hd, rfl⟩ := mem_map.1 hc
  exact .seeing h (mem_map_of_mem (mem_flatMap.2 ⟨p, hp, hd⟩))

/-- A parameter is its decorators and the rest. -/
theorem Below.undecorated (h : Below t (.pat p)) :
    (∃ c ∈ Node.exprs p.decorators, Below t c) ∨ Below t (.pat p.undecorated) := by
  cases p with
  | decorated ds p =>
    obtain ⟨c, hc, h⟩ := h.exists_inner rfl
    rcases mem_append.1 hc with hc | hc
    · exact .inl ⟨c, hc, h⟩
    · rw [mem_singleton.1 hc] at h
      exact .inr h
  | _ => exact .inr h

/-- A function is the decorators of its parameters and the rest. -/
theorem Below.func_undecorated {ds : List Expr} {a g : Bool}
    (h : Below t (.func (.mk ds ps b a g))) :
    (∃ p ∈ ps, ∃ c ∈ Node.exprs p.decorators, Below t c) ∨
      Below t (.func (.mk ds (ps.map Pat.undecorated) b a g)) := by
  obtain ⟨c, hc, hce⟩ := h.exists_inner rfl
  rcases mem_append.1 hc with hc | hc
  · rcases mem_append.1 hc with hc | hc
    · obtain ⟨p, hp, rfl⟩ := mem_map.1 hc
      rcases hce.undecorated with hdecorator | hrest
      · exact .inl ⟨p, hp, hdecorator⟩
      · refine .inr (.inside (mem_append_left _ (mem_append_left _ ?_)) hrest)
        exact mem_map_of_mem (mem_map_of_mem hp)
    · exact .inr (.inside (mem_append_left _ (mem_append_right _ hc)) hce)
  · exact .inr (.inside (mem_append_right _ hc) hce)

/-- The decorators of a function are taken out of it. -/
theorem partsHave_funcScope {name : Option Ident} {f : Func}
    (hc : c ∈ (Node.expr (.func name f)).kept) (h : Below t c) :
    PartsHave t ((Node.expr (.func name f)).scopes env) := by
  obtain ⟨ds, ps, b, a, g⟩ := f
  have hfunc {c : Node} (hc : c ∈ Node.pats ps ∨ c ∈ [Node.body b]) (h : Below t c) :
      Below t (.func (.mk [] ps b a g)) :=
    .inside (mem_append.2 (hc.imp_left (mem_append_left _))) h
  rcases mem_append.1 hc with hc | hc
  · exact (PartsHave.seeing h (mem_append_left _ hc)).right
  · rw [mem_singleton.1 hc] at h
    obtain ⟨c, hc, h⟩ := h.exists_inner rfl
    rcases mem_append.1 hc with hc | hc
    · rcases mem_append.1 hc with hc | hc
      · exact (PartsHave.seeing (hfunc (.inl hc) h) (mem_append_right _ (.head _))).right
      · exact (PartsHave.seeing h hc).left
    · exact (PartsHave.seeing (hfunc (.inr hc) h) (mem_append_right _ (.head _))).right

/-- The base of a class is taken out of it. -/
theorem partsHave_classScope {name : Option Ident} {cls : Class}
    (hc : c ∈ (Node.expr (.cls name cls)).kept) (h : Below t c) :
    PartsHave t ((Node.expr (.cls name cls)).scopes env) := by
  obtain ⟨ds, ms, base, is⟩ := cls
  rcases mem_append.1 hc with hc | hc
  · exact (PartsHave.seeing h (mem_append_left _ hc)).right
  · rw [mem_singleton.1 hc] at h
    obtain ⟨c, hc, h⟩ := h.exists_inner rfl
    by_cases hbase : c ∈ Node.expr? base
    · exact (PartsHave.seeing h hbase).left
    · have hcls : Below t (.cls (.mk ds ms none is)) := by
        refine .inside ?_ h
        simp only [Node.kept, Node.children, mem_append, hbase, or_false] at hc ⊢
        rcases hc with hc | hc
        · exact .inl (.inl hc)
        · exact .inr hc
      exact (PartsHave.seeing hcls (mem_append_right _ (.head _))).right

/-- The decorators of the parameters of a class member are taken out of it. -/
theorem partsHave_memberScope {m : Member} (hc : c ∈ (Node.member m).kept) (h : Below t c) :
    PartsHave t ((Node.member m).scopes env) := by
  cases m with
  | method k f =>
    obtain ⟨ds, ps, b, a, g⟩ := f
    have hnamed : PartsHave t ((env, .key k) :: paramDecorators env ps ++
        [(env, .func (.mk ds (ps.map Pat.undecorated) b a g))]) := by
      rcases mem_cons.1 hc with rfl | hc
      · exact (PartsHave.head h).left
      · rw [mem_singleton.1 hc] at h
        rcases h.func_undecorated with ⟨p, hp, c, hc, h⟩ | hfunc
        · exact (partsHave_paramDecorators hp hc h).tail.left
        · exact (PartsHave.head hfunc).right
    cases k with
    | hidden =>
      rcases mem_cons.1 hc with rfl | hc
      · exact absurd h Below.not_hidden
      · rw [mem_singleton.1 hc] at h
        exact .head h
    | _ => exact hnamed
  | constructor k ps b =>
    rcases mem_append.1 hc with hc | hc
    · rcases mem_cons.1 hc with rfl | hc
      · exact (PartsHave.head h).left
      · obtain ⟨p, hp, rfl⟩ := mem_map.1 hc
        rcases h.undecorated with ⟨c, hc, h⟩ | h
        · exact (partsHave_paramDecorators hp hc h).tail.left
        · refine (partsHave_paramScope (mem_append_left _ ?_) h).right
          exact mem_map_of_mem (mem_map_of_mem hp)
    · exact (partsHave_paramScope (mem_append_right _ hc) h).right
  | _ => exact .seeing h hc

theorem partsHave_stmtScope {s : Stmt} (hc : c ∈ (Node.stmt s).kept) (h : Below t c) :
    PartsHave t ((Node.stmt s).scopes env) := by
  cases s with
  | block ss => exact .seeing h hc
  | forLoop i test update s =>
    replace hc := Node.mem_children_of_mem_kept hc
    rw [Node.children, Node.ofStmt, append_assoc, append_assoc, mem_append] at hc
    rcases hc with hc | hc
    · exact (partsHave_loopStart hc h).left
    · exact (PartsHave.seeing h (by rwa [append_assoc])).right
  | forIn head p d s =>
    rcases mem_cons.1 hc with rfl | hc
    · exact (head.partsHave_unfold h).left
    · exact (PartsHave.seeing h hc).right
  | forOf head p d s isAwait =>
    rcases mem_cons.1 hc with rfl | hc
    · exact (head.partsHave_unfold h).left
    · exact (PartsHave.seeing h hc).right
  | tryCatch ss p handler final =>
    rcases mem_append.1 hc with hc | hc
    · exact (PartsHave.seeing h hc).left.left.left
    · simp only [mem_cons, not_mem_nil, or_false] at hc
      rcases hc with rfl | rfl | rfl
      · exact (Node.partsHave_unfold h rfl).right.left.left
      · exact (partsHave_bodyScope h).right.left
      · exact (partsHave_bodyScope h).right
  | switch d cs =>
    rcases mem_cons.1 hc with rfl | hc
    · exact .head h
    · obtain ⟨⟨t, ss⟩, hcase, rfl⟩ := mem_map.1 hc
      exact (partsHave_unfoldAll (f := Case.unfold) hcase fun env => .head h).tail
  | _ => exact (PartsHave.seeing h hc : PartsHave t (seeing env _))

theorem Node.partsHave_scopes (hc : c ∈ n.kept) (h : Below t c) : PartsHave t (n.scopes env) := by
  cases n with
  | expr e =>
    cases e with
    | func name f => exact partsHave_funcScope hc h
    | arrow ps b a => exact partsHave_paramScope hc h
    | tagName id =>
      by_cases hplain : isPlainTag id
      · rw [kept, if_pos hplain] at hc
        cases hc
      · rw [kept, if_neg hplain] at hc
        rw [scopes, if_neg hplain]
        exact .seeing h hc
    | cls name cls => exact partsHave_classScope hc h
    | _ => exact .seeing h hc
  | func f =>
    obtain ⟨ds, ps, b, a, g⟩ := f
    rcases mem_append.1 hc with hc | hc
    · rcases mem_append.1 hc with hc | hc
      · exact (partsHave_paramScope (mem_append_left _ hc) h).right
      · exact (PartsHave.seeing h hc).left
    · exact (partsHave_paramScope (mem_append_right _ hc) h).right
  | prop p =>
    cases p with
    | getter k b =>
      rcases mem_cons.1 hc with rfl | hc
      · exact .head h
      · rw [mem_singleton.1 hc] at h
        exact (partsHave_bodyScope h).tail
    | setter k p b =>
      simp only [kept, children, ofProperty, mem_cons, not_mem_nil, or_false] at hc
      rcases hc with rfl | rfl | rfl
      · exact (PartsHave.head h).left
      · exact (partsHave_unfold h rfl).tail.left
      · exact (partsHave_bodyScope h).right
    | _ => exact .seeing h hc
  | member m => exact partsHave_memberScope hc h
  | stmt s => exact partsHave_stmtScope hc h
  | decl d =>
    cases d with
    | enum id ms declared =>
      rcases mem_cons.1 hc with rfl | hc
      · exact .head h
      · exact (PartsHave.seeing h hc).tail
    | region id items =>
      rcases mem_append.1 hc with hc | hc
      · exact (PartsHave.seeing h hc).left
      · exact (PartsHave.seeing h hc).right
    | _ => exact .seeing h hc
  | _ => exact .seeing h hc

/-- **What is reached stands somewhere below the node.** -/
theorem Below.exists_sees (h : Below t n) (env : Env) : ∃ there, Sees env n there t := by
  induction hsize : sizeOf n using Nat.strongRecOn generalizing n env with
  | ind size ih =>
    cases h with
    | here => exact ⟨env, .here⟩
    | inside hc h =>
      obtain ⟨⟨inner, part⟩, hpart, hbelow⟩ : PartsHave t (n.scopes env) :=
        Node.partsHave_scopes hc h
      have hlt : sizeOf part < sizeOf n := Node.sizeOf_lt_of_mem_scopes hpart
      obtain ⟨there, hsees⟩ := ih (sizeOf part) (hsize ▸ hlt) hbelow inner rfl
      exact ⟨there, .inside hpart hsees⟩

/-! ### Expressions -/

/-- The expression is part of the node, or the node itself. -/
def Node.Has (e : Expr) (n : Node) : Prop := .expr e ∈ n.preorder fun _ => true

theorem Node.not_has_ident {id : Ident} : ¬ (Node.ident id).Has e := by
  intro h
  rcases mem_preorder h with heq | ⟨c, hc, -⟩
  · cases heq
  · cases hc

/-- No expression is lost with the labels. -/
theorem Node.Has.below (h : n.Has e) : Below (.expr e) n := by
  induction hsize : sizeOf n using Nat.strongRecOn generalizing n with
  | ind size ih =>
    rcases mem_preorder h with rfl | ⟨c, hc, h⟩
    · exact .here rfl
    · rcases mem_kept_of_mem_children hc with hkept | ⟨id, rfl⟩
      · exact .inside hkept (ih (sizeOf c) (hsize ▸ sizeOf_lt_of_mem_children hc) h rfl)
      · exact absurd h not_has_ident

/-- **Every expression of a node stands somewhere below it.** -/
theorem Node.Has.exists_sees (h : n.Has e) (env : Env) : ∃ there, Sees env n there (.expr e) :=
  h.below.exists_sees env

end Script
end AtomicStyles
