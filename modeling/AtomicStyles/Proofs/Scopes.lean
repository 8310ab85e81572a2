import AtomicStyles.Script.Scope

/-!
# Environments inside a node

The parts of a node see the scopes that the node sees, and on the way to them scopes are
opened and names are declared. All these names are identifiers of the node. So a condition
on environments that is kept whenever names of some kind are declared holds everywhere
inside a node all of whose identifiers are of that kind.

## Main definitions

* `Sees` — the environment in which a node stands somewhere below another.
* `Node.All` — a condition on every identifier of a node.
* `Env.Kept` — a condition that declaring names of some kind keeps.
* `Env.Declares` — a scope inside the module declares the name.

## Main results

* `Node.keeps_scopes` — the parts of a node see environments with the condition.
* `Sees.kept` — and so does everything below it.
* `Sees.declares` — scopes only grow on the way into a node.
-/

namespace AtomicStyles
namespace Script

open List

/-! ### Nodes below a node -/

/-- `Sees env n there c`: below the node `n`, which stands in `env`, the node `c` stands in
`there`. -/
inductive Sees : Env → Node → Env → Node → Prop where
  | here {env : Env} {n : Node} : Sees env n env n
  | inside {env inner there : Env} {n part c : Node} :
      (inner, part) ∈ n.scopes env → Sees inner part there c → Sees env n there c

theorem Sees.trans {env env' there : Env} {n n' c : Node} (h : Sees env n env' n')
    (h' : Sees env' n' there c) : Sees env n there c := by
  induction h with
  | here => exact h'
  | inside hpart _ ih => exact .inside hpart (ih h')

/-! ### The identifiers of a node -/

/-- The condition holds of every identifier of the node. -/
def Node.All (A : Ident → Prop) (n : Node) : Prop :=
  ∀ id, .ident id ∈ n.preorder (fun _ => true) → A id

variable {A : Ident → Prop}

namespace Node

variable {n c : Node} {enter : Node → Bool}

theorem mem_preorder (h : c ∈ n.preorder enter) :
    c = n ∨ ∃ d ∈ n.children, c ∈ d.preorder enter := by
  rw [preorder_eq] at h
  rcases mem_cons.1 h with h | h
  · exact .inl h
  · split at h
    · exact .inr (mem_flatMap.1 h)
    · cases h

theorem mem_preorder_of_child {d : Node} (hd : d ∈ n.children) (h : c ∈ d.preorder fun _ => true) :
    c ∈ n.preorder fun _ => true := by
  rw [preorder_eq]
  exact .tail _ (mem_flatMap.2 ⟨d, hd, h⟩)

theorem mem_preorder_all (h : c ∈ n.preorder enter) : c ∈ n.preorder fun _ => true := by
  induction hsize : sizeOf n using Nat.strongRecOn generalizing n with
  | ind size ih =>
    rcases mem_preorder h with rfl | ⟨d, hd, hc⟩
    · rw [preorder_eq]
      exact .head _
    · have hlt := sizeOf_lt_of_mem_children hd
      exact mem_preorder_of_child hd (ih (sizeOf d) (hsize ▸ hlt) hc rfl)

theorem All.child (h : n.All A) (hc : c ∈ n.children) : c.All A :=
  fun id hid => h id (mem_preorder_of_child hc hid)

theorem All.of_children (hn : ∀ id, n ≠ .ident id) (h : ∀ c ∈ n.children, c.All A) : n.All A := by
  intro id hid
  rcases mem_preorder hid with heq | ⟨c, hc, hid⟩
  · exact absurd heq.symm (hn id)
  · exact h c hc id hid

@[simp] theorem all_ident {id : Ident} : (Node.ident id).All A ↔ A id := by
  constructor
  · intro h
    refine h id ?_
    rw [preorder_eq]
    exact .head _
  · intro h id' hid
    rcases mem_preorder hid with heq | ⟨c, hc, -⟩
    · cases heq
      exact h
    · cases hc

/-- What holds of the identifiers of a node holds of those of the nodes below it. -/
theorem All.of_mem_preorder (h : n.All A) (hc : c ∈ n.preorder enter) : c.All A := by
  induction hsize : sizeOf n using Nat.strongRecOn generalizing n with
  | ind size ih =>
    rcases mem_preorder hc with rfl | ⟨d, hd, hc⟩
    · exact h
    · have hlt := sizeOf_lt_of_mem_children hd
      exact ih (sizeOf d) (hsize ▸ hlt) (h.child hd) hc rfl

theorem all_ident? {id : Option Ident} (h : ∀ c ∈ ident? id, c.All A) : ∀ i ∈ id.toList, A i :=
  fun _ hi => all_ident.1 (h _ (mem_map_of_mem hi))

theorem all_func {ds : List Expr} {ps : List Pat} {b : Body} {a g : Bool} :
    (Node.func (.mk ds ps b a g)).All A ↔
      (∀ c ∈ exprs ds, c.All A) ∧ (∀ p ∈ ps, (Node.pat p).All A) ∧ (Node.body b).All A := by
  constructor
  · intro h
    refine ⟨fun c hc => h.child ?_, fun p hp => h.child ?_, h.child ?_⟩
    · exact mem_append_left _ (mem_append_right _ hc)
    · exact mem_append_left _ (mem_append_left _ (mem_map_of_mem hp))
    · exact mem_append_right _ (.head _)
  · rintro ⟨hds, hps, hb⟩
    refine .of_children (fun _ => nofun) fun c hc => ?_
    rcases mem_append.1 hc with hc | hc
    · rcases mem_append.1 hc with hc | hc
      · exact forall_mem_map.2 hps c hc
      · exact hds c hc
    · rw [mem_singleton.1 hc]
      exact hb

theorem All.cls_none {ds : List Expr} {ms : List Member} {base : Option Expr} {is : List Expr}
    (h : (Node.cls (.mk ds ms base is)).All A) : (Node.cls (.mk ds ms none is)).All A := by
  refine .of_children (fun _ => nofun) fun c hc => h.child ?_
  simp only [children, expr?, Option.toList_none, map_nil, append_nil, mem_append] at hc ⊢
  rcases hc with hc | hc
  · exact .inl (.inl hc)
  · exact .inr hc

theorem All.decorators {p : Pat} (h : (Node.pat p).All A) : ∀ c ∈ exprs p.decorators, c.All A := by
  intro c hc
  cases p with
  | decorated ds p => exact h.child (mem_append_left _ hc)
  | _ => cases hc

theorem All.undecorated {p : Pat} (h : (Node.pat p).All A) : (Node.pat p.undecorated).All A := by
  cases p with
  | decorated ds p => exact h.child (mem_append_right _ (.head _))
  | _ => exact h

end Node

/-! ### Names that nodes declare -/

mutual

theorem Pat.all_names : ∀ {p : Pat}, (Node.pat p).All A → ∀ id ∈ p.names, A id
  | .ident _, h, id, hid => by
    rw [mem_singleton.1 hid]
    exact Node.all_ident.1 (h.child (.head _))
  | .array items, h, id, hid =>
    Pat.all_namesList (fun p hp => h.child (mem_map_of_mem hp)) id hid
  | .hole, h, id, hid => by cases hid
  | .rest p, h, id, hid => Pat.all_names (h.child (.head _)) id hid
  | .object props, h, id, hid =>
    Pat.all_namesProps (fun p hp => h.child (mem_map_of_mem hp)) id hid
  | .withDefault p e, h, id, hid => Pat.all_names (h.child (.head _)) id hid
  | .expr e, h, id, hid => by cases hid
  | .decorated ds p, h, id, hid =>
    Pat.all_names (h.child (mem_append_right _ (.head _))) id hid

theorem Pat.all_namesList :
    ∀ {ps : List Pat}, (∀ p ∈ ps, (Node.pat p).All A) → ∀ id ∈ Pat.namesList ps, A id
  | [], h, id, hid => by cases hid
  | p :: ps, h, id, hid => by
    rcases mem_append.1 hid with hid | hid
    · exact Pat.all_names (h p (.head _)) id hid
    · exact Pat.all_namesList (fun q hq => h q (.tail _ hq)) id hid

theorem Pat.all_namesProps :
    ∀ {ps : List PatProperty}, (∀ p ∈ ps, (Node.patProp p).All A) → ∀ id ∈ Pat.namesProps ps, A id
  | [], h, id, hid => by cases hid
  | .keyValue k p :: ps, h, id, hid => by
    rcases mem_append.1 hid with hid | hid
    · have hp := (h _ (.head _)).child (.tail _ (.head _))
      exact Pat.all_names hp id hid
    · exact Pat.all_namesProps (fun q hq => h q (.tail _ hq)) id hid
  | .shorthand i e :: ps, h, id, hid => by
    rcases mem_cons.1 hid with rfl | hid
    · exact Node.all_ident.1 ((h _ (.head _)).child (.head _))
    · exact Pat.all_namesProps (fun q hq => h q (.tail _ hq)) id hid
  | .rest p :: ps, h, id, hid => by
    rcases mem_append.1 hid with hid | hid
    · exact Pat.all_names ((h _ (.head _)).child (.head _)) id hid
    · exact Pat.all_namesProps (fun q hq => h q (.tail _ hq)) id hid

end

theorem Declarator.all_names {ds : List Declarator} (h : ∀ d ∈ ds, (Node.declarator d).All A) :
    ∀ id ∈ Declarator.names ds, A id := by
  intro id hid
  obtain ⟨⟨p, e⟩, hd, hid⟩ := mem_flatMap.1 hid
  exact Pat.all_names ((h _ hd).child (.head _)) id hid

theorem Decl.all_names : ∀ {d : Decl}, (Node.decl d).All A → ∀ id ∈ d.names, A id
  | .var _ _ _, h, id, hid =>
    Declarator.all_names (fun _ hd => h.child (mem_map_of_mem hd)) id hid
  | .using _, h, id, hid =>
    Declarator.all_names (fun _ hd => h.child (mem_map_of_mem hd)) id hid
  | .func _ _ _, h, id, hid => by
    rw [mem_singleton.1 hid]
    exact Node.all_ident.1 (h.child (.head _))
  | .cls _ _ _, h, id, hid => by
    rw [mem_singleton.1 hid]
    exact Node.all_ident.1 (h.child (.head _))
  | .enum _ _ _, h, id, hid => by
    rw [mem_singleton.1 hid]
    exact Node.all_ident.1 (h.child (.head _))
  | .interface _, _, _, hid => by cases hid
  | .alias _, _, _, hid => by cases hid
  | .region _ _, h, id, hid =>
    Node.all_ident? (fun _ hc => h.child (mem_append_left _ hc)) id hid

theorem Decl.all_blockNames {d : Decl} (h : (Node.decl d).All A) : ∀ id ∈ d.blockNames, A id := by
  intro id hid
  unfold Decl.blockNames at hid
  split at hid
  · cases hid
  · cases hid
  · exact Decl.all_names h id hid

/-- The declarations of a statement outside blocks are parts of it. -/
theorem Stmt.all_decls {s : Stmt} (h : (Node.stmt s).All A) : ∀ d ∈ s.decls, (Node.decl d).All A := by
  intro d hd
  fun_induction Stmt.decls s with
  | case1 e =>
    rw [mem_singleton.1 hd]
    exact h.child (.head _)
  | case2 e s ih => exact ih (h.child (.tail _ (.head _))) hd
  | case3 e s t ihs iht =>
    rcases mem_append.1 hd with hd | hd
    · exact ihs (h.child (.tail _ (.head _))) hd
    · refine iht (h.child ?_) hd
      exact .tail _ (.tail _ (.head _))
  | case4 e s ih => exact ih (h.child (.tail _ (.head _))) hd
  | case5 s e ih => exact ih (h.child (.tail _ (.head _))) hd
  | case6 i t u s ih => exact ih (h.child (mem_append_right _ (.head _))) hd
  | case7 head p e s ih =>
    refine ih (h.child ?_) hd
    exact .tail _ (.tail _ (.head _))
  | case8 head p e s a ih =>
    refine ih (h.child ?_) hd
    exact .tail _ (.tail _ (.head _))
  | case9 l s ih => exact ih (h.child (.tail _ (.head _))) hd
  | case10 => cases hd

theorem all_lexicalNames {ss : List Stmt} (h : ∀ s ∈ ss, (Node.stmt s).All A) :
    ∀ id ∈ lexicalNames ss, A id := by
  intro id hid
  obtain ⟨s, hs, hid⟩ := mem_flatMap.1 hid
  obtain ⟨d, hd, hid⟩ := mem_flatMap.1 hid
  exact Decl.all_blockNames (Stmt.all_decls (h s hs) d hd) id hid

theorem Node.all_varNames {n : Node} (h : n.All A) : ∀ id ∈ n.varNames, A id := by
  intro id hid
  unfold Node.varNames at hid
  split at hid
  · exact Declarator.all_names (fun d hd => h.child (mem_map_of_mem hd)) id hid
  · exact Pat.all_names (h.child (.head _)) id hid
  · exact Pat.all_names (h.child (.head _)) id hid
  · cases hid

theorem all_hoistedNames {ns : List Node} (h : ∀ n ∈ ns, n.All A) : ∀ id ∈ hoistedNames ns, A id := by
  intro id hid
  obtain ⟨c, hc, hid⟩ := mem_flatMap.1 hid
  obtain ⟨n, hn, hc⟩ := mem_flatMap.1 hc
  exact Node.all_varNames ((h n hn).of_mem_preorder hc) id hid

theorem all_codeNames {ss : List Stmt} (h : ∀ s ∈ ss, (Node.stmt s).All A) :
    ∀ id ∈ codeNames ss, A id := by
  intro id hid
  rcases mem_append.1 hid with hid | hid
  · exact all_lexicalNames h id hid
  · exact all_hoistedNames (forall_mem_map.2 h) id hid

theorem Item.all_names : ∀ {i : Item}, (Node.item i).All A → ∀ id ∈ i.names, A id
  | .stmt s, h, id, hid => by
    refine all_lexicalNames (fun t ht => ?_) id hid
    rw [mem_singleton.1 ht]
    exact h.child (.head _)
  | .exportDecl d, h, id, hid => by
    refine all_lexicalNames (fun t ht => ?_) id hid
    rw [mem_singleton.1 ht]
    refine .of_children (fun _ => nofun) fun c hc => h.child ?_
    exact hc
  | .imports _ _ _, h, id, hid => by
    obtain ⟨s, hs, rfl⟩ := mem_map.1 hid
    refine Node.all_ident.1 (h.child (mem_flatMap.2 ⟨s, hs, ?_⟩))
    cases s <;> exact .head _
  | .exportDefaultFunc _ _, h, id, hid =>
    Node.all_ident? (fun _ hc => h.child (mem_append_left _ hc)) id hid
  | .exportDefaultClass _ _, h, id, hid =>
    Node.all_ident? (fun _ hc => h.child (mem_append_left _ hc)) id hid
  | .importEquals _ _, h, id, hid => by
    rw [mem_singleton.1 hid]
    exact Node.all_ident.1 (h.child (.head _))
  | .exports _ _ _, _, _, hid => by cases hid
  | .exportDefaultInterface _, _, _, hid => by cases hid
  | .exportDefaultExpr _, _, _, hid => by cases hid
  | .exportAll _ _, _, _, hid => by cases hid
  | .exportAssignment _, _, _, hid => by cases hid
  | .namespaceExport _, _, _, hid => by cases hid

theorem all_itemNames {items : List Item} (h : ∀ i ∈ items, (Node.item i).All A) :
    ∀ id ∈ itemNames items, A id := by
  intro id hid
  rcases mem_append.1 hid with hid | hid
  · obtain ⟨i, hi, hid⟩ := mem_flatMap.1 hid
    exact Item.all_names (h i hi) id hid
  · exact all_hoistedNames (forall_mem_map.2 h) id hid

theorem EnumMember.all_names {ms : List EnumMember} (h : ∀ m ∈ ms, (Node.enumMember m).All A) :
    ∀ id ∈ EnumMember.names ms, A id := by
  intro id hid
  obtain ⟨m, hm, heq⟩ := mem_filterMap.1 hid
  cases m with
  | named i e =>
    cases heq
    exact Node.all_ident.1 ((h _ hm).child (.head _))
  | quoted t e => cases heq

/-! ### Conditions that scopes keep -/

/-- A condition on environments that is kept when names of some kind are declared. -/
structure Env.Kept (P : Env → Prop) (A : Ident → Prop) : Prop where
  push : ∀ {env ids}, P env → (∀ id ∈ ids, A id) → P (env.push ids)
  declare : ∀ {env ids}, P env → (∀ id ∈ ids, A id) → P (env.declare ids)

/-- All parts see an environment with the condition, and their identifiers are of the kind. -/
def Keeps (P : Env → Prop) (A : Ident → Prop) (parts : List (Env × Node)) : Prop :=
  ∀ part ∈ parts, P part.1 ∧ part.2.All A

/-- All environments of an unfolding have the condition, and its identifiers are of the kind. -/
structure Unfolding.Keeps (P : Env → Prop) (A : Ident → Prop) (u : Unfolding) : Prop where
  after : P u.1
  parts : Script.Keeps P A u.2

variable {P : Env → Prop} {env : Env}

namespace Keeps

variable {parts parts' : List (Env × Node)}

theorem nil : Keeps P A [] := fun _ hpart => by cases hpart

theorem cons {n : Node} (h : P env) (hn : n.All A) (hparts : Keeps P A parts) :
    Keeps P A ((env, n) :: parts) := by
  intro part hpart
  rcases mem_cons.1 hpart with rfl | hpart
  · exact ⟨h, hn⟩
  · exact hparts part hpart

theorem append (h : Keeps P A parts) (h' : Keeps P A parts') : Keeps P A (parts ++ parts') :=
  fun part hpart => (mem_append.1 hpart).elim (h part) (h' part)

theorem seeing {ns : List Node} (h : P env) (hns : ∀ n ∈ ns, n.All A) :
    Keeps P A (Script.seeing env ns) := by
  intro part hpart
  obtain ⟨n, hn, rfl⟩ := mem_map.1 hpart
  exact ⟨h, hns n hn⟩

end Keeps

namespace Unfolding.Keeps

variable {u v : Unfolding}

theorem append (hu : u.Keeps P A) (hv : v.Keeps P A) : Unfolding.Keeps P A (v.1, u.2 ++ v.2) :=
  ⟨hv.after, hu.parts.append hv.parts⟩

theorem seeing {ns : List Node} (h : P env) (hns : ∀ n ∈ ns, n.All A) :
    Unfolding.Keeps P A (env, Script.seeing env ns) :=
  ⟨h, .seeing h hns⟩

theorem nil (h : P env) : Unfolding.Keeps P A (env, []) := ⟨h, .nil⟩

end Unfolding.Keeps

theorem keeps_unfoldAll {α : Type} {f : Env → α → Unfolding} {as : List α}
    (hf : ∀ a ∈ as, ∀ env, P env → (f env a).Keeps P A) {env : Env} (h : P env) :
    (unfoldAll f env as).Keeps P A := by
  induction as generalizing env with
  | nil => exact .nil h
  | cons a as ih =>
    have ha := hf a (.head _) env h
    exact ha.append (ih (fun b hb => hf b (.tail _ hb)) ha.after)

theorem keeps_paramDecorators {ps : List Pat} (h : P env) (hps : ∀ p ∈ ps, (Node.pat p).All A) :
    Keeps P A (paramDecorators env ps) := by
  refine .seeing h fun c hc => ?_
  obtain ⟨e, he, rfl⟩ := mem_map.1 hc
  obtain ⟨p, hp, he⟩ := mem_flatMap.1 he
  exact (hps p hp).decorators _ (mem_map_of_mem he)

section Kept

variable (K : Env.Kept P A)
include K

/-- The names of a pattern are declared one by one. -/
theorem Node.keeps_unfold {n : Node} (h : P env) (hn : n.All A) : (n.unfold env).Keeps P A := by
  refine keeps_unfoldAll (fun c hc env h => ?_) h
  have hleaf : c.All A := hn.of_mem_preorder (mem_filter.1 hc).1
  unfold Node.unfoldLeaf
  split
  · next id =>
    have hdeclared : P (env.declare [id]) :=
      K.declare h (forall_mem_singleton.2 (Node.all_ident.1 hleaf))
    exact ⟨hdeclared, .cons hdeclared hleaf .nil⟩
  · exact ⟨h, .cons h hleaf .nil⟩

/-- Opening a scope without names. -/
theorem Env.Kept.push_nil (h : P env) : P (env.push []) := K.push h fun _ hid => by cases hid

theorem keeps_loopStart {i : Option Stmt} (h : P env) (hi : ∀ s ∈ Node.stmt? i, s.All A) :
    (loopStart env i).Keeps P A := by
  have hdeclarators : ∀ {d : Decl} {ds : List Declarator}, i = some (.decl d) →
      (Node.decl d).children = ds.map .declarator →
      (unfoldAll Node.unfold (env.push []) (ds.map .declarator)).Keeps P A := by
    rintro d ds rfl hchildren
    have hd : (Node.decl d).All A := (hi _ (.head _)).child (.head _)
    refine keeps_unfoldAll (fun a ha env h => Node.keeps_unfold K h ?_) (K.push_nil h)
    exact hd.child (hchildren ▸ ha)
  unfold loopStart
  split
  · exact hdeclarators rfl rfl
  · exact hdeclarators rfl rfl
  · exact hdeclarators rfl rfl
  · exact .seeing h hi

theorem ForHead.keeps_unfold (head : ForHead) {p : Pat} (h : P env) (hp : (Node.pat p).All A) :
    (head.unfold env p).Keeps P A := by
  unfold ForHead.unfold
  split
  · exact Node.keeps_unfold K (K.push_nil h) hp
  · exact ⟨h, .cons h hp .nil⟩

theorem Case.keeps_unfold {c : Case} (h : P env) (hc : (Node.case c).All A) :
    (c.unfold env).Keeps P A := by
  obtain ⟨t, ss⟩ := c
  have hdeclared : P (env.declare (lexicalNames ss)) :=
    K.declare h (all_lexicalNames fun s hs => hc.child (mem_append_right _ (mem_map_of_mem hs)))
  exact ⟨hdeclared, .cons hdeclared hc .nil⟩

theorem keeps_blockScope {ss : List Stmt} (h : P env) (hss : ∀ s ∈ ss, (Node.stmt s).All A) :
    Keeps P A (blockScope lexicalNames env ss) :=
  .seeing (K.push h (all_lexicalNames hss)) (forall_mem_map.2 hss)

theorem keeps_codeScope {ss : List Stmt} (h : P env) (hss : ∀ s ∈ ss, (Node.stmt s).All A) :
    Keeps P A (blockScope codeNames env ss) :=
  .seeing (K.push h (all_codeNames hss)) (forall_mem_map.2 hss)

variable {b : Body}

omit K in
theorem keeps_bodyScope {names : List Stmt → List Ident} (h : P env) (hb : (Node.body b).All A)
    (hblock : ∀ ss : List Stmt, (∀ s ∈ ss, (Node.stmt s).All A) → Keeps P A (blockScope names env ss)) :
    Keeps P A (bodyScope names env b) := by
  cases b with
  | absent => exact .nil
  | block ss => exact hblock ss fun s hs => hb.child (mem_map_of_mem hs)
  | value e => exact .cons h (hb.child (.head _)) .nil

theorem keeps_code (h : P env) (hb : (Node.body b).All A) :
    Keeps P A (bodyScope codeNames env b) :=
  keeps_bodyScope h hb fun _ => keeps_codeScope K h

theorem keeps_clause (h : P env) (hb : (Node.body b).All A) :
    Keeps P A (bodyScope lexicalNames env b) :=
  keeps_bodyScope h hb fun _ => keeps_blockScope K h

theorem keeps_paramScope {ps : List Pat} (h : P env) (hps : ∀ p ∈ ps, (Node.pat p).All A)
    (hb : (Node.body b).All A) : Keeps P A (paramScope env ps b) := by
  have hbefore : P (env.push (Pat.namesList (ps.filter fun p => !p.isRest))) :=
    K.push h (Pat.all_namesList fun p hp => hps p (mem_filter.1 hp).1)
  have hinside : P (env.push (Pat.namesList ps)) := K.push h (Pat.all_namesList hps)
  refine .append (fun part hpart => ?_) (keeps_code K hinside hb)
  obtain ⟨p, hp, rfl⟩ := mem_map.1 hpart
  refine ⟨?_, hps p hp⟩
  dsimp only
  split
  · exact hinside
  · exact hbefore

/-- A function with a name of its own. -/
theorem keeps_funcScope {name : Option Ident} {f : Func} (h : P env)
    (hn : (Node.expr (.func name f)).All A) : Keeps P A ((Node.expr (.func name f)).scopes env) := by
  obtain ⟨ds, ps, b, a, g⟩ := f
  have hname : ∀ c ∈ Node.ident? name, c.All A := fun c hc => hn.child (mem_append_left _ hc)
  have hfunc := Node.all_func.1 (hn.child (mem_append_right _ (.head _)))
  refine .append (.seeing h hfunc.1) (.seeing (K.push h (Node.all_ident? hname)) ?_)
  refine forall_mem_append.2 ⟨hname, forall_mem_singleton.2 ?_⟩
  exact Node.all_func.2 ⟨fun c hc => (by cases hc), hfunc.2⟩

/-- A class with a name of its own. -/
theorem keeps_classScope {name : Option Ident} {c : Class} (h : P env)
    (hn : (Node.expr (.cls name c)).All A) : Keeps P A ((Node.expr (.cls name c)).scopes env) := by
  obtain ⟨ds, ms, base, is⟩ := c
  have hname : ∀ c ∈ Node.ident? name, c.All A := fun c hc => hn.child (mem_append_left _ hc)
  have hcls : (Node.cls (.mk ds ms base is)).All A := hn.child (mem_append_right _ (.head _))
  have hbase : ∀ c ∈ Node.expr? base, c.All A := fun c hc =>
    hcls.child (mem_append_left _ (mem_append_right _ hc))
  refine .append (.seeing h hbase) (.seeing (K.push h (Node.all_ident? hname)) ?_)
  exact forall_mem_append.2 ⟨hname, forall_mem_singleton.2 hcls.cls_none⟩

/-- The decorators of a class member and of its parameters see what the member sees. -/
theorem keeps_memberScope {m : Member} (h : P env) (hn : (Node.member m).All A) :
    Keeps P A ((Node.member m).scopes env) := by
  cases m with
  | method k f =>
    have hfunc : (Node.func f).All A := hn.child (.tail _ (.head _))
    obtain ⟨ds, ps, b, a, g⟩ := f
    obtain ⟨hds, hps, hb⟩ := Node.all_func.1 hfunc
    have hbare : (Node.func (.mk ds (ps.map Pat.undecorated) b a g)).All A :=
      Node.all_func.2 ⟨hds, forall_mem_map.2 fun p hp => (hps p hp).undecorated, hb⟩
    cases k with
    | hidden => exact .cons h hfunc .nil
    | _ =>
      exact .append (.cons h (hn.child (.head _)) (keeps_paramDecorators h hps))
        (.cons h hbare .nil)
  | constructor k ps b =>
    have hps : ∀ p ∈ ps, (Node.pat p).All A := fun p hp =>
      hn.child (mem_append_left _ (.tail _ (mem_map_of_mem hp)))
    have hkey : (Node.key k).All A := hn.child (mem_append_left _ (.head _))
    refine .append (.cons h hkey (keeps_paramDecorators h hps)) (keeps_paramScope K h ?_ ?_)
    · exact forall_mem_map.2 fun p hp => (hps p hp).undecorated
    · exact hn.child (mem_append_right _ (.head _))
  | initializer ss => exact keeps_codeScope K h fun s hs => hn.child (mem_map_of_mem hs)
  | _ => exact .seeing h fun c hc => hn.child hc

theorem keeps_stmtScope {s : Stmt} (h : P env) (hn : (Node.stmt s).All A) :
    Keeps P A ((Node.stmt s).scopes env) := by
  cases s with
  | block ss => exact keeps_blockScope K h fun s hs => hn.child (mem_map_of_mem hs)
  | forLoop i t u s =>
    have hparts : ∀ c ∈ Node.stmt? i ++ Node.expr? t ++ Node.expr? u ++ [.stmt s], c.All A :=
      fun c hc => hn.child hc
    rw [append_assoc, append_assoc, forall_mem_append] at hparts
    have hi := keeps_loopStart K h hparts.1
    exact .append hi.parts (.seeing hi.after (by rw [append_assoc]; exact hparts.2))
  | forIn head p e s =>
    have hp := ForHead.keeps_unfold K head h (hn.child (c := .pat p) (.head _))
    exact .append hp.parts (.seeing hp.after fun c hc => hn.child (.tail _ hc))
  | forOf head p e s isAwait =>
    have hp := ForHead.keeps_unfold K head h (hn.child (c := .pat p) (.head _))
    exact .append hp.parts (.seeing hp.after fun c hc => hn.child (.tail _ hc))
  | tryCatch ss p handler final =>
    -- only the `catch` clause sees what is caught
    have hss : ∀ s ∈ ss, (Node.stmt s).All A := fun s hs =>
      hn.child (mem_append_left _ (mem_map_of_mem hs))
    have hclauses : ∀ c ∈ [Node.pat p, .body handler, .body final], c.All A := fun c hc =>
      hn.child (mem_append_right _ hc)
    simp only [forall_mem_cons] at hclauses
    obtain ⟨hpat, hhandler, hfinal, -⟩ := hclauses
    have hp := Node.keeps_unfold K (K.push_nil h) hpat
    exact .append (.append (.append (keeps_blockScope K h hss) hp.parts)
      (keeps_clause K hp.after hhandler)) (keeps_clause K h hfinal)
  | switch e cs =>
    have hcs : (unfoldAll Case.unfold (env.push []) cs).Keeps P A :=
      keeps_unfoldAll (fun c hc env h => Case.keeps_unfold K h
        (hn.child (.tail _ (mem_map_of_mem hc)))) (K.push_nil h)
    exact .cons h (hn.child (.head _)) hcs.parts
  | labeled l s => exact .cons h (hn.child (.tail _ (.head _))) .nil
  | breakTo l => exact .nil
  | continueTo l => exact .nil
  | _ => exact .seeing h fun c hc => hn.child hc

theorem Node.keeps_scopes {n : Node} (h : P env) (hn : n.All A) : Keeps P A (n.scopes env) := by
  have hplain : Keeps P A (seeing env n.children) := .seeing h fun c hc => hn.child hc
  cases n with
  | expr e =>
    cases e with
    | func name f => exact keeps_funcScope K h hn
    | arrow ps b a =>
      exact keeps_paramScope K h
        (fun p hp => hn.child (mem_append_left _ (mem_map_of_mem hp)))
        (hn.child (mem_append_right _ (.head _)))
    | tagName id =>
      show Keeps P A (if isPlainTag id then [] else [(env, .ident id)])
      split
      · exact .nil
      · exact hplain
    | cls name c => exact keeps_classScope K h hn
    | _ => exact hplain
  | func f =>
    obtain ⟨ds, ps, b, a, g⟩ := f
    obtain ⟨hds, hps, hb⟩ := Node.all_func.1 hn
    exact .append (.seeing h hds) (keeps_paramScope K h hps hb)
  | prop p =>
    cases p with
    | getter k b =>
      exact .cons h (hn.child (.head _)) (keeps_code K h (hn.child (.tail _ (.head _))))
    | setter k p b =>
      have hp := Node.keeps_unfold K (K.push_nil h) (n := .pat p) (hn.child (.tail _ (.head _)))
      refine .append (.cons h (hn.child (.head _)) hp.parts) (keeps_code K hp.after ?_)
      exact hn.child (.tail _ (.tail _ (.head _)))
    | _ => exact hplain
  | member m => exact keeps_memberScope K h hn
  | stmt s => exact keeps_stmtScope K h hn
  | decl d =>
    cases d with
    | enum id ms declared =>
      have hms : ∀ m ∈ ms, (Node.enumMember m).All A := fun m hm =>
        hn.child (.tail _ (mem_map_of_mem hm))
      exact .cons h (hn.child (.head _))
        (.seeing (K.push h (EnumMember.all_names hms)) (forall_mem_map.2 hms))
    | region id items =>
      have hitems : ∀ i ∈ items, (Node.item i).All A := fun i hi =>
        hn.child (mem_append_right _ (mem_map_of_mem hi))
      exact .append (.seeing h fun c hc => hn.child (mem_append_left _ hc))
        (.seeing (K.push h (all_itemNames hitems)) (forall_mem_map.2 hitems))
    | _ => exact hplain
  | _ => exact hplain

end Kept

/-- **Everything below a node sees an environment with the condition**, and has identifiers of the
kind. -/
theorem Sees.kept {there : Env} {n c : Node} (K : Env.Kept P A) (h : Sees env n there c)
    (henv : P env) (hn : n.All A) : P there ∧ c.All A := by
  induction h with
  | here => exact ⟨henv, hn⟩
  | inside hpart _ ih =>
    obtain ⟨hinner, hpart⟩ := Node.keeps_scopes K henv hn _ hpart
    exact ih hinner hpart

/-! ### Names that a scope declares -/

def Env.Declares (env : Env) (name : String) : Prop := ∃ names ∈ env.inner, name ∈ names

namespace Env

variable {name : String}

theorem Declares.push (h : env.Declares name) (ids : List Ident) :
    (env.push ids).Declares name := by
  obtain ⟨names, hmem, hname⟩ := h
  exact ⟨names, .tail _ hmem, hname⟩

theorem Declares.declare (h : env.Declares name) (ids : List Ident) :
    (env.declare ids).Declares name := by
  obtain ⟨names, hmem, hname⟩ := h
  unfold Env.declare
  split
  · next heq => rw [heq] at hmem; cases hmem
  · next scope scopes heq =>
    rw [heq] at hmem
    rcases mem_cons.1 hmem with rfl | hmem
    · exact ⟨_, .head _, mem_append_left _ hname⟩
    · exact ⟨names, .tail _ hmem, hname⟩

theorem Declares.binding (h : env.Declares name) : env.binding name = .inner := by
  obtain ⟨names, hmem, hname⟩ := h
  unfold Env.binding
  rw [if_pos]
  exact any_eq_true.2 ⟨names, hmem, contains_iff_mem.2 hname⟩

end Env

/-- A call in the code of a function stands where the parameter of the function is declared. -/
theorem exists_sees_call (env : Env) (f p : Ident) (callee arg : Expr) (span : Span) :
    ∃ there, Sees env (.item (.stmt (.decl (.func f (.mk [] [.ident p] (.block
        [.expr (.call callee [arg] span) span]) false false) false)))) there
        (.expr (.call callee [arg] span)) ∧ there.Declares p.name := by
  refine ⟨_, .inside (.head _) <| .inside (.head _) <| .inside (.tail _ (.head _)) <|
    .inside (.tail _ (.head _)) <| .inside (.head _) .here, ?_⟩
  exact ⟨[p.name], .tail _ (.head _), .head _⟩

theorem Sees.declares {there : Env} {n c : Node} {name : String} (h : Sees env n there c)
    (hname : env.Declares name) : there.Declares name := by
  have hkept : Env.Kept (·.Declares name) fun _ => True :=
    ⟨fun h _ => h.push _, fun h _ => h.declare _⟩
  exact (h.kept hkept hname fun _ _ => trivial).1

end Script
end AtomicStyles
