import Mathlib
import AtomicStyles.Eval.Statements

/-!
# Free names are reported

The analysis of `References` takes scopes coarsely. Here code is walked a second time,
with the scopes that evaluation makes: one for the parameters and the code of a function,
one for each block, handler and loop, and one in which the members of an enumeration come to be
one after the other. A name that stands free of these scopes is among the references of the code,
except in two places that the coarse scopes hide: under a function or an enumeration that declares
the name anywhere else, and in the parameter of a handler.

## Main definitions

* `Spot` — a place of code with the scopes that evaluation makes around it.
* `Node.sites` — the parts of a node with their spots.
* `Occurs` — an identifier that stands somewhere in a node.
* `Code` — a piece of code whose references are asked for.

## Main results

* `Code.Shows.mem_names` — a free name that is not hidden is reported.
* `Code.Shows.mem_eager` — and it is eager outside functions.
-/

namespace AtomicStyles
namespace Script

open List

/-! ### Scopes that evaluation makes -/

/-- The names that a declaration makes known from the start of its block. -/
def Decl.hoisted : Decl → List Ident
  | .func id _ false => [id]
  | .var .var _ _ => []
  | .var _ ds false => Declarator.names ds
  | .cls id _ false => [id]
  | .enum id _ false => [id]
  | _ => []

/-- The names in the scope of a block. -/
def blockNames (ss : List Stmt) : List String :=
  ss.flatMap fun
    | .decl d => Ident.texts d.hoisted
    | _ => []

/-- The names that the code of a function adds to the function's scope. -/
def Body.scopeNames : Body → List String
  | .block ss => Ident.texts (Stmt.varNamesList ss) ++ blockNames ss
  | _ => []

/-- The names in the scope of a clause of a statement. -/
def Body.blockNames : Body → List String
  | .block ss => Script.blockNames ss
  | _ => []

/-- The names in the scope of a `for` loop. -/
def loopNames : Option Stmt → List String
  | some (.decl (.var .lexical ds _)) => Ident.texts (Declarator.names ds)
  | some (.decl (.var .const ds _)) => Ident.texts (Declarator.names ds)
  | _ => []

/-- The names that the left side of a loop over items binds in each turn. -/
def ForHead.turnNames (head : ForHead) (p : Pat) : List String :=
  if head.isOwn then Ident.texts p.names else []

/-- A place of code as evaluation comes to it. -/
structure Spot where
  /-- The names that the scopes around declare, nearest scope first. -/
  scopes : List (List String) := []
  /-- The names that the functions and enumerations around declare anywhere. -/
  coarse : List String := []
  isLazy : Bool := false
  /-- Whether the place is in the parameter of a handler. -/
  inParameter : Bool := false

namespace Spot

def scope (here : Spot) (names : List String) : Spot := { here with scopes := names :: here.scopes }

/-- The spot inside an enumeration that declares `names`. -/
def hide (here : Spot) (names : List String) : Spot := { here with coarse := names ++ here.coarse }

/-- The spot inside a function that declares `names`. -/
def enter (here : Spot) (names : List String) : Spot := { here.hide names with isLazy := true }

/-- No scope around declares the name. -/
def Free (here : Spot) (name : String) : Prop := ∀ names ∈ here.scopes, name ∉ names

/-- The coarse scopes do not let the name through. -/
def Hides (here : Spot) (name : String) : Prop :=
  name ∈ here.coarse ∨ here.inParameter = true

/-- The parameters of a function: each sees those up to itself. -/
def params (inside : Spot) : List String → List Pat → List (Spot × Node)
  | _, [] => []
  | before, p :: ps =>
    let names := before ++ Ident.texts p.names
    (inside.scope names, .pat p) :: params inside names ps

/-- The parameters and the code of a function. -/
def function (here : Spot) (ps : List Pat) (b : Body) : List (Spot × Node) :=
  let names := Ident.texts (Pat.namesList ps)
  let inside := here.enter (names ++ b.declared)
  inside.params [] ps ++ [(inside.scope (names ++ b.scopeNames), .body b)]

/-- The values of the members of an enumeration: each sees the members before it. -/
def members (inside : Spot) : List String → List EnumMember → List (Spot × Node)
  | _, [] => []
  | before, m :: ms =>
    (Node.expr? m.init).map (fun n => (inside.scope before, n)) ++
      members inside (before ++ [m.text]) ms

def block (here : Spot) (ss : List Stmt) : List (Spot × Node) :=
  (Node.stmts ss).map fun n => (here.scope (blockNames ss), n)

end Spot

/-- The parts of a node that evaluation can come to, each with its spot. -/
def Node.sites (here : Spot) : Node → List (Spot × Node)
  | .func (.mk _ ps b _ _) => here.function ps b
  | .expr (.arrow ps b _) => here.function ps b
  | .expr (.func name f) => [(here.scope (Ident.texts name.toList), .func f)]
  | .expr (.cls name c) => [(here.scope (Ident.texts name.toList), .cls c)]
  | .prop (.getter k b) => (here, .key k) :: here.function [] b
  | .prop (.setter k p b) => (here, .key k) :: here.function [p] b
  | .member (.constructor k ps b) => (here, .key k) :: here.function ps b
  | .member (.initializer ss) => here.block ss
  | .decl (.func _ f _) => [(here, .func f)]
  | .decl (.cls id c _) => [(here.scope [id.name], .cls c)]
  | .decl (.enum id ms _) =>
    (here.hide (id.name :: Ident.texts (EnumMember.names ms))).members [] ms
  | .decl (.interface _) => []
  | .decl (.alias _) => []
  | .decl (.region _ _) => []
  | .stmt (.block ss) => here.block ss
  | .stmt (.forLoop i t u s) =>
    (Node.stmt? i ++ Node.expr? t ++ Node.expr? u ++ [Node.stmt s]).map fun n =>
      (here.scope (loopNames i), n)
  | .stmt (.forIn head p e s) =>
    let inside := here.scope (head.turnNames p)
    [(inside, .pat p), (here, .expr e), (inside, .stmt s)]
  | .stmt (.forOf head p e s _) =>
    let inside := here.scope (head.turnNames p)
    [(inside, .pat p), (here, .expr e), (inside, .stmt s)]
  | .stmt (.tryCatch ss p h f) =>
    let caught := here.scope (Ident.texts p.names)
    here.block ss ++
      [({ caught with inParameter := true }, .pat p), (caught.scope h.blockNames, .body h),
        (here.scope f.blockNames, .body f)]
  | .stmt (.switch e cs) =>
    let inside := here.scope (cs.flatMap fun c => blockNames c.stmts)
    (here, .expr e) :: cs.flatMap fun c =>
      (Node.expr? c.test).map (fun n => (here, n)) ++
        (Node.stmts c.stmts).map fun n => (inside, n)
  | .stmt (.labeled _ s) => [(here, .stmt s)]
  | .stmt (.breakTo _) => []
  | .stmt (.continueTo _) => []
  | .item (.stmt s) => [(here, .stmt s)]
  | .item (.exportDecl d) => [(here, .decl d)]
  | .item (.exportDefaultFunc name f) => [(here.scope (Ident.texts name.toList), .func f)]
  | .item (.exportDefaultClass name c) => [(here.scope (Ident.texts name.toList), .cls c)]
  | .item (.exportDefaultExpr e) => [(here, .expr e)]
  | .item _ => []
  | n => n.children.map fun c => (here, c)

/-- `Occurs here n there id`: the identifier `id` stands in the node `n`, and when evaluation
comes to `n` at `here`, it comes to the identifier at `there`. -/
inductive Occurs : Spot → Node → Spot → Ident → Prop where
  | here {here : Spot} {id : Ident} : Occurs here (.ident id) here id
  | inside {here inner there : Spot} {n c : Node} {id : Ident} :
      (inner, c) ∈ n.sites here → Occurs inner c there id → Occurs here n there id

/-! ### The two walks side by side -/

/-- What is bound at a place of the coarse walk is bound or hidden at the spot, and the place is
lazy only if the spot is. -/
structure Spot.Covers (here : Spot) (place : Place) : Prop where
  bound : ∀ name ∈ place.bound, ¬ here.Free name ∨ name ∈ here.coarse
  isLazy : place.isLazy = true → here.isLazy = true

namespace Spot

variable {here : Spot} {place : Place} {names : List String}

theorem not_free_scope {name : String} (h : ¬ here.Free name ∨ name ∈ names) :
    ¬ (here.scope names).Free name := by
  intro free
  rcases h with h | h
  · exact h fun ns hns => free ns (.tail _ hns)
  · exact free names (.head _) h

theorem Covers.scope (h : here.Covers place) (names : List String) :
    (here.scope names).Covers place where
  bound name hname := (h.bound name hname).imp_left fun hb => not_free_scope (.inl hb)
  isLazy := h.isLazy

theorem Covers.bind (h : here.Covers place) {bound : List String}
    (hsub : ∀ name ∈ bound, name ∈ names) : (here.scope names).Covers (place.bind bound) where
  bound name hname := by
    rcases mem_append.1 hname with hname | hname
    · exact .inl (not_free_scope (.inr (hsub name hname)))
    · exact (h.scope names).bound name hname
  isLazy := h.isLazy

theorem Covers.hide (h : here.Covers place) (names : List String) :
    (here.hide names).Covers (place.bind names) where
  bound name hname := by
    rcases mem_append.1 hname with hname | hname
    · exact .inr (mem_append_left _ hname)
    · exact (h.bound name hname).imp_right (mem_append_right _)
  isLazy := h.isLazy

theorem Covers.enter (h : here.Covers place) (names : List String) :
    (here.enter names).Covers (place.enter names) where
  bound := (h.hide names).bound
  isLazy _ := rfl

/-- A function is lazy whether the coarse walk sees that it is one or not. -/
theorem Covers.enter_left (h : here.Covers place) (names : List String) :
    (here.enter names).Covers place where
  bound name hname := (h.bound name hname).imp_right (mem_append_right _)
  isLazy _ := rfl

/-- The spots of a function's parts, whatever the scope in them. -/
theorem mem_params {inside : Spot} {before : List String} {ps : List Pat} {site : Spot × Node}
    (h : site ∈ inside.params before ps) :
    (∃ names, site.1 = inside.scope names) ∧ site.2 ∈ Node.pats ps := by
  induction ps generalizing before with
  | nil => simp [params] at h
  | cons p ps ih =>
    rcases mem_cons.1 h with rfl | h
    · exact ⟨⟨_, rfl⟩, .head _⟩
    · exact ⟨(ih h).1, .tail _ (ih h).2⟩

theorem mem_function {ps : List Pat} {b : Body} {site : Spot × Node}
    (h : site ∈ here.function ps b) :
    (∃ names, site.1 =
      (here.enter (Ident.texts (Pat.namesList ps) ++ b.declared)).scope names) ∧
      site.2 ∈ Node.pats ps ++ [.body b] := by
  rcases mem_append.1 h with h | h
  · exact ⟨(mem_params h).1, mem_append_left _ (mem_params h).2⟩
  · rw [mem_singleton.1 h]
    exact ⟨⟨_, rfl⟩, mem_append_right _ (.head _)⟩

theorem mem_members {inside : Spot} {before : List String} {ms : List EnumMember}
    {site : Spot × Node} (h : site ∈ inside.members before ms) :
    (∃ names, site.1 = inside.scope names) ∧ ∃ m ∈ ms, site.2 ∈ Node.expr? m.init := by
  induction ms generalizing before with
  | nil => simp [members] at h
  | cons m ms ih =>
    rcases mem_append.1 h with h | h
    · obtain ⟨c, hc, rfl⟩ := mem_map.1 h
      exact ⟨⟨_, rfl⟩, m, .head _, hc⟩
    · obtain ⟨hspot, m', hm', hc⟩ := ih h
      exact ⟨hspot, m', .tail _ hm', hc⟩

end Spot

/-- The coarse walk comes to a part that evaluation comes to at a spot. -/
def Reaches (place : Place) (n : Node) (site : Spot × Node) : Prop :=
  ∃ inner : Place, site.1.Covers inner ∧ ∀ u ∈ site.2.uses [] inner, u ∈ n.uses [] place

theorem Reaches.of_mem_places {place inner : Place} {n : Node} {site : Spot × Node}
    (hc : site.1.Covers inner) (h : (inner, site.2) ∈ n.places place) : Reaches place n site :=
  ⟨inner, hc, fun _ hu => Node.mem_uses.2 (.inr ⟨_, h, hu⟩)⟩

section Step

variable {here : Spot} {place : Place} {site : Spot × Node} {n : Node}

/-- Parts that both walks take where they are. -/
theorem Reaches.of_children (h : here.Covers place) (hs : site ∈ n.sites here)
    (hsites : n.sites here = n.children.map fun c => (here, c))
    (hplaces : n.places place = n.children.map fun c => (place, c)) : Reaches place n site := by
  rw [hsites] at hs
  obtain ⟨c, hc, rfl⟩ := mem_map.1 hs
  exact .of_mem_places h (hplaces ▸ mem_map.2 ⟨c, hc, rfl⟩)

/-- Parts in a scope that the coarse walk does not make. -/
theorem Reaches.of_scope {names : List String} {c : Node} (h : here.Covers place)
    (hc : (place, c) ∈ n.places place) : Reaches place n (here.scope names, c) :=
  .of_mem_places (h.scope names) hc

/-- The parts of a function, where the coarse walk sees that it is one. -/
theorem Reaches.of_function {ps : List Pat} {b : Body} (h : here.Covers place)
    (hs : site ∈ here.function ps b)
    (hn : ∀ part ∈ place.function ps b, part ∈ n.places place) : Reaches place n site := by
  obtain ⟨⟨names, hspot⟩, hnode⟩ := Spot.mem_function hs
  refine .of_mem_places (hspot ▸ (h.enter _).scope names) (hn _ (mem_map.2 ⟨_, hnode, rfl⟩))

/-- What the coarse walk reaches from a part, it reaches from the node. -/
theorem Reaches.of_part {inner : Place} {c : Node} (hc : (inner, c) ∈ n.places place)
    (h : Reaches inner c site) : Reaches place n site := by
  obtain ⟨p, hcovers, huses⟩ := h
  exact ⟨p, hcovers, fun u hu => Node.mem_uses.2 (.inr ⟨_, hc, huses u hu⟩)⟩

/-- The parts of a loop over items. -/
theorem Reaches.of_loop {inside : List String} {p : Pat} {e : Expr} {s : Stmt}
    (h : here.Covers place)
    (hs : site ∈ [(here.scope inside, .pat p), (here, .expr e), (here.scope inside, .stmt s)])
    (hn : n.places place = [(place, .pat p), (place, .expr e), (place, .stmt s)]) :
    Reaches place n site := by
  simp only [mem_cons, not_mem_nil, or_false] at hs
  rcases hs with rfl | rfl | rfl
  · exact .of_scope h (by simp [hn])
  · exact .of_mem_places h (by simp [hn])
  · exact .of_scope h (by simp [hn])

/-- The statements of a block. -/
theorem Reaches.of_block {ss : List Stmt} (h : here.Covers place) (hs : site ∈ here.block ss)
    (hn : ∀ c ∈ Node.stmts ss, (place, c) ∈ n.places place) : Reaches place n site := by
  obtain ⟨c, hc, rfl⟩ := mem_map.1 hs
  exact .of_scope h (hn c hc)

theorem reaches_expr {e : Expr} (h : here.Covers place) (hs : site ∈ (Node.expr e).sites here) :
    Reaches place (.expr e) site := by
  cases e with
  | arrow ps b a => exact .of_function h hs fun _ hpart => hpart
  | func name f =>
    rw [mem_singleton.1 hs]
    exact .of_mem_places (h.bind fun _ hname => hname) (.head _)
  | cls name c =>
    rw [mem_singleton.1 hs]
    exact .of_scope h (by simp [Node.places, Node.children, Node.ofExpr])
  | _ => exact .of_children h hs rfl rfl

theorem reaches_prop {p : Property} (h : here.Covers place)
    (hs : site ∈ (Node.prop p).sites here) : Reaches place (.prop p) site := by
  cases p with
  | getter k b =>
    rcases mem_cons.1 hs with rfl | hs
    · exact .of_mem_places h (.head _)
    · exact .of_function h hs fun _ hpart => .tail _ hpart
  | setter k p b =>
    rcases mem_cons.1 hs with rfl | hs
    · exact .of_mem_places h (.head _)
    · exact .of_function h hs fun _ hpart => .tail _ hpart
  | _ => exact .of_children h hs rfl rfl

theorem reaches_member {m : Member} (h : here.Covers place)
    (hs : site ∈ (Node.member m).sites here) : Reaches place (.member m) site := by
  cases m with
  | constructor k ps b =>
    rcases mem_cons.1 hs with rfl | hs
    · exact .of_mem_places h (.head _)
    · -- The coarse walk takes a constructor for code that runs at once.
      obtain ⟨⟨names, hspot⟩, hnode⟩ := Spot.mem_function hs
      exact .of_mem_places (hspot ▸ (h.enter_left _).scope names)
        (mem_map.2 ⟨_, .tail _ hnode, rfl⟩)
  | initializer ss => exact .of_block h hs fun c hc => mem_map.2 ⟨c, hc, rfl⟩
  | _ => exact .of_children h hs rfl rfl

theorem reaches_decl {d : Decl} (h : here.Covers place) (hs : site ∈ (Node.decl d).sites here) :
    Reaches place (.decl d) site := by
  cases d with
  | func id f isDeclare =>
    rw [mem_singleton.1 hs]
    exact .of_mem_places h (.head _)
  | cls id c isDeclare =>
    rw [mem_singleton.1 hs]
    exact .of_mem_places (h.bind fun _ hname => hname) (.head _)
  | enum id ms isDeclare =>
    obtain ⟨⟨names, hspot⟩, m, hm, hc⟩ := Spot.mem_members hs
    exact .of_mem_places (hspot ▸ (h.hide _).scope names)
      (mem_flatMap.2 ⟨m, hm, mem_map.2 ⟨_, hc, rfl⟩⟩)
  | interface id => simp [Node.sites] at hs
  | «alias» id => simp [Node.sites] at hs
  | region id items => simp [Node.sites] at hs
  | _ => exact .of_children h hs rfl rfl

theorem reaches_stmt {s : Stmt} (h : here.Covers place) (hs : site ∈ (Node.stmt s).sites here)
    (hp : site.1.inParameter = false) : Reaches place (.stmt s) site := by
  cases s with
  | block ss => exact .of_block h hs fun c hc => mem_map.2 ⟨c, hc, rfl⟩
  | forLoop i t u s =>
    obtain ⟨c, hc, rfl⟩ := mem_map.1 hs
    exact .of_scope h (mem_map.2 ⟨c, hc, rfl⟩)
  | forIn head p e s => exact .of_loop h hs rfl
  | forOf head p e s isAwait => exact .of_loop h hs rfl
  | tryCatch ss p hd f =>
    rcases mem_append.1 hs with hs | hs
    · exact .of_block h hs fun c hc => mem_append_left _ (mem_map.2 ⟨c, hc, rfl⟩)
    · rcases mem_cons.1 hs with rfl | hs
      · simp at hp
      · rcases mem_cons.1 hs with rfl | hs
        · exact .of_mem_places ((h.bind fun _ hname => hname).scope _)
            (mem_append_right _ (.head _))
        · rw [mem_singleton.1 hs]
          exact .of_scope h (mem_append_right _ (.tail _ (.head _)))
  | switch e cs =>
    rcases mem_cons.1 hs with rfl | hs
    · exact .of_mem_places h (.head _)
    · obtain ⟨⟨t, ss⟩, hc, hs⟩ := mem_flatMap.1 hs
      have hcase : (place, Node.case (.mk t ss)) ∈ (Node.stmt (.switch e cs)).places place :=
        .tail _ (mem_map.2 ⟨_, mem_map.2 ⟨_, hc, rfl⟩, rfl⟩)
      refine .of_part hcase ?_
      rcases mem_append.1 hs with hs | hs
      · obtain ⟨c, hc, rfl⟩ := mem_map.1 hs
        exact .of_mem_places h (mem_map.2 ⟨c, mem_append_left _ hc, rfl⟩)
      · obtain ⟨c, hc, rfl⟩ := mem_map.1 hs
        exact .of_scope h (mem_map.2 ⟨c, mem_append_right _ hc, rfl⟩)
  | labeled l s =>
    rw [mem_singleton.1 hs]
    exact .of_mem_places h (.head _)
  | breakTo l => simp [Node.sites] at hs
  | continueTo l => simp [Node.sites] at hs
  | _ => exact .of_children h hs rfl rfl

theorem reaches_item {i : Item} (h : here.Covers place) (hs : site ∈ (Node.item i).sites here) :
    Reaches place (.item i) site := by
  cases i with
  | stmt s =>
    rw [mem_singleton.1 hs]
    exact .of_mem_places h (.head _)
  | exportDecl d =>
    rw [mem_singleton.1 hs]
    exact .of_mem_places h (.head _)
  | exportDefaultFunc name f =>
    rw [mem_singleton.1 hs]
    exact .of_mem_places (h.bind fun _ hname => hname) (.head _)
  | exportDefaultClass name c =>
    rw [mem_singleton.1 hs]
    exact .of_scope h (by simp [Node.places, Node.children, Node.ofItem])
  | exportDefaultExpr e =>
    rw [mem_singleton.1 hs]
    exact .of_mem_places h (.head _)
  | _ => simp [Node.sites] at hs

end Step

variable {here : Spot} {n : Node} {site : Spot × Node}

/-- **The coarse walk comes to every part that evaluation comes to**, the parameters of handlers
apart. -/
theorem reaches_of_mem_sites {place : Place} (h : here.Covers place) (hs : site ∈ n.sites here)
    (hp : site.1.inParameter = false) : Reaches place n site := by
  cases n with
  | expr e => exact reaches_expr h hs
  | prop p => exact reaches_prop h hs
  | member m => exact reaches_member h hs
  | decl d => exact reaches_decl h hs
  | stmt s => exact reaches_stmt h hs hp
  | func f =>
    cases f
    exact .of_function h hs fun _ hpart => hpart
  | item i => exact reaches_item h hs
  | _ => exact .of_children h hs rfl rfl

/-! ### From occurrences to references -/

theorem Spot.inParameter_of_mem_members {names : List String} {ms : List EnumMember}
    (h : site ∈ (here.hide names).members [] ms) : site.1.inParameter = here.inParameter := by
  obtain ⟨⟨names, hspot⟩, -⟩ := mem_members h
  rw [hspot]
  rfl

theorem Spot.inParameter_of_mem_function {ps : List Pat} {b : Body}
    (h : site ∈ here.function ps b) : site.1.inParameter = here.inParameter := by
  obtain ⟨⟨names, hspot⟩, -⟩ := mem_function h
  rw [hspot]
  rfl

/-- Inside the parameter of a handler everything is. -/
theorem Node.inParameter_of_mem_sites (h : here.inParameter = true) (hs : site ∈ n.sites here) :
    site.1.inParameter = true := by
  unfold Node.sites at hs
  split at hs <;> grind [Spot.inParameter_of_mem_function, Spot.inParameter_of_mem_members,
    Spot.block, Spot.scope]

theorem Occurs.inParameter {there : Spot} {id : Ident} (h : Occurs here n there id)
    (hp : here.inParameter = true) : there.inParameter = true := by
  induction h with
  | here => exact hp
  | inside hs _ ih => exact ih (Node.inParameter_of_mem_sites hp hs)

/-- An identifier that stands free and is not hidden is used, and used eagerly unless it stands in
a function. -/
theorem Occurs.mem_uses {there : Spot} {id : Ident} (h : Occurs here n there id)
    (free : there.Free id.name) (shown : ¬ there.Hides id.name) :
    ∀ place, here.Covers place →
      ∃ l, (l = true → there.isLazy = true) ∧ ⟨.read id, l⟩ ∈ n.uses [] place := by
  induction h with
  | @here here id =>
    intro place hc
    have hbound : id.name ∉ place.bound := fun hb =>
      (hc.bound _ hb).elim (fun hf => hf free) fun hf => shown (.inl hf)
    refine ⟨place.isLazy, hc.isLazy, Node.mem_uses.2 (.inl ⟨.read id, .head _, ?_⟩)⟩
    simp [Place.use, hbound]
  | inside hs h ih =>
    intro place hc
    have hp : ¬ _ = true := fun hp => shown (.inr (h.inParameter hp))
    obtain ⟨inner, hinner, hsub⟩ := reaches_of_mem_sites hc hs (Bool.eq_false_iff.2 hp)
    obtain ⟨l, hl, hu⟩ := ih free shown inner hinner
    exact ⟨l, hl, hsub _ hu⟩

namespace References

/-- Dropping repetitions keeps all names. -/
theorem mem_texts_foldl {ids : List Ident} {acc : List Ident} {name : String}
    (h : name ∈ Ident.texts acc ∨ name ∈ Ident.texts ids) :
    name ∈ Ident.texts (ids.foldl
      (fun acc id => if (Ident.texts acc).contains id.name then acc else acc ++ [id]) acc) := by
  induction ids generalizing acc with
  | nil => simpa [Ident.texts] using h
  | cons id ids ih =>
    refine ih ?_
    have hcons : name ∈ Ident.texts (id :: ids) ↔ name = id.name ∨ name ∈ Ident.texts ids :=
      mem_cons
    have hsnoc : Ident.texts (acc ++ [id]) = Ident.texts acc ++ [id.name] := map_append
    grind

variable {uses : List Use} {id : Ident}

theorem mem_texts_reads {l : Bool} (h : ⟨.read id, l⟩ ∈ uses) :
    id.name ∈ Ident.texts (reads l uses) := by
  refine mem_texts_foldl (.inr (mem_map.2 ⟨id, mem_filterMap.2 ⟨_, h, ?_⟩, rfl⟩))
  simp

theorem mem_texts_eager (h : ⟨.read id, false⟩ ∈ uses) :
    id.name ∈ Ident.texts (ofUses uses).eager := mem_texts_reads h

theorem mem_names_ofUses {l : Bool} (h : ⟨.read id, l⟩ ∈ uses) : id.name ∈ (ofUses uses).names := by
  refine mem_append.2 ?_
  by_cases heager : id.name ∈ Ident.texts (ofUses uses).eager
  · exact .inl heager
  · cases l with
    | false => exact absurd (mem_texts_eager h) heager
    | true =>
      obtain ⟨first, hfirst, hname⟩ := mem_map.1 (mem_texts_reads h)
      refine .inr (mem_map.2 ⟨first, mem_filter.2 ⟨hfirst, ?_⟩, hname⟩)
      have hfirst : first.name = id.name := hname
      rw [hfirst]
      simpa [ofUses] using heager

end References

/-! ### Pieces of code -/

/-- A piece of code whose references are asked for: nodes, and the names that are bound around
them. -/
structure Code where
  nodes : List Node
  bound : List String := []

namespace Code

def ofExpr (e : Expr) : Code := { nodes := [.expr e] }

/-- The code of a declarator, inside the names it binds. -/
def ofDeclarator (d : Declarator) : Code :=
  { nodes := [.declarator d], bound := Ident.texts d.pat.names }

def ofFunc (name : Option Ident) (f : Func) : Code :=
  { nodes := [.func f], bound := Ident.texts name.toList }

def ofEnum (id : Ident) (ms : List EnumMember) : Code := { nodes := [.decl (.enum id ms false)] }

/-- The top-level code of a module, inside the names it declares. -/
def ofItems (declared : List String) (items : List Item) : Code :=
  { nodes := items.map .item, bound := declared }

def references (c : Code) : References := .ofNodes c.bound [] c.nodes

/-- The spot at which evaluation starts. -/
def start (c : Code) : Spot := { scopes := [c.bound] }

/-- The identifier stands in the code, where evaluation comes to it at `there`. -/
def Occurs (c : Code) (there : Spot) (id : Ident) : Prop :=
  ∃ n ∈ c.nodes, Script.Occurs c.start n there id

/-- The code reads or writes a name from around it at a spot that lets the name through. -/
structure Shows (c : Code) (there : Spot) (id : Ident) : Prop where
  occurs : c.Occurs there id
  free : there.Free id.name
  shown : ¬ there.Hides id.name

theorem start_covers (c : Code) : c.start.Covers { bound := c.bound } where
  bound _ hname := .inl fun free => free c.bound (.head _) hname
  isLazy h := absurd h (by simp)

variable {c : Code} {there : Spot} {id : Ident}

theorem Shows.mem_uses (h : c.Shows there id) :
    ∃ l, (l = true → there.isLazy = true) ∧
      ⟨.read id, l⟩ ∈ c.nodes.flatMap fun n => n.uses [] { bound := c.bound } := by
  obtain ⟨n, hn, hoccurs⟩ := h.occurs
  obtain ⟨l, hl, hu⟩ := hoccurs.mem_uses h.free h.shown _ c.start_covers
  exact ⟨l, hl, mem_flatMap.2 ⟨n, hn, hu⟩⟩

theorem Shows.mem_names (h : c.Shows there id) : id.name ∈ c.references.names := by
  obtain ⟨l, -, hu⟩ := h.mem_uses
  exact References.mem_names_ofUses hu

end Code
end Script
end AtomicStyles
