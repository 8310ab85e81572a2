import AtomicStyles.Script.Parse.Module

/-!
# Patterns that are bound as a whole

Binding an array pattern ends with its rest, so that names after the rest stay without values. The
parser lets nothing follow on a rest except in readings that are only tried, and no declaration of a
variable at the top level of a module is read in this way.

## Main definitions

* `Pat.reached` — the names that binding a pattern reaches.
* `Parse.Gives` — what a parser reads in a context has a property.

## Main results

* `gives_pattern` — patterns that are not only tried reach all their names.
* `Module.whole_of_parse` — so do those of the variables that a module declares.
-/

namespace AtomicStyles
namespace Script

open Parse

mutual

/-- The names that binding a pattern reaches. It ends an array pattern with its rest. -/
def Pat.reached : Pat → List String
  | .ident id => [id.name]
  | .array items => Pat.reachedList items
  | .hole => []
  | .rest p => p.reached
  | .object props => Pat.reachedProps props
  | .withDefault p _ => p.reached
  | .expr _ => []
  | .decorated _ p => p.reached

/-- `Pat.reached` of the items of an array pattern. -/
def Pat.reachedList : List Pat → List String
  | [] => []
  | .rest p :: _ => p.reached
  | p :: ps => p.reached ++ Pat.reachedList ps

/-- `Pat.reached` of the properties of a pattern. -/
def Pat.reachedProps : List PatProperty → List String
  | [] => []
  | .keyValue _ p :: ps => p.reached ++ Pat.reachedProps ps
  | .shorthand id _ :: ps => id.name :: Pat.reachedProps ps
  | .rest p :: ps => p.reached ++ Pat.reachedProps ps

end

/-- Binding the pattern reaches all its names. -/
def Pat.Whole (p : Pat) : Prop := p.names.map Ident.text = p.reached

/-- The variables that a declaration gives to its module are bound as a whole. -/
def Decl.Whole : Decl → Prop
  | .var _ ds false => ∀ d ∈ ds, d.pat.Whole
  | _ => True

def Stmt.Whole : Stmt → Prop
  | .decl d => d.Whole
  | _ => True

def Item.Whole : Item → Prop
  | .stmt s => s.Whole
  | .exportDecl d => d.Whole
  | _ => True

namespace Parse

variable {α β : Type} {c : Context} {P : α → Prop} {Q : β → Prop} {p : Parse α} {f : α → Parse β}

theorem exists_of_bind {s s' : State} {b : β} (h : (p >>= f) c s = some (b, s')) :
    ∃ a s₁, p c s = some (a, s₁) ∧ f a c s₁ = some (b, s') := by
  obtain ⟨⟨a, s₁⟩, ha, hb⟩ := Option.bind_eq_some_iff.1 h
  exact ⟨a, s₁, ha, hb⟩

/-- What the parser reads in the context has the property. -/
def Gives (c : Context) (p : Parse α) (P : α → Prop) : Prop := ∀ s a s', p c s = some (a, s') → P a

namespace Gives

theorem pure {a : α} (h : P a) : Gives c (pure a) P := by
  rintro s _ _ ⟨⟩
  exact h

theorem fail : Gives c (fail : Parse α) P := by
  rintro s a s' ⟨⟩

theorem bind (h : Gives c p P) (hf : ∀ a, P a → Gives c (f a) Q) : Gives c (p >>= f) Q := by
  intro s b s' hb
  obtain ⟨a, s₁, ha, hb⟩ := exists_of_bind hb
  exact hf a (h s a s₁ ha) s₁ b s' hb

theorem after (hf : ∀ a, Gives c (f a) Q) : Gives c (p >>= f) Q :=
  bind (P := fun _ => True) (fun _ _ _ _ => trivial) fun a _ => hf a

theorem map {g : α → β} (h : Gives c p fun a => Q (g a)) : Gives c (do return g (← p)) Q :=
  bind h fun _ => pure

theorem ite {b : Prop} [Decidable b] {q : Parse α} (hp : Gives c p P) (hq : Gives c q P) :
    Gives c (if b then p else q) P := by
  split
  · exact hp
  · exact hq

theorem within {g : Context → Context} (h : Gives (g c) p P) : Gives c (within g p) P := h

theorem speculate (h : Gives { c with lenient := true } p P) :
    Gives c (speculate p) (·.elim True P) := by
  intro s a s' ha
  unfold Parse.speculate attempt at ha
  split at ha
  · cases ha
    trivial
  · next hp =>
    cases ha
    exact h s _ _ hp

theorem many {p : Parse (Option α)} (h : Gives c p (·.elim True P)) :
    Gives c (many p) fun l => ∀ x ∈ l, P x := by
  refine after fun s => ?_
  induction s.limit with
  | zero => exact .fail
  | succ n ih =>
    refine bind h fun a ha => ?_
    cases a with
    | none => exact pure nofun
    | some a => exact bind ih fun l hl => pure (List.forall_mem_cons.2 ⟨ha, hl⟩)

end Gives
end Parse

variable {c : Context} {r : Rules} {n : Nat}

/-! ### Patterns -/

theorem Pat.whole_array_cons {p : Pat} {ps : List Pat} (hp : p.Whole) (hps : (Pat.array ps).Whole)
    (h : p.isRest = true → ps = []) : (Pat.array (p :: ps)).Whole := by
  unfold Pat.Whole at *
  rw [Pat.names, Pat.reached] at hps ⊢
  rw [Pat.namesList, List.map_append, hp]
  cases p with
  | rest q =>
    cases h rfl
    simp [Pat.namesList, Pat.reachedList, Pat.reached]
  | _ => rw [hps, Pat.reachedList]; exact nofun

/-- Items that are read up to a bracket, which follows on a rest. -/
theorem gives_items {p : Parse (Option Pat)}
    (hp : ∀ s a s', p c s = some (some a, s') → s.token.isPunct "]" = false ∧ a.Whole ∧
      (a.isRest = true → s'.token.isPunct "]" = true)) :
    Gives c (many p) fun ps => (Pat.array ps).Whole := by
  refine .after fun s₀ => ?_
  -- By induction on the rounds of the loop. A bracket ends it, so that nothing comes after a rest.
  have hitems n : ∀ s ps s', manyFuel p n c s = some (ps, s') →
      (Pat.array ps).Whole ∧ (s.token.isPunct "]" = true → ps = []) := by
    induction n with
    | zero => rintro s ps s' ⟨⟩
    | succ n ih =>
      intro s ps s' h
      obtain ⟨a, s₁, ha, h⟩ := exists_of_bind h
      cases a with
      | none =>
        cases h
        exact ⟨rfl, fun _ => rfl⟩
      | some a =>
        obtain ⟨qs, s₂, hqs, ⟨⟩⟩ := exists_of_bind h
        obtain ⟨hs, hwhole, hrest⟩ := hp s a s₁ ha
        obtain ⟨hps, hend⟩ := ih s₁ qs s' hqs
        exact ⟨Pat.whole_array_cons hwhole hps fun ha => hend (hrest ha), by simp [hs]⟩
  exact fun s ps s' h => (hitems _ s ps s' h).1

/-- Nothing may follow on a rest. -/
theorem isPunct_of_patternComma (hc : c.lenient = false) {close : String} {s s' : State} {u : Unit}
    (h : patternComma close true c s = some (u, s')) : s'.token.isPunct close = true := by
  obtain ⟨_, _, ⟨⟩, h⟩ := exists_of_bind h
  by_cases hs : s.token.isPunct close = true
  · rw [hs] at h
    cases h
    exact hs
  · rw [Bool.eq_false_iff.2 hs] at h
    obtain ⟨_, s₁, -, h⟩ := exists_of_bind h
    change guarded c.lenient c s₁ = _ at h
    rw [hc] at h
    cases h

theorem Pat.whole_object {ps : List PatProperty} (h : ∀ p ∈ ps, (Pat.object [p]).Whole) :
    (Pat.object ps).Whole := by
  induction ps with
  | nil => rfl
  | cons p ps ih =>
    obtain ⟨hp, hps⟩ := List.forall_mem_cons.1 h
    have hps := ih hps
    cases p <;> simp_all [Pat.Whole, Pat.names, Pat.namesProps, Pat.reached, Pat.reachedProps,
      Ident.text]

/-- The pattern is bound as a whole, and collects no rest itself. -/
def Pat.Single (p : Pat) : Prop := p.Whole ∧ p.isRest = false

theorem gives_withDefault {p : Pat} (hp : p.Single) : Gives c (withDefault r p) Pat.Single :=
  .after fun _ => .ite (.after fun _ => .pure ⟨hp.1, rfl⟩) (.pure hp)

section Patterns

variable (hc : c.lenient = false) (hr : Gives c r.pattern Pat.Single)

include hr

theorem gives_patternProperty : Gives c (patternProperty r) fun p => (Pat.object [p]).Whole := by
  have hproperty {p : PatProperty} (h : (Pat.object [p]).Whole) :
      Gives c (do patternComma "\x7d" false; return p) fun p => (Pat.object [p]).Whole :=
    .after fun _ => .pure h
  refine .after fun _ => .ite (.after fun p => ?_)
    (.after fun pos => .after fun key => .after fun _ => .ite ?_ ?_)
  · split
    · exact .after fun _ => .pure rfl
    · exact .fail
  · refine .bind hr fun p hp => .bind (gives_withDefault hp) fun q hq => hproperty ?_
    simpa [Pat.Whole, Pat.names, Pat.namesProps, Pat.reached, Pat.reachedProps] using hq.1
  · cases key with
    | name w => exact .after fun _ => .ite (.after fun _ => hproperty rfl) (hproperty rfl)
    | _ => exact .fail

include hc

theorem gives_arrayPattern : Gives c (arrayPattern r) Pat.Single := by
  refine .after fun _ => .bind (gives_items fun s a s' h => ?_) fun ps hps =>
    .after fun _ => .after fun _ => .pure ⟨hps, rfl⟩
  -- An item is a hole, a rest or a pattern that may have a default.
  obtain ⟨_, _, ⟨⟩, h⟩ := exists_of_bind h
  split at h
  · cases h
  next hs =>
  refine ⟨Bool.eq_false_iff.2 hs, ?_⟩
  obtain ⟨_, _, -, h⟩ := exists_of_bind h
  split at h
  · cases h
    exact ⟨rfl, nofun⟩
  obtain ⟨_, _, -, h⟩ := exists_of_bind h
  split at h
  · obtain ⟨p, s₁, hp, h⟩ := exists_of_bind h
    obtain ⟨_, s₂, hcomma, ⟨⟩⟩ := exists_of_bind h
    exact ⟨(hr _ p s₁ hp).1, fun _ => isPunct_of_patternComma hc hcomma⟩
  · obtain ⟨p, s₁, hp, h⟩ := exists_of_bind h
    obtain ⟨q, s₂, hq, h⟩ := exists_of_bind h
    obtain ⟨_, s₃, -, ⟨⟩⟩ := exists_of_bind h
    obtain ⟨hwhole, hrest⟩ := gives_withDefault (hr _ p s₁ hp) _ _ _ hq
    exact ⟨hwhole, by simp [hrest]⟩

theorem gives_bindingPattern : Gives c (bindingPattern r) Pat.Single := by
  refine .after fun t => ?_
  split
  · exact gives_arrayPattern hc hr
  · refine .after fun _ => .bind (.many (P := fun p => (Pat.object [p]).Whole) ?_)
      fun ps hps => .after fun _ => .after fun _ => .pure ⟨Pat.whole_object hps, rfl⟩
    exact .after fun _ => .ite (.pure trivial) (.map (gives_patternProperty hr))
  · exact .after fun id => .pure ⟨rfl, rfl⟩

end Patterns

theorem gives_pattern (hc : c.lenient = false) : Gives c (rules n).pattern Pat.Single := by
  induction n with
  | zero => exact .fail
  | succ n ih => exact gives_bindingPattern hc ih

/-! ### Declarations

Variables are declared by `variableDecl` alone. The proofs go through the other rules to see that
they give nothing of the kind. -/

theorem gives_declarator (hc : c.lenient = false) (kind : VarKind) :
    Gives c (declarator (rules n) kind false) fun d => d.1.pat.Whole := by
  refine .after fun _ => .bind (gives_pattern hc) fun p hp => .after fun _ => ?_
  dsimp only
  repeat' first
    | exact .pure hp.1
    | refine .ite ?_ ?_
    | refine .after fun _ => ?_

theorem gives_variableDecl (hc : c.lenient = false) (kind : VarKind) (isDeclare : Bool) :
    Gives c (variableDecl (rules n) kind isDeclare) Decl.Whole := by
  have hfirst := gives_declarator (n := n) (c := { c with allowIn := true }) hc kind
  refine .after fun _ => .bind (.within (P := fun ds => ∀ d ∈ ds, d.1.pat.Whole) ?_)
    fun ds hds => .after fun _ => .pure ?_
  · refine .bind hfirst fun d hd => .bind (.many ?_) fun ds hds =>
      .pure (List.forall_mem_cons.2 ⟨hd, hds⟩)
    exact .after fun _ => .ite (.map hfirst) (.pure trivial)
  · cases isDeclare with
    | false => exact List.forall_mem_map.2 hds
    | true => trivial

theorem gives_typedDecl (w : String) (isCertain isSameLine : Bool) (ds : List Expr)
    (isDeclare : Bool) :
    Gives c (typedDecl? r w isCertain isSameLine ds isDeclare) (·.elim True Decl.Whole) := by
  have hregion n : Gives c (regionRest r n) Decl.Whole := by
    cases n with
    | zero => exact .fail
    | succ n =>
      refine .after fun _ => .after fun _ => .ite ?_ ?_ <;> exact .after fun _ => .pure trivial
  dsimp only [typedDecl?, classDecl, enumRest, interfaceRest, aliasRest, ambientRest]
  repeat' first
    | with_reducible exact .map (hregion _)
    | with_reducible refine .map (g := some) ?_
    | with_reducible refine .after fun _ => ?_
    | with_reducible refine .ite ?_ ?_
    | exact .pure trivial
    | exact .fail
    | split

theorem gives_declared (ds : List Expr) : Gives c (declared? r ds) (·.elim True Decl.Whole) := by
  -- Variables after `declare` are none that the module has, whatever their patterns.
  dsimp only [declared?, functionDecl, classDecl, enumRest, variableDecl, ambientRest]
  refine .after fun _ => .after fun _ => .within ?_
  repeat' first
    | with_reducible refine .bind (gives_typedDecl _ _ _ _ _) fun _ _ => ?_
    | with_reducible refine .map (g := some) ?_
    | with_reducible refine .after fun _ => ?_
    | with_reducible refine .ite ?_ ?_
    | exact .pure trivial
    | exact .pure ‹_›
    | exact .fail
    | split

theorem gives_keywordStmt (w : String) : Gives c (keywordStmt r w) Stmt.Whole := by
  dsimp only [keywordStmt, forStmt, forVariables, forExpression, forRest, forEachRest, tryStmt]
  repeat' first
    | with_reducible refine .after fun _ => ?_
    | with_reducible refine .ite ?_ ?_
    | exact .pure trivial
    | exact .fail
    | split

theorem gives_expressionStmt (ds : List Expr) : Gives c (expressionStmt r ds) Stmt.Whole := by
  have hnamed id : Gives c (namedDecl? r id ds) (·.elim True Decl.Whole) := by
    unfold namedDecl?
    split
    · exact gives_declared ds
    · exact .after fun _ => .ite (.after fun _ => .pure trivial) (.pure trivial)
    · exact .after fun _ => gives_typedDecl _ _ _ _ _
  refine .after fun _ => .after fun e => ?_
  split
  · refine .after fun _ => .ite (.after fun _ => .after fun _ => .after fun _ => .pure trivial)
      (.after fun _ => .bind (.ite (hnamed _) (.pure trivial)) fun d hd => ?_)
    split
    · exact .pure hd
    · exact .after fun _ => .after fun _ => .after fun _ => .pure trivial
  · exact .after fun _ => .after fun _ => .pure trivial

section Strict

variable (hc : c.lenient = false) (ds : List Expr)

include hc

theorem gives_wordDecl (canDeclare : Bool) (w : String) :
    Gives c (wordDecl? (rules n) canDeclare ds w) (·.elim True Decl.Whole) := by
  dsimp only [wordDecl?, functionDecl, classDecl, enumRest, interfaceRest, aliasRest, usingRest]
  repeat' first
    | with_reducible exact .map (gives_variableDecl hc _ _)
    | with_reducible refine .map (g := some) ?_
    | with_reducible refine .after fun _ => ?_
    | with_reducible refine .ite ?_ ?_
    | exact .pure trivial
    | exact .fail
    | split

theorem gives_stmtFrom (canDeclare : Bool) :
    Gives c (stmtFrom (rules n) canDeclare ds) Stmt.Whole := by
  dsimp only [stmtFrom, awaitStmt, usingRest]
  refine .within ?_
  repeat' first
    | with_reducible exact gives_keywordStmt _
    | with_reducible exact gives_expressionStmt _
    | with_reducible refine .bind (gives_wordDecl (by exact hc) _ _ _) fun _ _ => ?_
    | with_reducible refine .map (g := Stmt.decl) ?_
    | with_reducible refine .after fun _ => ?_
    | with_reducible refine .ite ?_ ?_
    | exact .pure trivial
    | exact .pure ‹_›
    | split

omit hc in
theorem gives_exportTyped : Gives c (exportTyped? r ds) (·.elim True Item.Whole) := by
  have hfound : Gives c (exportedDecl? r ds) (·.elim True Decl.Whole) := by
    refine .after fun t => ?_
    split
    · refine .after fun _ => .speculate (.after fun _ => .bind (gives_typedDecl _ _ _ _ _) ?_)
      rintro (_ | d) hd
      · exact .fail
      · exact .pure hd
    · exact .pure trivial
  simp only [exportTyped?, importEqualsRest, pure_bind]
  repeat' first
    | with_reducible refine .bind (gives_declared _) fun _ _ => ?_
    | with_reducible refine .bind hfound fun _ _ => ?_
    | with_reducible refine .map (g := some) ?_
    | with_reducible refine .after fun _ => ?_
    | with_reducible refine .ite ?_ ?_
    | exact .pure trivial
    | exact .pure ‹_›
    | split

theorem gives_exportItem : Gives c (exportItem (rules n) ds) Item.Whole := by
  have hrest b : Gives c (exportRest (rules n) ds b) Item.Whole := by
    dsimp only [exportRest, functionDecl, classDecl, enumRest, exportAllRest, exportClause]
    repeat' first
      | with_reducible exact .map (gives_variableDecl hc _ _)
      | with_reducible refine .map (g := Item.exportDecl) ?_
      | with_reducible refine .after fun _ => ?_
      | with_reducible refine .ite ?_ ?_
      | exact .pure trivial
      | exact .fail
      | split
  have hdefault : Gives c (exportDefault (rules n) ds) Item.Whole := by
    unfold exportDefault defaultClass defaultFunction
    repeat' first
      | with_reducible refine .after fun _ => ?_
      | with_reducible refine .ite ?_ ?_
      | exact .pure trivial
      | exact .fail
      | split
  simp only [exportItem, pure_bind]
  repeat' first
    | with_reducible exact hrest _
    | with_reducible exact hdefault
    | with_reducible refine .bind (gives_exportTyped _) fun _ _ => ?_
    | with_reducible refine .after fun _ => ?_
    | with_reducible refine .ite ?_ ?_
    | exact .pure ‹_›
    | split

theorem gives_itemRule : Gives c (itemRule (rules n)) Item.Whole := by
  unfold itemRule importStmt importItem importNamed importRest importEqualsRest
  repeat' first
    | with_reducible exact gives_exportItem hc _
    | with_reducible exact .map (gives_stmtFrom hc _ _)
    | with_reducible refine .map (g := Item.stmt) ?_
    | with_reducible refine .after fun _ => ?_
    | with_reducible refine .ite ?_ ?_
    | exact .pure trivial
    | split

end Strict

/-- The variables that a parsed module declares at its top level are bound as a whole. -/
theorem Module.whole_of_parse {fs : Features} {source : String} {m : Module}
    (h : Module.parse? fs source = some m) : ∀ item ∈ m.items, item.Whole := by
  obtain ⟨⟨items, s⟩, hitems, ⟨⟩⟩ := Option.bind_eq_some_iff.1 h
  refine Gives.after (fun _ => .after fun _ => .many (.after fun _ => ?_)) _ _ _ hitems
  split
  · exact .pure trivial
  · exact .map (gives_itemRule rfl)

end Script
end AtomicStyles
