import AtomicStyles.Proofs.Logic.Library

/-!
# Rules for code

Names, patterns, expressions and calls. The rules ask for the parts of evaluation on code that
is smaller than theirs; a call asks for them on any code, with less to use up.

## Main results

* `Logic.holds_bindPattern` — patterns.
* `Logic.holds_evalExpr`, `Logic.holds_callFunction` — expressions and calls.
-/

namespace AtomicStyles.Logic

open Script Eval List

variable {L : Logic} {i : L.Index} {size : Nat} {R : L.Bound → Interp} (hr : L.Runs i size R)
  {s : Scope} (hs : L.Good s)

/-! ### Names -/

variable {v : Value} {vs : List Value} {p : Pat} {es args : List Expr} {e callee : Expr}

theorem holds_writeOr {missing : L.Bound → Eval Unit} (h : L.Gives i missing) (s : Scope)
    (name : String) (hv : L.Good v) : L.Gives i fun k => writeOr (missing k) s name v := by
  refine (L.assign s name hv).bind fun a _ => ?_
  cases a with
  | assigned isTop => exact .ite L.recordWrite (.pure trivial)
  | constant => exact holds_raise _
  | uninitialized => exact .throw nofun
  | missing => exact h

theorem holds_bindName (kind : BindKind) {name : String} (hname : L.Open s name true)
    (hv : L.Good v) : L.Gives i fun _ => bindName s kind name v := by
  cases kind with
  | lexical => exact L.declare true hname hv.some
  | const => exact L.declare false hname hv.some
  | var =>
    refine (L.assign s name hv).bind fun a _ => ?_
    cases a with
    | assigned isTop => exact .pure trivial
    | _ => exact L.declare true hname hv.some

theorem holds_declareVars {names : List Ident} (hnames : L.Takes s names) :
    L.Gives i fun _ => declareVars s names :=
  .forM names fun id hid => (L.ownSlot s id.name).bind fun _ _ => .ite (.pure trivial)
    (L.declare true (hnames.isOpen id hid) (v := some .undefined) (.some trivial))

include hs

theorem holds_child : L.Holds i L.Free fun _ => child s :=
  L.newFrame.bind fun _ hframe => .pure ⟨hs, hframe s⟩

theorem holds_newFunc (name : Option String) (f : Func) : L.Gives i fun _ => newFunc s name f := by
  rcases f with ⟨ds, params, body, isAsync, isGenerator⟩
  exact L.newFunction (f := .defined _) hs

theorem holds_newArrow (params : List Pat) (body : Body) (isAsync : Bool) :
    L.Gives i fun _ => newArrow s params body isAsync :=
  holds_newFunc hs none _

omit hs in
theorem holds_hoistDecl (hs : L.Free s) (d : Decl) : L.Gives i fun _ => hoistDecl s d := by
  unfold hoistDecl
  split
  · exact (holds_newFunc hs.good _ _).bind fun v hv => L.declare true (hs.isOpen _ _) hv.some
  · exact .pure trivial
  · exact .forM _ fun id _ => L.declare _ (hs.isOpen _ _) nofun
  · exact L.declare true (hs.isOpen _ _) nofun
  · exact L.declare false (hs.isOpen _ _) nofun
  · exact .pure trivial

omit hs in
theorem holds_hoist (hs : L.Free s) (ss : List Stmt) : L.Gives i fun _ => hoist s ss := by
  refine .forM ss fun stmt _ => ?_
  cases stmt with
  | decl d => exact holds_hoistDecl hs d
  | _ => exact .pure trivial

include hr

theorem holds_read (name : String) : L.Gives i fun k => read (R k) s name := by
  refine (L.lookup s name).bind fun slot hslot => ?_
  rcases slot with _ | ⟨_ | v, isMutable⟩
  · exact hr.topLevel name hs
  · exact .throw nofun
  · exact .pure (hslot _ rfl v rfl)

theorem holds_write (name : String) (hv : L.Good v) : L.Gives i fun k => write (R k) s name v := by
  refine holds_writeOr ((L.tables hs).bind fun t ht => .iteOf (fun hname => ?_) fun _ => ?_) s
    name hv
  · exact hr.assigned ht hname hv
  · exact .ite (holds_raise _) (.throw nofun)

theorem holds_propertyKey {key : Key} (hkey : sizeOf key ≤ size) :
    L.Gives i fun k => propertyKey (R k) s key := by
  cases key with
  | computed e =>
    simp only [Key.computed.sizeOf_spec] at hkey
    exact (hr.expr hs (by omega)).bind fun v _ => L.text v
  | bigInt => exact .unsupported _
  | hidden => exact .unsupported _
  | _ => exact .pure trivial

/-! ### Patterns -/

theorem holds_orDefault {default : Option Expr} (hdefault : sizeOf default ≤ size) (hv : L.Good v) :
    L.Gives i fun k => orDefault (R k) s default v := by
  cases v with
  | undefined =>
    cases default with
    | some e =>
      simp only [Option.some.sizeOf_spec] at hdefault
      exact hr.expr hs (by omega)
    | none => exact .pure hv
  | _ => exact .pure hv

omit hs

theorem holds_bindItems (kind : BindKind) {ps : List Pat} (hs : L.Takes s (Pat.namesList ps))
    (hps : sizeOf ps ≤ size) (hvs : L.Good vs) :
    L.Gives i fun k => bindItems (R k) s kind ps vs := by
  induction ps generalizing vs with
  | nil => exact .pure trivial
  | cons p ps ih =>
    simp only [List.cons.sizeOf_spec] at hps
    have hfirst : L.Takes s p.names := hs.subset (subset_append_left _ _)
    have hnames : L.Takes s (Pat.namesList ps) := hs.subset (subset_append_right _ _)
    have hrest : L.Good (vs.drop 1) := hvs.subset (drop_subset 1 vs)
    have hplain : L.Gives i fun k => (do
        (R k).bind s kind p (vs.head?.getD .undefined)
        bindItems (R k) s kind ps (vs.drop 1)) := by
      refine (hr.bind kind hfirst (by omega) ?_).bind fun _ _ => ih hnames (by omega) hrest
      cases vs with
      | nil => trivial
      | cons v vs => exact hvs.of_cons.1
    cases p with
    | hole => exact ih hnames (by omega) hrest
    | rest p =>
      simp only [Pat.rest.sizeOf_spec] at hps
      exact (L.newArray hvs.toArray).bind fun v hv => hr.bind kind hfirst (by omega) hv
    | _ => exact hplain

theorem holds_bindProperties (kind : BindKind) (hv : L.Good v) (used : List String)
    {ps : List PatProperty} (hs : L.Takes s (Pat.namesProps ps)) (hps : sizeOf ps ≤ size) :
    L.Gives i fun k => bindProperties (R k) s kind v used ps := by
  induction ps generalizing used with
  | nil => exact .pure trivial
  | cons p ps ih =>
    simp only [List.cons.sizeOf_spec] at hps
    cases p with
    | keyValue key p =>
      simp only [PatProperty.keyValue.sizeOf_spec] at hps
      have hfirst : L.Takes s p.names := hs.subset (subset_append_left _ _)
      have hrest : L.Takes s (Pat.namesProps ps) := hs.subset (subset_append_right _ _)
      refine (holds_propertyKey hr hs.good (by omega)).bind fun key _ => ?_
      refine (holds_getProperty hr hv key).bind fun w hw => ?_
      exact (hr.bind kind hfirst (by omega) hw).bind fun _ _ => ih _ hrest (by omega)
    | shorthand id default =>
      simp only [PatProperty.shorthand.sizeOf_spec] at hps
      have hrest : L.Takes s (Pat.namesProps ps) := hs.subset (subset_cons_self _ _)
      refine (holds_getProperty hr hv id.name).bind fun found hfound => ?_
      refine (holds_orDefault hr hs.good (by omega) hfound).bind fun w hw => ?_
      have hname : L.Open s id.name true := hs.isOpen id (.head _)
      exact (holds_bindName kind hname hw).bind fun _ _ => ih _ hrest (by omega)
    | rest p =>
      simp only [PatProperty.rest.sizeOf_spec] at hps
      have hfirst : L.Takes s p.names := hs.subset (subset_append_left _ _)
      have hrest : L.Takes s (Pat.namesProps ps) := hs.subset (subset_append_right _ _)
      refine (holds_entries hr hv).bind fun es hes => ?_
      refine (L.newObject fun e he => (hes e (mem_of_mem_filter he)).2).bind fun w hw => ?_
      exact (hr.bind kind hfirst (by omega) hw).bind fun _ _ => ih _ hrest (by omega)

theorem holds_bindPattern (kind : BindKind) (hs : L.Takes s p.names) (hp : sizeOf p ≤ size)
    (hv : L.Good v) : L.Gives i fun k => bindPattern (R k) s kind p v := by
  cases p with
  | ident id => exact holds_bindName kind (hs.isOpen id (.head _)) hv
  | withDefault p e =>
    simp only [Pat.withDefault.sizeOf_spec] at hp
    have hdefault : sizeOf (some e) ≤ size := by
      simp only [Option.some.sizeOf_spec]
      omega
    exact (holds_orDefault hr hs.good hdefault hv).bind fun v hv => hr.bind kind hs (by omega) hv
  | array ps =>
    simp only [Pat.array.sizeOf_spec] at hp
    exact (holds_iterate hv).bind fun vs hvs => holds_bindItems hr kind hs (by omega) hvs
  | object ps =>
    simp only [Pat.object.sizeOf_spec] at hp
    refine .ite ((L.text v).bind fun t _ => holds_raise _) ?_
    exact holds_bindProperties hr kind hv [] hs (by omega)
  | rest p =>
    simp only [Pat.rest.sizeOf_spec] at hp
    exact hr.bind kind hs (by omega) hv
  | decorated ds p =>
    simp only [Pat.decorated.sizeOf_spec] at hp
    exact hr.bind kind hs (by omega) hv
  | expr e => exact .unsupported _
  | hole => exact .unsupported _

theorem holds_bindParam (hs : L.Free s) (hp : sizeOf p < size) (hvs : L.Good vs) :
    L.Gives i fun k => bindParam (R k) s vs p := by
  have hplain : L.Gives i fun k =>
      (R k).bind s .lexical p (vs.head?.getD .undefined) := by
    refine hr.bind .lexical (hs.takes _) hp ?_
    cases vs with
    | nil => trivial
    | cons v vs => exact hvs.of_cons.1
  have hall (p' : Pat) (hp' : sizeOf p' < size) : L.Gives i fun k => (do
      (R k).bind s .lexical p' (← newArray vs.toArray)) :=
    (L.newArray hvs.toArray).bind fun v hv => hr.bind .lexical (hs.takes _) hp' hv
  cases p with
  | rest p =>
    simp only [Pat.rest.sizeOf_spec] at hp
    exact hall p (by omega)
  | decorated ds p =>
    cases p with
    | rest p =>
      simp only [Pat.decorated.sizeOf_spec, Pat.rest.sizeOf_spec] at hp
      exact hall p (by omega)
    | _ => exact hplain
  | _ => exact hplain

theorem holds_bindParams (hs : L.Free s) {ps : List Pat} (hps : sizeOf ps ≤ size)
    (hvs : L.Good vs) : L.Gives i fun k => bindParams (R k) s ps vs := by
  induction ps generalizing vs with
  | nil => exact .pure trivial
  | cons p ps ih =>
    simp only [List.cons.sizeOf_spec] at hps
    refine (holds_bindParam hr hs (by omega) hvs).bind fun _ _ => ih (by omega) ?_
    exact hvs.subset (drop_subset 1 vs)

/-! ### Parts of expressions -/

include hs

theorem holds_evalItems (hes : sizeOf es ≤ size) : L.Gives i fun k => evalItems (R k) s es := by
  induction es with
  | nil => exact .pure .nil
  | cons e es ih =>
    simp only [List.cons.sizeOf_spec] at hes
    have ih := ih (by omega)
    have hplain : L.Gives i fun k => do
        let v ← (R k).expr s e
        return v :: (← evalItems (R k) s es) :=
      (hr.expr hs (by omega)).bind fun v hv => ih.bind fun vs hvs => .pure (hv.cons hvs)
    cases e with
    | hole => exact ih.bind fun vs hvs => .pure (.cons trivial hvs)
    | spread e hasComma =>
      simp only [Expr.spread.sizeOf_spec] at hes
      refine (hr.expr hs (by omega)).bind fun v hv => (holds_iterate hv).bind fun vs hvs => ?_
      exact ih.bind fun ws hws => .pure (hvs.append hws)
    | _ => exact hplain

theorem holds_evalTemplate (ts : List String) (hes : sizeOf es ≤ size) :
    L.Gives i fun k => evalTemplate (R k) s ts es := by
  induction ts generalizing es with
  | nil => exact .pure trivial
  | cons t ts ih =>
    cases es with
    | nil => exact (ih hes).bind fun _ _ => .pure trivial
    | cons e es =>
      simp only [List.cons.sizeOf_spec] at hes
      refine (hr.expr hs (by omega)).bind fun v _ => (L.text v).bind fun u _ => ?_
      exact (ih (by omega)).bind fun _ _ => .pure trivial

theorem holds_evalProperty {ps : Properties} (hps : L.Good ps) {p : Property}
    (hp : sizeOf p ≤ size) : L.Gives i fun k => evalProperty (R k) s ps p := by
  cases p with
  | spread e hasComma =>
    simp only [Property.spread.sizeOf_spec] at hp
    refine (hr.expr hs (by omega)).bind fun v hv => (holds_entries hr hv).bind fun es hes => ?_
    exact .pure (hps.insertAll fun e he => (hes e he).2)
  | shorthand id =>
    exact (holds_read hr hs id.name).bind fun v hv => .pure (hps.insert id.name hv)
  | keyValue key e =>
    simp only [Property.keyValue.sizeOf_spec] at hp
    refine (holds_propertyKey hr hs (by omega)).bind fun key _ => ?_
    exact (hr.expr hs (by omega)).bind fun v hv => .pure (hps.insert key hv)
  | method key f =>
    simp only [Property.method.sizeOf_spec] at hp
    refine (holds_propertyKey hr hs (by omega)).bind fun key _ => ?_
    exact (holds_newFunc hs (some key) f).bind fun v hv => .pure (hps.insert key hv)
  | _ => exact .unsupported _

theorem holds_evalSequence (hes : sizeOf es ≤ size) :
    L.Gives i fun k => evalSequence (R k) s es := by
  refine .foldlM es (fun _ _ e he => hr.expr hs ?_) trivial
  have hlt := sizeOf_lt_of_mem he
  omega

/-! ### Assignment -/

omit hr hs in
theorem sizeOf_unwrapped_le (e : Expr) : sizeOf e.unwrapped ≤ sizeOf e := by
  induction e using Expr.unwrapped.induct with
  | case1 e ih =>
    simp only [Expr.unwrapped, Expr.paren.sizeOf_spec]
    omega
  | case2 mark e ih =>
    simp only [Expr.unwrapped, Expr.typed.sizeOf_spec]
    omega
  | case3 e h1 h2 => rw [Expr.unwrapped.eq_3 e h1 h2]

theorem holds_place (he : sizeOf e ≤ size) : L.Gives i fun k => place (R k) s e := by
  have hsize := (sizeOf_unwrapped_le e).trans he
  unfold place
  cases hunwrapped : e.unwrapped with
  | ident id => exact .pure trivial
  | member obj key =>
    simp only [hunwrapped, Expr.member.sizeOf_spec] at hsize
    refine (hr.expr hs (by omega)).bind fun v hv => ?_
    exact (holds_propertyKey hr hs (by omega)).bind fun _ _ => .pure hv
  | _ => exact .unsupported _

theorem holds_targetPlace (hp : sizeOf p ≤ size) : L.Gives i fun k => targetPlace (R k) s p := by
  cases p with
  | ident id => exact .pure trivial
  | expr e =>
    simp only [Pat.expr.sizeOf_spec] at hp
    exact holds_place hr hs (by omega)
  | _ => exact .unsupported _

theorem holds_readPlace {p : AtomicStyles.Place} (hp : L.Good p) :
    L.Gives i fun k => readPlace (R k) s p := by
  cases p with
  | name n => exact holds_read hr hs n
  | property v key => exact holds_getProperty hr hp key

theorem holds_writePlace (p : AtomicStyles.Place) (hv : L.Good v) :
    L.Gives i fun k => writePlace (R k) s p v := by
  cases p with
  | name n => exact holds_write hr hs n hv
  | property target key => exact holds_setProperty target key hv

theorem holds_evalAssign (op : AssignOp) {target : Pat} (htarget : sizeOf target ≤ size)
    (he : sizeOf e < size) : L.Gives i fun k => evalAssign (R k) s op target e := by
  refine (holds_targetPlace hr hs htarget).bind fun p hp => ?_
  have hset : L.Gives i fun k => do
      let v ← (R k).expr s e
      writePlace (R k) s p v
      return v :=
    (hr.expr hs he).bind fun v hv => (holds_writePlace hr hs p hv).bind fun _ _ => .pure hv
  cases op with
  | set => exact hset
  | update op =>
    refine (holds_readPlace hr hs hp).bind fun old hold => ?_
    -- The operator applies to both sides, or takes the right one, or keeps the left one.
    rcases keepsLeft op old with _ | _ | _
    · refine (hr.expr hs he).bind fun v hv => ?_
      refine (holds_binary (holds_hasProperty old hv) op).bind fun w hw => ?_
      exact (holds_writePlace hr hs p hw).bind fun _ _ => .pure hw
    · exact hset
    · exact .pure hold

theorem holds_evalUpdate (isIncrement isBefore : Bool) (he : sizeOf e ≤ size) :
    L.Gives i fun k => evalUpdate (R k) s isIncrement isBefore e := by
  refine (holds_place hr hs he).bind fun p hp => (holds_readPlace hr hs hp).bind fun v _ => ?_
  refine (holds_number v).bind fun x _ => ?_
  exact (holds_writePlace hr hs p (v := .number _) trivial).bind fun _ _ => .pure trivial

/-! ### Operators -/

theorem holds_evalUnary (op : UnaryOp) (he : sizeOf e < size) :
    L.Gives i fun k => evalUnary (R k) s op e := by
  have hplain : L.Gives i fun k => (R k).expr s e >>= unary op :=
    (hr.expr hs he).bind fun v _ => holds_unary op v
  cases op with
  | typeOf =>
    cases e with
    | ident id =>
      refine (holds_read hr hs id.name).outcome.bind fun result hresult => ?_
      cases result with
      | ok v => exact .pure trivial
      | error e =>
        cases e with
        | unavailable name => exact .pure trivial
        | _ => exact L.throw hresult
    | _ => exact hplain
  | delete =>
    have hsize := (sizeOf_unwrapped_le e).trans_lt he
    unfold evalUnary
    dsimp only
    cases hunwrapped : e.unwrapped with
    | member obj key =>
      simp only [hunwrapped, Expr.member.sizeOf_spec] at hsize
      refine (hr.expr hs (by omega)).bind fun v _ => ?_
      refine (holds_propertyKey hr hs (by omega)).bind fun key _ => ?_
      exact holds_deleteProperty v key
    | _ => exact .pure trivial
  | _ => exact hplain

theorem holds_evalBinary (op : BinaryOp) {left right : Expr} (hleft : sizeOf left < size)
    (hright : sizeOf right < size) : L.Gives i fun k => evalBinary (R k) s op left right := by
  refine (hr.expr hs hleft).bind fun v hv => ?_
  rcases keepsLeft op v with _ | _ | _
  · exact (hr.expr hs hright).bind fun w hw => holds_binary (holds_hasProperty v hw) op
  · exact hr.expr hs hright
  · exact .pure hv

/-! ### Calls -/

omit hs in
theorem holds_runStmts (hs : L.Free s) {ss : List Stmt} (hss : sizeOf ss ≤ size) :
    L.Gives i fun k => runStmts (R k) s ss := by
  induction ss with
  | nil => exact .pure trivial
  | cons stmt ss ih =>
    simp only [List.cons.sizeOf_spec] at hss
    refine (hr.stmt hs (by omega)).bind fun c hc => ?_
    cases c with
    | normal => exact ih (by omega)
    | _ => exact .pure hc

omit hs in
theorem holds_runCode (hs : L.Free s) {code : FunctionCode} (hcode : sizeOf code ≤ size) :
    L.Gives i fun k => runCode (R k) s (runStmts (R k) s) code := by
  cases code with
  | value e =>
    simp only [FunctionCode.value.sizeOf_spec] at hcode
    exact hr.expr hs.good (by omega)
  | unsupported why => exact .unsupported _
  | block ss =>
    simp only [FunctionCode.block.sizeOf_spec] at hcode
    refine (holds_declareVars (hs.takes _)).bind fun _ _ => (holds_hoist hs ss).bind fun _ _ => ?_
    refine (holds_runStmts hr hs (by omega)).bind fun c hc => ?_
    cases c with
    | returned v => exact .pure hc
    | _ => exact .pure trivial

omit hs in
theorem holds_invoke {self : Value} (hself : L.Good self) {d : Definition}
    (hsize : sizeOf d ≤ size) (hd : L.Good d.scope) {args : List Value} (hargs : L.Good args) :
    L.Gives i fun k => invoke (R k) self d args := by
  rcases d with ⟨name, params, code, scope⟩
  simp only [Definition.mk.sizeOf_spec] at hsize
  refine (holds_child hd).bind fun s hs => ?_
  have hparams : sizeOf params ≤ size := by omega
  have hcode : sizeOf code ≤ size := by omega
  -- Parameters and code are no larger than the definition, for whose size the rules are given.
  have hbody := (holds_bindParams hr hs hparams hargs).bind fun _ _ => holds_runCode hr hs hcode
  cases name with
  | none => exact hbody
  | some name => exact (L.declare true (hs.isOpen name _) hself.some).bind fun _ _ => hbody

omit hr hs in
/-- A call spends a step, after which code of any size may run. -/
theorem holds_callFunction (hlow : ∀ j, L.Below j i → ∀ size, L.Runs j size R) {f : Value}
    (hf : L.Good f) {args : List Value} (hargs : L.Good args) :
    L.Gives i fun k => callFunction (R k) f args := by
  cases f with
  | function id f =>
    cases f with
    | builtin b => exact L.spend fun j hj => holds_callBuiltin (hlow j hj 0) b hargs
    | ofText t m => exact L.spend fun j hj => holds_callText (hlow j hj 0) t m hargs
    | ofArray a m => exact L.spend fun j hj => holds_callList (hlow j hj 0) a m hargs
    | ofNumber x m => exact L.spend fun j _ => holds_callNumber x m args
    | ofObject o m => exact L.spend fun j _ => holds_callObject o m args
    | ofBool b => exact L.spend fun j _ => (L.text (.bool b)).bind fun t _ => .pure trivial
    | defined d => exact L.call fun j hj => holds_invoke (hlow j hj _) hf le_rfl hf hargs
  | _ => exact L.spend fun j _ => (L.text _).bind fun t _ => holds_raise _

theorem holds_evalCall (hcallee : sizeOf callee < size) (hargs : sizeOf args ≤ size) :
    L.Gives i fun k => evalCall (R k) s callee args := by
  have hplain : L.Gives i fun k => (do
      let f ← (R k).expr s callee
      (R k).call f (← evalItems (R k) s args)) :=
    (hr.expr hs hcallee).bind fun f hf => (holds_evalItems hr hs hargs).bind fun vs hvs =>
      hr.call hf hvs
  cases callee with
  | superRef => exact .unsupported _
  | importRef => exact .unsupported _
  | _ => exact hplain

theorem holds_evalConstruct (hcallee : sizeOf callee < size) (hargs : sizeOf args ≤ size) :
    L.Gives i fun k => evalConstruct (R k) s callee args := by
  refine (hr.expr hs hcallee).bind fun f _ => (holds_evalItems hr hs hargs).bind fun vs hvs => ?_
  cases f with
  | function id f =>
    cases f with
    | builtin b =>
      cases b with
      | error kind => exact holds_callBuiltin hr (.error kind) hvs
      | _ => exact .unsupported _
    | _ => exact .unsupported _
  | _ => exact (L.text _).bind fun t _ => holds_raise _

/-- A link of an optional chain that reads a property, after the chain before it. -/
theorem holds_chainMember {obj : Expr} (hobj : L.Gives i fun k => evalChain (R k) s obj)
    (isOptional : Bool) {key : Key} (hkey : sizeOf key ≤ size) :
    L.Gives i fun k => evalChain (R k) s (.chainMember isOptional obj key) := by
  refine hobj.bind fun v hv => ?_
  cases v with
  | none => exact .pure nofun
  | some v =>
    refine .ite (.pure nofun) ((holds_propertyKey hr hs hkey).bind fun key _ => ?_)
    exact (holds_getProperty hr (hv v rfl) key).bind fun v hv => .pure hv.some

/-- A link of an optional chain that calls a function, after the chain before it. -/
theorem holds_chainCall (hcallee : L.Gives i fun k => evalChain (R k) s callee) (isOptional : Bool)
    (hargs : sizeOf args ≤ size) :
    L.Gives i fun k => evalChain (R k) s (.chainCall isOptional callee args) := by
  refine hcallee.bind fun f hf => ?_
  cases f with
  | none => exact .pure nofun
  | some f =>
    refine .ite (.pure nofun) ((holds_evalItems hr hs hargs).bind fun vs hvs => ?_)
    exact (hr.call (hf f rfl) hvs).bind fun v hv => .pure hv.some

theorem holds_evalChain (he : sizeOf e < size) : L.Gives i fun k => evalChain (R k) s e := by
  -- A chain is evaluated from its innermost link on, without a call of a part of evaluation.
  induction e using evalChain.induct with
  | case1 isOptional obj key ih =>
    simp only [Expr.chainMember.sizeOf_spec] at he
    exact holds_chainMember hr hs (ih (by omega)) isOptional (by omega)
  | case2 isOptional callee args ih =>
    simp only [Expr.chainCall.sizeOf_spec] at he
    exact holds_chainCall hr hs (ih (by omega)) isOptional (by omega)
  | case3 e h1 h2 =>
    simp only [evalChain.eq_3 _ _ e h1 h2]
    exact (hr.expr hs he).bind fun v hv => .pure hv.some

/-! ### Expressions -/

theorem holds_evalExpr (he : sizeOf e ≤ size) : L.Gives i fun k => evalExpr (R k) s e := by
  have hchain {x : L.Bound → Eval (Option Value)} (hx : L.Gives i x) :
      L.Gives i fun k => return (← x k).getD .undefined := by
    refine hx.bind fun v hv => ?_
    cases v with
    | none => exact .pure trivial
    | some v => exact .pure (hv v rfl)
  cases e with
  | str t => exact .pure trivial
  | num x => exact .pure trivial
  | bool b => exact .pure trivial
  | null => exact .pure trivial
  | ident id => exact holds_read hr hs id.name
  | template ts es =>
    simp only [Expr.template.sizeOf_spec] at he
    exact (holds_evalTemplate hr hs ts (by omega)).bind fun t _ => .pure trivial
  | array es =>
    simp only [Expr.array.sizeOf_spec] at he
    exact (holds_evalItems hr hs (by omega)).bind fun vs hvs => L.newArray hvs.toArray
  | object ps =>
    simp only [Expr.object.sizeOf_spec] at he
    refine (Judgement.Holds.foldlM ps (fun qs hqs p hp => ?_) nofun).bind fun qs hqs =>
      L.newObject hqs
    have hlt := sizeOf_lt_of_mem hp
    exact holds_evalProperty hr hs hqs (by omega)
  | paren e =>
    simp only [Expr.paren.sizeOf_spec] at he
    exact hr.expr hs (by omega)
  | typed mark e =>
    simp only [Expr.typed.sizeOf_spec] at he
    exact hr.expr hs (by omega)
  | instantiated e =>
    simp only [Expr.instantiated.sizeOf_spec] at he
    exact hr.expr hs (by omega)
  | sequence es =>
    simp only [Expr.sequence.sizeOf_spec] at he
    exact holds_evalSequence hr hs (by omega)
  | cond test yes no =>
    simp only [Expr.cond.sizeOf_spec] at he
    refine (hr.expr hs (by omega)).bind fun v _ => ?_
    exact .ite (hr.expr hs (by omega)) (hr.expr hs (by omega))
  | unary op e =>
    simp only [Expr.unary.sizeOf_spec] at he
    exact holds_evalUnary hr hs op (by omega)
  | update isIncrement isBefore e =>
    simp only [Expr.update.sizeOf_spec] at he
    exact holds_evalUpdate hr hs isIncrement isBefore (by omega)
  | binary op left right =>
    simp only [Expr.binary.sizeOf_spec] at he
    exact holds_evalBinary hr hs op (by omega) (by omega)
  | assign op target e =>
    simp only [Expr.assign.sizeOf_spec] at he
    exact holds_evalAssign hr hs op (by omega) (by omega)
  | member obj key =>
    simp only [Expr.member.sizeOf_spec] at he
    refine (hr.expr hs (by omega)).bind fun v hv => ?_
    exact (holds_propertyKey hr hs (by omega)).bind fun key _ => holds_getProperty hr hv key
  | chainMember isOptional obj key =>
    simp only [Expr.chainMember.sizeOf_spec] at he
    exact hchain (holds_chainMember hr hs (holds_evalChain hr hs (by omega)) isOptional (by omega))
  | chainCall isOptional callee args =>
    simp only [Expr.chainCall.sizeOf_spec] at he
    exact hchain (holds_chainCall hr hs (holds_evalChain hr hs (by omega)) isOptional (by omega))
  | call callee args span =>
    simp only [Expr.call.sizeOf_spec] at he
    exact holds_evalCall hr hs (by omega) (by omega)
  | construct callee args =>
    simp only [Expr.construct.sizeOf_spec] at he
    exact holds_evalConstruct hr hs (by omega) (by omega)
  | func name f => exact holds_newFunc hs _ f
  | arrow params body isAsync => exact holds_newArrow hs params body isAsync
  | _ => exact .unsupported _

end AtomicStyles.Logic
