import AtomicStyles.Proofs.Logic.Code

/-!
# Rules for statements

Declarations, blocks, loops, exceptions and with them all statements, once the parts of
evaluation on smaller code have their rules.

## Main results

* `Logic.holds_runTry` — exceptions.
* `Logic.holds_runStmt` — statements.
-/

namespace AtomicStyles.Logic

open Script Eval List

variable {L : Logic} {i : L.Index} {size : Nat} {R : L.Bound → Interp} (hr : L.Runs i size R)
  {s : Scope} (hs : L.Good s)

include hr hs

/-! ### Declarations -/

theorem holds_memberValue (next : Option Float) {init : Option Expr} (hinit : sizeOf init ≤ size) :
    L.Gives i fun k => memberValue (R k) s next init := by
  cases init with
  | some e =>
    simp only [Option.some.sizeOf_spec] at hinit
    exact hr.expr hs (by omega)
  | none =>
    cases next with
    | some x => exact .pure trivial
    | none => exact .unsupported _

omit hr hs in
theorem sizeOf_init_lt (member : EnumMember) : sizeOf member.init < sizeOf member := by
  cases member with
  | named id init =>
    simp only [EnumMember.init, EnumMember.named.sizeOf_spec]
    omega
  | quoted s init =>
    simp only [EnumMember.init, EnumMember.quoted.sizeOf_spec]
    omega

omit hs in
theorem holds_enumMembers (hs : L.Free s) (next : Option Float) {ps : Properties} (hps : L.Good ps)
    {members : List EnumMember} (hmembers : sizeOf members ≤ size) :
    L.Gives i fun k => enumMembers (R k) s next ps members := by
  induction members generalizing next ps with
  | nil => exact .pure hps
  | cons member members ih =>
    simp only [List.cons.sizeOf_spec] at hmembers
    have hinit := sizeOf_init_lt member
    refine (holds_memberValue hr hs.good next (by omega)).bind fun v hv => ?_
    refine (L.declare false (hs.isOpen member.text _) hv.some).bind fun _ _ => ?_
    have hps' : L.Good (ps.insert member.text v) := hps.insert member.text hv
    cases v with
    | number x => exact ih _ (hps'.insert (Decimal.text x) (b := .string _) trivial) (by omega)
    | _ => exact ih _ hps' (by omega)

theorem holds_evalEnum {members : List EnumMember} (hmembers : sizeOf members ≤ size) :
    L.Gives i fun k => evalEnum (R k) s members := by
  have hempty : L.Good ({} : Properties) := nofun
  refine (holds_child hs).bind fun inner hinner => ?_
  exact (holds_enumMembers hr hinner (some 0.0) hempty hmembers).bind fun ps hps => L.newObject hps

omit hs in
theorem holds_runDeclarators (hs : L.Free s) (kind : VarKind) {ds : List Declarator}
    (hds : sizeOf ds ≤ size) :
    L.Gives i fun k => runDeclarators (R k) s kind ds := by
  refine .forM ds fun d hd => ?_
  have hlt := sizeOf_lt_of_mem hd
  obtain ⟨p, init⟩ := d
  simp only [Declarator.mk.sizeOf_spec] at hlt
  cases init with
  | some e =>
    simp only [Option.some.sizeOf_spec] at hlt
    refine (hr.expr hs.good (by omega)).bind fun v hv => ?_
    exact hr.bind _ (hs.takes p.names) (p := p) (by omega) hv
  | none =>
    cases kind with
    | var => exact .pure trivial
    | _ => exact hr.bind _ (hs.takes p.names) (p := p) (v := .undefined) (by omega) trivial

omit hs in
theorem holds_runDecl (hs : L.Free s) {d : Decl} (hd : sizeOf d ≤ size) :
    L.Gives i fun k => runDecl (R k) s d := by
  cases d with
  | var kind ds isDeclare =>
    simp only [Decl.var.sizeOf_spec] at hd
    cases isDeclare with
    | false => exact holds_runDeclarators hr hs kind (by omega)
    | true => exact .pure trivial
  | enum id members isDeclare =>
    simp only [Decl.enum.sizeOf_spec] at hd
    cases isDeclare with
    | false =>
      refine (holds_evalEnum hr hs.good (by omega)).bind fun v hv => ?_
      exact L.declare false (hs.isOpen _ _) hv.some
    | true => exact .pure trivial
  | cls id c isDeclare =>
    cases isDeclare with
    | false => exact .unsupported _
    | true => exact .pure trivial
  | «using» ds => exact .unsupported _
  | _ => exact .pure trivial

/-! ### Blocks and loops -/

theorem holds_runBlock {ss : List Stmt} (hss : sizeOf ss ≤ size) :
    L.Gives i fun k => runBlock (R k) s ss :=
  (holds_child hs).bind fun _ hinner =>
    (holds_hoist hinner ss).bind fun _ _ => holds_runStmts hr hinner hss

theorem holds_runBody {b : Body} (hb : sizeOf b ≤ size) :
    L.Gives i fun k => runBody (R k) s b := by
  cases b with
  | block ss =>
    simp only [Body.block.sizeOf_spec] at hb
    exact holds_runBlock hr hs (by omega)
  | _ => exact .pure trivial

omit hr hs in
theorem holds_afterBody {σ : Type} {P : σ → Prop} {next : L.Bound → Eval (Turn σ)}
    (h : L.Holds i (Turn.Meets P L.Good) next) {c : Completion} (hc : L.Good c) :
    L.Holds i (Turn.Meets P L.Good) fun k => afterBody c (next k) := by
  cases c with
  | normal => exact h
  | continued => exact h
  | broke => exact .pure trivial
  | returned v => exact .pure hc

omit hs in
theorem holds_runWhile (hs : L.Free s) {test : Expr} (htest : sizeOf test < size) {body : Stmt}
    (hbody : sizeOf body < size) : L.Gives i fun k => runWhile (R k) s test body := by
  refine L.turns (P := fun _ => True) (fun _ _ => ?_) trivial
  refine (hr.expr hs.good htest).bind fun v _ => .ite ?_ (.pure trivial)
  have hnext : L.Holds i (Turn.Meets (fun _ => True) L.Good) fun _ =>
      (pure (.next ()) : Eval (Turn Unit)) := .pure trivial
  exact (hr.stmt hs hbody).bind fun c hc => holds_afterBody hnext hc

omit hs in
theorem holds_runDo (hs : L.Free s) {body : Stmt} (hbody : sizeOf body < size) {test : Expr}
    (htest : sizeOf test < size) : L.Gives i fun k => runDo (R k) s body test := by
  refine L.turns (P := fun _ => True) (fun _ _ => (hr.stmt hs hbody).bind fun c hc => ?_) trivial
  refine holds_afterBody ((hr.expr hs.good htest).bind fun v _ => .pure ?_) hc
  split <;> trivial

omit hr in
theorem holds_nextScope {current : Scope} (hcurrent : L.Free current) (names : List Ident) :
    L.Holds i L.Free fun _ => nextScope s current names := by
  refine .ite (.pure hcurrent) ((holds_child hs).bind fun next hnext => ?_)
  refine (Judgement.Holds.forM names fun id _ => ?_).bind fun _ _ => .pure hnext
  refine (L.ownSlot current id.name).bind fun slot hslot => ?_
  cases slot with
  | none => exact .pure trivial
  | some slot => exact L.declare slot.isMutable (hnext.isOpen id.name _) (hslot slot rfl)

omit hs in
theorem holds_runForInit (hs : L.Free s) {init : Option Stmt} (hinit : sizeOf init ≤ size) :
    L.Gives i fun k => runForInit (R k) s init := by
  have hplain (names : List Ident) : L.Good names := fun _ _ => trivial
  cases init with
  | none => exact .pure (hplain _)
  | some stmt =>
    simp only [Option.some.sizeOf_spec] at hinit
    cases stmt with
    | decl d =>
      simp only [Stmt.decl.sizeOf_spec] at hinit
      exact (holds_runDecl hr hs (by omega)).bind fun _ _ => .pure (hplain _)
    | expr e span =>
      simp only [Stmt.expr.sizeOf_spec] at hinit
      exact (hr.expr hs.good (by omega)).bind fun _ _ => .pure (hplain _)
    | _ => exact .pure (hplain _)

theorem holds_testHolds {test : Option Expr} (htest : sizeOf test ≤ size) :
    L.Gives i fun k => testHolds (R k) s test := by
  cases test with
  | some e =>
    simp only [Option.some.sizeOf_spec] at htest
    exact (hr.expr hs (by omega)).bind fun v _ => .pure trivial
  | none => exact .pure trivial

theorem holds_runUpdate {update : Option Expr} (hupdate : sizeOf update ≤ size) :
    L.Gives i fun k => runUpdate (R k) s update := by
  cases update with
  | some e =>
    simp only [Option.some.sizeOf_spec] at hupdate
    exact (hr.expr hs (by omega)).bind fun _ _ => .pure trivial
  | none => exact .pure trivial

theorem holds_runFor {init : Option Stmt} (hinit : sizeOf init ≤ size) {test update : Option Expr}
    (htest : sizeOf test ≤ size) (hupdate : sizeOf update ≤ size) {body : Stmt}
    (hbody : sizeOf body < size) :
    L.Gives i fun k => runFor (R k) s init test update body := by
  refine (holds_child hs).bind fun first hfirst => ?_
  refine (holds_runForInit hr hfirst hinit).bind fun names _ => ?_
  refine L.turns (fun current hcurrent => ?_) hfirst
  refine (holds_testHolds hr hcurrent.good htest).bind fun b _ => .ite ?_ (.pure trivial)
  refine (hr.stmt hcurrent hbody).bind fun c hc => holds_afterBody ?_ hc
  refine (holds_nextScope hs hcurrent names).bind fun next hnext => ?_
  exact (holds_runUpdate hr hnext.good hupdate).bind fun _ _ => .pure hnext

omit hs in
theorem holds_bindHead (hs : L.Free s) (head : ForHead) {p : Pat} (hp : sizeOf p < size)
    {v : Value} (hv : L.Good v) : L.Gives i fun k => bindHead (R k) s head p v := by
  cases head with
  | decl kind => exact hr.bind _ (hs.takes _) hp hv
  | «using» => exact .unsupported _
  | assign =>
    cases p with
    | ident id => exact holds_write hr hs.good id.name hv
    | expr e =>
      simp only [Pat.expr.sizeOf_spec] at hp
      refine (holds_place hr hs.good (by omega)).bind fun target _ => ?_
      exact holds_writePlace hr hs.good target hv
    | _ => exact .unsupported _

theorem holds_runEach (head : ForHead) {p : Pat} (hp : sizeOf p < size) {body : Stmt}
    (hbody : sizeOf body < size) {vs : List Value} (hvs : L.Good vs) :
    L.Gives i fun k => runEach (R k) s head p body vs := by
  induction vs with
  | nil => exact .pure trivial
  | cons v vs ih =>
    obtain ⟨hv, hvs⟩ := hvs.of_cons
    refine L.tick.bind fun _ _ => (holds_child hs).bind fun inner hinner => ?_
    refine (holds_bindHead hr hinner head hp hv).bind fun _ _ => ?_
    refine (hr.stmt hinner hbody).bind fun c hc => ?_
    cases c with
    | broke => exact .pure trivial
    | returned v => exact .pure hc
    | _ => exact ih hvs

/-! ### Exceptions -/

omit hr hs

theorem holds_describe (v : Value) : L.Gives i fun _ => describe v := by
  have htext := L.text (i := i) v
  cases v with
  | object o =>
    refine (L.properties o).bind fun ps _ => ?_
    cases ps.get? "message" with
    | none => exact htext
    | some message =>
      cases ps.get? "name" with
      | none => exact (L.text message).bind fun t _ => .pure trivial
      | some name =>
        exact (L.text name).bind fun n _ => (L.text message).bind fun t _ => .pure trivial
  | _ => exact htext

theorem holds_throwValue {α : Type} {Q : α → Prop} {v : Value} (hv : L.Good v) :
    L.Holds i Q fun _ => throwValue v :=
  (holds_describe v).bind fun _ _ => (L.setException hv.some).bind fun _ _ => .throw nofun

theorem holds_caught (e : EvalError) : L.Gives i fun _ => caught e := by
  refine L.exception.bind fun v hv => ?_
  cases e with
  | thrown description =>
    cases v with
    | none => exact holds_newError _ _
    | some v => exact (L.setException (v := none) nofun).bind fun _ _ => .pure (hv v rfl)
  | type fault => exact holds_newError _ _
  | _ => exact holds_newError _ _

include hr hs

omit hs in
theorem holds_bindCaught (hs : L.Free s) {v : Value} (hv : L.Good v) {p : Pat}
    (hp : sizeOf p < size) : L.Gives i fun k => bindCaught (R k) s v p := by
  have hplain := hr.bind .lexical (hs.takes p.names) hp hv
  cases p with
  | hole => exact .pure trivial
  | _ => exact hplain

theorem holds_handle {param : Pat} (hparam : sizeOf param < size) {handler : Body}
    (hhandler : sizeOf handler ≤ size) {result : Except EvalError Completion}
    (hresult : L.Good result) :
    L.Gives i fun k => handle (R k) s param handler result := by
  cases result with
  | ok c => exact .pure hresult
  | error e =>
    cases handler with
    | block hs' =>
      simp only [Body.block.sizeOf_spec] at hhandler
      refine .ite ((holds_caught e).bind fun v hv => ?_) (.pure hresult)
      refine (holds_child hs).bind fun inner hinner => ?_
      refine (holds_bindCaught hr hinner hv hparam).bind fun _ _ => ?_
      exact (holds_runBlock hr hinner.good (by omega)).outcome
    | _ => exact .pure hresult

theorem holds_finalize {finalizer : Body} (hfinalizer : sizeOf finalizer ≤ size)
    {result : Except EvalError Completion} (hresult : L.Good result) :
    L.Gives i fun k => finalize (R k) s finalizer result := by
  refine .ite (.conclude hresult) ((holds_runBody hr hs hfinalizer).bind fun c hc => ?_)
  cases c with
  | normal => exact .conclude hresult
  | _ => exact .pure hc

theorem holds_runTry {ss : List Stmt} (hss : sizeOf ss ≤ size) {param : Pat}
    (hparam : sizeOf param < size) {handler finalizer : Body} (hhandler : sizeOf handler ≤ size)
    (hfinalizer : sizeOf finalizer ≤ size) :
    L.Gives i fun k => runTry (R k) s ss param handler finalizer := by
  refine (holds_runBlock hr hs hss).outcome.bind fun result hresult => ?_
  refine (holds_handle hr hs hparam hhandler hresult).bind fun result hresult => ?_
  exact holds_finalize hr hs hfinalizer hresult

/-! ### Choice -/

/-- The clauses that a choice leads to are some of those that it chooses from. -/
theorem holds_matchingCases (v : Value) {cs : List Case} (hcs : sizeOf cs ≤ size) :
    L.Holds i (fun start => ∀ cs' ∈ start, cs' ⊆ cs) fun k => matchingCases (R k) s v cs := by
  induction cs with
  | nil => exact .pure nofun
  | cons c cs ih =>
    obtain ⟨test, ss⟩ := c
    simp only [List.cons.sizeOf_spec, Case.mk.sizeOf_spec] at hcs
    have hrest : L.Holds i (fun start => ∀ cs' ∈ start, cs' ⊆ Case.mk test ss :: cs)
        fun k => matchingCases (R k) s v cs :=
      (ih (by omega)).mono fun _ h cs' hcs' =>
        List.Subset.trans (h cs' hcs') (subset_cons_self _ _)
    cases test with
    | none => exact hrest
    | some e =>
      simp only [Option.some.sizeOf_spec] at hcs
      refine (hr.expr hs (by omega)).bind fun w _ => .ite (.pure ?_) hrest
      rintro _ ⟨rfl⟩
      exact List.Subset.refl _

omit hs in
theorem holds_runCases (hs : L.Free s) {cs : List Case} (hcs : ∀ c ∈ cs, sizeOf c ≤ size) :
    L.Gives i fun k => runCases (R k) s cs := by
  induction cs with
  | nil => exact .pure trivial
  | cons c cs ih =>
    obtain ⟨test, ss⟩ := c
    obtain ⟨hfirst, hrest⟩ := forall_mem_cons.1 hcs
    simp only [Case.mk.sizeOf_spec] at hfirst
    have hss : sizeOf ss ≤ size := by omega
    refine (holds_runStmts hr hs hss).bind fun c hc => ?_
    cases c with
    | normal => exact ih hrest
    | broke => exact .pure trivial
    | _ => exact .pure hc

theorem holds_runSwitch {e : Expr} (he : sizeOf e < size) {cases : List Case}
    (hcases : sizeOf cases ≤ size) :
    L.Gives i fun k => runSwitch (R k) s e cases := by
  refine (hr.expr hs he).bind fun v _ => ?_
  refine (holds_matchingCases hr hs v hcases).bind fun start hstart => ?_
  have hsub : start.getD (defaultCases cases) ⊆ cases := by
    cases start with
    | none => exact (dropWhile_sublist _).subset
    | some cs => exact hstart cs rfl
  refine .ite (.pure trivial) ((holds_child hs).bind fun inner hinner => ?_)
  refine (Judgement.Holds.forM cases fun c _ => holds_hoist hinner c.stmts).bind fun _ _ => ?_
  refine holds_runCases hr hinner fun c hc => ?_
  have hlt := sizeOf_lt_of_mem (hsub hc)
  omega

/-! ### Statements -/

omit hs in
theorem holds_runStmt (hs : L.Free s) {stmt : Stmt} (hstmt : sizeOf stmt ≤ size) :
    L.Gives i fun k => runStmt (R k) s stmt := by
  refine L.tick.bind fun _ _ => ?_
  cases stmt with
  | expr e span =>
    simp only [Stmt.expr.sizeOf_spec] at hstmt
    exact (hr.expr hs.good (by omega)).bind fun _ _ => .pure trivial
  | decl d =>
    simp only [Stmt.decl.sizeOf_spec] at hstmt
    exact (holds_runDecl hr hs (by omega)).bind fun _ _ => .pure trivial
  | block ss =>
    simp only [Stmt.block.sizeOf_spec] at hstmt
    exact holds_runBlock hr hs.good (by omega)
  | empty => exact .pure trivial
  | debugger => exact .pure trivial
  | ret e =>
    cases e with
    | none => exact .pure trivial
    | some e =>
      simp only [Stmt.ret.sizeOf_spec, Option.some.sizeOf_spec] at hstmt
      exact (hr.expr hs.good (by omega)).bind fun v hv => .pure hv
  | ifElse test yes no =>
    simp only [Stmt.ifElse.sizeOf_spec] at hstmt
    refine (hr.expr hs.good (by omega)).bind fun v _ => .ite (hr.stmt hs (by omega)) ?_
    cases no with
    | some no =>
      simp only [Option.some.sizeOf_spec] at hstmt
      exact hr.stmt hs (by omega)
    | none => exact .pure trivial
  | breakTo label =>
    cases label with
    | none => exact .pure trivial
    | some label => exact .unsupported _
  | continueTo label =>
    cases label with
    | none => exact .pure trivial
    | some label => exact .unsupported _
  | labeled label body => exact .unsupported _
  | throwing e =>
    simp only [Stmt.throwing.sizeOf_spec] at hstmt
    exact (hr.expr hs.good (by omega)).bind fun v hv => holds_throwValue hv
  | tryCatch ss param handler finalizer =>
    simp only [Stmt.tryCatch.sizeOf_spec] at hstmt
    exact holds_runTry hr hs.good (by omega) (by omega) (by omega) (by omega)
  | whileLoop test body =>
    simp only [Stmt.whileLoop.sizeOf_spec] at hstmt
    exact holds_runWhile hr hs (by omega) (by omega)
  | doLoop body test =>
    simp only [Stmt.doLoop.sizeOf_spec] at hstmt
    exact holds_runDo hr hs (by omega) (by omega)
  | forLoop init test update body =>
    simp only [Stmt.forLoop.sizeOf_spec] at hstmt
    exact holds_runFor hr hs.good (by omega) (by omega) (by omega) (by omega)
  | forOf head p e body isAwait =>
    simp only [Stmt.forOf.sizeOf_spec] at hstmt
    refine .ite (.unsupported _) ((hr.expr hs.good (by omega)).bind fun v hv => ?_)
    refine (holds_iterate hv).bind fun vs hvs => ?_
    exact holds_runEach hr hs.good head (by omega) (by omega) hvs
  | forIn head p e body =>
    simp only [Stmt.forIn.sizeOf_spec] at hstmt
    refine (hr.expr hs.good (by omega)).bind fun v hv => (holds_entries hr hv).bind fun es _ => ?_
    refine holds_runEach hr hs.good head (by omega) (by omega) fun v hv => ?_
    obtain ⟨e, _, rfl⟩ := mem_map.1 hv
    trivial
  | switch e cases =>
    simp only [Stmt.switch.sizeOf_spec] at hstmt
    exact holds_runSwitch hr hs.good (by omega) (by omega)

end AtomicStyles.Logic
