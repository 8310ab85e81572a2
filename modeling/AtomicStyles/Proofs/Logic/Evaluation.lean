import AtomicStyles.Proofs.Logic.Machine
import AtomicStyles.Proofs.Logic.Modules

/-!
# Evaluation under a lax calculus

Under a calculus that keeps nothing out evaluation as a whole has its rule: by induction on how
deep its parts call each other. Beyond the operations on the machine only one computation is asked
about, the evaluation of a declaration.

## Main definitions

* `Interp.next` — the parts of evaluation that call given ones.
* `Calculus.Lax.Forces` — the rule for the evaluation of declarations.

## Main results

* `Calculus.Lax.runs` — **evaluation under a lax calculus.**
* `Calculus.Lax.holds_callValue` — style calls.
-/

namespace AtomicStyles

open Script Eval

/-- The parts of evaluation that call the given ones. -/
def Interp.next (r : Interp) : Interp where
  expr := evalExpr r
  stmt := runStmt r
  bind := bindPattern r
  call := callFunction r
  topLevel := topLevelValue r
  exported := exportValue r

namespace Calculus.Lax

variable {L : Calculus} (hL : L.Lax) {i : L.Index} {R : L.Bound → Interp}

/-- The evaluation of declarations has its rule, with the given parts. -/
def Forces (_ : L.Lax) (R : L.Bound → Interp) : Prop :=
  ∀ {i id t} name, L.Table id t →
    L.Holds i (fun _ => True) fun k => forceDeclaration (R k) id t name

section Parts

variable (hr : ∀ i size, hL.logic.Runs i size R)

include hr

/-- Where all names may be declared, it has if what is done once does. -/
theorem forces_of_evalOnce (isOpen : ∀ s name hasValue, L.Open s name hasValue)
    (evalOnce : ∀ {i} id name {x : L.Bound → Eval (List String)},
      (∀ j, L.Holds j (fun _ => True) x) →
        L.Holds i (fun _ => True) fun k => evalOnce id name (x k)) : hL.Forces R :=
  fun name _ => evalOnce _ name fun j => (Logic.holds_evalDeclaration (hr j) (hL.good _)
    fun _ _ => isOpen _ _ _).mono fun _ _ => trivial

theorem holds_importValue (importer : ModuleId) (im : Import) :
    L.Gives i fun k => importValue (R k) importer im :=
  Logic.holds_importValue (L := hL.logic) (fun _ _ => hL.known _)
    (fun target name _ _ => (hr i 0).exported name (hL.known target)) importer

theorem holds_searchExport (name : String) (fuel : Nat) (id : ModuleId)
    (visited : List ModuleId) :
    L.Holds i (fun _ => True) fun k => searchExport (R k) name fuel id visited := by
  induction fuel generalizing id visited with
  | zero => exact .pure trivial
  | succ fuel ih =>
    refine .ite (.pure trivial) ((hL.tables id).outcome.bind fun result _ => ?_)
    cases result with
    | error e => exact .pure trivial
    | ok t =>
      refine Judgement.Holds.mono (Logic.holds_searchTables (L := hL.logic) (V := fun _ => True)
        (fun own _ => (hr i 0).topLevel own (hL.known id))
        (fun im _ => hL.holds_importValue hr id im) (fun _ _ _ _ target _ visited _ => ?_)
        trivial) fun _ _ => trivial
      exact (ih target visited).mono fun r _ => ⟨hL.good r.1, trivial⟩

variable (hforce : hL.Forces R)

include hforce

theorem holds_topLevelValue (id : ModuleId) (name : String) :
    L.Gives i fun k => topLevelValue (R k) id name :=
  Logic.holds_topLevelValue (L := hL.logic) (fun j _ => hr j) (hL.known id)
    (fun _ ht _ => hL.holds_good (hforce name ht)) fun _ im _ _ _ => hL.holds_importValue hr id im

/-- The parts that call those with rules have rules. -/
theorem runs_next (i : L.Index) (size : Nat) : hL.logic.Runs i size fun k => (R k).next where
  expr hs _ := Logic.holds_evalExpr (hr i _) hs le_rfl
  stmt hs _ := Logic.holds_runStmt (hr i _) hs le_rfl
  bind kind _ _ hs _ hv := Logic.holds_bindPattern (hr i _) kind hs le_rfl hv
  call hf hargs := Logic.holds_callFunction (fun j _ => hr j) hf hargs
  topLevel name _ := hL.holds_topLevelValue hr hforce _ name
  exported name _ := hL.nesting.bind fun fuel _ =>
    (hL.holds_searchExport hr name fuel _ []).bind fun r _ => .conclude (hL.good r.1)
  assigned _ _ hv := (hL.holds_topLevelValue hr hforce _ _).bind fun _ _ =>
    Logic.holds_writeOr (L := hL.logic) (L.throw (hL.fair _)) _ _ hv

theorem holds_callValue (argument : Expr) {needed : List BindingKey}
    (hbodies : ∀ id, .body id ∈ needed → L.Runnable id) :
    L.Gives i fun k => callValue (R k) argument needed :=
  Logic.holds_callValue (L := hL.logic) (fun j _ => hr j) (hr i)
    (fun id name _ => hL.holds_topLevelValue hr hforce id name) argument
    (fun _ _ => hL.known _) hbodies

end Parts

/-- Evaluation has its rule, however deep its parts call each other: the step leads from parts with
rules to the next ones. -/
theorem runs {R : Nat → L.Bound → Interp} (hzero : ∀ k, R 0 k = .endless)
    (hsucc : ∀ n i size, hL.logic.Runs i size (fun k => (R n k).next) →
      hL.logic.Runs i size (R (n + 1)))
    (hforce : ∀ n, (∀ k ≤ n, ∀ i size, hL.logic.Runs i size (R k)) → hL.Forces (R n))
    (n : Nat) : ∀ i size, hL.logic.Runs i size (R n) := by
  induction n using Nat.strong_induction_on with
  | _ n ih =>
    cases n with
    | zero =>
      intro i size
      have hendless {α : Type} [Held α] : L.Gives i fun _ => (throw .endless : Eval α) :=
        L.throw (hL.fair _)
      simp only [funext hzero]
      exact
        { expr := fun _ _ => hendless
          stmt := fun _ _ => hendless
          bind := fun _ _ _ _ _ _ => hendless
          call := fun _ _ => hendless
          topLevel := fun _ _ => hendless
          exported := fun _ _ => hendless
          assigned := fun _ _ _ => hendless }
    | succ n =>
      have hr (k : Nat) (hk : k ≤ n) := ih k (Nat.lt_succ_of_le hk)
      exact fun i size => hsucc n i size (hL.runs_next (hr n le_rfl) (hforce n hr) i size)

/-- The same of evaluation itself. -/
theorem runs_interp (hforce : ∀ n, (∀ k ≤ n, ∀ i size, hL.logic.Runs i size fun _ => interp k) →
    hL.Forces fun _ => interp n) (n : Nat) (i : L.Index) (size : Nat) :
    hL.logic.Runs i size fun _ => interp n :=
  hL.runs (R := fun n _ => interp n) (fun _ => rfl) (fun _ _ _ h => h) hforce n i size

end Calculus.Lax
end AtomicStyles
