import AtomicStyles.Proofs.Exceptions

/-!
# Evaluation key by key

The argument of a style call is evaluated key by key if it is an object that is written with plain
keys, so that all keys that fail are known. Apart from that nothing differs from the evaluation of
an expression. Up to the first key that fails the two take the same steps. If there is none, they
make the same object. If there is one, plain evaluation ends with its failure, and evaluation key by
key goes on, to report the very same failure in the end, with that key as the first. Only where a
key after it has no end, there is no end to it either.

Evaluation key by key leaves out the levels of the parentheses and types around the object, and of
the object itself. Depths are compared accordingly.

## Main definitions

* `Eval.StopsAt` — plain evaluation of properties stops at a key.
* `Eval.KeyedAgrees` — evaluation key by key against plain evaluation.

## Main results

* `Eval.evalEach_of_failure` — a failure is kept whatever comes after it.
* `Eval.evalEach_cases` — properties one by one against properties at once.
* `Eval.evalStyles_agrees` — **evaluation key by key agrees with plain evaluation.**
-/

namespace AtomicStyles

open Script Eval
open Coupling (bind_eq_of_ok bind_eq_of_error outcome_eq_of_ok outcome_eq_of_error)

/-! ### Depths -/

/-- The parentheses and types around an expression. -/
def Script.Expr.wrappers : Expr → Nat
  | .paren e => e.wrappers + 1
  | .typed _ e => e.wrappers + 1
  | _ => 0

namespace Eval

/-- The levels that evaluation key by key leaves out. -/
def levels (e : Expr) : Nat := if (plainProperties e).isSome then e.wrappers + 1 else 0

theorem interp_expr_unwrapped (n : Nat) (s : Scope) (e : Expr) :
    (interp (n + e.wrappers)).expr s e = (interp n).expr s e.unwrapped := by
  induction e using Expr.unwrapped.induct with
  | case1 e ih => exact ih
  | case2 t e ih => exact ih
  | case3 e hparen htyped =>
    rw [Expr.unwrapped.eq_3 e hparen htyped, Expr.wrappers.eq_3 e hparen htyped, Nat.add_zero]

/-! ### Properties one by one -/

variable {q : PlainProperty} {m m' : Machine} {error : EvalError} {ps : List Property}
  {qs : List PlainProperty} {e : Expr}

theorem evalProperty_eq {p : Property} (h : PlainProperty.ofProperty? p = some q) (r : Interp)
    (s : Scope) (acc : Properties) :
    evalProperty r s acc p = do return acc.insert q.key (← q.value r s) := by
  unfold PlainProperty.ofProperty? at h
  split at h <;> cases h <;> rfl

variable {r : Interp} {s : Scope}

theorem evalEach_cons_of_ok {v : Value} (h : q.value r s m = .ok v m') (acc : Properties)
    (failure : Option CallFailure) (qs : List PlainProperty) :
    evalEach r s acc failure (q :: qs) m = evalEach r s (acc.insert q.key v) failure qs m' := by
  rw [evalEach, bind_eq_of_ok (outcome_eq_of_ok h)]

theorem evalEach_cons_of_error (h : q.value r s m = .error error m') (acc : Properties)
    (failure : Option CallFailure) (qs : List PlainProperty) :
    evalEach r s acc failure (q :: qs) m =
      if error.isEndless then .error error m'
      else if error.isExhaustion then .ok (.error (.add failure q.key error)) m'
      else evalEach r s acc (some (.add failure q.key error)) qs m' := by
  rw [evalEach, bind_eq_of_ok (outcome_eq_of_error h)]
  dsimp only
  split
  · rfl
  · split <;> rfl

/-- The evaluation of properties reports a failure with that error and that first key, unless it
has no end. -/
def Reports (error : EvalError) (key : String)
    (result : EStateM.Result EvalError Machine (Except CallFailure Properties)) : Prop :=
  (∃ keys m, result = .ok (.error { error, keys := key :: keys }) m) ∨
    ∃ error' m, result = .error error' m ∧ error'.isEndless = true

theorem evalEach_of_failure (error : EvalError) (key : String) (keys : List String)
    (acc : Properties) (qs : List PlainProperty) (m : Machine) :
    Reports error key (evalEach r s acc (some { error, keys := key :: keys }) qs m) := by
  induction qs generalizing acc keys m with
  | nil => exact .inl ⟨keys, m, rfl⟩
  | cons q qs ih =>
    cases hq : q.value r s m with
    | ok v m' =>
      rw [evalEach_cons_of_ok hq]
      exact ih _ _ _
    | error error' m' =>
      rw [evalEach_cons_of_error hq]
      split
      · next hendless => exact .inr ⟨error', m', rfl, hendless⟩
      · split
        · exact .inl ⟨keys ++ [q.key], m', rfl⟩
        · exact ih _ _ _

/-- The first failure is reported with its key. -/
theorem reports_evalEach_cons (h : q.value r s m = .error error m') (acc : Properties)
    (qs : List PlainProperty) : Reports error q.key (evalEach r s acc none (q :: qs) m) := by
  rw [evalEach_cons_of_error h]
  split
  · next hendless => exact .inr ⟨error, m', rfl, hendless⟩
  · split
    · exact .inl ⟨[], m', rfl⟩
    · exact evalEach_of_failure error q.key [] acc qs m'

/-! ### Properties at once -/

/-- Plain evaluation of properties stops at a key: those before it have values, and it fails with
`error` and leaves the machine `m'`. -/
inductive StopsAt (r : Interp) (s : Scope) (error : EvalError) (m' : Machine) (key : String) :
    Properties → List Property → Machine → Prop
  | here {acc : Properties} {p : Property} {ps : List Property} {m : Machine}
      (hkey : (PlainProperty.ofProperty? p).map PlainProperty.key = some key)
      (h : evalProperty r s acc p m = .error error m') : StopsAt r s error m' key acc (p :: ps) m
  | later {acc acc' : Properties} {p : Property} {ps : List Property} {m m₁ : Machine}
      (h : evalProperty r s acc p m = .ok acc' m₁) (hrest : StopsAt r s error m' key acc' ps m₁) :
      StopsAt r s error m' key acc (p :: ps) m

theorem StopsAt.foldlM_eq {key : String} {acc : Properties}
    (h : StopsAt r s error m' key acc ps m) :
    ps.foldlM (evalProperty r s) acc m = .error error m' := by
  induction h with
  | here _ h =>
    rw [List.foldlM_cons]
    exact bind_eq_of_error h
  | later h _ ih =>
    rw [List.foldlM_cons]
    exact (bind_eq_of_ok h).trans ih

/-- **Properties one by one against properties at once.** Both take the same steps up to the first
key that fails. -/
theorem evalEach_cases (h : ps.mapM PlainProperty.ofProperty? = some qs) (acc : Properties)
    (m : Machine) :
    (∃ acc' m', ps.foldlM (evalProperty r s) acc m = .ok acc' m' ∧
      evalEach r s acc none qs m = .ok (.ok acc') m') ∨
    ∃ error m' key, StopsAt r s error m' key acc ps m ∧
      Reports error key (evalEach r s acc none qs m) := by
  induction ps generalizing qs acc m with
  | nil =>
    cases h
    exact .inl ⟨acc, m, rfl, rfl⟩
  | cons p ps ih =>
    rw [List.mapM_cons] at h
    obtain ⟨q, hq, h⟩ := Option.bind_eq_some_iff.1 h
    obtain ⟨qs, hqs, h⟩ := Option.bind_eq_some_iff.1 h
    cases h
    have heq := evalProperty_eq hq r s acc
    -- the value of the property decides on the next step of both
    cases hvalue : q.value r s m with
    | ok v m₁ =>
      have hp : evalProperty r s acc p m = .ok (acc.insert q.key v) m₁ := by
        rw [heq]
        exact bind_eq_of_ok hvalue
      rw [evalEach_cons_of_ok hvalue]
      rcases ih hqs (acc.insert q.key v) m₁ with
        ⟨acc', m', hfold, heach⟩ | ⟨error, m', key, hstops, heach⟩
      · refine .inl ⟨acc', m', ?_, heach⟩
        rw [List.foldlM_cons]
        exact (bind_eq_of_ok hp).trans hfold
      · exact .inr ⟨error, m', key, .later hp hstops, heach⟩
    | error error m₁ =>
      have hp : evalProperty r s acc p m = .error error m₁ := by
        rw [heq]
        exact bind_eq_of_error hvalue
      exact .inr ⟨error, m₁, q.key, .here (by rw [hq]; rfl) hp, reports_evalEach_cons hvalue acc qs⟩

/-! ### The argument of a style call -/

/-- Evaluation key by key against plain evaluation: same values, same failures, and the first key
that is reported is the one at which plain evaluation stops. -/
structure KeyedAgrees (n : Nat) (s : Scope) (e : Expr) (m : Machine) : Prop where
  value : ∀ v m', evalStyles (interp n) s e m = .ok (.ok v) m' ↔
    (interp (n + levels e)).expr s e m = .ok v m'
  failure : ∀ f m', evalStyles (interp n) s e m = .ok (.error f) m' →
    ∃ m₁, (interp (n + levels e)).expr s e m = .error f.error m₁ ∧
      (f.keys = [] ↔ plainProperties e = none) ∧
      ∀ key ∈ f.keys.head?, ∃ ps, e.unwrapped = .object ps ∧
        StopsAt (interp n) s f.error m₁ key {} ps m
  /-- A failure of plain evaluation is found, unless a key after it has no end. -/
  failed : ∀ error m₁, (interp (n + levels e)).expr s e m = .error error m₁ →
    (∃ f m', evalStyles (interp n) s e m = .ok (.error f) m' ∧ f.error = error) ∨
      ∃ error' m', evalStyles (interp n) s e m = .error error' m' ∧ error'.isEndless = true

theorem KeyedAgrees.of_ok {n : Nat} {s : Scope} {v : Value}
    (hkeyed : evalStyles (interp n) s e m = .ok (.ok v) m')
    (hplain : (interp (n + levels e)).expr s e m = .ok v m') : KeyedAgrees n s e m := by
  constructor <;> simp [hkeyed, hplain]

theorem keyedAgrees_of_none (h : plainProperties e = none) (n : Nat) (s : Scope) (m : Machine) :
    KeyedAgrees n s e m := by
  have hlevels : levels e = 0 := by simp [levels, h]
  have hkeyed : evalStyles (interp n) s e = asFailure ((interp n).expr s e) := by
    rw [evalStyles, h]
  cases hexpr : (interp n).expr s e m with
  | ok v m₁ =>
    refine .of_ok ?_ (by rwa [hlevels])
    rw [hkeyed, asFailure, bind_eq_of_ok (outcome_eq_of_ok hexpr)]
    rfl
  | error error m₁ =>
    have hresult : evalStyles (interp n) s e m = .ok (.error { error }) m₁ := by
      rw [hkeyed, asFailure, bind_eq_of_ok (outcome_eq_of_error hexpr)]
      rfl
    constructor <;> simp [hlevels, hexpr, hresult, h]

/-- What plain evaluation does with an object, at the depth at which its properties are evaluated
key by key. -/
theorem interp_expr_object (h : e.unwrapped = .object ps) (n : Nat) (s : Scope) :
    (interp (n + (e.wrappers + 1))).expr s e =
      (do newObject (← ps.foldlM (evalProperty (interp n) s) {})) := by
  rw [← Nat.add_assoc, Nat.add_right_comm, interp_expr_unwrapped, h]
  rfl

theorem exists_object_of_plainProperties (h : plainProperties e = some qs) :
    ∃ ps, e.unwrapped = .object ps ∧ ps.mapM PlainProperty.ofProperty? = some qs := by
  unfold plainProperties at h
  split at h
  · next ps hps => exact ⟨ps, hps, h⟩
  · cases h

theorem keyedAgrees_of_some (h : plainProperties e = some qs) (n : Nat) (s : Scope) (m : Machine) :
    KeyedAgrees n s e m := by
  have hlevels : levels e = e.wrappers + 1 := by simp [levels, h]
  obtain ⟨ps, hps, hqs⟩ := exists_object_of_plainProperties h
  have hplain := interp_expr_object hps n s
  rw [← hlevels] at hplain
  rcases evalEach_cases hqs {} m with ⟨acc, m₁, hfold, heach⟩ | ⟨error, m₁, key, hstops, hreports⟩
  · -- all keys have values, and both make the object last
    obtain ⟨v, m₂, hnew⟩ : ∃ v m₂, newObject acc m₁ = .ok v m₂ := ⟨_, _, rfl⟩
    refine .of_ok ?_ (by rw [hplain, bind_eq_of_ok hfold, hnew])
    rw [evalStyles, h]
    exact (bind_eq_of_ok heach).trans (bind_eq_of_ok hnew)
  · -- plain evaluation ends here, and `m₁` is where it leaves the machine
    have hexpr : (interp (n + levels e)).expr s e m = .error error m₁ := by
      rw [hplain, bind_eq_of_error hstops.foldlM_eq]
    rcases hreports with ⟨keys, m₂, heach⟩ | ⟨error', m₂, heach, hendless⟩
    · have hresult : evalStyles (interp n) s e m =
          .ok (.error { error, keys := key :: keys }) m₂ := by
        rw [evalStyles, h]
        exact bind_eq_of_ok heach
      refine ⟨by simp [hresult, hexpr], ?_, by simp [hresult, hexpr]⟩
      intro f m' hf
      cases hresult.symm.trans hf
      refine ⟨m₁, hexpr, by simp [h], fun k hk => ?_⟩
      cases hk
      exact ⟨ps, hps, hstops⟩
    · have hresult : evalStyles (interp n) s e m = .error error' m₂ := by
        rw [evalStyles, h]
        exact bind_eq_of_error heach
      constructor <;> simp [hresult, hexpr, hendless]

/-- **Evaluation key by key agrees with plain evaluation:** it gives a value exactly if plain
evaluation does, the same one on the same machine, and fails as plain evaluation does. -/
theorem evalStyles_agrees (n : Nat) (s : Scope) (e : Expr) (m : Machine) : KeyedAgrees n s e m := by
  cases h : plainProperties e with
  | none => exact keyedAgrees_of_none h n s m
  | some qs => exact keyedAgrees_of_some h n s m

/-- `({ a: 1, b: this, c: /x/ })`: plain evaluation stops at the second key, and the third one is
reported as well. -/
theorem evalStyles_agrees_two_failures : ∃ m',
    evalStyles (interp 5) { module := "/unit" } (.paren (.object [.keyValue (.name "a") (.num 1),
      .keyValue (.name "b") .this, .keyValue (.name "c") .regex])) idle =
        .ok (.error { error := .unsupported .this, keys := ["b", "c"] }) m' ∧
    KeyedAgrees 5 { module := "/unit" } (.paren (.object [.keyValue (.name "a") (.num 1),
      .keyValue (.name "b") .this, .keyValue (.name "c") .regex])) idle :=
  ⟨_, rfl, evalStyles_agrees 5 _ _ idle⟩

end Eval
end AtomicStyles
