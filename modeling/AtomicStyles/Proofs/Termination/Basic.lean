import AtomicStyles.Proofs.Coupling.Loading
import AtomicStyles.Proofs.Ending
import AtomicStyles.Proofs.Starts

/-!
# Computations that end

Evaluation is bounded twice: its parts call each other less deep than a given depth, and the
machine says how deep searches may nest. A computation ends if it comes to one and the same
result under all bounds that are large enough, so that no bound is what ended it.

What makes evaluation end is used up by it: the steps that are left, and the keys whose
evaluation has not begun. Both only ever get fewer. Besides, the machine holds on to nothing
but modules of a finite collection, whose keys are finitely many, and to no failure that says
that a bound was met.

## Main definitions

* `Settles` — the result of a computation under all large bounds.
* `Sound` — a machine that holds on to the modules of a collection only.
* `Onward` — a machine that comes later in a run.
* `cost` — what can still be used up.
* `Ends` — a computation that ends on every sound machine of a cost.

## Main results

* `Onward.cost_lt_of_started` — to begin the evaluation of a key uses something up.
* `ending` — computations that end can be composed.
-/

namespace AtomicStyles

open Script Eval Coupling

variable {α β : Type}

/-! ### Results under large bounds -/

/-- How deep the parts of evaluation call each other, and how deep searches may nest. -/
abbrev Bounds := Nat × Nat

/-- The machine under other bounds. -/
def Machine.bounded (m : Machine) (limit nesting : Nat) : Machine :=
  { m with graph := m.graph.withLimit limit, nesting }

/-- A result whose machine is put under other bounds. -/
def boundedResult (limit nesting : Nat) :
    EStateM.Result EvalError Machine α → EStateM.Result EvalError Machine α
  | .ok a m => .ok a (m.bounded limit nesting)
  | .error e m => .error e (m.bounded limit nesting)

/-- Under all bounds that are large enough the computation comes to the result. -/
def Settles (x : Bounds → Eval α) (m : Machine) (result : EStateM.Result EvalError Machine α) :
    Prop :=
  ∀ᶠ b in Filter.atTop, ∀ limit, x b (m.bounded limit b.2) = boundedResult limit b.2 result

namespace Settles

variable {x : Bounds → Eval α} {f : Bounds → α → Eval β} {m m' : Machine} {a : α} {e : EvalError}
  {result : EStateM.Result EvalError Machine α}

/-- A computation that does not look at the bounds. -/
theorem of_forall {x : Eval α}
    (h : ∀ limit nesting, x (m.bounded limit nesting) = boundedResult limit nesting result) :
    Settles (fun _ => x) m result :=
  Filter.Eventually.of_forall fun b limit => h limit b.2

/-- A computation that goes on as another one does from a later machine. -/
theorem of_eq {y : Bounds → Eval α} (hx : Settles x m' result)
    (h : ∀ᶠ b in Filter.atTop, ∀ limit, y b (m.bounded limit b.2) = x b (m'.bounded limit b.2)) :
    Settles y m result := by
  filter_upwards [hx, h] with b hx h limit
  rw [h, hx]

theorem bind {result : EStateM.Result EvalError Machine β} (hx : Settles x m (.ok a m'))
    (hf : Settles (fun b => f b a) m' result) : Settles (fun b => x b >>= f b) m result := by
  -- Bounds that are large enough for both computations are large enough for one after the other.
  filter_upwards [hx, hf] with b hx hf limit
  show EStateM.bind (x b) (f b) _ = _
  rw [EStateM.bind, hx limit]
  exact hf limit

theorem bind_error (hx : Settles x m (.error e m')) :
    Settles (fun b => x b >>= f b) m (.error e m') := by
  filter_upwards [hx] with b hx limit
  show EStateM.bind (x b) (f b) _ = _
  rw [EStateM.bind, hx limit]
  rfl

theorem outcome (hx : Settles x m (.ok a m')) :
    Settles (fun b => Eval.outcome (x b)) m (.ok (.ok a) m') := by
  filter_upwards [hx] with b hx limit
  rw [Eval.outcome, hx limit]
  rfl

theorem outcome_error (hx : Settles x m (.error e m')) :
    Settles (fun b => Eval.outcome (x b)) m (.ok (.error e) m') := by
  filter_upwards [hx] with b hx limit
  rw [Eval.outcome, hx limit]
  rfl

/-- A depth that is one less is as large as any. -/
theorem succ_depth {x : Nat → Nat → Eval α} (h : Settles (fun b => x b.1 b.2) m result) :
    Settles (fun b => x (b.1 - 1) b.2) m result := by
  have hshift : Filter.Tendsto (fun b : Bounds => (b.1 - 1, b.2)) Filter.atTop Filter.atTop := by
    rw [← Filter.prod_atTop_atTop_eq]
    exact (Filter.tendsto_sub_atTop_nat 1).prodMap Filter.tendsto_id
  exact hshift.eventually h

end Settles

/-! ### What a machine holds on to -/

namespace Held

instance : Held GlobalObject := .plain _

instance [Held α] : Held (Cell α) :=
  ⟨fun K F c => Good K F c.content, fun hK hF c => good_of_forall hK hF c.content⟩

instance : Held ModuleStatus where
  Good _ F
    | .failed e => F e
    | _ => True
  good_of_forall _ hF s := by
    cases s with
    | failed e => exact hF e
    | _ => trivial

instance : Held BindingStatus where
  Good _ F
    | .failed e => F e
    | _ => True
  good_of_forall _ hF s := by
    cases s with
    | failed e => exact hF e
    | _ => trivial

instance : Held Instance where
  Good K F i := Good K F i.names ∧ Good K F i.status ∧ Good K F i.bindings
  good_of_forall hK hF i :=
    ⟨good_of_forall hK hF i.names, good_of_forall hK hF i.status, good_of_forall hK hF i.bindings⟩

end Held

/-- The value holds on to the modules only, and to no failure that says that a bound was met. -/
abbrev Clean (ids : Finset ModuleId) [Held α] (a : α) : Prop :=
  Held.Good (· ∈ ids) (· ≠ .endless) a

/-- The machine evaluates in the modules of the graph and holds on to those of a collection only. -/
structure Sound (g : Graph) (ids : Finset ModuleId) (m : Machine) : Prop where
  graph : m.graph = g
  cache : ∀ id e, m.cache.get? id = some e → e = ModuleCache.loadModule g.loader g.features id
  objects : Clean ids m.objects
  arrays : Clean ids m.arrays
  frames : Clean ids m.frames
  instances : Clean ids m.instances
  globals : Clean ids m.globals
  exception : Clean ids m.exception

theorem Sound.serves {g : Graph} {ids : Finset ModuleId} {m : Machine} (h : Sound g ids m) :
    g.Serves m :=
  ⟨h.graph, h.cache⟩

/-! ### What is used up -/

open Classical in
/-- The keys of the modules whose evaluation has not begun. -/
noncomputable def pending (g : Graph) (ids : Finset ModuleId) (m : Machine) : Finset BindingKey :=
  {key ∈ g.keysWithin ids | ¬ m.Started key}

theorem mem_pending {g : Graph} {ids : Finset ModuleId} {m : Machine} {key : BindingKey} :
    key ∈ pending g ids m ↔ key ∈ g.keysWithin ids ∧ ¬ m.Started key := by
  classical
  exact Finset.mem_filter

/-- The steps that are left, and the keys whose evaluation has not begun. -/
noncomputable def cost (g : Graph) (ids : Finset ModuleId) (m : Machine) : Nat :=
  m.steps + (pending g ids m).card

/-- The second machine is sound and comes later in a run. -/
structure Onward (g : Graph) (ids : Finset ModuleId) (m m' : Machine) : Prop where
  sound : Sound g ids m'
  steps : m'.steps ≤ m.steps
  started : ∀ key, m.Started key → m'.Started key

namespace Onward

variable {g : Graph} {ids : Finset ModuleId} {m m' m'' : Machine}

theorem refl (h : Sound g ids m) : Onward g ids m m := ⟨h, le_rfl, fun _ hk => hk⟩

theorem trans (h : Onward g ids m m') (h' : Onward g ids m' m'') : Onward g ids m m'' :=
  ⟨h'.sound, h'.steps.trans h.steps, fun key hk => h'.started key (h.started key hk)⟩

/-- A machine on which nothing has been used up. -/
theorem of_eq (h : Sound g ids m') (hsteps : m'.steps = m.steps)
    (hinstances : m'.instances = m.instances) : Onward g ids m m' :=
  ⟨h, hsteps.le, fun _ hk => hk.congr hinstances⟩

theorem pending_subset (h : Onward g ids m m') : pending g ids m' ⊆ pending g ids m := by
  intro key hk
  rw [mem_pending] at hk ⊢
  exact ⟨hk.1, mt (h.started key) hk.2⟩

theorem cost_le (h : Onward g ids m m') : cost g ids m' ≤ cost g ids m :=
  Nat.add_le_add h.steps (Finset.card_le_card h.pending_subset)

theorem cost_lt_of_steps (h : Onward g ids m m') (hsteps : m'.steps < m.steps) :
    cost g ids m' < cost g ids m :=
  Nat.add_lt_add_of_lt_of_le hsteps (Finset.card_le_card h.pending_subset)

/-- A key whose evaluation begins is one less. -/
theorem cost_lt_of_started (h : Onward g ids m m') {key : BindingKey}
    (hkey : key ∈ g.keysWithin ids) (hbefore : ¬ m.Started key) (hafter : m'.Started key) :
    cost g ids m' < cost g ids m := by
  -- The steps have not become more, and the key has left those that are pending.
  refine Nat.add_lt_add_of_le_of_lt h.steps (Finset.card_lt_card ?_)
  rw [Finset.ssubset_iff_of_subset h.pending_subset]
  exact ⟨key, mem_pending.2 ⟨hkey, hbefore⟩, fun hmem => (mem_pending.1 hmem).2 hafter⟩

end Onward

/-! ### Computations that end -/

/-- The computation ends on the machine: it returns what meets a condition, or it fails, but not
for want of bounds. -/
inductive EndsAt (g : Graph) (ids : Finset ModuleId) (Q : α → Prop) (x : Bounds → Eval α)
    (m : Machine) : Prop where
  | returns (a : α) (m' : Machine) (ha : Q a) (hm : Onward g ids m m')
      (h : Settles x m (.ok a m'))
  | fails (e : EvalError) (m' : Machine) (he : e ≠ .endless) (hm : Onward g ids m m')
      (h : Settles x m (.error e m'))

/-- The computation ends on all sound machines that have no more than a cost to use up. -/
def Ends (g : Graph) (ids : Finset ModuleId) (c : Nat) (Q : α → Prop) (x : Bounds → Eval α) :
    Prop :=
  ∀ m, Sound g ids m → cost g ids m ≤ c → EndsAt g ids Q x m

namespace EndsAt

variable {g : Graph} {ids : Finset ModuleId} {P : α → Prop} {Q : β → Prop} {x : Bounds → Eval α}
  {f : Bounds → α → Eval β} {m : Machine}

/-- A computation ends if it goes on as one that ends does from a later machine. -/
theorem of_eq {y : Bounds → Eval α} {m' : Machine} (hm : Onward g ids m m')
    (hx : EndsAt g ids P x m')
    (h : ∀ᶠ b in Filter.atTop, ∀ limit, y b (m.bounded limit b.2) = x b (m'.bounded limit b.2)) :
    EndsAt g ids P y m := by
  cases hx with
  | returns a m'' ha hm' hx => exact .returns a m'' ha (hm.trans hm') (hx.of_eq h)
  | fails e m'' he hm' hx => exact .fails e m'' he (hm.trans hm') (hx.of_eq h)

/-- A computation that returns at once. -/
theorem of_ok {a : α} (hm : Sound g ids m) (ha : P a)
    (h : ∀ b limit nesting, x b (m.bounded limit nesting) = .ok a (m.bounded limit nesting)) :
    EndsAt g ids P x m :=
  .returns a m ha (.refl hm) (Filter.Eventually.of_forall fun b limit => h b limit b.2)

/-- A computation that fails at once. -/
theorem of_error {e : EvalError} (hm : Sound g ids m) (he : e ≠ .endless)
    (h : ∀ b limit nesting, x b (m.bounded limit nesting) = .error e (m.bounded limit nesting)) :
    EndsAt g ids P x m :=
  .fails e m he (.refl hm) (Filter.Eventually.of_forall fun b limit => h b limit b.2)

/-- What follows on a computation starts from a machine further on. -/
theorem bind (hx : EndsAt g ids P x m)
    (hf : ∀ a m', P a → Onward g ids m m' → EndsAt g ids Q (fun b => f b a) m') :
    EndsAt g ids Q (fun b => x b >>= f b) m := by
  cases hx with
  | fails e m' he hm hx => exact .fails e m' he hm hx.bind_error
  | returns a m' ha hm hx =>
    cases hf a m' ha hm with
    | returns b m'' hb hm' hf => exact .returns b m'' hb (hm.trans hm') (hx.bind hf)
    | fails e m'' he hm' hf => exact .fails e m'' he (hm.trans hm') (hx.bind hf)

theorem outcome (hx : EndsAt g ids P x m) :
    EndsAt g ids (Except.Meets P (· ≠ .endless)) (fun b => Eval.outcome (x b)) m := by
  cases hx with
  | returns a m' ha hm hx => exact .returns (.ok a) m' ha hm hx.outcome
  | fails e m' he hm hx => exact .returns (.error e) m' he hm hx.outcome_error

end EndsAt

/-- To end, as a judgement. -/
def endingJudgement (g : Graph) (ids : Finset ModuleId) : Judgement where
  Bound := Bounds
  Index := Nat
  Known id := id ∈ ids
  Fair e := e ≠ .endless
  Table id t := id ∈ ids ∧ g.freshTables id = .ok t
  Open _ _ _ := True
  Runnable id := id ∈ ids
  Below j c := j < c
  Holds c _ Q x := Ends g ids c Q x

def ending (g : Graph) (ids : Finset ModuleId) : Calculus where
  toJudgement := endingJudgement g ids
  fair h := h
  pure ha _ hm _ := .of_ok hm ha fun _ _ _ => rfl
  throw he _ hm _ := .of_error hm he fun _ _ _ => rfl
  bind hx hf m hm hc :=
    (hx m hm hc).bind fun a m' ha hm' => hf a ha m' hm'.sound (hm'.cost_le.trans hc)
  outcome hx m hm hc := (hx m hm hc).outcome

end AtomicStyles
