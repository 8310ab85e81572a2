import AtomicStyles.Proofs.Termination.Basic
import AtomicStyles.Proofs.Termination.Text

/-!
# Operations on the machine end

The rules by which evaluation ends. What changes the machine keeps it sound and does not bring
back what has been used up. A step and the begin of an evaluation use something up, so that
what follows on them may be asked to end at a lower cost only. A loop takes no more turns than
there are steps left.

## Main results

* `ending_spend` — what follows on a step is asked to end at a lower cost only.
* `ending_turns` — loops end.
-/

namespace AtomicStyles

open Script Eval Coupling

variable {g : Graph} {ids : Finset ModuleId} {c : Nat} {α β : Type} {m : Machine}

/-! ### Sound machines -/

section

variable [Held β] {xs : Array β} {b : β}

theorem clean_push (h : Clean ids xs) (hb : Clean ids b) : Clean ids (xs.push b) := by
  intro a ha
  rcases Array.mem_push.1 ha with ha | rfl
  · exact h a ha
  · exact hb

theorem clean_modify (h : Clean ids xs) (n : Nat) {f : β → β}
    (hf : ∀ b, Clean ids b → Clean ids (f b)) : Clean ids (xs.modify n f) := by
  intro a ha
  obtain ⟨i, hi⟩ := Array.mem_iff_getElem?.1 ha
  rw [Array.getElem?_modify] at hi
  split at hi
  · obtain ⟨b, hb, rfl⟩ := Option.map_eq_some_iff.1 hi
    exact hf b (h b (Array.mem_of_getElem? hb))
  · exact h a (Array.mem_of_getElem? hi)

end

namespace Sound

variable (h : Sound g ids m)

include h

theorem clean_instanceOf (id : ModuleId) : Clean ids (m.instanceOf id) := by
  unfold Machine.instanceOf
  cases hget : m.instances.get? id with
  | none => exact ⟨nofun, trivial, nofun⟩
  | some i => exact Judgement.Good.get? (J := endingJudgement g ids) h.instances hget

theorem clean_frame (f : FrameRef) : Clean ids (m.frame f) := by
  cases f with
  | top id => exact (h.clean_instanceOf id).1
  | inner n =>
    have hempty : Clean ids ({} : Frame) := fun _ he => absurd he List.not_mem_nil
    exact Judgement.Good.getD_array (J := endingJudgement g ids) h.frames hempty n

theorem clean_find? {name : String} {fs : List FrameRef} {f : FrameRef} {slot : Slot}
    (hfind : m.find? name fs = some (f, slot)) : Clean ids slot := by
  induction fs with
  | nil => cases hfind
  | cons f' fs ih =>
    unfold Machine.find? at hfind
    cases hget : (m.frame f').get? name with
    | none =>
      rw [hget] at hfind
      exact ih hfind
    | some slot' =>
      rw [hget] at hfind
      cases hfind
      exact Judgement.Good.get? (J := endingJudgement g ids) (h.clean_frame _) hget

theorem clean_objectCell (o : ObjectRef) : Clean ids (m.objectCell o).content := by
  have hempty : Clean ids ({} : Properties) := fun _ he => absurd he List.not_mem_nil
  exact Judgement.Good.getD_array (J := endingJudgement g ids) h.objects
    (d := { content := {}, stamp := 0, isShared := true }) hempty o.index

theorem clean_arrayCell (a : ArrayRef) : Clean ids (m.arrayCell a).content := by
  have hempty : Clean ids (#[] : Array Value) := fun v hv => absurd hv (Array.not_mem_empty v)
  exact Judgement.Good.getD_array (J := endingJudgement g ids) h.arrays
    (d := { content := #[], stamp := 0, isShared := true }) hempty a.index

theorem clean_flatten (depth : Nat) {vs : List Value} (hvs : Clean ids vs) :
    Clean ids (m.flatten depth vs) := by
  induction depth generalizing vs with
  | zero => exact hvs
  | succ depth ih =>
    intro v hv
    obtain ⟨w, hw, hv⟩ := List.mem_flatMap.1 hv
    have hkeep (w : Value) (hw : Clean ids w) (hv : v ∈ [w]) : Clean ids v := by
      cases List.mem_singleton.1 hv
      exact hw
    cases w with
    | array a =>
      exact ih (Judgement.Good.toList (J := endingJudgement g ids) (h.clean_arrayCell a)) v hv
    | _ => exact hkeep _ (hvs _ hw) hv

theorem modifyInstance (id : ModuleId) {f : Instance → Instance}
    (hf : ∀ i, Clean ids i → Clean ids (f i)) : Sound g ids (m.modifyInstance id f) :=
  { h with
    instances := Judgement.Good.insert (J := endingJudgement g ids) h.instances id
      (hf _ (h.clean_instanceOf id)) }

end Sound

namespace Onward

variable (h : Sound g ids m)

include h

theorem modifyInstance (id : ModuleId) {f : Instance → Instance}
    (hf : ∀ i, Clean ids i → Clean ids (f i))
    (hb : ∀ i name, i.bindings.get? name ≠ none → (f i).bindings.get? name ≠ none)
    (hs : ∀ i, i.status ≠ .pending → (f i).status ≠ .pending) :
    Onward g ids m (m.modifyInstance id f) :=
  ⟨h.modifyInstance id hf, le_rfl, fun _ hk => hk.modifyInstance id hb hs⟩

theorem declare (f : FrameRef) (name : String) {slot : Slot} (hslot : Clean ids slot) :
    Onward g ids m (m.declare f name slot) := by
  have hinsert (frame : Frame) (hframe : Clean ids frame) : Clean ids (frame.insert name slot) :=
    Judgement.Good.insert (J := endingJudgement g ids) hframe name hslot
  cases f with
  | top id =>
    exact .modifyInstance h id (f := fun i => { i with names := i.names.insert name slot })
      (fun i hi => ⟨hinsert i.names hi.1, hi.2⟩) (fun _ _ hn => hn) fun _ hs => hs
  | inner n => exact .of_eq { h with frames := clean_modify h.frames n hinsert } rfl rfl

theorem noteWrite : Onward g ids m m.noteWrite := by
  unfold Machine.noteWrite
  split
  · exact .of_eq { h with } rfl rfl
  · exact .refl h

theorem noteCellWrite (cell : Cell β) : Onward g ids m (m.noteCellWrite cell) := by
  unfold Machine.noteCellWrite
  split
  · exact .noteWrite h
  · exact .refl h

end Onward

/-! ### Reading and writing -/

variable {Q : α → Prop}

/-- What follows on a look at the machine ends, and does not look at its bounds. -/
theorem ending_get {k : Machine → Eval α}
    (hk : ∀ m limit nesting, k (m.bounded limit nesting) = k m)
    (h : ∀ m, Sound g ids m → (ending g ids).Holds c Q fun _ => k m) :
    (ending g ids).Holds c Q fun _ => get >>= k := by
  intro m hm hc
  refine .of_eq (.refl hm) (h m hm m hm hc) (.of_forall fun b limit => ?_)
  show k (m.bounded limit b.2) (m.bounded limit b.2) = k m (m.bounded limit b.2)
  rw [hk]

theorem ending_read {φ : Machine → α} (hφ : ∀ m limit nesting, φ (m.bounded limit nesting) = φ m)
    (hQ : ∀ m, Sound g ids m → Q (φ m)) : (ending g ids).Holds c Q fun _ => (do return φ (← get)) :=
  ending_get (fun m limit nesting => congrArg pure (hφ m limit nesting)) fun m hm => .pure (hQ m hm)

theorem ending_modifyGet {φ : Machine → α × Machine}
    (hφ : ∀ m limit nesting, φ (m.bounded limit nesting) = ((φ m).1, (φ m).2.bounded limit nesting))
    (hQ : ∀ m, Sound g ids m → Q (φ m).1) (hm : ∀ m, Sound g ids m → Onward g ids m (φ m).2) :
    (ending g ids).Holds c Q fun _ => modifyGet φ := by
  intro m h _
  refine .returns (φ m).1 (φ m).2 (hQ m h) (hm m h) (.of_forall fun limit nesting => ?_)
  show EStateM.Result.ok (φ (m.bounded limit nesting)).1 (φ (m.bounded limit nesting)).2 = _
  rw [hφ]
  rfl

theorem ending_modify {φ : Machine → Machine}
    (hφ : ∀ m limit nesting, φ (m.bounded limit nesting) = (φ m).bounded limit nesting)
    (hm : ∀ m, Sound g ids m → Onward g ids m (φ m)) :
    (ending g ids).Gives c fun _ => (modify φ : Eval Unit) :=
  ending_modifyGet (fun m limit nesting => congrArg (Prod.mk ()) (hφ m limit nesting))
    (fun _ _ => trivial) hm

theorem noteWrite_bounded (m : Machine) (limit nesting : Nat) :
    (m.bounded limit nesting).noteWrite = m.noteWrite.bounded limit nesting := by
  unfold Machine.noteWrite
  show (if m.initializing = 0 then _ else _) = _
  split <;> rfl

theorem ending_recordWrite : (ending g ids).Gives c fun _ => recordWrite :=
  ending_modify noteWrite_bounded fun _ hm => .noteWrite hm

theorem ending_noteCellWrite {cell : Machine → Cell β}
    (hcell : ∀ m limit nesting, cell (m.bounded limit nesting) = cell m) :
    (ending g ids).Gives c fun _ => (modify fun m => m.noteCellWrite (cell m) : Eval Unit) := by
  refine ending_modify (fun m limit nesting => ?_) fun m hm => .noteCellWrite hm (cell m)
  rw [hcell]
  unfold Machine.noteCellWrite
  show (if (cell m).stamp < m.floor || (cell m).isShared then _ else _) = _
  split
  · exact noteWrite_bounded m limit nesting
  · rfl

/-! ### Steps -/

section Steps

variable {Q : α → Prop} {x : Bounds → Eval α}

/-- After a step there is one less. -/
theorem EndsAt.tick_bind (hm : Sound g ids m)
    (h : ∀ m', Onward g ids m m' → m'.steps < m.steps → EndsAt g ids Q x m') :
    EndsAt g ids Q (fun b => do tick; x b) m := by
  have htick (limit nesting : Nat) : tick (m.bounded limit nesting) =
      (if m.steps = 0 then do throw (.stepBudget (← limits).steps)
        else modify fun m => { m with steps := m.steps - 1 } : Eval Unit)
        (m.bounded limit nesting) := rfl
  by_cases hsteps : m.steps = 0
  -- Without a step left the failure names the budget, which is not one of the bounds.
  · have hfails : Settles (fun _ => tick) m (.error (.stepBudget m.limits.steps) m) := by
      refine .of_forall fun limit nesting => ?_
      rw [htick, if_pos hsteps]
      rfl
    exact .fails (.stepBudget m.limits.steps) m nofun (.refl hm) hfails.bind_error
  · have hlater : Onward g ids m { m with steps := m.steps - 1 } :=
      ⟨{ hm with }, Nat.sub_le _ _, fun _ hk => hk.congr rfl⟩
    have hless : m.steps - 1 < m.steps := by omega
    refine .of_eq hlater (h _ hlater hless) (.of_forall fun b limit => ?_)
    refine bind_eq_of_ok (a := ()) ?_
    rw [htick, if_neg hsteps]
    rfl

theorem ending_spend (h : ∀ j < c, (ending g ids).Holds j Q x) :
    (ending g ids).Holds c Q fun b => (do tick; x b) := by
  intro m hm hc
  refine .tick_bind hm fun m' hm' hsteps => ?_
  exact h _ ((hm'.cost_lt_of_steps hsteps).trans_le hc) m' hm'.sound le_rfl

theorem ending_tick : (ending g ids).Gives c fun _ => tick := by
  have h : (ending g ids).Gives c fun _ => (do tick; pure ()) :=
    ending_spend fun _ _ => .pure trivial
  simpa only [bind_pure_unit] using h

theorem ending_nested (h : (ending g ids).Holds c Q x) :
    (ending g ids).Holds c Q fun b => nested (x b) := by
  have hdepth (f : Nat → Nat) : (ending g ids).Gives c fun _ =>
      (modify fun m => { m with depth := f m.depth } : Eval Unit) :=
    ending_modify (fun _ _ _ => rfl) fun _ hm => .of_eq { hm with } rfl rfl
  have hread {β : Type} (φ : Machine → β)
      (hφ : ∀ m limit nesting, φ (m.bounded limit nesting) = φ m) :
      (ending g ids).Holds c (fun _ => True) fun _ => (do return φ (← get) : Eval β) :=
    ending_read hφ fun _ _ => trivial
  refine (hread Machine.limits fun _ _ _ => rfl).bind fun limits _ => ?_
  refine (hread Machine.depth fun _ _ _ => rfl).bind fun depth _ => .ite ?_ ?_
  · exact (hread Machine.limits fun _ _ _ => rfl).bind fun _ _ => .throw nofun
  · refine (hdepth (· + 1)).bind fun _ _ => h.outcome.bind fun result hresult => ?_
    exact (hdepth (· - 1)).bind fun _ _ => .conclude hresult

variable {σ : Type} {P : σ → Prop} {turn : Bounds → σ → Eval (Turn σ)}
  (hturn : ∀ state, P state →
    (ending g ids).Holds c (Turn.Meets P (ending g ids).Good) fun b => turn b state)

include hturn

/-- A loop ends that may take more turns than there are steps. -/
theorem endsAt_turnsFrom (fuel : Nat) {state : σ} (hstate : P state)
    (hm : Sound g ids m) (hc : cost g ids m ≤ c) (hfuel : m.steps < fuel) :
    EndsAt g ids (ending g ids).Good
      (fun b => turnsFrom (fun state => do tick; turn b state) fuel state) m := by
  induction fuel generalizing state m with
  | zero => omega
  | succ fuel ih =>
    simp only [turnsFrom, bind_assoc]
    -- Every turn takes a step, so that the steps run out before the turns do.
    refine .tick_bind hm fun m₁ hm₁ hsteps => ?_
    refine (hturn state hstate m₁ hm₁.sound (hm₁.cost_le.trans hc)).bind fun t m₂ ht hm₂ => ?_
    have hc₂ := hm₂.cost_le.trans (hm₁.cost_le.trans hc)
    cases t with
    | stop result =>
      have hresult : (ending g ids).Good result := ht
      exact (ending g ids).pure hresult m₂ hm₂.sound hc₂
    | next state =>
      have hless := hm₂.steps
      exact ih ht hm₂.sound hc₂ (by omega)

theorem ending_turns {state : σ} (hstate : P state) :
    (ending g ids).Gives c fun b => turns (turn b) state := by
  intro m hm hc
  -- A loop gets its turns from the steps of the machine that it begins on.
  refine .of_eq (.refl hm) (endsAt_turnsFrom hturn (m.steps + 1) hstate hm hc (by omega)) ?_
  exact .of_forall fun b limit => rfl

end Steps

/-! ### Objects, arrays and names -/

theorem ending_newObject {ps : Properties} (hps : (ending g ids).Good ps) :
    (ending g ids).Gives c fun _ => newObject ps :=
  ending_modifyGet (fun _ _ _ => rfl) (fun _ _ => trivial) fun _ hm =>
    .of_eq { hm with objects := clean_push hm.objects hps } rfl rfl

theorem ending_setException {v : Option Value} (hv : (ending g ids).Good v) :
    (ending g ids).Gives c fun _ => setException v :=
  ending_modify (fun _ _ _ => rfl) fun _ hm => .of_eq { hm with exception := hv } rfl rfl

theorem ending_raise {Q : α → Prop} (fault : Fault) :
    (ending g ids).Holds c Q fun _ => raise fault := by
  have hps : (ending g ids).Good (⟨[("name", .string fault.kind.name),
      ("message", .string fault.text)]⟩ : Properties) :=
    List.forall_mem_cons.2 ⟨trivial, List.forall_mem_singleton.2 trivial⟩
  refine (ending_newObject hps).bind fun e he => ?_
  exact (ending_setException he.some).bind fun _ _ => .throw nofun

theorem ending_modifyObject (o : ObjectRef) {f : Cell Properties → Cell Properties}
    (hf : ∀ cell, (ending g ids).Good cell → (ending g ids).Good (f cell)) :
    (ending g ids).Gives c fun _ => modifyObject o f :=
  ending_modify (fun _ _ _ => rfl) fun _ hm =>
    .of_eq { hm with objects := clean_modify hm.objects o.index (f := f) hf } rfl rfl

theorem ending_modifyArray (a : ArrayRef) {f : Cell (Array Value) → Cell (Array Value)}
    (hf : ∀ cell, (ending g ids).Good cell → (ending g ids).Good (f cell)) :
    (ending g ids).Gives c fun _ => modifyArray a f :=
  ending_modify (fun _ _ _ => rfl) fun _ hm =>
    .of_eq { hm with arrays := clean_modify hm.arrays a.index (f := f) hf } rfl rfl

theorem ending_freeze {v : Value} (hv : (ending g ids).Good v) :
    (ending g ids).Gives c fun _ => freeze v := by
  cases v with
  | object o =>
    refine .bind (ending_modifyObject o ?_) fun _ _ => .pure hv
    exact fun _ hcell => hcell
  | array a =>
    refine .bind (ending_modifyArray a ?_) fun _ _ => .pure hv
    exact fun _ hcell => hcell
  | _ => exact .pure hv

theorem ending_changeProperties (o : ObjectRef) (frozen : Fault) {f : Properties → Properties}
    (hf : ∀ ps, (ending g ids).Good ps → (ending g ids).Good (f ps)) :
    (ending g ids).Gives c fun _ => changeProperties o frozen f := by
  refine Judgement.Holds.bind (P := fun _ => True)
    (ending_read (fun _ _ _ => rfl) fun _ _ => trivial) fun isFrozen _ => ?_
  refine .ite (ending_raise frozen) ((ending_noteCellWrite fun _ _ _ => rfl).bind fun _ _ => ?_)
  exact ending_modifyObject o fun cell hcell => hf cell.content hcell

theorem ending_beforeArrayWrite (a : ArrayRef) :
    (ending g ids).Gives c fun _ => beforeArrayWrite a :=
  Judgement.Holds.bind (P := fun _ => True) (ending_read (fun _ _ _ => rfl) fun _ _ => trivial)
    fun _ _ => .ite (ending_raise _) (ending_noteCellWrite fun _ _ _ => rfl)

theorem ending_items (a : ArrayRef) : (ending g ids).Gives c fun _ => items a :=
  ending_read (fun _ _ _ => rfl) fun _ hm => hm.clean_arrayCell a

/-- A text is found, or it does not exist, which is no matter of bounds. -/
theorem ending_text (v : Value) : (ending g ids).Gives c fun _ => text v := by
  have hget (v : Value) : (ending g ids).Gives c fun _ => (do
      let m ← get
      conclude (m.text (m.arrays.size + 1) v)) := by
    refine ending_get (fun m limit nesting => ?_) fun m hm => .conclude ?_
    · exact congrArg conclude (Machine.text_congr (by rfl) _ v)
    · cases htext : m.text (m.arrays.size + 1) v with
      | ok t => trivial
      | error e =>
        rw [Machine.eq_of_text_eq_error htext]
        exact nofun
  cases v with
  | string t => exact .pure trivial
  | _ => exact hget _

theorem find?_bounded (m : Machine) (name : String) (fs : List FrameRef) (limit nesting : Nat) :
    (m.bounded limit nesting).find? name fs = m.find? name fs :=
  Machine.find?_congr (by rfl) (by rfl) name fs

theorem ending_declare (f : FrameRef) (name : String) {slot : Slot}
    (hslot : (ending g ids).Good slot) :
    (ending g ids).Gives c fun _ =>
      (modify fun m => m.declare f name slot : Eval Unit) :=
  ending_modify (fun m limit nesting => by cases f <;> rfl) fun m hm => .declare hm f name hslot

theorem ending_assign (s : Scope) (name : String) {v : Value} (hv : (ending g ids).Good v) :
    (ending g ids).Gives c fun _ => assign s name v := by
  refine ending_get (fun m limit nesting => ?_) fun m hm => ?_
  · rw [find?_bounded]
  · rcases m.find? name s.frames with _ | ⟨f, _ | _, _ | _⟩
    case some.some.true =>
      have hslot : (ending g ids).Good ({ value := some v, isMutable := true } : Slot) := hv.some
      exact (ending_declare f name hslot).bind fun _ _ => .pure trivial
    all_goals exact .pure trivial

end AtomicStyles
