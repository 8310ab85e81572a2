import AtomicStyles.Proofs.Logic.Basic

/-!
# Rules for the operations on values

Conversions, operators and the access to properties: one rule for each of them, which follows
the operation step by step.

## Main results

* `Logic.holds_binary`, `Logic.holds_unary` — operators.
* `Logic.holds_getProperty`, `Logic.holds_setProperty` — one property.
* `Logic.holds_entries` — all properties.
-/

namespace AtomicStyles.Logic

open Script Eval List

variable {L : Logic} {i : L.Index} {size : Nat} {R : L.Bound → Interp}

/-! ### Exceptions -/

variable {v : Value} {J : Judgement}

theorem holds_newError (kind : ErrorKind) (t : String) : L.Gives i fun _ => newError kind t :=
  L.newObject fun e he => by
    rcases mem_pair.1 he with rfl | rfl <;> trivial

theorem holds_raise {α : Type} {Q : α → Prop} (fault : Fault) : L.Holds i Q fun _ => raise fault :=
  (holds_newError fault.kind fault.text).bind fun _ he =>
    (L.setException he.some).bind fun _ _ => .throw nofun

/-! ### Conversions -/

theorem holds_texts (vs : List Value) : L.Gives i fun _ => texts vs :=
  .mapM vs fun v _ => L.text v

theorem holds_itemTexts (vs : List Value) : L.Gives i fun _ => itemTexts vs :=
  .mapM vs fun v _ => .ite (.pure trivial) (L.text v)

theorem holds_number (v : Value) : L.Gives i fun _ => number v := by
  cases v with
  | array a => exact (L.text (.array a)).bind fun t _ => .pure trivial
  | _ => exact .pure trivial

theorem holds_primitive (v : Value) : L.Gives i fun _ => primitive v := by
  cases v with
  | object o => exact (L.text (.object o)).bind fun t _ => .pure trivial
  | array a => exact (L.text (.array a)).bind fun t _ => .pure trivial
  | function id f => exact (L.text (.function id f)).bind fun t _ => .pure trivial
  | module id => exact (L.text (.module id)).bind fun t _ => .pure trivial
  | _ => exact .pure trivial

/-! ### Comparison and operators -/

theorem holds_plainEquals (a b : Value) : L.Gives i fun _ => plainEquals a b := by
  cases a with
  | number x =>
    cases b with
    | string t => exact (holds_number (.string t)).bind fun y _ => .pure trivial
    | _ => exact .pure trivial
  | string s =>
    cases b with
    | number y => exact (holds_number (.string s)).bind fun x _ => .pure trivial
    | _ => exact .pure trivial
  | _ => exact .pure trivial

theorem holds_looseEquals (a b : Value) : L.Gives i fun _ => looseEquals a b := by
  unfold looseEquals
  refine .ite (.pure trivial) ?_
  -- Which texts are made depends on the kinds of both values.
  generalize unbool a = a
  generalize unbool b = b
  cases a with
  | array r =>
    cases b with
    | string s => exact (L.text (.array r)).bind fun t _ => holds_plainEquals _ _
    | number x => exact (L.text (.array r)).bind fun t _ => holds_plainEquals _ _
    | _ => exact holds_plainEquals _ _
  | string s =>
    cases b with
    | array r => exact (L.text (.array r)).bind fun t _ => holds_plainEquals _ _
    | _ => exact holds_plainEquals _ _
  | number x =>
    cases b with
    | array r => exact (L.text (.array r)).bind fun t _ => holds_plainEquals _ _
    | _ => exact holds_plainEquals _ _
  | _ => exact holds_plainEquals _ _

theorem holds_compare (a b : Value) : L.Gives i fun _ => Eval.compare a b := by
  refine (holds_primitive a).bind fun a _ => (holds_primitive b).bind fun b _ => ?_
  cases a with
  | string s =>
    cases b with
    | string t => exact .pure fun _ _ => trivial
    | _ =>
      refine (holds_number _).bind fun x _ => (holds_number _).bind fun y _ => ?_
      exact .pure fun _ _ => trivial
  | _ =>
    refine (holds_number _).bind fun x _ => (holds_number _).bind fun y _ => ?_
    exact .pure fun _ _ => trivial

theorem holds_add (a b : Value) : L.Gives i fun _ => add a b := by
  refine (holds_primitive a).bind fun a _ => (holds_primitive b).bind fun b _ => ?_
  cases a with
  | string s => exact (L.text b).bind fun t _ => .pure trivial
  | _ =>
    cases b with
    | string t => exact (L.text _).bind fun s _ => .pure trivial
    | _ => exact (holds_number _).bind fun x _ => (holds_number _).bind fun y _ => .pure trivial

theorem holds_arithmetic (f : Float → Float → Float) (a b : Value) :
    L.Gives i fun _ => arithmetic f a b :=
  (holds_number a).bind fun _ _ => (holds_number b).bind fun _ _ => .pure trivial

theorem holds_bitwise (f : UInt32 → UInt32 → UInt32) (a b : Value) :
    L.Gives i fun _ => bitwise f a b :=
  (holds_number a).bind fun _ _ => (holds_number b).bind fun _ _ => .pure trivial

theorem holds_relation (test : Ordering → Bool) (a b : Value) :
    L.Gives i fun _ => relation test a b :=
  (holds_compare a b).bind fun _ _ => .pure trivial

theorem holds_shiftUnsigned (a b : Value) : L.Gives i fun _ => shiftUnsigned a b :=
  (holds_number a).bind fun _ _ => (holds_number b).bind fun _ _ => .pure trivial

theorem holds_binary {isIn : Value → Value → Eval Bool} {a b : Value}
    (hisIn : L.Gives i fun _ => isIn a b) (op : BinaryOp) :
    L.Gives i fun _ => binary isIn op a b := by
  cases op with
  | add => exact holds_add a b
  | eq => exact (holds_looseEquals a b).bind fun _ _ => .pure trivial
  | ne => exact (holds_looseEquals a b).bind fun _ _ => .pure trivial
  | strictEq => exact .pure trivial
  | strictNe => exact .pure trivial
  | lt => exact holds_relation _ a b
  | le => exact holds_relation _ a b
  | gt => exact holds_relation _ a b
  | ge => exact holds_relation _ a b
  | bitAnd => exact holds_bitwise _ a b
  | bitOr => exact holds_bitwise _ a b
  | bitXor => exact holds_bitwise _ a b
  | shiftLeft => exact holds_bitwise (fun x y => x <<< (y &&& 31)) a b
  | shiftRight => exact holds_bitwise shiftSigned a b
  | shiftRightZero => exact holds_shiftUnsigned a b
  | isIn => exact hisIn.bind fun _ _ => .pure trivial
  | instanceOf => exact .unsupported _
  | and => exact .unsupported _
  | or => exact .unsupported _
  | coalesce => exact .unsupported _
  | _ => exact holds_arithmetic _ a b

theorem holds_unary (op : UnaryOp) (v : Value) : L.Gives i fun _ => unary op v := by
  cases op with
  | not => exact .pure trivial
  | typeOf => exact .pure trivial
  | void => exact .pure trivial
  | delete => exact .pure trivial
  | _ => exact (holds_number v).bind fun _ _ => .pure trivial

/-! ### Reading properties -/

theorem holds_method {f : Option Function} (hf : L.Good f) : L.Gives i fun _ => method f := by
  cases f with
  | none => exact .pure trivial
  | some f => exact L.newFunction (hf f rfl)

theorem holds_functionProperty (f : Function) (key : String) :
    L.Gives i fun _ => functionProperty f key := by
  cases f with
  | builtin b =>
    unfold functionProperty
    dsimp only
    cases b.member? key with
    | none => exact .pure trivial
    | some member =>
      cases member with
      | function f => exact L.newFunction (f := .builtin f) trivial
      | constant x => exact .pure trivial
  | defined d =>
    refine .pure ?_
    split <;> trivial
  | _ => exact .pure trivial

theorem good_unitTexts (J : Judgement) (s : String) : J.Good (unitTexts s) := by
  intro v hv
  obtain ⟨u, _, rfl⟩ := mem_map.1 hv
  trivial

variable (hr : L.Runs i size R)

include hr

theorem holds_moduleProperty {id : ModuleId} (hid : L.Known id) (key : String) :
    L.Gives i fun k => moduleProperty (R k) id key := by
  -- An export that a module lacks reads as undefined.
  refine (hr.exported key hid).outcome.bind fun result hresult => ?_
  cases result with
  | ok v => exact .conclude hresult
  | error e =>
    cases e with
    | missingExport id name => exact .pure trivial
    | _ => exact .conclude hresult

theorem holds_getProperty (hv : L.Good v) (key : String) :
    L.Gives i fun k => getProperty (R k) v key := by
  have hmethod {α : Type} (o : Option α) {f : α → Function} (hf : ∀ a, L.Good (f a)) :
      L.Gives i fun _ => method (o.map f) := by
    refine holds_method fun g hg => ?_
    obtain ⟨a, _, rfl⟩ := Option.map_eq_some_iff.1 hg
    exact hf a
  cases v with
  | undefined => exact holds_raise _
  | null => exact holds_raise _
  | bool b => exact .ite (L.newFunction (f := .ofBool b) trivial) (.pure trivial)
  | number x => exact hmethod _ fun _ => trivial
  | string s =>
    refine .ite (.pure trivial) ?_
    cases arrayIndex? key with
    | some n => exact .pure ((good_unitTexts _ s).getD (d := .undefined) trivial n)
    | none => exact hmethod _ fun _ => trivial
  | object o =>
    refine (L.properties o).bind fun ps hps => ?_
    cases hget : ps.get? key with
    | some v => exact .pure (hps.get? hget)
    | none => exact hmethod _ fun _ => trivial
  | array a =>
    refine .ite ((L.items a).bind fun xs _ => .pure trivial) ?_
    cases arrayIndex? key with
    | some n =>
      refine (L.items a).bind fun xs hxs => .pure ?_
      exact hxs.getD_array (d := .undefined) trivial n
    | none => exact hmethod _ fun _ => trivial
  | function id f => exact holds_functionProperty f key
  | module id => exact holds_moduleProperty hr hv key

omit hr

/-! ### Writing properties -/

theorem good_resize {xs : Array Value} (hxs : J.Good xs) (n : Nat) : J.Good (resize n xs) := by
  intro v hv
  unfold resize at hv
  split at hv
  · exact hxs.extract 0 n v hv
  · rcases Array.mem_append.1 hv with hv | hv
    · exact hxs v hv
    · rw [(Array.mem_replicate.1 hv).2]
      trivial

theorem good_setIfInBounds {xs : Array Value} (hxs : J.Good xs) (n : Nat) (hv : J.Good v) :
    J.Good (xs.setIfInBounds n v) := by
  intro w hw
  rcases Array.mem_or_eq_of_mem_setIfInBounds hw with hw | rfl
  · exact hxs w hw
  · exact hv

theorem holds_setItem (a : ArrayRef) (key : String) (hv : L.Good v) :
    L.Gives i fun _ => setItem a key v := by
  refine L.changeArray a ?_ (.ite ?_ ?_)
  · refine .ite ((Looks.number v).bind fun n => .ite (.raise _) (.pure _)) ?_
    cases arrayIndex? key with
    | none => exact .throw _
    | some n => exact (Looks.items a).bind fun xs => .ite (.throw _) (.pure _)
  · refine (holds_number v).bind fun n _ => .ite (holds_raise _) (.pure ?_)
    exact fun xs hxs => good_resize hxs _
  · cases arrayIndex? key with
    | none => exact .unsupported _
    | some n =>
      refine (L.items a).bind fun xs _ => .ite (.unsupported _) (.pure fun xs hxs => ?_)
      refine good_setIfInBounds ?_ n hv
      split
      · exact good_resize hxs _
      · exact hxs

theorem holds_setProperty (target : Value) (key : String) (hv : L.Good v) :
    L.Gives i fun _ => setProperty target key v := by
  cases target with
  | object o => exact L.putProperty o _ key hv
  | array a => exact holds_setItem a key hv
  | undefined => exact holds_raise _
  | null => exact holds_raise _
  | module id => exact holds_raise _
  | function id f => exact .unsupported _
  | _ => exact .pure trivial

theorem holds_deleteProperty (target : Value) (key : String) :
    L.Gives i fun _ => deleteProperty target key := by
  cases target with
  | object o =>
    exact (L.dropProperty o _ key).bind fun _ _ => .pure trivial
  | array a =>
    unfold deleteProperty
    cases arrayIndex? key with
    | none => exact .pure trivial
    | some n =>
      refine (L.changeArray a (.pure _) (.pure fun xs hxs => ?_)).bind fun _ _ => .pure trivial
      exact good_setIfInBounds hxs n trivial
  | undefined => exact holds_raise _
  | null => exact holds_raise _
  | _ => exact .pure trivial

/-! ### Listing properties -/

theorem good_indexed {vs : List Value} (hvs : J.Good vs) : J.Good (indexed vs) := by
  intro e he
  obtain ⟨⟨v, n⟩, hv, rfl⟩ := mem_map.1 he
  exact ⟨trivial, hvs v (fst_mem_of_mem_zipIdx hv)⟩

include hr in
theorem holds_entries {v : Value} (hv : L.Good v) :
    L.Gives i fun k => entries (R k) v := by
  cases v with
  | object o =>
    exact (L.properties o).bind fun ps hps => .pure fun e he => ⟨trivial, hps e he⟩
  | array a => exact (L.items a).bind fun xs hxs => .pure (good_indexed hxs.toList)
  | string s => exact .pure (good_indexed (good_unitTexts _ s))
  | module id =>
    refine (L.exportsOf hv).bind fun names _ => .mapM _ fun name _ => ?_
    exact (hr.exported name hv).bind fun v hv => .pure ⟨trivial, hv⟩
  | _ => exact .pure nofun

theorem holds_iterate (hv : L.Good v) : L.Gives i fun _ => iterate v := by
  cases v with
  | array a => exact (L.items a).bind fun xs hxs => .pure hxs.toList
  | string s =>
    refine .pure fun v hv => ?_
    obtain ⟨c, _, rfl⟩ := mem_map.1 hv
    trivial
  | _ => exact (L.text _).bind fun t _ => holds_raise _

theorem holds_hasProperty (key : Value) {container : Value} (hcontainer : L.Good container) :
    L.Gives i fun _ => hasProperty key container := by
  refine (L.text key).bind fun key _ => ?_
  cases container with
  | object o => exact (L.properties o).bind fun ps _ => .pure trivial
  | array a => exact (L.items a).bind fun xs _ => .pure trivial
  | module id => exact (L.exportsOf hcontainer).bind fun names _ => .pure trivial
  | _ => exact (L.text _).bind fun t _ => holds_raise _

end AtomicStyles.Logic
