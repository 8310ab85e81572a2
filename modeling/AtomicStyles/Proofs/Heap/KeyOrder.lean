import AtomicStyles.Proofs.Heap.Evaluation
import AtomicStyles.Proofs.KeyByKey
import AtomicStyles.Proofs.Style.Consistency

/-!
# The order of keys

The keys of an object are listed in the order in which they came in. A key that is written again
keeps its place, and one that is deleted and then written again goes to the end. Keys that are
indices are not set apart.

The edits of an object are those that made it, for a literal its properties one after the other,
those of a spread object in their own order, and then the writes and deletions of its properties in
a run. Which edit a key came in by is said in terms of the edits alone.

## Main definitions

* `PropertyEdit`, `Operation.edits` — the changes of one object.
* `Present`, `EntersAt` — a key is there after some edits, and came in by one of them.
* `InOrder` — keys are listed in the order in which they came in.
* `Eval.literalEntries` — the properties of a literal in their order.
* `Eval.Lists` — all that lists the properties of an object lists them in the object's order.

## Main statements

* `inOrder_foldl` — edits lead to keys in order.
* `Batch.keys_in_order` — **in every run, keys are listed in the order in which they came in.**
* `Eval.index_keys_unsorted` — keys that are indices, in no ascending order.
-/

namespace AtomicStyles

open Script Eval Coupling
open List hiding after

/-! ### Edits -/

/-- A change of the properties of an object. -/
inductive PropertyEdit where
  | put (key : String) (v : Value)
  | drop (key : String)

def PropertyEdit.apply (ps : Properties) : PropertyEdit → Properties
  | put key v => ps.insert key v
  | drop key => ps.erase key

theorem PropertyEdit.put_ne_drop {key key' : String} {v : Value} : put key v ≠ drop key' := by
  simp

/-- A key is there after some edits: it was put, and has not been dropped since. -/
def Present (edits : List PropertyEdit) (key : String) : Prop :=
  ∃ before v later, edits = before ++ .put key v :: later ∧ .drop key ∉ later

/-- A key comes in by the edit with a number: it is put there without being there before, and it is
not dropped after that. -/
structure EntersAt (edits : List PropertyEdit) (key : String) (n : Nat) : Prop where
  put : ∃ v, edits[n]? = some (.put key v)
  absent : ¬Present (edits.take n) key
  stays : .drop key ∉ edits.drop (n + 1)

/-- The keys are those which are there after some edits, in the order in which they came in. -/
structure InOrder (edits : List PropertyEdit) (keys : List String) : Prop where
  mem_iff : ∀ key, key ∈ keys ↔ Present edits key
  entered : ∀ key ∈ keys, ∃ n, EntersAt edits key n
  ascending : keys.Pairwise fun key key' =>
    ∃ n n', EntersAt edits key n ∧ EntersAt edits key' n' ∧ n < n'

section

variable {edits : List PropertyEdit} {e : PropertyEdit} {key : String} {n : Nat}

theorem present_concat :
    Present (edits ++ [e]) key ↔ (∃ v, e = .put key v) ∨ Present edits key ∧ e ≠ .drop key := by
  constructor
  · rintro ⟨before, v, later, heq, hlater⟩
    -- the last edit is the one that put the key, or comes after it
    rcases eq_nil_or_concat later with rfl | ⟨later, e', rfl⟩
    · obtain ⟨-, he⟩ := append_inj' heq rfl
      exact .inl ⟨v, (cons_eq_cons.1 he).1⟩
    · rw [concat_eq_append, ← cons_append, ← append_assoc] at heq
      rw [concat_eq_append] at hlater
      obtain ⟨rfl, he⟩ := append_inj' heq rfl
      obtain rfl := (cons_eq_cons.1 he).1
      simp only [mem_append, mem_singleton, not_or] at hlater
      exact .inr ⟨⟨before, v, later, rfl, hlater.1⟩, Ne.symm hlater.2⟩
  · rintro (⟨v, rfl⟩ | ⟨⟨before, v, later, rfl, hlater⟩, he⟩)
    · exact ⟨edits, v, [], rfl, not_mem_nil⟩
    · refine ⟨before, v, later ++ [e], by simp, ?_⟩
      simp [hlater, Ne.symm he]

theorem present_put {key' : String} {v : Value} :
    Present (edits ++ [.put key v]) key' ↔ key = key' ∨ Present edits key' := by
  simp [present_concat]

theorem EntersAt.lt_length (h : EntersAt edits key n) : n < edits.length := by
  obtain ⟨v, hv⟩ := h.put
  exact (List.getElem?_eq_some_iff.1 hv).1

/-- A key that is not dropped has come in where it had. -/
theorem EntersAt.concat (h : EntersAt edits key n) (he : e ≠ .drop key) :
    EntersAt (edits ++ [e]) key n where
  put := by
    rw [List.getElem?_append_left h.lt_length]
    exact h.put
  absent := by
    rw [take_append_of_le_length h.lt_length.le]
    exact h.absent
  stays := by
    rw [drop_append_of_le_length h.lt_length]
    simp [h.stays, Ne.symm he]

/-- A key that is not there comes in when it is put. -/
theorem entersAt_length (h : ¬Present edits key) (v : Value) :
    EntersAt (edits ++ [.put key v]) key edits.length where
  put := ⟨v, by simp⟩
  absent := by
    rw [take_left]
    exact h
  stays := by
    rw [drop_of_length_le (by simp)]
    exact not_mem_nil

namespace InOrder

variable {keys keys' : List String}

/-- What has come in keeps its order under an edit that does not drop it. -/
theorem ascending_concat (h : InOrder edits keys) (hsub : keys'.Sublist keys)
    (he : ∀ key ∈ keys', e ≠ .drop key) :
    keys'.Pairwise fun key key' => ∃ n n', EntersAt (edits ++ [e]) key n ∧
      EntersAt (edits ++ [e]) key' n' ∧ n < n' := by
  refine (h.ascending.sublist hsub).imp_of_mem fun hk hk' hpair => ?_
  obtain ⟨n, n', hn, hn', hlt⟩ := hpair
  exact ⟨n, n', hn.concat (he _ hk), hn'.concat (he _ hk'), hlt⟩

/-- A key that is put again keeps its place. -/
theorem put_of_mem (h : InOrder edits keys) (hmem : key ∈ keys) (v : Value) :
    InOrder (edits ++ [.put key v]) keys where
  mem_iff key' := by
    rw [present_put, h.mem_iff]
    constructor
    · exact .inr
    · rintro (rfl | hpresent)
      · exact (h.mem_iff key).1 hmem
      · exact hpresent
  entered key' hk := by
    obtain ⟨n, hn⟩ := h.entered key' hk
    exact ⟨n, hn.concat PropertyEdit.put_ne_drop⟩
  ascending := h.ascending_concat (.refl _) fun _ _ => PropertyEdit.put_ne_drop

/-- A key that was not there comes last. -/
theorem put_of_not_mem (h : InOrder edits keys) (hmem : key ∉ keys) (v : Value) :
    InOrder (edits ++ [.put key v]) (keys ++ [key]) := by
  have hlast : EntersAt (edits ++ [.put key v]) key edits.length :=
    entersAt_length (mt (h.mem_iff key).2 hmem) v
  refine ⟨fun key' => ?_, fun key' hk => ?_, pairwise_append.2 ⟨?_, ?_, ?_⟩⟩
  · rw [present_put, mem_append, mem_singleton, h.mem_iff, or_comm, eq_comm]
  · rcases mem_append.1 hk with hk | hk
    · obtain ⟨n, hn⟩ := h.entered key' hk
      exact ⟨n, hn.concat PropertyEdit.put_ne_drop⟩
    · obtain rfl := mem_singleton.1 hk
      exact ⟨_, hlast⟩
  · exact h.ascending_concat (.refl _) fun _ _ => PropertyEdit.put_ne_drop
  · exact pairwise_singleton _ _
  · intro key' hk key'' hk''
    obtain rfl := mem_singleton.1 hk''
    obtain ⟨n, hn⟩ := h.entered key' hk
    exact ⟨n, _, hn.concat PropertyEdit.put_ne_drop, hlast, hn.lt_length⟩

/-- The other keys stay in order when one is dropped. -/
theorem drop (h : InOrder edits keys) (key : String) :
    InOrder (edits ++ [.drop key]) (keys.filter fun key' => !(key' == key)) := by
  have hother {key' : String} (hk : key' ∈ keys.filter fun key' => !(key' == key)) :
      PropertyEdit.drop key ≠ .drop key' := by
    simp only [mem_filter, Bool.not_eq_true', beq_eq_false_iff_ne] at hk
    rintro ⟨⟩
    exact hk.2 rfl
  refine ⟨fun key' => ?_, fun key' hk => ?_, ?_⟩
  · rw [present_concat, mem_filter, h.mem_iff]
    simp only [Bool.not_eq_true', beq_eq_false_iff_ne, reduceCtorEq, exists_false, false_or,
      ne_eq, PropertyEdit.drop.injEq, eq_comm (a := key)]
  · obtain ⟨n, hn⟩ := h.entered key' (mem_of_mem_filter hk)
    exact ⟨n, hn.concat (hother hk)⟩
  · exact h.ascending_concat filter_sublist fun _ => hother

/-- One more edit keeps the keys in order. -/
theorem concat {ps : Properties} (h : InOrder edits ps.keys) (e : PropertyEdit) :
    InOrder (edits ++ [e]) (e.apply ps).keys := by
  cases e with
  | put key v =>
    rw [PropertyEdit.apply, OrderedMap.keys_insert]
    split
    next hmem => exact h.put_of_mem hmem v
    next hmem => exact h.put_of_not_mem hmem v
  | drop key =>
    have hkeys : (ps.erase key).keys = ps.keys.filter fun key' => !(key' == key) := by
      rw [OrderedMap.erase, OrderedMap.keys, OrderedMap.keys, filter_map]
      rfl
    rw [PropertyEdit.apply, hkeys]
    exact h.drop key

end InOrder

/-- Edits of an empty object lead to keys in the order in which they came in. -/
theorem inOrder_foldl (edits : List PropertyEdit) :
    InOrder edits (edits.foldl PropertyEdit.apply {}).keys := by
  -- from the end, since the edits before the last one say which keys are there already
  induction edits using List.reverseRecOn with
  | nil =>
    refine ⟨fun key => ?_, by simp [OrderedMap.keys], by simp [OrderedMap.keys]⟩
    constructor
    · exact fun h => absurd h not_mem_nil
    · rintro ⟨before, v, later, heq, -⟩
      simp at heq
  | append_singleton edits e ih =>
    rw [foldl_concat]
    exact ih.concat e

end

/-! ### Objects -/

/-- The edit that an entry stands for. -/
def PropertyEdit.ofEntry (e : String × Value) : PropertyEdit := .put e.1 e.2

theorem foldl_ofEntry (es : List (String × Value)) :
    (es.map PropertyEdit.ofEntry).foldl PropertyEdit.apply {} = OrderedMap.ofList es := by
  rw [foldl_map]
  rfl

namespace Operation

def edits (o : ObjectRef) : Operation → List PropertyEdit
  | put o' key v => if o'.index = o.index then [.put key v] else []
  | drop o' key => if o'.index = o.index then [.drop key] else []
  | _ => []

variable {h : Heap} {o : ObjectRef}

theorem size_apply (op : Operation) : h.objects.size ≤ (op.apply h).objects.size := by
  cases op with
  | newObject c => simp [apply]
  | freeze v => cases v <;> simp [apply]
  | _ => simp [apply]

theorem content_apply (ho : o.index < h.objects.size) (op : Operation) :
    ((op.apply h).objectCell o).content =
      (op.edits o).foldl PropertyEdit.apply (h.objectCell o).content := by
  -- an edit is made to one object
  have hedit (o' : ObjectRef) (e : PropertyEdit) :
      ((h.objects.modify o'.index fun c => { c with content := e.apply c.content }).getD o.index
        { content := {}, stamp := 0, isShared := true }).content =
        (if o'.index = o.index then [e] else []).foldl PropertyEdit.apply
          (h.objectCell o).content := by
    rw [getD_modify]
    by_cases hindex : o'.index = o.index
    · rw [if_pos ⟨hindex, ho⟩, if_pos hindex]
      rfl
    · rw [if_neg fun hboth => hindex hboth.1, if_neg hindex]
      rfl
  cases op with
  | newObject c => exact congrArg Cell.content (getD_push _ c _ ho)
  | put o' key v => exact hedit o' (.put key v)
  | drop o' key => exact hedit o' (.drop key)
  | freeze v =>
    cases v with
    | object o' =>
      refine (congrArg Cell.content (getD_modify _ _ _ _ _)).trans ?_
      by_cases hboth : o'.index = o.index ∧ o.index < h.objects.size
      · rw [if_pos hboth]
        rfl
      · rw [if_neg hboth]
        rfl
    | _ => rfl
  | _ => rfl

end Operation

namespace Heap

/-- The object that is made next. -/
def next (h : Heap) : ObjectRef := ⟨h.objects.size⟩

variable {h : Heap} {o : ObjectRef}

theorem content_run (ho : o.index < h.objects.size) (ops : List Operation) :
    ((h.run ops).objectCell o).content =
      (ops.flatMap (Operation.edits o)).foldl PropertyEdit.apply (h.objectCell o).content := by
  induction ops generalizing h with
  | nil => rfl
  | cons op ops ih =>
    rw [run_cons, ih (ho.trans_le (Operation.size_apply op)), Operation.content_apply ho,
      flatMap_cons, foldl_append]

/-- An object that is made of entries has its keys in order at every later point. -/
theorem inOrder_run (h : Heap) {c : Cell Properties} {es : List (String × Value)}
    (hc : c.content = .ofList es) (ops : List Operation) :
    InOrder (es.map PropertyEdit.ofEntry ++ ops.flatMap (Operation.edits h.next))
      ((h.run (.newObject c :: ops)).objectCell h.next).content.keys := by
  have hsize : h.next.index < ((Operation.newObject c).apply h).objects.size := by
    simp [Operation.apply, next]
  have hcell : ((Operation.newObject c).apply h).objectCell h.next = c := by
    simp [Operation.apply, objectCell, next]
  rw [run_cons, content_run hsize, hcell, hc, ← foldl_ofEntry, ← foldl_append]
  exact inOrder_foldl _

end Heap

/-! ### Literals -/

namespace Eval

variable (r : Interp) (s : Scope)

/-- The entries that a property of a literal adds, one by one. -/
def propertyEntries : Property → Eval (List (String × Value))
  | .spread e _ => do entries r (← r.expr s e)
  | .shorthand id => return [(id.name, ← read r s id.name)]
  | .keyValue key e => do
    let key ← propertyKey r s key
    return [(key, ← r.expr s e)]
  | .method key f => do
    let key ← propertyKey r s key
    return [(key, ← newFunc s (some key) f)]
  | .getter _ _ => unsupported .accessor
  | .setter _ _ _ => unsupported .accessor
  | .shorthandDefault _ _ => unsupported .shorthandDefault

/-- The entries of a literal: those of its properties, in the order in which these are written. -/
def literalEntries : List Property → Eval (List (String × Value))
  | [] => return []
  | p :: ps => do
    let es ← propertyEntries r s p
    return es ++ (← literalEntries ps)

theorem evalProperty_eq_entries (acc : Properties) (p : Property) :
    evalProperty r s acc p =
      (do return (← propertyEntries r s p).foldl (fun ps e => ps.insert e.1 e.2) acc) := by
  cases p with
  | spread e hasComma => simp only [evalProperty, propertyEntries, bind_assoc]
  | getter => rfl
  | setter => rfl
  | shorthandDefault => rfl
  | _ =>
    simp only [evalProperty, propertyEntries, bind_assoc, pure_bind, foldl_cons,
      foldl_nil]

theorem foldlM_evalProperty (acc : Properties) (ps : List Property) :
    ps.foldlM (evalProperty r s) acc =
      (do return (← literalEntries r s ps).foldl (fun ps e => ps.insert e.1 e.2) acc) := by
  induction ps generalizing acc with
  | nil => rfl
  | cons p ps ih =>
    simp only [foldlM_cons, evalProperty_eq_entries, literalEntries, bind_assoc, pure_bind, ih,
      foldl_append]

/-- A literal makes an object of its entries. -/
theorem evalExpr_object (ps : List Property) :
    evalExpr r s (.object ps) = (do newObject (.ofList (← literalEntries r s ps))) := by
  have hexpr : evalExpr r s (.object ps) =
      (do newObject (← ps.foldlM (evalProperty r s) {})) := rfl
  rw [hexpr, foldlM_evalProperty, bind_assoc]
  simp only [pure_bind]
  rfl

/-- The argument of a style call that is evaluated key by key is made of the entries of a literal as
well. -/
theorem ofList_of_evalEach {e : Expr} {qs : List PlainProperty} {ps : Properties} {m m' : Machine}
    (hqs : plainProperties e = some qs) (heach : evalEach r s {} none qs m = .ok (.ok ps) m') :
    ∃ props es, e.unwrapped = .object props ∧ literalEntries r s props m = .ok es m' ∧
      ps = .ofList es := by
  obtain ⟨props, hprops, hmap⟩ := exists_object_of_plainProperties hqs
  rcases evalEach_cases (r := r) (s := s) hmap {} m with
    ⟨acc, m₁, hfold, hacc⟩ | ⟨error, m₁, key, -, hreports⟩
  · cases hacc.symm.trans heach
    rw [foldlM_evalProperty] at hfold
    cases hes : literalEntries r s props m with
    | ok es m₂ =>
      cases (bind_eq_of_ok hes).symm.trans hfold
      exact ⟨props, es, hprops, hes, rfl⟩
    | error error m₂ => cases (bind_eq_of_error hes).symm.trans hfold
  · rcases hreports with ⟨keys, m₂, hkeys⟩ | ⟨error', m₂, herror, -⟩
    · cases hkeys.symm.trans heach
    · cases herror.symm.trans heach

/-! ### Listing -/

/-- What lists the properties of an object lists them in the order of the object. -/
structure Lists (r : Interp) (o : ObjectRef) (m : Machine) : Prop where
  entries : Eval.entries r (.object o) m = .ok (m.objectCell o).content.entries m
  keys : callBuiltin r .keys [.object o] m =
    newArray ((m.objectCell o).content.keys.map .string).toArray m
  values : callBuiltin r .values [.object o] m =
    newArray (m.objectCell o).content.values.toArray m
  pairs : callBuiltin r .entries [.object o] m =
    (do newArray (← (m.objectCell o).content.entries.mapM fun e =>
      newArray #[.string e.1, e.2]).toArray : Eval Value) m
  assign : ∀ target sources, callBuiltin r .assign (.object target :: .object o :: sources) m =
    (do (m.objectCell o).content.entries.forM fun e => setProperty (.object target) e.1 e.2
        callBuiltin r .assign (.object target :: sources) : Eval Value) m
  forIn : ∀ s head p e body m₀ m₁, tick m₀ = .ok () m₁ → r.expr s e m₁ = .ok (.object o) m →
    runStmt r s (.forIn head p e body) m₀ =
      runEach r s head p body ((m.objectCell o).content.keys.map .string) m
  spread : ∀ s e hasComma m₀, r.expr s e m₀ = .ok (.object o) m →
    propertyEntries r s (.spread e hasComma) m₀ = .ok (m.objectCell o).content.entries m
  styles : ∀ depth v m', detach r (depth + 1) (.object o) m = .ok v m' →
    ∃ fields, v = .object fields ∧ fields.map Prod.fst = (m.objectCell o).content.keys

/-- Entries whose values are converted one by one keep their keys. -/
theorem map_fst_mapM {α β : Type} (f : α → Eval β) (es : List (String × α)) {m m' : Machine}
    {fields : List (String × β)}
    (h : (es.mapM fun e : String × α => (return (e.1, ← f e.2) : Eval (String × β))) m =
      .ok fields m') : fields.map Prod.fst = es.map Prod.fst := by
  induction es generalizing m fields with
  | nil =>
    cases h
    rfl
  | cons e es ih =>
    rw [mapM_cons, bind_assoc] at h
    simp only [pure_bind] at h
    cases hv : f e.2 m with
    | error error m₁ => cases (bind_eq_of_error hv).symm.trans h
    | ok v m₁ =>
      replace h := (bind_eq_of_ok hv).symm.trans h
      cases hrest : (es.mapM fun e : String × α => (return (e.1, ← f e.2) : Eval (String × β))) m₁
      with
      | error error m₂ => cases (bind_eq_of_error hrest).symm.trans h
      | ok rest m₂ =>
        cases (bind_eq_of_ok hrest).symm.trans h
        rw [map_cons, map_cons, ih hrest]

theorem lists (r : Interp) (o : ObjectRef) (m : Machine) : Lists r o m := by
  have hentries : Eval.entries r (Value.object o) m = .ok (m.objectCell o).content.entries m := rfl
  have hlist (f : String × Value → Eval Value) : listEntries r [.object o] f m =
      (do newArray (← (m.objectCell o).content.entries.mapM f).toArray) m :=
    bind_eq_of_ok hentries
  refine ⟨hentries, ?_, ?_, hlist _, ?_, ?_, ?_, ?_⟩
  · refine (hlist _).trans ?_
    simp only [mapM_pure, pure_bind, OrderedMap.keys, map_map]
    rfl
  · refine (hlist _).trans ?_
    simp only [mapM_pure, pure_bind, OrderedMap.values]
  · intro target sources
    have hassign (vs : List Value) : callBuiltin r .assign (.object target :: vs) =
        (do vs.forM fun source => do
              (← Eval.entries r source).forM fun e => setProperty (.object target) e.1 e.2
            return .object target) := rfl
    have hcons (f : Value → Eval PUnit) (v : Value) (vs : List Value) :
        (v :: vs).forM f = (do f v; vs.forM f) := rfl
    rw [hassign, hassign, hcons, bind_assoc, bind_assoc]
    exact bind_eq_of_ok hentries
  · intro s head p e body m₀ m₁ htick hexpr
    refine (bind_eq_of_ok htick).trans ((bind_eq_of_ok hexpr).trans ?_)
    refine (bind_eq_of_ok hentries).trans ?_
    rw [OrderedMap.keys, map_map]
    rfl
  · intro s e hasComma m₀ hexpr
    exact (bind_eq_of_ok hexpr).trans hentries
  · intro depth v m' hv
    have hdetach : detach r (depth + 1) (.object o) =
        (do return .object (← convertEach r (detach r depth) (.object o))) := rfl
    rw [hdetach] at hv
    cases hfields : convertEach r (detach r depth) (.object o) m with
    | error error m₁ => cases (bind_eq_of_error hfields).symm.trans hv
    | ok fields m₁ =>
      cases (bind_eq_of_ok hfields).symm.trans hv
      exact ⟨fields, rfl, map_fst_mapM _ _ ((bind_eq_of_ok hentries).symm.trans hfields)⟩

end Eval

/-! ### Jobs -/

/-- After each point at which an object is made of entries, its keys are those which are there after
the entries and the later edits of the object, in the order in which they came in. -/
def KeysInOrder (ops : List Operation) : Prop :=
  ∀ before c mid rest es, ops = before ++ .newObject c :: mid ++ rest → c.content = .ofList es →
    let o := (Heap.run {} before).next
    InOrder (es.map PropertyEdit.ofEntry ++ mid.flatMap (Operation.edits o))
      ((Heap.run {} (before ++ .newObject c :: mid)).objectCell o).content.keys

/-- **In every run, keys are listed in the order in which they came in.** Jobs perform operations on
an empty heap, and at every point of that run the keys of an object that was made of entries stand
in the order in which they came in: one that is put again keeps its place, and one that was dropped
and is put again comes last. A literal is made of its entries in the order in which it is written,
also where the argument of a style call is evaluated key by key. All that lists properties lists
them in the order of the object. -/
theorem Batch.keys_in_order (g : Graph) (limits : Limits) (cache : ModuleCache) (jobs : List Job) :
    (∃ ops, Performs jobs (.start g limits cache) ops ∧
      (runJobs jobs (.start g limits cache)).2.heap = Heap.run {} ops ∧ KeysInOrder ops) ∧
    (∀ r s ps, evalExpr r s (.object ps) = do newObject (.ofList (← literalEntries r s ps))) ∧
    (∀ r s e qs ps m m', plainProperties e = some qs →
      evalEach r s {} none qs m = .ok (.ok ps) m' → ∃ props es, e.unwrapped = .object props ∧
        literalEntries r s props m = .ok es m' ∧ ps = .ofList es) ∧
    ∀ r o m, Lists r o m := by
  obtain ⟨ops, hops, -⟩ := exists_performs jobs (.start g limits cache)
  refine ⟨⟨ops, hops, hops.heap_runJobs, ?_⟩, evalExpr_object,
    fun r s _ _ _ _ _ => ofList_of_evalEach r s, lists⟩
  intro before c mid rest es _ hc o
  rw [Heap.run_append]
  exact Heap.inOrder_run _ hc mid

/-! ### Keys that are indices -/

/-- The keys of `{ b: true, '2': true, '1': true }` are listed as they are written, although two of
them are indices. -/
theorem Eval.index_keys_unsorted : ∃ o m m',
    (interp 2).expr { module := "/unit" } (.object [.keyValue (.name "b") (.bool true),
      .keyValue (.str "2") (.bool true), .keyValue (.str "1") (.bool true)]) idle =
        .ok (.object o) m ∧
    entries (interp 2) (.object o) m =
      .ok [("b", .bool true), ("2", .bool true), ("1", .bool true)] m' ∧
    ["b", "2", "1"].map arrayIndex? = [none, some 2, some 1] := by
  refine ⟨_, _, _, rfl, rfl, ?_⟩
  have hdigits : Decimal.ofDigits 10 ['2'] = 2 ∧ Decimal.ofDigits 10 ['1'] = 1 := ⟨rfl, rfl⟩
  have htexts : Nat.repr 2 = "2" ∧ Nat.repr 1 = "1" := ⟨rfl, rfl⟩
  simp [arrayIndex?, hdigits, htexts]

end AtomicStyles
