import AtomicStyles.Proofs.Logic.Values

/-!
# Rules for the library

The methods of values and the functions of the library.

## Main results

* `Logic.holds_callText`, `Logic.holds_callNumber`, `Logic.holds_callObject` — methods of texts,
  numbers and objects.
* `Logic.holds_callList` — methods of arrays.
* `Logic.holds_global`, `Logic.holds_callBuiltin` — global names and functions.
-/

namespace AtomicStyles

open List

theorem Judgement.Good.argument {J : Judgement} {args : List Value} (h : J.Good args) (n : Nat) :
    J.Good (argument args n) :=
  h.getD (d := .undefined) trivial n

namespace Logic

open Script Eval

variable {L : Logic} {i : L.Index} {size : Nat} {R : L.Bound → Interp} (hr : L.Runs i size R)

/-! ### Places in texts and arrays -/

variable {v f : Value}

theorem holds_optional {α : Type} {Q : α → Prop} {a : α} {f : Value → Eval α} (ha : Q a)
    (hf : L.Holds i Q fun _ => f v) : L.Holds i Q fun _ => optional v a f := by
  cases v with
  | undefined => exact .pure ha
  | _ => exact hf

theorem holds_relativePlace (length default : Nat) (v : Value) :
    L.Gives i fun _ => relativePlace length default v :=
  holds_optional trivial ((holds_number v).bind fun _ _ => .pure trivial)

theorem holds_clampedPlace (length default : Nat) (v : Value) :
    L.Gives i fun _ => clampedPlace length default v :=
  holds_optional trivial ((holds_number v).bind fun _ _ => .pure trivial)

theorem holds_itemPlace (length : Nat) (fromEnd : Bool) (v : Value) :
    L.Gives i fun _ => itemPlace length fromEnd v :=
  (holds_number v).bind fun _ _ => .pure fun _ _ => trivial

theorem holds_count (v : Value) : L.Gives i fun _ => count v :=
  (holds_number v).bind fun _ _ => .pure trivial

/-! ### Methods of texts -/

theorem holds_replaceFrom (needle hay : List UInt16) (isAll : Bool)
    {replacement : L.Bound → Nat → Eval String} (h : ∀ n, L.Gives i fun k => replacement k n)
    (fuel start : Nat) :
    L.Gives i fun k => replaceFrom needle hay isAll (replacement k) fuel start := by
  have hplain (us : List UInt16) : L.Good us := fun _ _ => trivial
  induction fuel generalizing start with
  | zero => exact .pure (hplain _)
  | succ fuel ih =>
    unfold replaceFrom
    cases Text.findUnits needle hay start with
    | none => exact .pure (hplain _)
    | some found =>
      refine (h found).bind fun t _ => ?_
      dsimp only
      split
      · exact (ih _).bind fun rest _ => .pure (hplain _)
      · exact .pure (hplain _)

include hr in
theorem holds_replaceText (s : String) (isAll : Bool) {args : List Value} (hargs : L.Good args) :
    L.Gives i fun k => replaceText (R k) s isAll args := by
  refine (L.text _).bind fun needle _ => ?_
  refine (holds_replaceFrom _ _ _ (fun n => ?_) _ _).bind fun us _ => .pure trivial
  have hreplacement := hargs.argument 1
  -- A replacement that is a function is called for each place.
  generalize argument args 1 = v at hreplacement ⊢
  cases v with
  | function id f =>
    have hplain : L.Good [Value.string needle, .number n.toFloat, .string s] :=
      .cons trivial (.cons trivial (.cons trivial .nil))
    exact (hr.call hreplacement hplain).bind fun v _ => L.text v
  | _ => exact L.text _

theorem holds_padText (s : String) (atStart : Bool) (args : List Value) :
    L.Gives i fun _ => padText s atStart args := by
  refine (holds_count _).bind fun target _ => ?_
  refine (holds_optional (Q := L.Good) (a := " ") trivial (L.text _)).bind fun filler _ => ?_
  exact .ite (.pure trivial) (.pure trivial)

theorem holds_splitText (s : String) (args : List Value) : L.Gives i fun _ => splitText s args := by
  refine (holds_optional (Q := L.Good) ?_ ?_).bind fun parts hparts => ?_
  · exact .cons trivial .nil
  · refine (L.text _).bind fun sep _ => .pure ?_
    split
    · exact good_unitTexts _ s
    · intro v hv
      obtain ⟨t, _, rfl⟩ := mem_map.1 hv
      trivial
  · refine (holds_optional (Q := L.Good) hparts ?_).bind fun parts hparts =>
      L.newArray hparts.toArray
    exact (holds_count _).bind fun n _ => .pure (hparts.subset (take_subset n parts))

theorem holds_repeatText (s : String) (args : List Value) : L.Gives i fun _ => repeatText s args :=
  (holds_number _).bind fun _ _ => .ite (holds_raise _) (.pure trivial)

include hr in
theorem holds_callText (s : String) (method : TextMethod) {args : List Value}
    (hargs : L.Good args) : L.Gives i fun k => callText (R k) s method args := by
  cases method with
  | concat => exact (holds_texts args).bind fun ts _ => .pure trivial
  | repeats => exact holds_repeatText s args
  | replace => exact holds_replaceText hr s false hargs
  | replaceAll => exact holds_replaceText hr s true hargs
  | padStart => exact holds_padText s true args
  | padEnd => exact holds_padText s false args
  | split => exact holds_splitText s args
  | startsWith => exact (L.text _).bind fun t _ => .pure trivial
  | endsWith => exact (L.text _).bind fun t _ => .pure trivial
  | includes => exact (L.text _).bind fun t _ => .pure trivial
  | slice =>
    refine (holds_relativePlace _ _ _).bind fun start _ => ?_
    exact (holds_relativePlace _ _ _).bind fun stop _ => .pure trivial
  | substring =>
    refine (holds_clampedPlace _ _ _).bind fun a _ => ?_
    exact (holds_clampedPlace _ _ _).bind fun b _ => .pure trivial
  | charAt =>
    refine (holds_itemPlace _ _ _).bind fun place _ => ?_
    cases place <;> exact .pure trivial
  | «at» =>
    refine (holds_itemPlace _ _ _).bind fun place _ => ?_
    cases place <;> exact .pure trivial
  | indexOf =>
    refine (L.text _).bind fun needle _ => (holds_relativePlace _ _ _).bind fun start _ => ?_
    cases Text.findUnits (Text.units needle) (Text.units s) start <;> exact .pure trivial
  | _ => exact .pure trivial

/-! ### Methods of numbers and objects -/

theorem holds_fixedText (x : Float) (args : List Value) : L.Gives i fun _ => fixedText x args := by
  refine (holds_count _).bind fun places _ => .ite (holds_raise _) ?_
  cases Decimal.Binary.ofFloat? x <;> exact .pure trivial

theorem holds_radixText (x : Float) (args : List Value) : L.Gives i fun _ => radixText x args := by
  refine (holds_optional (Q := L.Good) (a := (10 : Nat)) trivial ?_).bind fun base _ => ?_
  · exact (holds_count _).bind fun n _ => .pure trivial
  · refine .ite (.pure trivial) ?_
    cases (Decimal.Binary.ofFloat? x).bind Decimal.Binary.toInt? with
    | none => exact .unsupported _
    | some n => exact .ite (.unsupported _) (.pure trivial)

theorem holds_callNumber (x : Float) (method : NumberMethod) (args : List Value) :
    L.Gives i fun _ => callNumber x method args := by
  cases method with
  | toFixed => exact holds_fixedText x args
  | toString => exact holds_radixText x args

theorem holds_callObject (o : ObjectRef) (method : ObjectMethod) (args : List Value) :
    L.Gives i fun _ => callObject o method args := by
  cases method with
  | hasOwnProperty =>
    exact (L.properties o).bind fun ps _ => (L.text _).bind fun key _ => .pure trivial
  | toString => exact (L.text (.object o)).bind fun t _ => .pure trivial

/-! ### Methods of arrays -/

theorem holds_checkCallable (v : Value) : L.Gives i fun _ => checkCallable v :=
  .ite ((L.text v).bind fun _ _ => .throw nofun) (.pure trivial)

theorem holds_indexedItems (a : ArrayRef) : L.Gives i fun _ => indexedItems a :=
  (L.items a).bind fun _ hxs => .pure fun e he =>
    ⟨hxs.toList e.1 (fst_mem_of_mem_zipIdx he), trivial⟩

theorem holds_spreadItems (hv : L.Good v) : L.Gives i fun _ => spreadItems v := by
  have hplain : L.Good [v] := hv.cons .nil
  cases v with
  | array a => exact (L.items a).bind fun xs hxs => .pure hxs.toList
  | _ => exact .pure hplain

include hr

theorem holds_visitItem (hf : L.Good f) (a : ArrayRef) {item : Value × Nat} (hitem : L.Good item) :
    L.Gives i fun k => visitItem (R k) f a item :=
  hr.call hf (.cons hitem.1 (.cons trivial (.cons trivial .nil)))

theorem holds_searchItems (hf : L.Good f) (a : ArrayRef) (wanted : Bool) {l : List (Value × Nat)}
    (hl : L.Good l) : L.Gives i fun k => searchItems (R k) f a wanted l := by
  induction l with
  | nil => exact .pure nofun
  | cons item rest ih =>
    obtain ⟨hitem, hrest⟩ := hl.of_cons
    exact (holds_visitItem hr hf a hitem).bind fun v _ => .ite (.pure hitem.some) (ih hrest)

theorem holds_reduceItems (hf : L.Good f) (a : ArrayRef) {args : List Value} (hargs : L.Good args) :
    L.Gives i fun k => reduceItems (R k) f a args := by
  have hstep (acc : Value) (hacc : L.Good acc) (item : Value × Nat) (hitem : L.Good item) :
      L.Gives i fun k =>
        (R k).call f [acc, item.1, .number item.2.toFloat, .array a] :=
    hr.call hf (.cons hacc (.cons hitem.1 (.cons trivial (.cons trivial .nil))))
  refine (holds_indexedItems a).bind fun l hl => ?_
  cases hstart : args[1]? with
  | some v =>
    have hv : L.Good v := hargs v (mem_of_getElem? hstart)
    exact .foldlM l (fun acc hacc item hitem => hstep acc hacc item (hl item hitem)) hv
  | none =>
    cases l with
    | nil => exact .throw nofun
    | cons first l =>
      obtain ⟨hfirst, hl⟩ := hl.of_cons
      exact .foldlM l (fun acc hacc item hitem => hstep acc hacc item (hl item hitem)) hfirst.1

theorem holds_compareBy {comparator a b : Value} (hcomparator : L.Good comparator) (ha : L.Good a)
    (hb : L.Good b) : L.Gives i fun k => compareBy (R k) comparator a b := by
  refine .ite ?_ ((L.text a).bind fun s _ => (L.text b).bind fun t _ => .pure trivial)
  have hcall := hr.call hcomparator (ha.cons (hb.cons .nil))
  exact hcall.bind fun v _ => (holds_number v).bind fun x _ => .pure trivial

theorem holds_compareItems {comparator a b : Value} (hcomparator : L.Good comparator)
    (ha : L.Good a) (hb : L.Good b) : L.Gives i fun k => compareItems (R k) comparator a b := by
  have hby := holds_compareBy hr hcomparator ha hb
  cases a with
  | undefined => cases b <;> exact .pure trivial
  | _ =>
    cases b with
    | undefined => exact .pure trivial
    | _ => exact hby

omit hr

theorem holds_insertSorted {order : L.Bound → Value → Value → Eval Ordering}
    (h : ∀ a b, L.Good a → L.Good b → L.Gives i fun k => order k a b) (hv : L.Good v)
    {ws : List Value} (hws : L.Good ws) : L.Gives i fun k => insertSorted (order k) v ws := by
  induction ws with
  | nil => exact .pure (hv.cons .nil)
  | cons w ws ih =>
    obtain ⟨hw, hws'⟩ := hws.of_cons
    refine (h w v hw hv).bind fun o _ => ?_
    cases o with
    | gt => exact (ih hws').bind fun ws hws => .pure (hw.cons hws)
    | _ => exact .pure (hv.cons hws)

theorem holds_sortItems {order : L.Bound → Value → Value → Eval Ordering}
    (h : ∀ a b, L.Good a → L.Good b → L.Gives i fun k => order k a b) {vs : List Value}
    (hvs : L.Good vs) : L.Gives i fun k => sortItems (order k) vs := by
  have hfold : L.Gives i fun k =>
      vs.foldlM (fun sorted v => insertSorted (order k) v sorted) [] :=
    .foldlM vs (fun sorted hsorted v hv => holds_insertSorted h (hvs v hv) hsorted) nofun
  exact hfold.bind fun _ hsorted => .pure fun v hv => hsorted v (mem_reverse.1 hv)

theorem holds_changeItems (a : ArrayRef) (method : ListMethod) {args : List Value}
    (hargs : L.Good args) : L.Gives i fun _ => changeItems a method args := by
  have hchange {f : Array Value → Array Value} (hf : ∀ xs, L.Good xs → L.Good (f xs)) :
      L.Gives i fun _ => changeArray a (pure f) := L.changeArray a (.pure f) (.pure hf)
  refine (L.items a).bind fun held hheld => ?_
  cases method with
  | push =>
    refine (hchange fun xs hxs => ?_).bind fun _ _ => (L.items a).bind fun xs _ => .pure trivial
    intro v hv
    have hlist : v ∈ xs.toList ++ args := Array.toList_appendList ▸ Array.mem_toList_iff.2 hv
    rcases mem_append.1 hlist with hv | hv
    · exact hxs.toList v hv
    · exact hargs v hv
  | unshift =>
    refine (hchange fun xs hxs => ?_).bind fun _ _ => (L.items a).bind fun xs _ => .pure trivial
    intro v hv
    rcases Array.mem_append.1 hv with hv | hv
    · exact hargs.toArray v hv
    · exact hxs v hv
  -- What is taken out was held before, and what is left as well.
  | pop =>
    refine (hchange fun xs hxs => ?_).bind fun _ _ => ?_
    · intro v hv
      have hlist : v ∈ xs.toList.dropLast := Array.toList_pop ▸ Array.mem_toList_iff.2 hv
      exact hxs.toList v (mem_of_mem_dropLast hlist)
    · refine .pure ?_
      cases hlast : held.back? with
      | none => trivial
      | some v => exact hheld v (Array.mem_of_back? hlast)
  | shift =>
    refine (hchange fun xs hxs => ?_).bind fun _ _ => ?_
    · exact hxs.extract _ _
    · refine .pure ?_
      cases hfirst : held[0]? with
      | none => trivial
      | some v => exact hheld v (Array.mem_of_getElem? hfirst)
  | _ =>
    refine (hchange fun xs hxs => ?_).bind fun _ _ => .pure trivial
    exact fun v hv => hxs v (Array.mem_reverse.1 hv)

include hr in
theorem holds_callList (a : ArrayRef) (method : ListMethod) {args : List Value}
    (hargs : L.Good args) : L.Gives i fun k => callList (R k) a method args := by
  have hf : L.Good (argument args 0) := hargs.argument 0
  have hchange := holds_changeItems (i := i) a method hargs
  have hcall := holds_checkCallable (L := L) (i := i) (argument args 0)
  have hindexed := holds_indexedItems (L := L) (i := i) a
  cases method with
  | map =>
    refine hcall.bind fun _ _ => hindexed.bind fun l hl => ?_
    refine (Judgement.Holds.mapM l fun item hitem => ?_).bind fun vs hvs => L.newArray hvs.toArray
    exact holds_visitItem hr hf a (hl item hitem)
  | filter =>
    refine hcall.bind fun _ _ => hindexed.bind fun l hl => ?_
    refine (Judgement.Holds.filterM l fun item hitem => ?_).bind fun kept hkept => ?_
    · exact (holds_visitItem hr hf a (hl item hitem)).bind fun v _ => .pure trivial
    · refine L.newArray (Judgement.Good.toArray fun v hv => ?_)
      obtain ⟨item, hitem, rfl⟩ := mem_map.1 hv
      exact (hl item (hkept hitem)).1
  | forEach =>
    refine hcall.bind fun _ _ => hindexed.bind fun l hl => ?_
    refine (Judgement.Holds.forM l fun item hitem => ?_).bind fun _ _ => .pure trivial
    exact (holds_visitItem hr hf a (hl item hitem)).bind fun _ _ => .pure trivial
  | flatMap =>
    refine hcall.bind fun _ _ => hindexed.bind fun l hl => ?_
    refine (Judgement.Holds.mapM l fun item hitem => ?_).bind fun parts hparts =>
      L.newArray hparts.flatten.toArray
    exact (holds_visitItem hr hf a (hl item hitem)).bind fun v hv => holds_spreadItems hv
  | find =>
    refine hcall.bind fun _ _ => hindexed.bind fun l hl => ?_
    refine (holds_searchItems hr hf a true hl).bind fun found hfound => ?_
    cases found with
    | none => exact .pure trivial
    | some item => exact .pure (hfound item rfl).1
  | findIndex =>
    refine hcall.bind fun _ _ => hindexed.bind fun l hl => ?_
    refine (holds_searchItems hr hf a true hl).bind fun found _ => ?_
    cases found <;> exact .pure trivial
  | some =>
    refine hcall.bind fun _ _ => hindexed.bind fun l hl => ?_
    exact (holds_searchItems hr hf a true hl).bind fun found _ => .pure trivial
  | every =>
    refine hcall.bind fun _ _ => hindexed.bind fun l hl => ?_
    exact (holds_searchItems hr hf a false hl).bind fun found _ => .pure trivial
  | reduce => exact hcall.bind fun _ _ => holds_reduceItems hr hf a hargs
  | join =>
    refine (holds_optional (Q := L.Good) (a := ",") trivial (L.text _)).bind fun sep _ => ?_
    exact (L.items a).bind fun xs _ => (holds_itemTexts _).bind fun ts _ => .pure trivial
  | toString =>
    exact (L.items a).bind fun xs _ => (holds_itemTexts _).bind fun ts _ => .pure trivial
  | flat =>
    have hone : L.Good (1 : Nat) := trivial
    refine (holds_optional hone (holds_count _)).bind fun depth _ => ?_
    refine (L.items a).bind fun xs hxs => ?_
    exact (L.flattened depth hxs.toList).bind fun vs hvs => L.newArray hvs.toArray
  | slice =>
    refine (L.items a).bind fun xs hxs => (holds_relativePlace _ _ _).bind fun start _ => ?_
    exact (holds_relativePlace _ _ _).bind fun stop _ => L.newArray (hxs.extract start stop)
  | concat =>
    refine (Judgement.Holds.mapM args fun v hv => ?_).bind fun parts hparts => ?_
    · exact holds_spreadItems (hargs v hv)
    · refine (L.items a).bind fun xs hxs => L.newArray fun v hv => ?_
      rcases Array.mem_append.1 hv with hv | hv
      · exact hxs v hv
      · exact hparts.flatten.toArray v hv
  | includes => exact (L.items a).bind fun xs _ => .pure trivial
  | indexOf =>
    refine (L.items a).bind fun xs _ => ?_
    cases xs.findIdx? fun v => v.strictEquals (argument args 0) <;> exact .pure trivial
  | «at» =>
    refine (L.items a).bind fun xs hxs => (holds_itemPlace _ _ _).bind fun place _ => ?_
    cases place with
    | none => exact .pure trivial
    | some n => exact .pure (hxs.getD_array (d := .undefined) trivial n)
  | sort =>
    have hsort := L.sortArray (i := i) a fun vs hvs =>
      holds_sortItems (fun _ _ ha hb => holds_compareItems hr hf ha hb) hvs
    exact hsort.bind fun _ _ => .pure trivial
  | _ => exact hchange

/-! ### Global names -/

theorem holds_newGlobal (g : GlobalObject) : L.Gives i fun _ => newGlobal g := by
  refine (Judgement.Holds.mapM _ fun e _ => ?_).bind fun functions hfunctions => L.newObject ?_
  · exact (L.newFunction (f := .builtin e.2) trivial).bind fun v hv => .pure ⟨trivial, hv⟩
  · intro e he
    rcases mem_append.1 he with he | he
    · exact (hfunctions e he).2
    · obtain ⟨c, _, rfl⟩ := mem_map.1 he
      trivial

theorem holds_globalObject (g : GlobalObject) : L.Gives i fun _ => globalObject g := by
  refine (L.madeGlobal g).bind fun made hmade => ?_
  cases made with
  | some v => exact .pure (hmade v rfl)
  | none =>
    exact (holds_newGlobal g).bind fun v hv => (L.keepGlobal g hv).bind fun _ _ => .pure hv

theorem holds_global (name : String) : L.Gives i fun _ => Eval.global name := by
  unfold Eval.global
  split
  · exact .pure trivial
  · exact .pure trivial
  · exact .pure trivial
  · split
    · exact L.newFunction (f := .builtin _) trivial
    · exact holds_globalObject _
    · exact .ite (.throw nofun) (.throw nofun)

/-! ### Documents -/

mutual

theorem holds_ofJson : ∀ d : Json, L.Gives i fun _ => ofJson d
  | .null => .pure trivial
  | .bool _ => .pure trivial
  | .int _ => .pure trivial
  | .real _ => .pure trivial
  | .str _ => .pure trivial
  | .arr docs => (holds_ofJsonItems docs).bind fun _ hvs => L.newArray hvs.toArray
  | .obj fields =>
    (holds_ofJsonFields fields).bind fun _ hes => L.newObject fun e he => (hes e he).2

theorem holds_ofJsonItems : ∀ ds : List Json, L.Gives i fun _ => ofJsonItems ds
  | [] => .pure nofun
  | d :: ds =>
    (holds_ofJson d).bind fun _ hv => (holds_ofJsonItems ds).bind fun _ hvs => .pure (hv.cons hvs)

theorem holds_ofJsonFields : ∀ ds : List (String × Json), L.Gives i fun _ => ofJsonFields ds
  | [] => .pure nofun
  | (key, d) :: ds =>
    (holds_ofJson d).bind fun v hv => (holds_ofJsonFields ds).bind fun _ hes =>
      .pure (Judgement.Good.cons (b := (key, v)) ⟨trivial, hv⟩ hes)

end

theorem holds_parseJson (args : List Value) : L.Gives i fun _ => parseJson args := by
  refine (L.text _).bind fun t _ => ?_
  cases Json.parse? t with
  | some doc => exact holds_ofJson doc
  | none => exact holds_raise _

include hr

theorem holds_toJson (depth : Nat) {v : Value} (hv : L.Good v) :
    L.Gives i fun k => toJson (R k) depth v := by
  induction depth generalizing v with
  | zero => exact .throw nofun
  | succ depth ih =>
    have hplain (doc : Option Json) : L.Good doc := fun _ _ => trivial
    have hfields (v : Value) (hv : L.Good v) : L.Gives i fun k => do
        let fields ← (← entries (R k) v).mapM fun e =>
          return (← toJson (R k) depth e.2).map fun doc => (e.1, doc)
        return some (Json.obj (fields.filterMap id)) := by
      refine (holds_entries hr hv).bind fun es hes => ?_
      refine (Judgement.Holds.mapM es fun e he => ?_).bind fun fields _ => .pure (hplain _)
      exact (ih (hes e he).2).bind fun d _ => .pure fun _ _ => ⟨trivial, trivial⟩
    cases v with
    | array a =>
      refine (L.items a).bind fun xs hxs => ?_
      refine (Judgement.Holds.mapM _ fun v hv => ?_).bind fun docs _ => .pure (hplain _)
      exact (ih (hxs.toList v hv)).bind fun d _ => .pure trivial
    | object o => exact hfields _ hv
    | module id => exact hfields _ hv
    | _ => exact .pure (hplain _)

variable {args : List Value}

theorem holds_stringify (hargs : L.Good args) : L.Gives i fun k => stringify (R k) args := by
  refine (holds_toJson hr _ (hargs.argument 0)).bind fun doc _ => ?_
  cases doc <;> exact .pure trivial

/-! ### Functions of objects and arrays -/

theorem holds_assignAll (hargs : L.Good args) : L.Gives i fun k => assignAll (R k) args := by
  unfold assignAll
  cases argument args 0 with
  | object o =>
    refine (Judgement.Holds.forM args.tail fun source hsource => ?_).bind fun _ _ => .pure trivial
    refine (holds_entries hr (hargs source (mem_of_mem_tail hsource))).bind fun es hes => ?_
    exact .forM es fun e he => holds_setProperty (.object o) e.1 (hes e he).2
  | _ => exact .unsupported _

theorem holds_listEntries (hargs : L.Good args) {f : String × Value → Eval Value}
    (h : ∀ e, L.Good e → L.Gives i fun _ => f e) : L.Gives i fun k => listEntries (R k) args f := by
  refine .ite (.throw nofun) ((holds_entries hr (hargs.argument 0)).bind fun es hes => ?_)
  refine (Judgement.Holds.mapM es fun e he => ?_).bind fun vs hvs => L.newArray hvs.toArray
  exact h e (hes e he)

theorem holds_objectFromEntries (hargs : L.Good args) :
    L.Gives i fun k => objectFromEntries (R k) args := by
  refine (holds_entries hr (hargs.argument 0)).bind fun es hes => ?_
  refine (Judgement.Holds.mapM es fun e he => ?_).bind fun ps hps => L.newObject ?_
  · have hpair := (hes e he).2
    refine (holds_getProperty hr hpair "0").bind fun v _ => (L.text v).bind fun key _ => ?_
    exact (holds_getProperty hr hpair "1").bind fun v hv => .pure ⟨trivial, hv⟩
  · exact Judgement.Good.insertAll (m := .empty) nofun fun e he => (hps e he).2

theorem holds_sourceItems (v : Value) : L.Gives i fun k => sourceItems (R k) v := by
  cases v with
  | array a => exact (L.items a).bind fun xs hxs => .pure hxs.toList
  | string s => exact .pure (good_unitTexts _ s)
  | object o =>
    have hget (key : String) : L.Gives i fun k => getProperty (R k) (.object o) key :=
      holds_getProperty hr (v := .object o) trivial key
    refine (hget "length").bind fun v _ => ?_
    exact (holds_count v).bind fun n _ => .mapM _ fun k _ => hget _
  | _ => exact .pure nofun

theorem holds_arrayFrom (hargs : L.Good args) : L.Gives i fun k => arrayFrom (R k) args := by
  refine (holds_sourceItems hr _).bind fun vs hvs => ?_
  dsimp only
  split
  · refine (Judgement.Holds.mapM _ fun item hitem => ?_).bind fun vs hvs => L.newArray hvs.toArray
    have hv : L.Good item.1 := hvs item.1 (fst_mem_of_mem_zipIdx hitem)
    exact hr.call (hargs.argument 1) (hv.cons (.cons trivial .nil))
  · exact L.newArray hvs.toArray

omit hr

/-! ### Functions of numbers -/

theorem holds_foldNumbers (f : Float → Float → Float) (start : Float) (args : List Value) :
    L.Gives i fun _ => foldNumbers f start args :=
  (Judgement.Holds.mapM args fun v _ => holds_number v).bind fun _ _ => .pure trivial

theorem holds_onNumber (f : Float → Float) (args : List Value) :
    L.Gives i fun _ => onNumber f args :=
  (holds_number _).bind fun _ _ => .pure trivial

theorem holds_testNumber (f : Float → Bool) (args : List Value) :
    L.Gives i fun _ => testNumber f args := by
  unfold testNumber
  cases argument args 0 <;> exact .pure trivial

theorem holds_radixArgument (v : Value) : L.Gives i fun _ => radixArgument v :=
  holds_optional nofun ((holds_number v).bind fun _ _ => .pure fun _ _ => trivial)

include hr in
theorem holds_callBuiltin (b : Builtin) {args : List Value} (hargs : L.Good args) :
    L.Gives i fun k => callBuiltin (R k) b args := by
  cases b with
  | max => exact holds_foldNumbers _ _ args
  | min => exact holds_foldNumbers _ _ args
  | pow => exact (holds_number _).bind fun x _ => (holds_number _).bind fun y _ => .pure trivial
  | random => exact .unsupported _
  | assign => exact holds_assignAll hr hargs
  | keys => exact holds_listEntries hr hargs fun e _ => .pure trivial
  | values => exact holds_listEntries hr hargs fun e he => .pure he.2
  | entries =>
    refine holds_listEntries hr hargs fun e he => L.newArray fun v hv => ?_
    rcases mem_pair.1 (Array.mem_toList_iff.2 hv) with rfl | rfl
    · trivial
    · exact he.2
  | freeze => exact L.freeze (hargs.argument 0)
  | isFrozen => exact (L.isFrozen _).bind fun b _ => .pure trivial
  | fromEntries => exact holds_objectFromEntries hr hargs
  | isArray =>
    unfold callBuiltin
    cases argument args 0 <;> exact .pure trivial
  | arrayFrom => exact holds_arrayFrom hr hargs
  | arrayOf => exact L.newArray hargs.toArray
  | stringify => exact holds_stringify hr hargs
  | parse => exact holds_parseJson args
  | string => exact .ite (.pure trivial) ((L.text _).bind fun t _ => .pure trivial)
  | number => exact .ite (.pure trivial) ((holds_number _).bind fun x _ => .pure trivial)
  | boolean => exact .pure trivial
  | parseInt =>
    exact (holds_radixArgument _).bind fun base _ => (L.text _).bind fun t _ => .pure trivial
  | parseFloat => exact (L.text _).bind fun t _ => .pure trivial
  | isNaN => exact (holds_number _).bind fun x _ => .pure trivial
  | isFinite => exact (holds_number _).bind fun x _ => .pure trivial
  | numberIsInteger => exact holds_testNumber _ args
  | numberIsFinite => exact holds_testNumber _ args
  | numberIsNaN => exact holds_testNumber _ args
  | error kind =>
    refine (holds_optional (Q := L.Good) (a := "") trivial (L.text _)).bind fun t _ => ?_
    exact holds_newError kind t
  | log => exact (holds_texts args).bind fun _ _ => .pure trivial
  | _ => exact holds_onNumber _ args

end Logic
end AtomicStyles
