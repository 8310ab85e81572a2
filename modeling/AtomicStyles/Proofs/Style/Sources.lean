import AtomicStyles.Style.Compile

/-!
# Declarations in source order

Reading a style object collects its declarations into blocks. Here they are listed one by
one instead, in the order in which they are written: the keys of an object in their order,
and under a list of selectors the whole object once for each selector, from left to right.
Reading succeeds only on objects whose declarations are sound, and its blocks are what
these declarations give when they are added one after the other.

## Main definitions

* `Source` — one declaration with its context.
* `StyleObject.fieldSources` — the declarations of an object, in source order.
* `Source.Sound` — what reading makes sure of.

## Main results

* `StyleObject.reads_addFields` — reading an object adds its declarations in source order.
* `StyleObject.ofValue_eq_ok` — what reading a value gives.
* `StyleObject.exists_source_of_mem_rules` — every rule comes from a declaration of the value.
-/

namespace AtomicStyles

open List

/-! ### Declarations -/

/-- A declaration as it is written: its context, its key and its value. -/
structure Source where
  path : List Segment
  key : String
  literal : Literal
deriving Repr, DecidableEq

/-- The longhands a declaration stands for. -/
def Source.atoms (d : Source) : List Atom :=
  Atom.ofLiteral (Declaration.hyphenate d.key) d.literal

def Literal.texts : Literal → List String
  | .value t => [t]
  | .fallbacks ts => ts

/-- The text of a step of a context. -/
def Segment.text : Segment → String
  | .selector t => t
  | .atRule t => t

/-- A context that some key opens. -/
def Segment.Opened (s : Segment) : Prop :=
  ∃ key segments, (Nesting.ofKey key).segments? = some segments ∧ s ∈ segments

/-- What reading makes sure of: no value ends its declaration early, and there is a choice
between several values or none. -/
structure Literal.Sound (l : Literal) : Prop where
  safe : ∀ t ∈ l.texts, ∀ c ∈ t.toList, StyleObject.isUnsafe c = false
  several : ∀ ts, l = .fallbacks ts → 2 ≤ ts.length

/-- A declaration with a sound value in a context that keys open. -/
structure Source.Sound (d : Source) : Prop where
  literal : d.literal.Sound
  opened : ∀ s ∈ d.path, s.Opened

namespace StyleObject

def itemText? : StyleValue → Option String
  | .string s => some (Text.trim s)
  | .number x => some (Decimal.text x)
  | _ => none

/-- The literal that a value stands for. -/
def literal? : StyleValue → Option Literal
  | .string s => some (.value (Text.trim s))
  | .number x => some (.value (Decimal.text x))
  | .array vs =>
    match vs.filterMap itemText? with
    | [] => none
    | [t] => some (.value t)
    | ts => some (.fallbacks ts)
  | _ => none

mutual

/-- The declarations under a key, in source order. -/
def valueSources (path : List Segment) (key : String) : StyleValue → List Source
  | .object fields =>
    ((Nesting.ofKey key).segments?.getD []).flatMap fun s => fieldSources (path ++ [s]) fields
  | v => (literal? v).toList.map fun l => ⟨path, key, l⟩

/-- The declarations of an object's fields, in source order. -/
def fieldSources (path : List Segment) : List (String × StyleValue) → List Source
  | [] => []
  | (key, v) :: fields => valueSources path key v ++ fieldSources path fields

end

end StyleObject

/-! ### Contexts that keys open -/

namespace Selector

theorem mem_atRules {path : List Segment} {t : String} :
    t ∈ atRules path ↔ Segment.atRule t ∈ path := by
  rw [atRules, mem_filterMap]
  constructor
  · rintro ⟨s, hs, heq⟩
    cases s with
    | selector u => cases heq
    | atRule u =>
      cases heq
      exact hs
  · intro h
    exact ⟨_, h, rfl⟩

theorem mem_selectors {path : List Segment} {t : String} :
    t ∈ selectors path ↔ Segment.selector t ∈ path := by
  rw [selectors, mem_filterMap]
  constructor
  · rintro ⟨s, hs, heq⟩
    cases s with
    | selector u =>
      cases heq
      exact hs
    | atRule u => cases heq
  · intro h
    exact ⟨_, h, rfl⟩

theorem mem_normalize {cs : List Char} (h : normalize cs ≠ []) : '&' ∈ normalize cs := by
  revert h
  unfold normalize
  dsimp only
  split
  · exact fun h => absurd rfl h
  · intro _
    split
    · next hmem => exact contains_iff_mem.1 hmem
    · split <;> exact .head _

end Selector

namespace Nesting

theorem ofAtRule_cases (cs : List Char) :
    ofAtRule cs = .invalid ∨ ∃ t rest, ofAtRule cs = .atRule t ∧ t.toList = '@' :: rest := by
  unfold ofAtRule
  dsimp only
  split
  · exact .inl rfl
  · split
    · exact .inr ⟨_, cs.takeWhile Selector.isNameChar, rfl, by simp⟩
    · exact .inr ⟨_, cs.takeWhile Selector.isNameChar ++
        ' ' :: Text.collapse (cs.dropWhile Selector.isNameChar), rfl, by simp⟩

/-- What a key can open: nothing, an at-rule, or selectors that refer to their parent. -/
theorem ofKey_cases (key : String) :
    ofKey key = .invalid ∨ (∃ t rest, ofKey key = .atRule t ∧ t.toList = '@' :: rest) ∨
      ∃ list, ofKey key = .selectors list ∧ ∀ t ∈ list, '&' ∈ t.toList := by
  unfold ofKey
  split
  · exact .inl rfl
  · next cs _ => exact (ofAtRule_cases cs).imp_right .inl
  · split
    · split
      · exact .inl rfl
      · next list hlist =>
        refine .inr (.inr ⟨_, rfl, fun t ht => ?_⟩)
        obtain ⟨u, hu, rfl⟩ := mem_map.1 ht
        obtain ⟨hmem, hne⟩ := mem_filter.1 hu
        obtain ⟨part, -, rfl⟩ := mem_map.1 hmem
        rw [String.toList_ofList]
        exact Selector.mem_normalize (by simpa using hne)
    · exact .inl rfl

end Nesting

namespace Segment.Opened

/-- A selector refers to its parent. -/
theorem selector {t : String} (h : (Segment.selector t).Opened) : '&' ∈ t.toList := by
  obtain ⟨key, segments, hsegments, hmem⟩ := h
  rcases Nesting.ofKey_cases key with hkey | ⟨u, rest, hkey, -⟩ | ⟨list, hkey, hlist⟩ <;>
    rw [hkey] at hsegments <;> cases hsegments
  · cases mem_singleton.1 hmem
  · obtain ⟨u, hu, heq⟩ := mem_map.1 hmem
    cases heq
    exact hlist t hu

theorem atRule {t : String} (h : (Segment.atRule t).Opened) : t.toList ≠ [] := by
  obtain ⟨key, segments, hsegments, hmem⟩ := h
  rcases Nesting.ofKey_cases key with hkey | ⟨u, rest, hkey, hu⟩ | ⟨list, hkey, -⟩ <;>
    rw [hkey] at hsegments <;> cases hsegments
  · cases mem_singleton.1 hmem
    rw [hu]
    exact cons_ne_nil _ _
  · obtain ⟨u, -, heq⟩ := mem_map.1 hmem
    cases heq

end Segment.Opened

/-! ### Texts without marks

Values are trimmed texts and numbers, and neither brings a character that ends a declaration. -/

namespace Text

theorem mem_of_mem_trim {s : String} {c : Char} (h : c ∈ (trim s).toList) : c ∈ s.toList := by
  rw [trim, String.toList_ofList, trimEnd, mem_reverse] at h
  have hstart : c ∈ trimStart s.toList := by
    simpa using (dropWhile_sublist _).mem h
  exact (dropWhile_sublist _).mem hstart

theorem strip?_eq_some_iff {pat cs rest : List Char} :
    strip? pat cs = some rest ↔ cs = pat ++ rest := by
  fun_induction strip? pat cs with
  | case1 cs => simp [eq_comm]
  | case2 => simp
  | case3 p ps c cs hc ih => simp [ih, (eq_of_beq hc).symm]
  | case4 p ps c cs hc => simp [Ne.symm (by simpa using hc : p ≠ c)]

end Text

namespace Decimal

/-- The characters in the text of a finite number. -/
def isNumeral (c : Char) : Bool := c.isDigit || c ∈ ['-', '+', '.', 'e']

variable {c : Char}

theorem isNumeral_of_mem_toDigits {n : Nat} (h : c ∈ Nat.toDigits 10 n) : isNumeral c := by
  simp [isNumeral, Nat.isDigit_of_mem_toDigits (by decide) (by decide) h]

theorem isNumeral_of_mem_zeros {n : Nat} (h : c ∈ zeros n) : isNumeral c := by
  rw [eq_of_mem_replicate h]
  decide

theorem isNumeral_of_mem_positional {ds : List Char} (hds : ∀ c ∈ ds, isNumeral c) {point : Int}
    {keep : Bool} (h : c ∈ positional ds point keep) : isNumeral c := by
  unfold positional at h
  split at h
  · simp only [cons_append, mem_cons, mem_append] at h
    rcases h with rfl | rfl | h | h
    · decide
    · decide
    · exact isNumeral_of_mem_zeros h
    · exact hds c h
  · dsimp only at h
    split at h
    · rcases mem_append.1 h with h | h
      · exact (mem_append.1 h).elim (hds c) isNumeral_of_mem_zeros
      · cases keep <;> simp at h
        rcases h with rfl | rfl <;> decide
    · rcases mem_append.1 h with h | h
      · exact hds c (mem_of_mem_take h)
      · rcases mem_cons.1 h with rfl | h
        · decide
        · exact hds c (mem_of_mem_drop h)

theorem isNumeral_of_mem_scientific {ds : List Char} (hds : ∀ c ∈ ds, isNumeral c) {point : Int}
    {plus : Bool} (h : c ∈ scientific ds point plus) : isNumeral c := by
  simp only [scientific, mem_append, mem_cons] at h
  rcases h with (h | rfl | h) | h
  · split at h
    · cases h
    · exact hds c h
    · rcases mem_cons.1 h with rfl | h
      · exact hds _ (.head _)
      · rcases mem_cons.1 h with rfl | h
        · decide
        · exact hds c (.tail _ h)
  · decide
  · split at h
    · rw [mem_singleton.1 h]
      decide
    · split at h
      · rw [mem_singleton.1 h]
        decide
      · cases h
  · exact isNumeral_of_mem_toDigits h

theorem isNumeral_of_mem_render {l : Layout} {b : Binary} (h : c ∈ l.render b) : isNumeral c := by
  have hds : ∀ d : Digits, ∀ c ∈ d.chars, isNumeral c := fun d c hc => isNumeral_of_mem_toDigits hc
  rcases mem_append.1 h with h | h
  · split at h
    · rw [mem_singleton.1 h]
      decide
    · cases h
  · unfold Layout.write at h
    dsimp only at h
    split at h
    · exact isNumeral_of_mem_positional (hds _) h
    · exact isNumeral_of_mem_scientific (hds _) h

end Decimal

namespace StyleObject

theorem isUnsafe_of_isNumeral {c : Char} (h : Decimal.isNumeral c) : isUnsafe c = false := by
  rw [Bool.eq_false_iff]
  intro hc
  simp only [isUnsafe, Bool.or_eq_true, beq_iff_eq] at hc
  rcases hc with (rfl | rfl) | rfl <;> revert h <;> decide

/-- The text of a number ends no declaration. -/
theorem isUnsafe_of_mem_text {x : Float} {c : Char} (h : c ∈ (Decimal.text x).toList) :
    isUnsafe c = false := by
  have hwords : ∀ s ∈ ["NaN", "Infinity", "-Infinity", "0"], ∀ c ∈ s.toList, isUnsafe c = false := by
    simp [isUnsafe]
  unfold Decimal.text at h
  split at h
  · split at h
    · exact hwords _ (by simp) c h
    · split at h
      · exact hwords _ (by simp) c h
      · exact hwords _ (by simp) c h
  · split at h
    · exact hwords _ (by simp) c h
    · rw [String.toList_ofList] at h
      exact isUnsafe_of_isNumeral (Decimal.isNumeral_of_mem_render h)

variable {slot property : String}

theorem stringText_eq_ok {s t : String} (h : stringText slot property s = .ok t) :
    t = Text.trim s ∧ ∀ c ∈ t.toList, isUnsafe c = false := by
  unfold stringText at h
  split at h
  · cases h
  · next hsafe =>
    cases h
    refine ⟨rfl, fun c hc => ?_⟩
    rw [any_eq_true] at hsafe
    exact Bool.eq_false_iff.2 fun hunsafe => hsafe ⟨c, Text.mem_of_mem_trim hc, hunsafe⟩

/-! ### Reading literals -/

theorem exists_of_bind_eq_ok {ε α β : Type} {x : Except ε α} {f : α → Except ε β} {b : β}
    (h : x >>= f = .ok b) : ∃ a, x = .ok a ∧ f a = .ok b := by
  cases x with
  | error e => cases h
  | ok a => exact ⟨a, rfl, h⟩

theorem exists_of_isOk {ε α : Type} {x : Except ε α} (h : x.isOk) : ∃ a, x = .ok a := by
  cases x with
  | error e => cases h
  | ok a => exact ⟨a, rfl⟩

theorem fallbackTexts_eq_ok {vs : List StyleValue} {ts : List String}
    (h : fallbackTexts slot property vs = .ok ts) :
    ts = vs.filterMap itemText? ∧ ∀ t ∈ ts, ∀ c ∈ t.toList, isUnsafe c = false := by
  fun_induction fallbackTexts slot property vs generalizing ts with
  | case1 =>
    cases h
    exact ⟨rfl, by simp⟩
  | case2 vs ih => exact ih h
  | case3 vs ih => exact ih h
  | case4 s vs ih =>
    obtain ⟨t, ht, h⟩ := exists_of_bind_eq_ok h
    obtain ⟨rest, hrest, h⟩ := exists_of_bind_eq_ok h
    cases h
    obtain ⟨rfl, hsafe⟩ := ih hrest
    obtain ⟨rfl, htext⟩ := stringText_eq_ok ht
    exact ⟨rfl, forall_mem_cons.2 ⟨htext, hsafe⟩⟩
  | case5 x vs ih =>
    obtain ⟨rest, hrest, h⟩ := exists_of_bind_eq_ok h
    cases h
    obtain ⟨rfl, hsafe⟩ := ih hrest
    exact ⟨rfl, forall_mem_cons.2 ⟨fun c hc => isUnsafe_of_mem_text hc, hsafe⟩⟩
  | case6 => cases h

theorem sound_value {t : String} (h : ∀ c ∈ t.toList, isUnsafe c = false) :
    (Literal.value t).Sound where
  safe := by simpa [Literal.texts] using h
  several := by simp

/-- Reading a literal gives the one that the value stands for, and it is sound. -/
theorem literal_eq_ok {v : StyleValue} {l : Option Literal} (h : literal slot property v = .ok l) :
    l = literal? v ∧ ∀ l' ∈ l, l'.Sound := by
  cases v with
  | undefined => cases h; exact ⟨rfl, by simp⟩
  | null => cases h; exact ⟨rfl, by simp⟩
  | bool b => cases h
  | function => cases h
  | object fields => cases h
  | number x =>
    cases h
    refine ⟨rfl, fun l hl => ?_⟩
    cases hl
    exact sound_value fun c hc => isUnsafe_of_mem_text hc
  | string s =>
    obtain ⟨t, ht, h⟩ := exists_of_bind_eq_ok h
    cases h
    obtain ⟨rfl, hsafe⟩ := stringText_eq_ok ht
    refine ⟨rfl, fun l hl => ?_⟩
    cases hl
    exact sound_value hsafe
  | array vs =>
    obtain ⟨ts, hts, h⟩ := exists_of_bind_eq_ok h
    obtain ⟨heq, hsafe⟩ := fallbackTexts_eq_ok hts
    rw [literal?, ← heq]
    match ts, h with
    | [], h => cases h; exact ⟨rfl, by simp⟩
    | [t], h =>
      cases h
      refine ⟨rfl, fun l hl => ?_⟩
      cases hl
      exact sound_value (hsafe t (by simp))
    | t :: t' :: ts, h =>
      cases h
      refine ⟨rfl, fun l hl => ?_⟩
      cases hl
      exact ⟨hsafe, fun ts' heq => by cases heq; simp⟩

/-! ### Reading objects -/

/-- The blocks after some declarations have been added to them, last block first. -/
def addSources (blocks : List Block) (ds : List Source) : List Block :=
  ds.foldl (fun bs d => declare d.path d.key d.literal bs) blocks

/-- Reading under `path` has added the declarations `ds`, all of them sound, to `blocks`. -/
structure Reads (path : List Segment) (blocks : List Block) (ds : List Source)
    (after : List Block) : Prop where
  eq : after = addSources blocks ds
  literal : ∀ d ∈ ds, d.literal.Sound
  opened : ∀ d ∈ ds, ∀ s ∈ d.path, s ∈ path ∨ s.Opened

namespace Reads

variable {path : List Segment} {blocks between after : List Block} {ds ds' : List Source}

theorem nil : Reads path blocks [] blocks := ⟨rfl, by simp, by simp⟩

theorem append (h : Reads path blocks ds between) (h' : Reads path between ds' after) :
    Reads path blocks (ds ++ ds') after where
  eq := by rw [h'.eq, h.eq, addSources, addSources, addSources, foldl_append]
  literal := forall_mem_append.2 ⟨h.literal, h'.literal⟩
  opened := forall_mem_append.2 ⟨h.opened, h'.opened⟩

/-- What is read in a context that a key opens is read around it. -/
theorem inside {s : Segment} (h : Reads (path ++ [s]) blocks ds after) (hs : s.Opened) :
    Reads path blocks ds after where
  eq := h.eq
  literal := h.literal
  opened := by
    intro d hd t ht
    rcases h.opened d hd t ht with hmem | hopened
    · rcases mem_append.1 hmem with hmem | hmem
      · exact .inl hmem
      · rw [mem_singleton.1 hmem]
        exact .inr hs
    · exact .inr hopened

/-- One pass over the same fields for each of several contexts. -/
theorem foldlM {f : List Block → Segment → Except StyleError (List Block)}
    {sources : Segment → List Source}
    (hf : ∀ bs s after, f bs s = .ok after → Reads (path ++ [s]) bs (sources s) after) :
    ∀ {segments : List Segment} {blocks : List Block}, (∀ s ∈ segments, s.Opened) →
      segments.foldlM f blocks = .ok after → Reads path blocks (segments.flatMap sources) after
  | [], _, _, h => by
    cases h
    exact .nil
  | s :: segments, _, hopened, h => by
    rw [foldlM_cons] at h
    obtain ⟨between, hs, h⟩ := exists_of_bind_eq_ok h
    have hfirst := (hf _ s between hs).inside (hopened s (.head _))
    exact hfirst.append (foldlM hf (fun t ht => hopened t (.tail _ ht)) h)

end Reads

variable {blocks : List Block} {v : StyleValue} {o : StyleObject} {d : Source}

/-- Reading a value that is no object adds at most one declaration. -/
theorem reads_leaf {slot key : String} {path : List Segment} {after : List Block}
    (hv : ∀ fields, v = .object fields → False) (h : addValue slot path key blocks v = .ok after) :
    Reads path blocks (valueSources path key v) after := by
  rw [addValue.eq_2 _ _ _ _ _ hv] at h
  rw [valueSources.eq_2 _ _ _ hv]
  obtain ⟨l, hl, h⟩ := exists_of_bind_eq_ok h
  obtain ⟨heq, hsound⟩ := literal_eq_ok hl
  rw [← heq]
  cases l with
  | none =>
    cases h
    exact .nil
  | some l =>
    dsimp only at h
    split at h
    · cases h
      refine ⟨rfl, ?_, ?_⟩
      · intro d hd
        rw [mem_singleton.1 hd]
        exact hsound l rfl
      · intro d hd s hs
        rw [mem_singleton.1 hd] at hs
        exact .inl hs
    · cases h

/-- **Reading adds the declarations of an object in source order.** -/
theorem reads_addFields (slot : String) (path : List Segment) (blocks : List Block)
    (fields : List (String × StyleValue)) :
    ∀ after, addFields slot path blocks fields = .ok after →
      Reads path blocks (fieldSources path fields) after := by
  refine addFields.induct
    (fun path key blocks v => ∀ after, addValue slot path key blocks v = .ok after →
      Reads path blocks (valueSources path key v) after)
    (fun path blocks fields => ∀ after, addFields slot path blocks fields = .ok after →
      Reads path blocks (fieldSources path fields) after) ?_ ?_ ?_ ?_ ?_ path blocks fields
  · -- an object under a key that opens no context is refused
    intro path key blocks fields hnone after h
    rw [addValue, hnone] at h
    cases h
  · -- an object under a key that opens some is read once in each
    intro path key blocks fields segments hsome ih after h
    rw [addValue, hsome] at h
    rw [valueSources, hsome]
    exact Reads.foldlM (fun bs s after => ih bs s after) (fun s hs => ⟨key, segments, hsome, hs⟩) h
  · intro path key blocks v hv after h
    exact reads_leaf hv h
  · intro path blocks after h
    cases h
    exact .nil
  · intro path blocks key v fields ihValue ihFields after h
    rw [addFields] at h
    obtain ⟨between, hvalue, h⟩ := exists_of_bind_eq_ok h
    exact (ihValue between hvalue).append (ihFields between after h)

def slotSources : StyleValue → List Source
  | .object body => fieldSources [] body
  | _ => []

/-- The blocks that the declarations of a slot give. -/
def sourceBlocks (v : StyleValue) : List Block := (addSources [] (slotSources v)).reverse

/-- The declarations of all slots of a value. -/
def sources : StyleValue → List Source
  | .object fields => fields.flatMap fun e => slotSources e.2
  | _ => []

theorem slotBlocks_eq_ok {slot : String} (h : slotBlocks slot v = .ok blocks) :
    (∃ body, v = .object body) ∧ blocks = sourceBlocks v ∧ ∀ d ∈ slotSources v, d.Sound := by
  cases v with
  | object body =>
    obtain ⟨after, hafter, h⟩ := exists_of_bind_eq_ok h
    cases h
    have hreads := reads_addFields slot [] [] body after hafter
    refine ⟨⟨body, rfl⟩, by rw [hreads.eq]; rfl, fun d hd => ⟨hreads.literal d hd, fun s hs => ?_⟩⟩
    exact (hreads.opened d hd s hs).resolve_left not_mem_nil
  | _ => cases h

theorem addSlots_eq_ok {fields : List (String × StyleValue)}
    {acc slots : OrderedMap String (List Block)} (h : addSlots acc fields = .ok slots) :
    slots = (fields.map fun e => (e.1, sourceBlocks e.2)).foldl (fun m e => m.insert e.1 e.2) acc ∧
      ∀ e ∈ fields, (∃ body, e.2 = .object body) ∧ ∀ d ∈ slotSources e.2, d.Sound := by
  induction fields generalizing acc with
  | nil =>
    cases h
    exact ⟨rfl, by simp⟩
  | cons e fields ih =>
    rw [addSlots] at h
    obtain ⟨blocks, hblocks, h⟩ := exists_of_bind_eq_ok h
    obtain ⟨hobject, rfl, hsound⟩ := slotBlocks_eq_ok hblocks
    obtain ⟨heq, hrest⟩ := ih h
    exact ⟨heq, forall_mem_cons.2 ⟨⟨hobject, hsound⟩, hrest⟩⟩

/-- **What reading a value gives:** under each slot the blocks of its declarations, which are
sound. -/
theorem ofValue_eq_ok (h : ofValue v = .ok o) :
    ∃ fields, v = .object fields ∧
      o.slots = OrderedMap.ofList (fields.map fun e => (e.1, sourceBlocks e.2)) ∧
      ∀ e ∈ fields, (∃ body, e.2 = .object body) ∧ ∀ d ∈ slotSources e.2, d.Sound := by
  cases v with
  | object fields =>
    obtain ⟨slots, hslots, h⟩ := exists_of_bind_eq_ok h
    cases h
    exact ⟨fields, rfl, addSlots_eq_ok hslots⟩
  | _ => cases h

/-! ### From blocks back to declarations -/

def blockSources (b : Block) : List Source :=
  b.declarations.entries.map fun e => ⟨b.path, e.1, e.2⟩

/-- A block that has just been opened. -/
theorem blockSources_single (path : List Segment) (key : String) (l : Literal) :
    blockSources ⟨path, OrderedMap.empty.insert key l⟩ = [⟨path, key, l⟩] := rfl

theorem mem_declare {path : List Segment} {key : String} {l : Literal}
    (h : d ∈ (declare path key l blocks).flatMap blockSources) :
    d = ⟨path, key, l⟩ ∨ d ∈ blocks.flatMap blockSources := by
  cases blocks with
  | nil => exact .inl (mem_singleton.1 h)
  | cons b bs =>
    rw [declare] at h
    split at h
    · next heq =>
      rw [flatMap_cons, mem_append] at h
      rcases h with h | h
      · obtain ⟨e, he, rfl⟩ := mem_map.1 h
        rcases OrderedMap.mem_put he with rfl | he
        · exact .inl (by rw [← heq])
        · exact .inr (mem_append_left _ (mem_map_of_mem he))
      · exact .inr (mem_append_right _ h)
    · rw [flatMap_cons, blockSources_single] at h
      exact mem_cons.1 h

theorem mem_addSources {ds : List Source} (h : d ∈ (addSources blocks ds).flatMap blockSources) :
    d ∈ blocks.flatMap blockSources ∨ d ∈ ds := by
  induction ds generalizing blocks with
  | nil => exact .inl h
  | cons e ds ih =>
    rcases ih h with h | h
    · rcases mem_declare h with rfl | h
      · exact .inr (.head _)
      · exact .inl h
    · exact .inr (.tail _ h)

/-- The rules of a declaration, each with the context and the property that it sets. -/
def sourceRules (pre : String) (d : Source) : List ((List Segment × String) × AtomicRule) :=
  d.atoms.map fun a => ((d.path, a.property), AtomicRule.make pre d.path a)

theorem slotRules_eq (pre : String) (blocks : List Block) :
    slotRules pre blocks = (blocks.flatMap blockSources).flatMap (sourceRules pre) := by
  rw [slotRules, flatMap_assoc]
  refine congrArg blocks.flatMap (funext fun b => ?_)
  rw [blockRules, blockSources, map_flatMap, flatMap_map]
  refine congrArg b.declarations.entries.flatMap (funext fun e => ?_)
  simp only [sourceRules, Source.atoms, map_map, Function.comp_def]

theorem sound_of_mem_sources (h : ofValue v = .ok o) (hd : d ∈ sources v) : d.Sound := by
  obtain ⟨fields, rfl, -, hsound⟩ := ofValue_eq_ok h
  obtain ⟨e, he, hd⟩ := mem_flatMap.1 hd
  exact (hsound e he).2 d hd

theorem mem_sources_of_mem_slots (h : ofValue v = .ok o) {e : String × List Block}
    (he : e ∈ o.slots.entries) (hd : d ∈ e.2.flatMap blockSources) : d ∈ sources v := by
  obtain ⟨fields, rfl, hslots, -⟩ := ofValue_eq_ok h
  rw [hslots] at he
  obtain ⟨f, hf, rfl⟩ := mem_map.1 (OrderedMap.mem_of_mem_ofList he)
  have hmem : d ∈ (addSources [] (slotSources f.2)).flatMap blockSources := by
    simpa [sourceBlocks] using hd
  exact mem_flatMap.2 ⟨f, hf, (mem_addSources hmem).resolve_left not_mem_nil⟩

/-- **Every rule comes from a declaration of the value, and that is sound.** -/
theorem exists_source_of_mem_rules {pre : String} {c : Compiled} (h : compile pre v = .ok c)
    {r : AtomicRule} (hr : r ∈ c.rules) :
    ∃ d ∈ sources v, d.Sound ∧ ∃ a ∈ d.atoms, r = AtomicRule.make pre d.path a := by
  obtain ⟨o, ho, h⟩ := exists_of_bind_eq_ok h
  cases h
  -- the rule is the first one of its class, and that is a rule of some slot
  obtain ⟨e, he, rfl⟩ := mem_map.1 (mem_filter.1 hr).1
  obtain ⟨x, hx, rfl⟩ := (OrderedMap.mem_foldl_insertNew (fun x => AtomicRule.className x.2) Prod.snd
    he).resolve_left not_mem_nil
  obtain ⟨slot, hslot, hx⟩ := mem_flatMap.1 hx
  obtain ⟨entry, hentry, rfl⟩ := mem_map.1 hslot
  dsimp only at hx
  rw [slotRules_eq] at hx
  obtain ⟨d, hd, hx⟩ := mem_flatMap.1 hx
  obtain ⟨a, ha, rfl⟩ := mem_map.1 hx
  have hmem := mem_sources_of_mem_slots ho hentry hd
  exact ⟨d, hmem, sound_of_mem_sources ho hmem, a, ha, rfl⟩

end StyleObject
end AtomicStyles
