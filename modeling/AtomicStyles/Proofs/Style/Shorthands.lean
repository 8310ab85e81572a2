import Mathlib.Data.List.Basic
import AtomicStyles.Proofs.Style.Override
import AtomicStyles.Proofs.Style.RuleText

/-!
# Shorthands that are spelled out by hand

A shorthand and its longhands, written one after the other in its place, give the same classes
and the same rules: the text of each longhand is read as it stands, it is not split again, and
declarations with distinct keys keep the order of the source.

## Main definitions

* `SpelledOut` — some shorthands are replaced by their longhands.
* `StyleObject.Distinct` — no key is declared twice in one context.

## Main results

* `StyleObject.listed_addSources` — distinct declarations stand in the order of the source.
* `StyleObject.compile_spelled` — spelling shorthands out changes nothing.
* `StyleObject.shorthand_expansion` — the components of a value and the longhands that they make up.
-/

namespace AtomicStyles

open Declaration List

/-! ### Reading a longhand -/

namespace Text

theorem trim_eq_self {s : String} (hhead : ∀ c ∈ s.toList.head?, isBlank c = false)
    (hlast : ∀ c ∈ s.toList.getLast?, isBlank c = false) : trim s = s := by
  have hdrop : ∀ {cs : List Char}, (∀ c ∈ cs.head?, isBlank c = false) → cs.dropWhile isBlank = cs := by
    intro cs hcs
    cases cs with
    | nil => rfl
    | cons c cs => exact dropWhile_cons_of_neg (by simp [hcs c rfl])
  rw [trim, trimStart, hdrop hhead, trimEnd, hdrop (by simpa using hlast), reverse_reverse,
    String.ofList_toList]

theorem isBlank_getLast?_trimEnd {cs : List Char} : ∀ c ∈ (trimEnd cs).getLast?, isBlank c = false := by
  intro c hc
  rw [trimEnd, getLast?_reverse] at hc
  have hnot := head?_dropWhile_not isBlank cs.reverse
  rw [hc] at hnot
  exact hnot

theorem trim_trim (s : String) : trim (trim s) = trim s := by
  rw [trim.eq_1 s]
  refine trim_eq_self ?_ ?_ <;> rw [String.toList_ofList]
  · intro c hc
    obtain ⟨rest, hrest⟩ := head?_eq_some_iff.1 hc
    have hsuffix := dropWhile_suffix isBlank (l := (trimStart s.toList).reverse)
    obtain ⟨blanks, hblanks⟩ := hsuffix
    have hstart : trimStart s.toList = trimEnd (trimStart s.toList) ++ blanks.reverse := by
      rw [trimEnd, ← reverse_append, hblanks, reverse_reverse]
    have hnot := head?_dropWhile_not isBlank s.toList
    rw [← trimStart, hstart, hrest] at hnot
    exact hnot
  · exact isBlank_getLast?_trimEnd

end Text

/-- The text of a longhand has no blanks around it if that of the shorthand has none. -/
theorem Declaration.trim_of_mem_expand {property value : String} (hvalue : Text.trim value = value)
    {d : Declaration} (hd : d ∈ expand property value) : Text.trim d.value = d.value := by
  rw [expand_eq] at hd
  split at hd
  · next hsplits =>
    obtain ⟨⟨name, place⟩, -, rfl⟩ := mem_map.1 hd
    have hplain : ∀ c ∈ (plain value).getLast?, Text.isBlank c = false := by
      unfold plain
      split
      · exact Text.isBlank_getLast?_trimEnd
      · rw [← hvalue, Text.trim, String.toList_ofList]
        exact Text.isBlank_getLast?_trimEnd
    obtain ⟨hne, hhead, hlast⟩ := (divided_components (plain value)).trimmed hplain _
      (mem_map_of_mem (chosen_mem hsplits.2.2.1 place))
    obtain ⟨c, cs, hcs⟩ := exists_cons_of_ne_nil hne
    refine Text.trim_eq_self ?_ ?_
    · rw [String.toList_append, head?_append_of_ne_nil _ hne]
      exact hhead
    · unfold mark
      split
      · simp [Text.isBlank]
      · simpa using hlast
  · rw [mem_singleton.1 hd]
    exact hvalue

/-- Declarations in which some shorthands are replaced by their longhands, in place and in order,
under any keys that stand for them. -/
inductive SpelledOut : List Source → List Source → Prop
  | nil : SpelledOut [] []
  | same {ds es : List Source} (d : Source) (h : SpelledOut ds es) : SpelledOut (d :: ds) (d :: es)
  | shorthand {ds es hand : List Source} {path : List Segment} {key value : String}
      (hhand : (hand.map fun e => (e.path, hyphenate e.key, e.literal)) =
        (expand (hyphenate key) value).map fun l => (path, l.property, .value l.value))
      (h : SpelledOut ds es) : SpelledOut (⟨path, key, .value value⟩ :: ds) (hand ++ es)

namespace StyleObject

def Distinct (ds : List Source) : Prop := (ds.map fun d => (d.path, d.key)).Nodup

instance (ds : List Source) : Decidable (Distinct ds) := inferInstanceAs (Decidable (List.Nodup _))

/-- The rules of the longhands are those of the shorthand. -/
theorem flatMap_sourceRules {ds es : List Source} (h : SpelledOut ds es) (pre : String) :
    es.flatMap (sourceRules pre) = ds.flatMap (sourceRules pre) := by
  induction h with
  | nil => rfl
  | same d _ ih => rw [flatMap_cons, flatMap_cons, ih]
  | @shorthand ds es hand path key value hhand _ ih =>
    let rules (x : List Segment × String × Literal) :=
      (Atom.ofLiteral x.2.1 x.2.2).map fun a => ((x.1, a.property), AtomicRule.make pre x.1 a)
    have hrules : hand.flatMap (sourceRules pre) =
        (hand.map fun e => (e.path, hyphenate e.key, e.literal)).flatMap rules := by
      rw [flatMap_map]
      rfl
    have hsingle : ∀ l ∈ expand (hyphenate key) value, rules (path, l.property, .value l.value) =
        [((path, l.property), AtomicRule.make pre path ⟨l.property, l.value, l.withVendors⟩)] := by
      intro l hl
      simp only [rules, Atom.ofLiteral, expand_of_mem_expand hl, map_cons, map_nil]
    rw [flatMap_append, flatMap_cons, ih, hrules, hhand, flatMap_map,
      flatMap_congr hsingle, ← map_eq_flatMap]
    simp only [sourceRules, Source.atoms, Atom.ofLiteral, map_map, Function.comp_def]

theorem replace_of_absent {d : Source} {xs : List Source} (h : ∀ x ∈ xs, x.key ≠ d.key) :
    replace d xs = xs ++ [d] := by
  induction xs with
  | nil => rfl
  | cons x xs ih =>
    rw [forall_mem_cons] at h
    rw [replace, if_neg h.1, ih h.2, cons_append]

/-- Keys that are all distinct keep their declarations in the order of the source. -/
theorem listed_declare {d : Source} {blocks : List Block}
    (h : ∀ e ∈ listed blocks, (e.path, e.key) ≠ (d.path, d.key)) :
    listed (declare d.path d.key d.literal blocks) = listed blocks ++ [d] := by
  cases blocks with
  | nil => rfl
  | cons b bs =>
    rw [declare]
    split
    · next hpath =>
      have habsent : ∀ e ∈ blockSources b, e.key ≠ d.key := by
        intro e he heq
        have hmem : e ∈ listed (b :: bs) := by
          rw [listed_cons]
          exact mem_append_right _ he
        obtain ⟨f, -, rfl⟩ := mem_map.1 he
        exact h _ hmem (Prod.ext hpath heq)
      rw [listed_cons, listed_cons, blockSources_insert hpath, replace_of_absent habsent,
        append_assoc]
    · rw [listed_cons, blockSources_single]

theorem listed_addSources {ds : List Source} {blocks : List Block} (h : Distinct (listed blocks ++ ds)) :
    listed (addSources blocks ds) = listed blocks ++ ds := by
  induction ds generalizing blocks with
  | nil => simp [addSources]
  | cons d ds ih =>
    have hd : listed (declare d.path d.key d.literal blocks) = listed blocks ++ [d] := by
      refine listed_declare fun e he heq => ?_
      rw [Distinct, map_append, nodup_append] at h
      exact h.2.2 _ (mem_map_of_mem he) _ (.head _) heq
    have hdistinct : Distinct (listed (declare d.path d.key d.literal blocks) ++ ds) := by
      rw [hd]
      simpa using h
    have hrest := ih hdistinct
    rw [hd, append_assoc, singleton_append] at hrest
    exact hrest

theorem slotRules_sourceBlocks {v : StyleValue} (h : Distinct (slotSources v)) (pre : String) :
    slotRules pre (sourceBlocks v) = (slotSources v).flatMap (sourceRules pre) := by
  rw [slotRules_eq, sourceBlocks, ← listed, listed_addSources (by simpa [listed] using h)]
  rfl

theorem compileObject_congr {pre : String} {o o' : StyleObject}
    (h : o.slots.mapValues (slotRules pre) = o'.slots.mapValues (slotRules pre)) :
    compileObject pre o = compileObject pre o' := by
  have hslots : ∀ o : StyleObject, (o.slots.entries.map fun e => (e.1, slotRules pre e.2)) =
      (o.slots.mapValues (slotRules pre)).entries := fun _ => rfl
  unfold compileObject
  rw [hslots, hslots, h]

/-- Two slots of one name, the second with shorthands of the first spelled out. -/
structure SpelledSlot (e e' : String × StyleValue) : Prop where
  name : e.1 = e'.1
  spelled : SpelledOut (slotSources e.2) (slotSources e'.2)
  distinct : Distinct (slotSources e.2) ∧ Distinct (slotSources e'.2)

theorem map_slotRules {fields fields' : List (String × StyleValue)}
    (h : List.Forall₂ SpelledSlot fields fields') (pre : String) :
    (fields.map fun e => (e.1, slotRules pre (sourceBlocks e.2))) =
      fields'.map fun e => (e.1, slotRules pre (sourceBlocks e.2)) := by
  induction h with
  | nil => rfl
  | cons he _ ih =>
    rw [map_cons, map_cons, ih, he.name, slotRules_sourceBlocks he.distinct.1,
      slotRules_sourceBlocks he.distinct.2, flatMap_sourceRules he.spelled]

/-- **Spelling shorthands out changes nothing**: the classes, the rules and their groups stay. -/
theorem compile_spelled {pre : String} {fields fields' : List (String × StyleValue)} {c c' : Compiled}
    (h : List.Forall₂ SpelledSlot fields fields') (hc : compile pre (.object fields) = .ok c)
    (hc' : compile pre (.object fields') = .ok c') : c = c' := by
  obtain ⟨o, ho, hc⟩ := exists_of_bind_eq_ok hc
  obtain ⟨o', ho', hc'⟩ := exists_of_bind_eq_ok hc'
  obtain ⟨_, heq, hslots, -⟩ := ofValue_eq_ok ho
  obtain ⟨_, heq', hslots', -⟩ := ofValue_eq_ok ho'
  cases heq
  cases heq'
  cases hc
  cases hc'
  refine compileObject_congr ?_
  rw [hslots, hslots', ← OrderedMap.ofList_map, ← OrderedMap.ofList_map, map_map, map_map]
  exact congrArg OrderedMap.ofList (map_slotRules h pre)

/-- The text of a longhand is read as it stands. -/
theorem stringText_longhand {slot key s value : String} (h : stringText slot key s = .ok value)
    {property : String} {d : Declaration} (hd : d ∈ expand property value) (key' : String) :
    stringText slot key' d.value = .ok d.value := by
  obtain ⟨hvalue, hsafe⟩ := stringText_eq_ok h
  have hlonghand : Safe d.value := (safe_expand hsafe d hd).2
  have htrim : Text.trim value = value := by rw [hvalue, Text.trim_trim]
  rw [stringText, if_neg, trim_of_mem_expand htrim hd]
  simpa [Safe] using hlonghand

/-! ### Shorthands -/

/-- **Shorthands lose nothing.** The components of a value are its parts between the blanks outside
quotes and parentheses; together they hold all its other characters, in order, and joined by
single spaces they have the same components. A declaration is left as it is or split into all
longhands of its property; each has the component for its place, and the mark of the whole.
No longhand is split again, its text is read as it stands, and spelling longhands out in the place
of their shorthands changes nothing. -/
theorem shorthand_expansion (property value : String) :
    (Divided value.toList ((components value.toList).map String.toList) ∧
      ((components value.toList).map String.toList).flatten = Scan.kept {} value.toList ∧
      components (" ".intercalate (components value.toList)).toList = components value.toList) ∧
    (expand property value =
      if Splits property value then
        (longhands property).zipIdx.map fun e =>
          ⟨e.1, chosen (components (plain value)) e.2 ++ mark value⟩
      else [⟨property, value⟩]) ∧
    (∀ d ∈ expand property value, expand d.property d.value = [d] ∧
      ∀ slot key s, stringText slot key s = .ok value →
        ∀ key', stringText slot key' d.value = .ok d.value) ∧
    ∀ (pre : String) (fields fields' : List (String × StyleValue)) (c c' : Compiled),
      List.Forall₂ SpelledSlot fields fields' → compile pre (.object fields) = .ok c →
        compile pre (.object fields') = .ok c' → c = c' := by
  have hdivided := divided_components value.toList
  refine ⟨⟨hdivided, hdivided.flatten_eq, ?_⟩, expand_eq property value, fun d hd =>
    ⟨expand_of_mem_expand hd, fun _ _ _ h key' => stringText_longhand h hd key'⟩,
    fun _ _ _ _ _ => compile_spelled⟩
  have hagain := divided_iff.1 hdivided.intercalate
  rw [String.toList_intercalate, components.eq_1 (List.intercalate _ _)]
  exact (congrArg (List.map String.ofList) hagain).trans (by simp)

/-- A slot with two shorthands, in two contexts. -/
def shorthandSlot : StyleValue :=
  .object [("padding", .string " 1px calc(2px + 3px) !important"),
    (":hover", .object [("gap", .string "1em\t2em")])]

/-- Its longhands, under their names in either spelling. -/
def longhandSlot : StyleValue :=
  .object [("paddingTop", .string "1px !important"),
    ("padding-right", .string "calc(2px + 3px) !important"),
    ("paddingBottom", .string "1px !important"),
    ("paddingLeft", .string "calc(2px + 3px) !important"),
    (":hover", .object [("rowGap", .string "1em"), ("columnGap", .string "2em")])]

theorem shorthand_expansion_slot :
    compile "f" (.object [("root", shorthandSlot)]) = compile "f" (.object [("root", longhandSlot)]) := by
  have hsources : slotSources shorthandSlot =
      [⟨[], "padding", .value "1px calc(2px + 3px) !important"⟩,
        ⟨[.selector "&:hover"], "gap", .value "1em\t2em"⟩] := by decide +kernel
  have hspelled : SpelledOut (slotSources shorthandSlot)
      ((slotSources longhandSlot).take 4 ++ ((slotSources longhandSlot).drop 4 ++ [])) := by
    rw [hsources]
    exact .shorthand (by decide +kernel) (.shorthand (by decide +kernel) .nil)
  rw [append_nil, take_append_drop] at hspelled
  obtain ⟨c, hc⟩ := exists_of_isOk (x := compile "f" (.object [("root", shorthandSlot)]))
    (by decide +kernel)
  obtain ⟨c', hc'⟩ := exists_of_isOk (x := compile "f" (.object [("root", longhandSlot)]))
    (by decide +kernel)
  have hslot : SpelledSlot ("root", shorthandSlot) ("root", longhandSlot) :=
    ⟨rfl, hspelled, by decide +kernel⟩
  have heq := (shorthand_expansion "padding" "1px").2.2.2 "f" [("root", shorthandSlot)]
    [("root", longhandSlot)] c c' (.cons hslot .nil) hc hc'
  rw [hc, hc', heq]

end StyleObject
end AtomicStyles
