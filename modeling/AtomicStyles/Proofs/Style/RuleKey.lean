import AtomicStyles.Proofs.Style.Sources

/-!
# Keys of rules

The class of a rule is the fingerprint of its key, and of rules with one class only the first
is kept. So a key has to determine its rule. It writes the at-rules, the selectors, the
property and the values one after the other with marks between them, and it does determine
the rule as long as the parts hold no marks themselves. Nothing keeps marks out of a style
object, though, and a value with a mark in it is taken for a list of values.

## Main definitions

* `Atom.ofValues` — the longhand of a property with several values to try.
* `Atom.Unmarked` — the parts of a key hold no marks where they would be misread.

## Main results

* `Atom.key_inj` — an unmarked key determines its parts.
* `rule_of_key` — and so its rule.
* `key_confuses_values` — a list of two values and a value with a mark in it.
-/

namespace AtomicStyles

open List

/-! ### Reading joined texts back -/

variable {mark : Char} {xs ys : List (List Char)}

/-- A text up to the first mark can be read back. -/
theorem append_mark_inj {a a' b b' : List Char} (ha : mark ∉ a) (ha' : mark ∉ a')
    (h : a ++ mark :: b = a' ++ mark :: b') : a = a' ∧ b = b' := by
  induction a generalizing a' with
  | nil =>
    cases a' with
    | nil => exact ⟨rfl, (List.cons.inj h).2⟩
    | cons c a' =>
      have hc : mark = c := (List.cons.inj h).1
      exact absurd (hc ▸ (.head _)) ha'
  | cons c a ih =>
    cases a' with
    | nil =>
      have hc : c = mark := (List.cons.inj h).1
      exact absurd (hc ▸ (.head _)) ha
    | cons c' a' =>
      obtain ⟨rfl, htail⟩ := List.cons.inj h
      have hmem : mark ∉ a := fun hm => ha (.tail _ hm)
      have hmem' : mark ∉ a' := fun hm => ha' (.tail _ hm)
      obtain ⟨rfl, rfl⟩ := ih hmem hmem' htail
      exact ⟨rfl, rfl⟩

/-- Texts with marks between them can be read back, unless there are none. -/
theorem intercalate_mark_inj (hxs : ∀ x ∈ xs, mark ∉ x) (hys : ∀ y ∈ ys, mark ∉ y) (hx : xs ≠ [])
    (hy : ys ≠ []) (h : [mark].intercalate xs = [mark].intercalate ys) : xs = ys := by
  rw [← splitOn_intercalate mark hxs hx, h, splitOn_intercalate mark hys hy]

theorem not_mem_intercalate_mark {c : Char} (hc : c ≠ mark) (h : ∀ x ∈ xs, c ∉ x) :
    c ∉ [mark].intercalate xs := by
  induction xs with
  | nil => simp
  | cons x xs ih =>
    cases xs with
    | nil =>
      rw [intercalate_singleton]
      exact h x (.head _)
    | cons y ys =>
      have hrest := ih fun z hz => h z (.tail _ hz)
      have hx := h x (.head _)
      rw [intercalate_cons_cons]
      simp only [mem_append, mem_singleton, not_or]
      exact ⟨⟨hx, hc⟩, hrest⟩

/-- Texts that are not empty can be read back from the text with marks between them. -/
theorem intercalate_mark_inj_of_ne_nil (hxs : ∀ x ∈ xs, mark ∉ x ∧ x ≠ [])
    (hys : ∀ y ∈ ys, mark ∉ y ∧ y ≠ []) (h : [mark].intercalate xs = [mark].intercalate ys) :
    xs = ys := by
  have hnil : ∀ zs : List (List Char), (∀ z ∈ zs, mark ∉ z ∧ z ≠ []) →
      [mark].intercalate zs = [] → zs = [] := by
    intro zs hzs hempty
    cases zs with
    | nil => rfl
    | cons z zs =>
      have hz := (hzs z (.head _)).2
      cases zs with
      | nil => exact absurd (by simpa using hempty) hz
      | cons z' zs =>
        rw [intercalate_cons_cons] at hempty
        exact absurd (append_eq_nil_iff.1 (append_eq_nil_iff.1 hempty).1).1 hz
  -- only the texts that are none at all give the empty text
  by_cases hx : xs = []
  · subst hx
    exact (hnil ys hys (by rw [← h, intercalate_nil])).symm
  · by_cases hy : ys = []
    · subst hy
      exact hnil xs hxs (by rw [h, intercalate_nil])
    · exact intercalate_mark_inj (fun x hx => (hxs x hx).1) (fun y hy => (hys y hy).1) hx hy h

theorem flatMap_mark_eq (mark : Char) (xs : List (List Char)) :
    xs.flatMap (· ++ [mark]) = [mark].intercalate (xs ++ [[]]) := by
  induction xs with
  | nil => rfl
  | cons x xs ih =>
    rw [flatMap_cons, ih, cons_append]
    cases xs <;> simp [List.intercalate, List.intersperse]

/-- Texts with a mark after each can be read back. -/
theorem flatMap_mark_inj (hxs : ∀ x ∈ xs, mark ∉ x) (hys : ∀ y ∈ ys, mark ∉ y)
    (h : xs.flatMap (· ++ [mark]) = ys.flatMap (· ++ [mark])) : xs = ys := by
  rw [flatMap_mark_eq, flatMap_mark_eq] at h
  refine append_cancel_right (intercalate_mark_inj ?_ ?_ ?_ ?_ h)
  · exact forall_mem_append.2 ⟨hxs, by simp⟩
  · exact forall_mem_append.2 ⟨hys, by simp⟩
  · simp
  · simp

theorem map_toList_inj {ss ts : List String} (h : ss.map String.toList = ts.map String.toList) :
    ss = ts :=
  (map_inj_right fun _ _ => String.toList_inj.1).1 h

/-! ### The parts of a context -/

namespace Selector

/-- The selector of a context is built from its selectors alone. -/
theorem resolveFrom_eq (base : List Char) (path : List Segment) :
    resolveFrom base path = (selectors path).foldl (fun b s => fill b s.toList) base := by
  induction path generalizing base with
  | nil => rfl
  | cons s path ih =>
    cases s with
    | selector t => exact ih _
    | atRule t => exact ih _

theorem group_congr {path path' : List Segment} (hat : atRules path = atRules path')
    (hsel : selectors path = selectors path') : group path = group path' := by
  rw [group, group, hat, resolveFrom_eq, resolveFrom_eq, hsel]

theorem resolve_congr (className : String) {path path' : List Segment}
    (hsel : selectors path = selectors path') : resolve className path = resolve className path' := by
  rw [resolve, resolve, resolveFrom_eq, resolveFrom_eq, hsel]

end Selector

namespace Atom

/-- The longhand of a property with values to try in order. -/
def ofValues (property : String) (vs : List String) : Atom :=
  ⟨property, itemMark.intercalate vs, vs.flatMap fun v => Declaration.withVendors ⟨property, v⟩⟩

theorem toList_key (path : List Segment) (a : Atom) :
    (a.key path).toList =
      ['\x1e'].intercalate ((Selector.atRules path).map String.toList) ++ '\x1f' ::
        (((Selector.selectors path).map String.toList).flatMap (· ++ ['\x1e']) ++ '\x1f' ::
          (a.property.toList ++ '\x1f' :: a.keyValue.toList)) := by
  simp [key, itemMark, fieldMark, String.toList_join, flatMap_def, Function.comp_def]

structure Unmarked (path : List Segment) (a : Atom) : Prop where
  context : ∀ s ∈ path, '\x1e' ∉ s.text.toList ∧ '\x1f' ∉ s.text.toList
  property : '\x1f' ∉ a.property.toList
  values : ∀ d ∈ a.declarations, '\x1e' ∉ d.value.toList

variable {a : Atom} {path : List Segment}

/-- The longhands of a sound declaration have values, and these decide what they declare. -/
theorem exists_ofValues {d : Source} (hd : d.Sound) (ha : a ∈ d.atoms) :
    ∃ vs, vs ≠ [] ∧ a = ofValues a.property vs := by
  unfold Source.atoms at ha
  cases hl : d.literal with
  | value v =>
    rw [hl] at ha
    obtain ⟨e, he, rfl⟩ := mem_map.1 ha
    exact ⟨[e.value], by simp, by simp [ofValues]⟩
  | fallbacks vs =>
    rw [hl] at ha
    cases mem_singleton.1 ha
    have hlen := hd.literal.several vs hl
    exact ⟨vs, by rintro rfl; simp at hlen, rfl⟩

/-- The values of an unmarked longhand hold no mark. -/
theorem Unmarked.not_mem_value {property : String} {vs : List String}
    (h : Unmarked path (ofValues property vs)) : ∀ v ∈ vs.map String.toList, '\x1e' ∉ v := by
  intro v hv
  obtain ⟨t, ht, rfl⟩ := mem_map.1 hv
  refine h.values ⟨property, t⟩ (mem_flatMap.2 ⟨t, ht, ?_⟩)
  exact mem_append_right _ (.head _)

/-- The at-rules of an unmarked context hold neither mark. -/
theorem Unmarked.atRules (h : Unmarked path a) :
    ∀ t ∈ (Selector.atRules path).map String.toList, '\x1e' ∉ t ∧ '\x1f' ∉ t := by
  intro t ht
  obtain ⟨u, hu, rfl⟩ := mem_map.1 ht
  exact h.context _ (Selector.mem_atRules.1 hu)

/-- The selectors of an unmarked context hold neither mark. -/
theorem Unmarked.selectors (h : Unmarked path a) :
    ∀ t ∈ (Selector.selectors path).map String.toList, '\x1e' ∉ t ∧ '\x1f' ∉ t := by
  intro t ht
  obtain ⟨u, hu, rfl⟩ := mem_map.1 ht
  exact h.context _ (Selector.mem_selectors.1 hu)

theorem Unmarked.not_mem_joined (h : Unmarked path a) :
    '\x1f' ∉ ['\x1e'].intercalate ((Selector.atRules path).map String.toList) :=
  not_mem_intercalate_mark (by decide) fun t ht => (h.atRules t ht).2

theorem Unmarked.not_mem_ended (h : Unmarked path a) :
    '\x1f' ∉ ((Selector.selectors path).map String.toList).flatMap (· ++ ['\x1e']) := by
  intro hmem
  obtain ⟨t, ht, hin⟩ := mem_flatMap.1 hmem
  rcases mem_append.1 hin with hin | hin
  · exact (h.selectors t ht).2 hin
  · exact absurd hin (by decide)

theorem ne_nil_of_opened (hopened : ∀ s ∈ path, s.Opened) :
    ∀ t ∈ (Selector.atRules path).map String.toList, t ≠ [] := by
  intro t ht
  obtain ⟨u, hu, rfl⟩ := mem_map.1 ht
  exact (hopened _ (Selector.mem_atRules.1 hu)).atRule

/-- **The parts of a key that holds no marks can be read back.** -/
theorem key_inj {path' : List Segment} {a' : Atom} (hopened : ∀ s ∈ path, s.Opened)
    (hopened' : ∀ s ∈ path', s.Opened) (h : Unmarked path a) (h' : Unmarked path' a')
    (hkey : a.key path = a'.key path') :
    Selector.atRules path = Selector.atRules path' ∧
      Selector.selectors path = Selector.selectors path' ∧
      a.property = a'.property ∧ a.keyValue = a'.keyValue := by
  have htext := congrArg String.toList hkey
  rw [toList_key, toList_key] at htext
  -- the fields are read off one after the other, each up to the next mark
  obtain ⟨hat, htext⟩ := append_mark_inj h.not_mem_joined h'.not_mem_joined htext
  obtain ⟨hsel, htext⟩ := append_mark_inj h.not_mem_ended h'.not_mem_ended htext
  obtain ⟨hproperty, hvalue⟩ := append_mark_inj h.property h'.property htext
  refine ⟨?_, ?_, String.toList_inj.1 hproperty, String.toList_inj.1 hvalue⟩
  · refine map_toList_inj (intercalate_mark_inj_of_ne_nil ?_ ?_ hat)
    · exact fun t ht => ⟨(h.atRules t ht).1, ne_nil_of_opened hopened t ht⟩
    · exact fun t ht => ⟨(h'.atRules t ht).1, ne_nil_of_opened hopened' t ht⟩
  · refine map_toList_inj (flatMap_mark_inj ?_ ?_ hsel)
    · exact fun t ht => (h.selectors t ht).1
    · exact fun t ht => (h'.selectors t ht).1

theorem toList_itemMark_intercalate (vs : List String) :
    (itemMark.intercalate vs).toList = ['\x1e'].intercalate (vs.map String.toList) := by
  rw [String.toList_intercalate]
  rfl

/-- Unmarked longhands with one property and one text of values declare the same. -/
theorem eq_of_keyValue {d d' : Source} (hd : d.Sound) (hd' : d'.Sound) {a' : Atom}
    (ha : a ∈ d.atoms) (ha' : a' ∈ d'.atoms) (h : Unmarked d.path a) (h' : Unmarked d'.path a')
    (hproperty : a.property = a'.property) (hvalue : a.keyValue = a'.keyValue) : a = a' := by
  obtain ⟨vs, hvs, heq⟩ := exists_ofValues hd ha
  obtain ⟨vs', hvs', heq'⟩ := exists_ofValues hd' ha'
  rw [heq] at h
  rw [heq'] at h'
  have htext : (itemMark.intercalate vs).toList = (itemMark.intercalate vs').toList := by
    rw [heq, heq'] at hvalue
    exact congrArg String.toList hvalue
  rw [toList_itemMark_intercalate, toList_itemMark_intercalate] at htext
  have hvalues : vs = vs' :=
    map_toList_inj (intercalate_mark_inj h.not_mem_value h'.not_mem_value (by simpa using hvs)
      (by simpa using hvs') htext)
  rw [heq, heq', hproperty, hvalues]

end Atom

/-- A rule depends on the at-rules and the selectors of its context, not on how they interleave. -/
theorem AtomicRule.make_congr (pre : String) {path path' : List Segment} (a : Atom)
    (hat : Selector.atRules path = Selector.atRules path')
    (hsel : Selector.selectors path = Selector.selectors path') :
    AtomicRule.make pre path a = AtomicRule.make pre path' a := by
  have hkey : a.key path = a.key path' := by
    rw [Atom.key, Atom.key, hat, hsel]
  dsimp only [AtomicRule.make]
  rw [hkey, hat, Selector.group_congr hat hsel, Selector.resolve_congr _ hsel]

namespace StyleObject

/-- **A key without marks determines its rule**: declarations of accepted style objects whose
longhands have one key have one rule, with its class, its text and its group, under every
prefix. -/
theorem rule_of_key (pre : String) {v v' : StyleValue} {o o' : StyleObject} (hv : ofValue v = .ok o)
    (hv' : ofValue v' = .ok o') {d d' : Source} (hd : d ∈ sources v) (hd' : d' ∈ sources v')
    {a a' : Atom} (ha : a ∈ d.atoms) (ha' : a' ∈ d'.atoms) (h : a.Unmarked d.path)
    (h' : a'.Unmarked d'.path) (hkey : a.key d.path = a'.key d'.path) :
    AtomicRule.make pre d.path a = AtomicRule.make pre d'.path a' := by
  have hsound := sound_of_mem_sources hv hd
  have hsound' := sound_of_mem_sources hv' hd'
  obtain ⟨hat, hsel, hproperty, hvalue⟩ := Atom.key_inj hsound.opened hsound'.opened h h' hkey
  have hatom : a = a' :=
    Atom.eq_of_keyValue hsound hsound' ha ha' h h' hproperty hvalue
  rw [← hatom]
  exact AtomicRule.make_congr pre a hat hsel

/-- An at-rule around a selector. -/
def selectorInside : StyleValue :=
  .object [("root", .object [("@media print",
    .object [(":hover", .object [("color", .string "red")])])])]

/-- A selector around an at-rule. -/
def selectorOutside : StyleValue :=
  .object [("icon", .object [("&:hover",
    .object [("@media print", .object [("color", .string "red")])])])]

/-- The keys forget how at-rules and selectors interleave, and so do the rules. -/
theorem rule_of_key_interleaved :
    let a : Atom := ⟨"color", "red", [⟨"color", "red"⟩]⟩
    let d : Source := ⟨[.atRule "@media print", .selector "&:hover"], "color", .value "red"⟩
    let d' : Source := ⟨[.selector "&:hover", .atRule "@media print"], "color", .value "red"⟩
    d ∈ sources selectorInside ∧ d' ∈ sources selectorOutside ∧
      a.key d.path = a.key d'.path ∧ AtomicRule.make "f" d.path a = AtomicRule.make "f" d'.path a := by
  intro a d d'
  have hd : d ∈ sources selectorInside := by decide +kernel
  have hd' : d' ∈ sources selectorOutside := by decide +kernel
  have ha : a ∈ d.atoms := by decide +kernel
  have ha' : a ∈ d'.atoms := by decide +kernel
  have hun : a.Unmarked d.path :=
    ⟨by decide +kernel, by decide +kernel, by decide +kernel⟩
  have hun' : a.Unmarked d'.path :=
    ⟨by decide +kernel, by decide +kernel, by decide +kernel⟩
  have hkey : a.key d.path = a.key d'.path := by decide +kernel
  obtain ⟨o, ho⟩ := exists_of_isOk (x := ofValue selectorInside) (by decide +kernel)
  obtain ⟨o', ho'⟩ := exists_of_isOk (x := ofValue selectorOutside) (by decide +kernel)
  exact ⟨hd, hd', hkey, rule_of_key "f" ho ho' hd hd' ha ha' hun hun' hkey⟩

/-- A list of two values, and a value with a mark in it. -/
def markedValue : StyleValue :=
  .object [("root", .object [("color", .array [.string "a", .string "b"])]),
    ("icon", .object [("color", .string "a\x1eb")])]

/-- The value with the mark has the key of the list, and not its rule: the style object is
accepted, and its second slot gets the class of the list. -/
theorem key_confuses_values :
    let a : Atom := ⟨"color", "a\x1eb", [⟨"color", "a"⟩, ⟨"color", "b"⟩]⟩
    let a' : Atom := ⟨"color", "a\x1eb", [⟨"color", "a\x1eb"⟩]⟩
    (sources markedValue).map Source.atoms = [[a], [a']] ∧ a.key [] = a'.key [] ∧
      (AtomicRule.make "f" [] a).text ≠ (AtomicRule.make "f" [] a').text ∧
      (compile "f" markedValue).toOption.map (·.rules) = some [AtomicRule.make "f" [] a] := by
  decide +kernel

end StyleObject
end AtomicStyles
