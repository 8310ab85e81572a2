import AtomicStyles.Proofs.Style.Sources

/-!
# Components of a value

The value of a shorthand is cut into components at the blanks outside quotes and parentheses.
What is open at a character is the state of a reader that has come there; parentheses and
quotes need not match, and what is open at the end of the value stays open. A shorthand is then
split into all its longhands, or it is left as it is.

## Main definitions

* `Scan` — the parentheses and the quote that are open.
* `Divided` — the components of a value.
* `shorthands` — the properties that stand for others.
* `Splits` — whether a shorthand is split.

## Main results

* `divided_iff` — a value is divided into its components and in no other way.
* `expand_eq` — the longhands of a value, each with the component for its place.
* `expand_of_mem_expand` — a longhand is not split again.
-/

namespace AtomicStyles
namespace Declaration

open List

/-! ### Where a value is cut -/

/-- How far into a value a reader is: how many parentheses are open, and which quote. -/
structure Scan where
  depth : Nat := 0
  quote : Option Char := none
deriving DecidableEq

namespace Scan

/-- Where the reader is after one more character. -/
def next (s : Scan) (c : Char) : Scan :=
  match s.quote with
  | some q => if c == q then { s with quote := none } else s
  | none =>
    if c == '"' || c == '\'' then { s with quote := some c }
    else if c == '(' then { s with depth := s.depth + 1 }
    else if c == ')' then { s with depth := s.depth - 1 }
    else s

/-- A blank outside quotes and parentheses divides what stands before it from what follows. -/
def Divides (s : Scan) (c : Char) : Prop := s = {} ∧ Text.isBlank c

instance (s : Scan) (c : Char) : Decidable (s.Divides c) :=
  inferInstanceAs (Decidable (s = {} ∧ Text.isBlank c))

/-- Where the reader is after some more characters. -/
def after (s : Scan) (cs : List Char) : Scan := cs.foldl next s

/-- None of the characters divides. -/
def Whole : Scan → List Char → Prop
  | _, [] => True
  | s, c :: cs => ¬ s.Divides c ∧ Whole (s.next c) cs

/-- The characters that do not divide. -/
def kept : Scan → List Char → List Char
  | _, [] => []
  | s, c :: cs => if s.Divides c then kept s cs else c :: kept (s.next c) cs

variable {s : Scan} {c : Char} {p v : List Char}

theorem whole_append : Whole s (p ++ v) ↔ Whole s p ∧ Whole (s.after p) v := by
  induction p generalizing s with
  | nil => simp [Whole, after]
  | cons c p ih => simp only [cons_append, Whole, ih, and_assoc, after, foldl_cons]

theorem whole_of_forall (h : ∀ c ∈ p, Text.isBlank c = false) : Whole s p := by
  induction p generalizing s with
  | nil => trivial
  | cons c p ih =>
    rw [forall_mem_cons] at h
    exact ⟨fun hc => Bool.noConfusion (hc.2.symm.trans h.1), ih h.2⟩

theorem kept_append (hp : Whole s p) : kept s (p ++ v) = p ++ kept (s.after p) v := by
  induction p generalizing s with
  | nil => rfl
  | cons c p ih => rw [cons_append, kept, if_neg hp.1, ih hp.2, cons_append]; rfl

/-- Quotes and parentheses are no blanks. -/
theorem not_divides_of_mem (h : c ∈ ['"', '\'', '(', ')']) : ¬ s.Divides c := by
  rintro ⟨-, hblank⟩
  simp only [mem_cons, not_mem_nil, or_false] at h
  rcases h with rfl | rfl | rfl | rfl <;> revert hblank <;> decide

theorem componentsFrom_cons (s : Scan) (c : Char) (part cs : List Char) :
    componentsFrom s.depth s.quote part (c :: cs) =
      if s.Divides c then
        if part.isEmpty then componentsFrom 0 none [] cs
        else part.reverse :: componentsFrom 0 none [] cs
      else componentsFrom (s.next c).depth (s.next c).quote (c :: part) cs := by
  obtain ⟨depth, quote⟩ := s
  cases quote with
  | some q =>
    rw [if_neg (fun h => by cases h.1), componentsFrom]
    by_cases hq : c = q <;> simp [next, hq]
  | none =>
    rw [componentsFrom]
    by_cases hmark : c ∈ ['"', '\'', '(', ')']
    · rw [if_neg (not_divides_of_mem hmark)]
      simp only [mem_cons, not_mem_nil, or_false] at hmark
      rcases hmark with rfl | rfl | rfl | rfl <;> rfl
    · simp only [mem_cons, not_mem_nil, or_false, not_or] at hmark
      simp [next, hmark, Divides, and_comm]

/-- No character is made up. -/
theorem mem_of_mem_kept (h : c ∈ kept s v) : c ∈ v := by
  induction v generalizing s with
  | nil => exact h
  | cons d v ih =>
    rw [kept] at h
    split at h
    · exact .tail _ (ih h)
    · exact (mem_cons.1 h).elim (fun h => h ▸ (.head _))
        fun h => .tail _ (ih h)

/-- The quote that is open, if any, is no blank. -/
def Proper (s : Scan) : Prop := ∀ q ∈ s.quote, Text.isBlank q = false

theorem Proper.next (h : s.Proper) (c : Char) : (s.next c).Proper := by
  unfold Scan.next
  split
  · split
    · exact nofun
    · exact h
  · next hnone =>
    split
    · next hquote =>
      rintro q ⟨⟩
      simp only [Bool.or_eq_true, beq_iff_eq] at hquote
      rcases hquote with rfl | rfl <;> decide
    · split
      · exact h
      · split <;> exact h

theorem proper_after (v : List Char) : (after {} v).Proper :=
  List.foldlRecOn v _ nofun fun _ hs c _ => hs.next c

theorem next_of_isBlank (hs : s.Proper) (hc : Text.isBlank c) : s.next c = s := by
  obtain ⟨depth, quote⟩ := s
  cases quote with
  | some q =>
    have hne : ¬ (c == q) = true := by
      rintro h
      have hq := hs q rfl
      rw [← eq_of_beq h, hc] at hq
      cases hq
    simp [Scan.next, hne]
  | none =>
    have hmark : c ∉ ['"', '\'', '(', ')'] := fun h => not_divides_of_mem h (s := {}) ⟨rfl, hc⟩
    simp only [mem_cons, not_mem_nil, or_false, not_or] at hmark
    simp [Scan.next, hmark]

/-- A part that closes what it opens does not end in a blank. -/
theorem isBlank_of_after_eq (hp : Whole {} (p ++ [c])) (hend : after {} (p ++ [c]) = {}) :
    Text.isBlank c = false := by
  rw [Bool.eq_false_iff]
  intro hc
  rw [after, foldl_append] at hend
  have hback : after {} p = {} := (next_of_isBlank (proper_after p) hc).symm.trans hend
  exact (whole_append.1 hp).2.1 ⟨hback, hc⟩

theorem componentsFrom_append (hp : Whole s p) (part v : List Char) :
    componentsFrom s.depth s.quote part (p ++ v) =
      componentsFrom (s.after p).depth (s.after p).quote (p.reverse ++ part) v := by
  induction p generalizing s part with
  | nil => rfl
  | cons c p ih =>
    rw [cons_append, componentsFrom_cons, if_neg hp.1, ih hp.2, reverse_cons,
      append_assoc, singleton_append]
    rfl

end Scan

open Scan

/-- The components of a value: parts in which nothing divides, with a blank between neighbours
and further blanks around them. Before each of these blanks no quote or parenthesis is open. -/
inductive Divided : List Char → List (List Char) → Prop
  | nil : Divided [] []
  | blank {c : Char} {v : List Char} {ps : List (List Char)} (hc : Text.isBlank c)
      (h : Divided v ps) : Divided (c :: v) ps
  | last {p : List Char} (hne : p ≠ []) (hp : Whole {} p) : Divided p [p]
  | cons {p v : List Char} {c : Char} {ps : List (List Char)} (hne : p ≠ []) (hp : Whole {} p)
      (hend : after {} p = {}) (hc : Text.isBlank c) (h : Divided v ps) :
      Divided (p ++ c :: v) (p :: ps)

/-- Reading on from a part that has been read divides the part with what follows it. -/
theorem divided_componentsFrom (part cs : List Char) (hpart : Whole {} part.reverse) :
    Divided (part.reverse ++ cs)
      (componentsFrom (after {} part.reverse).depth (after {} part.reverse).quote part cs) := by
  induction cs generalizing part with
  | nil =>
    rw [append_nil, componentsFrom]
    split
    · next h => rw [isEmpty_iff.1 h]; exact .nil
    · next h => exact .last (by simpa using h) hpart
  | cons c cs ih =>
    rw [componentsFrom_cons]
    split
    · next hc =>
      have hrest : Divided cs (componentsFrom 0 none [] cs) := ih [] trivial
      split
      · next h => rw [isEmpty_iff.1 h]; exact .blank hc.2 hrest
      · next h => exact .cons (by simpa using h) hpart hc.1 hc.2 hrest
    · next hc =>
      have hnext := ih (c :: part)
      rw [reverse_cons, append_assoc, singleton_append, Scan.after, foldl_append] at hnext
      exact hnext (whole_append.2 ⟨hpart, hc, trivial⟩)

/-- **The components of a value are the ones it divides into**, and there are no others. -/
theorem divided_iff {v : List Char} {ps : List (List Char)} :
    Divided v ps ↔ componentsFrom 0 none [] v = ps := by
  constructor
  · intro h
    induction h with
    | nil => rfl
    | blank hc _ ih =>
      exact (componentsFrom_cons {} _ [] _).trans (by rw [if_pos ⟨rfl, hc⟩]; exact ih)
    | @last p hne hp =>
      have h := componentsFrom_append hp [] []
      rw [append_nil, append_nil, componentsFrom, if_neg (by simpa using hne),
        reverse_reverse] at h
      exact h
    | @cons p v c ps hne hp hend hc _ ih =>
      have h := componentsFrom_append hp [] (c :: v)
      rw [hend, append_nil, componentsFrom_cons, if_pos ⟨rfl, hc⟩, if_neg (by simpa using hne),
        reverse_reverse, ih] at h
      exact h
  · rintro rfl
    exact divided_componentsFrom [] v trivial

namespace Divided

variable {v : List Char} {ps : List (List Char)}

/-- The components hold, in order, all characters but the blanks outside. -/
theorem flatten_eq (h : Divided v ps) : ps.flatten = kept {} v := by
  induction h with
  | nil => rfl
  | blank hc _ ih => rw [kept, if_pos ⟨rfl, hc⟩, ih]
  | @last p _ hp => simpa [kept] using (kept_append (v := []) hp).symm
  | cons _ hp hend hc _ ih =>
    rw [kept_append hp, hend, kept, if_pos ⟨rfl, hc⟩, flatten_cons, ih]

/-- Components with single spaces between them are divided as before. -/
theorem intercalate (h : Divided v ps) : Divided ([' '].intercalate ps) ps := by
  induction h with
  | nil => exact .nil
  | blank _ _ ih => exact ih
  | last hne hp => simpa using .last hne hp
  | @cons p v c ps hne hp hend _ _ ih =>
    cases ps with
    | nil => simpa using .last hne hp
    | cons q ps => simpa [List.intercalate] using .cons hne hp hend (c := ' ') (by decide) ih

/-- If the value does not end in a blank, no component starts or ends in one. -/
theorem trimmed (h : Divided v ps) (hv : ∀ c ∈ v.getLast?, Text.isBlank c = false) :
    ∀ p ∈ ps, p ≠ [] ∧ (∀ c ∈ p.head?, Text.isBlank c = false) ∧
      ∀ c ∈ p.getLast?, Text.isBlank c = false := by
  have hhead : ∀ {p : List Char}, Whole {} p → ∀ c ∈ p.head?, Text.isBlank c = false := by
    intro p hp c hc
    obtain ⟨q, rfl⟩ := head?_eq_some_iff.1 hc
    exact Bool.eq_false_iff.2 fun hblank => hp.1 ⟨rfl, hblank⟩
  induction h with
  | nil => simp
  | @blank c v ps hc h ih =>
    cases v with
    | nil => exact ih (by simp)
    | cons d v => exact ih (by simpa using hv)
  | last hne hp => simpa using ⟨hne, hhead hp, hv⟩
  | @cons p v c ps hne hp hend hc h ih =>
    refine forall_mem_cons.2 ⟨⟨hne, hhead hp, fun d hd => ?_⟩, ih ?_⟩
    · obtain ⟨q, rfl⟩ := getLast?_eq_some_iff.1 hd
      exact isBlank_of_after_eq hp hend
    · cases v with
      | nil => simp
      | cons d v => simpa [getLast?_append] using hv

end Divided

theorem divided_components (v : List Char) : Divided v ((components v).map String.toList) := by
  rw [divided_iff, components, map_map]
  simp

/-- A text without blanks is one component. -/
theorem components_eq_singleton {t : String} (hne : t.toList ≠ [])
    (h : ∀ c ∈ t.toList, Text.isBlank c = false) : components t.toList = [t] := by
  rw [components, divided_iff.1 (.last hne (whole_of_forall h)), map_singleton,
    String.ofList_toList]

theorem mem_of_mem_components {v : List Char} {t : String} (ht : t ∈ components v) {c : Char}
    (hc : c ∈ t.toList) : c ∈ v := by
  refine mem_of_mem_kept (s := {}) ?_
  rw [← (divided_components v).flatten_eq]
  exact mem_flatten_of_mem (mem_map_of_mem ht) hc

/-! ### The longhands of a value -/

/-- The sides of a box, clockwise. -/
def sides : List String := ["top", "right", "bottom", "left"]

/-- The shorthands and the properties that they set, in the order in which values stand for them:
one for each side or corner of a box, or for each of two directions. -/
def shorthands : List (String × List String) :=
  [("padding", sides.map ("padding-" ++ ·)), ("margin", sides.map ("margin-" ++ ·)),
    ("inset", sides), ("border-radius", ["top-left", "top-right", "bottom-right", "bottom-left"].map
      fun corner => "border-" ++ corner ++ "-radius"),
    ("overflow", ["overflow-x", "overflow-y"]), ("gap", ["row-gap", "column-gap"])] ++
  ["items", "self", "content"].map fun part =>
    ("place-" ++ part, ["align-" ++ part, "justify-" ++ part])

def longhands (property : String) : List String := (shorthands.lookup property).getD []

theorem exists_of_mem_longhands {name property : String} (h : name ∈ longhands property) :
    ∃ e ∈ shorthands, e.1 = property ∧ name ∈ e.2 := by
  cases hlookup : shorthands.lookup property with
  | none =>
    rw [longhands, hlookup] at h
    cases h
  | some names =>
    rw [longhands, hlookup] at h
    obtain ⟨before, after, heq, -⟩ := lookup_eq_some_iff.1 hlookup
    refine ⟨(property, names), ?_, rfl, h⟩
    rw [heq]
    exact mem_append_right _ (.head _)

theorem longhands_of_box {property p q r s : String} (h : boxLonghands property = some (p, q, r, s)) :
    longhands property = [p, q, r, s] := by
  unfold boxLonghands at h
  split at h <;> cases h <;> decide +kernel

theorem longhands_of_pair {property p q : String} (h : pairLonghands property = some (p, q)) :
    longhands property = [p, q] := by
  unfold pairLonghands at h
  split at h <;> cases h <;> decide +kernel

theorem longhands_of_none {property : String} (hbox : boxLonghands property = none)
    (hpair : pairLonghands property = none) : longhands property = [] := by
  have hknown : ∀ e ∈ shorthands, boxLonghands e.1 ≠ none ∨ pairLonghands e.1 ≠ none := by
    decide +kernel
  refine eq_nil_iff_forall_not_mem.2 fun name hname => ?_
  obtain ⟨e, he, rfl, -⟩ := exists_of_mem_longhands hname
  exact (hknown e he).elim (absurd hbox) (absurd hpair)

/-- The value ends in `!important`. -/
def Important (value : String) : Prop := "!important".toList <:+ value.toList

instance (value : String) : Decidable (Important value) :=
  inferInstanceAs (Decidable (_ <:+ _))

/-- The value without a final `!important` and the blanks before it. -/
def plain (value : String) : List Char :=
  if Important value then Text.trimEnd (value.toList.take (value.toList.length - 10))
  else value.toList

/-- What restores a final `!important`. -/
def mark (value : String) : String := if Important value then " !important" else ""

theorem splitImportant_eq (value : String) :
    splitImportant value = (String.ofList (plain value), mark value) := by
  have hstrip : ∀ rest, Text.strip? "!important".toList.reverse value.toList.reverse = some rest ↔
      value.toList = rest.reverse ++ "!important".toList := by
    intro rest
    rw [Text.strip?_eq_some_iff, ← reverse_inj, reverse_append, reverse_reverse,
      reverse_reverse]
  unfold splitImportant plain mark
  split
  · next rest hrest =>
    have hvalue := (hstrip rest).1 hrest
    have himportant : Important value := ⟨rest.reverse, hvalue.symm⟩
    rw [if_pos himportant, if_pos himportant, hvalue]
    simp [Text.trimEnd]
  · next hnone =>
    have hplain : ¬ Important value := by
      rintro ⟨rest, hrest⟩
      have hsome := (hstrip rest.reverse).2 (by rw [reverse_reverse, hrest])
      rw [hnone] at hsome
      cases hsome
    rw [if_neg hplain, if_neg hplain, String.ofList_toList]

variable {value property : String}

theorem mem_of_mem_plain {c : Char} (h : c ∈ plain value) : c ∈ value.toList := by
  unfold plain at h
  split at h
  · rw [Text.trimEnd, mem_reverse] at h
    exact mem_of_mem_take (mem_reverse.1 ((dropWhile_sublist _).mem h))
  · exact h

/-- The component for one place of a shorthand: its own, otherwise that of the place opposite,
otherwise the first. -/
def chosen (parts : List String) (place : Nat) : String :=
  (parts[place]?.or parts[place - 2]?).getD (parts.headD "")

theorem chosen_mem {parts : List String} (h : 1 ≤ parts.length) (place : Nat) :
    chosen parts place ∈ parts := by
  obtain ⟨a, parts, rfl⟩ := exists_cons_of_length_pos h
  unfold chosen
  cases h₁ : (a :: parts)[place]? with
  | some b => exact mem_of_getElem? h₁
  | none =>
    cases h₂ : (a :: parts)[place - 2]? with
    | some b => exact mem_of_getElem? h₂
    | none => exact .head _

/-- A shorthand is split unless its value refers to a variable, is a radius with an elliptical part
or has the wrong number of components. -/
def Splits (property value : String) : Prop :=
  Text.contains "var(".toList value.toList = false ∧
    ¬ (property = "border-radius" ∧ '/' ∈ plain value) ∧
    1 ≤ (components (plain value)).length ∧
    (components (plain value)).length ≤ (longhands property).length

instance (property value : String) : Decidable (Splits property value) :=
  inferInstanceAs (Decidable (_ ∧ _))

theorem not_splits (h : longhands property = []) : ¬ Splits property value := by
  rintro ⟨-, -, hpos, hle⟩
  rw [h] at hle
  exact absurd (Nat.le_trans hpos hle) (by decide)

theorem fourValues_eq (parts : List String) :
    fourValues parts = if 1 ≤ parts.length ∧ parts.length ≤ 4 then
      some (chosen parts 0, chosen parts 1, chosen parts 2, chosen parts 3) else none := by
  rcases parts with _ | ⟨a, _ | ⟨b, _ | ⟨c, _ | ⟨d, _ | ⟨e, parts⟩⟩⟩⟩⟩ <;>
    simp [fourValues, chosen]

theorem twoValues_eq (parts : List String) :
    twoValues parts = if 1 ≤ parts.length ∧ parts.length ≤ 2 then
      some (chosen parts 0, chosen parts 1) else none := by
  rcases parts with _ | ⟨a, _ | ⟨b, _ | ⟨c, parts⟩⟩⟩ <;> simp [twoValues, chosen]

/-- **A value is split into all longhands or left as it is.** Each longhand has the component for
its place, and the mark of the whole. -/
theorem expand_eq (property value : String) :
    expand property value =
      if Splits property value then
        (longhands property).zipIdx.map fun e =>
          ⟨e.1, chosen (components (plain value)) e.2 ++ mark value⟩
      else [⟨property, value⟩] := by
  by_cases hvar : Text.contains "var(".toList value.toList = true
  · rw [expand, if_pos hvar, if_neg fun h : Splits property value => Bool.noConfusion (hvar.symm.trans h.1)]
  · rw [expand, if_neg hvar, splitImportant_eq]
    dsimp only
    rw [String.toList_ofList, fourValues_eq, twoValues_eq]
    split
    · next p q r s hbox =>
      have hnames : longhands property = [p, q, r, s] := longhands_of_box hbox
      by_cases hslash : property = "border-radius" ∧ '/' ∈ plain value
      · simp [Splits, hslash]
      · by_cases hcount : 1 ≤ (components (plain value)).length ∧ (components (plain value)).length ≤ 4
        · rw [if_neg (by simpa using hslash), if_pos hcount,
            if_pos ⟨by simpa using hvar, hslash, by simpa [hnames] using hcount⟩, hnames]
          rfl
        · rw [if_neg (by simpa using hslash), if_neg hcount,
            if_neg fun h => hcount (by simpa [hnames] using h.2.2)]
    · next hbox =>
      have hradius : property ≠ "border-radius" := by
        rintro rfl
        cases hbox
      split
      · next p q hpair =>
        have hnames : longhands property = [p, q] := longhands_of_pair hpair
        by_cases hcount : 1 ≤ (components (plain value)).length ∧ (components (plain value)).length ≤ 2
        · rw [if_pos hcount, if_pos ⟨by simpa using hvar, fun h => hradius h.1,
            by simpa [hnames] using hcount⟩, hnames]
          rfl
        · rw [if_neg hcount, if_neg fun h => hcount (by simpa [hnames] using h.2.2)]
      · next hpair =>
        have hnames : longhands property = [] := longhands_of_none hbox hpair
        rw [if_neg (not_splits hnames)]

theorem longhands_of_mem {name : String} (h : name ∈ longhands property) : longhands name = [] := by
  have hplain : ∀ e ∈ shorthands, ∀ name ∈ e.2, longhands name = [] := by decide +kernel
  obtain ⟨e, he, -, hname⟩ := exists_of_mem_longhands h
  exact hplain e he name hname

theorem expand_of_mem_expand {d : Declaration} (h : d ∈ expand property value) :
    expand d.property d.value = [d] := by
  rw [expand_eq] at h
  split at h
  · obtain ⟨⟨name, i⟩, hmem, rfl⟩ := mem_map.1 h
    rw [expand_eq, if_neg (not_splits (longhands_of_mem (fst_mem_of_mem_zipIdx hmem)))]
  · next hsplits =>
    rw [mem_singleton.1 h, expand_eq, if_neg hsplits]

end Declaration

end AtomicStyles
