import AtomicStyles.Proofs.Exceptions
import AtomicStyles.Proofs.Output.Literals

/-!
# Replacing, splitting and joining

A text is replaced in another by units, and it is split by characters. Both find the same places:
the units of a character are half of no other, so that a text stands among the units of another
only where its characters do.

## Main definitions

* `Text.FirstAfter` — a separator stands nowhere before a place.
* `Text.Cuts` — the parts of a text between the separators in it.

## Main statements

* `Text.cuts_splitFrom` — splitting gives these parts.
* `Eval.replaceFrom_of_cuts` — replacing puts another text between them.
* `Eval.replaceAll_eq_join_split` — replacing all is splitting and joining.
-/

namespace AtomicStyles

open Eval Coupling
open List hiding after

namespace Text

/-! ### The parts of a text -/

/-- The separator does not stand in `before ++ rest` at a place in `before`. -/
def FirstAfter (sep before rest : List Char) : Prop :=
  ∀ part, part <:+ before → part ≠ [] → ¬sep <+: part ++ rest

/-- The parts of a text between separators, which are found from left to right and do not
overlap. -/
inductive Cuts (sep : List Char) : List Char → List (List Char) → Prop
  | last {cs : List Char} : FirstAfter sep cs [] → Cuts sep cs [cs]
  | next {before rest : List Char} {parts : List (List Char)} :
      FirstAfter sep before (sep ++ rest) → Cuts sep rest parts →
        Cuts sep (before ++ (sep ++ rest)) (before :: parts)

theorem firstAfter_nil (sep rest : List Char) : FirstAfter sep [] rest :=
  fun _ hpart hne => (hne (suffix_nil.1 hpart)).elim

variable {sep before rest cs : List Char}

theorem firstAfter_cons_iff {c : Char} :
    FirstAfter sep (c :: before) rest ↔
      ¬sep <+: c :: before ++ rest ∧ FirstAfter sep before rest := by
  constructor
  · intro h
    exact ⟨h _ suffix_rfl (by simp), fun part hpart => h part (hpart.trans (by simp))⟩
  · rintro ⟨hhere, hlater⟩ part hpart hne
    rcases suffix_cons_iff.1 hpart with rfl | hpart
    · exact hhere
    · exact hlater part hpart hne

theorem Cuts.ne_nil {parts : List (List Char)} (h : Cuts sep cs parts) : parts ≠ [] := by
  cases h <;> simp

/-- The parts of a text, joined by the separator, are the text. -/
theorem Cuts.intercalate {parts : List (List Char)} (h : Cuts sep cs parts) :
    sep.intercalate parts = cs := by
  induction h with
  | last => exact intercalate_singleton
  | next _ hrest ih =>
    rw [intercalate_cons_of_ne_nil hrest.ne_nil, ih, append_assoc]

/-! ### Splitting -/

theorem startsWith_iff (sep cs : List Char) : startsWith sep cs = true ↔ sep <+: cs := by
  fun_induction startsWith sep cs with
  | case1 => simp
  | case2 => simp
  | case3 p ps c cs ih => simp [cons_prefix_cons, ih]

/-- The characters of a separator that are still to come are passed over. -/
theorem splitFrom_skip (sep part rest : List Char) (skipped : List Char) :
    splitFrom sep skipped.length part (skipped ++ rest) = splitFrom sep 0 part rest := by
  induction skipped with
  | nil => rfl
  | cons c skipped ih => exact ih

/-- A separator ends the current part. -/
theorem splitFrom_sep (hsep : sep ≠ []) (part rest : List Char) :
    splitFrom sep 0 part (sep ++ rest) = part.reverse :: splitFrom sep 0 [] rest := by
  obtain ⟨c, cs, rfl⟩ := exists_cons_of_ne_nil hsep
  have hstart : startsWith (c :: cs) (c :: (cs ++ rest)) = true :=
    (startsWith_iff _ _).2 ⟨rest, rfl⟩
  rw [cons_append, splitFrom, if_pos hstart, length_cons, Nat.add_sub_cancel,
    splitFrom_skip]

/-- The current part goes on until the next separator. -/
theorem splitFrom_of_firstAfter (h : FirstAfter sep before rest) (part : List Char) :
    splitFrom sep 0 part (before ++ rest) = splitFrom sep 0 (before.reverse ++ part) rest := by
  induction before generalizing part with
  | nil => rfl
  | cons c before ih =>
    obtain ⟨hhere, hlater⟩ := firstAfter_cons_iff.1 h
    have hstart : ¬startsWith sep (c :: (before ++ rest)) = true :=
      fun hstart => hhere ((startsWith_iff _ _).1 hstart)
    rw [cons_append, splitFrom, if_neg hstart, ih hlater]
    simp

/-- Every text has a first separator, or none. -/
theorem exists_firstAfter (sep cs : List Char) :
    FirstAfter sep cs [] ∨ ∃ before rest, cs = before ++ (sep ++ rest) ∧
      FirstAfter sep before (sep ++ rest) := by
  induction cs with
  | nil => exact .inl (firstAfter_nil _ _)
  | cons c cs ih =>
    by_cases hhere : sep <+: c :: cs
    · obtain ⟨rest, hrest⟩ := hhere
      exact .inr ⟨[], rest, hrest.symm, firstAfter_nil _ _⟩
    · rcases ih with hnone | ⟨before, rest, rfl, hfirst⟩
      · exact .inl (firstAfter_cons_iff.2 ⟨by simpa using hhere, hnone⟩)
      · exact .inr ⟨c :: before, rest, rfl, firstAfter_cons_iff.2 ⟨hhere, hfirst⟩⟩

/-- Splitting gives the parts between separators. -/
theorem cuts_splitFrom (hsep : sep ≠ []) (cs : List Char) :
    Cuts sep cs (splitFrom sep 0 [] cs) := by
  induction hn : cs.length using Nat.strong_induction_on generalizing cs with | _ n ih
  rcases exists_firstAfter sep cs with hnone | ⟨before, rest, rfl, hfirst⟩
  · have hsplit := splitFrom_of_firstAfter hnone []
    rw [append_nil, append_nil, splitFrom, reverse_reverse] at hsplit
    rw [hsplit]
    exact .last hnone
  · have hpos : 0 < sep.length := length_pos_iff.2 hsep
    have hrest := ih rest.length (by rw [← hn]; simp; omega) rest rfl
    rw [splitFrom_of_firstAfter hfirst, splitFrom_sep hsep, append_nil, reverse_reverse]
    exact .next hfirst hrest

/-! ### Units of characters -/

theorem unitsStart_iff (needle us : List UInt16) : unitsStart needle us = true ↔ needle <+: us := by
  fun_induction unitsStart needle us with
  | case1 => simp
  | case2 => simp
  | case3 p ps u us ih => simp [cons_prefix_cons, ih]

theorem unitChars_flatMap (cs : List Char) : unitChars (cs.flatMap charUnits) = cs := by
  have h := unitChars_flatMap_append cs []
  rwa [append_nil, unitChars, append_nil] at h

/-- The units of characters begin with those of others only if the characters do. -/
theorem flatMap_charUnits_prefix_iff (ds cs : List Char) :
    ds.flatMap charUnits <+: cs.flatMap charUnits ↔ ds <+: cs := by
  constructor
  · rintro ⟨us, hus⟩
    have hchars := congrArg unitChars hus
    rw [unitChars_flatMap_append, unitChars_flatMap] at hchars
    exact ⟨unitChars us, hchars⟩
  · rintro ⟨rest, rfl⟩
    exact ⟨rest.flatMap charUnits, flatMap_append.symm⟩

/-- No character begins with a unit that closes a pair. -/
theorem isLow_head_charUnits {c : Char} {u : UInt16} {us : List UInt16}
    (h : charUnits c = u :: us) : isLow u = false := by
  have hvalid := toNat_valid c
  rw [charUnits] at h
  split at h
  next hone =>
    obtain ⟨rfl, -⟩ := cons_eq_cons.1 h
    have hunit : c.toNat.toUInt16.toNat = c.toNat := by simpa using hone
    simp only [isLow, UInt16.le_iff_toNat_le, hunit, UInt16.reduceToNat, Bool.and_eq_false_iff,
      decide_eq_false_iff_not]
    omega
  next htwo =>
    obtain ⟨rfl, -⟩ := cons_eq_cons.1 h
    generalize hm : 0xD800 + (c.toNat - 0x10000) / 0x400 = m
    have hunit : m.toUInt16.toNat = m := by
      simp
      omega
    simp only [isLow, UInt16.le_iff_toNat_le, hunit, UInt16.reduceToNat, Bool.and_eq_false_iff,
      decide_eq_false_iff_not]
    omega

/-- A character has one unit, or a second one that closes a pair. -/
theorem charUnits_cases (c : Char) :
    (∃ u, charUnits c = [u]) ∨ ∃ u v, charUnits c = [u, v] ∧ isLow v = true := by
  have hvalid := toNat_valid c
  rw [charUnits]
  split
  next => exact .inl ⟨_, rfl⟩
  next htwo =>
    refine .inr ⟨_, _, rfl, ?_⟩
    generalize hl : 0xDC00 + (c.toNat - 0x10000) % 0x400 = l
    have hunit : l.toUInt16.toNat = l := by
      simp
      omega
    simp only [isLow, UInt16.le_iff_toNat_le, hunit, UInt16.reduceToNat, Bool.and_eq_true,
      decide_eq_true_eq]
    omega

theorem charUnits_ne_nil (c : Char) : charUnits c ≠ [] := by
  rcases charUnits_cases c with ⟨u, h⟩ | ⟨u, v, h, -⟩ <;> simp [h]

theorem flatMap_charUnits_ne_nil (h : cs ≠ []) : cs.flatMap charUnits ≠ [] := by
  obtain ⟨c, cs, rfl⟩ := exists_cons_of_ne_nil h
  simp [charUnits_ne_nil]

/-- Characters do not stand among units from the middle of a pair on. -/
theorem not_prefix_of_isLow (hsep : sep ≠ []) {v : UInt16} (hv : isLow v = true)
    (us : List UInt16) : ¬sep.flatMap charUnits <+: v :: us := by
  obtain ⟨c, cs, rfl⟩ := exists_cons_of_ne_nil hsep
  obtain ⟨u, us', hu⟩ := exists_cons_of_ne_nil (charUnits_ne_nil c)
  rw [flatMap_cons, hu, cons_append, cons_prefix_cons]
  rintro ⟨rfl, -⟩
  exact Bool.false_ne_true ((isLow_head_charUnits hu).symm.trans hv)

/-! ### Finding -/

/-- The search for a separator goes over the units of the characters before it. -/
theorem findFrom_of_firstAfter (hsep : sep ≠ []) (h : FirstAfter sep before rest) (place : Nat) :
    findFrom (sep.flatMap charUnits) place
        (before.flatMap charUnits ++ rest.flatMap charUnits) =
      findFrom (sep.flatMap charUnits) (place + (before.flatMap charUnits).length)
        (rest.flatMap charUnits) := by
  induction before generalizing place with
  | nil => rfl
  | cons c before ih =>
    obtain ⟨hhere, hlater⟩ := firstAfter_cons_iff.1 h
    have hunits : ¬unitsStart (sep.flatMap charUnits)
        (charUnits c ++ (before.flatMap charUnits ++ rest.flatMap charUnits)) = true := by
      rw [unitsStart_iff, ← flatMap_append, ← flatMap_cons, flatMap_charUnits_prefix_iff]
      exact hhere
    rw [flatMap_cons, append_assoc, length_append]
    -- a character beyond U+FFFF is passed in two steps, the second from the middle of its pair
    rcases charUnits_cases c with ⟨u, hu⟩ | ⟨u, v, hu, hv⟩ <;> rw [hu] at hunits ⊢
    · rw [singleton_append] at hunits ⊢
      rw [findFrom, if_neg hunits, ih hlater, length_singleton, Nat.add_assoc]
    · have hmiddle (us : List UInt16) :
          ¬unitsStart (sep.flatMap charUnits) (v :: us) = true := by
        rw [unitsStart_iff]
        exact not_prefix_of_isLow hsep hv us
      rw [cons_append, singleton_append] at hunits ⊢
      rw [findFrom, if_neg hunits, findFrom, if_neg (hmiddle _), ih hlater]
      simp only [length_cons, length_nil]
      congr 1
      omega

/-- A separator that stands first is found. -/
theorem findFrom_sep (hsep : sep ≠ []) (rest : List Char) (place : Nat) :
    findFrom (sep.flatMap charUnits) place ((sep ++ rest).flatMap charUnits) = some place := by
  rw [flatMap_append]
  obtain ⟨u, us, hu⟩ := exists_cons_of_ne_nil (flatMap_charUnits_ne_nil hsep)
  rw [hu, cons_append, findFrom, if_pos]
  rw [unitsStart_iff]
  exact ⟨_, rfl⟩

theorem findFrom_nil (hsep : sep ≠ []) (place : Nat) :
    findFrom (sep.flatMap charUnits) place [] = none := by
  rw [findFrom, if_neg]
  rw [List.isEmpty_iff]
  exact flatMap_charUnits_ne_nil hsep

end Text

namespace Eval

open Text

/-- The search from the end of some units on. -/
theorem findUnits_append {sep : List Char} (hsep : sep ≠ []) (us hay : List UInt16) :
    findUnits (sep.flatMap charUnits) (us ++ hay) us.length =
      findFrom (sep.flatMap charUnits) us.length hay := by
  rw [findUnits, if_neg, List.drop_left]
  rw [List.isEmpty_iff]
  exact flatMap_charUnits_ne_nil hsep

/-- A place that is found is replaced, and what follows it is gone through. -/
theorem replaceFrom_found {needle hay us : List UInt16} {other : String} {fuel start found : Nat}
    {m : Machine} (hne : needle ≠ []) (hfind : findUnits needle hay start = some found)
    (hrest : replaceFrom needle hay true (fun _ => pure other) fuel (found + needle.length) m =
      .ok us m) :
    replaceFrom needle hay true (fun _ => pure other) (fuel + 1) start m =
      .ok ((hay.drop start).take (found - start) ++ units other ++ us) m := by
  have hne : needle.isEmpty = false := isEmpty_eq_false_iff.2 hne
  rw [replaceFrom, hfind]
  refine (bind_eq_of_ok rfl).trans ?_
  rw [hne]
  exact bind_eq_of_ok hrest

/-- Replacing puts the other text between the parts of a text. The induction is on the parts;
`us` holds the units before the place that has been reached. -/
theorem replaceFrom_of_cuts {sep : List Char} (hsep : sep ≠ []) {cs : List Char}
    {parts : List (List Char)} (h : Cuts sep cs parts) (other : String) (us : List UInt16)
    (fuel : Nat) (hfuel : (cs.flatMap charUnits).length < fuel) (m : Machine) :
    replaceFrom (sep.flatMap charUnits) (us ++ cs.flatMap charUnits) true (fun _ => pure other)
        fuel us.length m =
      .ok ((other.toList.intercalate parts).flatMap charUnits) m := by
  induction h generalizing us fuel with
  | @last cs hnone =>
    obtain ⟨fuel, rfl⟩ := Nat.exists_eq_succ_of_ne_zero (Nat.ne_zero_of_lt hfuel)
    have hfind : findUnits (sep.flatMap charUnits) (us ++ cs.flatMap charUnits) us.length =
        none := by
      have hfrom := findFrom_of_firstAfter hsep hnone us.length
      rw [flatMap_nil, append_nil, findFrom_nil hsep] at hfrom
      rw [findUnits_append hsep, hfrom]
    rw [replaceFrom, hfind, drop_left, intercalate_singleton]
    rfl
  | @next before rest parts hfirst hrest ih =>
    obtain ⟨fuel, rfl⟩ := Nat.exists_eq_succ_of_ne_zero (Nat.ne_zero_of_lt hfuel)
    have hunits : (before ++ (sep ++ rest)).flatMap charUnits =
        before.flatMap charUnits ++ (sep.flatMap charUnits ++ rest.flatMap charUnits) := by
      rw [flatMap_append, flatMap_append]
    have hfind : findUnits (sep.flatMap charUnits)
        (us ++ (before ++ (sep ++ rest)).flatMap charUnits) us.length =
          some (us.length + (before.flatMap charUnits).length) := by
      rw [findUnits_append hsep, flatMap_append, findFrom_of_firstAfter hsep hfirst,
        findFrom_sep hsep]
    have hne := flatMap_charUnits_ne_nil hsep
    have hpos := length_pos_iff.2 hne
    have hnext := ih (us ++ before.flatMap charUnits ++ sep.flatMap charUnits) fuel
      (by simp only [hunits, length_append] at hfuel; omega)
    rw [length_append, length_append, append_assoc, append_assoc,
      ← hunits] at hnext
    rw [replaceFrom_found hne hfind hnext, drop_left, Nat.add_sub_cancel_left, hunits,
      take_left, intercalate_cons_of_ne_nil hrest.ne_nil, flatMap_append,
      flatMap_append]
    rfl

/-! ### Methods -/

theorem text_string (s : String) (m : Machine) : text (.string s) m = .ok s m := rfl

theorem replaceAll_of_cuts (r : Interp) {s p : String} (hp : p ≠ "") (other : String)
    {parts : List (List Char)} (h : Cuts p.toList s.toList parts) (m : Machine) :
    callText r s .replaceAll [.string p, .string other] m =
      .ok (.string (String.ofList (other.toList.intercalate parts))) m := by
  have hsep : p.toList ≠ [] := by simpa using hp
  have hrun := replaceFrom_of_cuts hsep h other [] ((units s).length + 1) (Nat.lt_succ_self _) m
  have htext : ofUnits ((other.toList.intercalate parts).flatMap charUnits) =
      String.ofList (other.toList.intercalate parts) := by
    rw [ofUnits, unitChars_flatMap]
  show replaceText r s true [.string p, .string other] m = _
  refine (bind_eq_of_ok (text_string p m)).trans ?_
  refine (bind_eq_of_ok hrun).trans ?_
  rw [htext]
  rfl

theorem split_eq (r : Interp) (s : String) {p : String} (hp : p ≠ "") (m : Machine) :
    callText r s .split [.string p] m = newArray ((split p s).map .string).toArray m := by
  have hempty : p.isEmpty = false := by
    simpa using hp
  have hparts : (do
      let sep ← text (.string p)
      return if sep.isEmpty then unitTexts s else (split sep s).map Value.string : Eval _) m =
        .ok ((split p s).map .string) m := by
    refine (bind_eq_of_ok (text_string p m)).trans ?_
    rw [hempty]
    rfl
  show splitText s [.string p] m = _
  exact (bind_eq_of_ok hparts).trans (bind_eq_of_ok rfl)

theorem itemTexts_map_string (ts : List String) (m : Machine) :
    itemTexts (ts.map .string) m = .ok ts m := by
  induction ts with
  | nil => rfl
  | cons t ts ih =>
    rw [itemTexts, map_cons, mapM_cons]
    refine (bind_eq_of_ok (text_string t m)).trans ?_
    exact bind_eq_of_ok ih

theorem join_eq (r : Interp) (a : ArrayRef) (sep : String) {ts : List String} {m : Machine}
    (h : (m.arrayCell a).content = (ts.map .string).toArray) :
    callList r a .join [.string sep] m = .ok (.string (sep.intercalate ts)) m := by
  have hitems : items a m = .ok (ts.map Value.string).toArray m := by
    rw [← h]
    rfl
  refine (bind_eq_of_ok (text_string sep m)).trans ?_
  refine (bind_eq_of_ok hitems).trans ?_
  exact bind_eq_of_ok (itemTexts_map_string ts m)

theorem exists_newArray (xs : Array Value) (m : Machine) :
    ∃ a m', newArray xs m = .ok (.array a) m' ∧ (m'.arrayCell a).content = xs := by
  refine ⟨_, _, rfl, ?_⟩
  simp [Machine.arrayCell, Machine.cell]

/-- **Replacing all is splitting and joining.** A text in which another is replaced is what its
parts give when they are joined by the replacement, and joined by the other text they give back the
text. The parts are those between the places at which the other text stands, from left to right
and without overlap. -/
theorem replaceAll_eq_join_split (r : Interp) (s p other : String) (hp : p ≠ "") (m : Machine) :
    ∃ parts t a m', Cuts p.toList s.toList parts ∧
      callText r s .replaceAll [.string p, .string other] m = .ok (.string t) m ∧
      callText r s .split [.string p] m = .ok (.array a) m' ∧
      (m'.arrayCell a).content = (parts.map fun part => .string (String.ofList part)).toArray ∧
      callList r a .join [.string other] m' = .ok (.string t) m' ∧
      callList r a .join [.string p] m' = .ok (.string s) m' := by
  have hsep : p.toList ≠ [] := by simpa using hp
  have hcuts := cuts_splitFrom hsep s.toList
  have hjoin (sep : String) : sep.intercalate (split p s) =
      String.ofList (sep.toList.intercalate (splitFrom p.toList 0 [] s.toList)) := by
    rw [← String.toList_inj, String.toList_intercalate, String.toList_ofList, split, List.map_map]
    simp [Function.comp_def]
  have hback : p.intercalate (split p s) = s := by
    rw [hjoin, hcuts.intercalate, String.ofList_toList]
  obtain ⟨a, m', hnew, hcontent⟩ := exists_newArray ((split p s).map Value.string).toArray m
  refine ⟨_, _, a, m', hcuts, replaceAll_of_cuts r hp other hcuts m, (split_eq r s hp m).trans hnew,
    ?_, ?_, ?_⟩
  · rw [hcontent, split, List.map_map]
    rfl
  · rw [join_eq r a other hcontent, hjoin]
  · rw [join_eq r a p hcontent, hback]

/-- `'aaa😀aa'`, in which `aa` stands twice, once overlapping itself. -/
theorem replaceAll_eq_join_split_overlapping : "aa" ≠ "" ∧ ∃ parts t a m',
    Cuts "aa".toList "aaa😀aa".toList parts ∧
      callText (interp 1) "aaa😀aa" .replaceAll [.string "aa", .string "-"] idle =
        .ok (.string t) idle ∧
      callText (interp 1) "aaa😀aa" .split [.string "aa"] idle = .ok (.array a) m' ∧
      (m'.arrayCell a).content = (parts.map fun part => .string (String.ofList part)).toArray ∧
      callList (interp 1) a .join [.string "-"] m' = .ok (.string t) m' ∧
      callList (interp 1) a .join [.string "aa"] m' = .ok (.string "aaa😀aa") m' :=
  ⟨by decide, replaceAll_eq_join_split (interp 1) "aaa😀aa" "aa" "-" (by decide) idle⟩

end Eval
end AtomicStyles
