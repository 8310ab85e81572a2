import AtomicStyles.Output.RuntimeCall
import AtomicStyles.Proofs.Output.Literals
import AtomicStyles.Text.Identifier

/-!
# Printed calls are read back

A reader of calls with two object literals finds in a printed call the keys and strings that the
call was printed from, in their order. The readers follow the grammar of such calls: a property
name is bare or quoted, the classes of a slot are one string or an array, and items stand between
brackets with commas between them.

## Main definitions

* `ReadBack.readCall` — a call with two object literals.
* `ReadBack.Reads` — a reader undoes a printer.
* `ReadBack.Call.of` — the call that carries given keys and strings.

## Main results

* `ReadBack.Reads.bracketed`, `ReadBack.Reads.object` — brackets and objects are read back if what
  stands in them is.
* `ReadBack.text_carries_data` — **a printed call carries its keys and strings.**
-/

namespace AtomicStyles
namespace ReadBack

open Text List

/-! ### A reader of calls -/

def readName : Reader (List Char)
  | [] => none
  | c :: cs =>
    if isIdentStart c then some (c :: cs.takeWhile isIdentPart, cs.dropWhile isIdentPart) else none

/-- A property name, bare or quoted. -/
def readKey (cs : List Char) : Option (List UInt16 × List Char) :=
  match readName cs with
  | some r => some (r.1.flatMap charUnits, r.2)
  | none => readString cs

/-- The rest after a character at the head. -/
def expect (c : Char) : List Char → Option (List Char)
  | [] => none
  | d :: cs => if d = c then some cs else none

section

variable {α : Type}

/-- One item or more with commas between them, up to a closing bracket. -/
def readItems (item : Reader α) (close : Char) : Nat → Reader (List α)
  | 0, _ => none
  | n + 1, cs =>
    (item cs).bind fun r =>
      match expect close r.2 with
      | some rest => some ([r.1], rest)
      | none => (expect ',' r.2).bind fun rest =>
          (readItems item close n rest).map fun s => (r.1 :: s.1, s.2)

/-- Items with commas between them and brackets around them. -/
def readBracketed (opening close : Char) (item : Reader α) (cs : List Char) :
    Option (List α × List Char) :=
  (expect opening cs).bind fun rest =>
    match expect close rest with
    | some rest => some ([], rest)
    | none => readItems item close rest.length rest

/-- A property of an object literal. -/
def readProperty (value : Reader α) (cs : List Char) : Option ((List UInt16 × α) × List Char) :=
  (readKey cs).bind fun k =>
    (expect ':' k.2).bind fun rest => (value rest).map fun v => ((k.1, v.1), v.2)

/-- An object literal, its properties in the order in which they are written. -/
def readObject (value : Reader α) : Reader (List (List UInt16 × α)) :=
  readBracketed '\x7b' '\x7d' (readProperty value)

end

def readArray : Reader (List (List UInt16)) := readBracketed '[' ']' readString

/-- The classes of a slot: a string for one class, or an array. -/
def readSlot (cs : List Char) : Option (List (List UInt16) × List Char) :=
  match readString cs with
  | some r => some ([r.1], r.2)
  | none => readArray cs

/-- A call with two object literals, as it is read. -/
structure Call where
  callee : List Char
  classes : List (List UInt16 × List (List UInt16))
  groups : List (List UInt16 × List (List UInt16))
deriving DecidableEq

/-- A whole text as a call. -/
def readCall (cs : List Char) : Option Call := do
  let callee ← readName cs
  let rest ← expect '(' callee.2
  let classes ← readObject readSlot rest
  let rest ← expect ',' classes.2
  let groups ← readObject readArray rest
  let rest ← expect ')' groups.2
  if rest.isEmpty then some ⟨callee.1, classes.1, groups.1⟩ else none

/-! ### Readers that undo printers -/

variable {n : Nat} {cs : List Char}

section

variable {α β : Type} {item : Reader α} {print : β → String} {value : β → α} {close : Char}

/-- A reader finds the value of what was printed, and stops where the printed text ends. -/
def Reads (item : Reader α) (print : β → String) (value : β → α) : Prop :=
  ∀ b rest, item ((print b).toList ++ rest) = some (value b, rest)

theorem reads_string : Reads readString Quoted.string meant := readString_string

theorem expect_self (c : Char) (cs : List Char) : expect c (c :: cs) = some cs := by
  simp [expect]

theorem expect_of_ne {c d : Char} (h : d ≠ c) (cs : List Char) : expect c (d :: cs) = none := by
  simp [expect, h]

theorem toList_intercalate_cons_cons (s t : String) (ss : List String) :
    (",".intercalate (s :: t :: ss)).toList =
      s.toList ++ ',' :: (",".intercalate (t :: ss)).toList := by
  simp [String.toList_intercalate]

theorem length_le_length_intercalate (ss : List String) :
    ss.length ≤ (",".intercalate ss).toList.length + 1 := by
  induction ss with
  | nil => exact Nat.zero_le _
  | cons s ss ih =>
    cases ss with
    | nil => simp
    | cons t ss =>
      rw [toList_intercalate_cons_cons, length_append]
      simp only [length_cons] at ih ⊢
      omega

/-- A comma after an item says that another one follows, the bracket that none does. -/
theorem Reads.items (h : Reads item print value) (hclose : close ≠ ',') {bs : List β}
    (hbs : bs ≠ []) (hn : bs.length ≤ n) (rest : List Char) :
    readItems item close n ((",".intercalate (bs.map print)).toList ++ close :: rest) =
      some (bs.map value, rest) := by
  induction bs generalizing n with
  | nil => exact absurd rfl hbs
  | cons b bs ih =>
    rw [length_cons] at hn
    obtain ⟨n, rfl⟩ : ∃ m, n = m + 1 := ⟨n - 1, by omega⟩
    cases bs with
    | nil => simp [readItems, h b, expect_self]
    | cons b' bs =>
      have hlength : (b' :: bs).length ≤ n := by omega
      have hrest := ih (cons_ne_nil b' bs) hlength
      rw [map_cons, map_cons, toList_intercalate_cons_cons, append_assoc,
        cons_append, readItems, h b, ← map_cons]
      simp only [Option.bind_some, expect_self, expect_of_ne hclose.symm, hrest]
      rfl

/-- Printed items between brackets are read, if none of them begins with the closing bracket. -/
theorem Reads.bracketed (h : Reads item print value) {opening : Char} (hclose : close ≠ ',')
    (hitem : ∀ b rest, expect close ((print b).toList ++ rest) = none) (bs : List β)
    (rest : List Char) :
    readBracketed opening close item
        (opening :: ((",".intercalate (bs.map print)).toList ++ close :: rest)) =
      some (bs.map value, rest) := by
  rw [readBracketed, expect_self, Option.bind_some]
  by_cases hbs : bs = []
  · subst hbs
    simp [expect_self]
  · have hlength := length_le_length_intercalate (bs.map print)
    rw [length_map] at hlength
    have hnone :
        expect close ((",".intercalate (bs.map print)).toList ++ close :: rest) = none := by
      obtain ⟨b, bs', rfl⟩ := exists_cons_of_ne_nil hbs
      cases bs' with
      | nil => simpa using hitem b (close :: rest)
      | cons b' bs' =>
        rw [map_cons, map_cons, toList_intercalate_cons_cons, append_assoc]
        exact hitem b _
    rw [hnone]
    refine h.items hclose hbs ?_ rest
    rw [length_append, length_cons]
    omega

end

variable {c : Char}

theorem expect_string (hd : c ≠ '"') (hs : c ≠ '\'') (s : String) (rest : List Char) :
    expect c ((Quoted.string s).toList ++ rest) = none := by
  rw [toList_string]
  rcases quoteFor_cases s.toList with hq | hq
  · rw [hq]
    exact expect_of_ne hd.symm _
  · rw [hq]
    exact expect_of_ne hs.symm _

theorem reads_array : Reads readArray RuntimeCall.array (List.map meant) := by
  intro items rest
  have htext : (RuntimeCall.array items).toList ++ rest =
      '[' :: ((",".intercalate (items.map Quoted.string)).toList ++ ']' :: rest) := by
    simp [RuntimeCall.array]
  rw [htext]
  exact reads_string.bracketed (by decide) (expect_string (by decide) (by decide)) items rest

theorem readString_array (items : List String) (rest : List Char) :
    readString ((RuntimeCall.array items).toList ++ rest) = none := by
  simp [RuntimeCall.array, readString]

/-- A slot of one class is a string, any other an array. -/
theorem reads_slot : Reads readSlot RuntimeCall.classes (List.map meant) := by
  intro items rest
  by_cases hone : ∃ c, items = [c]
  · obtain ⟨c, rfl⟩ := hone
    rw [readSlot, RuntimeCall.classes, reads_string c rest]
    rfl
  · have harray : RuntimeCall.classes items = RuntimeCall.array items := by
      unfold RuntimeCall.classes
      split
      · exact absurd ⟨_, rfl⟩ hone
      · rfl
    rw [readSlot, harray, readString_array]
    exact reads_array items rest

/-! ### Names and properties -/

def isIdentifier : List Char → Bool
  | [] => false
  | c :: cs => isIdentStart c && cs.all isIdentPart

/-- An identifier is read up to a character that continues no identifier. -/
theorem readName_append (h : isIdentifier cs = true) (hc : isIdentPart c = false)
    (rest : List Char) : readName (cs ++ c :: rest) = some (cs, c :: rest) := by
  cases cs with
  | nil => cases h
  | cons d cs =>
    rw [isIdentifier, Bool.and_eq_true, all_eq_true] at h
    rw [cons_append, readName, if_pos h.1, takeWhile_append_of_pos h.2,
      dropWhile_append_of_pos h.2, takeWhile_cons_of_neg (by simp [hc]),
      dropWhile_cons_of_neg (by simp [hc]), append_nil]

/-- The characters of a bare name are ASCII, and a backslash is none of them. -/
theorem bareChar_spec (h : (c.isAlphanum || c == '_' || c == '$') = true) :
    c.toNat < 128 ∧ c ≠ '\\' := by
  have hval (d : Char) : d.val.toNat = d.toNat := rfl
  simp only [Char.isAlphanum, Char.isAlpha, Char.isUpper, Char.isLower, Char.isDigit,
    Bool.or_eq_true, Bool.and_eq_true, decide_eq_true_eq, beq_iff_eq, eq_iff_toNat, ge_iff_le,
    UInt32.le_iff_toNat_le, hval, Char.reduceToNat] at h
  simp only [Ne, eq_iff_toNat, Char.reduceToNat]
  omega

theorem isIdentPart_of_bareChar (h : (c.isAlphanum || c == '_' || c == '$') = true) :
    isIdentPart c = true := by
  rw [isIdentPart, if_pos (bareChar_spec h).1, h]

/-- A bare property name is an identifier without backslashes. -/
theorem isBare_spec (h : Quoted.isBare cs = true) : isIdentifier cs = true ∧ '\\' ∉ cs := by
  cases cs with
  | nil => cases h
  | cons c cs =>
    rw [Quoted.isBare, Bool.and_eq_true, all_eq_true] at h
    obtain ⟨hhead, htail⟩ := h
    have hc : (c.isAlphanum || c == '_' || c == '$') = true := by
      simp only [Char.isAlphanum, Bool.or_eq_true] at hhead ⊢
      tauto
    constructor
    · rw [isIdentifier, isIdentStart, if_pos (bareChar_spec hc).1, hhead, Bool.true_and,
        all_eq_true]
      exact fun d hd => isIdentPart_of_bareChar (htail d hd)
    · rw [mem_cons, not_or]
      exact ⟨(bareChar_spec hc).2.symm, fun hmem => (bareChar_spec (htail _ hmem)).2 rfl⟩

theorem readKey_key (s : String) (rest : List Char) :
    readKey ((Quoted.key s).toList ++ ':' :: rest) = some (meant s, ':' :: rest) := by
  unfold Quoted.key
  split
  · rename_i hbare
    obtain ⟨hident, hmem⟩ := isBare_spec hbare
    have hmeant : meant s = units s := (meant_eq_units_iff s).2 (spellsSurrogate_eq_false hmem)
    rw [readKey, readName_append hident (by decide), hmeant]
    rfl
  · have hnone : readName ((Quoted.string s).toList ++ ':' :: rest) = none := by
      rw [toList_string]
      rcases quoteFor_cases s.toList with hq | hq
      · rw [hq]
        rfl
      · rw [hq]
        rfl
    rw [readKey, hnone]
    exact reads_string s _

/-- The first character of a property name closes no object. -/
theorem expect_key (s : String) (rest : List Char) :
    expect '\x7d' ((Quoted.key s).toList ++ rest) = none := by
  unfold Quoted.key
  split
  · rename_i hbare
    cases hs : s.toList with
    | nil => simp [hs, Quoted.isBare] at hbare
    | cons c cs =>
      rw [hs, Quoted.isBare, Bool.and_eq_true] at hbare
      refine expect_of_ne ?_ _
      rintro rfl
      exact absurd hbare.1 (by decide)
  · exact expect_string (by decide) (by decide) s rest

section

variable {α β : Type} {item : Reader α} {print : β → String} {value : β → α}

theorem Reads.property (h : Reads item print value) :
    Reads (readProperty item) (fun field : String × β => Quoted.key field.1 ++ ":" ++ print field.2)
      fun field => (meant field.1, value field.2) := by
  intro field rest
  have htext : (Quoted.key field.1 ++ ":" ++ print field.2).toList ++ rest =
      (Quoted.key field.1).toList ++ ':' :: ((print field.2).toList ++ rest) := by simp
  simp only [htext, readProperty, readKey_key, Option.bind_some, expect_self, h field.2 rest]
  rfl

theorem Reads.object (h : Reads item print value) :
    Reads (readObject item)
      (fun fields => RuntimeCall.object (fields.map fun field => (field.1, print field.2)))
      (List.map fun field : String × β => (meant field.1, value field.2)) := by
  intro fields rest
  have htext :
      (RuntimeCall.object (fields.map fun field => (field.1, print field.2))).toList ++ rest =
        '\x7b' :: ((",".intercalate (fields.map fun field =>
          Quoted.key field.1 ++ ":" ++ print field.2)).toList ++ '\x7d' :: rest) := by
    simp [RuntimeCall.object, Function.comp_def]
  rw [htext]
  refine h.property.bracketed (by decide) (fun field rest => ?_) fields rest
  rw [String.toList_append, String.toList_append, append_assoc, append_assoc]
  exact expect_key field.1 _

end

/-! ### Calls -/

/-- The call that carries the keys and strings of two maps, each given by its units. -/
def Call.of (read : String → List UInt16) (callee : String)
    (classMap groups : OrderedMap String (List String)) : Call :=
  ⟨callee.toList, classMap.entries.map fun slot => (read slot.1, slot.2.map read),
    groups.entries.map fun group => (read group.1, group.2.map read)⟩

/-- The keys and strings of two maps. -/
def carried (classMap groups : OrderedMap String (List String)) : List String :=
  (classMap.entries ++ groups.entries).flatMap fun entry => entry.1 :: entry.2

/-- A printed call is read as what is meant by its keys and strings. -/
theorem readCall_text {callee : String} (hcallee : isIdentifier callee.toList = true)
    (classMap groups : OrderedMap String (List String)) :
    readCall (RuntimeCall.text callee classMap groups).toList =
      some (Call.of meant callee classMap groups) := by
  have htext : (RuntimeCall.text callee classMap groups).toList =
      callee.toList ++ '(' ::
        ((RuntimeCall.object (classMap.entries.map fun slot =>
            (slot.1, RuntimeCall.classes slot.2))).toList ++ ',' ::
          ((RuntimeCall.object (groups.entries.map fun group =>
            (group.1, RuntimeCall.array group.2))).toList ++ [')'])) := by
    simp [RuntimeCall.text]
  rw [htext, readCall, readName_append hcallee (by decide)]
  simp only [Option.bind_eq_bind, Option.bind_some, expect_self, reads_slot.object classMap.entries,
    reads_array.object groups.entries]
  rfl

theorem map_meant_eq_iff (entries : List (String × List String)) :
    (entries.map fun entry => (meant entry.1, entry.2.map meant)) =
        (entries.map fun entry => (units entry.1, entry.2.map units)) ↔
      ∀ entry ∈ entries, ∀ s ∈ entry.1 :: entry.2, spellsSurrogate s.toList = false := by
  simp only [map_inj_left, Prod.mk.injEq, meant_eq_units_iff, forall_mem_cons]

theorem Call.of_meant_eq_iff (callee : String)
    (classMap groups : OrderedMap String (List String)) :
    Call.of meant callee classMap groups = Call.of units callee classMap groups ↔
      ∀ s ∈ carried classMap groups, spellsSurrogate s.toList = false := by
  rw [Call.of, Call.of, Call.mk.injEq, map_meant_eq_iff, map_meant_eq_iff]
  simp only [true_and, carried, flatMap_append, forall_mem_append,
    forall_mem_flatMap]

/-- A printed call is a call with two object literals, in which the keys and strings of the two
maps are read in their order, a surrogate that one of them spells out being read for its spelling.
They are read back exactly as they are if, and only if, none is spelled out: then the units that
are read determine every key and string. -/
theorem text_carries_data {callee : String} (hcallee : isIdentifier callee.toList = true)
    (classMap groups : OrderedMap String (List String)) :
    readCall (RuntimeCall.text callee classMap groups).toList =
        some (Call.of meant callee classMap groups) ∧
      (readCall (RuntimeCall.text callee classMap groups).toList =
          some (Call.of units callee classMap groups) ↔
        ∀ s ∈ carried classMap groups, spellsSurrogate s.toList = false) ∧
      Function.LeftInverse ofUnits units := by
  refine ⟨readCall_text hcallee classMap groups, ?_, ofUnits_units⟩
  rw [readCall_text hcallee, Option.some.injEq]
  exact Call.of_meant_eq_iff callee classMap groups

/-- Slots and groups with texts that are hard to print: both quotes, NUL before a digit, a
backslash, a line end, a separator of lines and a surrogate that is spelled out. -/
def unusualMap : OrderedMap String (List String) :=
  ⟨[("root", ["it's \"so\""]), ("a b", ["\x001", "\\\n\u2028"]), ("", []), ("né", ["\\uDBFF"])]⟩

theorem text_carries_data_unusual :
    isIdentifier "__styles".toList = true ∧
      readCall (RuntimeCall.text "__styles" unusualMap unusualMap).toList =
        some (Call.of meant "__styles" unusualMap unusualMap) :=
  ⟨by decide, (text_carries_data (by decide) unusualMap unusualMap).1⟩

/-- The six characters of a surrogate's escape come back as one unit. -/
theorem spelled_surrogate_is_read :
    readCall (RuntimeCall.text "f" ⟨[("root", ["\\ud800"])]⟩ ⟨[]⟩).toList =
        some ⟨['f'], [(units "root", [[0xD800]])], []⟩ ∧
      (units "\\ud800").length = 6 := by
  decide +kernel

end ReadBack
end AtomicStyles
