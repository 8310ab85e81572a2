import AtomicStyles.Proofs.Style.ClassNames

/-!
# Contexts and the selectors they give

A context is a list of segments, each opened by a key of the style object. A selector among
them refers to its parent, so that the class a rule is for stands in the selector that the rule
is emitted with. An at-rule among them starts with one of the names that have a group.

The group of a context without at-rules is found on the selector of an empty class. What stands
in a class name does not change which names stand after a single colon, so that the group is
also that of the selector that is emitted. Names are looked for in the bare text of it. A colon
in a string or after a backslash is taken for that of a pseudo-class, and a name that goes on
with an underscore or beyond ASCII for one that ends.

## Main definitions

* `Segment.WellFormed` — what a segment looks like.
* `Selector.AfterColon` — a name that stands after a single colon.
* `Selector.HasPseudoClass` — a selector with a pseudo-class, strings and escapes left out.
* `Selector.Decides` — the group of the listed pseudo-class of the highest priority.

## Main results

* `Segment.Opened.wellFormed` — keys open well-formed segments only.
* `Selector.pseudoNames_resolve` — the names after colons do not depend on the class.
* `StyleObject.context_rendered` — **the selector and the group of a context.**
* `StyleObject.quoted_colon_decides` — a colon in a string decides on the group.
-/

namespace AtomicStyles

open List

/-! ### Segments -/

/-- An at-rule of a name, alone or with a condition after a space. -/
def Segment.Named (name rule : String) : Prop :=
  rule = "@" ++ name ∨ ∃ condition, rule = "@" ++ name ++ " " ++ condition

/-- A selector refers to its parent, an at-rule has one of the supported names. -/
def Segment.WellFormed : Segment → Prop
  | .selector t => '&' ∈ t.toList
  | .atRule t => ∃ name ∈ Group.atRules.map Prod.fst, Segment.Named name t

namespace Nesting

theorem wellFormed_of_ofAtRule {cs : List Char} {t : String} (h : ofAtRule cs = .atRule t) :
    (Segment.atRule t).WellFormed := by
  unfold ofAtRule at h
  dsimp only at h
  split at h
  · cases h
  · next hname =>
    obtain ⟨before, after, heq, -⟩ := lookup_eq_some_iff.1 hname
    have hmem : String.ofList (cs.takeWhile Selector.isNameChar) ∈ Group.atRules.map Prod.fst := by
      simp [heq]
    split at h <;> cases h
    · exact ⟨_, hmem, .inl rfl⟩
    · exact ⟨_, hmem, .inr ⟨_, rfl⟩⟩

theorem exists_ofAtRule {key t : String} (h : ofKey key = .atRule t) :
    ∃ cs, ofAtRule cs = .atRule t := by
  unfold ofKey at h
  split at h
  · cases h
  · exact ⟨_, h⟩
  · split at h
    · split at h <;> cases h
    · cases h

end Nesting

theorem Segment.Opened.wellFormed {s : Segment} (h : s.Opened) : s.WellFormed := by
  cases s with
  | selector t => exact h.selector
  | atRule t =>
    obtain ⟨key, segments, hsegments, hmem⟩ := h
    cases hkey : Nesting.ofKey key with
    | invalid => rw [hkey] at hsegments; cases hsegments
    | selectors list =>
      rw [hkey] at hsegments
      cases hsegments
      obtain ⟨u, -, heq⟩ := mem_map.1 hmem
      cases heq
    | atRule u =>
      rw [hkey] at hsegments
      cases hsegments
      cases mem_singleton.1 hmem
      obtain ⟨cs, hcs⟩ := Nesting.exists_ofAtRule hkey
      exact Nesting.wellFormed_of_ofAtRule hcs

/-! ### The group of an at-rule -/

namespace Selector

theorem takeWhile_append_eq {name rest : List Char} (hname : ∀ c ∈ name, isNameChar c = true)
    (hrest : ∀ c ∈ rest.head?, isNameChar c = false) :
    (name ++ rest).takeWhile isNameChar = name := by
  rw [takeWhile_append_of_pos hname]
  cases rest with
  | nil => simp
  | cons c rest => simp [hrest c rfl]

theorem isNameChar_head?_dropWhile (cs : List Char) :
    ∀ c ∈ (cs.dropWhile isNameChar).head?, isNameChar c = false := by
  intro c hc
  have h := head?_dropWhile_not isNameChar cs
  rwa [hc] at h

variable {name : String}

/-- To test for a name at the start and to cut off the name that stands there come to the same. -/
theorem startsWithName_iff (hname : ∀ c ∈ name.toList, isNameChar c = true) {cs : List Char} :
    startsWithName name cs = true ↔ cs.takeWhile isNameChar = name.toList := by
  unfold startsWithName
  constructor
  · intro h
    obtain ⟨rest, hstrip, hrest⟩ := (Option.any_eq_true _ _).1 h
    rw [Text.strip?_eq_some_iff.1 hstrip]
    refine takeWhile_append_eq hname fun c hc => ?_
    simpa [Option.mem_def.1 hc] using hrest
  · intro h
    have hstrip : Text.strip? name.toList cs = some (cs.dropWhile isNameChar) := by
      rw [Text.strip?_eq_some_iff, ← h, takeWhile_append_dropWhile]
    rw [hstrip, Option.any_some, Bool.not_eq_true', Option.any_eq_false]
    exact fun c hc => isNameChar_head?_dropWhile cs c hc

/-- The name of an at-rule is all that stands before its condition. -/
theorem takeWhile_of_named {rule : String} (hname : ∀ c ∈ name.toList, isNameChar c = true)
    (h : Segment.Named name rule) : (rule.toList.drop 1).takeWhile isNameChar = name.toList := by
  rcases h with rfl | ⟨condition, rfl⟩
  · have hrest : ∀ c ∈ ([] : List Char).head?, isNameChar c = false := by simp
    simpa using takeWhile_append_eq hname hrest
  · have hrest : ∀ c ∈ (' ' :: condition.toList).head?, isNameChar c = false := by
      intro c hc
      cases hc
      decide
    simpa using takeWhile_append_eq hname hrest

theorem isNameChar_of_mem_atRules : ∀ e ∈ Group.atRules, ∀ c ∈ e.1.toList, isNameChar c = true := by
  have hall : Group.atRules.all fun e => e.1.toList.all isNameChar := by decide
  intro e he
  exact all_eq_true.1 (all_eq_true.1 hall e he)

/-- **The group of an at-rule is that of its name.** -/
theorem atRuleGroup_of_named {rule : String} {g : Group} (hmem : (name, g) ∈ Group.atRules)
    (h : Segment.Named name rule) : atRuleGroup rule = g := by
  have htest : ∀ e ∈ Group.atRules,
      startsWithName e.1 (rule.toList.drop 1) = (e.1 == name) := by
    intro e he
    rw [Bool.eq_iff_iff, startsWithName_iff (isNameChar_of_mem_atRules e he),
      takeWhile_of_named (isNameChar_of_mem_atRules _ hmem) h, String.toList_inj, beq_iff_eq,
      eq_comm]
  have hfind : ∀ e ∈ Group.atRules, Group.atRules.find? (fun e' => e'.1 == e.1) = some e := by
    decide
  rw [atRuleGroup, find?_congr htest, hfind (name, g) hmem]

end Selector

/-! ### Names after colons -/

namespace Selector

/-- A name stands in a text after a single colon; `isPart` is what a name can go on with. -/
def AfterColon (isPart : Char → Bool) (name : String) (text : List Char) : Prop :=
  ∃ before after, text = before ++ ':' :: (name.toList ++ after) ∧ before.getLast? ≠ some ':' ∧
    ∀ c ∈ after.head?, isPart c = false

variable {name : String}

theorem AfterColon.mem {isPart : Char → Bool} {text : List Char} (h : AfterColon isPart name text) :
    ':' ∈ text := by
  obtain ⟨before, after, rfl, -⟩ := h
  simp

/-- What the scan finds: what stands after each colon that has no colon beside it. -/
theorem mem_pseudoNames_iff {b : Char} {cs : List Char} :
    name ∈ pseudoNames b cs ↔ ∃ before rest, cs = before ++ ':' :: rest ∧
      before.getLastD b ≠ ':' ∧ rest.head? ≠ some ':' ∧
      name = String.ofList (rest.takeWhile isNameChar) := by
  induction cs generalizing b with
  | nil => simp [pseudoNames]
  | cons c cs ih =>
    -- either the first character is such a colon, or what is found stands in the rest
    have hsplit : (∃ before rest, c :: cs = before ++ ':' :: rest ∧ before.getLastD b ≠ ':' ∧
        rest.head? ≠ some ':' ∧ name = String.ofList (rest.takeWhile isNameChar)) ↔
        (c = ':' ∧ b ≠ ':' ∧ cs.head? ≠ some ':' ∧
          name = String.ofList (cs.takeWhile isNameChar)) ∨ name ∈ pseudoNames c cs := by
      rw [ih]
      constructor
      · rintro ⟨before, rest, heq, hbefore, hrest, hname⟩
        cases before with
        | nil =>
          cases heq
          exact .inl ⟨rfl, hbefore, hrest, hname⟩
        | cons d before =>
          cases heq
          exact .inr ⟨before, rest, rfl, by rwa [getLastD_cons] at hbefore, hrest, hname⟩
      · rintro (⟨rfl, hb, hrest, hname⟩ | ⟨before, rest, rfl, hbefore, hrest, hname⟩)
        · exact ⟨[], cs, rfl, hb, hrest, hname⟩
        · exact ⟨c :: before, rest, rfl, by rwa [getLastD_cons], hrest, hname⟩
    rw [hsplit, pseudoNames]
    split
    · next h => simp_all
    · next h => simp_all

/-- A listed name is found where it stands after a single colon. -/
theorem mem_pseudoNames_iff_afterColon (hne : name.toList ≠ [])
    (hname : ∀ c ∈ name.toList, isNameChar c = true) {cs : List Char} :
    name ∈ pseudoNames ' ' cs ↔ AfterColon isNameChar name cs := by
  have hlast (before : List Char) : before.getLastD ' ' ≠ ':' ↔ before.getLast? ≠ some ':' := by
    rw [getLastD_eq_getLast?]
    cases before.getLast? <;> simp
  rw [mem_pseudoNames_iff]
  constructor
  · rintro ⟨before, rest, rfl, hbefore, -, rfl⟩
    refine ⟨before, rest.dropWhile isNameChar, ?_, (hlast before).1 hbefore,
      isNameChar_head?_dropWhile rest⟩
    rw [String.toList_ofList, takeWhile_append_dropWhile]
  · rintro ⟨before, after, rfl, hbefore, hafter⟩
    refine ⟨before, name.toList ++ after, rfl, (hlast before).2 hbefore, ?_, ?_⟩
    · obtain ⟨c, cs, heq⟩ := exists_cons_of_ne_nil hne
      have hc := hname c (heq ▸ (.head _))
      rw [heq]
      rintro hcolon
      cases hcolon
      exact absurd hc (by decide)
    · rw [takeWhile_append_eq hname hafter, String.ofList_toList]

/-! ### The class in a selector -/

/-- The second text is the first one with `name` put in after some of the dots. -/
inductive Widens (name : List Char) : List Char → List Char → Prop
  | nil : Widens name [] []
  | cons (c : Char) {s t : List Char} : Widens name s t → Widens name (c :: s) (c :: t)
  | dot {s t : List Char} : Widens name s t → Widens name ('.' :: s) ('.' :: (name ++ t))

namespace Widens

variable {name s t s' t' : List Char}

theorem append (h : Widens name s t) (h' : Widens name s' t') :
    Widens name (s ++ s') (t ++ t') := by
  induction h with
  | nil => exact h'
  | cons c _ ih => exact .cons c ih
  | dot _ ih =>
    rw [cons_append, cons_append, append_assoc]
    exact .dot ih

theorem fill (h : Widens name s t) (cs : List Char) :
    Widens name (Selector.fill s cs) (Selector.fill t cs) := by
  induction cs with
  | nil => exact .nil
  | cons c cs ih =>
    rw [Selector.fill, Selector.fill]
    split
    · exact h.append ih
    · exact .cons c ih

theorem resolveFrom (h : Widens name s t) (path : List Segment) :
    Widens name (Selector.resolveFrom s path) (Selector.resolveFrom t path) := by
  induction path generalizing s t with
  | nil => exact h
  | cons segment path ih =>
    cases segment with
    | selector u => exact ih (h.fill u.toList)
    | atRule u => exact ih h

theorem head? (h : Widens name s t) : s.head? = t.head? := by
  cases h <;> rfl

theorem takeWhile (h : Widens name s t) : s.takeWhile isNameChar = t.takeWhile isNameChar := by
  induction h with
  | nil => rfl
  | cons c _ ih => rw [takeWhile_cons, takeWhile_cons, ih]
  | dot _ _ => rfl

end Widens

variable {name : List Char}

theorem pseudoNames_append_of_not_mem (hname : ':' ∉ name) (b : Char) (cs : List Char) :
    pseudoNames b (name ++ cs) = pseudoNames (name.getLastD b) cs := by
  induction name generalizing b with
  | nil => rfl
  | cons c name ih =>
    obtain ⟨hc, hrest⟩ := ne_and_not_mem_of_not_mem_cons hname
    rw [cons_append, pseudoNames, if_neg (by simp [hc.symm]), ih hrest, getLastD_cons]

theorem getLastD_ne_colon (hname : ':' ∉ name) {b : Char} (hb : b ≠ ':') :
    name.getLastD b ≠ ':' := by
  induction name generalizing b with
  | nil => exact hb
  | cons c name ih =>
    obtain ⟨hc, hrest⟩ := ne_and_not_mem_of_not_mem_cons hname
    rw [getLastD_cons]
    exact ih hrest hc.symm

/-- What is put in after dots has no colon, and no name goes on over a dot. -/
theorem Widens.pseudoNames {s t : List Char} (hname : ':' ∉ name) (h : Widens name s t)
    {b b' : Char} (hb : b = ':' ↔ b' = ':') :
    Selector.pseudoNames b s = Selector.pseudoNames b' t := by
  induction h generalizing b b' with
  | nil => rfl
  | cons c h ih =>
    have hcolon : (b != ':') = (b' != ':') := by
      rw [Bool.eq_iff_iff]
      simp [hb]
    rw [Selector.pseudoNames, Selector.pseudoNames, h.head?, h.takeWhile, hcolon, ih Iff.rfl]
  | @dot s t h ih =>
    have hlast : '.' = ':' ↔ name.getLastD '.' = ':' :=
      iff_of_false (by decide) (getLastD_ne_colon hname (by decide))
    rw [Selector.pseudoNames, if_neg (by simp), Selector.pseudoNames, if_neg (by simp),
      pseudoNames_append_of_not_mem hname]
    exact ih hlast

theorem pseudoNames_resolve {cls : String} (hcls : ':' ∉ cls.toList) (path : List Segment) :
    pseudoNames ' ' (resolveFrom ['.'] path) = pseudoNames ' ' (resolve cls path).toList := by
  have hbase : Widens cls.toList ['.'] ('.' :: cls.toList) := by simpa using Widens.dot .nil
  rw [resolve, String.toList_ofList]
  exact (hbase.resolveFrom path).pseudoNames hcls Iff.rfl

theorem isInfix_fill {parent s : List Char} (h : '&' ∈ s) : parent <:+: fill parent s := by
  induction s with
  | nil => cases h
  | cons c s ih =>
    rw [fill]
    split
    · exact (prefix_append _ _).isInfix
    · next hc =>
      have hmem : '&' ∈ s := (mem_cons.1 h).resolve_left fun heq => hc (by simp [← heq])
      exact (ih hmem).trans (suffix_cons _ _).isInfix

/-- **The base stands in the selector of a context.** -/
theorem isInfix_resolveFrom {path : List Segment} (h : ∀ s ∈ path, s.WellFormed)
    (base : List Char) : base <:+: resolveFrom base path := by
  induction path generalizing base with
  | nil => exact infix_rfl
  | cons s path ih =>
    have hrest := ih fun s hs => h s (.tail _ hs)
    cases s with
    | selector t => exact (isInfix_fill (h _ (.head _))).trans (hrest _)
    | atRule t => exact hrest base

theorem not_mem_fill {parent : List Char} (h : '&' ∉ parent) (s : List Char) :
    '&' ∉ fill parent s := by
  induction s with
  | nil => simp [fill]
  | cons c s ih =>
    rw [fill]
    split
    · exact fun hmem => (mem_append.1 hmem).elim h ih
    · next hc =>
      intro hmem
      rcases mem_cons.1 hmem with heq | hmem
      · exact hc (by simp [← heq])
      · exact ih hmem

/-- No reference to a parent is left. -/
theorem not_mem_resolveFrom {base : List Char} (h : '&' ∉ base) (path : List Segment) :
    '&' ∉ resolveFrom base path := by
  induction path generalizing base with
  | nil => exact h
  | cons s path ih =>
    cases s with
    | selector t => exact ih (not_mem_fill h t.toList)
    | atRule t => exact ih h

end Selector

/-! ### The group of a selector -/

namespace Group

theorem foldl_max (gs : List Group) (g : Group) :
    gs.foldl max g ∈ g :: gs ∧ ∀ h ∈ g :: gs, h.rank ≤ (gs.foldl max g).rank := by
  induction gs generalizing g with
  | nil => simp
  | cons g' gs ih =>
    obtain ⟨hmem, hle⟩ := ih (max g g')
    have hmax : max g g' = g ∨ max g g' = g' := by
      unfold max
      split <;> simp
    have hfirst : g.rank ≤ (max g g').rank ∧ g'.rank ≤ (max g g').rank := by
      unfold max
      split <;> omega
    have hlast := hle _ (.head _)
    rw [foldl_cons]
    constructor
    · rcases mem_cons.1 hmem with hmem | hmem
      · rw [hmem]
        rcases hmax with hmax | hmax <;> simp [hmax]
      · exact .tail _ (.tail _ hmem)
    · intro h hh
      rcases mem_cons.1 hh with rfl | hh
      · exact hfirst.1.trans hlast
      · rcases mem_cons.1 hh with rfl | hh
        · exact hfirst.2.trans hlast
        · exact hle h (.tail _ hh)

theorem ofPseudo?_eq_some_iff {name : String} {g : Group} :
    ofPseudo? name = some g ↔ (name, g) ∈ pseudoClasses := by
  constructor
  · intro h
    obtain ⟨before, after, heq, -⟩ := lookup_eq_some_iff.1 h
    simp [heq]
  · have hall : ∀ e ∈ pseudoClasses, ofPseudo? e.1 = some e.2 := by decide
    exact hall (name, g)

end Group

namespace Selector

/-- The group of the listed pseudo-class of the highest priority, of those that have `P`; the
default group if none has. -/
def Decides (P : String → Prop) (g : Group) : Prop :=
  (g = .default ∧ ∀ e ∈ Group.pseudoClasses, ¬ P e.1) ∨
    ∃ name, (name, g) ∈ Group.pseudoClasses ∧ P name ∧
      ∀ e ∈ Group.pseudoClasses, P e.1 → e.2.rank ≤ g.rank

theorem Decides.congr {P Q : String → Prop} {g : Group} (h : Decides P g)
    (hiff : ∀ e ∈ Group.pseudoClasses, P e.1 ↔ Q e.1) : Decides Q g := by
  rcases h with ⟨hg, hnone⟩ | ⟨name, hmem, hname, hle⟩
  · exact .inl ⟨hg, fun e he hQ => hnone e he ((hiff e he).2 hQ)⟩
  · exact .inr ⟨name, hmem, (hiff _ hmem).1 hname, fun e he hQ => hle e he ((hiff e he).2 hQ)⟩

theorem decides_foldl_max (names : List String) :
    Decides (· ∈ names) ((names.filterMap Group.ofPseudo?).foldl Group.max .default) := by
  obtain ⟨hmem, hle⟩ := Group.foldl_max (names.filterMap Group.ofPseudo?) .default
  have hlisted : ∀ e ∈ Group.pseudoClasses, e.1 ∈ names →
      e.2 ∈ names.filterMap Group.ofPseudo? := fun e he hname =>
    mem_filterMap.2 ⟨e.1, hname, Group.ofPseudo?_eq_some_iff.2 he⟩
  rcases mem_cons.1 hmem with hdefault | hmem
  · -- every listed pseudo-class comes after the default, so that none can be there
    refine .inl ⟨hdefault, fun e he hname => ?_⟩
    have hrank : ∀ e ∈ Group.pseudoClasses, 0 < e.2.rank := by decide
    have hzero := hle e.2 (.tail _ (hlisted e he hname))
    rw [hdefault] at hzero
    exact absurd (hrank e he) (Nat.not_lt.2 hzero)
  · obtain ⟨name, hname, heq⟩ := mem_filterMap.1 hmem
    exact .inr ⟨name, Group.ofPseudo?_eq_some_iff.1 heq, hname, fun e he h =>
      hle e.2 (.tail _ (hlisted e he h))⟩

theorem isNameChar_of_mem_pseudoClasses : ∀ e ∈ Group.pseudoClasses,
    e.1.toList ≠ [] ∧ ∀ c ∈ e.1.toList, isNameChar c = true := by
  have hall : Group.pseudoClasses.all fun e => e.1.toList != [] && e.1.toList.all isNameChar := by
    decide
  intro e he
  simpa using all_eq_true.1 hall e he

/-- **The group is decided by the names after the colons of the emitted selector.** -/
theorem decides_group {path : List Segment} (hpath : atRules path = []) {cls : String}
    (hcls : ':' ∉ cls.toList) :
    Decides (AfterColon isNameChar · (resolve cls path).toList) (group path) := by
  have h := decides_foldl_max (pseudoNames ' ' (resolve cls path).toList)
  rw [← pseudoNames_resolve hcls] at h
  rw [group, hpath]
  refine h.congr fun e he => ?_
  obtain ⟨hne, hname⟩ := isNameChar_of_mem_pseudoClasses e he
  rw [pseudoNames_resolve hcls]
  exact mem_pseudoNames_iff_afterColon hne hname

/-! ### Strings, comments and escapes -/

/-- What the next character of a selector is part of. -/
inductive Reading where
  | plain
  /-- After a slash, which opens a comment if a star follows. -/
  | slash
  | comment
  /-- In a comment after a star, which closes it if a slash follows. -/
  | star
  | string (quote : Char)
  /-- After a backslash, in a string or outside. -/
  | escaped (quote : Option Char)
deriving DecidableEq

namespace Reading

def ofPlain (c : Char) : Reading :=
  if c = '\\' then .escaped none
  else if c = '"' ∨ c = '\'' then .string c
  else if c = '/' then .slash
  else .plain

def next : Reading → Char → Reading
  | .plain, c => ofPlain c
  | .slash, c => if c = '*' then .comment else ofPlain c
  | .comment, c => if c = '*' then .star else .comment
  | .star, c => if c = '/' then .plain else if c = '*' then .star else .comment
  | .string quote, c =>
    if c = '\\' then .escaped (some quote) else if c = quote then .plain else .string quote
  | .escaped none, _ => .plain
  | .escaped (some quote), _ => .string quote

/-- What is left of a character: a blank in a comment, and a part of a name in a string or after a
backslash. -/
def shown : Reading → Char → Char
  | .plain, c => c
  | .slash, c => c
  | .comment, _ => ' '
  | .star, _ => ' '
  | .string _, _ => '_'
  | .escaped _, _ => '_'

end Reading

/-- A selector without what stands in strings, in comments and after backslashes. -/
def visible (r : Reading) : List Char → List Char
  | [] => []
  | c :: cs => r.shown c :: visible (r.next c) cs

/-- A character that an identifier can go on with, be it with an escape. -/
def isIdentChar (c : Char) : Bool := isNameChar c || c == '_' || c == '\\' || 128 ≤ c.toNat

/-- A selector has a pseudo-class of that name, as it is written. -/
def HasPseudoClass (name : String) (selector : List Char) : Prop :=
  AfterColon isIdentChar name (visible .plain selector)

/-- A character that opens a string, a comment or an escape. -/
def isOpening (c : Char) : Bool := ['"', '\'', '\\', '/'].contains c

/-- Whether a text is no colon with a name after it that goes on as an identifier only. -/
def endsName : List Char → Bool
  | ':' :: cs => !(cs.dropWhile isNameChar).head?.any isIdentChar
  | _ => true

/-- Whether a selector can be read without regard to strings, comments and escapes, and each name
after a colon ends where the identifier does. -/
def legible (selector : List Char) : Bool :=
  selector.all (!isOpening ·) && selector.tails.all endsName

theorem visible_plain {cs : List Char} (h : ∀ c ∈ cs, isOpening c = false) :
    visible .plain cs = cs := by
  induction cs with
  | nil => rfl
  | cons c cs ih =>
    obtain ⟨hc, hcs⟩ := forall_mem_cons.1 h
    have hnext : Reading.plain.next c = .plain := by
      have hne : (¬ c = '"' ∧ ¬ c = '\'' ∧ ¬ c = '\\' ∧ ¬ c = '/') := by simpa [isOpening] using hc
      simp [Reading.next, Reading.ofPlain, hne]
    rw [visible, hnext, ih hcs, Reading.shown]

/-- In a legible selector the names after colons are the pseudo-classes. -/
theorem hasPseudoClass_iff {selector : List Char} (h : legible selector = true) {name : String}
    (hname : ∀ c ∈ name.toList, isNameChar c = true) :
    HasPseudoClass name selector ↔ AfterColon isNameChar name selector := by
  rw [legible, Bool.and_eq_true, all_eq_true, all_eq_true] at h
  rw [HasPseudoClass, visible_plain fun c hc => by simpa using h.1 c hc]
  constructor
  · rintro ⟨before, after, heq, hbefore, hafter⟩
    refine ⟨before, after, heq, hbefore, fun c hc => ?_⟩
    have hident := hafter c hc
    simp only [isIdentChar, Bool.or_eq_false_iff] at hident
    exact hident.1.1.1
  · rintro ⟨before, after, rfl, hbefore, hafter⟩
    refine ⟨before, after, rfl, hbefore, fun c hc => ?_⟩
    -- what comes after the name is where the text after the colon stops to be one
    have hdrop : (name.toList ++ after).dropWhile isNameChar = after := by
      rw [dropWhile_append_of_pos hname]
      cases after with
      | nil => rfl
      | cons d after => simp [hafter d rfl]
    have hends := h.2 (':' :: (name.toList ++ after)) ((mem_tails _ _).2 ⟨before, rfl⟩)
    rw [endsName, hdrop, Bool.not_eq_true', Option.any_eq_false] at hends
    exact hends c hc

/-! ### Contexts of a style object -/

/-- How a context is written out and grouped. -/
structure Rendered (path : List Segment) : Prop where
  wellFormed : ∀ s ∈ path, s.WellFormed
  /-- The first at-rule gives the group. -/
  conditional : ∀ t ts, atRules path = t :: ts →
    ∃ name, (name, group path) ∈ Group.atRules ∧ Segment.Named name t
  /-- The class stands in the selector, and no reference to a parent is left. -/
  closed : ∀ cls : String, (∀ c ∈ cls.toList, ClassName.isNamePart c = true) →
    '.' :: cls.toList <:+: (resolve cls path).toList ∧ '&' ∉ (resolve cls path).toList
  /-- Without at-rules the text of the selector gives the group. -/
  decided : atRules path = [] → ∀ cls : String, (∀ c ∈ cls.toList, ClassName.isNamePart c = true) →
    Decides (AfterColon isNameChar · (resolve cls path).toList) (group path)
  /-- That is the group of its pseudo-classes if it is legible. -/
  read : atRules path = [] → ∀ cls : String, (∀ c ∈ cls.toList, ClassName.isNamePart c = true) →
    legible (resolve cls path).toList = true →
    Decides (HasPseudoClass · (resolve cls path).toList) (group path)

/-- Well-formed segments are all it takes. -/
theorem rendered_of_wellFormed {path : List Segment} (h : ∀ s ∈ path, s.WellFormed) :
    Rendered path := by
  -- in particular no colon and no reference to a parent
  have hnot {cls : String} (hcls : ∀ c ∈ cls.toList, ClassName.isNamePart c = true) {c : Char}
      (hc : ClassName.isNamePart c = false) : c ∉ cls.toList := by
    intro hmem
    rw [hcls c hmem] at hc
    cases hc
  have hdecided (hpath : atRules path = []) (cls : String)
      (hcls : ∀ c ∈ cls.toList, ClassName.isNamePart c = true) :=
    decides_group hpath (hnot hcls (by decide : ClassName.isNamePart ':' = false))
  refine ⟨h, fun t ts hat => ?_, fun cls hcls => ?_, hdecided, fun hpath cls hcls hlegible => ?_⟩
  · have ht : Segment.atRule t ∈ path := mem_atRules.1 (hat ▸ (.head _))
    obtain ⟨name, hname, hnamed⟩ := h _ ht
    obtain ⟨⟨name, g⟩, he, rfl⟩ := mem_map.1 hname
    refine ⟨name, ?_, hnamed⟩
    have hgroup : group path = g := by
      rw [group, hat]
      exact atRuleGroup_of_named he hnamed
    rwa [hgroup]
  · rw [resolve, String.toList_ofList]
    refine ⟨isInfix_resolveFrom h _, not_mem_resolveFrom ?_ path⟩
    exact not_mem_cons_of_ne_of_not_mem (by decide) (hnot hcls (by decide))
  · refine (hdecided hpath cls hcls).congr fun e he => ?_
    exact (hasPseudoClass_iff hlegible (isNameChar_of_mem_pseudoClasses e he).2).symm

end Selector

namespace StyleObject

variable {blocks : List Block} {b : Block}

theorem exists_path_of_mem_declare {path : List Segment} {key : String} {l : Literal}
    (h : b ∈ declare path key l blocks) : b.path = path ∨ ∃ b' ∈ blocks, b'.path = b.path := by
  cases blocks with
  | nil =>
    cases mem_singleton.1 h
    exact .inl rfl
  | cons b' bs =>
    rw [declare] at h
    split at h <;> rcases mem_cons.1 h with rfl | h
    · exact .inr ⟨b', .head _, rfl⟩
    · exact .inr ⟨b, .tail _ h, rfl⟩
    · exact .inl rfl
    · exact .inr ⟨b, h, rfl⟩

theorem exists_path_of_mem_addSources {ds : List Source} (h : b ∈ addSources blocks ds) :
    (∃ b' ∈ blocks, b'.path = b.path) ∨ ∃ d ∈ ds, d.path = b.path := by
  induction ds generalizing blocks with
  | nil => exact .inl ⟨b, h, rfl⟩
  | cons d ds ih =>
    rcases ih h with ⟨b', hb', hpath⟩ | ⟨d', hd', hpath⟩
    · rcases exists_path_of_mem_declare hb' with hd | ⟨b'', hb'', hpath'⟩
      · exact .inr ⟨d, .head _, hd ▸ hpath⟩
      · exact .inl ⟨b'', hb'', hpath'.trans hpath⟩
    · exact .inr ⟨d', .tail _ hd', hpath⟩

/-- The context of each block is opened by keys. -/
theorem opened_of_mem_slots {v : StyleValue} {o : StyleObject} (h : ofValue v = .ok o)
    {slot : String} (he : (slot, blocks) ∈ o.slots.entries) (hb : b ∈ blocks) :
    ∀ s ∈ b.path, s.Opened := by
  obtain ⟨fields, rfl, hslots, hsound⟩ := ofValue_eq_ok h
  rw [hslots] at he
  obtain ⟨f, hf, heq⟩ := mem_map.1 (OrderedMap.mem_of_mem_ofList he)
  cases heq
  rcases exists_path_of_mem_addSources (mem_reverse.1 hb) with ⟨b', hb', -⟩ | ⟨d, hd, hpath⟩
  · cases hb'
  · exact hpath ▸ ((hsound f hf).2 d hd).opened

/-- **The selector and the group of a context:** each context of an accepted value is rendered. -/
theorem context_rendered {v : StyleValue} {o : StyleObject} (hv : ofValue v = .ok o)
    {slot : String} {blocks : List Block} (he : (slot, blocks) ∈ o.slots.entries) {b : Block}
    (hb : b ∈ blocks) : Selector.Rendered b.path :=
  Selector.rendered_of_wellFormed fun s hs => (opened_of_mem_slots hv he hb s hs).wellFormed

/-- Two pseudo-classes in nested contexts, in the order of falling priority. -/
theorem nested_context_rendered : ∃ o blocks b,
    ofValue (.object [("root", .object [(":hover", .object [("& .x:focus", .object
      [("color", .string "red")])])])]) = .ok o ∧ ("root", blocks) ∈ o.slots.entries ∧ b ∈ blocks ∧
    b.path = [.selector "&:hover", .selector "& .x:focus"] ∧ Selector.group b.path = .hover ∧
    Selector.legible (Selector.resolve "f0" b.path).toList = true ∧ Selector.Rendered b.path := by
  have hv : ofValue (.object [("root", .object [(":hover", .object [("& .x:focus", .object
      [("color", .string "red")])])])]) = .ok ⟨OrderedMap.empty.insert "root"
        [⟨[.selector "&:hover", .selector "& .x:focus"],
          OrderedMap.empty.insert "color" (.value "red")⟩]⟩ := by
    cbv
  refine ⟨_, _, _, hv, mem_singleton_self _, mem_singleton_self _, rfl, by decide +kernel,
    by decide +kernel, ?_⟩
  exact context_rendered hv (mem_singleton_self _) (mem_singleton_self _)

/-- A colon in a string decides on the group: the selector has no pseudo-class at all. -/
theorem quoted_colon_decides : ∃ o blocks b,
    ofValue (.object [("root", .object [("&[title=\":hover\"]", .object
      [("color", .string "red")])])]) = .ok o ∧ ("root", blocks) ∈ o.slots.entries ∧ b ∈ blocks ∧
    Selector.atRules b.path = [] ∧ Selector.group b.path = .hover ∧
    ¬ Selector.Decides (Selector.HasPseudoClass · (Selector.resolve "f0" b.path).toList)
      (Selector.group b.path) := by
  have hv : ofValue (.object [("root", .object [("&[title=\":hover\"]", .object
      [("color", .string "red")])])]) = .ok ⟨OrderedMap.empty.insert "root"
        [⟨[.selector "&[title=\":hover\"]"], OrderedMap.empty.insert "color" (.value "red")⟩]⟩ := by
    cbv
  have hgroup : Selector.group [.selector "&[title=\":hover\"]"] = .hover := by decide +kernel
  have hcolon : ':' ∉ Selector.visible .plain
      (Selector.resolve "f0" [.selector "&[title=\":hover\"]"]).toList := by
    decide +kernel
  refine ⟨_, _, _, hv, mem_singleton_self _, mem_singleton_self _, rfl, hgroup, ?_⟩
  rw [hgroup]
  rintro (⟨hdefault, -⟩ | ⟨name, -, hname, -⟩)
  · cases hdefault
  · exact hcolon (Selector.AfterColon.mem hname)

end StyleObject

end AtomicStyles
