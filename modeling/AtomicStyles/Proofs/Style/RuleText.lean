import AtomicStyles.Config
import AtomicStyles.Proofs.Style.Components

/-!
# Rules that stay closed

The text of a rule is put together from at-rules, a selector, properties and values. A rule
is sealed if nothing in it can be taken for the end of the rule or of a declaration: each
at-rule and the selector opens one block, all blocks are closed at the very end, and the
innermost one holds a semicolon for each declaration. Values are checked for braces and
semicolons when a style object is read, and the class prefix when the configuration is.
Keys are not. So a rule is sealed exactly if its property passes the check that values have
to pass and its context holds no braces.

## Main definitions

* `RuleText.Sealed` — the braces and semicolons of a text are those of its blocks.
* `RuleText.nest` — a body in nested blocks.

## Main results

* `RuleText.sealed_nest_iff` — when a body in nested blocks is sealed.
* `StyleObject.rule_sealed_iff` — when a rule is sealed.
* `StyleObject.key_breaks_out` — a key that ends its rule and starts another one.
-/

namespace AtomicStyles

open List

/-! ### Nested blocks -/

namespace RuleText

/-- The number of blocks that are open after a text if `n` are open before it; `none` if a brace
closes a block that was not opened. -/
def openBlocks (n : Nat) : List Char → Option Nat
  | [] => some n
  | c :: cs =>
    if c = '\x7b' then openBlocks (n + 1) cs
    else if c = '\x7d' then if n = 0 then none else openBlocks (n - 1) cs
    else openBlocks n cs

/-- What stands between the first closing brace and the last opening brace before it. -/
def innermost (text : List Char) : List Char :=
  ((text.takeWhile (· ≠ '\x7d')).reverse.takeWhile (· ≠ '\x7b')).reverse

/-- A text with one block more than `n`, all of them closed at the end, and `k` declarations in
the innermost one. -/
structure Sealed (n k : Nat) (text : List Char) : Prop where
  opening : text.count '\x7b' = n + 1
  closing : text.count '\x7d' = n + 1
  nested : openBlocks 0 text = some 0
  ending : ∀ c ∈ text.dropWhile (· ≠ '\x7d'), c = '\x7d'
  innermost : (innermost text).count ';' = k

/-- A text without braces. -/
def Unbraced (t : List Char) : Prop := '\x7b' ∉ t ∧ '\x7d' ∉ t

instance (t : List Char) : Decidable (Unbraced t) :=
  inferInstanceAs (Decidable ('\x7b' ∉ t ∧ '\x7d' ∉ t))

/-- A body in blocks with the given heads, the first outermost. -/
def nest (body : List Char) : List (List Char) → List Char
  | [] => body
  | h :: hs => h ++ '\x7b' :: (nest body hs ++ ['\x7d'])

/-- Heads with the braces they open. -/
def heads (hs : List (List Char)) : List Char := hs.flatMap (· ++ ['\x7b'])

variable {body : List Char} {hs : List (List Char)}

theorem nest_eq (body : List Char) (hs : List (List Char)) :
    nest body hs = heads hs ++ body ++ List.replicate hs.length '\x7d' := by
  induction hs with
  | nil => simp [nest, heads]
  | cons h hs ih =>
    have hlast : List.replicate (h :: hs).length '\x7d' =
        List.replicate hs.length '\x7d' ++ ['\x7d'] := replicate_succ'
    have hcons : heads (h :: hs) = h ++ '\x7b' :: heads hs := by simp [heads]
    rw [nest, ih, hlast, hcons]
    simp

theorem toList_wrap (ps : List String) (sel text : String) :
    (AtomicRule.wrap ps (AtomicRule.braced sel text)).toList =
      nest text.toList (ps.map String.toList ++ [sel.toList]) := by
  induction ps with
  | nil => simp [AtomicRule.wrap, AtomicRule.braced, nest]
  | cons p ps ih =>
    rw [AtomicRule.wrap, map_cons, cons_append, nest, ← ih]
    simp [AtomicRule.braced]

/-- The braces of nested blocks are those of the blocks, and those of the heads and the body. -/
theorem count_nest {c : Char} (hc : c = '\x7b' ∨ c = '\x7d') (body : List Char)
    (hs : List (List Char)) : (nest body hs).count c = hs.length + (hs.flatten ++ body).count c := by
  induction hs with
  | nil => simp [nest]
  | cons h hs ih =>
    rw [nest, count_append, count_cons, count_append, ih]
    rcases hc with rfl | rfl
    · simp
      omega
    · simp
      omega

theorem mem_of_mem_heads {c : Char} (hc : c ≠ '\x7b') (h : c ∈ heads hs) : ∃ t ∈ hs, c ∈ t := by
  obtain ⟨t, ht, hct⟩ := mem_flatMap.1 h
  rcases mem_append.1 hct with hct | hct
  · exact ⟨t, ht, hct⟩
  · exact absurd (mem_singleton.1 hct) hc

theorem openBlocks_append {t : List Char} (h : Unbraced t) (n : Nat) (rest : List Char) :
    openBlocks n (t ++ rest) = openBlocks n rest := by
  induction t with
  | nil => rfl
  | cons c t ih =>
    obtain ⟨hopen, hclose⟩ := h
    rw [mem_cons, not_or] at hopen hclose
    rw [cons_append, openBlocks, if_neg (Ne.symm hopen.1), if_neg (Ne.symm hclose.1)]
    exact ih ⟨hopen.2, hclose.2⟩

/-- Nested blocks leave as many blocks open as they find. -/
theorem openBlocks_nest (hbody : Unbraced body) (hheads : ∀ h ∈ hs, Unbraced h) (n : Nat)
    (rest : List Char) : openBlocks n (nest body hs ++ rest) = openBlocks n rest := by
  induction hs generalizing n rest with
  | nil => exact openBlocks_append hbody n rest
  | cons h hs ih =>
    have hnext := ih (fun t ht => hheads t (.tail _ ht)) (n + 1) ('\x7d' :: rest)
    rw [nest, append_assoc, openBlocks_append (hheads h (.head _)), cons_append,
      openBlocks, if_pos rfl, append_assoc, singleton_append, hnext]
    simp [openBlocks]

section Unbraced

variable (hbody : Unbraced body) (hheads : ∀ h ∈ hs, Unbraced h)
include hbody hheads

/-- Before the first closing brace stand the heads and the body. -/
theorem ne_of_mem_heads_append : ∀ c ∈ heads hs ++ body, c ≠ '\x7d' := by
  rintro c hc rfl
  rcases mem_append.1 hc with hc | hc
  · obtain ⟨t, ht, hct⟩ := mem_of_mem_heads (by decide) hc
    exact (hheads t ht).2 hct
  · exact hbody.2 hc

theorem takeWhile_nest (hne : hs ≠ []) :
    (nest body hs).takeWhile (· ≠ '\x7d') = heads hs ++ body := by
  obtain ⟨n, hn⟩ := Nat.exists_eq_succ_of_ne_zero (mt length_eq_zero_iff.1 hne)
  rw [nest_eq, hn, replicate_succ, takeWhile_append_of_pos]
  · simp
  · simpa using ne_of_mem_heads_append hbody hheads

theorem dropWhile_nest :
    (nest body hs).dropWhile (· ≠ '\x7d') = List.replicate hs.length '\x7d' := by
  rw [nest_eq, dropWhile_append_of_pos]
  · cases hs.length <;> simp [replicate_succ]
  · simpa using ne_of_mem_heads_append hbody hheads

theorem innermost_nest (hne : hs ≠ []) : innermost (nest body hs) = body := by
  have hlast : heads hs = (heads hs.dropLast ++ hs.getLast hne) ++ ['\x7b'] := by
    have hsplit := congrArg heads (dropLast_concat_getLast hne)
    simpa [heads] using hsplit.symm
  rw [innermost, takeWhile_nest hbody hheads hne, hlast, reverse_append, reverse_append,
    takeWhile_append_of_pos]
  · simp
  · intro c hc
    have hc' : c ∈ body := mem_reverse.1 hc
    have : c ≠ '\x7b' := fun heq => hbody.1 (heq ▸ hc')
    simpa using this

end Unbraced

/-- **A body in nested blocks is sealed** exactly if neither the heads nor the body have braces of
their own, with the semicolons that the body holds. -/
theorem sealed_nest_iff {n k : Nat} (hlen : hs.length = n + 1) :
    Sealed n k (nest body hs) ↔
      Unbraced body ∧ (∀ h ∈ hs, Unbraced h) ∧ body.count ';' = k := by
  have hne : hs ≠ [] := by
    rintro rfl
    cases hlen
  constructor
  · intro h
    -- there are as many braces as blocks, so none are left for the heads and the body
    have hopen : '\x7b' ∉ hs.flatten ++ body := by
      have hcount := h.opening
      rw [count_nest (.inl rfl), hlen] at hcount
      exact count_eq_zero.1 (by omega)
    have hclose : '\x7d' ∉ hs.flatten ++ body := by
      have hcount := h.closing
      rw [count_nest (.inr rfl), hlen] at hcount
      exact count_eq_zero.1 (by omega)
    rw [mem_append, not_or] at hopen hclose
    have hbody : Unbraced body := ⟨hopen.2, hclose.2⟩
    have hheads : ∀ t ∈ hs, Unbraced t := fun t ht =>
      ⟨fun hc => hopen.1 (mem_flatten.2 ⟨t, ht, hc⟩),
        fun hc => hclose.1 (mem_flatten.2 ⟨t, ht, hc⟩)⟩
    have hinner := h.innermost
    rw [innermost_nest hbody hheads hne] at hinner
    exact ⟨hbody, hheads, hinner⟩
  · rintro ⟨hbody, hheads, hinner⟩
    have hcount : ∀ c, c = '\x7b' ∨ c = '\x7d' → (hs.flatten ++ body).count c = 0 := by
      intro c hc
      rw [count_eq_zero, mem_append, mem_flatten]
      rintro (⟨t, ht, hct⟩ | hcb)
      · rcases hc with rfl | rfl
        · exact (hheads t ht).1 hct
        · exact (hheads t ht).2 hct
      · rcases hc with rfl | rfl
        · exact hbody.1 hcb
        · exact hbody.2 hcb
    constructor
    · rw [count_nest (.inl rfl), hcount _ (.inl rfl), hlen]
    · rw [count_nest (.inr rfl), hcount _ (.inr rfl), hlen]
    · have hclosed := openBlocks_nest hbody hheads 0 []
      rwa [append_nil] at hclosed
    · intro c hc
      rw [dropWhile_nest hbody hheads] at hc
      exact (mem_replicate.1 hc).2
    · rw [innermost_nest hbody hheads hne]
      exact hinner

end RuleText

/-! ### The body of a rule -/

theorem mem_dedup {α : Type} [BEq α] [LawfulBEq α] {x : α} {xs : List α} :
    x ∈ dedup xs ↔ x ∈ xs := by
  induction xs with
  | nil => rfl
  | cons y xs ih =>
    rw [dedup, mem_cons, mem_filter, ih, mem_cons]
    by_cases hxy : x = y
    · simp [hxy]
    · simp [hxy]

/-- Texts with a semicolon or more each have one each exactly if together they have as many as
there are texts. -/
theorem count_flatMap_eq_length {c : Char} {ss : List String} (h : ∀ s ∈ ss, c ∈ s.toList) :
    (ss.flatMap String.toList).count c = ss.length ↔ ∀ s ∈ ss, s.toList.count c = 1 := by
  -- no text has fewer than one, so none can make up for another that has more
  have hle : ∀ ss : List String, (∀ s ∈ ss, c ∈ s.toList) →
      ss.length ≤ (ss.flatMap String.toList).count c := by
    intro ss h
    induction ss with
    | nil => simp
    | cons s ss ih =>
      have hs := count_pos_iff.2 (h s (.head _))
      have hss := ih fun t ht => h t (.tail _ ht)
      rw [flatMap_cons, count_append, length_cons]
      omega
  induction ss with
  | nil => simp
  | cons s ss ih =>
    have hs := count_pos_iff.2 (h s (.head _))
    have hrest := hle ss fun t ht => h t (.tail _ ht)
    have hiff := ih fun t ht => h t (.tail _ ht)
    rw [flatMap_cons, count_append, length_cons, forall_mem_cons]
    constructor
    · intro heq
      exact ⟨by omega, hiff.1 (by omega)⟩
    · rintro ⟨hone, hall⟩
      rw [hone, hiff.2 hall]
      omega

namespace StyleObject

/-- A text that passes the check that values have to pass. -/
def Safe (t : String) : Prop := ∀ c ∈ t.toList, isUnsafe c = false

instance (t : String) : Decidable (Safe t) :=
  decidable_of_iff (t.toList.any isUnsafe = false) (by simp [Safe])

variable {t value property : String} {c : Char} {ds : List Declaration}

theorem safe_iff : Safe t ↔ ';' ∉ t.toList ∧ RuleText.Unbraced t.toList := by
  constructor
  · intro h
    refine ⟨fun hc => ?_, fun hc => ?_, fun hc => ?_⟩
    · exact absurd (h _ hc) (by decide)
    · exact absurd (h _ hc) (by decide)
    · exact absurd (h _ hc) (by decide)
  · rintro ⟨hsemi, hopen, hclose⟩ c hc
    have h1 : c ≠ ';' := fun heq => hsemi (heq ▸ hc)
    have h2 : c ≠ '\x7b' := fun heq => hopen (heq ▸ hc)
    have h3 : c ≠ '\x7d' := fun heq => hclose (heq ▸ hc)
    simp [isUnsafe, h1, h2, h3]

def bodyText (ds : List Declaration) : String := String.join (dedup (ds.map Declaration.css))

theorem toList_bodyText (ds : List Declaration) :
    (bodyText ds).toList = (dedup (ds.map Declaration.css)).flatMap String.toList := by
  rw [bodyText, String.toList_join, flatMap_def]

theorem toList_css (d : Declaration) :
    d.css.toList = d.property.toList ++ ':' :: (d.value.toList ++ [';']) := by
  simp [Declaration.css]

theorem mem_bodyText : c ∈ (bodyText ds).toList ↔ ∃ d ∈ ds, c ∈ d.css.toList := by
  rw [toList_bodyText, mem_flatMap]
  constructor
  · rintro ⟨s, hs, hc⟩
    obtain ⟨d, hd, rfl⟩ := mem_map.1 (mem_dedup.1 hs)
    exact ⟨d, hd, hc⟩
  · rintro ⟨d, hd, hc⟩
    exact ⟨d.css, mem_dedup.2 (mem_map_of_mem hd), hc⟩

theorem count_css (d : Declaration) :
    d.css.toList.count ';' = 1 ↔ ';' ∉ d.property.toList ∧ ';' ∉ d.value.toList := by
  have hcount : d.css.toList.count ';' =
      d.property.toList.count ';' + d.value.toList.count ';' + 1 := by
    rw [toList_css, count_append, count_cons, count_append]
    simp
    omega
  rw [hcount, ← count_eq_zero, ← count_eq_zero]
  omega

theorem unbraced_css {d : Declaration} :
    RuleText.Unbraced d.css.toList ↔
    RuleText.Unbraced d.property.toList ∧ RuleText.Unbraced d.value.toList := by
  unfold RuleText.Unbraced
  rw [toList_css, and_and_and_comm]
  simp

theorem unbraced_bodyText :
    RuleText.Unbraced (bodyText ds).toList ↔ ∀ d ∈ ds, RuleText.Unbraced d.css.toList := by
  constructor
  · intro h d hd
    exact ⟨fun hc => h.1 (mem_bodyText.2 ⟨d, hd, hc⟩), fun hc => h.2 (mem_bodyText.2 ⟨d, hd, hc⟩)⟩
  · intro h
    constructor
    · intro hc
      obtain ⟨d, hd, hcd⟩ := mem_bodyText.1 hc
      exact (h d hd).1 hcd
    · intro hc
      obtain ⟨d, hd, hcd⟩ := mem_bodyText.1 hc
      exact (h d hd).2 hcd

theorem count_bodyText :
    (bodyText ds).toList.count ';' = (dedup (ds.map Declaration.css)).length ↔
      ∀ d ∈ ds, d.css.toList.count ';' = 1 := by
  have hsemi : ∀ s ∈ dedup (ds.map Declaration.css), ';' ∈ s.toList := by
    intro s hs
    obtain ⟨d, -, rfl⟩ := mem_map.1 (mem_dedup.1 hs)
    simp [toList_css]
  rw [toList_bodyText, count_flatMap_eq_length hsemi]
  constructor
  · intro h d hd
    exact h d.css (mem_dedup.2 (mem_map_of_mem hd))
  · intro h s hs
    obtain ⟨d, hd, rfl⟩ := mem_map.1 (mem_dedup.1 hs)
    exact h d hd

/-- **A body has no braces and one semicolon for each declaration** exactly if its properties and
values are safe. -/
theorem safe_bodyText_iff :
    (RuleText.Unbraced (bodyText ds).toList ∧
        (bodyText ds).toList.count ';' = (dedup (ds.map Declaration.css)).length) ↔
      ∀ d ∈ ds, Safe d.property ∧ Safe d.value := by
  rw [unbraced_bodyText, count_bodyText]
  constructor
  · rintro ⟨hbraces, hcount⟩ d hd
    obtain ⟨hproperty, hvalue⟩ := unbraced_css.1 (hbraces d hd)
    obtain ⟨hsemi, hsemi'⟩ := (count_css d).1 (hcount d hd)
    exact ⟨safe_iff.2 ⟨hsemi, hproperty⟩, safe_iff.2 ⟨hsemi', hvalue⟩⟩
  · intro h
    constructor
    · intro d hd
      exact unbraced_css.2 ⟨(safe_iff.1 (h d hd).1).2, (safe_iff.1 (h d hd).2).2⟩
    · intro d hd
      exact (count_css d).2 ⟨(safe_iff.1 (h d hd).1).1, (safe_iff.1 (h d hd).2).1⟩

/-! ### Values and properties -/

theorem Safe.of_subset {s : String} (h : Safe t) (hsub : ∀ c ∈ s.toList, c ∈ t.toList) : Safe s :=
  fun c hc => h c (hsub c hc)

theorem Safe.append {s : String} (hs : Safe s) (ht : Safe t) : Safe (s ++ t) := by
  intro c hc
  rw [String.toList_append, mem_append] at hc
  exact hc.elim (hs c) (ht c)

theorem mem_of_mem_strip? {pat cs rest : List Char} (h : Text.strip? pat cs = some rest)
    (hc : c ∈ rest) : c ∈ cs := by
  rw [Text.strip?_eq_some_iff.1 h]
  exact mem_append_right _ hc

theorem safe_swapKeyword {old new : String} (hnew : Safe new) (hvalue : Safe value) :
    Safe (Declaration.swapKeyword old new value) := by
  unfold Declaration.swapKeyword
  split
  · next rest hrest =>
    refine hnew.append (hvalue.of_subset fun c hc => ?_)
    exact mem_of_mem_strip? hrest (by simpa using hc)
  · exact hvalue

theorem safe_longhands {name : String} (h : name ∈ Declaration.longhands property) :
    Safe property ∧ Safe name := by
  have hsafe : ∀ e ∈ Declaration.shorthands, Safe e.1 ∧ ∀ name ∈ e.2, Safe name := by decide +kernel
  obtain ⟨e, he, rfl, hname⟩ := Declaration.exists_of_mem_longhands h
  exact (hsafe e he).imp_right fun hsafe => hsafe name hname

theorem safe_mark (value : String) : Safe (Declaration.mark value) := by
  unfold Declaration.mark
  split <;> decide

/-- The longhands of a safe value have safe values, and safe properties if the shorthand is
safe. -/
theorem safe_expand (hvalue : Safe value) :
    ∀ d ∈ Declaration.expand property value, (Safe d.property ↔ Safe property) ∧ Safe d.value := by
  intro d hd
  rw [Declaration.expand_eq] at hd
  split at hd
  · next hsplits =>
    obtain ⟨⟨name, place⟩, hmem, rfl⟩ := mem_map.1 hd
    obtain ⟨hproperty, hname⟩ := safe_longhands (fst_mem_of_mem_zipIdx hmem)
    have hpart := Declaration.chosen_mem hsplits.2.2.1 place
    refine ⟨iff_of_true hname hproperty, Safe.append (hvalue.of_subset fun c hc => ?_) (safe_mark value)⟩
    exact Declaration.mem_of_mem_plain (Declaration.mem_of_mem_components hpart hc)
  · rw [mem_singleton.1 hd]
    exact ⟨.rfl, hvalue⟩

theorem safe_vendorSpellings {d : Declaration} (hvalue : Safe d.value) :
    ∀ e ∈ d.vendorSpellings, Safe e.property ∧ Safe e.value := by
  have hspelled : ∀ {property value : String} {e : Declaration}, e = ⟨property, value⟩ →
      Safe property → Safe value → Safe e.property ∧ Safe e.value := by
    rintro property value _ rfl hproperty hvalue
    exact ⟨hproperty, hvalue⟩
  have hswap : ∀ {old new : String}, Safe new → Safe (Declaration.swapKeyword old new d.value) :=
    fun hnew => safe_swapKeyword hnew hvalue
  intro e he
  unfold Declaration.vendorSpellings at he
  dsimp only at he
  split at he <;> simp only [mem_cons, not_mem_nil, or_false] at he
  · rcases he with he | he
    · exact hspelled he (by decide) (hswap (by decide))
    · exact hspelled he (by decide) (hswap (by decide))
  · exact hspelled he (by decide) (hswap (by decide))
  · exact hspelled he (by decide) (hswap (by decide))
  · exact hspelled he (by decide) hvalue
  · rcases he with he | he | he
    · exact hspelled he (by decide) hvalue
    · exact hspelled he (by decide) hvalue
    · exact hspelled he (by decide) hvalue
  · rcases he with he | he
    · exact hspelled he (by decide) hvalue
    · exact hspelled he (by decide) hvalue
  · rcases he with he | he
    · exact hspelled he (by decide) hvalue
    · exact hspelled he (by decide) hvalue
  · exact hspelled he (by decide) hvalue
  · exact hspelled he (by decide) hvalue
  · exact hspelled he (by decide) hvalue

/-- A declaration with a safe value is safe with all its vendor spellings if its property is. -/
theorem safe_withVendors_iff (hvalue : Safe value) :
    (∀ e ∈ Declaration.withVendors ⟨property, value⟩, Safe e.property ∧ Safe e.value) ↔
      Safe property := by
  rw [Declaration.withVendors, forall_mem_append, forall_mem_singleton]
  constructor
  · rintro ⟨-, hproperty, -⟩
    exact hproperty
  · intro hproperty
    exact ⟨safe_vendorSpellings hvalue, hproperty, hvalue⟩

/-! ### Property names -/

theorem isUnsafe_of_isUpper (h : c.isUpper) : isUnsafe c = false ∧ isUnsafe c.toLower = false := by
  -- the capitals are the characters from 65 to 90, and each of them is tried
  have hletters : ∀ n < 91, 65 ≤ n →
      isUnsafe (Char.ofNat n) = false ∧ isUnsafe (Char.ofNat n).toLower = false := by decide
  have hbounds : 65 ≤ c.toNat ∧ c.toNat ≤ 90 := by
    have hrange : 'A'.val ≤ c.val ∧ c.val ≤ 'Z'.val := of_decide_eq_true h
    simpa [UInt32.le_iff_toNat_le] using hrange
  have hc := hletters c.toNat (by omega) hbounds.1
  rwa [Char.ofNat_toNat] at hc

theorem safe_lowerCapitals {cs : List Char} :
    (∀ c ∈ Declaration.lowerCapitals cs, isUnsafe c = false) ↔ ∀ c ∈ cs, isUnsafe c = false := by
  have hhyphen : isUnsafe '-' = false := by decide
  induction cs with
  | nil => rfl
  | cons c cs ih =>
    rw [Declaration.lowerCapitals, forall_mem_cons]
    split
    · next hupper =>
      obtain ⟨hc, hlower⟩ := isUnsafe_of_isUpper hupper
      simp only [forall_mem_cons, hhyphen, hc, hlower, true_and, ih]
    · simp only [forall_mem_cons, ih]

/-- Spelling a property for a style sheet neither adds nor removes unsafe characters. -/
theorem safe_hyphenate {key : String} : Safe (Declaration.hyphenate key) ↔ Safe key := by
  have hofList : ∀ cs : List Char, Safe (String.ofList cs) ↔ ∀ c ∈ cs, isUnsafe c = false := by
    intro cs
    rw [Safe, String.toList_ofList]
  have hhyphen : isUnsafe '-' = false := by decide
  have hm : isUnsafe 'm' = false := by decide
  have hs : isUnsafe 's' = false := by decide
  unfold Declaration.hyphenate
  split
  · rfl
  · next c cs hkey =>
    rw [hofList, forall_mem_append, forall_mem_cons, forall_mem_cons,
      safe_lowerCapitals, Safe, hkey]
    split <;> simp [hhyphen, hm, hs]
  · next c cs _ _ hkey =>
    rw [Safe, Safe, hkey]
    split
    · next hupper =>
      obtain ⟨hc, hlower⟩ := isUnsafe_of_isUpper hupper
      dsimp only
      split <;> simp [hhyphen, hc, hlower, safe_lowerCapitals]
    · simp [safe_lowerCapitals]
  · next hkey =>
    rw [Safe, Safe, hkey]
    rfl

/-- **All that a sound declaration emits is safe** exactly if its key is. -/
theorem safe_declarations_iff {d : Source} (hd : d.Sound) {a : Atom} (ha : a ∈ d.atoms) :
    (∀ e ∈ a.declarations, Safe e.property ∧ Safe e.value) ↔ Safe d.key := by
  have hsafe := hd.literal.safe
  unfold Source.atoms at ha
  cases hl : d.literal with
  | value v =>
    rw [hl] at ha hsafe
    obtain ⟨e, he, rfl⟩ := mem_map.1 ha
    obtain ⟨hproperty, hvalue⟩ := safe_expand (hsafe v (.head _)) e he
    rw [safe_withVendors_iff hvalue, hproperty, safe_hyphenate]
  | fallbacks vs =>
    have hlen := hd.literal.several vs hl
    rw [hl] at ha hsafe
    cases mem_singleton.1 ha
    dsimp only
    rw [← safe_hyphenate]
    constructor
    · intro h
      -- any of the values shows that the property is safe, and there is one
      cases vs with
      | nil => cases hlen
      | cons v vs =>
        refine (safe_withVendors_iff (hsafe v (.head _))).1 fun e he => ?_
        exact h e (mem_flatMap.2 ⟨v, .head _, he⟩)
    · intro h e he
      obtain ⟨v, hv, he⟩ := mem_flatMap.1 he
      exact (safe_withVendors_iff (hsafe v hv)).2 h e he

/-! ### Selectors and at-rules -/

theorem isUnsafe_digitChar {n : Nat} (h : n < 36) : isUnsafe (Base36.digitChar n) = false := by
  have hall : ∀ n < 36, isUnsafe (Base36.digitChar n) = false := by decide
  exact hall n h

theorem lt_of_mem_digits {w n d : Nat} (h : d ∈ Base36.digits w n) : d < 36 := by
  induction w generalizing n with
  | zero => exact absurd h not_mem_nil
  | succ w ih =>
    rcases mem_append.1 h with h | h
    · exact ih h
    · rw [mem_singleton.1 h]
      exact Nat.mod_lt n (by decide)

theorem safe_token (key : String) : Safe (ClassName.token key) := by
  intro c hc
  rw [ClassName.token, Base36.toList_encode] at hc
  obtain ⟨d, hd, rfl⟩ := mem_map.1 hc
  exact isUnsafe_digitChar (lt_of_mem_digits hd)

theorem isUnsafe_of_isAlphanum (h : c.isAlphanum || c == '_' || c == '-') : isUnsafe c = false := by
  cases hc : isUnsafe c with
  | false => rfl
  | true =>
    have hcases : c = ';' ∨ c = '\x7b' ∨ c = '\x7d' := by
      simpa [isUnsafe, or_assoc] using hc
    rcases hcases with rfl | rfl | rfl <;> exact absurd h (by decide)

theorem safe_of_isValidPrefix {pre : String} (h : Config.isValidPrefix pre.toList) : Safe pre := by
  unfold Safe
  revert h
  cases pre.toList with
  | nil => simp
  | cons c cs =>
    intro h
    rw [Config.isValidPrefix, Bool.and_eq_true, all_eq_true] at h
    refine forall_mem_cons.2 ⟨isUnsafe_of_isAlphanum ?_, fun a ha => isUnsafe_of_isAlphanum (h.2 a ha)⟩
    have hfirst := h.1
    simp only [Char.isAlphanum, Bool.or_eq_true] at hfirst ⊢
    rcases hfirst with (hfirst | hfirst) | hfirst
    · exact .inl (.inl (.inl hfirst))
    · exact .inl (.inr hfirst)
    · exact .inr hfirst

theorem mem_fill {parent s : List Char} (hc : c ≠ '&') :
    c ∈ Selector.fill parent s ↔ c ∈ parent ∧ '&' ∈ s ∨ c ∈ s := by
  induction s with
  | nil => simp [Selector.fill]
  | cons a s ih =>
    rw [Selector.fill]
    split
    · next ha =>
      rw [mem_append, ih, eq_of_beq ha]
      simp only [mem_cons, hc, true_or, false_or, and_true]
      grind
    · next ha =>
      have hamp : '&' ≠ a := fun heq => ha (by simp [← heq])
      rw [mem_cons, ih, mem_cons, mem_cons]
      simp only [hamp, false_or]
      grind

theorem unbraced_fill {parent s : List Char} (hs : '&' ∈ s) :
    RuleText.Unbraced (Selector.fill parent s) ↔ RuleText.Unbraced parent ∧ RuleText.Unbraced s := by
  unfold RuleText.Unbraced
  rw [mem_fill (by decide), mem_fill (by decide), and_and_and_comm]
  simp only [hs, and_true, not_or]

/-- A selector has the braces of its class and of the selectors of its context. -/
theorem unbraced_resolveFrom {path : List Segment} (hopened : ∀ s ∈ path, s.Opened)
    (base : List Char) : RuleText.Unbraced (Selector.resolveFrom base path) ↔
      RuleText.Unbraced base ∧ ∀ t ∈ Selector.selectors path, RuleText.Unbraced t.toList := by
  induction path generalizing base with
  | nil => simp [Selector.resolveFrom, Selector.selectors]
  | cons s path ih =>
    have hrest := ih fun s hs => hopened s (.tail _ hs)
    cases s with
    | selector t =>
      have ht : '&' ∈ t.toList := (hopened _ (.head _)).selector
      have hselectors : Selector.selectors (.selector t :: path) = t :: Selector.selectors path := rfl
      rw [Selector.resolveFrom, hrest, unbraced_fill ht, hselectors, forall_mem_cons, and_assoc]
    | atRule t => exact hrest base

/-- The heads of a rule have no braces exactly if its context has none. -/
theorem unbraced_heads_iff {path : List Segment} (hopened : ∀ s ∈ path, s.Opened)
    {className : String} (hclass : Safe className) :
    (∀ h ∈ (Selector.atRules path).map String.toList ++ [(Selector.resolve className path).toList],
        RuleText.Unbraced h) ↔ ∀ s ∈ path, RuleText.Unbraced s.text.toList := by
  have hbase : RuleText.Unbraced ('.' :: className.toList) := by
    obtain ⟨hopen, hclose⟩ := (safe_iff.1 hclass).2
    exact ⟨by simpa using hopen, by simpa using hclose⟩
  rw [forall_mem_append, forall_mem_singleton, forall_mem_map, Selector.resolve,
    String.toList_ofList, unbraced_resolveFrom hopened]
  constructor
  · rintro ⟨hat, -, hsel⟩ s hs
    cases s with
    | selector t => exact hsel t (Selector.mem_selectors.2 hs)
    | atRule t => exact hat t (Selector.mem_atRules.2 hs)
  · intro h
    refine ⟨fun t ht => ?_, hbase, fun t ht => ?_⟩
    · exact h _ (Selector.mem_atRules.1 ht)
    · exact h _ (Selector.mem_selectors.1 ht)

/-! ### Rules -/

theorem toList_text_make (pre : String) (path : List Segment) (a : Atom) :
    (AtomicRule.make pre path a).text.toList = RuleText.nest (bodyText a.declarations).toList
      ((Selector.atRules path).map String.toList ++
        [(Selector.resolve (pre ++ ClassName.token (a.key path)) path).toList]) :=
  RuleText.toList_wrap _ _ _

/-- **When a rule is sealed.** Every rule of a compiled value comes from a declaration of the
value. With a valid prefix, it opens a block for each at-rule and one for its selector, closes
them at its end and holds a semicolon for each declaration it emits, exactly if the key of the
declaration is safe and its context has no braces. -/
theorem rule_sealed_iff {pre : String} (hpre : Config.isValidPrefix pre.toList) {v : StyleValue}
    {c : Compiled} (h : compile pre v = .ok c) :
    (∀ r ∈ c.rules, ∃ d ∈ sources v, ∃ a ∈ d.atoms, r = AtomicRule.make pre d.path a) ∧
      ∀ d ∈ sources v, ∀ a ∈ d.atoms,
        RuleText.Sealed (Selector.atRules d.path).length
            (dedup (a.declarations.map Declaration.css)).length
            (AtomicRule.make pre d.path a).text.toList ↔
          Safe d.key ∧ ∀ s ∈ d.path, RuleText.Unbraced s.text.toList := by
  constructor
  · intro r hr
    obtain ⟨d, hd, -, a, ha, heq⟩ := exists_source_of_mem_rules h hr
    exact ⟨d, hd, a, ha, heq⟩
  · intro d hd a ha
    obtain ⟨o, ho, -⟩ := exists_of_bind_eq_ok h
    have hsound := sound_of_mem_sources ho hd
    have hclass : Safe (pre ++ ClassName.token (a.key d.path)) :=
      (safe_of_isValidPrefix hpre).append (safe_token _)
    rw [toList_text_make, RuleText.sealed_nest_iff (by simp), unbraced_heads_iff hsound.opened hclass,
      and_left_comm, safe_bodyText_iff, safe_declarations_iff hsound ha, and_comm]

/-- A declaration with vendor spellings inside an at-rule and a selector. -/
def nestedFlex : StyleValue :=
  .object [("root", .object [("@media print",
    .object [(":hover", .object [("display", .string "flex")])])])]

theorem rule_sealed_nested :
    let path := [Segment.atRule "@media print", Segment.selector "&:hover"]
    let a : Atom := ⟨"display", "flex",
      [⟨"display", "-webkit-box"⟩, ⟨"display", "-webkit-flex"⟩, ⟨"display", "flex"⟩]⟩
    (compile "f" nestedFlex).toOption.map (·.rules) = some [AtomicRule.make "f" path a] ∧
      RuleText.Sealed 1 3 (AtomicRule.make "f" path a).text.toList := by
  intro path a
  have hrules : (compile "f" nestedFlex).toOption.map (·.rules) = some [AtomicRule.make "f" path a] := by
    decide +kernel
  obtain ⟨c, hc⟩ := exists_of_isOk (x := compile "f" nestedFlex) (by decide +kernel)
  have hd : ⟨path, "display", .value "flex"⟩ ∈ sources nestedFlex := by decide +kernel
  have ha : a ∈ Source.atoms ⟨path, "display", .value "flex"⟩ := by decide +kernel
  have hkey : Safe "display" := by decide
  have hpath : ∀ s ∈ path, RuleText.Unbraced s.text.toList := by decide
  exact ⟨hrules, ((rule_sealed_iff (by decide) hc).2 _ hd a ha).2 ⟨hkey, hpath⟩⟩

/-- A key that holds the end of a rule and the start of another one. -/
def breakingKey : StyleValue :=
  .object [("root", .object [("color:red;\x7dbody\x7bcolor", .string "blue")])]

/-- The style object is accepted, and its one rule is two. -/
theorem key_breaks_out :
    let text := ".f2bswh1zq8kjto\x7bcolor:red;\x7dbody\x7bcolor:blue;\x7d"
    (compile "f" breakingKey).toOption.map (·.rules.map (·.text)) = some [text] ∧
      ¬ RuleText.Sealed 0 1 text.toList := by
  intro text
  have hcount : text.toList.count '\x7b' ≠ 0 + 1 := by decide +kernel
  exact ⟨by decide +kernel, fun h => hcount h.opening⟩

end StyleObject

end AtomicStyles
