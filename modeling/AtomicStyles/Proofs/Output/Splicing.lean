import Mathlib
import AtomicStyles.Output.Splice

/-!
# Splicing changes only the edited ranges

Edits are applied in one pass over their sorted list, and a guard skips an edit that starts
before the end of the last one. Where the ranges are apart from each other the guard never
fires: every range is replaced, in the order of the text, and what lies between the ranges is
copied.

## Main definitions

* `Splice.kept` — the edits that the guard lets through.
* `Splice.Edited` — a text, edits in the order of their ranges, and the text they make of it.
* `Splice.Ranges` — replacements with ranges apart from each other, between characters.
* `Splice.Added` — the edit that adds an import.

## Main results

* `Splice.mem_kept_mergeSort` — the guard lets ranges pass that are apart from each other, wherever
  else text is inserted.
* `Splice.edited_applySorted` — the pass over sorted edits replaces the ranges.
* `Splice.replaceCalls_edits_exactly` — **splicing replaces the ranges, adds the import and copies
  the rest, in whatever order the replacements are given.**
-/

namespace AtomicStyles

open List

/-- Neither of two ranges reaches into the other. -/
def Edit.Apart (a b : Edit) : Prop := a.stop ≤ b.start ∨ b.stop ≤ a.start

instance : Std.Symm Edit.Apart := ⟨fun _ _ h => h.symm⟩

namespace Splice

open String (utf8Len)

variable {a b e : Edit} {es calls : List Edit} {cursor n : Nat} {cs front rest : List Char}

/-! ### Offsets between characters -/

/-- A byte offset between two characters of a text, or at one of its ends. -/
def IsBoundary (cs : List Char) (n : Nat) : Prop := ∃ front back, cs = front ++ back ∧ utf8Len front = n

theorem takeBytes_utf8Len (front rest : List Char) :
    takeBytes (utf8Len front) (front ++ rest) = front := by
  induction front with
  | nil => cases rest <;> simp [takeBytes]
  | cons c front ih => simp [takeBytes, ih, c.utf8Size_pos.ne']

theorem dropBytes_utf8Len (front rest : List Char) :
    dropBytes (utf8Len front) (front ++ rest) = rest := by
  induction front with
  | nil => cases rest <;> simp [dropBytes]
  | cons c front ih => simp [dropBytes, ih, c.utf8Size_pos.ne']

theorem takeBytes_append_dropBytes (n : Nat) (cs : List Char) : takeBytes n cs ++ dropBytes n cs = cs := by
  induction cs generalizing n with
  | nil => rfl
  | cons c cs ih => by_cases h : n = 0 <;> simp [takeBytes, dropBytes, h, ih]

theorem isBoundary_iff : IsBoundary cs n ↔ utf8Len (takeBytes n cs) = n := by
  constructor
  · rintro ⟨front, back, rfl, rfl⟩
    rw [takeBytes_utf8Len]
  · exact fun h => ⟨_, _, (takeBytes_append_dropBytes n cs).symm, h⟩

instance : Decidable (IsBoundary cs n) := decidable_of_iff _ isBoundary_iff.symm

/-- A boundary after some characters splits what follows them. -/
theorem IsBoundary.split (h : IsBoundary (front ++ rest) n) (hn : utf8Len front ≤ n) :
    ∃ gap back, rest = gap ++ back ∧ utf8Len (front ++ gap) = n := by
  obtain ⟨pre, post, heq, rfl⟩ := h
  rcases append_eq_append_iff.1 heq with ⟨gap, rfl, hrest⟩ | ⟨more, rfl, _⟩
  · exact ⟨gap, post, hrest, rfl⟩
  · have hmore : more = [] := by
      rw [String.utf8Len_append] at hn
      exact String.utf8Len_eq_zero.1 (by omega)
    exact ⟨[], rest, rfl, by simp [hmore]⟩

/-! ### The guard -/

/-- The edits of a sorted list that start where the last one has ended, from a byte on. -/
def kept (cursor : Nat) : List Edit → List Edit
  | [] => []
  | e :: es => if e.start < cursor then kept cursor es else e :: kept e.stop es

/-- The pass over sorted edits applies the kept ones. -/
theorem applySorted_kept (cursor : Nat) (rest : List Char) (es : List Edit) :
    applySorted cursor rest (kept cursor es) = applySorted cursor rest es := by
  induction es generalizing cursor rest with
  | nil => rfl
  | cons e es ih =>
    by_cases h : e.start < cursor
    · simp only [kept, applySorted, h, if_true, ih]
    · simp only [kept, applySorted, h, if_false, ih]

/-- Ranges that stand one after the other are all kept. -/
theorem kept_eq_self (hes : es.Pairwise fun a b => a.stop ≤ b.start)
    (hcursor : ∀ e ∈ es, cursor ≤ e.start) : kept cursor es = es := by
  induction es generalizing cursor with
  | nil => rfl
  | cons e es ih =>
    have ⟨hhead, htail⟩ := pairwise_cons.1 hes
    have he := hcursor e (.head _)
    rw [kept, if_neg (by omega), ih htail hhead]

/-- A range is kept if none that is sorted before it ends after its start. -/
theorem mem_kept {P : Edit → Prop} (hes : es.Pairwise fun a b => P b → a.stop ≤ b.start)
    (hcursor : ∀ e ∈ es, P e → cursor ≤ e.start) : ∀ e ∈ es, P e → e ∈ kept cursor es := by
  induction es generalizing cursor with
  | nil => simp
  | cons e es ih =>
    have ⟨hhead, htail⟩ := pairwise_cons.1 hes
    intro b hb hP
    by_cases hskip : e.start < cursor
    · -- the skipped edit is not the range, and leaves the cursor where it is
      rw [kept, if_pos hskip]
      rcases mem_cons.1 hb with rfl | hb
      · exact absurd (hcursor b (.head _) hP) (by omega)
      · exact ih htail (fun b hb => hcursor b (mem_cons_of_mem e hb)) b hb hP
    · rw [kept, if_neg hskip]
      rcases mem_cons.1 hb with rfl | hb
      · exact .head _
      · exact mem_cons_of_mem e (ih htail hhead b hb hP)

/-! ### Sorting -/

theorem before_trans (a b c : Edit) (hab : before a b = true) (hbc : before b c = true) :
    before a c = true := by
  simp only [before, Bool.or_eq_true, Bool.and_eq_true, decide_eq_true_eq, beq_iff_eq] at *
  omega

theorem before_total (a b : Edit) : (before a b || before b a) = true := by
  simp only [before, Bool.or_eq_true, Bool.and_eq_true, decide_eq_true_eq, beq_iff_eq]
  omega

theorem start_le_start_of_before (h : before a b = true) : a.start ≤ b.start := by
  simp only [before, Bool.or_eq_true, Bool.and_eq_true, decide_eq_true_eq, beq_iff_eq] at h
  omega

theorem mergeSort_sorted (es : List Edit) :
    (es.mergeSort before).Pairwise fun a b => before a b = true :=
  pairwise_mergeSort before_trans before_total es

/-- Of two ranges apart from each other, the one sorted first ends where the other starts. -/
theorem stop_le_start_of_before (hb : b.start ≤ b.stop)
    (hapart : a.Apart b) (h : before a b = true) : a.stop ≤ b.start := by
  simp only [before, Bool.or_eq_true, Bool.and_eq_true, decide_eq_true_eq, beq_iff_eq] at h
  rcases hapart with hapart | hapart <;> omega

/-- Ranges apart from each other stand one after the other once they are sorted. -/
theorem mergeSort_stop_le_start (hle : ∀ e ∈ es, e.start ≤ e.stop)
    (hapart : es.Pairwise Edit.Apart) :
    (es.mergeSort before).Pairwise fun a b => a.stop ≤ b.start := by
  have hperm := mergeSort_perm es before
  have happ : (es.mergeSort before).Pairwise Edit.Apart := hapart.perm hperm.symm Or.symm
  refine ((mergeSort_sorted es).and happ).imp_of_mem ?_
  rintro a b - hb ⟨hbefore, hab⟩
  exact stop_le_start_of_before (hle b (hperm.mem_iff.1 hb)) hab hbefore

/-- Two edits that sort alike have one range. -/
theorem range_eq_of_before (hab : before a b = true) (hba : before b a = true) :
    a.start = b.start ∧ a.stop = b.stop := by
  simp only [before, Bool.or_eq_true, Bool.and_eq_true, decide_eq_true_eq, beq_iff_eq] at hab hba
  omega

/-- Sorting forgets the order of a list in which every edit has a range of its own. -/
theorem mergeSort_eq_of_perm {es' : List Edit}
    (hrange : ∀ a ∈ es, ∀ b ∈ es, a.start = b.start → a.stop = b.stop → a = b)
    (hperm : es'.Perm es) : es'.mergeSort before = es.mergeSort before := by
  have hsorted' := (mergeSort_perm es' before).trans hperm
  have hsorted := mergeSort_perm es before
  refine List.Perm.eq_of_pairwise ?_ (mergeSort_sorted es') (mergeSort_sorted es)
    (hsorted'.trans hsorted.symm)
  intro a b ha hb hab hba
  have ⟨hstart, hstop⟩ := range_eq_of_before hab hba
  exact hrange a (hsorted'.mem_iff.1 ha) b (hsorted.mem_iff.1 hb) hstart hstop

/-- Where replaced ranges are apart from each other, insertions do not make the guard drop one. -/
theorem mem_kept_mergeSort {added : List Edit} (hcalls : ∀ e ∈ calls, e.start < e.stop)
    (hapart : calls.Pairwise Edit.Apart) (hadded : ∀ e ∈ added, e.start = e.stop) :
    ∀ e ∈ calls, e ∈ kept 0 ((calls ++ added).mergeSort before) := by
  have hperm := mergeSort_perm (calls ++ added) before
  have hapart : (calls ++ added).Pairwise
      fun a b => a.start < a.stop → b.start < b.stop → a.Apart b := by
    refine pairwise_append.2 ⟨hapart.imp fun h _ _ => h, ?_, fun a _ b hb _ hne => ?_⟩
    · exact pairwise_of_forall_mem_list fun a ha b _ hne _ => absurd (hadded a ha) hne.ne
    · exact absurd (hadded b hb) hne.ne
  have hsorted := (mergeSort_sorted (calls ++ added)).and
    (hapart.perm hperm.symm fun h ha hb => (h hb ha).symm)
  refine fun e he => mem_kept (P := fun e => e.start < e.stop) (hsorted.imp_of_mem ?_)
    (fun _ _ _ => Nat.zero_le _) e (hperm.mem_iff.2 (mem_append_left added he)) (hcalls e he)
  rintro a b ha - ⟨hbefore, hab⟩ hb
  rcases mem_append.1 (hperm.mem_iff.1 ha) with ha | ha
  · exact stop_le_start_of_before hb.le (hab (hcalls a ha) hb) hbefore
  · exact hadded a ha ▸ start_le_start_of_before hbefore

/-! ### What the pass makes of a text -/

/-- What edits in the order of their ranges make of the text from a byte on: what stands before
a range is copied, the range is replaced, and so on after it. -/
inductive Edited : Nat → List Char → List Edit → List Char → Prop
  | done {n : Nat} {cs : List Char} : Edited n cs [] cs
  | edit {n : Nat} {e : Edit} {es : List Edit} {gap old rest out : List Char} :
      n + utf8Len gap = e.start → e.start + utf8Len old = e.stop → Edited e.stop rest es out →
      Edited n (gap ++ old ++ rest) (e :: es) (gap ++ e.text.toList ++ out)

theorem edited_applySorted (front rest : List Char) (hes : es.Pairwise fun a b => a.stop ≤ b.start)
    (hle : ∀ e ∈ es, e.start ≤ e.stop) (hfront : ∀ e ∈ es, utf8Len front ≤ e.start)
    (hstart : ∀ e ∈ es, IsBoundary (front ++ rest) e.start)
    (hstop : ∀ e ∈ es, IsBoundary (front ++ rest) e.stop) :
    Edited (utf8Len front) rest es (applySorted (utf8Len front) rest es) := by
  induction es generalizing front rest with
  | nil => exact .done
  | cons e es ih =>
    have ⟨hhead, htail⟩ := pairwise_cons.1 hes
    have he := hle e (.head _)
    obtain ⟨gap, back, rfl, hgap⟩ :=
      (hstart e (.head _)).split (hfront e (.head _))
    have hback := hstop e (.head _)
    rw [← append_assoc] at hback
    obtain ⟨old, back, rfl, hold⟩ := hback.split (by omega)
    -- the pass goes on after the range, with the same boundaries
    have hwhole : front ++ gap ++ old ++ back = front ++ (gap ++ (old ++ back)) := by
      simp only [append_assoc]
    have hrest := ih (front ++ gap ++ old) back htail
      (fun e' he' => hle e' (mem_cons_of_mem e he')) (fun e' he' => by
        rw [hold]
        exact hhead e' he')
      (fun e' he' => hwhole ▸ hstart e' (mem_cons_of_mem e he'))
      (fun e' he' => hwhole ▸ hstop e' (mem_cons_of_mem e he'))
    rw [hold] at hrest
    rw [String.utf8Len_append] at hgap hold
    have hfirst : e.start - utf8Len front = utf8Len gap := by omega
    have hboth : e.stop - utf8Len front = utf8Len (gap ++ old) := by
      rw [String.utf8Len_append] at hold ⊢
      omega
    rw [applySorted, if_neg (by omega), hfirst, takeBytes_utf8Len, hboth, ← append_assoc,
      dropBytes_utf8Len]
    exact .edit hgap (by rw [← hold, String.utf8Len_append]; omega) hrest

theorem edited_apply (source : String) (hle : ∀ e ∈ es, e.start ≤ e.stop)
    (hapart : es.Pairwise Edit.Apart) (hstart : ∀ e ∈ es, IsBoundary source.toList e.start)
    (hstop : ∀ e ∈ es, IsBoundary source.toList e.stop) :
    Edited 0 source.toList (es.mergeSort before) (apply source es).toList := by
  have hmem : ∀ {e : Edit}, e ∈ es.mergeSort before → e ∈ es :=
    (mergeSort_perm es before).mem_iff.1
  rw [apply, String.toList_ofList]
  exact edited_applySorted [] _ (mergeSort_stop_le_start hle hapart)
    (fun e he => hle e (hmem he)) (fun e _ => Nat.zero_le e.start)
    (fun e he => hstart e (hmem he)) (fun e he => hstop e (hmem he))

/-! ### Replaced calls and their import -/

/-- Replacements of ranges of a text that hold characters and are apart from each other. -/
structure Ranges (cs : List Char) (calls : List Edit) : Prop where
  nonempty : ∀ e ∈ calls, e.start < e.stop
  start : ∀ e ∈ calls, IsBoundary cs e.start
  stop : ∀ e ∈ calls, IsBoundary cs e.stop
  apart : calls.Pairwise Edit.Apart

/-- The text that puts a statement on a line of its own after what stands before it. -/
def lineText (front : List Char) (statement : String) : String :=
  if front = [] ∨ front.getLast? = some '\n' then statement ++ "\n" else "\n" ++ statement

/-- The edits that adding an import takes: one insertion, unless the unit has the import. -/
inductive Added (cs : List Char) : Option (RuntimeImport × String) → List Edit → Prop
  | none : Added cs none []
  | existing (name statement : String) : Added cs (some (.existing name, statement)) []
  | insert (name statement : String) {front back : List Char} : cs = front ++ back →
      Added cs (some (.insert name (utf8Len front), statement))
        [⟨utf8Len front, utf8Len front, lineText front statement⟩]

/-- An import that is added stands between two characters, and inside none of the ranges. -/
def Inserts (cs : List Char) (calls : List Edit) (imported : Option (RuntimeImport × String)) : Prop :=
  ∀ name offset statement, imported = some (.insert name offset, statement) →
    IsBoundary cs offset ∧ ∀ e ∈ calls, ¬ (e.start < offset ∧ offset < e.stop)

variable {source : String} {imported : Option (RuntimeImport × String)} {added : List Edit}

theorem importEdit_eq (statement : String) {front back : List Char}
    (h : source.toList = front ++ back) :
    importEdit source statement (utf8Len front) =
      ⟨utf8Len front, utf8Len front, lineText front statement⟩ := by
  have hempty : utf8Len front = 0 ↔ front = [] := String.utf8Len_eq_zero
  simp only [importEdit, h, takeBytes_utf8Len, lineText, Bool.or_eq_true, beq_iff_eq, hempty]

/-- The edits that an import adds to the replacements. -/
def insertion (source : String) : Option (RuntimeImport × String) → List Edit
  | some (.insert _ offset, statement) => [importEdit source statement offset]
  | _ => []

theorem start_eq_stop_of_mem_insertion : ∀ e ∈ insertion source imported, e.start = e.stop := by
  intro e he
  unfold insertion at he
  split at he
  · rw [mem_singleton.1 he]
    rfl
  · cases he

theorem replaceCalls_of_ne_nil (source : String) (imported : Option (RuntimeImport × String))
    (hcalls : calls ≠ []) :
    replaceCalls source calls imported = apply source (calls ++ insertion source imported) := by
  have hempty : calls.isEmpty = false := by simpa using hcalls
  rcases imported with _ | ⟨_ | _, _⟩ <;> simp [replaceCalls, insertion, hempty]

theorem Added.insertion_eq (h : Added source.toList imported added) :
    insertion source imported = added := by
  cases h with
  | none => rfl
  | existing => rfl
  | insert name statement hsource => rw [insertion, importEdit_eq statement hsource]

theorem Inserts.exists_added (h : Inserts source.toList calls imported) :
    ∃ added, Added source.toList imported added := by
  match imported with
  | none => exact ⟨_, .none⟩
  | some (.existing name, statement) => exact ⟨_, .existing name statement⟩
  | some (.insert name offset, statement) =>
    obtain ⟨⟨front, back, hsource, rfl⟩, -⟩ := h name offset statement rfl
    exact ⟨_, .insert name statement hsource⟩

@[simp] theorem replaceCalls_nil (source : String) (imported : Option (RuntimeImport × String)) :
    replaceCalls source [] imported = source := rfl

theorem Added.start_eq_stop (h : Added cs imported added) : ∀ e ∈ added, e.start = e.stop := by
  cases h <;> simp

theorem Added.isBoundary (h : Added cs imported added) : ∀ e ∈ added, IsBoundary cs e.start := by
  cases h with
  | none => simp
  | existing => simp
  | @insert _ _ front back hcs => simpa using ⟨front, back, hcs, rfl⟩

theorem Added.eq_of_mem (h : Added cs imported added) (ha : a ∈ added) (hb : b ∈ added) : a = b := by
  cases h <;> simp_all

theorem Added.apart (h : Added cs imported added) (hinserts : Inserts cs calls imported) :
    ∀ a ∈ calls, ∀ b ∈ added, a.Apart b := by
  cases h with
  | none => simp
  | existing => simp
  | insert name statement =>
    intro a ha b hb
    have hout := (hinserts name _ statement rfl).2 a ha
    rw [mem_singleton.1 hb]
    unfold Edit.Apart
    dsimp only
    omega

/-- With the insertion of an import the edits are still apart from each other. -/
theorem Ranges.apart_append (h : Ranges cs calls) (hinserts : Inserts cs calls imported)
    (hadded : Added cs imported added) : (calls ++ added).Pairwise Edit.Apart := by
  refine pairwise_append.2 ⟨h.apart, ?_, hadded.apart hinserts⟩
  cases hadded <;> simp

theorem Ranges.start_le_stop (h : Ranges cs calls) (hadded : Added cs imported added) :
    ∀ e ∈ calls ++ added, e.start ≤ e.stop := by
  intro e he
  rcases mem_append.1 he with he | he
  · exact (h.nonempty e he).le
  · exact (hadded.start_eq_stop e he).le

/-- Every edit has a range of its own: replaced ranges are apart from each other, and the only
empty range is that of the import. -/
theorem Ranges.eq_of_range_eq (h : Ranges cs calls) (hadded : Added cs imported added) :
    ∀ a ∈ calls ++ added, ∀ b ∈ calls ++ added, a.start = b.start → a.stop = b.stop → a = b := by
  intro a ha b hb hstart hstop
  rcases mem_append.1 ha with ha | ha <;> rcases mem_append.1 hb with hb | hb
  · by_contra hne
    have hnonempty := h.nonempty a ha
    rcases h.apart.forall ha hb hne with happ | happ <;> omega
  · have := h.nonempty a ha
    have := hadded.start_eq_stop b hb
    omega
  · have := h.nonempty b hb
    have := hadded.start_eq_stop a ha
    omega
  · exact hadded.eq_of_mem ha hb

/-- **Splicing changes only the edited ranges.** Without replacements the source stays as it is,
even where an import is given. Otherwise the guard lets all edits pass; each range is replaced by
its text, the import stands on a line of its own at its offset, and the rest of the source is
copied. The order in which the replacements are given does not matter. -/
theorem replaceCalls_edits_exactly (hcalls : Ranges source.toList calls)
    (himport : Inserts source.toList calls imported) :
    replaceCalls source [] imported = source ∧
    (calls ≠ [] → ∃ added sorted, Added source.toList imported added ∧
      sorted = (calls ++ added).mergeSort before ∧ sorted.Perm (calls ++ added) ∧
      kept 0 sorted = sorted ∧
      Edited 0 source.toList sorted (replaceCalls source calls imported).toList) ∧
    ∀ calls', calls'.Perm calls →
      replaceCalls source calls' imported = replaceCalls source calls imported := by
  obtain ⟨added, hadded⟩ := himport.exists_added
  have hle := hcalls.start_le_stop hadded
  have happart := hcalls.apart_append himport hadded
  refine ⟨replaceCalls_nil source imported, fun hne => ⟨added, _, hadded, rfl,
    mergeSort_perm _ before, kept_eq_self (mergeSort_stop_le_start hle happart) (by simp), ?_⟩,
    fun calls' hperm => ?_⟩
  · rw [replaceCalls_of_ne_nil source imported hne, hadded.insertion_eq]
    refine edited_apply source hle happart (fun e he => ?_) fun e he => ?_
    · rcases mem_append.1 he with he | he
      · exact hcalls.start e he
      · exact hadded.isBoundary e he
    · rcases mem_append.1 he with he | he
      · exact hcalls.stop e he
      · exact hadded.start_eq_stop e he ▸ hadded.isBoundary e he
  · by_cases hne : calls = []
    · subst hne
      rw [hperm.eq_nil]
    · have hne' : calls' ≠ [] := fun hnil => hne (hnil ▸ hperm).nil_eq.symm
      rw [replaceCalls_of_ne_nil source imported hne, replaceCalls_of_ne_nil source imported hne',
        hadded.insertion_eq, apply, apply,
        mergeSort_eq_of_perm (hcalls.eq_of_range_eq hadded) (hperm.append_right added)]

theorem replaceCalls_edits_exactly_adjacent :
    let source := "'é';\nf(1)g(2)"
    let calls : List Edit := [⟨10, 14, "y"⟩, ⟨6, 10, "x"⟩]
    let imported := some (RuntimeImport.insert "css" 10, "import css;")
    Ranges source.toList calls ∧ Inserts source.toList calls imported ∧
      (∃ added sorted, Added source.toList imported added ∧
        sorted = (calls ++ added).mergeSort before ∧ kept 0 sorted = sorted ∧
        Edited 0 source.toList sorted "'é';\nx\nimport css;y".toList) ∧
      replaceCalls source calls.reverse imported = "'é';\nx\nimport css;y" := by
  intro source calls imported
  have hcalls : Ranges source.toList calls :=
    ⟨by decide, by decide +kernel, by decide +kernel, by simp [calls, Edit.Apart]⟩
  have himport : Inserts source.toList calls imported := by
    rintro name offset statement h
    obtain ⟨⟨rfl, rfl⟩, rfl⟩ : (name = "css" ∧ offset = 10) ∧ statement = "import css;" := by
      simpa [imported, eq_comm] using h
    exact ⟨by decide +kernel, by decide⟩
  have hedit : importEdit source "import css;" 10 = ⟨10, 10, "\nimport css;"⟩ := by decide +kernel
  have hsorted : List.mergeSort [⟨10, 14, "y"⟩, ⟨6, 10, "x"⟩, ⟨10, 10, "\nimport css;"⟩] before =
      [⟨6, 10, "x"⟩, ⟨10, 10, "\nimport css;"⟩, ⟨10, 14, "y"⟩] := by cbv
  have htext : replaceCalls source calls imported = "'é';\nx\nimport css;y" := by
    rw [← String.toList_inj]
    show (apply source (calls ++ [importEdit source "import css;" 10])).toList = _
    rw [apply, hedit, cons_append, cons_append, nil_append, hsorted,
      String.toList_ofList]
    decide +kernel
  obtain ⟨-, hedited, hperm⟩ := replaceCalls_edits_exactly hcalls himport
  obtain ⟨added, sorted, hadded, hsorted, -, hkept, hout⟩ := hedited (by decide)
  exact ⟨hcalls, himport, ⟨added, sorted, hadded, hsorted, hkept, htext ▸ hout⟩,
    (hperm calls.reverse (List.reverse_perm calls)).trans htext⟩

end Splice
end AtomicStyles
