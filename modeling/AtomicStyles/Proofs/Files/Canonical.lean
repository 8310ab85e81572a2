import Mathlib
import AtomicStyles.Files.Loader

/-!
# Paths below the root

An absolute text reads as the root and steps below it, and these are written so that they read
the same again. Normalizing takes the parent steps out of what it is given, but not out of the
directory that it starts from.

## Main definitions

* `Path.IsName`, `Path.IsStep` — what can stand between two separators.
* `Path.Legible` — paths as a text is read.

## Main results

* `Path.ofText_text_of_legible` — a legible path is read as it was written.
* `Path.normalize_below` — normalizing against a path below the root stays below it.
* `Path.normalize_absolute` — an absolute path is left without parent steps.
* `Path.normalize_of_names` — names below the root stay as they are.
-/

namespace AtomicStyles
namespace Path

open List

/-- A name as it stands between two separators. -/
structure IsName (s : String) : Prop where
  ne_empty : s ≠ ""
  ne_here : s ≠ "."
  ne_up : s ≠ ".."
  not_mem : '/' ∉ s.toList

/-- A step below the root: to the parent, or to a name. -/
def IsStep : Component → Prop
  | .up => True
  | .name s => IsName s
  | _ => False

@[simp] theorem isStep_up : IsStep .up := trivial

@[simp] theorem isStep_name {s : String} : IsStep (.name s) ↔ IsName s := Iff.rfl

/-- A path as a text is read: steps, before which the root or the current directory may stand. -/
def Legible : Path → Prop
  | [] => True
  | c :: cs => (c = .root ∨ c = .here ∨ IsStep c) ∧ ∀ d ∈ cs, IsStep d

namespace Legible

variable {p : Path}

theorem of_steps (h : ∀ c ∈ p, IsStep c) : Legible p := by
  cases p with
  | nil => trivial
  | cons c cs => exact ⟨.inr (.inr (h c (.head _))), fun d hd => h d (.tail _ hd)⟩

theorem concat (h : Legible p) {c : Component} (hc : IsStep c) : Legible (p ++ [c]) := by
  cases p with
  | nil => exact ⟨.inr (.inr hc), by simp⟩
  | cons d ds => exact ⟨h.1, forall_mem_append.2 ⟨h.2, by simpa using hc⟩⟩

theorem initial {q : Path} (h : Legible p) (hq : q <+: p) : Legible q := by
  obtain ⟨r, rfl⟩ := hq
  cases q with
  | nil => trivial
  | cons d ds => exact ⟨h.1, fun e he => h.2 e (mem_append_left _ he)⟩

/-- If it is absolute, it is the root with steps below it. -/
theorem exists_eq_root (h : Legible p) (habsolute : p.isAbsolute) :
    ∃ body, p = .root :: body ∧ ∀ c ∈ body, IsStep c := by
  obtain ⟨cs, rfl⟩ := head?_eq_some_iff.1 (eq_of_beq habsolute)
  exact ⟨cs, rfl, h.2⟩

theorem mem (h : Legible p) (hrelative : p.isAbsolute = false) {c : Component} (hc : c ∈ p) :
    c = .here ∨ IsStep c := by
  cases p with
  | nil => cases hc
  | cons d ds =>
    rcases mem_cons.1 hc with rfl | hc
    · refine h.1.resolve_left ?_
      rintro rfl
      simp [isAbsolute] at hrelative
    · exact .inr (h.2 c hc)

end Legible

/-! ### Pieces between separators -/

theorem pieces_ne_nil (cs : List Char) : pieces cs ≠ [] := by
  cases cs with
  | nil => simp [pieces]
  | cons c cs =>
    rw [pieces]
    split
    · simp
    · split <;> simp

theorem pieces_separator (cs : List Char) : pieces ('/' :: cs) = [] :: pieces cs := by
  obtain ⟨p, ps, hps⟩ := exists_cons_of_ne_nil (pieces_ne_nil cs)
  simp [pieces, hps]

/-- Any other character stands in the first piece. -/
theorem pieces_cons {c : Char} (h : c ≠ '/') {cs p : List Char} {ps : List (List Char)}
    (hps : pieces cs = p :: ps) : pieces (c :: cs) = (c :: p) :: ps := by
  simp [pieces, hps, h]

/-- A separator divides the pieces of a text. -/
theorem pieces_append (xs ys : List Char) : pieces (xs ++ '/' :: ys) = pieces xs ++ pieces ys := by
  induction xs with
  | nil => exact pieces_separator ys
  | cons c xs ih =>
    by_cases hc : c = '/'
    · rw [hc, cons_append, pieces_separator, pieces_separator, ih, cons_append]
    · obtain ⟨p, ps, hps⟩ := exists_cons_of_ne_nil (pieces_ne_nil xs)
      have happend : pieces (xs ++ '/' :: ys) = p :: (ps ++ pieces ys) := by
        rw [ih, hps, cons_append]
      rw [cons_append, pieces_cons hc happend, pieces_cons hc hps, cons_append]

theorem pieces_eq_singleton {a : List Char} (h : '/' ∉ a) : pieces a = [a] := by
  induction a with
  | nil => rfl
  | cons c a ih =>
    rw [mem_cons, not_or] at h
    exact pieces_cons (Ne.symm h.1) (ih h.2)

theorem not_mem_of_mem_pieces {cs p : List Char} (h : p ∈ pieces cs) : '/' ∉ p := by
  induction cs generalizing p with
  | nil =>
    rw [pieces, mem_singleton] at h
    simp [h]
  | cons c cs ih =>
    by_cases hc : c = '/'
    · rw [hc, pieces_separator, mem_cons] at h
      rcases h with rfl | h
      · simp
      · exact ih h
    · obtain ⟨q, qs, hqs⟩ := exists_cons_of_ne_nil (pieces_ne_nil cs)
      rw [pieces_cons hc hqs, mem_cons] at h
      rw [hqs] at ih
      rcases h with rfl | h
      · have hq : '/' ∉ q := ih (.head _)
        simp [hq, Ne.symm hc]
      · exact ih (.tail _ h)

/-- The texts between the separators of a text. -/
def between (s : String) : List String := (pieces s.toList).map String.ofList

theorem between_ne_nil (s : String) : between s ≠ [] := by
  simp [between, pieces_ne_nil]

theorem between_append (a b : String) : between (a ++ "/" ++ b) = between a ++ between b := by
  have hchars : (a ++ "/" ++ b).toList = a.toList ++ '/' :: b.toList := by
    simp [String.toList_append]
  rw [between, hchars, pieces_append, map_append, between, between]

variable {s p : String} {ps : List String} {c : Component}

theorem not_mem_of_mem_between (h : p ∈ between s) : '/' ∉ p.toList := by
  obtain ⟨q, hq, rfl⟩ := mem_map.1 h
  rw [String.toList_ofList]
  exact not_mem_of_mem_pieces hq

theorem ne_nil_of_between (hs : s ≠ "") (h : between s = p :: ps) (hp : p = "") : ps ≠ [] := by
  rintro rfl
  obtain ⟨q, hq, hempty⟩ := map_eq_singleton_iff.1 h
  have hnil : q = [] := by simpa [hp] using congrArg String.toList hempty
  cases hchars : s.toList with
  | nil => exact hs (by simpa using hchars)
  | cons c cs =>
    -- a first character is the separator, or stands in the first piece
    obtain ⟨r, rs, hrs⟩ := exists_cons_of_ne_nil (pieces_ne_nil cs)
    rw [hchars, hnil] at hq
    by_cases hc : c = '/'
    · simp [hc, pieces_separator, hrs] at hq
    · simp [pieces_cons hc hrs] at hq

/-! ### Reading a text -/

theorem isStep_of_mem_inner {piece : String} (h : '/' ∉ piece.toList) (hc : c ∈ inner piece) :
    IsStep c := by
  unfold inner at hc
  split at hc
  · cases hc
  · rename_i hne
    split at hc
    · rw [mem_singleton.1 hc]
      exact isStep_up
    · rename_i hup
      rw [mem_singleton.1 hc]
      simp only [Bool.or_eq_true, decide_eq_true_eq, not_or] at hne
      exact ⟨hne.1, hne.2, hup, h⟩

theorem isStep_of_mem_flatMap_inner (h : ∀ p ∈ ps, '/' ∉ p.toList) (hc : c ∈ ps.flatMap inner) :
    IsStep c := by
  obtain ⟨p, hp, hc⟩ := mem_flatMap.1 hc
  exact isStep_of_mem_inner (h p hp) hc

/-- What the first piece of a text stands for. -/
def leading (piece : String) : Path :=
  if piece = "" then [.root] else if piece = "." then [.here] else inner piece

/-- A text that is not empty is read piece by piece. -/
theorem ofText_of_between (h : between s = p :: ps) (hne : p = "" → ps ≠ []) :
    ofText s = leading p ++ ps.flatMap inner := by
  rw [between] at h
  unfold ofText
  rw [h]
  split
  · rename_i heq
    cases heq
    rfl
  · rename_i hroot
    have hp : p ≠ "" := by
      intro hp
      obtain ⟨q, qs, rfl⟩ := exists_cons_of_ne_nil (hne hp)
      exact hroot q qs (by rw [hp])
    rw [relative, leading, if_neg hp]

theorem legible_ofText (s : String) : Legible (ofText s) := by
  by_cases hs : s = ""
  · rw [hs]
    exact trivial
  · obtain ⟨p, ps, hps⟩ := exists_cons_of_ne_nil (between_ne_nil s)
    have hpieces : ∀ q ∈ p :: ps, '/' ∉ q.toList := fun q hq =>
      not_mem_of_mem_between (hps ▸ hq)
    have hrest : ∀ c ∈ ps.flatMap inner, IsStep c := fun c hc =>
      isStep_of_mem_flatMap_inner (fun q hq => hpieces q (.tail _ hq)) hc
    rw [ofText_of_between hps (ne_nil_of_between hs hps), leading]
    split
    · exact ⟨.inl rfl, hrest⟩
    · split
      · exact ⟨.inr (.inl rfl), hrest⟩
      · refine .of_steps (forall_mem_append.2 ⟨fun c hc => ?_, hrest⟩)
        exact isStep_of_mem_inner (hpieces p (.head _)) hc

/-- An absolute text is the root with steps below it. -/
theorem exists_ofText_eq (h : (ofText s).isAbsolute) :
    ∃ body, ofText s = .root :: body ∧ ∀ c ∈ body, IsStep c := (legible_ofText s).exists_eq_root h

theorem mem_ofText (h : (ofText s).isAbsolute = false) (hc : c ∈ ofText s) :
    c = .here ∨ IsStep c := (legible_ofText s).mem h hc

/-! ### Writing a path -/

theorem inner_componentText (h : IsStep c) : inner (componentText c) = [c] := by
  cases c with
  | up => decide
  | name s => simp [inner, componentText, h.ne_empty, h.ne_here, h.ne_up]
  | root => cases h
  | here => cases h

theorem not_mem_componentText (h : IsStep c) : '/' ∉ (componentText c).toList := by
  cases c with
  | up => decide
  | name s => exact h.not_mem
  | root => cases h
  | here => cases h

/-- The pieces of steps that are written after one another are the texts of the steps. -/
theorem between_joinText {cs : Path} (h : ∀ d ∈ c :: cs, IsStep d) :
    between (joinText (c :: cs)) = componentText c :: cs.map componentText := by
  have hc : between (componentText c) = [componentText c] := by
    rw [between, pieces_eq_singleton (not_mem_componentText (h c (.head _)))]
    simp
  induction cs generalizing c with
  | nil => exact hc
  | cons d ds ih =>
    have htext : joinText (c :: d :: ds) = componentText c ++ "/" ++ joinText (d :: ds) := by
      rw [joinText]
      simp
    have hd : between (componentText d) = [componentText d] := by
      rw [between, pieces_eq_singleton (not_mem_componentText (h d (by simp)))]
      simp
    rw [htext, between_append, hc, ih (fun e he => h e (.tail _ he)) hd]
    rfl

theorem flatMap_inner_componentText {cs : Path} (h : ∀ d ∈ cs, IsStep d) :
    (cs.map componentText).flatMap inner = cs := by
  have hsingle : ∀ d ∈ cs, inner (componentText d) = [d] := fun d hd =>
    inner_componentText (h d hd)
  rw [flatMap_map, flatMap_congr hsingle, flatMap_singleton']

/-- After a separator steps are read as they were written. -/
theorem ofText_append_joinText {a : String} (ha : between a = [a]) {body : Path}
    (h : ∀ c ∈ body, IsStep c) : ofText (a ++ "/" ++ joinText body) = leading a ++ body := by
  have hbetween : between (a ++ "/" ++ joinText body) = a :: between (joinText body) := by
    rw [between_append, ha]
    rfl
  have hbody : (between (joinText body)).flatMap inner = body := by
    cases body with
    | nil => decide
    | cons c cs => exact between_joinText h ▸ flatMap_inner_componentText h
  rw [ofText_of_between hbetween fun _ => between_ne_nil _, hbody]

theorem ofText_text_of_legible {p : Path} (h : Legible p) : ofText (text p) = p := by
  have hsteps {c : Component} {cs : Path} (hc : IsStep c) (hcs : ∀ d ∈ cs, IsStep d)
      (hleading : leading (componentText c) = [c]) : ofText (joinText (c :: cs)) = c :: cs := by
    have hne : componentText c ≠ "" := by
      intro hempty
      rw [hempty] at hleading
      cases hleading
      exact hc
    have hall : ∀ d ∈ c :: cs, IsStep d := forall_mem_cons.2 ⟨hc, hcs⟩
    rw [ofText_of_between (between_joinText hall) fun h => absurd h hne, hleading,
      flatMap_inner_componentText hcs]
    rfl
  cases p with
  | nil => rfl
  | cons c cs =>
    obtain ⟨hc, hcs⟩ := h
    cases c with
    | root =>
      have htext : text (.root :: cs) = "" ++ "/" ++ joinText cs := by
        rw [String.empty_append, text]
      rw [htext, ofText_append_joinText rfl hcs]
      rfl
    | here =>
      cases cs with
      | nil => decide
      | cons d ds =>
        have htext : text (.here :: d :: ds) = "." ++ "/" ++ joinText (d :: ds) := rfl
        rw [htext, ofText_append_joinText rfl hcs]
        rfl
    | up => exact hsteps trivial hcs rfl
    | name s =>
      have hs : IsName s := by simpa using hc
      refine hsteps hs hcs ?_
      rw [leading, componentText, if_neg hs.ne_empty, if_neg hs.ne_here]
      exact inner_componentText (c := .name s) hs

/-- A path below the root is read as it was written. -/
theorem ofText_text {body : Path} (h : ∀ c ∈ body, IsStep c) :
    ofText (text (.root :: body)) = .root :: body :=
  ofText_text_of_legible ⟨.inl rfl, h⟩

/-! ### Normalizing

The components so far stand last first, so that the root stands at the end of them. -/

section

variable {P : Component → Prop} (hname : ∀ s, IsName s → P (.name s))

include hname

theorem step_below {xs : Path} (hxs : ∀ c ∈ xs, P c) {c : Component} (hc : c = .here ∨ IsStep c) :
    ∃ ys, step (xs ++ [.root]) c = ys ++ [.root] ∧ ∀ d ∈ ys, P d := by
  cases c with
  | root => simp [IsStep] at hc
  | here => exact ⟨xs, rfl, hxs⟩
  | name s =>
    have hs : IsName s := by simpa using hc
    exact ⟨.name s :: xs, rfl, forall_mem_cons.2 ⟨hname s hs, hxs⟩⟩
  | up =>
    cases xs with
    | nil => exact ⟨[], rfl, hxs⟩
    | cons x xs =>
      cases x with
      | root => exact ⟨.root :: xs, rfl, hxs⟩
      | _ => exact ⟨xs, rfl, fun d hd => hxs d (.tail _ hd)⟩

theorem foldl_step_below {path : Path} (hpath : ∀ c ∈ path, c = .here ∨ IsStep c) {xs : Path}
    (hxs : ∀ c ∈ xs, P c) :
    ∃ ys, path.foldl step (xs ++ [.root]) = ys ++ [.root] ∧ ∀ d ∈ ys, P d := by
  induction path generalizing xs with
  | nil => exact ⟨xs, rfl, hxs⟩
  | cons c path ih =>
    obtain ⟨ys, hys, hP⟩ := step_below hname hxs (hpath c (.head _))
    rw [foldl_cons, hys]
    exact ih (fun d hd => hpath d (.tail _ hd)) hP

/-- Normalizing against a path below the root stays below it, and adds nothing but names. -/
theorem normalize_below {body : Path} (hbody : ∀ c ∈ body, P c) {path : Path}
    (habsolute : path.isAbsolute = false) (hpath : ∀ c ∈ path, c = .here ∨ IsStep c) :
    ∃ zs, normalize (.root :: body) path = .root :: zs ∧ ∀ c ∈ zs, P c := by
  have hreverse : ∀ c ∈ body.reverse, P c := fun c hc => hbody c (mem_reverse.1 hc)
  obtain ⟨ys, hys, hP⟩ := foldl_step_below hname hpath hreverse
  refine ⟨ys.reverse, ?_, fun c hc => hP c (mem_reverse.1 hc)⟩
  rw [normalize, habsolute, if_neg Bool.false_ne_true, reverse_cons, hys, reverse_append]
  rfl

end

/-- An absolute path is left without parent steps, wherever it is looked at from. -/
theorem normalize_absolute (cwd : Path) {body : Path} (h : ∀ c ∈ body, IsStep c) :
    ∃ zs, normalize cwd (.root :: body) = .root :: zs ∧ ∀ c ∈ zs, IsStep c ∧ c ≠ .up := by
  have hname (s : String) (hs : IsName s) : IsStep (.name s) ∧ Component.name s ≠ .up :=
    ⟨hs, Component.noConfusion⟩
  have hnone : ∀ c ∈ ([] : Path), IsStep c ∧ c ≠ .up := by simp
  obtain ⟨ys, hys, hP⟩ := foldl_step_below (P := fun c => IsStep c ∧ c ≠ .up) hname
    (fun c hc => .inr (h c hc)) hnone
  refine ⟨ys.reverse, ?_, fun c hc => hP c (mem_reverse.1 hc)⟩
  have hfold : (Component.root :: body).foldl step [] = ys ++ [.root] := hys
  rw [normalize, isAbsolute, head?_cons, beq_self_eq_true, if_pos rfl, hfold,
    reverse_append]
  rfl

theorem normalize_of_names (cwd : Path) {body : Path} (h : ∀ c ∈ body, IsStep c ∧ c ≠ .up) :
    normalize cwd (.root :: body) = .root :: body := by
  have hfold (acc : Path) : body.foldl step acc = body.reverse ++ acc := by
    induction body generalizing acc with
    | nil => rfl
    | cons c body ih =>
      have hstep : step acc c = c :: acc := by
        have hc := h c (.head _)
        cases c with
        | name s => rfl
        | up => exact absurd rfl hc.2
        | root => exact hc.1.elim
        | here => exact hc.1.elim
      rw [foldl_cons, hstep, ih fun d hd => h d (.tail _ hd)]
      simp
  have hroot : (Component.root :: body).foldl step [] = body.reverse ++ [.root] := hfold [.root]
  rw [normalize, isAbsolute, head?_cons, beq_self_eq_true, if_pos rfl, hroot]
  simp

end Path
end AtomicStyles
