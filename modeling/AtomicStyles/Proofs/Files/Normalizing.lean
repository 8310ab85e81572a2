import AtomicStyles.Proofs.Files.Canonical

/-!
# Normalizing texts

A path is normalized against a directory by reading both, resolving the steps of the path one by
one, and writing what is left. Whatever the two texts are, the result is written so that it is
read the same again. So normalizing goes on where it stopped: against a directory that was
normalized itself it gives the same as for the two paths joined.

## Main definitions

* `Path.normalized`, `Path.joined` — normalizing and joining texts.
* `Path.Settled` — an absolute path without `.` and `..`.

## Main results

* `Path.legible_normalize` — normalizing keeps paths legible.
* `Path.normalize_ofText_joined` — joined texts are resolved one after the other.
* `Path.normalized_composes` — **normalizing composes, and its results are settled.**
-/

namespace AtomicStyles
namespace Path

open List

/-! ### Legible results -/

/-- One step keeps a path legible. The components so far stand last first. -/
theorem legible_step {acc : Path} (h : Legible acc.reverse) {c : Component}
    (hc : c = .here ∨ IsStep c) : Legible (step acc c).reverse := by
  cases c with
  | root => simp [IsStep] at hc
  | here => exact h
  | name s =>
    have hs : IsStep (.name s) := by simpa using hc
    rw [step, reverse_cons]
    exact h.concat hs
  | up =>
    cases acc with
    | nil => trivial
    | cons d ds =>
      have hdrop : Legible ds.reverse := by
        rw [reverse_cons] at h
        exact h.initial (prefix_append _ _)
      cases d with
      | root => exact h
      | _ => exact hdrop

variable {path : Path} {b : String}

theorem legible_foldl_step (hpath : ∀ c ∈ path, c = .here ∨ IsStep c) {acc : Path}
    (h : Legible acc.reverse) : Legible (path.foldl step acc).reverse := by
  induction path generalizing acc with
  | nil => exact h
  | cons c path ih =>
    rw [forall_mem_cons] at hpath
    exact ih hpath.2 (legible_step h hpath.1)

theorem normalize_of_relative (cwd : Path) (h : path.isAbsolute = false) :
    normalize cwd path = (path.foldl step cwd.reverse).reverse := by
  rw [normalize, h, if_neg Bool.false_ne_true]

theorem legible_normalize {cwd : Path} (hcwd : Legible cwd) (hpath : Legible path) :
    Legible (normalize cwd path) := by
  cases habsolute : path.isAbsolute with
  | true =>
    obtain ⟨body, rfl, hbody⟩ := hpath.exists_eq_root habsolute
    obtain ⟨zs, hzs, hnames⟩ := normalize_absolute cwd hbody
    rw [hzs]
    exact ⟨.inl rfl, fun c hc => (hnames c hc).1⟩
  | false =>
    rw [normalize_of_relative cwd habsolute]
    exact legible_foldl_step (fun c hc => hpath.mem habsolute hc) (by simpa using hcwd)

/-- Normalizing goes on where it stopped. -/
theorem normalize_append (cwd p : Path) {q : Path} (hq : q.isAbsolute = false) :
    normalize cwd (p ++ q) = normalize (normalize cwd p) q := by
  have hstart : (p ++ q).foldl step (if (p ++ q).isAbsolute then [] else cwd.reverse) =
      q.foldl step (p.foldl step (if p.isAbsolute then [] else cwd.reverse)) := by
    rw [foldl_append]
    cases p with
    | nil =>
      rw [nil_append, hq]
      rfl
    | cons c cs => rfl
  rw [normalize, hstart, normalize_of_relative _ hq, normalize, reverse_reverse]

/-! ### Joined texts -/

/-- The text of a path in a directory: an absolute one stays as it is. -/
def joined (a b : String) : String :=
  if (ofText b).isAbsolute then b
  else if a = "" ∨ a.toList.getLast? = some '/' then a ++ b
  else a ++ "/" ++ b

/-- The current directory at the start of a path is passed over. -/
theorem foldl_step_ofText (hb : (ofText b).isAbsolute = false) (acc : Path) :
    (ofText b).foldl step acc = ((between b).flatMap inner).foldl step acc := by
  by_cases hempty : b = ""
  · rw [hempty]
    rfl
  · obtain ⟨p, ps, hps⟩ := exists_cons_of_ne_nil (between_ne_nil b)
    rw [ofText_of_between hps (ne_nil_of_between hempty hps), leading] at hb ⊢
    rw [hps, flatMap_cons, foldl_append, foldl_append]
    congr 1
    split
    · rename_i hp
      simp [hp, isAbsolute] at hb
    · split
      · rename_i hp
        rw [hp]
        rfl
      · rfl

/-- What a joined text is read as: the directory, and the pieces of the path after it. -/
theorem ofText_joined {a : String} (ha : a ≠ "") (hb : (ofText b).isAbsolute = false) :
    ofText (joined a b) = ofText a ++ (between b).flatMap inner := by
  have hrest (ps : List String) : ps ++ between b ≠ [] := by simp [between_ne_nil]
  rw [joined, hb, if_neg Bool.false_ne_true]
  by_cases hlast : a.toList.getLast? = some '/'
  · -- the last piece of the directory is empty
    rw [if_pos (.inr hlast)]
    obtain ⟨cs, hcs⟩ := getLast?_eq_some_iff.1 hlast
    have hsplit : a = String.ofList cs ++ "/" := by
      apply String.toList_inj.1
      rw [hcs]
      simp [String.toList_append]
    obtain ⟨p, ps, hps⟩ := exists_cons_of_ne_nil (between_ne_nil (String.ofList cs))
    have hjoined : between (a ++ b) = p :: (ps ++ between b) := by
      rw [hsplit, between_append, hps, cons_append]
    have hbetween : between a = p :: (ps ++ [""]) := by
      have happend := between_append (String.ofList cs) ""
      rw [String.append_empty, ← hsplit, hps] at happend
      exact happend
    rw [ofText_of_between hjoined fun _ => hrest ps, ofText_of_between hbetween (by simp),
      flatMap_append, flatMap_append]
    simp [inner]
  · rw [if_neg (by simp [ha, hlast])]
    obtain ⟨p, ps, hps⟩ := exists_cons_of_ne_nil (between_ne_nil a)
    have hjoined : between (a ++ "/" ++ b) = p :: (ps ++ between b) := by
      rw [between_append, hps, cons_append]
    rw [ofText_of_between hjoined fun _ => hrest ps, ofText_of_between hps (ne_nil_of_between ha hps),
      flatMap_append, append_assoc]

theorem normalize_ofText_joined (cwd : Path) (a : String) (hb : (ofText b).isAbsolute = false) :
    normalize cwd (ofText (joined a b)) = normalize (normalize cwd (ofText a)) (ofText b) := by
  by_cases ha : a = ""
  · have hjoined : joined a b = b := by simp [joined, hb, ha]
    have hempty : ofText a = [] := by rw [ha]; rfl
    rw [hjoined, hempty, ← normalize_append _ _ hb, nil_append]
  · have hpieces : isAbsolute ((between b).flatMap inner) = false := by
      cases hps : (between b).flatMap inner with
      | nil => rfl
      | cons c cs =>
        have hc : IsStep c := isStep_of_mem_flatMap_inner (fun p hp => not_mem_of_mem_between hp)
          (by rw [hps]; exact .head _)
        cases c with
        | root => exact hc.elim
        | _ => rfl
    rw [ofText_joined ha hb, normalize_append _ _ hpieces, normalize_of_relative _ hpieces,
      normalize_of_relative _ hb, foldl_step_ofText hb]

/-! ### Settled results -/

/-- A path that is absolute and free of `.` and `..`. -/
def Settled (p : Path) : Prop := ∃ body, p = .root :: body ∧ ∀ c ∈ body, IsStep c ∧ c ≠ .up

namespace Settled

variable {p : Path}

theorem isAbsolute (h : Settled p) : p.isAbsolute := by
  obtain ⟨body, rfl, -⟩ := h
  rfl

theorem not_mem (h : Settled p) : .here ∉ p ∧ .up ∉ p := by
  obtain ⟨body, rfl, hbody⟩ := h
  simp only [mem_cons, not_or]
  exact ⟨⟨Component.noConfusion, fun hmem => (hbody .here hmem).1⟩, Component.noConfusion,
    fun hmem => (hbody .up hmem).2 rfl⟩

theorem of_legible (h : Legible p) (habsolute : p.isAbsolute) (hup : .up ∉ p) : Settled p := by
  obtain ⟨body, rfl, hbody⟩ := h.exists_eq_root habsolute
  refine ⟨body, rfl, fun c hc => ⟨hbody c hc, ?_⟩⟩
  rintro rfl
  exact hup (.tail _ hc)

/-- What is resolved against a settled path is settled, and the root is never left. -/
theorem normalize {cwd : Path} (h : Settled cwd) (hp : Legible p) : Settled (normalize cwd p) := by
  cases habsolute : p.isAbsolute with
  | true =>
    obtain ⟨body, rfl, hbody⟩ := hp.exists_eq_root habsolute
    exact normalize_absolute cwd hbody
  | false =>
    obtain ⟨body, rfl, hbody⟩ := h
    exact normalize_below (P := fun c => IsStep c ∧ c ≠ .up)
      (fun _ hs => ⟨hs, Component.noConfusion⟩) hbody habsolute fun c hc => hp.mem habsolute hc

end Settled

/-! ### Normalizing texts -/

/-- The text of a path that is normalized against a directory. -/
def normalized (cwd path : String) : String := text (normalize (ofText cwd) (ofText path))

theorem ofText_normalized (cwd path : String) :
    ofText (normalized cwd path) = normalize (ofText cwd) (ofText path) :=
  ofText_text_of_legible (legible_normalize (legible_ofText cwd) (legible_ofText path))

/-- **Normalizing composes**, for all texts, and below a directory without parent steps **its results
are settled**: they are absolute and free of `.` and `..`, on the way to them the root is never left,
and no directory that they are looked at from changes them. -/
theorem normalized_composes :
    (∀ cwd a b : String, (ofText b).isAbsolute = false →
      normalized (normalized cwd a) b = normalized cwd (joined a b)) ∧
    ∀ cwd path : String, (ofText cwd).isAbsolute → .up ∉ ofText cwd →
      (ofText (normalized cwd path)).isAbsolute ∧
        .here ∉ ofText (normalized cwd path) ∧ .up ∉ ofText (normalized cwd path) ∧
        (∀ part, part <+: ofText path → (normalize (ofText cwd) part).isAbsolute) ∧
        ∀ dir, normalized dir (normalized cwd path) = normalized cwd path := by
  constructor
  · intro cwd a b hb
    rw [normalized, ofText_normalized, ← normalize_ofText_joined _ _ hb, normalized]
  · intro cwd path habsolute hup
    have hcwd : Settled (ofText cwd) := .of_legible (legible_ofText cwd) habsolute hup
    have hsettled : Settled (ofText (normalized cwd path)) := by
      rw [ofText_normalized]
      exact hcwd.normalize (legible_ofText path)
    refine ⟨hsettled.isAbsolute, hsettled.not_mem.1, hsettled.not_mem.2, ?_, ?_⟩
    · intro part hpart
      exact (hcwd.normalize ((legible_ofText path).initial hpart)).isAbsolute
    · intro dir
      obtain ⟨body, hbody, hnames⟩ := hsettled
      rw [normalized, hbody, normalize_of_names _ hnames, ← hbody, ofText_normalized, normalized]

theorem normalized_composes_relative :
    normalized (normalized "./lib/.." "../icons//") "./../red.ts" =
        normalized "./lib/.." (joined "../icons//" "./../red.ts") ∧
      normalized "." (normalized "/src" "./../../lib/./red.ts") = "/lib/red.ts" := by
  have hsettled := (normalized_composes.2 "/src" "./../../lib/./red.ts" (by decide +kernel)
    (by decide +kernel)).2.2.2.2 "."
  have htext : normalized "/src" "./../../lib/./red.ts" = "/lib/red.ts" := by decide +kernel
  exact ⟨normalized_composes.1 _ _ _ (by decide +kernel), hsettled.trans htext⟩

end Path
end AtomicStyles
