import AtomicStyles.Config
import AtomicStyles.Proofs.Files.Canonical

/-!
# One file, one module

A module is known by the path under which it was found. That path is the one of its file if no
parent step is left in it, so that a file is found under one path only. Parent steps of a
specifier are taken out, but those in the directory of the importer are not: from a module that
is itself known by a path with parent steps, a file is found under a second one.

## Main definitions

* `Loader.Straight` — an import that is not looked up beside parent steps.

## Main results

* `Loader.resolve_below` — what is found stands below the root.
* `Tree.text_resolve_iff` — a path is that of its file exactly if it holds no parent steps.
* `Loader.one_file_one_id` — **a file that straight imports find is one module.**
* `Loader.two_ids_of_one_file` — beside parent steps it becomes another one.
-/

namespace AtomicStyles

open AtomicStyles.Path List

/-! ### Candidates -/

namespace Path

/-- An extension makes a name of a step that it follows. -/
theorem IsStep.append {c : Component} (hc : IsStep c) {e : String} (he : IsName e) :
    IsName (componentText c ++ e) := by
  have hlength : 2 ≤ (componentText c ++ e).length := by
    have hpos : 1 ≤ e.length := Nat.pos_of_ne_zero (by simpa using he.ne_empty)
    have hone : 1 ≤ (componentText c).length := by
      cases c with
      | up => decide
      | name s => exact Nat.pos_of_ne_zero (by simpa [componentText] using hc.ne_empty)
      | _ => cases hc
    rw [String.length_append]
    omega
  have hne (t : String) (ht : t.length < 2) : componentText c ++ e ≠ t := by
    intro heq
    rw [heq] at hlength
    omega
  refine ⟨hne "" (by decide), hne "." (by decide), ?_, ?_⟩
  · -- two dots would have to be one of the step and one of the extension
    intro hup
    have hchars : (componentText c).toList ++ e.toList = ['.', '.'] := by
      rw [← String.toList_append, hup]
      rfl
    cases c with
    | up =>
      have hnil : e.toList = [] := by simpa [componentText] using hchars
      exact he.ne_empty (by simpa using hnil)
    | name s =>
      rcases append_eq_cons_iff.1 hchars with ⟨hs, -⟩ | ⟨as, hs, has⟩
      · exact hc.ne_empty (by simpa [componentText] using hs)
      · rcases append_eq_cons_iff.1 has.symm with ⟨rfl, -⟩ | ⟨bs, rfl, hbs⟩
        · exact hc.ne_here (String.toList_inj.1 hs)
        · have hnil := (append_eq_nil_iff.1 hbs.symm).1
          rw [hnil] at hs
          exact hc.ne_up (String.toList_inj.1 hs)
    | _ => cases hc
  · rw [String.toList_append, mem_append, not_or]
    exact ⟨not_mem_componentText hc, he.not_mem⟩

theorem joinText_concat_append (cs : Path) (c : Component) (e : String) :
    joinText (cs ++ [c]) ++ e = joinText (cs ++ [.name (componentText c ++ e)]) := by
  induction cs with
  | nil => rfl
  | cons d ds ih =>
    have hcons (x : Component) : joinText (d :: (ds ++ [x])) =
        componentText d ++ "/" ++ joinText (ds ++ [x]) := by
      rw [joinText]
      simp
    rw [cons_append, cons_append, hcons, hcons, String.append_assoc, ih]

end Path

namespace Loader

variable {l : Loader}

/-- What a base below the root can stand for is written below the root as well, and holds no parent
steps if the base holds none. -/
theorem candidate_below (hext : ∀ e ∈ l.extensions, IsName e) {zs : Path} (hzs : ∀ c ∈ zs, IsStep c)
    {id : String} (hid : id ∈ l.candidates (.root :: zs)) :
    ∃ body, id = text (.root :: body) ∧ (∀ c ∈ body, IsStep c) ∧ (.up ∉ zs → .up ∉ body) := by
  simp only [candidates, cons_append, mem_cons, mem_append, mem_map] at hid
  rcases hid with rfl | ⟨e, he, rfl⟩ | ⟨e, he, rfl⟩
  · exact ⟨zs, rfl, hzs, id⟩
  · have hname := hext e he
    rcases eq_nil_or_concat zs with rfl | ⟨ws, c, rfl⟩
    · -- the root itself with an extension: a file that has nothing before the extension
      exact ⟨[.name e], rfl, by simpa using hname, by simp⟩
    · rw [concat_eq_append] at hzs ⊢
      have hc : IsStep c := hzs c (by simp)
      refine ⟨ws ++ [.name (componentText c ++ e)], ?_, ?_, ?_⟩
      · rw [text, text, String.append_assoc, joinText_concat_append]
      · intro d hd
        rcases mem_append.1 hd with hd | hd
        · exact hzs d (mem_append_left _ hd)
        · rw [mem_singleton.1 hd]
          exact hc.append hname
      · intro hup
        simp only [mem_append, not_or] at hup ⊢
        exact ⟨hup.1, by simp⟩
  · have hindex : IsName ("index" ++ e) := by
      have hstep : IsStep (.name "index") :=
        ⟨by decide, by decide, by decide, by decide⟩
      exact hstep.append (hext e he)
    refine ⟨zs ++ [.name ("index" ++ e)], rfl, ?_, ?_⟩
    · intro d hd
      rcases mem_append.1 hd with hd | hd
      · exact hzs d hd
      · rw [mem_singleton.1 hd]
        exact hindex
    · intro hup
      simp [hup]

/-! ### What is found -/

/-- An import that is not looked up beside parent steps: its specifier is absolute, or the directory
of the importer holds none. -/
def Straight (importer : ModuleId) (specifier : String) : Prop :=
  (ofText specifier).isAbsolute ∨ .up ∉ (ofText importer).dropLast

/-- The base of an import stands below the root, and holds no parent steps if the import is
straight. -/
theorem base_below {importer : ModuleId} (himporter : (ofText importer).isAbsolute)
    {directory : Path} (hparent : parent? (ofText importer) = some directory) (specifier : String) :
    ∃ zs, normalize directory (ofText specifier) = .root :: zs ∧ (∀ c ∈ zs, IsStep c) ∧
      (Straight importer specifier → .up ∉ zs) := by
  cases habsolute : (ofText specifier).isAbsolute with
  | true =>
    obtain ⟨body, hbody, hsteps⟩ := exists_ofText_eq habsolute
    obtain ⟨zs, hzs, hnames⟩ := normalize_absolute directory hsteps
    rw [hbody, hzs]
    exact ⟨zs, rfl, fun c hc => (hnames c hc).1, fun _ hup => (hnames .up hup).2 rfl⟩
  | false =>
    obtain ⟨body, hbody, hsteps⟩ := exists_ofText_eq himporter
    have hpath : ∀ c ∈ ofText specifier, c = .here ∨ IsStep c := fun c hc => mem_ofText habsolute hc
    -- the directory is the importer without its last step
    have hdirectory : directory = .root :: body.dropLast ∧
        (ofText importer).dropLast = .root :: body.dropLast := by
      rw [hbody] at hparent ⊢
      cases body with
      | nil => simp [parent?] at hparent
      | cons c cs => exact ⟨(Option.some.inj hparent).symm, rfl⟩
    rw [hdirectory.1]
    have hdrop : ∀ c ∈ body.dropLast, IsStep c := fun c hc => hsteps c (mem_of_mem_dropLast hc)
    by_cases hup : .up ∈ body.dropLast
    · obtain ⟨zs, hzs, hstep⟩ := normalize_below (fun _ hs => hs) hdrop habsolute hpath
      refine ⟨zs, hzs, hstep, ?_⟩
      rintro (hspec | hnone)
      · simp [habsolute] at hspec
      · rw [hdirectory.2] at hnone
        exact absurd (.tail _ hup) hnone
    · have hclean : ∀ c ∈ body.dropLast, IsStep c ∧ c ≠ .up := by
        intro c hc
        refine ⟨hdrop c hc, ?_⟩
        rintro rfl
        exact hup hc
      obtain ⟨zs, hzs, hstep⟩ := normalize_below (P := fun c => IsStep c ∧ c ≠ .up)
        (fun _ hs => ⟨hs, Component.noConfusion⟩) hclean habsolute hpath
      exact ⟨zs, hzs, fun c hc => (hstep c hc).1, fun _ hc => (hstep .up hc).2 rfl⟩

/-- **What is found stands below the root**, and holds no parent steps if the import is straight. -/
theorem resolve_below (hext : ∀ e ∈ l.extensions, IsName e) {importer specifier id : String}
    (himporter : (ofText importer).isAbsolute) (h : l.resolve importer specifier = .ok id) :
    ∃ body, id = text (.root :: body) ∧ (∀ c ∈ body, IsStep c) ∧
      (Straight importer specifier → .up ∉ body) := by
  unfold resolve at h
  split at h
  · cases h
  · split at h
    · cases h
    · rename_i directory hparent
      split at h
      · rename_i found hfound
        cases h
        obtain ⟨zs, hzs, hsteps, hstraight⟩ := base_below himporter hparent specifier
        rw [hzs] at hfound
        have hmem := mem_of_find?_eq_some hfound
        obtain ⟨body, hid, hbody, hup⟩ := candidate_below hext hsteps hmem
        exact ⟨body, hid, hbody, fun h => hup (hstraight h)⟩
      · cases h

end Loader

/-- A path below the root is that of its file exactly if it holds no parent steps. -/
theorem Tree.text_resolve_iff (t : Tree) {body : Path} (h : ∀ c ∈ body, IsStep c) :
    text (t.resolve (text (.root :: body))) = text (.root :: body) ↔ .up ∉ body := by
  rw [Tree.resolve, ofText_text h]
  constructor
  · intro heq hup
    obtain ⟨zs, hzs, hnames⟩ := normalize_absolute t.cwd h
    rw [hzs] at heq
    -- both sides are read back, and what is normalized holds no parent steps
    have hread := congrArg ofText heq
    rw [ofText_text fun c hc => (hnames c hc).1, ofText_text h, List.cons.injEq] at hread
    rw [← hread.2] at hup
    exact (hnames .up hup).2 rfl
  · intro hup
    have hnames : ∀ c ∈ body, IsStep c ∧ c ≠ .up := by
      intro c hc
      refine ⟨h c hc, ?_⟩
      rintro rfl
      exact hup hc
    rw [normalize_of_names t.cwd hnames]

namespace Loader

/-- The extensions that are tried unless others are configured make names. -/
theorem isName_of_mem_extensions : ∀ e ∈ ({} : Config).extensions, IsName e := by
  intro e he
  have hall : ∀ e ∈ ({} : Config).extensions, e ≠ "" ∧ e ≠ "." ∧ e ≠ ".." ∧ '/' ∉ e.toList := by
    decide
  obtain ⟨hempty, hhere, hup, hmem⟩ := hall e he
  exact ⟨hempty, hhere, hup, hmem⟩

/-- **A file that straight imports find is one module:** what any other import finds that file under
is the same path exactly if it holds no parent steps, as is the case if that import is straight too.
The module that is found makes straight imports only. -/
theorem one_file_one_id (tree : Tree) {importer specifier importer' specifier' id id' : String}
    (himporter : (ofText importer).isAbsolute) (himporter' : (ofText importer').isAbsolute)
    (hid : resolve ⟨tree, ({} : Config).extensions⟩ importer specifier = .ok id)
    (hid' : resolve ⟨tree, ({} : Config).extensions⟩ importer' specifier' = .ok id')
    (hfile : tree.resolve id = tree.resolve id') (hstraight : Straight importer specifier) :
    (id' = id ↔ .up ∉ ofText id') ∧ (Straight importer' specifier' → id' = id) ∧
      ∀ s, Straight id s := by
  obtain ⟨body, rfl, hbody, hup⟩ := resolve_below isName_of_mem_extensions himporter hid
  obtain ⟨body', rfl, hbody', hup'⟩ := resolve_below isName_of_mem_extensions himporter' hid'
  have htext : text (tree.resolve (text (.root :: body))) = text (.root :: body) :=
    (tree.text_resolve_iff hbody).2 (hup hstraight)
  have heq : text (.root :: body') = text (.root :: body) ↔ .up ∉ body' := by
    rw [← tree.text_resolve_iff hbody', ← hfile, htext, eq_comm]
  refine ⟨?_, fun h => heq.2 (hup' h), fun s => .inr fun hmem => ?_⟩
  · rw [heq, ofText_text hbody']
    simp
  · rw [ofText_text hbody] at hmem
    have hroot : .up ∈ Component.root :: body := mem_of_mem_dropLast hmem
    exact hup hstraight (by simpa using hroot)

/-- One file, two directories above it. -/
def sharedFile : Loader :=
  ⟨Tree.ofFiles [("/lib/theme/color.ts", "export const color = 'red';")], ({} : Config).extensions⟩

theorem one_file_one_id_shared :
    sharedFile.resolve "/lib/button.ts" "./theme/color" = .ok "/lib/theme/color.ts" ∧
      sharedFile.resolve "/app/main.ts" ".././lib/icon/../theme/color.ts" =
        .ok "/lib/theme/color.ts" ∧
      ∀ s, Straight "/lib/theme/color.ts" s := by
  have hid : sharedFile.resolve "/lib/button.ts" "./theme/color" = .ok "/lib/theme/color.ts" := by
    decide +kernel
  have hid' : sharedFile.resolve "/app/main.ts" ".././lib/icon/../theme/color.ts" =
      .ok "/lib/theme/color.ts" := by
    decide +kernel
  exact ⟨hid, hid', (one_file_one_id sharedFile.tree (by decide +kernel) (by decide +kernel) hid
    hid' rfl (.inr (by decide +kernel))).2.2⟩

/-- Beside parent steps the file becomes another module. -/
theorem two_ids_of_one_file :
    sharedFile.resolve "/lib/button.ts" "./theme/color" = .ok "/lib/theme/color.ts" ∧
      sharedFile.resolve "/app/../lib/button.ts" "./theme/color" =
        .ok "/app/../lib/theme/color.ts" ∧
      sharedFile.tree.resolve "/lib/theme/color.ts" =
        sharedFile.tree.resolve "/app/../lib/theme/color.ts" := by
  decide +kernel

end Loader
end AtomicStyles
