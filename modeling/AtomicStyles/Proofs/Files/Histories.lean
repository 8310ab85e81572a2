import AtomicStyles.Proofs.Files.Normalizing

/-!
# What stands in a tree of files

A tree is changed by writing files and by entering directories. What stands at a path is decided
by the latest write at or below it: a file if that write was to the path itself, and a directory if
it was to a path below. A write replaces what it finds, and a directory is no exception. So the
paths above a stored path are all stored, but one of them is a file if it was written after what
stands below it.

## Main definitions

* `Tree.Change`, `Tree.after` — changes, and the tree after some of them.
* `Path.Above` — the paths on the way to a path.
* `Tree.latest` — the latest write at or below a path.
* `Tree.IsTree` — every stored path stands in directories.

## Main results

* `Tree.entry?_foldl_apply` — what stands at a path is decided by the latest write.
* `Tree.stored_by_latest_write` — **stored paths are settled, and what is above them is stored.**
* `Tree.file_above_file` — a file may stand above another one.
-/

namespace AtomicStyles

open AtomicStyles.Path List

namespace Path

/-- The path `q` stands on the way from the root to `p`, or is `p`. -/
def Above (q p : Path) : Prop := q ≠ [] ∧ q <+: p

instance (q p : Path) : Decidable (Above q p) := inferInstanceAs (Decidable (_ ∧ _))

namespace Settled

theorem root : Settled [.root] := ⟨[], rfl, by simp⟩

/-- What stands on the way to a settled path is settled. -/
theorem of_above {p q : Path} (h : Settled p) (hq : Above q p) : Settled q := by
  obtain ⟨body, rfl, hbody⟩ := h
  rcases prefix_cons_iff.1 hq.2 with rfl | ⟨cs, rfl, hcs⟩
  · exact absurd rfl hq.1
  · exact ⟨cs, rfl, fun c hc => hbody c (hcs.subset hc)⟩

end Settled

/-- The ancestors of an absolute path are the other paths on the way to it. -/
theorem mem_ancestors {p q : Path} (h : p.isAbsolute) :
    q ∈ ancestors p ↔ Above q p ∧ q ≠ p := by
  obtain ⟨cs, rfl⟩ := head?_eq_some_iff.1 (eq_of_beq h)
  cases cs with
  | nil =>
    -- the root has no ancestors
    refine ⟨fun hq => absurd hq not_mem_nil, ?_⟩
    rintro ⟨⟨hne, hsub⟩, hroot⟩
    rcases prefix_cons_iff.1 hsub with rfl | ⟨t, rfl, ht⟩
    · exact absurd rfl hne
    · rw [prefix_nil.1 ht] at hroot
      exact absurd rfl hroot
  | cons c cs =>
    simp only [ancestors, beq_self_eq_true, Bool.true_and, mem_filter, mem_reverse,
      mem_map, mem_range, Bool.not_eq_true', isEmpty_eq_false_iff]
    constructor
    · rintro ⟨⟨n, hn, rfl⟩, hne⟩
      refine ⟨⟨hne, take_prefix _ _⟩, fun heq => ?_⟩
      have hlength := congrArg List.length heq
      rw [length_take] at hlength
      omega
    · rintro ⟨⟨hne, hsub⟩, hproper⟩
      refine ⟨⟨q.length, ?_, (prefix_iff_eq_take.1 hsub).symm⟩, hne⟩
      exact lt_of_le_of_ne hsub.length_le fun hlength => hproper (hsub.eq_of_length hlength)

end Path

namespace Tree

/-! ### Changes -/

/-- A change of a tree. -/
inductive Change where
  | write (path contents : String)
  | enter (path : String)
deriving Repr, DecidableEq

def apply (t : Tree) : Change → Tree
  | .write path contents => t.write path contents
  | .enter path => t.enter path

def after (changes : List Change) : Tree := changes.foldl apply empty

/-- The file that a change writes, with the path that it has in this tree. -/
def written (t : Tree) : Change → List (Path × String)
  | .write path contents => [(t.resolve path, contents)]
  | .enter _ => []

/-- The files that changes write, in their order. -/
def writtenBy (t : Tree) : List Change → List (Path × String)
  | [] => []
  | c :: cs => t.written c ++ writtenBy (t.apply c) cs

/-- The latest of some writes at or below a path. -/
def latest (q : Path) (writes : List (Path × String)) : Option (Path × String) :=
  (writes.filter fun w => Above q w.1).getLast?

/-- What a write at or below a path leaves at it. -/
def entryBy (q : Path) (w : Path × String) : Entry := if w.1 = q then .file w.2 else .directory

theorem latest_append (q : Path) (ws ws' : List (Path × String)) :
    latest q (ws ++ ws') = (latest q ws').or (latest q ws) := by
  rw [latest, filter_append, getLast?_append, latest, latest]

theorem latest_singleton (q : Path) (w : Path × String) :
    latest q [w] = if Above q w.1 then some w else none := by
  by_cases h : Above q w.1 <;> simp [latest, h]

variable {w : Path × String}

theorem mem_of_latest {q : Path} {ws : List (Path × String)} (h : latest q ws = some w) :
    w ∈ ws ∧ Above q w.1 := by
  simpa using mem_filter.1 (mem_of_getLast? h)

theorem isSome_latest {q : Path} {ws : List (Path × String)} (hw : w ∈ ws) (hq : Above q w.1) :
    ∃ w', latest q ws = some w' := by
  have hne : ws.filter (fun w => Above q w.1) ≠ [] :=
    ne_nil_of_mem (mem_filter.2 ⟨hw, by simpa using hq⟩)
  exact ⟨_, getLast?_eq_some_getLast hne⟩

/-! ### One change -/

theorem entry?_put (t : Tree) (p q : Path) (e : Entry) :
    entry? (t.put p e) q = if q = p then some e else t.entry? q := by
  rw [ entry?, put, lookup_cons, entry?]
  by_cases h : q = p
  · simp [h]
  · have hbeq : (q == p) = false := beq_false_of_ne h
    rw [hbeq, if_neg h]

theorem entry?_foldl_put (t : Tree) (ps : List Path) (q : Path) :
    entry? (ps.foldl (fun t p => t.put p .directory) t) q =
      if q ∈ ps then some .directory else t.entry? q := by
  induction ps generalizing t with
  | nil => simp
  | cons p ps ih =>
    rw [foldl_cons, ih, entry?_put]
    by_cases hps : q ∈ ps
    · simp [hps]
    · by_cases hp : q = p
      · simp [hp]
      · simp [hps, hp]

/-- A write decides what stands at the paths on the way to its file, and changes no other. -/
theorem entry?_writeAt (t : Tree) {p : Path} (hp : p.isAbsolute) (contents : String) (q : Path) :
    entry? (t.writeAt p contents) q =
      if Above q p then some (entryBy q (p, contents)) else t.entry? q := by
  rw [writeAt, entry?_put, entry?_foldl_put]
  simp only [mem_ancestors hp]
  by_cases hq : q = p
  · have habove : Above q p := by
      rw [hq]
      refine ⟨?_, prefix_rfl⟩
      rintro rfl
      simp [isAbsolute] at hp
    rw [if_pos hq, if_pos habove, entryBy, if_pos hq.symm]
  · by_cases habove : Above q p
    · rw [if_neg hq, if_pos ⟨habove, hq⟩, if_pos habove, entryBy, if_neg (Ne.symm hq)]
    · rw [if_neg hq, if_neg fun h => habove h.1, if_neg habove]

variable {t : Tree}

theorem settled_apply (h : Settled t.cwd) (c : Change) : Settled (t.apply c).cwd := by
  cases c with
  | enter path => exact h.normalize (legible_ofText path)
  | write path contents =>
    -- writing leaves the current directory alone
    have hput (ps : List Path) (t : Tree) :
        (ps.foldl (fun t p => t.put p .directory) t).cwd = t.cwd := by
      induction ps generalizing t with
      | nil => rfl
      | cons p ps ih => exact ih _
    have hcwd : (t.apply (.write path contents)).cwd = t.cwd := hput _ t
    rw [hcwd]
    exact h

theorem settled_written (h : Settled t.cwd) {c : Change} (hw : w ∈ t.written c) : Settled w.1 := by
  cases c with
  | enter path => exact absurd hw not_mem_nil
  | write path contents =>
    rw [mem_singleton.1 hw]
    exact h.normalize (legible_ofText path)

/-- What stands at a path after a change. -/
theorem entry?_apply (h : Settled t.cwd) (c : Change) (q : Path) :
    entry? (t.apply c) q = ((latest q (t.written c)).map (entryBy q)).or (t.entry? q) := by
  cases c with
  | enter path => rfl
  | write path contents =>
    have hp : (t.resolve path).isAbsolute := (h.normalize (legible_ofText path)).isAbsolute
    rw [written, latest_singleton]
    have hwrite : entry? (t.apply (.write path contents)) q =
        if Above q (t.resolve path) then some (entryBy q (t.resolve path, contents))
        else t.entry? q := entry?_writeAt t hp contents q
    rw [hwrite]
    by_cases hq : Above q (t.resolve path)
    · simp [hq]
    · simp [hq]

/-! ### Many changes -/

theorem settled_foldl_apply (changes : List Change) (h : Settled t.cwd) :
    Settled (changes.foldl apply t).cwd := by
  induction changes generalizing t with
  | nil => exact h
  | cons c cs ih => exact ih (settled_apply h c)

theorem settled_writtenBy (changes : List Change) (h : Settled t.cwd)
    (hw : w ∈ t.writtenBy changes) : Settled w.1 := by
  induction changes generalizing t with
  | nil => exact absurd hw not_mem_nil
  | cons c cs ih =>
    rcases mem_append.1 hw with hw | hw
    · exact settled_written h hw
    · exact ih (settled_apply h c) hw

/-- **What stands at a path is decided by the latest write** at or below it; without any, it is what
stood there before. -/
theorem entry?_foldl_apply (changes : List Change) (h : Settled t.cwd) (q : Path) :
    entry? (changes.foldl apply t) q =
      ((latest q (t.writtenBy changes)).map (entryBy q)).or (t.entry? q) := by
  induction changes generalizing t with
  | nil => rfl
  | cons c cs ih =>
    rw [foldl_cons, ih (settled_apply h c), entry?_apply h, writtenBy, latest_append,
      Option.map_or, Option.or_assoc]

theorem entry?_after (changes : List Change) (q : Path) :
    entry? (after changes) q = (latest q (empty.writtenBy changes)).map (entryBy q) := by
  have hnone : empty.entry? q = none := rfl
  rw [after, entry?_foldl_apply changes Settled.root, hnone, Option.or_none]

/-- Every stored path is settled and stands in directories. -/
structure IsTree (t : Tree) : Prop where
  cwd : Settled t.cwd
  stored : ∀ p, t.entry? p ≠ none → Settled p
  directories : ∀ p q, t.entry? p ≠ none → Above q p → q ≠ p → t.entry? q = some .directory

/-- **Stored paths are settled, and what is above them is stored**, whatever the changes were: as a
directory, unless the latest write at or below it was to that path itself. -/
theorem stored_by_latest_write (changes : List Change) :
    Settled (after changes).cwd ∧ (∀ p, entry? (after changes) p ≠ none → Settled p) ∧
      ∀ p q, entry? (after changes) p ≠ none → Above q p → q ≠ p →
        ∃ w, latest q (empty.writtenBy changes) = some w ∧
          entry? (after changes) q = some (if w.1 = q then .file w.2 else .directory) := by
  have hlatest {p : Path} (hp : entry? (after changes) p ≠ none) :
      ∃ w ∈ empty.writtenBy changes, Above p w.1 := by
    rw [entry?_after] at hp
    cases hw : latest p (empty.writtenBy changes) with
    | none => simp [hw] at hp
    | some w => exact ⟨w, mem_of_latest hw⟩
  refine ⟨settled_foldl_apply changes Settled.root, ?_, ?_⟩
  · intro p hp
    obtain ⟨w, hw, hp⟩ := hlatest hp
    exact (settled_writtenBy changes Settled.root hw).of_above hp
  · intro p q hp hq _
    obtain ⟨w, hw, hp⟩ := hlatest hp
    obtain ⟨w', hw'⟩ := isSome_latest hw ⟨hq.1, hq.2.trans hp.2⟩
    refine ⟨w', hw', ?_⟩
    rw [entry?_after, hw']
    rfl

/-- A file in a directory, and then a file in the place of that directory. -/
def overwritten : List Change :=
  [.write "lib/color.ts" "red", .enter "/lib/..", .write "./lib" "blue"]

theorem stored_by_latest_write_overwritten :
    entry? (after overwritten) ([.root, .name "lib", .name "color.ts"]) = some (.file "red") ∧
      ∃ w, latest ([.root, .name "lib"]) (empty.writtenBy overwritten) = some w ∧
        entry? (after overwritten) ([.root, .name "lib"]) =
          some (if w.1 = [.root, .name "lib"] then .file w.2 else .directory) := by
  have hstored : entry? (after overwritten) ([.root, .name "lib", .name "color.ts"]) =
      some (.file "red") := by
    decide +kernel
  refine ⟨hstored, ?_⟩
  have hentry : entry? (after overwritten) ([.root, .name "lib", .name "color.ts"]) ≠ none := by
    rw [hstored]
    exact Option.some_ne_none _
  exact (stored_by_latest_write overwritten).2.2 ([.root, .name "lib", .name "color.ts"])
    ([.root, .name "lib"]) hentry (by decide) (by decide)

/-- A file may stand above another one. -/
theorem file_above_file : ¬ (after overwritten).IsTree := by
  intro h
  have hstored : entry? (after overwritten) ([.root, .name "lib", .name "color.ts"]) ≠ none := by
    decide +kernel
  have hdirectory := h.directories ([.root, .name "lib", .name "color.ts"])
    ([.root, .name "lib"]) hstored (by decide) (by decide)
  have hfile : entry? (after overwritten) ([.root, .name "lib"]) = some (.file "blue") := by
    decide +kernel
  rw [hfile] at hdirectory
  cases hdirectory

end Tree
end AtomicStyles
