import AtomicStyles.Proofs.History
import AtomicStyles.Proofs.Sites
import AtomicStyles.Proofs.Style.Consistency

/-!
# Extracted rules are those of running code

Where rules are extracted, a build collects the rules of all rewritten calls in a sheet of its
own, and lists those of each unit. Running code with the classes and the rules of the same
calls fills its sheet with the same rules in the same order, so that a page looks the same
either way.

## Main definitions

* `Sheet.applyAll` — the sheet of running code after rewritten calls.
* `Sheet.Holds` — a sheet with exactly the rules that styles list.
* `UnitOutput.styles`, `Build.stylesOf` — the styles of the rewritten calls of a unit.

## Main results

* `Sheet.holds_applyAll` — every rule stands once in its group.
* `Sheet.add_eq_insertGroups` — rules under known keys are stored alike in both sheets.
* `Build.sheet_afterAll` — the sheet of a build after units.
* `Build.extracts_as_running_code` — **extraction over a whole build agrees with running code.**
-/

namespace AtomicStyles

open Script List

/-! ### Sheets -/

namespace Sheet

def applyAll (s : Sheet) (cs : List Compiled) : Sheet :=
  cs.foldl (fun s c => (s.apply c.classes c.groups).2) s

variable (s : Sheet) (g h : Group)

theorem group_setGroup (rules : List String) :
    (s.setGroup g rules).group h = if h = g then rules else s.group h := by
  have hfilter (es : List (Group × List String)) (hne : h ≠ g) :
      (es.filter fun e => !(e.1 == g)).lookup h = es.lookup h := by
    induction es with
    | nil => rfl
    | cons e es ih =>
      obtain ⟨k, rules⟩ := e
      grind
  unfold setGroup group
  rw [lookup_cons]
  split
  · rename_i heq
    rw [if_pos (beq_iff_eq.1 heq)]
    rfl
  · rename_i hne
    have hne : h ≠ g := by simpa using hne
    rw [hfilter s.rulesOf hne, if_neg hne]

theorem group_insert (r : String) :
    (s.insert g r).2.group h =
      if h = g then if r ∈ s.group h then s.group h else s.group h ++ [r] else s.group h := by
  unfold insert
  split
  · rename_i hmem
    split
    · rename_i heq
      rw [heq, if_pos (contains_iff_mem.1 hmem)]
    · rfl
  · rename_i hmem
    rw [group_setGroup]
    split
    · rename_i heq
      rw [heq, if_neg fun hr => hmem (contains_iff_mem.2 hr)]
    · rfl

/-- The group that running code puts rules under a key into. -/
def groupOf (key : String) : Group := (Group.ofKey? key).getD .default

/-- The rules listed under the keys of a group, copies included. -/
def listed (es : List (String × List String)) : List String :=
  es.flatMap fun e => if h = groupOf e.1 then e.2 else []

/-! ### Every rule once

A group is followed through all that is stored: it holds what has been listed for it, each rule
at its first place. -/

variable {s h} {xs : List String}

theorem firstSeen_insertAll (hs : FirstSeen xs (s.group h)) (rs : List String) :
    FirstSeen (xs ++ if h = g then rs else []) ((s.insertAll g rs).2.group h) := by
  induction rs generalizing s xs with
  | nil => simpa [insertAll] using hs
  | cons r rs ih =>
    have hgroup := group_insert s g h r
    split at hgroup
    · rename_i heq
      have hrest := ih (hgroup ▸ hs.concat r)
      rw [if_pos heq] at hrest ⊢
      rwa [append_assoc] at hrest
    · rename_i hne
      have hrest := ih (hgroup ▸ hs)
      rwa [if_neg hne] at hrest ⊢

theorem firstSeen_insertGroups (hs : FirstSeen xs (s.group h)) (es : List (String × List String)) :
    FirstSeen (xs ++ listed h es) ((s.insertGroups es).group h) := by
  induction es generalizing s xs with
  | nil => simpa [insertGroups, listed] using hs
  | cons e es ih =>
    have hrest := ih (firstSeen_insertAll (groupOf e.1) hs e.2)
    rw [append_assoc] at hrest
    exact hrest

theorem firstSeen_applyAll (hs : FirstSeen xs (s.group h)) (cs : List Compiled) :
    FirstSeen (xs ++ cs.flatMap fun c => listed h c.groups.entries) ((s.applyAll cs).group h) := by
  induction cs generalizing s xs with
  | nil => simpa [applyAll] using hs
  | cons c cs ih =>
    have hrest := ih (firstSeen_insertGroups hs c.groups.entries)
    rw [append_assoc] at hrest
    exact hrest

/-- Each group of a sheet holds the rules that styles list for it, each once, in the order in which
they first come. -/
def Holds (s : Sheet) (cs : List Compiled) : Prop :=
  ∀ g, FirstSeen (cs.flatMap fun c => listed g c.groups.entries) (s.group g)

theorem holds_applyAll (cs : List Compiled) : (empty.applyAll cs).Holds cs := by
  intro g
  have hempty : FirstSeen [] (empty.group g) := .nil
  exact firstSeen_applyAll hempty cs

theorem applyAll_append (s : Sheet) (cs cs' : List Compiled) :
    s.applyAll (cs ++ cs') = (s.applyAll cs).applyAll cs' :=
  foldl_append

/-! ### Cascade order -/

/-- All rules with their groups, in the order in which a sheet lists them. -/
def placed (s : Sheet) : List (Group × String) := Group.all.flatMap fun g => (s.group g).map (g, ·)

theorem map_placed (s : Sheet) : s.placed.map Prod.snd = s.rules := by
  simp [placed, rules, map_flatMap, Function.comp_def]

theorem mem_placed {s : Sheet} {g : Group} {r : String} : (g, r) ∈ s.placed ↔ r ∈ s.group g := by
  have hall : g ∈ Group.all := by cases g <;> decide
  simp only [placed, mem_flatMap, mem_map, Prod.mk.injEq]
  exact ⟨fun ⟨_, _, _, hr, hg, heq⟩ => hg ▸ heq ▸ hr, fun hr => ⟨g, hall, r, hr, rfl, rfl⟩⟩

/-- Groups are listed in the order of the cascade. -/
theorem pairwise_placed (s : Sheet) : s.placed.Pairwise fun a b => a.1.rank ≤ b.1.rank := by
  have hall : Group.all.Pairwise fun g h => g.rank ≤ h.rank := by decide
  refine pairwise_flatMap.2 ⟨fun g _ => ?_, hall.imp fun hgh a ha b hb => ?_⟩
  · exact pairwise_map.2 (pairwise_of_forall fun _ _ => le_rfl)
  · obtain ⟨_, _, rfl⟩ := mem_map.1 ha
    obtain ⟨_, _, rfl⟩ := mem_map.1 hb
    exact hgh

/-! ### Known keys -/

/-- Rules under known keys are stored as running code stores them. -/
theorem add_eq_insertGroups (s : Sheet) {es : List (String × List String)}
    (hes : ∀ e ∈ es, ∃ g : Group, e.1 = g.key) : (s.add es).2 = s.insertGroups es := by
  induction es generalizing s with
  | nil => rfl
  | cons e es ih =>
    obtain ⟨key, rules⟩ := e
    obtain ⟨g, rfl : key = g.key⟩ := hes _ (.head _)
    rw [add, insertGroups, Group.ofKey?_key]
    exact ih _ fun e he => hes e (.tail _ he)

end Sheet

/-- Compiled rules stand under the keys of their groups. -/
theorem StyleObject.key_of_compile {pre : String} {v : StyleValue} {c : Compiled}
    (h : compile pre v = .ok c) : ∀ e ∈ c.groups.entries, ∃ g : Group, e.1 = g.key := by
  intro e he
  obtain ⟨o, -, ⟨⟩⟩ := bind_eq_ok_iff.1 h
  obtain ⟨g, -, hg⟩ := mem_filterMap.1 he
  split at hg
  · cases hg
  · cases hg
    exact ⟨g, rfl⟩

/-! ### Units -/

/-- The styles of the rewritten calls of a unit. -/
def UnitOutput.styles (o : UnitOutput) : List Compiled :=
  (o.sites.filterMap Build.rewritten?).map Prod.snd

namespace Build

/-- The styles that a unit contributes; one that fails contributes none. -/
def stylesOf : Except UnitError UnitOutput → List Compiled
  | .ok o => o.styles
  | .error _ => []

variable {b b' : Build} {u : SourceUnit} {output : UnitOutput}

theorem extracted_eq (h : b.config.emission = .extract) (sites : List Site) :
    b.extracted sites =
      (((reports sites).filterMap rewritten?).map Prod.snd).map (·.groups.entries) := by
  rw [extracted, h, reports, filterMap_map, map_filterMap, map_filterMap]
  refine filterMap_congr fun s _ => ?_
  obtain ⟨call, state⟩ := s
  cases state <;> rfl

/-- The styles that are reported are those of a rewritten site. -/
theorem exists_state_of_mem_reports {sites : List Site} {c : Compiled}
    (h : c ∈ ((reports sites).filterMap rewritten?).map Prod.snd) :
    ∃ s ∈ sites, s.state = .rewritten c := by
  rw [reports, filterMap_map, map_filterMap] at h
  obtain ⟨s, hs, hc⟩ := mem_filterMap.1 h
  refine ⟨s, hs, ?_⟩
  obtain ⟨call, state⟩ := s
  cases state <;> cases hc
  rfl

/-- The output of a unit is made of sites whose styles come from the compiler. -/
theorem exists_finish (h : b.transform u = (.ok output, b')) :
    ∃ cache code sites report, (output, b') = finish { b with cache } code sites report ∧
      ∀ s ∈ sites, ∀ c, s.state = .rewritten c →
        ∃ v, StyleObject.compile b.config.classPrefix v = .ok c := by
  have hunchanged (hb : (Except.ok { code := u.source }, b) = (Except.ok (ε := UnitError) output, b')) :
      (output, b') = finish { b with cache := b.cache } u.source [] {} := by
    cases hb
    unfold finish extracted
    cases b.config.emission <;> rfl
  unfold transform at h
  split at h
  · split at h
    · cases h
    · split at h
      · exact ⟨_, _, [], _, hunchanged h, fun _ hs => by cases hs⟩
      · obtain ⟨sites, -, -, hfates, hfinish⟩ := transformCalls_ok h
        refine ⟨_, _, _, _, hfinish, fun s hs c hc => ?_⟩
        obtain ⟨compiled, hmem, rfl⟩ := mem_map.1 hs
        obtain ⟨k, hk⟩ := mem_iff_getElem?.1 hmem
        obtain ⟨_, _, hfate⟩ := hfates k compiled hk
        exact (hc ▸ hfate).exists_compile
  · exact ⟨_, _, [], _, hunchanged h, fun _ hs => by cases hs⟩

/-- What a unit with output adds to the sheet of the build, and what it lists by itself. -/
theorem extracts_of_transform (he : b.config.emission = .extract)
    (h : b.transform u = (.ok output, b')) :
    b'.sheet = b.sheet.applyAll output.styles ∧
      output.artifacts = (Sheet.empty.applyAll output.styles).rules := by
  obtain ⟨cache, code, sites, report, hfinish, hcompiled⟩ := exists_finish h
  have hextracted := extracted_eq (b := { b with cache }) he sites
  -- The keys of the groups are known, so the sheet of the build takes all of them.
  have hkeys : ∀ c ∈ ((reports sites).filterMap rewritten?).map Prod.snd,
      ∀ e ∈ c.groups.entries, ∃ g : Group, e.1 = g.key := by
    intro c hc
    obtain ⟨s, hs, hstate⟩ := exists_state_of_mem_reports hc
    obtain ⟨v, hv⟩ := hcompiled s hs c hstate
    exact StyleObject.key_of_compile hv
  cases hfinish
  constructor
  · show (({ b with cache } : Build).extracted sites).foldl _ b.sheet = _
    rw [hextracted, foldl_map]
    exact foldl_ext _ _ _ fun s c hc => Sheet.add_eq_insertGroups s (hkeys c hc)
  · show ((({ b with cache } : Build).extracted sites).foldl Sheet.insertGroups Sheet.empty).rules = _
    rw [hextracted, foldl_map]
    rfl

/-- A unit that fails leaves the sheet of the build as it is. -/
theorem sheet_of_error {e : UnitError} (h : b.transform u = (.error e, b')) : b'.sheet = b.sheet := by
  unfold transform at h
  split at h
  · split at h
    · cases h
      rfl
    · split at h
      · cases h
      · unfold transformCalls at h
        dsimp only at h
        split at h
        · cases h
          rfl
        · split at h
          · cases h
            rfl
          · cases h
  · cases h

theorem sheet_transform (he : b.config.emission = .extract) (u : SourceUnit) :
    (b.transform u).2.sheet = b.sheet.applyAll (stylesOf (b.transform u).1) := by
  rcases h : b.transform u with ⟨e | output, b'⟩
  · exact sheet_of_error h
  · exact (extracts_of_transform he h).1

theorem sheet_afterAll (he : b.config.emission = .extract) (hs : b.Sound) (us : List SourceUnit) :
    (b.afterAll us).sheet =
      b.sheet.applyAll (us.flatMap fun u => stylesOf (b.fresh.transform u).1) := by
  induction us generalizing b with
  | nil => rfl
  | cons u us ih =>
    obtain ⟨hresult, hsound, hfresh⟩ := transform_history hs u
    have he' : (b.transform u).2.config.emission = .extract :=
      (congrArg (·.config.emission) hfresh :).trans he
    rw [afterAll_cons, ih he' hsound, hfresh, sheet_transform he, hresult, flatMap_cons,
      Sheet.applyAll_append]

/-- Extraction over a whole build agrees with running code: the sheet of the build lists the rules
of a sheet to which running code has applied the styles of all rewritten calls in their order; these
are exactly the rules that the reports of the calls list, each once in its group at its first place,
and the groups stand in cascade order; each unit lists the rules that its own calls give an empty
sheet; a unit that fails adds nothing; and the order of the units does not change which rules a
group has. -/
theorem extracts_as_running_code (config : Config) (loader : Loader) (us : List SourceUnit) :
    let b : Build := { config := { config with emission := .extract }, loader }
    let results := (b.transformAll us).map (·.1)
    let sheet := (b.afterAll us).sheet
    sheet.rules = (Sheet.empty.applyAll (results.flatMap stylesOf)).rules ∧
    (sheet.Holds (results.flatMap stylesOf) ∧ ∀ g, (sheet.group g).Nodup) ∧
    (sheet.placed.map Prod.snd = sheet.rules ∧ (∀ g r, (g, r) ∈ sheet.placed ↔ r ∈ sheet.group g) ∧
      sheet.placed.Pairwise fun x y => x.1.rank ≤ y.1.rank) ∧
    (∀ output, .ok output ∈ results →
      output.artifacts = (Sheet.empty.applyAll output.styles).rules ∧
        (Sheet.empty.applyAll output.styles).Holds output.styles) ∧
    (∀ before u e b', (b.afterAll before).transform u = (.error e, b') →
      b'.sheet = (b.afterAll before).sheet) ∧
    ∀ us', us.Perm us' → ∀ g r, r ∈ sheet.group g ↔ r ∈ (b.afterAll us').sheet.group g := by
  intro b results sheet
  have hsound : b.Sound := .empty _ _
  have hstyles : results.flatMap stylesOf = us.flatMap fun u => stylesOf (b.transform u).1 := by
    rw [show results = _ from results_transformAll hsound us, flatMap_map]
    rfl
  have hsheet us : (b.afterAll us).sheet =
      Sheet.empty.applyAll (us.flatMap fun u => stylesOf (b.transform u).1) :=
    sheet_afterAll rfl hsound us
  have hholds us : (b.afterAll us).sheet.Holds (us.flatMap fun u => stylesOf (b.transform u).1) := by
    rw [hsheet]
    exact Sheet.holds_applyAll _
  refine ⟨?_, ⟨hstyles ▸ hholds us, fun g => (hholds us g).nodup⟩,
    ⟨sheet.map_placed, fun _ _ => Sheet.mem_placed, sheet.pairwise_placed⟩, ?_,
    fun _ _ _ _ h => sheet_of_error h, ?_⟩
  · rw [hstyles]
    exact congrArg Sheet.rules (hsheet us)
  · intro output houtput
    rw [show results = _ from results_transformAll hsound us] at houtput
    obtain ⟨u, -, hu⟩ := mem_map.1 houtput
    exact ⟨(extracts_of_transform (b := b) rfl (Prod.ext hu rfl)).2, Sheet.holds_applyAll _⟩
  · intro us' hperm g r
    have hmem := ((hperm.flatMap_right fun u => stylesOf (b.transform u).1).flatMap_right
      fun c => Sheet.listed g c.groups.entries).mem_iff (a := r)
    rw [(hholds us g).mem_iff, (hholds us' g).mem_iff, hmem]

/-- `import {css} from 'lib'; css({a: {':hover': {color: 'red'}, color: 'red'}})`, which shares a
rule with `mixedUnit`. -/
def hoverUnit : SourceUnit where
  id := "/other"
  source :=
    "import \x7bcss\x7d from 'lib'; css(\x7ba: \x7b':hover': \x7bcolor: 'red'\x7d, color: 'red'\x7d\x7d)"

/-- Two units list three rules, and the shared one is stored once. -/
theorem extracts_as_running_code_pair :
    let b : Build := { config := { smallBuild.config with emission := .extract }, loader := {} }
    let styles := ((b.transformAll [mixedUnit, hoverUnit]).map (·.1)).flatMap stylesOf
    let sheet := (b.afterAll [mixedUnit, hoverUnit]).sheet
    styles.map (·.groups.entries) = [[("d", [".f0lcve3z2c8gu4\x7bcolor:red;\x7d"])],
      [("d", [".f0lcve3z2c8gu4\x7bcolor:red;\x7d"]),
        ("h", [".f18pk81j04gsmq:hover\x7bcolor:red;\x7d"])]] ∧
    sheet.rules =
      [".f0lcve3z2c8gu4\x7bcolor:red;\x7d", ".f18pk81j04gsmq:hover\x7bcolor:red;\x7d"] ∧
    sheet.rules = (Sheet.empty.applyAll styles).rules ∧ sheet.Holds styles := by
  have hextracts := extracts_as_running_code smallBuild.config {} [mixedUnit, hoverUnit]
  exact ⟨by decide +kernel, by decide +kernel, hextracts.1, hextracts.2.1.1⟩

end Build
end AtomicStyles
