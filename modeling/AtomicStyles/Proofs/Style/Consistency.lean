import Mathlib
import AtomicStyles.Proofs.Style.Override
import AtomicStyles.Proofs.Style.RuleText

/-!
# Classes, rules and groups agree

Compiling a style object gives the classes of its slots, the rules of these classes, and the
texts of the rules by group. The three hold the same: every class that a slot lists has its one
rule, no rule is left over from a declaration that was replaced, and every rule stands in its
group.

## Main definitions

* `FirstSeen` — the items of a list, each once, in the order in which they first come.
* `StyleObject.declared` — the rules of all declarations, in source order.
* `Compiled.Consistent` — classes, rules and groups that agree.

## Main results

* `FirstSeen.concat`, `firstSeen_dedup` — the order of first appearance, item by item.
* `OrderedMap.firstSeen_keys_ofList`, `OrderedMap.firstSeen_keys_foldl_insertNew` — storing entries
  keeps it.
* `StyleObject.mem_declared_of_listed` — every class that a slot lists is declared.
* `StyleObject.compile_consistent` — **what is compiled is consistent.**
-/

namespace AtomicStyles

open List

/-! ### The order of first appearance -/

/-- The items of `xs`, each once, in the order in which they first come. -/
structure FirstSeen {α : Type} [DecidableEq α] (xs ys : List α) : Prop where
  mem_iff : ∀ x, x ∈ ys ↔ x ∈ xs
  ordered : ys.Pairwise fun x y => xs.idxOf x < xs.idxOf y

namespace FirstSeen

variable {α : Type} [DecidableEq α] {xs ys : List α}

theorem nil : FirstSeen ([] : List α) [] := ⟨fun _ => Iff.rfl, List.Pairwise.nil⟩

theorem nodup (h : FirstSeen xs ys) : ys.Nodup := by
  refine h.ordered.imp fun {x y} hlt heq => ?_
  rw [heq] at hlt
  exact lt_irrefl _ hlt

/-- One item more at the end changes the order only if it is new. -/
theorem concat (h : FirstSeen xs ys) (x : α) :
    FirstSeen (xs ++ [x]) (if x ∈ ys then ys else ys ++ [x]) := by
  -- what has come before stays where it first came
  have hidx : ∀ y ∈ ys, (xs ++ [x]).idxOf y = xs.idxOf y := fun y hy =>
    idxOf_append_of_mem ((h.mem_iff y).1 hy)
  have hold : ys.Pairwise fun y z => (xs ++ [x]).idxOf y < (xs ++ [x]).idxOf z := by
    refine h.ordered.imp_of_mem fun {y z} hy hz hlt => ?_
    rw [hidx y hy, hidx z hz]
    exact hlt
  by_cases hx : x ∈ ys
  · rw [if_pos hx]
    refine ⟨fun y => ?_, hold⟩
    rw [mem_append, mem_singleton, h.mem_iff]
    refine ⟨.inl, ?_⟩
    rintro (hy | rfl)
    · exact hy
    · exact (h.mem_iff y).1 hx
  · rw [if_neg hx]
    refine ⟨fun y => by rw [mem_append, mem_append, h.mem_iff], ?_⟩
    rw [pairwise_append]
    refine ⟨hold, pairwise_singleton _ _, fun y hy z hz => ?_⟩
    rw [mem_singleton.1 hz, hidx y hy]
    have hnew : x ∉ xs := fun hmem => hx ((h.mem_iff x).2 hmem)
    rw [idxOf_append_of_notMem hnew]
    have hlt : xs.idxOf y < xs.length := idxOf_lt_length_iff.2 ((h.mem_iff y).1 hy)
    omega

end FirstSeen

/-- Dropping later copies keeps the order of first appearance. -/
theorem firstSeen_dedup {α : Type} [DecidableEq α] (xs : List α) : FirstSeen xs (dedup xs) := by
  refine ⟨fun x => mem_dedup, ?_⟩
  induction xs with
  | nil => exact List.Pairwise.nil
  | cons x xs ih =>
    have hidx : ∀ y ∈ (dedup xs).filter fun y => !(y == x),
        (x :: xs).idxOf y = xs.idxOf y + 1 := by
      intro y hy
      have hne : y ≠ x := by simpa using (mem_filter.1 hy).2
      exact idxOf_cons_ne xs (Ne.symm hne)
    rw [dedup, pairwise_cons]
    constructor
    · intro y hy
      rw [hidx y hy, idxOf_cons_self]
      omega
    · refine (ih.filter _).imp_of_mem fun {y z} hy hz hlt => ?_
      rw [hidx y hy, hidx z hz]
      omega

/-! ### Keys of maps -/

namespace OrderedMap

variable {κ ν : Type} [DecidableEq κ]

theorem keys_insertNew (m : OrderedMap κ ν) (k : κ) (v : ν) :
    (m.insertNew k v).keys = if k ∈ m.keys then m.keys else m.keys ++ [k] := by
  by_cases hk : k ∈ m.keys
  · rw [if_pos hk, insertNew, if_pos (mem_keys_iff.1 hk)]
  · rw [if_neg hk, insertNew, if_neg fun h => hk (mem_keys_iff.2 h)]
    simp [keys]

/-- Storing under a key that is present leaves the keys as they are. -/
theorem map_fst_put {k : κ} {es : List (κ × ν)} (h : k ∈ es.map Prod.fst) (v : ν) :
    (put k v es).map Prod.fst = es.map Prod.fst := by
  induction es with
  | nil => cases h
  | cons e es ih =>
    rw [put]
    split
    · rfl
    · rename_i hne
      rw [map_cons, mem_cons] at h
      have hmem : k ∈ es.map Prod.fst := h.resolve_left fun heq => hne (by simp [heq])
      rw [map_cons, map_cons, ih hmem]

theorem keys_insert (m : OrderedMap κ ν) (k : κ) (v : ν) :
    (m.insert k v).keys = if k ∈ m.keys then m.keys else m.keys ++ [k] := by
  by_cases hk : k ∈ m.keys
  · rw [if_pos hk]
    exact map_fst_put hk v
  · have habsent : ∀ e ∈ m.entries, e.1 ≠ k := by
      rintro e he rfl
      exact hk (mem_map_of_mem he)
    rw [if_neg hk, insert, put_of_absent habsent]
    simp [keys]

/-- The keys of a map that is filled entry by entry stand in the order in which they first came. -/
theorem firstSeen_keys_ofList (es : List (κ × ν)) :
    FirstSeen (es.map Prod.fst) (ofList es).keys := by
  induction es using List.reverseRecOn with
  | nil => exact FirstSeen.nil
  | append_singleton es e ih =>
    have hkeys : (ofList (es ++ [e])).keys = ((ofList es).insert e.1 e.2).keys := by
      rw [ofList, foldl_concat]
      rfl
    rw [hkeys, keys_insert, map_append]
    exact ih.concat e.1

section

variable {α : Type} (key : α → κ) (value : α → ν)

theorem firstSeen_keys_foldl_insertNew (as : List α) :
    FirstSeen (as.map key)
      (as.foldl (fun m a => m.insertNew (key a) (value a)) ({} : OrderedMap κ ν)).keys := by
  induction as using List.reverseRecOn with
  | nil => exact FirstSeen.nil
  | append_singleton as a ih =>
    rw [foldl_concat, keys_insertNew, map_append]
    exact ih.concat (key a)

/-- What is stored under a key unless there is something is what came first under it. -/
theorem find?_of_mem_foldl_insertNew (as : List α) {e : κ × ν}
    (he : e ∈ (as.foldl (fun m a => m.insertNew (key a) (value a)) ({} : OrderedMap κ ν)).entries) :
    ∃ a, as.find? (fun a => key a == e.1) = some a ∧ e.2 = value a := by
  induction as using List.reverseRecOn with
  | nil => cases he
  | append_singleton as a ih =>
    have hkeys := firstSeen_keys_foldl_insertNew key value as
    rw [foldl_concat, insertNew] at he
    rw [find?_append]
    split at he
    · obtain ⟨b, hb, hvalue⟩ := ih he
      exact ⟨b, by rw [hb]; rfl, hvalue⟩
    · rename_i habsent
      rcases mem_append.1 he with he | he
      · obtain ⟨b, hb, hvalue⟩ := ih he
        exact ⟨b, by rw [hb]; rfl, hvalue⟩
      · rw [mem_singleton.1 he]
        -- nothing came under this key before
        have hnone : as.find? (fun b => key b == key a) = none := by
          rw [find?_eq_none]
          intro b hb heq
          refine habsent (mem_keys_iff.1 ((hkeys.mem_iff _).2 ?_))
          rw [← beq_iff_eq.1 heq]
          exact mem_map_of_mem hb
        refine ⟨a, ?_, rfl⟩
        rw [hnone]
        simp

end
end OrderedMap

theorem Group.key_injective : Function.Injective Group.key := by
  intro g h heq
  have hsome : some g = some h := by
    rw [← Group.ofKey?_key g, ← Group.ofKey?_key h, heq]
  exact Option.some.inj hsome

/-! ### Classes and their rules -/

namespace StyleObject

variable (pre : String) (o : StyleObject)

/-- The rules of all declarations, slot by slot in source order, replaced ones included. -/
def declared : List AtomicRule := o.slots.entries.flatMap fun e => (slotRules pre e.2).map Prod.snd

/-- The first rule that was declared of each class, by class. -/
def firstRules : OrderedMap String AtomicRule :=
  (declared pre o).foldl (fun m r => m.insertNew r.className r) {}

theorem firstSeen_keys_firstRules :
    FirstSeen ((declared pre o).map AtomicRule.className) (firstRules pre o).keys :=
  OrderedMap.firstSeen_keys_foldl_insertNew AtomicRule.className id (declared pre o)

theorem find?_declared {e : String × AtomicRule} (he : e ∈ (firstRules pre o).entries) :
    (declared pre o).find? (fun r => r.className == e.1) = some e.2 := by
  obtain ⟨r, hr, heq⟩ :=
    OrderedMap.find?_of_mem_foldl_insertNew AtomicRule.className id (declared pre o) he
  rw [hr, heq]
  rfl

theorem className_of_mem_firstRules {e : String × AtomicRule} (he : e ∈ (firstRules pre o).entries) :
    e.2.className = e.1 := by
  have hfound := List.find?_some (find?_declared pre o he)
  exact beq_iff_eq.1 hfound

/-- The rules that are kept are the first ones of the classes that a slot lists. -/
theorem rules_compileObject : (compileObject pre o).rules =
    (firstRules pre o).values.filter fun r =>
      (compileObject pre o).classes.values.flatten.contains r.className := by
  have hdeclared : declared pre o =
      ((o.slots.entries.map fun e => (e.1, slotRules pre e.2)).flatMap (·.2)).map Prod.snd := by
    rw [declared, map_flatMap, flatMap_map]
  rw [firstRules, hdeclared, foldl_map]
  rfl

/-- Their classes are the keys of the first rules that a slot lists. -/
theorem classNames_compileObject : (compileObject pre o).rules.map AtomicRule.className =
    (firstRules pre o).keys.filter (compileObject pre o).classes.values.flatten.contains := by
  have hnames : (firstRules pre o).values.map AtomicRule.className = (firstRules pre o).keys := by
    rw [OrderedMap.values, map_map]
    exact map_congr_left fun e he => className_of_mem_firstRules pre o he
  rw [rules_compileObject, ← hnames, filter_map]
  rfl

variable {o}

theorem mem_declared_of_listed (h : o.slots.keys.Nodup) {name : String}
    (hname : name ∈ (compileObject pre o).classes.values.flatten) :
    name ∈ (declared pre o).map AtomicRule.className := by
  rw [classes_compileObject pre h] at hname
  obtain ⟨names, hnames, hname⟩ := mem_flatten.1 hname
  obtain ⟨e, he, rfl⟩ := mem_map.1 hnames
  obtain ⟨slot, hslot, rfl⟩ := mem_map.1 he
  -- the class of a context and a property is that of one of its declarations
  obtain ⟨k, hk, rfl⟩ := mem_map.1 hname
  obtain ⟨x, hx, rfl⟩ := mem_map.1 (OrderedMap.mem_of_mem_ofList hk)
  exact mem_map.2 ⟨x.2, mem_flatMap.2 ⟨slot, hslot, mem_map_of_mem hx⟩, rfl⟩

/-- A class has one rule if a slot lists it, and none otherwise. -/
theorem count_classNames (h : o.slots.keys.Nodup) (name : String) :
    ((compileObject pre o).rules.map AtomicRule.className).count name =
      if name ∈ (compileObject pre o).classes.values.flatten then 1 else 0 := by
  have hfirst := firstSeen_keys_firstRules pre o
  rw [classNames_compileObject]
  by_cases hname : name ∈ (compileObject pre o).classes.values.flatten
  · rw [if_pos hname]
    refine count_eq_one_of_mem (hfirst.nodup.filter _) (mem_filter.2 ⟨?_, ?_⟩)
    · exact (hfirst.mem_iff name).2 (mem_declared_of_listed pre h hname)
    · exact contains_iff_mem.2 hname
  · rw [if_neg hname]
    refine count_eq_zero_of_not_mem fun hmem => hname ?_
    exact contains_iff_mem.1 (mem_filter.1 hmem).2

/-! ### Groups -/

variable (o)

/-- What stands under a key is a group with the texts of its rules, of which there are some. -/
theorem mem_groups_compileObject {e : String × List String} :
    e ∈ (compileObject pre o).groups.entries ↔ ∃ g : Group,
      e = (g.key, groupTexts (compileObject pre o).rules g) ∧
        groupTexts (compileObject pre o).rules g ≠ [] := by
  constructor
  · intro he
    obtain ⟨g, -, hg⟩ := mem_filterMap.1 he
    split at hg
    · cases hg
    · rename_i hne
      cases hg
      exact ⟨g, rfl, hne⟩
  · rintro ⟨g, rfl, hne⟩
    refine mem_filterMap.2 ⟨g, by cases g <;> decide, ?_⟩
    split
    · rename_i hnil
      exact absurd hnil hne
    · rfl

/-- The keys of the groups are those of a part of all groups, in cascade order. -/
theorem exists_keys_groups : ∃ gs : List Group,
    (compileObject pre o).groups.keys = gs.map Group.key ∧ gs.Sublist Group.all := by
  have hkeys (f : Group → Option (String × List String)) (hf : ∀ g e, f g = some e → e.1 = g.key)
      (gs : List Group) : (gs.filterMap f).map Prod.fst =
        (gs.filter fun g => (f g).isSome).map Group.key := by
    induction gs with
    | nil => rfl
    | cons g gs ih =>
      cases hg : f g with
      | none => simp [hg, ih]
      | some e => simp [hg, ih, hf g e hg]
  unfold compileObject OrderedMap.keys
  dsimp only
  refine ⟨_, hkeys _ (fun g e he => ?_) Group.all, filter_sublist⟩
  split at he
  · cases he
  · cases he
    rfl

end StyleObject

/-! ### Consistency -/

open StyleObject

/-- What is compiled from an object with the given fields, which is read as `o`, agrees with it and
with itself. -/
structure Compiled.Consistent (pre : String) (fields : List (String × StyleValue)) (o : StyleObject)
    (c : Compiled) : Prop where
  /-- The slots are those of the object in order, empty ones included. -/
  slots : FirstSeen (fields.map Prod.fst) c.classes.keys
  /-- A class that a slot lists has one rule, and no other class has any. -/
  listed : ∀ name, (c.rules.map AtomicRule.className).count name =
    if name ∈ c.classes.values.flatten then 1 else 0
  /-- The rules stand in the order in which their classes first came. -/
  ordered : (c.rules.map AtomicRule.className).Pairwise fun x y =>
    ((declared pre o).map AtomicRule.className).idxOf x <
      ((declared pre o).map AtomicRule.className).idxOf y
  /-- Each rule is the first one that was declared of its class. -/
  first : ∀ r ∈ c.rules, (declared pre o).find? (fun r' => r'.className == r.className) = some r
  /-- The keys of the groups are different, not empty, and in cascade order. -/
  groupKeys : c.groups.keys.Nodup ∧ "" ∉ c.groups.keys ∧
    ∃ gs : List Group, c.groups.keys = gs.map Group.key ∧ gs.Pairwise fun g h => g.rank < h.rank
  /-- Every rule has its group. -/
  grouped : ∀ r ∈ c.rules, r.group.key ∈ c.groups.keys
  /-- A group holds the texts of its rules, each once and in the order of the rules, and is not
  empty. -/
  texts : ∀ (g : Group) (ts : List String), (g.key, ts) ∈ c.groups.entries →
    ts ≠ [] ∧ FirstSeen ((c.rules.filter fun r => r.group == g).map AtomicRule.text) ts

namespace StyleObject

/-- **What is compiled is consistent.** -/
theorem compile_consistent {pre : String} {v : StyleValue} {c : Compiled}
    (h : compile pre v = .ok c) :
    ∃ fields o, v = .object fields ∧ ofValue v = .ok o ∧ c.Consistent pre fields o := by
  obtain ⟨o, ho, hc⟩ := exists_of_bind_eq_ok h
  cases hc
  obtain ⟨fields, hfields, hslots, -⟩ := ofValue_eq_ok ho
  have hkeys : FirstSeen (fields.map Prod.fst) o.slots.keys := by
    have hmap : fields.map Prod.fst = (fields.map fun e => (e.1, sourceBlocks e.2)).map Prod.fst := by
      rw [map_map]
      rfl
    rw [hslots, hmap]
    exact OrderedMap.firstSeen_keys_ofList _
  have hfirst := firstSeen_keys_firstRules pre o
  refine ⟨fields, o, hfields, ho, ?_⟩
  constructor
  case slots =>
    have hclasses : (compileObject pre o).classes.keys = o.slots.keys := by
      rw [classes_compileObject pre hkeys.nodup, OrderedMap.keys, OrderedMap.mapValues, map_map]
      rfl
    rw [hclasses]
    exact hkeys
  case listed => exact count_classNames pre hkeys.nodup
  case ordered =>
    rw [classNames_compileObject]
    exact hfirst.ordered.filter _
  case first =>
    intro r hr
    rw [rules_compileObject] at hr
    obtain ⟨e, he, rfl⟩ := mem_map.1 (mem_filter.1 hr).1
    rw [className_of_mem_firstRules pre o he]
    exact find?_declared pre o he
  case groupKeys =>
    obtain ⟨gs, hgs, hsub⟩ := exists_keys_groups pre o
    have hrank : Group.all.Pairwise fun g h => g.rank < h.rank := by decide
    refine ⟨?_, ?_, gs, hgs, hrank.sublist hsub⟩
    · rw [hgs]
      exact (hsub.nodup (by decide)).map Group.key_injective
    · rw [hgs]
      intro hmem
      obtain ⟨g, -, hg⟩ := mem_map.1 hmem
      cases g <;> simp [Group.key] at hg
  case grouped =>
    intro r hr
    have hmem : r.text ∈ groupTexts (compileObject pre o).rules r.group := by
      rw [groupTexts, mem_dedup]
      exact mem_map_of_mem (mem_filter.2 ⟨hr, beq_self_eq_true _⟩)
    have hentry := (mem_groups_compileObject pre o).2 ⟨r.group, rfl, ne_nil_of_mem hmem⟩
    exact mem_map_of_mem hentry
  case texts =>
    intro g ts hts
    obtain ⟨g', heq, hne⟩ := (mem_groups_compileObject pre o).1 hts
    rw [Prod.mk.injEq] at heq
    rw [Group.key_injective heq.1, heq.2]
    exact ⟨hne, firstSeen_dedup _⟩

/-- A longhand that a shorthand replaces, a slot without declarations, and a declaration that two
slots share. -/
def overlapping : StyleValue :=
  .object [("root", .object [("paddingLeft", .string "1px"), ("padding", .string "2px"),
      (":hover", .object [("color", .string "red")])]),
    ("empty", .object []), ("icon", .object [("paddingTop", .string "2px")])]

theorem compile_consistent_overlapping :
    ∃ c, compile "f" overlapping = .ok c ∧ c.classes.keys = ["root", "empty", "icon"] ∧
      c.rules.length = 5 ∧ ∃ fields o, overlapping = .object fields ∧ ofValue overlapping = .ok o ∧
        c.Consistent "f" fields o := by
  obtain ⟨c, hc⟩ := exists_of_isOk (x := compile "f" overlapping) (by decide +kernel)
  have hparts : (compile "f" overlapping).toOption.map (fun c => (c.classes.keys, c.rules.length)) =
      some (["root", "empty", "icon"], 5) := by
    decide +kernel
  rw [hc] at hparts
  simp only [Except.toOption, Option.map_some, Option.some.injEq, Prod.mk.injEq] at hparts
  exact ⟨c, hc, hparts.1, hparts.2, compile_consistent hc⟩

end StyleObject
end AtomicStyles
