import AtomicStyles.Proofs.Style.Sources

/-!
# Which declaration of a property wins

In a slot a later declaration of a property replaces an earlier one of the same context.
Neighbouring declarations of one context share a block, though, and a key that is repeated
inside a block keeps its first place there. So the last declaration wins as long as no other
key sets the property between a declaration and its repetition; otherwise a declaration that
is written earlier can win.

## Main definitions

* `Source.Sets` — a declaration sets a property in a context.
* `Apart` — no key is repeated inside a block across another one that sets the property.
* `lastSetter`, `lastClass` — the last declaration that sets a property, and its class.

## Main results

* `lastSetter_addSources` — if keys stay apart, blocks have the last setter of the source.
* `last_declaration_wins` — and then it gives the slot its class.
* `earlier_declaration_wins` — two spellings of a selector, where it does not.
-/

namespace AtomicStyles

open List

/-- The declaration sets the property `q` in the context `p`. -/
def Source.Sets (p : List Segment) (q : String) (d : Source) : Prop :=
  d.path = p ∧ ∃ a ∈ d.atoms, a.property = q

instance (p : List Segment) (q : String) (d : Source) : Decidable (d.Sets p q) :=
  inferInstanceAs (Decidable (d.path = p ∧ ∃ a ∈ d.atoms, a.property = q))

/-- The repetitions of `d` among the later declarations `ds` may take its place: they set `q` if
`d` does, and no other key sets it before one that sets it. -/
def Source.Replaceable (p : List Segment) (q : String) (d : Source) (ds : List Source) : Prop :=
  (∀ e ∈ ds, e.key = d.key → d.Sets p q → e.Sets p q) ∧
    ds.Pairwise fun f e => e.key = d.key → e.Sets p q → f.Sets p q → f.key = d.key

instance (p : List Segment) (q : String) (d : Source) (ds : List Source) :
    Decidable (d.Replaceable p q ds) :=
  inferInstanceAs (Decidable (_ ∧ _))

namespace StyleObject

/-- Every declaration may give its place to its repetitions up to the next one of another
context. -/
def Apart (p : List Segment) (q : String) : List Source → Prop
  | [] => True
  | d :: ds => d.Replaceable p q (ds.takeWhile fun e => e.path = d.path) ∧ Apart p q ds

instance decidableApart (p : List Segment) (q : String) : ∀ ds, Decidable (Apart p q ds)
  | [] => .isTrue trivial
  | _ :: ds => @instDecidableAnd _ _ inferInstance (decidableApart p q ds)

/-- The last declaration that sets `q` in `p`. -/
def lastSetter (p : List Segment) (q : String) (ds : List Source) : Option Source :=
  (ds.filter (Source.Sets p q ·)).getLast?

/-- The class of the last declaration that sets `q` in `p`. -/
def lastClass (pre : String) (ds : List Source) (p : List Segment) (q : String) : Option String :=
  OrderedMap.last? ((ds.flatMap (sourceRules pre)).map fun x => (x.1, x.2.className)) (p, q)

variable {p : List Segment} {q : String}

theorem lastSetter_append (ds es : List Source) :
    lastSetter p q (ds ++ es) = (lastSetter p q es).or (lastSetter p q ds) := by
  rw [lastSetter, filter_append, getLast?_append, lastSetter, lastSetter]

variable {d : Source} {ds xs rest : List Source}

theorem lastSetter_singleton (h : d.Sets p q) : lastSetter p q [d] = some d := by
  simp [lastSetter, h]

theorem lastSetter_eq_none (h : ∀ d ∈ ds, ¬ d.Sets p q) : lastSetter p q ds = none := by
  rw [lastSetter, filter_eq_nil_iff.2 fun d hd => by simpa using h d hd]
  rfl

/-! ### One block -/

/-- All declarations of one context, those of a block and those that are still to come, may give
their places to their repetitions. -/
def Steady (p : List Segment) (q : String) : List Source → Prop
  | [] => True
  | d :: ds => d.Replaceable p q ds ∧ Steady p q ds

theorem Steady.sublist {es : List Source} (hsub : ds.Sublist es) (h : Steady p q es) :
    Steady p q ds := by
  induction hsub with
  | slnil => exact h
  | cons e _ ih => exact ih h.2
  | cons_cons e hsub ih =>
    obtain ⟨⟨hsets, hpair⟩, hrest⟩ := h
    exact ⟨⟨fun f hf => hsets f (hsub.subset hf), hpair.sublist hsub⟩, ih hrest⟩

/-- The declarations of one context at the head of a list that stays apart. -/
theorem steady_takeWhile (h : Apart p q ds) (path : List Segment) :
    Steady p q (ds.takeWhile fun e => e.path = path) := by
  induction ds with
  | nil => trivial
  | cons d ds ih =>
    by_cases hpath : d.path = path
    · rw [takeWhile_cons_of_pos (by simpa using hpath)]
      refine ⟨?_, ih h.2⟩
      rw [← hpath]
      exact h.1
    · rw [takeWhile_cons_of_neg (by simpa using hpath)]
      trivial

/-- Stores a declaration in the place of the one with its key, or last. -/
def replace (d : Source) : List Source → List Source
  | [] => [d]
  | x :: xs => if x.key = d.key then d :: xs else x :: replace d xs

theorem mem_replace {e : Source} (h : e ∈ replace d xs) : e = d ∨ e ∈ xs := by
  induction xs with
  | nil => exact .inl (mem_singleton.1 h)
  | cons x xs ih =>
    rw [replace] at h
    split at h
    · exact (mem_cons.1 h).imp_right (mem_cons_of_mem _)
    · rcases mem_cons.1 h with rfl | h
      · exact .inr (.head _)
      · exact (ih h).imp_right (mem_cons_of_mem _)

theorem mem_of_mem_replace_append {e : Source} (h : e ∈ replace d xs ++ rest) :
    e ∈ xs ++ d :: rest := by
  rcases mem_append.1 h with h | h
  · rcases mem_replace h with rfl | h
    · exact mem_append_right _ (.head _)
    · exact mem_append_left _ h
  · exact mem_append_right _ (.tail _ h)

/-- A relation between earlier and later declarations is kept when one of them moves forward to
the place of another, if it then stands in the relation to those that it passes. -/
theorem pairwise_replace {r : Source → Source → Prop} (h : (xs ++ d :: rest).Pairwise r)
    (hd : ∀ x ∈ xs, r d x) : (replace d xs ++ rest).Pairwise r := by
  induction xs with
  | nil => exact h
  | cons x xs ih =>
    rw [cons_append, pairwise_cons] at h
    obtain ⟨hx, hxs⟩ := h
    rw [replace]
    split
    · -- `d` stands in the place of `x`, before all that it has passed
      rw [cons_append, pairwise_cons]
      have hrest := (pairwise_cons.1 (pairwise_append.1 hxs).2.1).1
      refine ⟨fun e he => ?_, hxs.sublist ((sublist_cons_self d rest).append_left xs)⟩
      rcases mem_append.1 he with he | he
      · exact hd e (.tail _ he)
      · exact hrest e he
    · rw [cons_append, pairwise_cons]
      refine ⟨fun e he => hx e (mem_of_mem_replace_append he), ?_⟩
      exact ih hxs fun y hy => hd y (.tail _ hy)

/-- Storing the next declaration in a block with distinct keys keeps the declarations steady. -/
theorem steady_replace (hkeys : (xs.map Source.key).Nodup) (h : Steady p q (xs ++ d :: rest)) :
    Steady p q (replace d xs ++ rest) := by
  induction xs with
  | nil => exact h
  | cons x xs ih =>
    rw [map_cons, nodup_cons] at hkeys
    have hx : ∀ y ∈ xs, y.key ≠ x.key := fun y hy heq =>
      hkeys.1 (mem_map.2 ⟨y, hy, heq⟩)
    obtain ⟨⟨hsets, hpair⟩, hsteady⟩ := h
    rw [replace]
    split
    · -- `d` repeats the key of `x` and takes over what held of `x`
      next hkey =>
      have hsub : (xs ++ rest).Sublist (xs ++ d :: rest) :=
        (sublist_cons_self d rest).append_left xs
      have hd : Steady p q (d :: rest) := hsteady.sublist (sublist_append_right xs _)
      refine ⟨⟨fun e he hek => ?_, hkey ▸ hpair.sublist hsub⟩, hsteady.sublist hsub⟩
      rcases mem_append.1 he with he | he
      · exact absurd (hek.trans hkey.symm) (hx e he)
      · exact hd.1.1 e he hek
    · -- `d` only passes declarations whose key is not that of `x`
      have hpassed : (replace d xs ++ rest).Pairwise fun f e =>
          e.key = x.key → e.Sets p q → f.Sets p q → f.key = x.key :=
        pairwise_replace hpair fun y hy hyx => absurd hyx (hx y hy)
      exact ⟨⟨fun e he => hsets e (mem_of_mem_replace_append he), hpassed⟩, ih hkeys.2 hsteady⟩

/-- The declaration that is stored sets the property last, if it sets it at all. -/
theorem lastSetter_replace (hkeys : (xs.map Source.key).Nodup) (h : Steady p q (xs ++ [d])) :
    lastSetter p q (replace d xs) = lastSetter p q (xs ++ [d]) := by
  induction xs with
  | nil => rfl
  | cons x xs ih =>
    rw [map_cons, nodup_cons] at hkeys
    obtain ⟨⟨hsets, hpair⟩, hsteady⟩ := h
    rw [replace]
    split
    · next hkey =>
      by_cases hd : d.Sets p q
      · -- no other key sets the property between the two, so `d` is the last setter at both places
        have hxs : ∀ y ∈ xs, ¬ y.Sets p q := by
          intro y hy hset
          have hyd := (pairwise_append.1 hpair).2.2 y hy d (.head _)
          exact hkeys.1 (mem_map.2 ⟨y, hy, hyd hkey.symm hd hset⟩)
        rw [lastSetter_append, lastSetter_singleton hd, ← singleton_append, lastSetter_append,
          lastSetter_eq_none hxs, lastSetter_singleton hd]
        rfl
      · have hx : ¬ x.Sets p q := fun hx =>
          hd (hsets d (mem_append_right _ (.head _)) hkey.symm hx)
        simp [lastSetter, hd, hx]
    · rw [← singleton_append, lastSetter_append, ih hkeys.2 hsteady, ← lastSetter_append]
      rfl

/-! ### The blocks of a slot -/

/-- The declarations of blocks that stand last block first, in their order. -/
def listed (blocks : List Block) : List Source := blocks.reverse.flatMap blockSources

theorem listed_cons (b : Block) (bs : List Block) :
    listed (b :: bs) = listed bs ++ blockSources b := by
  simp [listed]

theorem blockSources_insert {b : Block} (hpath : b.path = d.path) :
    blockSources { b with declarations := b.declarations.insert d.key d.literal } =
      replace d (blockSources b) := by
  have hput : ∀ es : List (String × Literal),
      (OrderedMap.put d.key d.literal es).map (fun e => (⟨b.path, e.1, e.2⟩ : Source)) =
        replace d (es.map fun e => ⟨b.path, e.1, e.2⟩) := by
    intro es
    induction es with
    | nil => simp [OrderedMap.put, replace, hpath]
    | cons e es ih =>
      by_cases hkey : e.1 = d.key
      · simp [OrderedMap.put, replace, hkey, hpath]
      · simp [OrderedMap.put, replace, hkey, ih]
  exact hput b.declarations.entries

theorem map_key_blockSources (b : Block) :
    (blockSources b).map Source.key = b.declarations.keys := by
  simp [blockSources, OrderedMap.keys, Function.comp_def]

/-- The last block has distinct keys, and with what is still to be added to it it is steady. -/
def Settled (p : List Segment) (q : String) (blocks : List Block) (ds : List Source) : Prop :=
  ∀ b ∈ blocks.head?, b.declarations.keys.Nodup ∧
    Steady p q (blockSources b ++ ds.takeWhile fun e => e.path = b.path)

/-- One declaration is added: it sets the property last if it sets it, and the blocks stay
settled. -/
theorem lastSetter_declare {blocks : List Block} (hapart : Apart p q (d :: ds))
    (hblocks : Settled p q blocks (d :: ds)) :
    lastSetter p q (listed (declare d.path d.key d.literal blocks)) =
        lastSetter p q (listed blocks ++ [d]) ∧
      Settled p q (declare d.path d.key d.literal blocks) ds := by
  -- the declaration opens a block of its own
  have hopen : lastSetter p q (listed (⟨d.path, OrderedMap.empty.insert d.key d.literal⟩ :: blocks)) =
        lastSetter p q (listed blocks ++ [d]) ∧
      Settled p q (⟨d.path, OrderedMap.empty.insert d.key d.literal⟩ :: blocks) ds := by
    rw [listed_cons, blockSources_single]
    refine ⟨rfl, fun b hb => ?_⟩
    cases hb
    refine ⟨?_, hapart.1, steady_takeWhile hapart.2 d.path⟩
    simp [OrderedMap.keys, OrderedMap.insert, OrderedMap.put, OrderedMap.empty]
  cases blocks with
  | nil => exact hopen
  | cons b bs =>
    rw [declare]
    split
    · -- the declaration joins the last block
      next hpath =>
      obtain ⟨hnodup, hsteady⟩ := hblocks b rfl
      have hkeys : ((blockSources b).map Source.key).Nodup := by rwa [map_key_blockSources]
      rw [takeWhile_cons_of_pos (by simpa using hpath.symm)] at hsteady
      constructor
      · have hblock : Steady p q (blockSources b ++ [d]) :=
          hsteady.sublist ((List.Sublist.refl _).append (by simp))
        rw [listed_cons, listed_cons, blockSources_insert hpath, lastSetter_append,
          lastSetter_replace hkeys hblock, ← lastSetter_append, append_assoc]
      · intro b' hb'
        cases hb'
        refine ⟨OrderedMap.nodup_put hnodup, ?_⟩
        rw [blockSources_insert hpath]
        exact steady_replace hkeys hsteady
    · exact hopen

/-- **Blocks have the last setter of the source**, if keys stay apart. -/
theorem lastSetter_addSources {blocks : List Block} (hapart : Apart p q ds)
    (hblocks : Settled p q blocks ds) :
    lastSetter p q (listed (addSources blocks ds)) = lastSetter p q (listed blocks ++ ds) := by
  induction ds generalizing blocks with
  | nil => simp [addSources]
  | cons d ds ih =>
    obtain ⟨heq, hsettled⟩ := lastSetter_declare hapart hblocks
    have hrest := ih hapart.2 hsettled
    rw [addSources, foldl_cons, ← addSources, hrest, lastSetter_append, heq,
      ← lastSetter_append, append_assoc, singleton_append]

/-! ### The class of a property -/

theorem lastClass_append (pre : String) (ds es : List Source) :
    lastClass pre (ds ++ es) p q = (lastClass pre es p q).or (lastClass pre ds p q) := by
  rw [lastClass, flatMap_append, map_append, OrderedMap.last?_append, lastClass, lastClass]

theorem isSome_lastClass (pre : String) (d : Source) :
    (lastClass pre [d] p q).isSome ↔ d.Sets p q := by
  rw [lastClass, OrderedMap.isSome_last?, flatMap_singleton]
  constructor
  · rintro ⟨e, he, hkey⟩
    obtain ⟨x, hx, rfl⟩ := mem_map.1 he
    obtain ⟨a, ha, rfl⟩ := mem_map.1 hx
    obtain ⟨hp, hq⟩ := Prod.mk.inj hkey
    exact ⟨hp, a, ha, hq⟩
  · rintro ⟨hp, a, ha, hq⟩
    exact ⟨_, mem_map_of_mem (mem_map_of_mem ha), Prod.ext hp hq⟩

/-- The class of a property is that of its last setter. -/
theorem lastClass_eq_bind (pre : String) (ds : List Source) :
    lastClass pre ds p q = (lastSetter p q ds).bind fun d => lastClass pre [d] p q := by
  induction ds with
  | nil => rfl
  | cons d ds ih =>
    rw [← singleton_append, lastClass_append, lastSetter_append, ih]
    cases hlast : lastSetter p q ds with
    | none =>
      by_cases hd : d.Sets p q
      · rw [lastSetter_singleton hd]
        rfl
      · have hnone : lastClass pre [d] p q = none := by
          simpa using mt (isSome_lastClass pre d).1 hd
        rw [hnone, lastSetter_eq_none (by simpa using hd)]
        rfl
    | some e =>
      have he : e.Sets p q := by
        simpa using (mem_filter.1 (mem_of_getLast? hlast)).2
      obtain ⟨c, hc⟩ := Option.isSome_iff_exists.1 ((isSome_lastClass pre e).2 he)
      simp [hc]

/-- The classes by slot, in the order of the slots. -/
theorem classes_compileObject (pre : String) {o : StyleObject} (h : o.slots.keys.Nodup) :
    (compileObject pre o).classes = o.slots.mapValues fun blocks => slotClasses (slotRules pre blocks) := by
  have hmap := OrderedMap.ofList_map (fun blocks => slotClasses (slotRules pre blocks)) o.slots.entries
  rw [OrderedMap.ofList_entries h] at hmap
  rw [← hmap, compileObject]
  simp only [map_map, Function.comp_def]

/-- The classes of a slot by context and property. -/
def slotTable (pre : String) (v : StyleValue) : OrderedMap (List Segment × String) String :=
  OrderedMap.ofList ((slotRules pre (sourceBlocks v)).map fun x => (x.1, x.2.className))

theorem get?_slotTable (pre : String) {v : StyleValue} (hapart : Apart p q (slotSources v)) :
    (slotTable pre v).get? (p, q) = lastClass pre (slotSources v) p q := by
  have hlast : lastSetter p q (listed (addSources [] (slotSources v))) =
      lastSetter p q (slotSources v) :=
    lastSetter_addSources hapart fun b hb => by cases hb
  calc (slotTable pre v).get? (p, q)
      = lastClass pre (listed (addSources [] (slotSources v))) p q := by
        rw [slotTable, OrderedMap.get?_ofList, slotRules_eq, lastClass, listed, sourceBlocks]
    _ = lastClass pre (slotSources v) p q := by
        rw [lastClass_eq_bind, hlast, ← lastClass_eq_bind]

/-- **The last declaration wins**, if the keys that set its property stay apart: the classes of a
slot are listed by context and property, and each property has in each context the class of the
last declaration that sets it there. -/
theorem last_declaration_wins {pre slot : String} {before after : List (String × StyleValue)}
    {v : StyleValue} {c : Compiled} (h : compile pre (.object (before ++ (slot, v) :: after)) = .ok c)
    (hslot : ∀ e ∈ after, e.1 ≠ slot) :
    ∃ table : OrderedMap (List Segment × String) String,
      table.keys.Nodup ∧ c.classes.get? slot = some table.values ∧
        ∀ p q, Apart p q (slotSources v) → table.get? (p, q) = lastClass pre (slotSources v) p q := by
  obtain ⟨o, ho, h⟩ := exists_of_bind_eq_ok h
  cases h
  obtain ⟨fields, hfields, hslots, -⟩ := ofValue_eq_ok ho
  cases hfields
  refine ⟨slotTable pre v, OrderedMap.nodup_keys_ofList _, ?_, fun p q => get?_slotTable pre⟩
  have hnodup : o.slots.keys.Nodup := by
    rw [hslots]
    exact OrderedMap.nodup_keys_ofList _
  have hblocks : o.slots.get? slot = some (sourceBlocks v) := by
    rw [hslots, OrderedMap.get?_ofList, map_append, map_cons]
    refine OrderedMap.last?_append_cons _ fun e he => ?_
    obtain ⟨f, hf, rfl⟩ := mem_map.1 he
    exact hslot f hf
  rw [classes_compileObject pre hnodup, OrderedMap.get?_mapValues, hblocks]
  rfl

/-- Two spellings of a selector with a declaration of another context between them. -/
def spacedSpellings : StyleValue :=
  .object [(":hover", .object [("paddingLeft", .string "1px"), ("padding", .string "2px")]),
    ("color", .string "red"), ("&:hover", .object [("paddingLeft", .string "3px")])]

theorem last_declaration_wins_spaced :
    ∃ c, compile "f" (.object [("root", spacedSpellings)]) = .ok c ∧
      ∃ table : OrderedMap (List Segment × String) String,
        c.classes.get? "root" = some table.values ∧
          table.get? ([.selector "&:hover"], "padding-left") = some "f0dvbdkkvu2ufz" := by
  have hapart : Apart [.selector "&:hover"] "padding-left" (slotSources spacedSpellings) := by
    decide +kernel
  have hlast : lastClass "f" (slotSources spacedSpellings) [.selector "&:hover"] "padding-left" =
      some "f0dvbdkkvu2ufz" := by decide +kernel
  obtain ⟨c, hc⟩ := exists_of_isOk (x := compile "f" (.object [("root", spacedSpellings)]))
    (by decide +kernel)
  obtain ⟨table, -, hclasses, hget⟩ :=
    @last_declaration_wins "f" "root" [] [] spacedSpellings c hc (by simp)
  exact ⟨c, hc, table, hclasses, (hget _ _ hapart).trans hlast⟩

/-- Two spellings of a selector next to each other. -/
def adjoiningSpellings : StyleValue :=
  .object [(":hover", .object [("paddingLeft", .string "1px"), ("padding", .string "2px")]),
    ("&:hover", .object [("paddingLeft", .string "3px")])]

/-- The last declaration of `padding-left` is lost: its value takes the place of the first one,
before the shorthand. -/
theorem earlier_declaration_wins :
    (compile "f" (.object [("root", adjoiningSpellings)])).toOption.bind (·.classes.get? "root") =
        some ["f0iv977s7nwk7z", "f2jcnrawtcs5rp", "f0560sbt9ax00b", "f3kk738ln6j3tj"] ∧
      lastClass "f" (slotSources adjoiningSpellings) [.selector "&:hover"] "padding-left" =
        some "f0dvbdkkvu2ufz" := by
  decide +kernel

end StyleObject
end AtomicStyles
