/-!
# Maps that keep the order of their keys

An `OrderedMap` is a list of entries. Storing under a new key appends an entry;
storing under a key that is present replaces its value where it stands. The order of
the entries is therefore the order in which the keys first came.
-/

namespace AtomicStyles

/-- A finite map whose entries stand in the order in which their keys first came. -/
structure OrderedMap (κ ν : Type) where
  entries : List (κ × ν) := []
deriving Repr

namespace OrderedMap

variable {κ ν : Type} [BEq κ]

instance : Inhabited (OrderedMap κ ν) := ⟨⟨[]⟩⟩

def empty : OrderedMap κ ν := ⟨[]⟩

/-- Replaces the value under `k` in a list of entries, or appends a new entry. -/
def put (k : κ) (v : ν) : List (κ × ν) → List (κ × ν)
  | [] => [(k, v)]
  | e :: es => if e.1 == k then (e.1, v) :: es else e :: put k v es

/-- The value of the first entry under `k`. -/
def find (k : κ) : List (κ × ν) → Option ν
  | [] => none
  | e :: es => if e.1 == k then some e.2 else find k es

/-- Replaces the value under `k`, or appends a new entry. -/
def insert (m : OrderedMap κ ν) (k : κ) (v : ν) : OrderedMap κ ν := ⟨put k v m.entries⟩

/-- The value under `k`. -/
def get? (m : OrderedMap κ ν) (k : κ) : Option ν := find k m.entries

def contains (m : OrderedMap κ ν) (k : κ) : Bool := (m.get? k).isSome

/-- Stores `v` under `k` unless the key is present. -/
def insertNew (m : OrderedMap κ ν) (k : κ) (v : ν) : OrderedMap κ ν :=
  if m.contains k then m else ⟨m.entries ++ [(k, v)]⟩

/-- Drops the entries under `k`. -/
def erase (m : OrderedMap κ ν) (k : κ) : OrderedMap κ ν := ⟨m.entries.filter fun e => !(e.1 == k)⟩

def keys (m : OrderedMap κ ν) : List κ := m.entries.map (·.1)

def values (m : OrderedMap κ ν) : List ν := m.entries.map (·.2)

def size (m : OrderedMap κ ν) : Nat := m.entries.length

def isEmpty (m : OrderedMap κ ν) : Bool := m.entries.isEmpty

/-- Stores the pairs one after the other. -/
def ofList (es : List (κ × ν)) : OrderedMap κ ν := es.foldl (fun m e => m.insert e.1 e.2) empty

/-- Changes the value under `k` by `f`, which is given `none` for an absent key. -/
def alter (m : OrderedMap κ ν) (k : κ) (f : Option ν → ν) : OrderedMap κ ν :=
  m.insert k (f (m.get? k))

/-- The map with its values passed through a function. -/
def mapValues {ν' : Type} (f : ν → ν') (m : OrderedMap κ ν) : OrderedMap κ ν' :=
  ⟨m.entries.map fun e => (e.1, f e.2)⟩

@[simp] theorem get?_empty (k : κ) : (empty : OrderedMap κ ν).get? k = none := rfl

theorem find_put [LawfulBEq κ] (k k' : κ) (v : ν) (es : List (κ × ν)) :
    find k' (put k v es) = if k == k' then some v else find k' es := by
  induction es with
  | nil => simp [put, find]
  | cons e es ih =>
    unfold put
    split <;> simp_all only [find, beq_iff_eq]
    all_goals grind

theorem get?_insert [LawfulBEq κ] (m : OrderedMap κ ν) (k k' : κ) (v : ν) :
    (m.insert k v).get? k' = if k == k' then some v else m.get? k' :=
  find_put k k' v m.entries

theorem get?_insert_ne_none [LawfulBEq κ] {m : OrderedMap κ ν} {k' : κ} (h : m.get? k' ≠ none) (k : κ)
    (v : ν) : (m.insert k v).get? k' ≠ none := by
  rw [get?_insert]
  split
  · exact Option.some_ne_none v
  · exact h

theorem find_map {ν' : Type} (f : ν → ν') (k : κ) (es : List (κ × ν)) :
    find k (es.map fun e => (e.1, f e.2)) = (find k es).map f := by
  induction es with
  | nil => rfl
  | cons e es ih =>
    simp only [List.map_cons, find, ih]
    split <;> rfl

theorem put_map {ν' : Type} (f : ν → ν') (k : κ) (v : ν) (es : List (κ × ν)) :
    put k (f v) (es.map fun e => (e.1, f e.2)) = (put k v es).map fun e => (e.1, f e.2) := by
  induction es with
  | nil => rfl
  | cons e es ih =>
    simp only [List.map_cons, put, ih]
    split <;> rfl

@[simp] theorem get?_mapValues {ν' : Type} (f : ν → ν') (m : OrderedMap κ ν) (k : κ) :
    (m.mapValues f).get? k = (m.get? k).map f := find_map f k m.entries

theorem insert_mapValues {ν' : Type} (f : ν → ν') (m : OrderedMap κ ν) (k : κ) (v : ν) :
    (m.mapValues f).insert k (f v) = (m.insert k v).mapValues f := by
  simp only [insert, mapValues, put_map]

theorem ofList_map {ν' : Type} (f : ν → ν') (es : List (κ × ν)) :
    ofList (es.map fun e => (e.1, f e.2)) = (ofList es).mapValues f := by
  have h : ∀ m : OrderedMap κ ν,
      es.foldl (fun (m : OrderedMap κ ν') e => m.insert e.1 (f e.2)) (m.mapValues f) =
        (es.foldl (fun m e => m.insert e.1 e.2) m).mapValues f := by
    induction es with
    | nil => exact fun _ => rfl
    | cons e es ih =>
      intro m
      rw [List.foldl_cons, List.foldl_cons, insert_mapValues, ih]
  rw [ofList, List.foldl_map]
  exact h empty

/-! ### Keys and last values -/

theorem mem_entries_of_get? [LawfulBEq κ] {m : OrderedMap κ ν} {k : κ} {v : ν}
    (h : m.get? k = some v) : (k, v) ∈ m.entries := by
  obtain ⟨entries⟩ := m
  unfold get? at h
  induction entries with
  | nil => cases h
  | cons e es ih =>
    unfold find at h
    split at h
    · next heq =>
      cases h
      cases beq_iff_eq.1 heq
      exact List.mem_cons_self
    · exact List.mem_cons_of_mem _ (ih h)

theorem mem_keys_of_get? [LawfulBEq κ] {m : OrderedMap κ ν} {k : κ} {v : ν}
    (h : m.get? k = some v) : k ∈ m.keys :=
  List.mem_map_of_mem (mem_entries_of_get? h)

theorem mem_keys_iff [LawfulBEq κ] {m : OrderedMap κ ν} {k : κ} : k ∈ m.keys ↔ m.contains k := by
  constructor
  · intro hk
    obtain ⟨entries⟩ := m
    induction entries with
    | nil => cases hk
    | cons e es ih =>
      rw [contains, get?, find]
      split
      · rfl
      · rename_i hne
        rcases List.mem_cons.1 hk with rfl | hk
        · simp at hne
        · exact ih hk
  · intro hk
    obtain ⟨v, hv⟩ := Option.isSome_iff_exists.1 hk
    exact mem_keys_of_get? hv

theorem mem_put [LawfulBEq κ] {k : κ} {v : ν} {es : List (κ × ν)} {e : κ × ν}
    (h : e ∈ put k v es) : e = (k, v) ∨ e ∈ es := by
  induction es with
  | nil => exact .inl (List.mem_singleton.1 h)
  | cons f es ih =>
    unfold put at h
    split at h
    · next hf =>
      rcases List.mem_cons.1 h with rfl | h
      · exact .inl (by rw [eq_of_beq hf])
      · exact .inr (List.mem_cons_of_mem _ h)
    · rcases List.mem_cons.1 h with rfl | h
      · exact .inr List.mem_cons_self
      · exact (ih h).imp_right (List.mem_cons_of_mem _)

theorem mem_foldl_insert [LawfulBEq κ] {es : List (κ × ν)} {m : OrderedMap κ ν} {e : κ × ν}
    (h : e ∈ (es.foldl (fun m e => m.insert e.1 e.2) m).entries) : e ∈ m.entries ∨ e ∈ es := by
  induction es generalizing m with
  | nil => exact .inl h
  | cons f es ih =>
    rcases ih h with h | h
    · rcases mem_put h with rfl | h
      · exact .inr List.mem_cons_self
      · exact .inl h
    · exact .inr (List.mem_cons_of_mem _ h)

theorem mem_of_mem_ofList [LawfulBEq κ] {es : List (κ × ν)} {e : κ × ν} (h : e ∈ (ofList es).entries) :
    e ∈ es :=
  (mem_foldl_insert h).resolve_left List.not_mem_nil

theorem mem_foldl_insertNew {α : Type} (key : α → κ) (value : α → ν) {as : List α}
    {m : OrderedMap κ ν} {e : κ × ν}
    (h : e ∈ (as.foldl (fun m a => m.insertNew (key a) (value a)) m).entries) :
    e ∈ m.entries ∨ ∃ a ∈ as, e = (key a, value a) := by
  induction as generalizing m with
  | nil => exact .inl h
  | cons a as ih =>
    rcases ih h with h | ⟨b, hb, rfl⟩
    · dsimp only [insertNew] at h
      split at h
      · exact .inl h
      · rcases List.mem_append.1 h with h | h
        · exact .inl h
        · exact .inr ⟨a, List.mem_cons_self, List.mem_singleton.1 h⟩
    · exact .inr ⟨b, List.mem_cons_of_mem _ hb, rfl⟩

theorem put_of_absent [LawfulBEq κ] {k : κ} {es : List (κ × ν)} (h : ∀ e ∈ es, e.1 ≠ k) (v : ν) :
    put k v es = es ++ [(k, v)] := by
  induction es with
  | nil => rfl
  | cons e es ih =>
    have he : ¬ (e.1 == k) = true := by simpa using h e List.mem_cons_self
    rw [put, if_neg he, ih fun f hf => h f (List.mem_cons_of_mem _ hf), List.cons_append]

theorem nodup_put [LawfulBEq κ] {k : κ} {v : ν} {es : List (κ × ν)} (h : (es.map (·.1)).Nodup) :
    ((put k v es).map (·.1)).Nodup := by
  induction es with
  | nil => simp [put]
  | cons e es ih =>
    rw [List.map_cons, List.nodup_cons] at h
    unfold put
    split
    · simpa using h
    · next he =>
      rw [List.map_cons, List.nodup_cons]
      refine ⟨fun hmem => ?_, ih h.2⟩
      obtain ⟨f, hf, hfe⟩ := List.mem_map.1 hmem
      rcases mem_put hf with rfl | hf
      · exact he (by simp [← hfe])
      · exact h.1 (List.mem_map.2 ⟨f, hf, hfe⟩)

theorem nodup_keys_foldl [LawfulBEq κ] (es : List (κ × ν)) {m : OrderedMap κ ν} (h : m.keys.Nodup) :
    (es.foldl (fun m e => m.insert e.1 e.2) m).keys.Nodup := by
  induction es generalizing m with
  | nil => exact h
  | cons e es ih => exact ih (nodup_put h)

theorem nodup_keys_ofList [LawfulBEq κ] (es : List (κ × ν)) : (ofList es).keys.Nodup :=
  nodup_keys_foldl es List.nodup_nil

/-- Storing entries under keys that are all different and absent appends them. -/
theorem foldl_insert_of_nodup [LawfulBEq κ] (es : List (κ × ν)) (m : OrderedMap κ ν)
    (h : (m.entries ++ es |>.map (·.1)).Nodup) :
    es.foldl (fun m e => m.insert e.1 e.2) m = ⟨m.entries ++ es⟩ := by
  induction es generalizing m with
  | nil => simp
  | cons e es ih =>
    have habsent : ∀ f ∈ m.entries, f.1 ≠ e.1 := by
      intro f hf heq
      rw [List.map_append, List.nodup_append] at h
      exact h.2.2 f.1 (List.mem_map_of_mem hf) e.1 (by simp) heq
    have hinsert : m.insert e.1 e.2 = ⟨m.entries ++ [e]⟩ := by
      rw [insert, put_of_absent habsent]
    rw [List.foldl_cons, hinsert, ih _ (by simpa using h)]
    simp

/-- A map is built anew from its entries. -/
theorem ofList_entries [LawfulBEq κ] {m : OrderedMap κ ν} (h : m.keys.Nodup) :
    ofList m.entries = m :=
  foldl_insert_of_nodup m.entries empty (by simpa [empty, keys] using h)

/-- The last value that a list of entries holds under a key. -/
def last? (es : List (κ × ν)) (k : κ) : Option ν :=
  (es.filter fun e => e.1 == k).getLast?.map (·.2)

theorem last?_append (es fs : List (κ × ν)) (k : κ) :
    last? (es ++ fs) k = (last? fs k).or (last? es k) := by
  simp [last?, Option.map_or]

theorem isSome_last? [LawfulBEq κ] {es : List (κ × ν)} {k : κ} :
    (last? es k).isSome ↔ ∃ e ∈ es, e.1 = k := by
  simp [last?]

theorem last?_append_cons [LawfulBEq κ] {k : κ} (v : ν) {before after : List (κ × ν)}
    (h : ∀ e ∈ after, e.1 ≠ k) : last? (before ++ (k, v) :: after) k = some v := by
  have hafter : after.filter (fun e => e.1 == k) = [] :=
    List.filter_eq_nil_iff.2 fun e he => by simpa using h e he
  simp [last?, hafter]

theorem get?_foldl_insert [LawfulBEq κ] (k : κ) (es : List (κ × ν)) (m : OrderedMap κ ν) :
    (es.foldl (fun m e => m.insert e.1 e.2) m).get? k = (last? es k).or (m.get? k) := by
  induction es generalizing m with
  | nil => simp [last?]
  | cons e es ih =>
    rw [List.foldl_cons, ih, get?_insert]
    by_cases h : e.1 == k
    · simp [last?, h, List.getLast?_cons]
    · simp [last?, h]

/-- **The last value stored under a key is the one that is kept.** -/
theorem get?_ofList [LawfulBEq κ] (es : List (κ × ν)) (k : κ) :
    (ofList es).get? k = last? es k := by
  rw [ofList, get?_foldl_insert, get?_empty, Option.or_none]

end OrderedMap
end AtomicStyles
