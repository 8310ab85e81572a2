import Mathlib
import AtomicStyles.Eval.Convert

/-!
# Arrays that contain themselves

The text of an array joins those of its items, so that it does not exist where items lead back
to an array that has been met. A machine has finitely many arrays: items that nest deeper than
there are arrays have met one of them twice. Texts are looked for down to that depth, which
therefore finds every text that exists.

## Main definitions

* `Machine.HasItem` — an array and one of its items.
* `Machine.Circular` — values from which an array that contains itself is reached.

## Main results

* `Machine.text_eq_endless_iff` — **the text of a value is found unless it is circular.**
-/

namespace AtomicStyles

/-! ### Lists of results -/

section

variable {α β ε : Type} {f : α → Except ε β} {l : List α} {a : α} {e : ε}

/-- Of computations that fail together, one fails. -/
theorem exists_of_mapM_eq_error (h : l.mapM f = .error e) : ∃ a ∈ l, f a = .error e := by
  induction l with
  | nil => cases h
  | cons a l ih =>
    rw [List.mapM_cons] at h
    cases hfa : f a with
    | error e' =>
      rw [hfa] at h
      cases h
      exact ⟨a, List.mem_cons_self, hfa⟩
    | ok b =>
      rw [hfa] at h
      cases hl : l.mapM f with
      | ok bs =>
        simp only [bind, Except.bind, hl] at h
        cases h
      | error e' =>
        simp only [bind, Except.bind, hl] at h
        cases h
        obtain ⟨a', ha', hfa'⟩ := ih hl
        exact ⟨a', List.mem_cons_of_mem _ ha', hfa'⟩

/-- Computations of which one fails, fail together. -/
theorem exists_mapM_eq_error (ha : a ∈ l) (h : f a = .error e) : ∃ e', l.mapM f = .error e' := by
  induction l with
  | nil => cases ha
  | cons a' l ih =>
    rw [List.mapM_cons]
    cases hfa' : f a' with
    | error e' => exact ⟨e', rfl⟩
    | ok b =>
      rcases List.mem_cons.1 ha with rfl | ha
      · rw [h] at hfa'
        cases hfa'
      · obtain ⟨e', he'⟩ := ih ha
        rw [he']
        exact ⟨e', rfl⟩

end

namespace Machine

variable {m : Machine} {v w : Value} {depth : Nat} {e : EvalError}

/-! ### Items -/

/-- The first value is an array, and the second one of its items. -/
def HasItem (m : Machine) (v w : Value) : Prop :=
  ∃ r, v = .array r ∧ w ∈ (m.arrayCell r).content

/-- Items lead from the value to an array that contains itself. -/
def Circular (m : Machine) (v : Value) : Prop :=
  ∃ w, Relation.ReflTransGen m.HasItem v w ∧ Relation.TransGen m.HasItem w w

/-- What has items is one of the machine's arrays. -/
theorem HasItem.exists_lt (h : m.HasItem v w) : ∃ k < m.arrays.size, .array ⟨k⟩ = v := by
  obtain ⟨r, rfl, hw⟩ := h
  refine ⟨r.index, ?_, rfl⟩
  by_contra hlt
  rw [arrayCell, Array.getD_eq_getD_getElem?, Array.getElem?_eq_none (by omega)] at hw
  exact Array.not_mem_empty w hw

theorem Circular.exists_item (h : m.Circular v) : ∃ w, m.HasItem v w ∧ m.Circular w := by
  obtain ⟨w, hvw, hww⟩ := h
  rcases hvw.cases_head with rfl | ⟨u, hvu, huw⟩
  · obtain ⟨u, hvu, huv⟩ := Relation.TransGen.head'_iff.1 hww
    exact ⟨u, hvu, v, huv, hww⟩
  · exact ⟨u, hvu, w, huw, hww⟩

/-! ### Texts -/

theorem eq_of_text_zero_eq_error (h : m.text 0 v = .error e) : e = .endlessText := by
  cases v with
  | array r =>
    cases h
    rfl
  | _ => cases h

/-- A value has no text because one of its items has none. -/
theorem exists_item_of_text_eq_error (h : m.text (depth + 1) v = .error e) :
    ∃ w, m.HasItem v w ∧ m.text depth w = .error e := by
  cases v with
  | array r =>
    rw [text] at h
    cases hitems : (m.arrayCell r).content.toList.mapM fun v =>
        if v.isNullish then .ok "" else m.text depth v with
    | ok texts =>
      rw [hitems] at h
      cases h
    | error e' =>
      rw [hitems] at h
      cases h
      obtain ⟨w, hw, hwe⟩ := exists_of_mapM_eq_error hitems
      refine ⟨w, ⟨r, rfl, Array.mem_toList_iff.1 hw⟩, ?_⟩
      split at hwe
      · cases hwe
      · exact hwe
  | _ => cases h

/-- A text can be missing for one reason only. -/
theorem eq_of_text_eq_error (h : m.text depth v = .error e) : e = .endlessText := by
  induction depth generalizing v with
  | zero => exact eq_of_text_zero_eq_error h
  | succ depth ih =>
    obtain ⟨w, -, hw⟩ := exists_item_of_text_eq_error h
    exact ih hw

theorem HasItem.text_eq_error (h : m.HasItem v w) (hw : m.text depth w = .error .endlessText) :
    m.text (depth + 1) v = .error .endlessText := by
  obtain ⟨r, rfl, hmem⟩ := h
  have hitem : (if w.isNullish then .ok "" else m.text depth w) =
      (.error .endlessText : Except EvalError String) := by
    cases w with
    | undefined => cases depth <;> cases hw
    | null => cases depth <;> cases hw
    | _ => exact hw
  obtain ⟨e, he⟩ := exists_mapM_eq_error
    (f := fun v => if v.isNullish then .ok "" else m.text depth v)
    (Array.mem_toList_iff.2 hmem) hitem
  have htext : m.text (depth + 1) (.array r) = .error e := by
    rw [text, he]
    rfl
  rw [htext, eq_of_text_eq_error htext]

/-- A circular value has no text, however deep it is looked for. -/
theorem Circular.text_eq_error (h : m.Circular v) (depth : Nat) :
    m.text depth v = .error .endlessText := by
  induction depth generalizing v with
  | zero =>
    obtain ⟨w, ⟨r, rfl, -⟩, -⟩ := h.exists_item
    rfl
  | succ depth ih =>
    obtain ⟨w, hvw, hw⟩ := h.exists_item
    exact hvw.text_eq_error (ih hw)

/-! ### Items that nest deep -/

/-- A value without a text down to some depth has items that nest as deep. -/
theorem exists_path_of_text_eq_error (h : m.text depth v = .error e) :
    ∃ p : Nat → Value, p 0 = v ∧ ∀ i < depth, m.HasItem (p i) (p (i + 1)) := by
  induction depth generalizing v with
  | zero => exact ⟨fun _ => v, rfl, fun i hi => absurd hi (Nat.not_lt_zero i)⟩
  | succ depth ih =>
    obtain ⟨w, hvw, hw⟩ := exists_item_of_text_eq_error h
    obtain ⟨p, rfl, hp⟩ := ih hw
    refine ⟨fun i => i.casesOn v p, rfl, fun i hi => ?_⟩
    cases i with
    | zero => exact hvw
    | succ i => exact hp i (by omega)

/-- A path leads from each of its values to all that follow. -/
theorem reaches_of_path {p : Nat → Value} {n : Nat}
    (hp : ∀ i < n, m.HasItem (p i) (p (i + 1))) {i j : Nat} (hij : i ≤ j) (hj : j ≤ n) :
    Relation.ReflTransGen m.HasItem (p i) (p j) := by
  induction j, hij using Nat.le_induction with
  | base => exact .refl
  | succ j hij ih => exact (ih (by omega)).tail (hp j (by omega))

/-- Items that nest deeper than there are arrays lead back to an array that they have met. -/
theorem circular_of_path {p : Nat → Value}
    (hp : ∀ i < m.arrays.size + 1, m.HasItem (p i) (p (i + 1))) : m.Circular (p 0) := by
  classical
  -- There is one more value with items than there are arrays.
  let arrays : Finset Value := (Finset.range m.arrays.size).image fun k => .array ⟨k⟩
  have hcard : arrays.card < (Finset.range (m.arrays.size + 1)).card := by
    refine Finset.card_image_le.trans_lt ?_
    rw [Finset.card_range, Finset.card_range]
    exact Nat.lt_succ_self _
  have hmem : ∀ i ∈ Finset.range (m.arrays.size + 1), p i ∈ arrays := by
    intro i hi
    obtain ⟨k, hk, hpi⟩ := (hp i (Finset.mem_range.1 hi)).exists_lt
    exact Finset.mem_image.2 ⟨k, Finset.mem_range.2 hk, hpi⟩
  -- So two of them are the same array, which is met again on the way from one to the other.
  obtain ⟨i, hi, j, hj, hne, heq⟩ := Finset.exists_ne_map_eq_of_card_lt_of_maps_to hcard hmem
  rw [Finset.mem_range] at hi hj
  wlog hlt : i < j generalizing i j
  · exact this j hj i hi hne.symm heq.symm (by omega)
  refine ⟨p i, reaches_of_path hp (Nat.zero_le i) (by omega), ?_⟩
  have hloop := Relation.TransGen.head' (hp i hi) (reaches_of_path hp hlt (by omega))
  rwa [← heq] at hloop

theorem text_eq_endless_iff (m : Machine) (v : Value) :
    m.text (m.arrays.size + 1) v = .error .endlessText ↔ m.Circular v := by
  constructor
  · intro h
    obtain ⟨p, rfl, hp⟩ := exists_path_of_text_eq_error h
    exact circular_of_path hp
  · exact fun h => h.text_eq_error _

end Machine

/-- A conversion to text ends with a text unless the value is circular. -/
theorem Eval.text_eq_error_iff (m : Machine) (v : Value) :
    text v m = .error .endlessText m ↔ m.Circular v := by
  cases v with
  | array r =>
    rw [← m.text_eq_endless_iff]
    show conclude (m.text (m.arrays.size + 1) (.array r)) m = _ ↔ _
    cases m.text (m.arrays.size + 1) (.array r) with
    | ok t => exact ⟨nofun, nofun⟩
    | error e => exact ⟨fun h => by cases h; rfl, fun h => by cases h; rfl⟩
  | _ =>
    refine ⟨nofun, fun h => ?_⟩
    obtain ⟨w, ⟨r, hr, -⟩, -⟩ := h.exists_item
    cases hr

end AtomicStyles
