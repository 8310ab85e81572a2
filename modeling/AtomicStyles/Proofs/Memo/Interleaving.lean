import Mathlib
import AtomicStyles.Memo

/-!
# A memo with concurrent callers

Callers of one memo go through it in small steps, and the steps of several callers may follow one
another in any order. The memo is a map from keys to cells under a lock. A caller looks its key up
under the read lock; if there is no cell yet, it takes the write lock and looks again, since
another caller may have come first, before it makes one. What happens at a cell happens without
the lock: the first caller that comes to an empty cell runs its initializer, and the others wait.

A `Shared` memo is a state of such a run, with a record of the initializers that were begun and of
the answers that were given. A schedule says which caller takes the next step.

## Main definitions

* `Memo.Request`, `Memo.Call` — what a caller asks for, and how far it is.
* `Memo.Shared.step` — one atomic step of one caller.
* `Memo.Shared.after` — the state after a schedule.
* `Memo.Shared.Layout`, `Memo.Shared.Guarded` — what holds of cells and of initializers.

## Main statements

* `Memo.Shared.step_cases` — what a step can do.
* `Memo.Shared.Layout.step`, `Memo.Shared.Guarded.step` — a step keeps what holds of the cells and
  of the initializers.
* `Memo.Shared.after_induction` — what every step keeps holds after every schedule.
-/

namespace AtomicStyles
namespace Memo

open List

variable {κ ν : Type}

/-! ### Requests and calls -/

/-- What a caller asks for. -/
inductive Request (κ ν : Type) where
  | getOrInit (key : κ) (init : Unit → ν)
  | get (key : κ)

namespace Request

/-- The key that is asked for. -/
def key : Request κ ν → κ
  | getOrInit k _ => k
  | get k => k

/-- The key that a request makes a cell for. -/
def initKey? : Request κ ν → Option κ
  | getOrInit k _ => some k
  | get _ => none

theorem key_of_initKey? {r : Request κ ν} {k : κ} (h : r.initKey? = some k) : r.key = k := by
  cases r <;> simp_all [initKey?, key]

end Request

/-- The cell of a key. -/
inductive Cell (ν : Type) where
  | empty
  /-- An initializer has begun and has not given its value. -/
  | running
  | done (v : ν)

def Cell.value? : Cell ν → Option ν
  | done v => some v
  | _ => none

/-- How far a call is. Other callers may take any steps before it goes on. -/
inductive Call (κ ν : Type) where
  /-- The key has not been looked up. -/
  | looking (r : Request κ ν)
  /-- There was no cell when the key was looked up. -/
  | missed (key : κ) (init : Unit → ν)
  /-- The cell of the key is at hand. -/
  | waiting (key : κ) (init : Unit → ν) (cell : Nat)
  /-- The same of a caller that only wants to see the value. -/
  | peeking (key : κ) (cell : Nat)
  /-- The caller runs its initializer. -/
  | initializing (key : κ) (init : Unit → ν) (cell : Nat)
  | answered (r : Request κ ν) (answer : Option ν)

namespace Call

def request : Call κ ν → Request κ ν
  | looking r => r
  | missed k init => .getOrInit k init
  | waiting k init _ => .getOrInit k init
  | peeking k _ => .get k
  | initializing k init _ => .getOrInit k init
  | answered r _ => r

/-- The cell at hand, with its key. -/
def held? : Call κ ν → Option (κ × Nat)
  | waiting k _ n => some (k, n)
  | peeking k n => some (k, n)
  | initializing k _ n => some (k, n)
  | _ => none

/-- The key of a call that has seen to it that there is a cell. -/
def reachedKey? : Call κ ν → Option κ
  | waiting k _ _ => some k
  | initializing k _ _ => some k
  | answered r _ => r.initKey?
  | _ => none

/-- How many steps are left at most. -/
def remaining : Call κ ν → Nat
  | looking _ => 4
  | missed _ _ => 3
  | waiting _ _ _ => 2
  | peeking _ _ => 2
  | initializing _ _ _ => 1
  | answered _ _ => 0

variable {c : Call κ ν}

theorem reachedKey?_eq_none (h : 2 < c.remaining) : c.reachedKey? = none := by
  cases c <;> simp_all [remaining, reachedKey?]

/-- A call that has a cell, or that goes for one, is answered under the same key. -/
theorem initKey?_of_reachedKey? {k : κ} (h : c.reachedKey? = some k) :
    c.request.initKey? = some k := by
  cases c <;> simp_all [reachedKey?, request, Request.initKey?]

theorem held?_of_reachedKey? {k : κ} (h : c.reachedKey? = some k) (hlow : 0 < c.remaining) :
    ∃ n, c.held? = some (k, n) := by
  cases c <;> simp_all [reachedKey?, remaining, held?]

end Call

/-! ### Steps -/

/-- A memo that several callers use. -/
structure Shared (κ ν : Type) where
  /-- The number of the cell of each key. -/
  map : OrderedMap κ Nat := {}
  cells : List (Cell ν) := []
  calls : List (Call κ ν) := []
  /-- The initializers that were begun, with their keys. -/
  begun : List (κ × (Unit → ν)) := []
  /-- The answers in the order in which they were given. -/
  answers : List (Request κ ν × Option ν) := []

/-- What happens next: a caller begins a call, or the call of a number takes its next step. -/
inductive Action (κ ν : Type) where
  | start (r : Request κ ν)
  | advance (call : Nat)

namespace Shared

variable [DecidableEq κ]

def start (w : Shared κ ν) (r : Request κ ν) : Shared κ ν :=
  { w with calls := w.calls ++ [.looking r] }

/-- A call goes on to its next state. -/
def put (w : Shared κ ν) (i : Nat) (c : Call κ ν) : Shared κ ν :=
  { w with calls := w.calls.set i c }

/-- A key gets an empty cell. -/
def create (w : Shared κ ν) (k : κ) : Shared κ ν :=
  { w with map := w.map.insert k w.cells.length, cells := w.cells ++ [.empty] }

def begin (w : Shared κ ν) (k : κ) (init : Unit → ν) (n : Nat) : Shared κ ν :=
  { w with cells := w.cells.set n .running, begun := w.begun ++ [(k, init)] }

/-- A cell gets its value. -/
def fill (w : Shared κ ν) (n : Nat) (v : ν) : Shared κ ν :=
  { w with cells := w.cells.set n (.done v) }

def answer (w : Shared κ ν) (i : Nat) (r : Request κ ν) (a : Option ν) : Shared κ ν :=
  { w with calls := w.calls.set i (.answered r a), answers := w.answers ++ [(r, a)] }

/-- One atomic step. A call that has to wait, or that has been answered, stays where it is. -/
def step (w : Shared κ ν) : Action κ ν → Shared κ ν
  | .start r => w.start r
  | .advance i =>
    match w.calls[i]? with
    | some (.looking (.getOrInit k init)) =>
      match w.map.get? k with
      | some n => w.put i (.waiting k init n)
      | none => w.put i (.missed k init)
    | some (.looking (.get k)) =>
      match w.map.get? k with
      | some n => w.put i (.peeking k n)
      | none => w.answer i (.get k) none
    | some (.missed k init) =>
      -- the write lock is taken here: another caller may have made the cell in between
      match w.map.get? k with
      | some n => w.put i (.waiting k init n)
      | none => (w.create k).put i (.waiting k init w.cells.length)
    | some (.waiting k init n) =>
      match w.cells[n]? with
      | some .empty => (w.begin k init n).put i (.initializing k init n)
      | some (.done v) => w.answer i (.getOrInit k init) (some v)
      | _ => w
    | some (.peeking k n) => w.answer i (.get k) (w.cells[n]?.bind Cell.value?)
    | some (.initializing k init n) =>
      (w.fill n (init ())).answer i (.getOrInit k init) (some (init ()))
    | _ => w

def after (schedule : List (Action κ ν)) : Shared κ ν := schedule.foldl step {}

def cell? (w : Shared κ ν) (k : κ) : Option (Cell ν) := (w.map.get? k).bind fun n => w.cells[n]?

/-- The value under a key, if its cell has one. -/
def value? (w : Shared κ ν) (k : κ) : Option ν := (w.cell? k).bind Cell.value?

/-- The number of cells, which is what the memo tells for its size. -/
def size (w : Shared κ ν) : Nat := w.map.size

/-- What a step can do. An answer is the value of the key, but for the caller that ran the
initializer, whose answer becomes the value. -/
inductive Step (w : Shared κ ν) : Action κ ν → Shared κ ν → Prop where
  | start (r : Request κ ν) : Step w (.start r) (w.start r)
  | look {i : Nat} {c c' : Call κ ν} (hi : w.calls[i]? = some c) (hrequest : c'.request = c.request)
      (hlow : 2 ≤ c'.remaining) (hlt : c'.remaining < c.remaining)
      (hheld : ∀ k n, c'.held? = some (k, n) → w.map.get? k = some n) :
      Step w (.advance i) (w.put i c')
  | create {i : Nat} {k : κ} {init : Unit → ν} (hi : w.calls[i]? = some (.missed k init))
      (hk : w.map.get? k = none) :
      Step w (.advance i) ((w.create k).put i (.waiting k init w.cells.length))
  | begin {i n : Nat} {k : κ} {init : Unit → ν} (hi : w.calls[i]? = some (.waiting k init n))
      (hk : w.map.get? k = some n) (hn : w.cells[n]? = some .empty) :
      Step w (.advance i) ((w.begin k init n).put i (.initializing k init n))
  | finish {i n : Nat} {k : κ} {init : Unit → ν} (hi : w.calls[i]? = some (.initializing k init n))
      (hk : w.map.get? k = some n) :
      Step w (.advance i) ((w.fill n (init ())).answer i (.getOrInit k init) (some (init ())))
  | answer {i : Nat} {c : Call κ ν} {a : Option ν} (hi : w.calls[i]? = some c)
      (hlow : 2 ≤ c.remaining) (ha : a = w.value? c.request.key)
      (hsome : c.request.initKey? ≠ none → a ≠ none) :
      Step w (.advance i) (w.answer i c.request a)

/-- What holds of the cells: no two keys share one, and what a caller has at hand is the cell that
the map has for its key. A cell is never replaced. -/
structure Layout (w : Shared κ ν) : Prop where
  nodup : w.map.keys.Nodup
  placed : ∀ {k n}, w.map.get? k = some n → n < w.cells.length
  apart : ∀ {k k' n}, w.map.get? k = some n → w.map.get? k' = some n → k = k'
  held : ∀ {c k n}, c ∈ w.calls → c.held? = some (k, n) → w.map.get? k = some n
  reached : ∀ {k}, w.map.get? k ≠ none ↔ ∃ c ∈ w.calls, c.reachedKey? = some k

section

variable {α β : Type} {l : List α} {i : Nat} {c c' x : α}

theorem mem_set_self (hi : l[i]? = some c) : c' ∈ l.set i c' := by
  obtain ⟨hlt, -⟩ := List.getElem?_eq_some_iff.1 hi
  exact mem_set hlt c'

theorem mem_set_iff_of_ne (hi : l[i]? = some c) (hne : x ≠ c) :
    x ∈ l.set i c' ↔ x = c' ∨ x ∈ l := by
  constructor
  · intro hx
    exact (mem_or_eq_of_mem_set hx).symm
  · rintro (rfl | hx)
    · exact mem_set_self hi
    · obtain ⟨j, hj⟩ := List.getElem?_of_mem hx
      have hij : i ≠ j := by
        rintro rfl
        exact hne (Option.some.inj (hj.symm.trans hi))
      exact mem_of_getElem? ((List.getElem?_set_ne hij).trans hj)

theorem exists_mem_set_iff {f : α → Option β} {b : β} (hi : l[i]? = some c)
    (hkeep : f c = some b → f c' = some b) :
    (∃ x ∈ l.set i c', f x = some b) ↔ f c' = some b ∨ ∃ x ∈ l, f x = some b := by
  constructor
  · rintro ⟨x, hx, hb⟩
    rcases mem_or_eq_of_mem_set hx with hx | rfl
    · exact .inr ⟨x, hx, hb⟩
    · exact .inl hb
  · rintro (hb | ⟨x, hx, hb⟩)
    · exact ⟨c', mem_set_self hi, hb⟩
    · by_cases hxc : x = c
      · exact ⟨c', mem_set_self hi, hkeep (hxc ▸ hb)⟩
      · exact ⟨x, (mem_set_iff_of_ne hi hxc).2 (.inr hx), hb⟩

end

variable {w w' : Shared κ ν} {a : Action κ ν}

variable {i n : Nat} {k : κ} {init : Unit → ν}

/-- A call goes on, and the map stays as it is. -/
theorem Layout.replace (h : w.Layout) {i : Nat} {c c' : Call κ ν} (hi : w.calls[i]? = some c)
    (hmap : w'.map = w.map) (hcells : w'.cells.length = w.cells.length)
    (hcalls : w'.calls = w.calls.set i c')
    (hheld : ∀ k n, c'.held? = some (k, n) → w.map.get? k = some n)
    (hkeep : ∀ k, c.reachedKey? = some k → c'.reachedKey? = some k)
    (hnew : ∀ k, c'.reachedKey? = some k → w.map.get? k ≠ none) : w'.Layout where
  nodup := by
    rw [hmap]
    exact h.nodup
  placed hk := by
    rw [hmap] at hk
    rw [hcells]
    exact h.placed hk
  apart hk hk' := by
    rw [hmap] at hk hk'
    exact h.apart hk hk'
  held hc hn := by
    rw [hmap]
    rw [hcalls] at hc
    rcases mem_or_eq_of_mem_set hc with hc | rfl
    · exact h.held hc hn
    · exact hheld _ _ hn
  reached := by
    intro k
    rw [hmap, hcalls, exists_mem_set_iff hi (hkeep k), ← h.reached]
    exact ⟨.inr, fun hor => hor.elim (hnew k) id⟩

theorem Layout.start (h : w.Layout) (r : Request κ ν) : (w.start r).Layout where
  nodup := h.nodup
  placed := h.placed
  apart := h.apart
  held hc hn := by
    rcases mem_append.1 hc with hc | hc
    · exact h.held hc hn
    · rw [mem_singleton.1 hc] at hn
      cases hn
  reached := by
    intro k
    rw [Shared.start, h.reached]
    simp [Call.reachedKey?, or_and_right, exists_or]

theorem get?_create (w : Shared κ ν) (k k' : κ) :
    (w.create k).map.get? k' = if k = k' then some w.cells.length else w.map.get? k' := by
  rw [create, OrderedMap.get?_insert]
  simp only [beq_iff_eq]

/-- A new cell gets a number that no key has. -/
theorem Layout.create (h : w.Layout) (hi : w.calls[i]? = some (.missed k init))
    (hk : w.map.get? k = none) : ((w.create k).put i (.waiting k init w.cells.length)).Layout := by
  have hother {k' : κ} {n : Nat} (hn : w.map.get? k' = some n) :
      (w.create k).map.get? k' = some n := by
    have hne : k ≠ k' := by
      rintro rfl
      rw [hk] at hn
      cases hn
    rw [get?_create, if_neg hne, hn]
  have hcases {k' : κ} {n : Nat} (hn : (w.create k).map.get? k' = some n) :
      (k = k' ∧ n = w.cells.length) ∨ (w.map.get? k' = some n ∧ n < w.cells.length) := by
    rw [get?_create] at hn
    split at hn
    · rename_i heq
      exact .inl ⟨heq, (Option.some.inj hn).symm⟩
    · exact .inr ⟨hn, h.placed hn⟩
  constructor
  · exact OrderedMap.nodup_put h.nodup
  · intro k' n hn
    change n < (w.cells ++ [Cell.empty]).length
    rw [length_append, length_singleton]
    rcases hcases hn with ⟨-, rfl⟩ | ⟨-, hlt⟩ <;> omega
  · intro k₁ k₂ n hn₁ hn₂
    rcases hcases hn₁ with ⟨rfl, rfl⟩ | ⟨hn₁, hlt₁⟩
    · rcases hcases hn₂ with ⟨rfl, -⟩ | ⟨-, hlt₂⟩
      · rfl
      · omega
    · rcases hcases hn₂ with ⟨rfl, rfl⟩ | ⟨hn₂, -⟩
      · omega
      · exact h.apart hn₁ hn₂
  · intro c k' n hc hn
    rcases mem_or_eq_of_mem_set hc with hc | rfl
    · exact hother (h.held hc hn)
    · cases hn
      exact (get?_create w k k).trans (if_pos rfl)
  · intro k'
    have hset : (∃ c ∈ w.calls.set i (.waiting k init w.cells.length), c.reachedKey? = some k') ↔
        some k = some k' ∨ ∃ c ∈ w.calls, c.reachedKey? = some k' :=
      exists_mem_set_iff hi (by intro hreached; cases hreached)
    change (w.create k).map.get? k' ≠ none ↔ ∃ c ∈ w.calls.set i _, c.reachedKey? = some k'
    rw [hset, ← h.reached, get?_create, Option.some.injEq]
    by_cases hk' : k = k'
    · simp [hk']
    · simp [hk']

theorem get?_ne_none_of_value? (h : w.value? k ≠ none) : w.map.get? k ≠ none := by
  intro hk
  rw [value?, cell?, hk] at h
  exact h rfl

/-- No step replaces a cell or takes one away. -/
theorem Layout.step (h : w.Layout) (hs : Step w a w') : w'.Layout := by
  cases hs with
  | start r => exact h.start r
  | @look i c c' hi hrequest hlow hlt hheld =>
    refine h.replace hi rfl rfl rfl hheld ?_ ?_
    · intro k hk
      rw [Call.reachedKey?_eq_none (by omega)] at hk
      cases hk
    · intro k hk
      obtain ⟨n, hn⟩ := Call.held?_of_reachedKey? hk (by omega)
      rw [hheld k n hn]
      exact Option.some_ne_none n
  | create hi hk => exact h.create hi hk
  | @begin i n k init hi hk hn =>
    refine h.replace hi rfl (length_set ..) rfl ?_ ?_ ?_
    · intro k' n' hheld
      cases hheld
      exact hk
    · exact fun k' hreached => hreached
    · intro k' hreached
      cases hreached
      rw [hk]
      exact Option.some_ne_none n
  | @finish i n k init hi hk =>
    refine h.replace hi rfl (length_set ..) rfl ?_ ?_ ?_
    · intro k' n' hheld
      cases hheld
    · exact fun k' hreached => hreached
    · intro k' hreached
      cases hreached
      rw [hk]
      exact Option.some_ne_none n
  | @answer i c v hi hlow ha hsome =>
    refine h.replace hi rfl rfl rfl ?_ ?_ ?_
    · intro k' n' hheld
      cases hheld
    · exact fun k hreached => Call.initKey?_of_reachedKey? hreached
    · intro k (hinit : c.request.initKey? = some k)
      have hvalue : w.value? c.request.key ≠ none := ha ▸ hsome (by rw [hinit]; simp)
      rw [Request.key_of_initKey? hinit] at hvalue
      exact get?_ne_none_of_value? hvalue

theorem cell?_of_get? (hk : w.map.get? k = some n) : w.cell? k = w.cells[n]? := by
  rw [cell?, hk, Option.bind_some]

theorem cell?_create (h : w.Layout) (k k' : κ) :
    (w.create k).cell? k' = if k = k' then some .empty else w.cell? k' := by
  rw [cell?, get?_create]
  split
  · rw [Option.bind_some]
    exact List.getElem?_concat_length
  · rw [cell?]
    cases hn : w.map.get? k' with
    | none => rfl
    | some n => exact List.getElem?_append_left (h.placed hn)

/-- What happens at the cell of a key does not concern another key. -/
theorem cell?_set (h : w.Layout) (hk : w.map.get? k = some n) (cell : Cell ν) (k' : κ) :
    ({ w with cells := w.cells.set n cell } : Shared κ ν).cell? k' =
      if k = k' then some cell else w.cell? k' := by
  rw [cell?, cell?]
  split
  · rename_i heq
    subst heq
    rw [hk]
    exact List.getElem?_set_self (h.placed hk)
  · rename_i hne
    cases hn : w.map.get? k' with
    | none => rfl
    | some m =>
      refine List.getElem?_set_ne ?_
      rintro rfl
      exact hne (h.apart hk hn)

theorem cell?_begin (h : w.Layout) (hk : w.map.get? k = some n) (k' : κ) :
    ((w.begin k init n).put i (.initializing k init n)).cell? k' =
      if k = k' then some .running else w.cell? k' :=
  cell?_set h hk .running k'

theorem cell?_finish (h : w.Layout) (hk : w.map.get? k = some n) (k' : κ) :
    ((w.fill n (init ())).answer i (.getOrInit k init) (some (init ()))).cell? k' =
      if k = k' then some (.done (init ())) else w.cell? k' :=
  cell?_set h hk (.done (init ())) k'

/-- A call runs an initializer of a key. -/
def Runs (w : Shared κ ν) (i : Nat) (k : κ) (init : Unit → ν) : Prop :=
  ∃ n, w.calls[i]? = some (.initializing k init n)

/-- What holds of initializers: a cell is running exactly while one call runs its initializer, and
the keys whose initializers were begun are those whose cells are no longer empty. -/
structure Guarded (w : Shared κ ν) : Prop where
  running : ∀ {k}, w.cell? k = some .running ↔ ∃ i init, w.Runs i k init
  sole : ∀ {k i j init init'}, w.Runs i k init → w.Runs j k init' → i = j
  nodup : (w.begun.map Prod.fst).Nodup
  begun : ∀ {k}, k ∈ w.begun.map Prod.fst ↔ ∃ cell, w.cell? k = some cell ∧ cell ≠ .empty
  listed : ∀ {i k init}, w.Runs i k init → (k, init) ∈ w.begun
  source : ∀ {k v}, w.cell? k = some (.done v) → ∃ init, (k, init) ∈ w.begun ∧ init () = v

/-- A step at which no initializer begins or ends. -/
theorem Guarded.quiet (g : w.Guarded) (hbegun : w'.begun = w.begun)
    (hcell : ∀ k cell, cell ≠ .empty → (w'.cell? k = some cell ↔ w.cell? k = some cell))
    (hruns : ∀ i k init, w'.Runs i k init ↔ w.Runs i k init) : w'.Guarded where
  running := by
    intro k
    rw [hcell k _ (by simp), g.running]
    simp only [hruns]
  sole hi hj := g.sole ((hruns ..).1 hi) ((hruns ..).1 hj)
  nodup := by
    rw [hbegun]
    exact g.nodup
  begun := by
    intro k
    rw [hbegun, g.begun]
    refine exists_congr fun cell => ?_
    by_cases hempty : cell = .empty
    · simp [hempty]
    · rw [hcell k cell hempty]
  listed hi := by
    rw [hbegun]
    exact g.listed ((hruns ..).1 hi)
  source hk := by
    rw [hbegun]
    exact g.source ((hcell _ _ (by simp)).1 hk)

omit [DecidableEq κ] in
/-- Which initializers run when one call goes on. -/
theorem runs_iff {i : Nat} {c c' : Call κ ν} (hi : w.calls[i]? = some c)
    (hcalls : w'.calls = w.calls.set i c') (j : Nat) (k : κ) (init : Unit → ν) :
    w'.Runs j k init ↔ (i = j ∧ ∃ n, c' = .initializing k init n) ∨ (i ≠ j ∧ w.Runs j k init) := by
  unfold Runs
  rw [hcalls]
  by_cases hij : i = j
  · subst hij
    obtain ⟨hlt, -⟩ := List.getElem?_eq_some_iff.1 hi
    simp [List.getElem?_set_self hlt]
  · simp [List.getElem?_set_ne hij, hij]

omit [DecidableEq κ] in
/-- No call begins or ends an initializer by a step between two states in which it runs none. -/
theorem runs_iff_of_remaining {i : Nat} {c c' : Call κ ν} (hi : w.calls[i]? = some c)
    (hcalls : w'.calls = w.calls.set i c') (hc : c.remaining ≠ 1) (hc' : c'.remaining ≠ 1)
    (j : Nat) (k : κ) (init : Unit → ν) : w'.Runs j k init ↔ w.Runs j k init := by
  rw [runs_iff hi hcalls]
  constructor
  · rintro (⟨-, n, rfl⟩ | ⟨-, hruns⟩)
    · exact absurd rfl hc'
    · exact hruns
  · rintro ⟨n, hj⟩
    refine .inr ⟨?_, n, hj⟩
    rintro rfl
    rw [hi] at hj
    cases hj
    exact hc rfl

omit [DecidableEq κ] in
theorem runs_start (r : Request κ ν) (i : Nat) (k : κ) (init : Unit → ν) :
    (w.start r).Runs i k init ↔ w.Runs i k init := by
  unfold Runs
  refine exists_congr fun n => ?_
  change (w.calls ++ [Call.looking r])[i]? = _ ↔ _
  by_cases hlt : i < w.calls.length
  · rw [List.getElem?_append_left hlt]
  · rw [List.getElem?_append_right (Nat.le_of_not_lt hlt)]
    constructor
    · intro hlast
      cases mem_singleton.1 (mem_of_getElem? hlast)
    · intro hi
      exact absurd (List.getElem?_eq_some_iff.1 hi).1 hlt

/-- At an empty cell the initializer begins, for the first time and alone. -/
theorem Guarded.begin (g : w.Guarded) (h : w.Layout) (hi : w.calls[i]? = some (.waiting k init n))
    (hk : w.map.get? k = some n) (hn : w.cells[n]? = some .empty) :
    ((w.begin k init n).put i (.initializing k init n)).Guarded := by
  have hempty : w.cell? k = some .empty := (cell?_of_get? hk).trans hn
  have hnone {j init'} : ¬w.Runs j k init' := by
    intro hruns
    have hrunning := g.running.2 ⟨j, init', hruns⟩
    rw [hempty] at hrunning
    cases hrunning
  have hruns j k' init' : ((w.begin k init n).put i (.initializing k init n)).Runs j k' init' ↔
      (i = j ∧ k = k' ∧ init = init') ∨ w.Runs j k' init' := by
    rw [runs_iff hi rfl]
    constructor
    · rintro (⟨rfl, m, heq⟩ | ⟨-, hruns⟩)
      · cases heq
        exact .inl ⟨rfl, rfl, rfl⟩
      · exact .inr hruns
    · rintro (⟨rfl, rfl, rfl⟩ | ⟨m, hj⟩)
      · exact .inl ⟨rfl, n, rfl⟩
      · refine .inr ⟨?_, m, hj⟩
        rintro rfl
        rw [hi] at hj
        cases hj
  have hbegun : k ∉ w.begun.map Prod.fst := by
    rw [g.begun, hempty]
    rintro ⟨cell, heq, hne⟩
    exact hne (Option.some.inj heq).symm
  have hmem k' : k' ∈ (w.begun ++ [(k, init)]).map Prod.fst ↔
      k' ∈ w.begun.map Prod.fst ∨ k' = k := by
    simp
  constructor
  · intro k'
    rw [cell?_begin h hk]
    simp only [hruns]
    by_cases hk' : k = k'
    · subst hk'
      exact ⟨fun _ => ⟨i, init, .inl ⟨rfl, rfl, rfl⟩⟩, fun _ => if_pos rfl⟩
    · simp [hk', g.running]
  · intro k' j j' init' init'' hj hj'
    rw [hruns] at hj hj'
    rcases hj with ⟨rfl, rfl, rfl⟩ | hj
    · rcases hj' with ⟨rfl, -, -⟩ | hj'
      · rfl
      · exact absurd hj' hnone
    · rcases hj' with ⟨rfl, rfl, rfl⟩ | hj'
      · exact absurd hj hnone
      · exact g.sole hj hj'
  · change ((w.begun ++ [(k, init)]).map Prod.fst).Nodup
    rw [map_append]
    refine List.Nodup.append g.nodup (nodup_singleton _) ?_
    intro k' hk' hlast
    have heq : k' = k := by simpa using hlast
    exact hbegun (heq ▸ hk')
  · intro k'
    rw [cell?_begin h hk]
    change k' ∈ (w.begun ++ [(k, init)]).map Prod.fst ↔ _
    rw [hmem, g.begun]
    by_cases hk' : k = k'
    · simp [hk']
    · simp [hk', Ne.symm hk']
  · intro j k' init' hj
    rw [hruns] at hj
    change (k', init') ∈ w.begun ++ [(k, init)]
    rcases hj with ⟨-, rfl, rfl⟩ | hj
    · exact mem_append_right _ (mem_singleton_self _)
    · exact mem_append_left _ (g.listed hj)
  · intro k' v hdone
    rw [cell?_begin h hk] at hdone
    split at hdone
    · cases hdone
    · obtain ⟨init', hinit, hv⟩ := g.source hdone
      exact ⟨init', mem_append_left _ hinit, hv⟩

/-- The initializer ends, and its value fills the cell. -/
theorem Guarded.finish (g : w.Guarded) (h : w.Layout)
    (hi : w.calls[i]? = some (.initializing k init n)) (hk : w.map.get? k = some n) :
    ((w.fill n (init ())).answer i (.getOrInit k init) (some (init ()))).Guarded := by
  have hrunning : w.cell? k = some .running := g.running.2 ⟨i, init, n, hi⟩
  -- the call that ends was the only one that ran an initializer of the key
  have hruns j k' init' : ((w.fill n (init ())).answer i (.getOrInit k init)
      (some (init ()))).Runs j k' init' ↔ k ≠ k' ∧ w.Runs j k' init' := by
    rw [runs_iff hi rfl]
    constructor
    · rintro (⟨-, m, heq⟩ | ⟨hij, hj⟩)
      · cases heq
      · refine ⟨?_, hj⟩
        rintro rfl
        exact hij (g.sole ⟨n, hi⟩ hj)
    · rintro ⟨hk', m, hj⟩
      refine .inr ⟨?_, m, hj⟩
      rintro rfl
      rw [hi] at hj
      cases hj
      exact hk' rfl
  constructor
  · intro k'
    rw [cell?_finish h hk]
    simp only [hruns]
    by_cases hk' : k = k'
    · simp [hk']
    · simp [hk', g.running]
  · intro k' j j' init' init'' hj hj'
    exact g.sole ((hruns ..).1 hj).2 ((hruns ..).1 hj').2
  · exact g.nodup
  · intro k'
    rw [cell?_finish h hk]
    change k' ∈ w.begun.map Prod.fst ↔ _
    rw [g.begun]
    by_cases hk' : k = k'
    · subst hk'
      simp [hrunning]
    · simp [hk']
  · intro j k' init' hj
    exact g.listed ((hruns ..).1 hj).2
  · intro k' v hdone
    rw [cell?_finish h hk] at hdone
    split at hdone
    · rename_i hk'
      cases hdone
      exact ⟨init, hk' ▸ g.listed ⟨n, hi⟩, rfl⟩
    · exact g.source hdone

theorem Guarded.step (g : w.Guarded) (h : w.Layout) (hs : Step w a w') : w'.Guarded := by
  cases hs with
  | start r => exact g.quiet rfl (fun k cell _ => Iff.rfl) (runs_start r)
  | @look i c c' hi hrequest hlow hlt hheld =>
    exact g.quiet rfl (fun k cell _ => Iff.rfl)
      (runs_iff_of_remaining hi rfl (by omega) (by omega))
  | @create i k init hi hk =>
    refine g.quiet rfl (fun k' cell hempty => ?_)
      (runs_iff_of_remaining hi rfl (by simp [Call.remaining]) (by simp [Call.remaining]))
    change (w.create k).cell? k' = some cell ↔ w.cell? k' = some cell
    rw [cell?_create h]
    split
    · rename_i heq
      subst heq
      have hnone : w.cell? k = none := by rw [cell?, hk]; rfl
      simp [hnone, hempty.symm]
    · rfl
  | begin hi hk hn => exact g.begin h hi hk hn
  | finish hi hk => exact g.finish h hi hk
  | @answer i c v hi hlow ha hsome =>
    exact g.quiet rfl (fun k cell _ => Iff.rfl)
      (runs_iff_of_remaining hi rfl (by omega) (by simp [Call.remaining]))

end Shared
end Memo
end AtomicStyles
