import AtomicStyles.Proofs.Logic.Basic

/-!
# Rules for the machine

Most operations on the machine concern neither names nor modules nor calls: they look at it, or
they change its objects and arrays and count. What is said of them is said once, of all changes
of that kind. From a rule for looking, one for such changes, and one for each operation that is
about names, modules or calls, all rules of a logic follow, as long as it keeps no module and no
failure out and nothing is used up.

## Main definitions

* `Machine.Beside` — a machine that differs in nothing that names, modules and calls depend on.
* `Blind`, `Aside`, `Quiet` — changes that do not look at the loaded modules, those of them that lead
  to such a machine, and those that leave objects and arrays alone besides.
* `Calculus.Lax` — a calculus that keeps nothing out, with the rules that others follow from.

## Main results

* `Calculus.Heapwise.of_aside` — objects and arrays.
* `Calculus.Lax.logic` — **all rules for the machine.**
-/

namespace AtomicStyles

open Script Eval

variable {α : Type}

theorem getD_modify {α : Type} (xs : Array α) (i j : Nat) (f : α → α) (d : α) :
    (xs.modify i f).getD j d = if i = j ∧ j < xs.size then f (xs.getD j d) else xs.getD j d := by
  simp only [Array.getD_eq_getD_getElem?, Array.getElem?_modify]
  by_cases hj : j < xs.size
  · by_cases hij : i = j <;> simp [hij, hj]
  · simp [hj]

/-! ### What reading depends on -/

namespace Machine

variable {m m' : Machine}

/-- Names are looked up in modules and frames. -/
theorem find?_congr (hinstances : m'.instances = m.instances) (hframes : m'.frames = m.frames)
    (name : String) (fs : List FrameRef) : m'.find? name fs = m.find? name fs := by
  induction fs with
  | nil => rfl
  | cons f fs ih =>
    have hframe : m'.frame f = m.frame f := by
      cases f with
      | top id => rw [frame, frame, instanceOf, hinstances, instanceOf]
      | inner n => rw [frame, frame, hframes]
    unfold find?
    rw [hframe, ih]

/-- Texts are those of arrays. -/
theorem text_congr (h : m'.arrays = m.arrays) (depth : Nat) (v : Value) :
    m'.text depth v = m.text depth v := by
  induction depth generalizing v with
  | zero => cases v <;> rfl
  | succ depth ih =>
    cases v with
    | array r =>
      unfold text
      simp only [ih, arrayCell, h]
    | _ => rfl

/-- Arrays inside arrays are looked up. -/
theorem flatten_congr (h : m'.arrays = m.arrays) (depth : Nat) (vs : List Value) :
    m'.flatten depth vs = m.flatten depth vs := by
  induction depth generalizing vs with
  | zero => rfl
  | succ depth ih =>
    unfold flatten
    simp only [ih, arrayCell, h]

/-- A name that is found is in the frame in which it is found. -/
theorem get?_frame_of_find? {name : String} {fs : List FrameRef} {f : FrameRef}
    {slot : Slot} (h : m.find? name fs = some (f, slot)) : (m.frame f).get? name = some slot := by
  induction fs with
  | nil => cases h
  | cons f' fs ih =>
    unfold find? at h
    split at h
    · next hget =>
      cases h
      exact hget
    · exact ih h

end Machine

/-! ### Changes -/

/-- The second machine differs from the first in nothing that names, modules and calls depend on.
There may be new frames; what is left has not become more, and what is counted not less. -/
structure Machine.Beside (m m' : Machine) : Prop where
  graph : m'.graph = m.graph := by rfl
  cache : m'.cache = m.cache := by rfl
  limits : m'.limits = m.limits := by rfl
  instances : m'.instances = m.instances := by rfl
  begun : m'.begun = m.begun := by rfl
  report : m'.report = m.report := by rfl
  depth : m'.depth = m.depth := by rfl
  initializing : m'.initializing = m.initializing := by rfl
  frame : ∀ n, m'.frames.getD n {} = m.frames.getD n {} := by exact fun _ => rfl
  frames : m.frames.size ≤ m'.frames.size := by exact Nat.le_refl _
  steps : m'.steps ≤ m.steps := by exact Nat.le_refl _
  stamps : m.stamps ≤ m'.stamps := by exact Nat.le_refl _
  functions : m.functions ≤ m'.functions := by exact Nat.le_refl _
  mutations : m.mutations ≤ m'.mutations := by exact Nat.le_refl _

/-- The change does not depend on the modules that have been loaded. -/
structure Blind (φ : Machine → α × Machine) : Prop where
  graph : ∀ m, (φ m).2.graph = m.graph := by exact fun _ => rfl
  recache : ∀ m cache, φ { m with cache } = ((φ m).1, { (φ m).2 with cache }) := by
    exact fun _ _ => rfl

/-- It concerns neither names nor modules nor calls. -/
structure Aside (φ : Machine → α × Machine) : Prop extends Blind φ where
  beside : ∀ m : Machine, m.Beside (φ m).2 := by exact fun _ => {}

structure Heap where
  objects : Array (Cell Properties) := #[]
  arrays : Array (Cell (Array Value)) := #[]

def Machine.heap (m : Machine) : Heap := { objects := m.objects, arrays := m.arrays }

/-- Nor does it concern objects and arrays. -/
structure Quiet (φ : Machine → α × Machine) : Prop extends Aside φ where
  heap : ∀ m, (φ m).2.heap = m.heap := by exact fun _ => rfl

/-- A change that is made under a condition. -/
theorem Quiet.ite {c : Machine → Prop} [DecidablePred c] {φ : Machine → Machine}
    (hc : ∀ m cache, c { m with cache } = c m) (hφ : Quiet fun m => ((), φ m)) :
    Quiet fun m => ((), if c m then φ m else m) := by
  have hcases (m : Machine) {P : Machine → Prop} (ht : P (φ m)) (he : P m) :
      P (if c m then φ m else m) := by
    split
    · exact ht
    · exact he
  refine ⟨⟨⟨fun m => ?_, fun m cache => ?_⟩, fun m => ?_⟩, fun m => ?_⟩
  · exact hcases m (P := fun m' => m'.graph = m.graph) (hφ.graph m) rfl
  · simp only [hc]
    split
    · exact hφ.recache m cache
    · rfl
  · exact hcases m (P := m.Beside) (hφ.beside m) {}
  · exact hcases m (P := fun m' => m'.heap = m.heap) (hφ.heap m) rfl

theorem quiet_noteWrite : Quiet fun m : Machine => ((), m.noteWrite) :=
  .ite (φ := fun m => { m with mutations := m.mutations + 1 }) (fun _ _ => rfl)
    { beside := fun _ => { mutations := Nat.le_succ _ } }

/-- A write to a cell is counted in the same way whatever has been loaded. -/
theorem quiet_noteCellWrite {cell : Machine → Cell α}
    (hcell : ∀ m cache, cell { m with cache } = cell m) :
    Quiet fun m : Machine => ((), m.noteCellWrite (cell m)) :=
  .ite (fun m cache => by rw [hcell]) quiet_noteWrite

/-! ### Objects and arrays -/

namespace Calculus

/-- The rules for objects and arrays. -/
structure Heapwise (L : Calculus) : Prop where
  newObject : ∀ {i} ps, L.Holds i (fun _ => True) fun _ => newObject ps
  newArray : ∀ {i} xs, L.Holds i (fun _ => True) fun _ => newArray xs
  freeze : ∀ {i} v, L.Holds i (fun _ => True) fun _ => freeze v
  putProperty : ∀ {i} o frozen key v,
    L.Holds i (fun _ => True) fun _ => changeProperties o frozen fun ps => ps.insert key v
  dropProperty : ∀ {i} o frozen key,
    L.Holds i (fun _ => True) fun _ => changeProperties o frozen fun ps => ps.erase key
  changeArray : ∀ {i} a {x : Eval (Array Value → Array Value)}, Looks x →
    (L.Holds i (fun _ => True) fun _ => x) → L.Holds i (fun _ => True) fun _ => changeArray a x
  sortArray : ∀ {i} a {order : L.Bound → Value → Value → Eval Ordering},
    (∀ vs, L.Holds i (fun _ => True) fun k => sortItems (order k) vs) →
    L.Holds i (fun _ => True) fun k => sortArray (order k) a

/-- A calculus that keeps no module and no failure out, and in which nothing is used up. It has rules
for looking at the machine and for changes that are quiet, and one for each operation that is about
names, modules or calls. -/
structure Lax (L : Calculus) : Prop extends Heapwise L where
  known : ∀ id, L.Known id
  fair : ∀ e, L.Fair e
  below : ∀ i j, L.Below i j
  look : ∀ {i} {γ : Type} (φ : Machine → γ), (∀ m cache, φ { m with cache } = φ m) →
    L.Holds i (fun _ => True) fun _ => (do return φ (← get))
  quiet : ∀ {i} {γ : Type} {φ : Machine → γ × Machine}, Quiet φ →
    L.Holds i (fun _ => True) fun _ => modifyGet φ
  newFrame : ∀ {i}, L.Holds i
    (fun f => ∀ (s : Scope) name hasValue, L.Open { s with inner := f :: s.inner } name hasValue)
    fun _ => newFrame
  declare : ∀ {i s name} (v : Option Value) isMutable, L.Open s name v.isSome →
    L.Holds i (fun _ => True) fun _ => declare s name v isMutable
  assign : ∀ {i} s name v, L.Holds i (fun _ => True) fun _ => assign s name v
  tables : ∀ {i} id, L.Holds i (L.Table id) fun _ => tables id
  runsWhole : ∀ {i id t}, L.Table id t →
    L.Holds i (fun isWhole => isWhole = true → L.Runnable id) fun _ => runsWhole t
  nested : ∀ {i} {α : Type} {Q : α → Prop} {x : L.Bound → Eval α}, (∀ j, L.Holds j Q x) →
    L.Holds i Q fun k => nested (x k)
  runOnce : ∀ {i id} {x : L.Bound → Eval Unit}, L.Runnable id →
    (L.Free { module := id } → ∀ j, L.Holds j (fun _ => True) x) →
    L.Holds i (fun _ => True) fun k => runOnce id (x k)

section Heap

variable {L : Calculus} {i : L.Index} (fair : ∀ e, L.Fair e)
  (look : ∀ {i} {γ : Type} (φ : Machine → γ), (∀ m cache, φ { m with cache } = φ m) →
    L.Holds i (fun _ => True) fun _ => (do return φ (← get)))
  (aside : ∀ {i} {γ : Type} {φ : Machine → γ × Machine}, Aside φ →
    L.Holds i (fun _ => True) fun _ => modifyGet φ)

include aside in
theorem holds_newObject (ps : Properties) :
    L.Holds i (fun _ => True) fun _ => newObject ps :=
  aside { beside := fun _ => { stamps := Nat.le_succ _ } }

include fair aside in
theorem holds_raise {Q : α → Prop} (f : Fault) : L.Holds i Q fun _ => (raise f : Eval α) := by
  refine (holds_newObject aside _).bind fun e _ => ?_
  have hset : L.Holds i (fun _ => True) fun _ => setException (some e) := aside {}
  exact hset.bind fun _ _ => L.throw (fair _)

include fair look aside

/-- Objects and arrays have their rules if all changes do that are made aside. -/
theorem Heapwise.of_aside : L.Heapwise := by
  have hchange {i : L.Index} (o : ObjectRef) (frozen : Fault) (f : Properties → Properties) :
      L.Holds i (fun _ => True) fun _ => changeProperties o frozen f := by
    refine (look (fun m => (m.objectCell o).isFrozen) fun _ _ => rfl).bind fun _ _ =>
      .ite (holds_raise fair aside _) ?_
    have hnote : L.Holds i (fun _ => True) fun _ => recordObjectWrite o :=
      aside (quiet_noteCellWrite fun _ _ => rfl).toAside
    exact hnote.bind fun _ _ => aside {}
  have hcheck {i : L.Index} (a : ArrayRef) :
      L.Holds i (fun _ => True) fun _ => Eval.beforeArrayWrite a :=
    (look (fun m => (m.arrayCell a).isFrozen) fun _ _ => rfl).bind fun _ _ =>
      .ite (holds_raise fair aside _) (aside (quiet_noteCellWrite fun _ _ => rfl).toAside)
  have hwrite {i : L.Index} (a : ArrayRef) (f : Array Value → Array Value) :
      L.Holds i (fun _ => True) fun _ => modifyItems a f := aside {}
  constructor
  case newObject => exact fun ps => holds_newObject aside ps
  case newArray => exact fun xs => aside { beside := fun _ => { stamps := Nat.le_succ _ } }
  case freeze =>
    intro i v
    cases v with
    | object o =>
      have hmodify : L.Holds i (fun _ => True) fun _ =>
          modifyObject o fun c => { c with isFrozen := true } := aside {}
      exact hmodify.bind fun _ _ => .pure trivial
    | array a =>
      have hmodify : L.Holds i (fun _ => True) fun _ =>
          modifyArray a fun c => { c with isFrozen := true } := aside {}
      exact hmodify.bind fun _ _ => .pure trivial
    | _ => exact .pure trivial
  case putProperty => exact fun o frozen _ _ => hchange o frozen _
  case dropProperty => exact fun o frozen _ => hchange o frozen _
  case changeArray =>
    intro i a x _ hx
    exact (hcheck a).bind fun _ _ => hx.bind fun f _ => hwrite a f
  case sortArray =>
    intro i a order hsort
    refine (hcheck a).bind fun _ _ => (look (fun m => (m.arrayCell a).content) fun _ _ => rfl).bind
      fun xs _ => (hsort xs.toList).bind fun sorted _ => hwrite a _

end Heap

/-! ### All rules -/

namespace Lax

variable {L : Calculus} (hL : L.Lax) {i : L.Index}

include hL

theorem good [Held α] (a : α) : L.Good a := Held.good_of_forall hL.known hL.fair a

theorem holds_good [Held α] {x : L.Bound → Eval α} (h : L.Holds i (fun _ => True) x) :
    L.Gives i x :=
  h.mono fun a _ => hL.good a

theorem nesting : L.Holds i (fun _ => True) fun _ => nesting :=
  hL.look Machine.nesting fun _ _ => rfl

theorem tick : L.Holds i (fun _ => True) fun _ => tick := by
  refine (hL.look Machine.steps fun _ _ => rfl).bind fun steps _ => .ite ?_ ?_
  · exact (hL.look Machine.limits fun _ _ => rfl).bind fun _ _ => L.throw (hL.fair _)
  · exact hL.quiet { beside := fun _ => { steps := Nat.sub_le _ _ } }

theorem text (v : Value) : L.Holds i (fun _ => True) fun _ => text v := by
  have htext (v : Value) : L.Holds i (fun _ => True) fun _ => (do
      let m ← get
      conclude (m.text (m.arrays.size + 1) v) : Eval String) := by
    refine (hL.look (fun m => m.text (m.arrays.size + 1) v) fun m cache => ?_).bind
      fun result _ => ?_
    · exact Machine.text_congr (by rfl) _ v
    · cases result with
      | ok t => exact .pure trivial
      | error e => exact L.throw (hL.fair e)
  cases v with
  | string => exact .pure trivial
  | _ => exact htext _

theorem exportsOf (id : ModuleId) : L.Holds i (fun _ => True) fun _ => exportsOf id := by
  have htables (id : ModuleId) : L.Holds i (fun _ => True) fun _ => Eval.tables id :=
    (hL.tables id).mono fun _ _ => trivial
  exact hL.nesting.bind fun n _ =>
    (Judgement.Holds.exportNames (hL.fair _) htables n id _).bind fun _ _ => .pure trivial

omit hL in
def logic (hL : L.Lax) : Logic where
  toCalculus := L
  tick := hL.holds_good hL.tick
  spend {i _ _ _} h := hL.tick.bind fun _ _ => h i (hL.below i i)
  call {i _ _ _} h := hL.tick.bind fun _ _ => hL.nested fun j => h j (hL.below j i)
  turns h hstate := (hL.look Machine.steps fun _ _ => rfl).bind fun n _ =>
    .turnsFrom (hL.fair _) (fun state hstate => hL.tick.bind fun _ _ => h state hstate) (n + 1)
      hstate
  newObject _ := hL.holds_good (hL.newObject _)
  newArray _ := hL.holds_good (hL.newArray _)
  newFunction _ := hL.holds_good
    (hL.quiet { beside := fun _ => { functions := Nat.le_succ _ } })
  newFrame := hL.newFrame
  properties o := hL.holds_good (hL.look _ fun _ _ => rfl)
  items a := hL.holds_good (hL.look _ fun _ _ => rfl)
  isFrozen v := by
    cases v with
    | object o => exact hL.holds_good (hL.look _ fun _ _ => rfl)
    | array a => exact hL.holds_good (hL.look _ fun _ _ => rfl)
    | _ => exact .pure trivial
  freeze _ := hL.holds_good (hL.freeze _)
  putProperty o frozen key v _ := hL.holds_good (hL.putProperty o frozen key v)
  dropProperty o frozen key := hL.holds_good (hL.dropProperty o frozen key)
  changeArray a _ hlooks hx :=
    hL.holds_good (hL.changeArray a hlooks (hx.mono fun _ _ => trivial))
  sortArray a _ h := hL.holds_good
    (hL.sortArray a fun vs => (h vs (hL.good vs)).mono fun _ _ => trivial)
  text v := hL.holds_good (hL.text v)
  flattened depth _ _ := hL.holds_good
    (hL.look _ fun _ _ => Machine.flatten_congr (by rfl) depth _)
  madeGlobal g := hL.holds_good (hL.look _ fun _ _ => rfl)
  keepGlobal g v _ := hL.holds_good (hL.quiet {})
  exception := hL.holds_good (hL.look _ fun _ _ => rfl)
  setException _ := hL.holds_good (hL.quiet {})
  ownSlot s name := hL.holds_good (hL.look _ fun _ _ => by cases s.nearest <;> rfl)
  lookup s name := hL.holds_good (hL.look _ fun _ _ =>
    congrArg (Option.map _) (Machine.find?_congr (by rfl) (by rfl) _ _))
  declare isMutable hopen _ := hL.holds_good (hL.declare _ isMutable hopen)
  assign s name v _ := hL.holds_good (hL.assign s name v)
  recordWrite := hL.holds_good (hL.quiet quiet_noteWrite)
  unit := (hL.look (fun m => m.graph.entry.id) fun _ _ => rfl).mono fun id _ => hL.known id
  tables _ := hL.tables _
  exportsOf _ := hL.holds_good (hL.exportsOf _)
  runsWhole := hL.runsWhole
  runOnce {i _ _} hid h := hL.holds_good (hL.runOnce hid fun hfree j =>
    (h hfree j (hL.below j i)).mono fun _ _ => trivial)

end Lax
end Calculus
end AtomicStyles
