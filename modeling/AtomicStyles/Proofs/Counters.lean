import AtomicStyles.Proofs.Logic.Invariants

/-!
# Counters

A machine counts the calls that are going on, the initializations that are, the steps that are
left, what has been allocated and what has been written. Whatever evaluation comes to, the first two
are afterwards what they were before, and the others have only gone on. So a style call that fails
in the middle of a call or of an initialization leaves nothing behind that later style calls could
mistake for their own.

## Main definitions

* `Machine.Balanced` — what evaluation does to the counters.
* `counted` — this as an invariant, with a bound for the number of calls.

## Main results

* `counted_lasting` — every operation keeps it.
* `counters_balanced` — **the counters are balanced on every path.**
-/

namespace AtomicStyles

open Eval Coupling

/-- The second machine counts as many calls and initializations as the first. It has no more steps
left, and has allocated and written no less. -/
structure Machine.Balanced (m m' : Machine) : Prop where
  depth : m'.depth = m.depth := by rfl
  initializing : m'.initializing = m.initializing := by rfl
  steps : m'.steps ≤ m.steps := by exact le_rfl
  stamps : m.stamps ≤ m'.stamps := by exact le_rfl
  functions : m.functions ≤ m'.functions := by exact le_rfl
  mutations : m.mutations ≤ m'.mutations := by exact le_rfl

namespace Machine.Balanced

variable {m m' : Machine}

theorem trans {m'' : Machine} (h : m.Balanced m') (h' : m'.Balanced m'') : m.Balanced m'' where
  depth := h'.depth.trans h.depth
  initializing := h'.initializing.trans h.initializing
  steps := h'.steps.trans h.steps
  stamps := h.stamps.trans h'.stamps
  functions := h.functions.trans h'.functions
  mutations := h.mutations.trans h'.mutations

theorem of_beside (h : m.Beside m') : m.Balanced m' :=
  ⟨h.depth, h.initializing, h.steps, h.stamps, h.functions, h.mutations⟩

end Machine.Balanced

/-- The machine is balanced with another one, up to the calls and initializations that have begun
since. It allows no more calls than the bound. -/
def counted (bound : Nat) : Invariant where
  Index := Machine
  holds base m := base.Balanced m ∧ m.limits.depth ≤ bound ∧ m.depth ≤ bound
  starting base _ := { base with initializing := base.initializing + 1 }
  calling base := { base with depth := base.depth + 1 }

theorem counted_lasting (bound : Nat) : (counted bound).Lasting where
  beside h hm := ⟨hm.1.trans (.of_beside h), h.limits ▸ hm.2.1, h.depth ▸ hm.2.2⟩
  declare {_ _ s _} _ _ _ hm := by
    unfold Machine.declare
    cases s.nearest <;> exact ⟨hm.1.trans {}, hm.2⟩
  reassign {_ _ f _ _} _ _ hm := by
    cases f <;> exact ⟨hm.1.trans {}, hm.2⟩
  enter hm hdepth :=
    ⟨{ hm.1 with depth := congrArg (· + 1) hm.1.depth }, hm.2.1, hdepth.trans_le hm.2.1⟩
  leave hm :=
    ⟨{ hm.1 with depth := congrArg (· - 1) hm.1.depth }, hm.2.1, (Nat.sub_le _ _).trans hm.2.2⟩
  load _ _ hm := ⟨hm.1.trans {}, hm.2⟩
  beginModule hm _ _ :=
    ⟨{ hm.1 with initializing := congrArg (· + 1) hm.1.initializing }, hm.2⟩
  endModule _ hm := ⟨{ hm.1 with initializing := congrArg (· - 1) hm.1.initializing }, hm.2⟩
  beginBinding hm _ :=
    ⟨{ hm.1 with initializing := congrArg (· + 1) hm.1.initializing }, hm.2⟩
  endBinding {base _ _ _} result hm := by
    refine Invariant.holds_endBinding (I := counted bound) (j := base) result ?_ ?_ ?_ ?_
    · exact ⟨{ hm.1 with initializing := congrArg (· - 1) hm.1.initializing }, hm.2⟩
    · exact fun _ _ _ _ _ hm => ⟨hm.1.trans {}, hm.2⟩
    · exact fun _ hm => ⟨hm.1.trans {}, hm.2⟩
    · exact fun _ hm => hm

/-- Whatever evaluation does, it keeps the balance, and on its way it meets no more calls than were
going on or are allowed. -/
theorem balanced_task {α : Type} {x : Interp → Eval α} (hx : Task x) (n : Nat) (m : Machine) :
    m.Balanced (after (x (interp n)) m) ∧
    ∀ e, x (watched (·.depth ≤ max m.depth m.limits.depth) e n) m = x (interp n) m := by
  have hlasting := counted_lasting (max m.depth m.limits.depth)
  have hm : (counted (max m.depth m.limits.depth)).holds m m :=
    ⟨{}, le_max_right _ _, le_max_left _ _⟩
  refine ⟨(hlasting.keeps_task hx n m hm).1, fun e => ?_⟩
  obtain ⟨r, -, heq⟩ := hlasting.holds_task (fun hm' => hm'.2.2) e hx n m hm
  exact (heq true).trans (heq false).symm

namespace Batch

theorem balanced_runJob (job : Job) (m : Machine) : m.reset.Balanced (runJob job m).2 := by
  rw [snd_runJob]
  exact (balanced_task (.styleCall job.argument job.needed) m.nesting m.reset).1

theorem idle_runJobs (jobs : List Job) {m : Machine} (hdepth : m.depth = 0)
    (hinitializing : m.initializing = 0) :
    (runJobs jobs m).2.depth = 0 ∧ (runJobs jobs m).2.initializing = 0 := by
  induction jobs generalizing m with
  | nil => exact ⟨hdepth, hinitializing⟩
  | cons job jobs ih =>
    have h := balanced_runJob job m
    exact ih h.depth (h.initializing.trans hinitializing)

end Batch

/-- **The counters are balanced on every path.** Whatever evaluation does, from any machine, and
whether it returns or fails: it leaves the counts of calls and initializations as they were, has no
more steps left, and has allocated and written no less; and it never looks at a machine on which more
calls are going on than is allowed or was the case at its begin. So no calls are going on after a
style call, and no more initializations than before. There are none after any style calls of a unit,
failed or not, and the next write is counted. -/
theorem counters_balanced :
    (∀ {α : Type} {x : Interp → Eval α}, Task x → ∀ n (m : Machine),
      m.Balanced (after (x (interp n)) m) ∧
      ∀ e, x (watched (·.depth ≤ max m.depth m.limits.depth) e n) m = x (interp n) m) ∧
    (∀ job m, (Batch.runJob job m).2.depth = 0 ∧
      (Batch.runJob job m).2.initializing = m.initializing) ∧
    ∀ g limits cache jobs, ∃ m, (Batch.runJobs jobs (.start g limits cache)).2 = m ∧
      m.depth = 0 ∧ m.initializing = 0 ∧ m.noteWrite.mutations = m.mutations + 1 := by
  refine ⟨balanced_task, fun job m => ?_, fun g limits cache jobs => ?_⟩
  · exact ⟨(Batch.balanced_runJob job m).depth, (Batch.balanced_runJob job m).initializing⟩
  · obtain ⟨hdepth, hinitializing⟩ :=
      Batch.idle_runJobs jobs (m := .start g limits cache) rfl rfl
    refine ⟨_, rfl, hdepth, hinitializing, ?_⟩
    rw [Machine.noteWrite, if_pos hinitializing]

end AtomicStyles
