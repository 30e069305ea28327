import RiscvOs.Inv.Histories
import RiscvOs.Sched.Running

/-!
# The scheduler over whole runs

`_top` counts the live tasks but bounds their slots. As long as the live slots are the first `_top`
ones, every task has its turn and every exit finds a successor; a zombie or a gap among them breaks
both.

* `run_yields`: a run of yields is an iteration of the abstract `yield`.
* **`round_robin`**, `starved_task`: every `Ready` task runs, and a run in which one never does.
* **`exit_hands_over_iff`**, `exit_panics`: when an exit finds a successor, and a run that ends
  there.
* **`running_is_current`**, `nobody_running`: `Running` names the running task, unless it has
  yielded to itself.
-/

set_option autoImplicit false

namespace RiscvOs

variable {cfg : Config} {mode mode' : Mode} {k k' : Kernel} {b : Start cfg}
  {es : List (Event cfg)}

/-! ## Runs of yields -/

/-- From here on only yields happen. -/
def OnlyYields (es : List (Event cfg)) (s : Sys) : Prop :=
  Along (fun e mode k => stepOp cfg e (.running mode k) = .skip ∨
    stepOp cfg e (.running mode k) = .yield) es s

/-- The number of yields in a run. -/
def yieldCount : List (Event cfg) → Sys → ℕ
  | [], _ => 0
  | e :: es, s => yieldCount es (step cfg e s) + if stepOp cfg e s = .yield then 1 else 0

/-- **A run of yields** is an iteration of the abstract one. -/
theorem run_yields (h : ProcTree k.sched) (hy : OnlyYields es (.running mode k))
    (hrun : run cfg es (.running mode k) = .running mode' k') :
    k'.sched = Sched.yield^[yieldCount es (.running mode k)] k.sched := by
  induction es generalizing mode k with
  | nil =>
    obtain ⟨-, rfl⟩ := Sys.running.inj hrun
    rfl
  | cons e es ih =>
    rw [run_cons] at hrun
    obtain ⟨mode₁, k₁, hstep⟩ := running_of_run hrun
    obtain ⟨hs, hen⟩ := (step_stepped hstep).sched h.current
    obtain ⟨hop, hy⟩ := hy
    rw [hstep] at hrun hy
    have h₁ : ProcTree k₁.sched := hs ▸ h.apply hen
    rw [ih h₁ hy hrun, yieldCount, hstep, hs]
    obtain hop | hop := hop mode k rfl
    · rw [hop]
      rfl
    · rw [hop, if_pos rfl, Function.iterate_succ_apply]
      rfl

/-- Any number of yields can follow. -/
theorem Health.yields {n s : ℕ} (hwf : cfg.WellFormed) (h : Health cfg .user k n s)
    (env : Env cfg) (j : ℕ) :
    ∃ es k', run cfg es (.running .user k) = .running .user k' ∧
      OnlyYields es (.running .user k) ∧ yieldCount es (.running .user k) = j := by
  induction j generalizing k with
  | zero => exact ⟨[], k, rfl, trivial, rfl⟩
  | succ j ih =>
    obtain ⟨κ, k₁, h₁, hh₁, -, hop₁⟩ := h.timer hwf env
    obtain ⟨k₂, h₂, hh₂, -⟩ := hh₁.resume hwf env
    obtain ⟨es, k', hr, hy, hc⟩ := ih hh₂
    have hop₂ : stepOp cfg (.resume env) (.running (.kernel κ) k₁) = .skip := by
      obtain ⟨κ', hκ', ht⟩ := hh₁.parked k₁.current hh₁.live nofun
      obtain rfl := Mode.kernel.inj (ht.mode_eq rfl)
      cases κ with
      | sysGetchar => exact hκ'.elim
      | sysRecycle => exact hκ'.elim
      | _ => rfl
    refine ⟨.trap timerCause env :: .resume env :: es, k', ?_, ⟨?_, ?_, ?_⟩, ?_⟩
    · rw [run_cons, h₁, run_cons, h₂, hr]
    · rintro _ _ he
      obtain ⟨rfl, rfl⟩ := Sys.running.inj he
      exact .inr hop₁
    · rintro _ _ he
      rw [h₁] at he
      obtain ⟨rfl, rfl⟩ := Sys.running.inj he
      exact .inl hop₂
    · rw [h₁, h₂]
      exact hy
    · rw [yieldCount, yieldCount, h₁, h₂, hc, hop₁, hop₂]
      rfl

/-! ## Round robin -/

/-- **Every `Ready` task has its turn** within `MAX_TASK_NUM` yields, in every state of a run in
which only the task of the last live slot exits and forks take the slot after it. -/
theorem round_robin (hst : StackedRun es (start cfg b))
    (hrun : run cfg es (start cfg b) = .running mode k) (t : Slot)
    (ht : (k.tasks t).taskState = .ready) :
    ∃ j ≤ maxTaskNum, ∀ es' mode' k', OnlyYields es' (.running mode k) →
      run cfg es' (.running mode k) = .running mode' k' →
      yieldCount es' (.running mode k) = j → k'.current = t := by
  have htree : ProcTree k.sched := (Reachable.order ⟨b, es, hrun⟩).tree
  have hlive : k.sched.Live t := by
    rw [Sched.Live, show (k.sched.procs t).taskState = .ready from ht]
    rfl
  obtain ⟨j, hj, hcur⟩ := (hst.compact hrun).reaches htree hlive
  refine ⟨j, hj, fun es' mode' k' hy hrun' hcount => ?_⟩
  have hs := run_yields htree hy hrun'
  rw [hcount] at hs
  rw [← hcur, ← hs]
  rfl

/-- Three forks, and the last child exits in its first turn: slot 0 is `Ready` behind slot 2, and
two more yields lead to it. -/
theorem round_robin_exit : ∃ (es : List (Event tiny)) (k : Kernel),
    run tiny es (start tiny (tinyStart 0)) = .running .user k ∧
      k.sched = applyAll [.fork, .fork, .fork, .yield, .yield, .yield, .exit] initSched ∧
      k.current = 1 ∧ (k.tasks 0).taskState = .ready ∧ (k.tasks 2).taskState = .ready ∧
      ∃ es' k', OnlyYields es' (.running .user k) ∧ yieldCount es' (.running .user k) ≤ maxTaskNum ∧
        run tiny es' (.running .user k) = .running .user k' ∧ k'.current = 0 := by
  obtain ⟨es, k, hrun, h, hs, hobeys⟩ := tiny_obeys 0
    (show [Op.fork, .fork, .fork, .yield, .yield, .yield, .exit].length ≤ 1000 by decide)
    (by decide +kernel) (P := Op.Stacked) (fun _ => trivial) (by decide +kernel)
  have hready : (k.sched.procs 0).taskState = .ready ∧ (k.sched.procs 2).taskState = .ready := by
    rw [hs]
    decide +kernel
  have hcur : k.sched.current = 1 := by
    rw [hs]
    decide +kernel
  have hst : StackedRun es (start tiny (tinyStart 0)) := hobeys.imp fun _ _ _ h => h.1
  obtain ⟨j, hj, hturn⟩ := round_robin hst hrun 0 hready.1
  obtain ⟨es', k', hrun', hy, hcount⟩ := h.yields tiny_wf (tinyEnv (-1) 0) j
  exact ⟨es, k, hrun, hs, hcur, hready.1, hready.2, es', k', hy, hcount.trans_le hj, hrun',
    hturn es' .user k' hy hrun' hcount⟩

/-- Two forks, and the first child exits: the scheduler looks for the next task in the child's slot
for ever, and the second child never runs. -/
theorem starved_task : ∃ (es : List (Event tiny)) (k : Kernel),
    run tiny es (start tiny (tinyStart 0)) = .running .user k ∧ (k.tasks 2).taskState = .ready ∧
      (∀ es' mode' k', OnlyYields es' (.running .user k) →
        run tiny es' (.running .user k) = .running mode' k' → k'.current ≠ 2) ∧
      ∀ j, ∃ es' k', run tiny es' (.running .user k) = .running .user k' ∧
        OnlyYields es' (.running .user k) ∧ yieldCount es' (.running .user k) = j := by
  obtain ⟨es, k, hrun, h, hs⟩ := tiny_history 0
    (show [Op.fork, .fork, .yield, .exit].length ≤ 1000 by decide) (by decide +kernel)
  have hready : (k.sched.procs 2).taskState = .ready := by
    rw [hs]
    decide +kernel
  have hnext : k.sched.next = some 1 := by
    rw [hs]
    decide +kernel
  have hdead : ¬ k.sched.Live 1 := by
    rw [hs]
    decide +kernel
  have hcur : k.sched.current = 0 := by
    rw [hs]
    decide +kernel
  have hfix : k.sched.yield = k.sched := by
    rw [Sched.yield, hnext]
    exact if_neg hdead
  refine ⟨es, k, hrun, hready, fun es' mode' k' hy hrun' => ?_,
    h.yields tiny_wf (tinyEnv (-1) 0)⟩
  have hs' := run_yields h.tree hy hrun'
  rw [Function.iterate_fixed hfix] at hs'
  rw [show k'.current = k'.sched.current from rfl, hs', hcur]
  decide

/-! ## Exit -/

/-- Only the running task is `Running`. -/
theorem Reachable.onlyCurrentRuns (h : Reachable cfg (.running mode k)) :
    k.sched.OnlyCurrentRuns := by
  refine (h.invariant (I := fun mode k => Order cfg mode k ∧ k.sched.OnlyCurrentRuns) ?_ ?_).2
  · intro b k hb
    obtain ⟨-, kroot, f, root, entry, ustack, m, rfl⟩ := boot_booted hb
    refine ⟨.boot hb, fun i hi => ?_⟩
    have hl : (booted cfg b kroot f root entry ustack m).sched.Live i := by
      rw [Sched.Live, hi]
      rfl
    exact (booted_live ..).mp hl
  · rintro e mode k mode' k' ⟨ho, hr⟩ hs
    refine ⟨ho.stepped hs, ?_⟩
    rw [(hs.sched ho.tree.current).1]
    exact hr.apply

/-- An exit finds a successor if the slot it looks at is `Ready`. -/
theorem handsOver_iff (ht : ProcTree k.sched) (hr : k.sched.OnlyCurrentRuns)
    (hpid : k.cur.pid ≠ 0) : k.sched.HandsOver ↔
      ∃ n : Slot, n.val = (k.current.val + 1) % (k.top - 1) ∧ (k.tasks n).taskState = .ready := by
  have hcur : k.current ≠ 0 := ht.current_ne_zero hpid
  obtain ⟨m, hm⟩ := (ht.zombify ht.current hcur).next_some
  have hmv : m.val = (k.current.val + 1) % (k.top - 1) := Sched.next_val hm
  constructor
  · rintro ⟨n, hn, hl⟩
    obtain rfl := Option.some.inj (hm.symm.trans hn)
    obtain ⟨hl, hne⟩ := Tree.live_zombify.mp hl
    exact ⟨m, hmv, hr.ready hl hne⟩
  · rintro ⟨n, hn, hst⟩
    obtain rfl : n = m := Fin.ext (hn.trans hmv.symm)
    have hl : k.sched.Live n := by
      rw [Sched.Live, show (k.sched.procs n).taskState = .ready from hst]
      rfl
    refine ⟨n, hm, Tree.live_zombify.mpr ⟨hl, ?_⟩⟩
    -- a slot other than 0 is never its own successor
    rintro rfl
    exact hcur (Sched.alone_of_next (s := k.sched.zombify) hm).2

/-- **When an exit hands over**: when the slot after it, counted without it, is `Ready`. Slot 0
always is, but it need not be that one. -/
theorem exit_hands_over_iff (hreach : Reachable cfg (.running .user k)) {scause : Word}
    {k₁ : Kernel} (he : enterTrap cfg scause k = .ok k₁) (hpid : k.cur.pid ≠ 0) (env : Env cfg)
    (code : Word) :
    (k.tasks 0).taskState = .ready ∧
    ((∃ kont k', exitCurrentAndRunNext cfg env code (moveSepc k₁) = .ok (kont, k') ∧
        k'.current ≠ k.current ∧ (k.tasks k'.current).taskState = .ready) ↔
      ∃ n : Slot, n.val = (k.current.val + 1) % (k.top - 1) ∧ (k.tasks n).taskState = .ready) ∧
    (exitCurrentAndRunNext cfg env code (moveSepc k₁) = .error (.panic "Zombie exit failed") ↔
      ¬ ∃ n : Slot, n.val = (k.current.val + 1) % (k.top - 1) ∧
        (k.tasks n).taskState = .ready) := by
  have ho := hreach.order
  have hruns := hreach.onlyCurrentRuns
  have hcur : k.current ≠ 0 := ho.tree.current_ne_zero hpid
  have hsched : (moveSepc k₁).sched = k.sched := (rfl : _ = k₁.sched).trans (enterTrap_sched he)
  have hpid' : (moveSepc k₁).cur.pid ≠ 0 := by
    have : (moveSepc k₁).cur.pid = k.cur.pid :=
      congrArg (fun s : Sched => (s.procs s.current).pid) hsched
    rwa [this]
  have hon : OnStack cfg (moveSepc k₁) := (enterTrap_stack ho.stack he).1.withMem _
  have hready : ∀ n, k.sched.Live n → n ≠ k.current → (k.tasks n).taskState = .ready :=
    fun n hl hne => hruns.ready hl hne
  have hyes : k.sched.HandsOver → ∃ kont k',
      exitCurrentAndRunNext cfg env code (moveSepc k₁) = .ok (kont, k') ∧
        k'.current ≠ k.current ∧ (k.tasks k'.current).taskState = .ready := by
    intro hh
    obtain ⟨kont, k', hx, hy, -⟩ := exit_of_handsOver env code hon hpid'
      (hsched.symm ▸ hh)
    obtain ⟨n, hn, hl⟩ := hh
    have hk' : k'.current = n := by
      have := congrArg Sched.current (sysYield_sched hy)
      rw [becomeZombie_sched, hsched, Sched.yield_of_live hn hl] at this
      exact this
    obtain ⟨hl, hne⟩ := Tree.live_zombify.mp hl
    exact ⟨kont, k', hx, hk' ▸ hne, hk' ▸ hready n hl hne⟩
  have hno : ¬ k.sched.HandsOver →
      exitCurrentAndRunNext cfg env code (moveSepc k₁) = .error (.panic "Zombie exit failed") :=
    fun hh => exit_of_not_handsOver (hsched.symm ▸ ho.tree.zombify ho.tree.current hcur) hpid'
      (hsched.symm ▸ hh)
  rw [← handsOver_iff ho.tree hruns hpid]
  refine ⟨hready 0 ho.tree.init hcur.symm, ⟨fun ⟨_, _, hx, _⟩ => ?_, hyes⟩, fun hx hh => ?_, hno⟩
  · by_contra hh
    rw [hno hh] at hx
    cases hx
  · obtain ⟨kont, k', hx', -⟩ := hyes hh
    rw [hx] at hx'
    cases hx'

/-- A child exits while its parent waits in slot 0. -/
theorem exit_hands_over_child : ∃ k k₁ : Kernel, Reachable tiny (.running .user k) ∧
    enterTrap tiny ecallCause k = .ok k₁ ∧ k.cur.pid ≠ 0 ∧
    ∃ kont k', exitCurrentAndRunNext tiny (tinyEnv (-1) 0) 0 (moveSepc k₁) = .ok (kont, k') ∧
      k'.current ≠ k.current ∧ (k.tasks k'.current).taskState = .ready := by
  obtain ⟨es, k, hrun, h, hs⟩ := tiny_history 0
    (show [Op.fork, .yield].length ≤ 1000 by decide) (by decide +kernel)
  obtain ⟨k₁, he, -⟩ := enterTrap_of_ready h.toInv h.ready ecallCause
  have hpid : (k.sched.procs k.sched.current).pid ≠ 0 := by
    rw [hs]
    decide +kernel
  have hcond : ∃ n : Slot, n.val = (k.sched.current.val + 1) % (k.sched.top - 1) ∧
      (k.sched.procs n).taskState = .ready := by
    rw [hs]
    decide +kernel
  exact ⟨k, k₁, ⟨_, es, hrun⟩, he, hpid,
    (exit_hands_over_iff ⟨_, es, hrun⟩ he hpid (tinyEnv (-1) 0) 0).2.1.mpr hcond⟩

/-- Three children, of which the first two exit: the second exit looks at the slot of the first. -/
theorem exit_panics : ∃ es : List (Event tiny), run tiny es (start tiny (tinyStart 0)) =
    .halted (.panic "Zombie exit failed") := by
  obtain ⟨es, k, hrun, h, hs⟩ := tiny_history 0
    (show [Op.fork, .fork, .fork, .yield, .exit].length ≤ 1000 by decide) (by decide +kernel)
  have hpid : (k.sched.procs k.sched.current).pid ≠ 0 := by
    rw [hs]
    decide +kernel
  have hover : ¬ k.sched.HandsOver := by
    rw [hs]
    decide +kernel
  have hstop := (h.compute tiny_wf (callRegs 8) 0).exit_stops (tinyEnv (-1) 0) rfl hpid hover
  refine ⟨es ++ [.compute (callRegs 8) 0, .trap ecallCause (tinyEnv (-1) 0)], ?_⟩
  rw [run_append, hrun, run_cons, run_cons, run_nil]
  exact hstop

/-! ## `Running` -/

/-- **`Running` names the running task**, in every run in which no task yields while it is the only
live one. -/
theorem running_is_current
    (hrun : run cfg es (start cfg b) = .running mode k)
    (halone : Along (fun e mode k => stepOp cfg e (.running mode k) = .yield → k.top ≠ 1) es
      (start cfg b)) (i : Slot) : (k.tasks i).taskState = .running ↔ i = k.current := by
  have hcur : Order cfg mode k ∧ k.sched.CurrentRuns := by
    refine Along.invariant (I := fun mode k => Order cfg mode k ∧ k.sched.CurrentRuns) ?_ ?_ halone
      hrun
    · intro b k hb
      refine ⟨.boot hb, ?_⟩
      obtain ⟨-, kroot, f, root, entry, ustack, m, rfl⟩ := boot_booted hb
      rw [booted_sched]
      rfl
    · rintro e mode k mode' k' htop ⟨ho, hc⟩ hs
      obtain ⟨hsched, hen⟩ := hs.sched ho.tree.current
      refine ⟨ho.stepped hs, ?_⟩
      rw [hsched]
      exact hc.apply hen fun hop hn => htop hop (Sched.alone_of_next hn).1
  refine ⟨Reachable.onlyCurrentRuns ⟨b, es, hrun⟩ i, ?_⟩
  rintro rfl
  exact hcur.2

/-- A fork and two timer interrupts: the child has had its turn, and its parent runs again. -/
theorem running_is_current_forked : ∃ (es : List (Event tiny)) (k : Kernel),
    run tiny es (start tiny (tinyStart 0)) = .running .user k ∧
      k.sched = applyAll [.fork, .yield, .yield] initSched ∧ k.sched.Live 1 ∧
      ∀ i, (k.tasks i).taskState = .running ↔ i = k.current := by
  obtain ⟨es, k, hrun, -, hs, hobeys⟩ := tiny_obeys 0
    (show [Op.fork, .yield, .yield].length ≤ 1000 by decide) (by decide +kernel)
    (P := fun op s => op = .yield → s.top ≠ 1) (fun _ h => Op.noConfusion h) (by decide +kernel)
  have hlive : k.sched.Live 1 := by
    rw [hs]
    decide +kernel
  exact ⟨es, k, hrun, hs, hlive, running_is_current hrun (hobeys.imp fun _ _ _ h => h.1)⟩

/-- One timer interrupt while the first program is alone: it goes on, and no slot is `Running`. -/
theorem nobody_running : ∃ (es : List (Event tiny)) (k : Kernel),
    run tiny es (start tiny (tinyStart 0)) = .running .user k ∧
      ∀ i, (k.tasks i).taskState ≠ .running := by
  obtain ⟨es, k, hrun, -, hs⟩ := tiny_history 0
    (show [Op.yield].length ≤ 1000 by decide) (by decide +kernel)
  refine ⟨es, k, hrun, fun i => ?_⟩
  change (k.sched.procs i).taskState ≠ .running
  rw [hs]
  revert i
  decide +kernel

end RiscvOs
