import RiscvOs.Kernel.Shape
import RiscvOs.Kernel.Steps

/-!
# The kernel refines the scheduler

* **`Stepped.sched`**: every step of the machine is the operation `stepOp` of the abstract
  scheduler, and that operation is enabled.
* `sysYield_eq`: what `__sys_yield` does, by the abstract one.
-/

set_option autoImplicit false

namespace RiscvOs

variable {cfg : Config} {env : Env cfg} {k k' : Kernel} {kont self : Kont}

/-! ## `__sys_yield` -/

/-- The state in which `__sys_yield` calls `__switch`. -/
def switching (k : Kernel) (n : Slot) : Kernel :=
  let r := k.setTask n { k.tasks n with taskState := .running }
  let r := if (r.tasks k.current).taskState = .running then
    r.setTask k.current { r.tasks k.current with taskState := .ready } else r
  { r with current := n }

/-- **`__sys_yield`** switches to the slot the scheduler names, if that one is live. -/
theorem sysYield_eq {n : Slot} (hn : k.sched.next = some n) : sysYield cfg env self k =
    if k.sched.Live n then switch cfg env self k.current n (switching k n) else .ok (self, k) := by
  rw [Sched.next] at hn
  split_ifs at hn with hp
  obtain rfl := Option.some.inj hn
  have htop : k.top ≠ 0 := Nat.pos_iff_ne_zero.mp hp.1
  rw [sysYield, if_neg htop]
  exact dif_pos hp.2

theorem sysYield_of_no_next (hn : k.sched.next = none) (r : Kont × Kernel) :
    sysYield cfg env self k ≠ .ok r := by
  rw [Sched.next] at hn
  split_ifs at hn with hp
  rw [sysYield]
  split_ifs with h₁
  · intro h
    cases h
  · have h₂ : ¬ (k.current.val + 1) % k.top < maxTaskNum := fun h₂ =>
      hp ⟨Nat.pos_of_ne_zero h₁, h₂⟩
    simp only [dif_neg h₂]
    intro h
    cases h

/-- `__sys_yield` goes on where it was, or switches. -/
theorem sysYield_cases (h : sysYield cfg env self k = .ok (kont, k')) :
    (k' = k ∧ kont = self ∧ ∃ n, k.sched.next = some n ∧ ¬ k.sched.Live n) ∨
      ∃ n, k.sched.next = some n ∧ k.sched.Live n ∧
        switch cfg env self k.current n (switching k n) = .ok (kont, k') := by
  cases hn : k.sched.next with
  | none => exact absurd h (sysYield_of_no_next hn _)
  | some n =>
    rw [sysYield_eq hn] at h
    split_ifs at h with hl
    · exact .inr ⟨n, rfl, hl, h⟩
    · obtain ⟨rfl, rfl⟩ := Prod.mk.inj (Except.ok.inj h)
      exact .inl ⟨rfl, rfl, n, rfl, hl⟩

/-- `__switch` saves the registers in the old context, and loads the new one. -/
theorem switch_cases {prev next : Slot} (h : switch cfg env self prev next k = .ok (kont, k')) :
    ∃ stack ctx, kernelStackOf (k.cpu.reg 2) = some stack ∧
      ctx = saveContext (atSwitch cfg env k.cpu stack) (k.tasks prev).taskContext ∧
      let r : Kernel := { k.setTask prev { k.tasks prev with taskContext := ctx } with
        kstacks := Function.update k.kstacks stack (some ⟨ctx, self⟩) }
      resumeAt cfg r (r.tasks next).taskContext = .ok kont ∧
      k' = { r with
        cpu := loadContext (atSwitch cfg env k.cpu stack) (r.tasks next).taskContext } := by
  rw [switch] at h
  split at h
  · cases h
  rename_i stack hst
  obtain ⟨κ, hr, h⟩ := exists_of_bind_ok h
  obtain ⟨rfl, rfl⟩ := Prod.mk.inj (Except.ok.inj h)
  exact ⟨stack, _, hst, rfl, hr, rfl⟩

/-! ## Projections -/

theorem Kernel.sched_ext {k k' : Kernel}
    (ht : ∀ i, (k'.tasks i).taskState = (k.tasks i).taskState ∧ (k'.tasks i).pid = (k.tasks i).pid ∧
      (k'.tasks i).parent = (k.tasks i).parent)
    (hc : k'.current = k.current) (htop : k'.top = k.top) (hn : k'.nextPid = k.nextPid) :
    k'.sched = k.sched := by
  simp only [Kernel.sched, hc, htop, hn, Sched.mk.injEq, and_true]
  funext i
  rw [(ht i).1, (ht i).2.1, (ht i).2.2]

/-- Replacing a control block by one with the same process. -/
theorem sched_setTask (k : Kernel) (i : Slot) (t : TaskControlBlock) (m : Mem)
    (ht : t.taskState = (k.tasks i).taskState ∧ t.pid = (k.tasks i).pid ∧
      t.parent = (k.tasks i).parent) : ({ k with mem := m }.setTask i t).sched = k.sched := by
  refine Kernel.sched_ext (fun j => ?_) rfl rfl rfl
  by_cases hj : j = i
  · subst hj
    rw [setTask_self]
    exact ht
  · rw [setTask_of_ne _ hj]
    exact ⟨rfl, rfl, rfl⟩

theorem sched_procs_update (k : Kernel) (i : Slot) (t : TaskControlBlock) :
    (k.setTask i t).sched = { k.sched with
      procs := Function.update k.sched.procs i ⟨t.taskState, t.pid, t.parent⟩ } := by
  simp only [Kernel.sched, Kernel.setTask, Sched.mk.injEq, and_true]
  funext j
  by_cases hj : j = i
  · subst hj
    simp only [Function.update_self]
  · simp only [Function.update_of_ne hj]

theorem sched_switching (k : Kernel) (n : Slot) : (switching k n).sched = k.sched.switchTo n := by
  have h₁ : (k.setTask n { k.tasks n with taskState := .running }).sched =
      k.sched.setState n .running := sched_procs_update _ _ _
  rw [switching, Sched.switchTo]
  by_cases hc : ((k.setTask n { k.tasks n with taskState := .running }).tasks
      k.current).taskState = .running
  · have hc' : ((k.sched.setState n .running).procs k.sched.current).taskState = .running := by
      rw [← h₁]
      exact hc
    simp only [if_pos hc, if_pos hc']
    rw [← h₁]
    exact congrArg (fun s : Sched => { s with current := n }) (sched_procs_update _ _ _)
  · have hc' : ¬ ((k.sched.setState n .running).procs k.sched.current).taskState = .running := by
      rw [← h₁]
      exact hc
    simp only [if_neg hc, if_neg hc']
    rw [← h₁]
    rfl

theorem switch_sched {prev next : Slot} (h : switch cfg env self prev next k = .ok (kont, k')) :
    k'.sched = k.sched := by
  obtain ⟨stack, ctx, -, -, -, rfl⟩ := switch_cases h
  exact sched_setTask k prev _ k.mem ⟨rfl, rfl, rfl⟩

theorem sysYield_sched (h : sysYield cfg env self k = .ok (kont, k')) :
    k'.sched = k.sched.yield := by
  obtain ⟨rfl, -, n, hn, hl⟩ | ⟨n, hn, hl, hs⟩ := sysYield_cases h
  · rw [Sched.yield, hn]
    exact (if_neg hl).symm
  · rw [switch_sched hs, sched_switching, Sched.yield_of_live hn hl]

theorem becomeZombie_sched (code : Word) (k : Kernel) :
    (becomeZombie code k).sched = k.sched.zombify := by
  simp only [becomeZombie, childProcMv, Kernel.sched, Sched.zombify, Kernel.setTask,
    Sched.mk.injEq, and_true]
  funext i
  by_cases hi : i = k.current
  · subst hi
    simp only [Function.update_self, Kernel.cur]
    split_ifs <;> rfl
  · simp only [Function.update_of_ne hi]
    split_ifs <;> rfl

theorem freeSlot_sched (k : Kernel) : k.sched.freeSlot = freeSlot k := rfl

theorem afterFork_sched {p : Slot} (hp : freeSlot k = some p) (f root : ℕ) (m : Mem) :
    (afterFork cfg k p f root m).sched = k.sched.fork := by
  rw [Tree.fork_of_free (s := k.sched) hp]
  simp only [Kernel.sched, afterFork, Sched.mk.injEq, and_true]
  funext i
  by_cases hi : i = p
  · subst hi
    simp only [Function.update_self, forkedTask, allocated]
  · simp only [Function.update_of_ne hi]

theorem sysFork_sched (hc : k.sched.Live k.current) {pid : BitVec 32}
    (h : sysFork cfg k = .ok (pid, k')) : k'.sched = k.sched.fork := by
  obtain ⟨hp, -, rfl⟩ | ⟨p, f, root, m, hp, -, hk⟩ := sysFork_shape h
  · exact (Tree.fork_of_full (s := k.sched) hp).symm
  · have hne : k.current ≠ p := fun he =>
      hc.not_unInit (he ▸ unInit_of_freeSlot hp : (k.tasks k.current).taskState = .unInit)
    rw [hk hne]
    exact afterFork_sched hp f root m

theorem freeChild_sched {child : Slot} (h : freeChild k child = .ok k') :
    k'.sched = k.sched.reap child := by
  obtain ⟨m, rfl⟩ := freeChild_shape h
  exact sched_procs_update _ _ _

theorem sysExec_sched {name : ℕ} (h : sysExec cfg env name k = .ok k') : k'.sched = k.sched := by
  obtain ⟨m, root, u, rfl⟩ := sysExec_shape h
  exact sched_setTask k k.current _ m ⟨rfl, rfl, rfl⟩

theorem zombie_of_zombieChild {father child : Slot} (h : zombieChild father k = some child) :
    (k.tasks child).parent = some father ∧ (k.tasks child).taskState = .zombie := by
  have := List.find?_some h
  simpa using this

/-! ## Steps -/

/-- A system call is an operation of the scheduler. -/
theorem Served.sched {cx : ℕ} {father : Slot} {data : Option Word} {call : SyscallId} {op : Op}
    (h : Served cfg env cx father data k call op kont k') (hc : k.sched.Live k.current) :
    k'.sched = op.apply k.sched ∧ op.Enabled k.sched := by
  cases h with
  | quiet call v out => exact ⟨rfl, trivial⟩
  | putchar _ hpa hst =>
    obtain ⟨-, rfl⟩ := kernelStoreByte_shape hst
    exact ⟨rfl, trivial⟩
  | fork h => exact ⟨sysFork_sched hc h, trivial⟩
  | exec h => exact ⟨(sysExec_sched h).trans rfl, trivial⟩
  | reap out hz h => exact ⟨(freeChild_sched h : _), (zombie_of_zombieChild hz).2⟩
  | exit hpid h hk =>
    rename_i code
    refine ⟨(sysYield_sched h).trans (by rw [becomeZombie_sched]; rfl), hpid, ?_⟩
    rw [Sched.HandsOver, ← becomeZombie_sched code]
    obtain ⟨-, rfl, -⟩ | ⟨n, hn, hl, -⟩ := sysYield_cases h
    · exact absurd rfl hk
    · exact ⟨n, hn, hl⟩
  | yield hw h => exact ⟨sysYield_sched h, trivial⟩

theorem enterTrap_sched {scause : Word} (h : enterTrap cfg scause k = .ok k') :
    k'.sched = k.sched := by
  obtain ⟨m, c, rfl, -⟩ := enterTrap_shape h
  rfl

theorem trapReturn_sched (h : trapReturn cfg k = .ok k') : k'.sched = k.sched := by
  obtain ⟨m, c, rfl⟩ := trapReturn_shape h
  rfl

/-- **Every step is an operation of the scheduler.** -/
theorem Stepped.sched {mode mode' : Mode} {e : Event cfg} {op : Op}
    (h : Stepped mode k e op mode' k') (hc : k.sched.Live k.current) :
    k'.sched = op.apply k.sched ∧ op.Enabled k.sched := by
  cases h with
  | idle => exact ⟨rfl, trivial⟩
  | compute _ x pc => exact ⟨rfl, trivial⟩
  | store _ va b =>
    obtain ⟨m, hm⟩ := userStore_shape va b k
    rw [hm]
    exact ⟨rfl, trivial⟩
  | timer henter _ h =>
    refine ⟨(sysYield_sched h).trans ?_, trivial⟩
    rw [enterTrap_sched henter]
    rfl
  | interrupt out henter => exact ⟨(enterTrap_sched henter : _), trivial⟩
  | ecall henter _ _ h =>
    obtain ⟨m, c, rfl, -⟩ := enterTrap_shape henter
    exact h.sched hc
  | leave _ h => exact ⟨trapReturn_sched h, trivial⟩
  | yielded => exact ⟨rfl, trivial⟩
  | getchar h => exact h.sched hc
  | recycle h => exact h.sched hc
  | sysReturn h => exact ⟨(trapReturn_sched h).trans rfl, trivial⟩

end RiscvOs
