import RiscvOs.Kernel.System

/-!
# Which records a call changes

The control blocks, counters and stacks a successful call leaves, whatever it did to memory.

* `afterFork`, `sysFork_shape`: a new control block in the first free slot.
* `sysExec_shape`, `freeChild_shape`: one control block changed.
* `enterTrap_shape`, `trapReturn_shape`: the registers only.
-/

set_option autoImplicit false

namespace RiscvOs

variable {cfg : Config} {k k' : Kernel} {p : Slot}

/-! ## Control blocks -/

@[simp] theorem setTask_self (k : Kernel) (i : Slot) (t : TaskControlBlock) :
    (k.setTask i t).tasks i = t := Function.update_self _ _ _

theorem setTask_of_ne (k : Kernel) {i j : Slot} (h : j ≠ i) (t : TaskControlBlock) :
    (k.setTask i t).tasks j = k.tasks j := Function.update_of_ne h _ _

/-! ## Fork -/

/-- The control block `alloc_proc` leaves in a slot: a trap page `f` and a table at `root`. -/
def allocated (t : TaskControlBlock) (pid : BitVec 32) (f root : ℕ) : TaskControlBlock :=
  { t with
    pid := pid
    taskState := .ready
    trapCxPpn := physAddrFromPhysPageNum f
    taskContext := fun _ => 0
    pagetable := ⟨root⟩ }

/-- The state after `alloc_proc` has taken the slot `p`. -/
def withAllocated (k : Kernel) (p : Slot) (f root : ℕ) (m : Mem) : Kernel :=
  { k with
    mem := m
    nextPid := k.nextPid + 1
    top := k.top + 1
    tasks := Function.update k.tasks p (allocated (k.tasks p) (BitVec.ofNat 32 k.nextPid) f root) }

/-- The child's control block. -/
def forkedTask (cfg : Config) (k : Kernel) (p : Slot) (f root : ℕ) : TaskControlBlock :=
  { allocated (k.tasks p) (BitVec.ofNat 32 k.nextPid) f root with
    entry := k.cur.entry
    baseSize := k.cur.baseSize
    parent := some k.current
    ustack := k.cur.ustack
    taskContext := taskContextInit (BitVec.ofNat 64 (k.tasks p).kstack) cfg.trapReturn }

/-- The state after a fork into the slot `p`. -/
def afterFork (cfg : Config) (k : Kernel) (p : Slot) (f root : ℕ) (m : Mem) : Kernel :=
  { k with
    mem := m.printf "running task num:%d\n" [.num (k.top + 1)]
    nextPid := k.nextPid + 1
    top := k.top + 1
    tasks := Function.update k.tasks p (forkedTask cfg k p f root) }

@[simp] theorem afterFork_self (cfg : Config) (k : Kernel) (p : Slot) (f root : ℕ) (m : Mem) :
    (afterFork cfg k p f root m).tasks p = forkedTask cfg k p f root := Function.update_self _ _ _

theorem unInit_of_freeSlot (h : freeSlot k = some p) : (k.tasks p).taskState = .unInit := by
  have := List.find?_some h
  simpa using this

theorem allocProc_full (h : freeSlot k = none) : allocProc cfg k = .ok (none, k) := by
  rw [allocProc, h]

theorem procTrap_shape (h : procTrap k p = .ok k') : ∃ f m, k' = { k with mem := m }.setTask p
    { k.tasks p with trapCxPpn := physAddrFromPhysPageNum f, taskContext := fun _ => 0 } := by
  rw [procTrap] at h
  obtain ⟨⟨f, m⟩, -, h⟩ := exists_of_bind_ok h
  exact ⟨f, m, (Except.ok.inj h).symm⟩

theorem procPagetable_shape (h : procPagetable cfg k p = .ok k') :
    ∃ root m, k' = { k with mem := m }.setTask p { k.tasks p with pagetable := ⟨root⟩ } := by
  rw [procPagetable] at h
  obtain ⟨⟨⟨root⟩, m⟩, -, h⟩ := exists_of_bind_ok h
  exact ⟨root, m, (Except.ok.inj h).symm⟩

theorem allocProc_shape (hp : freeSlot k = some p) {r : Option Slot × Kernel}
    (h : allocProc cfg k = .ok r) : ∃ f root m, r = (some p, withAllocated k p f root m) := by
  rw [allocProc, hp] at h
  obtain ⟨k₁, h₁, h⟩ := exists_of_bind_ok h
  obtain ⟨k₂, h₂, h⟩ := exists_of_bind_ok h
  obtain ⟨f, m₁, rfl⟩ := procTrap_shape h₁
  obtain ⟨root, m, rfl⟩ := procPagetable_shape h₂
  refine ⟨f, root, m, (Except.ok.inj h).symm.trans ?_⟩
  simp only [withAllocated, allocated, Kernel.setTask, Function.update_self,
    Function.update_idem]

/-- What `__sys_fork` does to the control blocks. -/
theorem sysFork_shape {pid : BitVec 32} (h : sysFork cfg k = .ok (pid, k')) :
    (freeSlot k = none ∧ pid = -1 ∧ k' = k.printf "child_proc failed!" []) ∨
      ∃ p f root m, freeSlot k = some p ∧ pid = BitVec.ofNat 32 k.nextPid ∧
        (k.current ≠ p → k' = afterFork cfg k p f root m) := by
  rw [sysFork] at h
  obtain ⟨⟨q, k₁⟩, ha, h⟩ := exists_of_bind_ok h
  cases hp : freeSlot k with
  | none =>
    rw [allocProc_full hp] at ha
    obtain ⟨rfl, rfl⟩ := Prod.mk.inj (Except.ok.inj ha)
    obtain ⟨rfl, rfl⟩ := Prod.mk.inj (Except.ok.inj h)
    exact .inl ⟨rfl, rfl, rfl⟩
  | some p =>
    obtain ⟨f, root, m₁, he⟩ := allocProc_shape hp ha
    obtain ⟨rfl, rfl⟩ := Prod.mk.inj he
    obtain ⟨m, -, h⟩ := exists_of_bind_ok h
    obtain ⟨rfl, rfl⟩ := Prod.mk.inj (Except.ok.inj h)
    refine .inr ⟨p, f, root, m, rfl, ?_, fun hne => ?_⟩
    · simp only [withAllocated, allocated, Kernel.setTask, Kernel.printf, Function.update_self]
    · simp only [afterFork, forkedTask, withAllocated, allocated, Kernel.setTask, Kernel.printf,
        Kernel.cur, Function.update_self, Function.update_idem, Function.update_of_ne hne]

/-! ## Exec and recycle -/

/-- What `__sys_exec` does to the control blocks before it frees the old memory. -/
theorem execLoad_shape {env : Env cfg} {name : ℕ} (h : execLoad cfg env name k = .ok k') :
    ∃ m root u, k' = { k with mem := m }.setTask k.current
      { k.cur with pagetable := ⟨root⟩, ustack := u, baseSize := u } := by
  rw [execLoad] at h
  obtain ⟨path, -, h⟩ := exists_of_bind_ok h
  obtain ⟨⟨start, m₁⟩, -, h⟩ := exists_of_bind_ok h
  obtain ⟨-, -, h⟩ := exists_of_bind_ok h
  obtain ⟨k₂, h₂, h⟩ := exists_of_bind_ok h
  obtain ⟨root, m₂, rfl⟩ := procPagetable_shape h₂
  obtain ⟨⟨u, m₃⟩, -, h⟩ := exists_of_bind_ok h
  refine ⟨k'.mem, root, u, ?_⟩
  rw [← Except.ok.inj h]
  simp only [Kernel.setTask, Kernel.cur, Function.update_self, Function.update_idem]

theorem sysExec_shape {env : Env cfg} {name : ℕ} (h : sysExec cfg env name k = .ok k') :
    ∃ m root u, k' = { k with mem := m }.setTask k.current
      { k.cur with pagetable := ⟨root⟩, ustack := u, baseSize := u } := by
  rw [sysExec] at h
  obtain ⟨k₁, h₁, h⟩ := exists_of_bind_ok h
  obtain ⟨m₁, root, u, rfl⟩ := execLoad_shape h₁
  obtain ⟨m, -, h⟩ := exists_of_bind_ok h
  exact ⟨m, root, u, (Except.ok.inj h).symm⟩

/-- What `free_child` does to the control blocks. -/
theorem freeChild_shape {child : Slot} (h : freeChild k child = .ok k') :
    ∃ m, k' = { k with mem := m }.setTask child (k.tasks child).freed := by
  rw [freeChild] at h
  obtain ⟨m, -, h⟩ := exists_of_bind_ok h
  exact ⟨m, (Except.ok.inj h).symm⟩

theorem kernelStoreByte_shape {pa : ℕ} {b : Byte} (h : kernelStoreByte cfg pa b k = .ok k') :
    (cfg.etext ≤ pa ∧ pa < phystop) ∧ k' = { k with mem := k.mem.storeByte pa b } := by
  rw [kernelStoreByte] at h
  split_ifs at h with hr
  exact ⟨hr, (Except.ok.inj h).symm⟩

/-! ## In and out -/

/-- A trap that reaches the kernel finds the kernel's table and the task's own stack. -/
theorem enterTrap_shape {scause : Word} (h : enterTrap cfg scause k = .ok k') :
    ∃ m c, k' = { k with
      mem := m, cpu := c, kstacks := Function.update k.kstacks k.current none } ∧
      c.satp = makeSatp k.kernelPagetable.rootPpn ∧ c.reg 2 = BitVec.ofNat 64 k.cur.kstack := by
  simp only [enterTrap] at h
  split_ifs at h with hpc
  obtain ⟨⟨c, m⟩, -, h⟩ := exists_of_bind_ok h
  split_ifs at h with hw
  exact ⟨m, { c with stvec := cfg.trapFromKernel }, (Except.ok.inj h).symm, hw.1, hw.2.2⟩

theorem trapReturn_shape (h : trapReturn cfg k = .ok k') :
    ∃ m c, k' = { k with mem := m, cpu := c } := by
  simp only [trapReturn] at h
  obtain ⟨⟨c, m⟩, -, h⟩ := exists_of_bind_ok h
  exact ⟨m, c, (Except.ok.inj h).symm⟩

theorem userStore_shape (va : Word) (b : Byte) (k : Kernel) :
    ∃ m, userStore va b k = { k with mem := m } := by
  rw [userStore]
  split
  · exact ⟨k.mem, rfl⟩
  · split_ifs
    · exact ⟨_, rfl⟩
    · exact ⟨k.mem, rfl⟩

end RiscvOs
