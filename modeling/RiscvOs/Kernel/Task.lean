import RiscvOs.Kernel.State

/-!
# `task.c`, `__sys_yield` and `__switch`

Task creation, address-space copying, the scheduler, exit and the freeing of a child.
-/

set_option autoImplicit false

namespace RiscvOs

variable (cfg : Config)

/-- `alloc_pid`. -/
def allocPid (k : Kernel) : BitVec 32 × Kernel :=
  (BitVec.ofNat 32 k.nextPid, { k with nextPid := k.nextPid + 1 })

/-- `task_context_init`. -/
def taskContextInit (cptr ret : Word) : TaskContext :=
  fun i => if i = 0 then ret else if i = 1 then cptr else 0

/-- `proc_trap`: a frame for the trap context, and an empty task context. -/
def procTrap (k : Kernel) (p : Slot) : Except Halt Kernel := do
  let (ppn, m) ← kalloc k.mem
  .ok ({ k with mem := m }.setTask p
    { k.tasks p with trapCxPpn := physAddrFromPhysPageNum ppn, taskContext := fun _ => 0 })

/-- The table `proc_pagetable` builds: the trampoline and the trap context. -/
def procTable (m : Mem) (trapCx : ℕ) : Except Halt (PageTable × Mem) := do
  let (root, m) ← kalloc m
  let pt : PageTable := ⟨root⟩
  let m ← pt.map m (virtAddrFromSizeT trampolineVa) (physAddrFromSizeT cfg.trampoline) pageSize
    (pteR ||| pteX)
  let m ← pt.map m (virtAddrFromSizeT trapframeVa) (physAddrFromSizeT trapCx) pageSize
    (pteR ||| pteW)
  .ok (pt, m)

/-- `proc_pagetable`. -/
def procPagetable (k : Kernel) (p : Slot) : Except Halt Kernel := do
  let (pt, m) ← procTable cfg k.mem (k.tasks p).trapCxPpn
  .ok ({ k with mem := m }.setTask p { k.tasks p with pagetable := pt })

/-- `task_create_pt`. -/
def taskCreatePt (k : Kernel) (p : Slot) : Except Halt Kernel :=
  if k.top < maxTaskNum then do
    let k ← procTrap k p
    let k ← procPagetable cfg k p
    .ok { k with top := k.top + 1 }
  else .ok k

/-- `procinit`. -/
def procinit (k : Kernel) : Kernel :=
  { k with tasks := fun i => { k.tasks i with taskState := .unInit } }

/-- The slot `alloc_proc` takes: the first `UnInit` one. -/
def freeSlot (k : Kernel) : Option Slot :=
  (List.finRange maxTaskNum).find? fun i => (k.tasks i).taskState = .unInit

/-- `alloc_proc`. -/
def allocProc (k : Kernel) : Except Halt (Option Slot × Kernel) :=
  match freeSlot k with
  | none => .ok (none, k)
  | some p => do
    let (pid, k) := allocPid k
    let k := k.setTask p { k.tasks p with pid := pid, taskState := .ready }
    let k ← procTrap k p
    let k ← procPagetable cfg k p
    .ok (some p, { k with top := k.top + 1 })

/-- One page of `uvm_copy`. -/
def uvmCopyPage (father child : PageTable) (v : ℕ) (m : Mem) : Except Halt Mem :=
  match findPte m.ram father (floorVirts (virtAddrFromSizeT (v * pageSize))) with
  | none => .ok m
  | some pte => do
    let phyadd := ptePa (m.ram pte.1 pte.2)
    let flags := PageTableEntry.flags (m.ram pte.1 pte.2)
    let (ppn, m) ← kalloc m
    let m := m.storeFrame ppn (m.ram (phyadd / pageSize))
    child.map m (virtAddrFromSizeT (v * pageSize)) (physAddrFromPhysPageNum ppn) pageSize flags

/-- The loop of `uvm_copy`: `n` pages from `v` on. -/
def uvmCopyFrom (father child : PageTable) : ℕ → ℕ → Mem → Except Halt Mem
  | _, 0, m => .ok m
  | v, n + 1, m => do
    let m ← uvmCopyPage father child v m
    uvmCopyFrom father child (v + 1) n m

/-- `uvm_copy`. -/
def uvmCopy (m : Mem) (father child : PageTable) (sz : ℕ) : Except Halt Mem :=
  uvmCopyFrom father child 0 ((sz + pageSize - 1) / pageSize) m

/-! ## The scheduler -/

/-- The slot whose kernel-stack page holds a stack pointer. -/
def kernelStackOf (sp : Word) : Option Slot :=
  (List.finRange maxTaskNum).find? fun p => kstackVa p < sp.toNat ∧ sp.toNat ≤ kstackVa p + pageSize

/-- Return from `__switch` by the context it has loaded: to the start of `trap_return`, or into the
activation suspended on the stack the context points to. -/
def resumeAt (k : Kernel) (ctx : TaskContext) : Except Halt Kont :=
  if ctx 0 = cfg.trapReturn then .ok .trapReturn
  else if ctx 0 = cfg.yieldRet then
    match (kernelStackOf (ctx 1)).bind k.kstacks with
    | some frame => if frame.ctx = ctx then .ok frame.kont else .error .wild
    | none => .error .wild
  else .error .wild

/-- The registers at the call of `__switch`. -/
def atSwitch (env : Env cfg) (c : Cpu) (stack : Slot) : Cpu :=
  let c := (c.setReg 1 cfg.yieldRet).setReg 2
    (BitVec.ofNat 64 (kstackVa stack + pageSize - env.depth))
  (List.finRange 12).foldl (fun c n => c.setReg (sreg n) (env.sregs n)) c

/-- `__switch(&tasks[prev].task_context, &tasks[next].task_context)`, called where the activation
`self` goes on afterwards. -/
def switch (env : Env cfg) (self : Kont) (prev next : Slot) (k : Kernel) :
    Except Halt (Kont × Kernel) :=
  match kernelStackOf (k.cpu.reg 2) with
  | none => .error .wild
  | some stack => do
    let c := atSwitch cfg env k.cpu stack
    let ctx := saveContext c (k.tasks prev).taskContext
    let k := k.setTask prev { k.tasks prev with taskContext := ctx }
    let k := { k with kstacks := Function.update k.kstacks stack (some ⟨ctx, self⟩) }
    let loaded := (k.tasks next).taskContext
    let kont ← resumeAt cfg k loaded
    .ok (kont, { k with cpu := loadContext c loaded })

/-- `__sys_yield`, called where `self` goes on: the activation that runs afterwards. -/
def sysYield (env : Env cfg) (self : Kont) (k : Kernel) : Except Halt (Kont × Kernel) :=
  if k.top = 0 then .error (.panic "no task is running. can not yield")
  else
    let next := (k.current.val + 1) % k.top
    if h : next < maxTaskNum then
      let next : Slot := ⟨next, h⟩
      if (k.tasks next).taskState.live then
        let prev := k.current
        let k := k.setTask next { k.tasks next with taskState := .running }
        let k := if (k.tasks prev).taskState = .running then
          k.setTask prev { k.tasks prev with taskState := .ready } else k
        switch cfg env self prev next { k with current := next }
      else .ok (self, k)
    else .error .wild

/-- `start_task`. The context `__switch` saves is never used again. -/
def startTask (k : Kernel) : Except Halt (Kont × Kernel) := do
  let k := k.setTask 0 { k.tasks 0 with taskState := .running }
  let kont ← resumeAt cfg k (k.tasks 0).taskContext
  .ok (kont, { k with cpu := loadContext k.cpu (k.tasks 0).taskContext })

/-! ## Exit and reclamation -/

/-- `child_proc_mv`. -/
def childProcMv (k : Kernel) (p : Slot) : Kernel :=
  { k with tasks := fun i =>
      if (k.tasks i).parent = some p then { k.tasks i with parent := some 0 } else k.tasks i }

/-- `exit_current_and_run_next` up to its `__sys_yield`. -/
def becomeZombie (exitCode : Word) (k : Kernel) : Kernel :=
  let k := k.setTask k.current { k.cur with exitCode := exitCode, taskState := .zombie }
  let k := childProcMv k k.current
  { k with top := k.top - 1 }

/-- `exit_current_and_run_next`. -/
def exitCurrentAndRunNext (env : Env cfg) (exitCode : Word) (k : Kernel) :
    Except Halt (Kont × Kernel) :=
  if k.cur.pid = 0 then .error (.panic "error:init exiting")
  else do
    let (kont, k) ← sysYield cfg env .exit (becomeZombie exitCode k)
    -- no switch happened: the code after the yield runs
    if kont = .exit then .error (.panic "Zombie exit failed") else .ok (kont, k)

/-- The control block `free_child` leaves. -/
def TaskControlBlock.freed (t : TaskControlBlock) : TaskControlBlock :=
  { t with
    pagetable := ⟨0⟩
    trapCxPpn := 0
    baseSize := 0
    parent := none
    ustack := 0
    entry := 0
    taskState := .unInit
    exitCode := 0 }

/-- `free_child`. -/
def freeChild (k : Kernel) (child : Slot) : Except Halt Kernel := do
  let t := k.tasks child
  let m ← freeSpace true k.mem t.pagetable t.baseSize
  .ok ({ k with mem := m }.setTask child t.freed)

end RiscvOs
