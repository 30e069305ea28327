import RiscvOs.Kernel.Trap

/-!
# The system

`os_main` up to the first task, and then the steps of the machine: a user program computes, stores
through its own translation, or traps; in the kernel the current activation goes on. Interrupts are
disabled in the kernel, so a kernel step runs from one call of `__switch` to the next, to the return
of `__SYSCALL`, or back to user mode. A panic is a state without successors.

* `boot`, `step`, `run`, `Reachable`: the runs of the system.
-/

set_option autoImplicit false

namespace RiscvOs

variable (cfg : Config)

/-! ## Boot -/

/-- What the machine holds when `os_main` starts. -/
structure Start (cfg : Config) extends Env cfg where
  cpu : Cpu
  ram : ℕ → Fin 512 → Word
  /-- The image has been loaded: the trampoline page holds its code. -/
  ram_text : ram cfg.trampolinePpn = cfg.text

theorem Config.lo_le (cfg : Config) : cfg.lo ≤ ceilPhys (physAddrFromSizeT phystop) := by
  have h := cfg.layout
  have hp : phystop < 2 ^ 56 := by decide
  unfold Config.lo ceilPhys physAddrFromSizeT
  rw [Nat.mod_eq_of_lt (by omega), Nat.mod_eq_of_lt hp]
  exact Nat.div_le_div_right (by omega)

/-- `frame_alloctor_init`, on zeroed globals. -/
def frameAlloctorInit (b : Start cfg) : Kernel where
  mem :=
    { ram := b.ram
      memoryAllocator :=
        stackFrameAllocatorNew cfg.lo (ceilPhys (physAddrFromSizeT phystop)) cfg.lo_le
      console := [] }
  kernelPagetable := ⟨0⟩
  tasks := fun _ => .zero
  current := 0
  top := 0
  nextPid := 0
  cpu := b.cpu
  kstacks := fun _ => none

/-- One turn of `proc_mapstacks`. -/
def procMapstack (k : Kernel) (p : Slot) : Except Halt Kernel := do
  let (ppn, m) ← kalloc k.mem
  let pa := physAddrFromPhysPageNum ppn
  if pa = 0 then .error (.panic "kalloc")
  else
    let va := kstackVa p
    let m ← k.kernelPagetable.map m (virtAddrFromSizeT va) (physAddrFromSizeT pa) pageSize
      (pteR ||| pteW)
    .ok ({ k with mem := m }.setTask p { k.tasks p with kstack := va + pageSize })

/-- The mappings `kvm_make` makes before the stacks: the kernel's text and data and the
trampoline. -/
def kvmMakeTable (pt : PageTable) (m : Mem) : Except Halt Mem := do
  let m ← pt.map m (virtAddrFromSizeT kernbase) (physAddrFromSizeT kernbase)
    (cfg.etext - kernbase) (pteR ||| pteX)
  let m ← pt.map m (virtAddrFromSizeT cfg.etext) (physAddrFromSizeT cfg.etext)
    (phystop - cfg.etext) (pteR ||| pteW)
  pt.map m (virtAddrFromSizeT trampolineVa) (physAddrFromSizeT cfg.trampoline) pageSize
    (pteR ||| pteX)

/-- `kvm_make`. -/
def kvmMake (k : Kernel) : Except Halt Kernel := do
  let (root, m) ← kalloc k.mem
  let k := { k with mem := m, kernelPagetable := ⟨root⟩ }
  let m ← kvmMakeTable cfg k.kernelPagetable k.mem
  (List.finRange maxTaskNum).foldlM procMapstack { k with mem := m }

/-- `kvminit`. It prints the page of the first kernel stack, whose entry it reads unchecked. -/
def kvminit (k : Kernel) : Except Halt Kernel := do
  let k ← kvmMake cfg k
  match findPte k.mem.ram k.kernelPagetable
      (virtPageNumFromVirtAddr (virtAddrFromSizeT 0xffffffffffffd000)) with
  | none => .error .fault
  | some _ => .ok { k with cpu := k.cpu.setCsr .satp (makeSatp k.kernelPagetable.rootPpn) }

/-- `get_app_names` fills a table of `MAX_TASK_NUM` names. -/
def getAppNames : Except Halt Unit :=
  if cfg.apps.length ≤ maxTaskNum then .ok () else .error .wild

/-- `load_app(0)`. -/
def loadApp (b : Start cfg) (k : Kernel) : Except Halt Kernel :=
  match cfg.apps with
  | [] => .error (.assertion "app_id <= num_app")
  | app :: _ => do
    let im : Image := ⟨app.start, b.kdata⟩
    elfCheck im.file
    let k ← taskCreatePt cfg k 0
    let k := k.setTask 0 { k.tasks 0 with entry := (ehdrOf im.file).eEntry }
    let (ustack, m) ← loadSegment im (k.tasks 0).pagetable (k.tasks 0).ustack k.mem
    .ok ({ k with mem := m }.setTask 0 { k.tasks 0 with ustack := ustack, baseSize := ustack })

/-- The trap context `app_init` sets up. -/
def appTrap (m : Mem) (cx root : ℕ) (entry ustack kstack : ℕ) (sstatus : Word) : Mem :=
  let m := m.store cx cxSepc (BitVec.ofNat 64 entry)
  let m := m.store cx cxSstatus sstatus
  let m := m.store cx (cxReg 2) (BitVec.ofNat 64 ustack)
  let m := m.store cx cxKernelSatp (makeSatp root)
  let m := m.store cx cxKernelSp (BitVec.ofNat 64 kstack)
  m.store cx cxTrapHandler cfg.trapHandler

/-- `app_init(0)`. The mask `~(1U<<8)` is a 32-bit one. -/
def appInit (k : Kernel) : Kernel :=
  let sstatus := k.cpu.sstatus &&& 0xfffffeff
  let t := k.tasks 0
  let k := { k with
    cpu := k.cpu.setCsr .sstatus sstatus
    mem := appTrap cfg k.mem t.cx k.kernelPagetable.rootPpn t.entry t.ustack t.kstack sstatus }
  let k := k.setTask 0 { t with
    taskContext := taskContextInit (BitVec.ofNat 64 t.kstack) cfg.trapReturn
    taskState := .ready }
  let (pid, k) := allocPid k
  k.setTask 0 { k.tasks 0 with pid := pid }

/-- `set_kernel_trap_entry` and `timer_init`. -/
def timerInit (k : Kernel) : Kernel :=
  { k with cpu := { k.cpu with stvec := cfg.trapFromKernel, sstatus := k.cpu.sstatus ||| 2 } }

/-- `os_main`. -/
def boot (b : Start cfg) : Except Halt (Kont × Kernel) := do
  let k ← kvminit cfg (frameAlloctorInit cfg b)
  let k := procinit k
  getAppNames cfg
  let k ← loadApp cfg b k
  startTask cfg (timerInit cfg (appInit cfg k))

/-! ## Steps -/

/-- Who runs: the program of the current task, or the kernel at some point of its code. -/
inductive Mode where
  | user
  | kernel (kont : Kont)
  deriving DecidableEq

/-- A state of the system. -/
inductive Sys where
  | running (mode : Mode) (k : Kernel)
  | halted (h : Halt)

/-- What happens next. -/
inductive Event (cfg : Config) where
  /-- User instructions that leave memory alone. -/
  | compute (x : Fin 32 → Word) (pc : Word)
  /-- A store of the user program. -/
  | store (va : Word) (b : Byte)
  /-- A trap of the user program: an interrupt or an exception. -/
  | trap (scause : Word) (env : Env cfg)
  /-- The kernel runs on. -/
  | resume (env : Env cfg)

/-- A store of the user program: through the translation of `satp`, on a writable user page. (On
any other page it traps, which is an event of its own.) -/
def userStore (va : Word) (b : Byte) (k : Kernel) : Kernel :=
  match translate k.mem.ram k.cpu.satp va with
  | none => k
  | some (ppn, pte) =>
    if PageTableEntry.has pte pteW && PageTableEntry.has pte pteU then
      { k with mem := k.mem.storeByte (ppn * pageSize + va.toNat % pageSize) b }
    else k

/-- The current activation goes on. -/
def runKont (env : Env cfg) (kont : Kont) (k : Kernel) : Except Halt (Mode × Kernel) :=
  match kont with
  | .trapReturn | .timer => do
    let k ← trapReturn cfg k
    .ok (.user, k)
  | .sysYield cx => .ok (.kernel (.sysReturn cx 0), k)
  | .sysGetchar cx data => do
    let (kont, k) ← sysGetcharLoop cfg env cx data k
    .ok (.kernel kont, k)
  | .sysRecycle cx father havechild => do
    let (kont, k) ← sysRecycleLoop cfg env cx father havechild k
    .ok (.kernel kont, k)
  | .exit => .error (.panic "Zombie exit failed")
  | .sysReturn cx v => do
    let k ← trapReturn cfg { k with mem := k.mem.store cx (cxReg 10) v }
    .ok (.user, k)

/-- A trap: into the kernel, and on to its first call of `__switch` or the end of `__SYSCALL`. -/
def takeTrap (scause : Word) (env : Env cfg) (k : Kernel) : Except Halt (Mode × Kernel) := do
  let k ← enterTrap cfg scause k
  let (kont, k) ← trapHandler cfg env k
  .ok (.kernel kont, k)

/-- The state a piece of code leaves. -/
def Sys.ofExcept : Except Halt (Mode × Kernel) → Sys
  | .ok (mode, k) => .running mode k
  | .error h => .halted h

/-- One step. An event that does not apply changes nothing. -/
def step (e : Event cfg) (s : Sys) : Sys :=
  match s, e with
  | .running .user k, .compute x pc =>
    .running .user { k with cpu := { k.cpu with x := x, pc := pc } }
  | .running .user k, .store va b => .running .user (userStore va b k)
  | .running .user k, .trap scause env => .ofExcept (takeTrap cfg scause env k)
  | .running (.kernel kont) k, .resume env => .ofExcept (runKont cfg env kont k)
  | s, _ => s

/-- The state after `os_main`. -/
def start (b : Start cfg) : Sys :=
  match boot cfg b with
  | .ok (kont, k) => .running (.kernel kont) k
  | .error h => .halted h

/-- A run. -/
def run (es : List (Event cfg)) (s : Sys) : Sys := es.foldl (fun s e => step cfg e s) s

/-- The states of the runs from boot. -/
def Reachable (s : Sys) : Prop := ∃ b es, run cfg es (start cfg b) = s

variable {cfg}

theorem run_nil (s : Sys) : run cfg [] s = s := rfl

theorem run_cons (e : Event cfg) (es : List (Event cfg)) (s : Sys) :
    run cfg (e :: es) s = run cfg es (step cfg e s) := rfl

theorem run_append (es es' : List (Event cfg)) (s : Sys) :
    run cfg (es ++ es') s = run cfg es' (run cfg es s) := List.foldl_append

theorem Reachable.step {s : Sys} (h : Reachable cfg s) (e : Event cfg) :
    Reachable cfg (step cfg e s) := by
  obtain ⟨b, es, rfl⟩ := h
  exact ⟨b, es ++ [e], by rw [run_append, run_cons, run_nil]⟩

end RiscvOs
