import RiscvOs.Kernel.Task

/-!
# `trap.c`

The system calls, the trap handler and the way in and out of the kernel through the trampoline.

A system call that yields returns the activation that runs afterwards; one that returns to its
caller ends in `Kont.sysReturn`, whose continuation stores the value in the trap context.
-/

set_option autoImplicit false

namespace RiscvOs

variable (cfg : Config)

/-! ## User pointers -/

/-- `uptr_to_kptr`. The entry is read without a test for `NULL`: the kernel does not map page 0. -/
def uptrToKptr (k : Kernel) (uptr : Word) : Except Halt ℕ :=
  match findPte k.mem.ram k.cur.pagetable
      (virtPageNumFromVirtAddr (virtAddrFromSizeT uptr.toNat)) with
  | none => .error .fault
  | some pte => .ok (ptePa (k.mem.ram pte.1 pte.2) + uptr.toNat % 2 ^ 12)

/-- A store of the kernel through its identity mapping, which is writable from `etext` on. -/
def kernelStoreByte (pa : ℕ) (b : Byte) (k : Kernel) : Except Halt Kernel :=
  if cfg.etext ≤ pa ∧ pa < phystop then .ok { k with mem := k.mem.storeByte pa b }
  else .error .fault

/-! ## System calls -/

/-- The loop of `__sys_getchar`, from its head. -/
def sysGetcharLoop (env : Env cfg) (cx : ℕ) (data : Word) (k : Kernel) :
    Except Halt (Kont × Kernel) :=
  if env.console = -1 then sysYield cfg env (.sysGetchar cx data) k
  else do
    let str ← uptrToKptr k data
    let k ← kernelStoreByte cfg str (env.console.setWidth 8) k
    .ok (.sysReturn cx 0, k)

/-- The file descriptor of the console. -/
def stdin : Word := 0

/-- `__sys_getchar`. -/
def sysGetchar (env : Env cfg) (cx : ℕ) (fd data : Word) (k : Kernel) :
    Except Halt (Kont × Kernel) :=
  if fd = stdin then sysGetcharLoop cfg env cx data k else .ok (.sysReturn cx 0, k)

/-- The memory of the child: the parent's pages and trap context, with `a0` and `kernel_sp` set. -/
def forkMem (m : Mem) (fa child : TaskControlBlock) : Except Halt Mem := do
  let m ← uvmCopy m fa.pagetable child.pagetable fa.baseSize
  let m := m.storeFrame child.cx (m.ram fa.cx)
  let m := m.store child.cx (cxReg 10) 0
  .ok (m.store child.cx cxKernelSp (BitVec.ofNat 64 child.kstack))

/-- `__sys_fork`. -/
def sysFork (k : Kernel) : Except Halt (BitVec 32 × Kernel) := do
  let (p, k) ← allocProc cfg k
  match p with
  | none => .ok (-1, k.printf "child_proc failed!" [])
  | some p =>
    let m ← forkMem k.mem k.cur (k.tasks p)
    let k := { k with mem := m }.setTask p
      { k.tasks p with
        entry := k.cur.entry
        baseSize := k.cur.baseSize
        parent := some k.current
        ustack := k.cur.ustack }
    let k := k.printf "running task num:%d\n" [.num k.top]
    let k := k.setTask p
      { k.tasks p with
        taskContext := taskContextInit (BitVec.ofNat 64 (k.tasks p).kstack) cfg.trapReturn }
    .ok ((k.tasks p).pid, k)

/-- `get_app_data_by_name`: where the program starts. -/
def getAppDataByName (path : List Byte) (m : Mem) : Except Halt (ℕ × Mem) :=
  match cfg.apps.findIdx? fun a => a.name = path with
  | none => .error (.panic "no app found\n")
  | some i => do
    let id := i + 1
    let m ← printfLen m "find app:%s id:%d\n" [.str path, .num id]
      (9 + path.length + 4 + (Nat.repr id).length + 1)
    .ok (((cfg.apps[i]?).map App.start).getD 0, m)

/-- `__sys_exec` up to the freeing of the old memory, on the string at the physical address
`name`. -/
def execLoad (env : Env cfg) (name : ℕ) (k : Kernel) : Except Halt Kernel := do
  let path ← k.mem.cstring name
  let (start, m) ← getAppDataByName cfg path k.mem
  let im : Image := ⟨start, env.kdata⟩
  elfCheck im.file
  let proc := k.current
  let k ← procPagetable cfg { k with mem := m } proc
  let (ustack, m) ← loadSegment im k.cur.pagetable k.cur.ustack k.mem
  let k := { k with mem := m }.setTask proc { k.cur with ustack := ustack, baseSize := ustack }
  let m := k.mem.store k.cur.cx cxSepc (BitVec.ofNat 64 (ehdrOf im.file).eEntry)
  .ok { k with mem := m.store k.cur.cx (cxReg 2) (BitVec.ofNat 64 k.cur.ustack) }

/-- `__sys_exec`. -/
def sysExec (env : Env cfg) (name : ℕ) (k : Kernel) : Except Halt Kernel := do
  let oldPagetable := k.cur.pagetable
  let oldSize := k.cur.baseSize
  let k ← execLoad cfg env name k
  let m ← freeProcMemory k.mem oldPagetable oldSize
  .ok { k with mem := m }

/-- The loop of `__sys_recycle`, from its head. -/
def sysRecycleLoop (env : Env cfg) (cx : ℕ) (father : Slot) (havechild : Bool) (k : Kernel) :
    Except Halt (Kont × Kernel) :=
  match (List.finRange maxTaskNum).find? fun i =>
      (k.tasks i).parent = some father ∧ (k.tasks i).taskState = .zombie with
  | some child => do
    let pid := (k.tasks child).pid
    let k ← freeChild k child
    .ok (.sysReturn cx (pid.signExtend 64), k.printf "free pid:%d\n" [.num pid.toNat])
  | none =>
    let havechild := havechild ||
      (List.finRange maxTaskNum).any fun i => (k.tasks i).parent = some father
    if !havechild then .ok (.sysReturn cx (-1), k.printf "no child\n" [])
    else sysYield cfg env (.sysRecycle cx father havechild) k

/-- The numbers of the system calls. -/
inductive SyscallId where
  | printf | yield | setTrigger | getTime | getChar | fork | exec | exit | recycle
  deriving DecidableEq

def SyscallId.ofWord (id : Word) : Option SyscallId :=
  match id.toNat with
  | 1 => some .printf
  | 2 => some .yield
  | 3 => some .setTrigger
  | 4 => some .getTime
  | 5 => some .getChar
  | 6 => some .fork
  | 7 => some .exec
  | 8 => some .exit
  | 9 => some .recycle
  | _ => none

/-- `__SYSCALL`, for the task whose trap context is the frame `cx`. -/
def syscall (env : Env cfg) (cx : ℕ) (id arg1 arg2 : Word) (k : Kernel) :
    Except Halt (Kont × Kernel) :=
  match SyscallId.ofWord id with
  | some .printf => do
    let str ← uptrToKptr k arg1
    let bytes ← k.mem.cstring str
    .ok (.sysReturn cx 0, { k with mem.console := .uart bytes :: k.mem.console })
  | some .yield => sysYield cfg env (.sysYield cx) k
  | some .setTrigger => .ok (.sysReturn cx 0, k)
  | some .getTime => .ok (.sysReturn cx 0, k.printf "now time:%d\n" [.num env.time])
  | some .getChar => sysGetchar cfg env cx arg1 arg2 k
  | some .fork => do
    let (pid, k) ← sysFork cfg k
    .ok (.sysReturn cx (pid.signExtend 64), k)
  | some .exec => do
    let name ← uptrToKptr k arg2
    let bytes ← k.mem.cstring name
    let m ← printfLen k.mem "exec app_name:%s\n" [.str bytes] (14 + bytes.length + 1)
    let k ← sysExec cfg env name { k with mem := m }
    .ok (.sysReturn cx 0, k)
  | some .exit => exitCurrentAndRunNext cfg env arg1 k
  | some .recycle => sysRecycleLoop cfg env cx k.current false k
  | none => .error (.panic "this syscall id is illegal")

/-! ## The trap handler -/

/-- The branch of `trap_handler` for an `ecall`: `sepc` is moved on, then the call is made with the
saved registers. -/
def handleEcall (env : Env cfg) (k : Kernel) : Except Halt (Kont × Kernel) :=
  let cx := k.cur.cx
  let k := { k with mem := k.mem.store cx cxSepc (k.mem.ram cx cxSepc + 8) }
  syscall cfg env cx (k.mem.ram cx (cxReg 17)) (k.mem.ram cx (cxReg 10)) (k.mem.ram cx (cxReg 11)) k

/-- `trap_handler`. -/
def trapHandler (env : Env cfg) (k : Kernel) : Except Halt (Kont × Kernel) :=
  let scause := k.cpu.scause
  let causeCode := scause &&& 0xfff
  if scause.getLsbD 63 then
    if causeCode = 5 then sysYield cfg env .timer k
    else .ok (.trapReturn, k.printf "undfined interrrupt scause:%x\n" [.num scause.toNat])
  else if causeCode = 8 then handleEcall cfg env k
  else .error (.panic "stop in trap_handler\n")

/-! ## In and out -/

/-- A trap from user mode, up to the first line of `trap_handler`. A trap context whose kernel words
are not the ones `app_init` and `__sys_fork` wrote leads out of the kernel's code. The activation
starts at the top of the task's kernel stack and overwrites what was there. -/
def enterTrap (scause : Word) (k : Kernel) : Except Halt Kernel :=
  let c := k.cpu.trap scause
  if c.pc = BitVec.ofNat 64 trampolineVa then do
    let (c, m) ← execInstrs cfg.trampolineText alltraps c k.mem
    if c.satp = makeSatp k.kernelPagetable.rootPpn ∧ c.pc = cfg.trapHandler ∧
        c.reg 2 = BitVec.ofNat 64 k.cur.kstack then
      .ok { k with
        mem := m
        cpu := { c with stvec := cfg.trapFromKernel }
        kstacks := Function.update k.kstacks k.current none }
    else .error .wild
  else .error .wild

/-- `current_user_token`. -/
def currentUserToken (k : Kernel) : Word := makeSatp k.cur.pagetable.rootPpn

/-- `trap_return`: through `__restore` back to user mode. -/
def trapReturn (k : Kernel) : Except Halt Kernel := do
  let c := { k.cpu with stvec := BitVec.ofNat 64 trampolineVa }
  let c := (c.setReg 10 (BitVec.ofNat 64 trapframeVa)).setReg 11 (currentUserToken k)
  let (c, m) ← execInstrs cfg.trampolineText restore c k.mem
  .ok { k with mem := m, cpu := c }

end RiscvOs
