import RiscvOs.Hw.Machine
import RiscvOs.Load.Elf

/-!
# The state of the kernel

The globals of `task.c` and `address.c`, the registers, and what the ten kernel stacks hold of the
C code suspended on them. A suspended activation is a `Kont`: the place in the source from which it
goes on when `__switch` returns to it.

`Config` fixes what the linker and the build decide; `Env` what a piece of kernel code meets from
outside: the console, the registers the compiler keeps live across a call, and the bytes of the
kernel's own data around the embedded programs.
-/

set_option autoImplicit false

namespace RiscvOs

/-- `MAX_TASK_NUM`. -/
abbrev maxTaskNum : ℕ := 10

/-- A pointer into `tasks`, as its index. -/
abbrev Slot := Fin maxTaskNum

instance neZeroSlots : NeZero maxTaskNum := ⟨by decide⟩

/-- What linking fixes: the layout of `os.ld`, the addresses of the routines that pointers to are
stored, the code page of the trampoline and the embedded programs. -/
structure Config where
  trampoline : ℕ
  etext : ℕ
  kernelend : ℕ
  trapReturn : Word
  /-- The return address of the call to `__switch` in `__sys_yield`. -/
  yieldRet : Word
  trapHandler : Word
  trapFromKernel : Word
  /-- The words of the trampoline page. -/
  text : Fin 512 → Word
  apps : List App
  aligned : trampoline % pageSize = 0 ∧ etext % pageSize = 0 ∧ kernelend % pageSize = 0
  layout : kernbase ≤ trampoline ∧ trampoline + pageSize ≤ etext ∧ etext ≤ kernelend ∧
    kernelend ≤ phystop
  yieldRet_ne : yieldRet ≠ trapReturn
  apps_in : ∀ a ∈ apps, kernbase ≤ a.start ∧ a.start + a.image.length ≤ kernelend

namespace Config

/-- The page of the trampoline. -/
def trampolinePpn (cfg : Config) : ℕ := cfg.trampoline / pageSize

/-- The trampoline's code. -/
def trampolineText (cfg : Config) : Text := ⟨cfg.trampolinePpn, cfg.text⟩

/-- The lowest frame of the allocator. -/
def lo (cfg : Config) : ℕ := ceilPhys (physAddrFromSizeT cfg.kernelend)

end Config

/-- What a piece of kernel code meets from outside. -/
structure Env (cfg : Config) where
  /-- What `sbi_console_getchar` returns; `-1` for no input. -/
  console : BitVec 32
  /-- `get_time_us`. -/
  time : ℕ
  /-- The callee-saved registers at the call of `__switch`. -/
  sregs : Fin 12 → Word
  /-- How much of the stack page is in use at the call of `__switch`. -/
  depth : ℕ
  depth_lt : 0 < depth ∧ depth < pageSize
  /-- The kernel's memory, where `memcpy` reads an embedded program. -/
  kdata : ℕ → Byte
  kdata_app : ∀ a ∈ cfg.apps, ∀ o < a.image.length, kdata (a.start + o) = a.file o

inductive TaskState where
  | unInit | ready | running | zombie
  deriving DecidableEq, Repr

/-- `Ready` or `Running`. -/
def TaskState.live (s : TaskState) : Bool := s = .ready || s = .running

/-- `TaskControlBlock`. -/
structure TaskControlBlock where
  taskState : TaskState
  pid : BitVec 32
  parent : Option Slot
  taskContext : TaskContext
  /-- The physical address of the trap context. -/
  trapCxPpn : ℕ
  baseSize : ℕ
  kstack : ℕ
  ustack : ℕ
  entry : ℕ
  pagetable : PageTable
  exitCode : Word

/-- A static, zeroed control block. -/
def TaskControlBlock.zero : TaskControlBlock where
  taskState := .unInit
  pid := 0
  parent := none
  taskContext := fun _ => 0
  trapCxPpn := 0
  baseSize := 0
  kstack := 0
  ustack := 0
  entry := 0
  pagetable := ⟨0⟩
  exitCode := 0

/-- Where kernel code goes on. `cx` is the local of `trap_handler`: the frame of the trap context
of the task that entered. -/
inductive Kont where
  /-- At the start of `trap_return`. -/
  | trapReturn
  /-- After the `__sys_yield` of the timer interrupt. -/
  | timer
  /-- After the `__sys_yield` of `__SYS_YIELD`. -/
  | sysYield (cx : ℕ)
  /-- At the head of the loop of `__sys_getchar`. -/
  | sysGetchar (cx : ℕ) (data : Word)
  /-- At the head of the loop of `__sys_recycle`, with its locals. -/
  | sysRecycle (cx : ℕ) (father : Slot) (havechild : Bool)
  /-- After the `__sys_yield` of `exit_current_and_run_next`. -/
  | exit
  /-- `__SYSCALL` has returned a value. -/
  | sysReturn (cx : ℕ) (v : Word)
  deriving DecidableEq

/-- An activation suspended in `__switch`: the registers it saved, and where it goes on. -/
structure SavedFrame where
  ctx : TaskContext
  kont : Kont

/-- The state of the kernel. -/
structure Kernel where
  mem : Mem
  kernelPagetable : PageTable
  tasks : Slot → TaskControlBlock
  /-- `_current`. -/
  current : Slot
  /-- `_top`. -/
  top : ℕ
  nextPid : ℕ
  cpu : Cpu
  /-- What the kernel stacks hold. -/
  kstacks : Slot → Option SavedFrame

namespace Kernel

def setTask (k : Kernel) (i : Slot) (t : TaskControlBlock) : Kernel :=
  { k with tasks := Function.update k.tasks i t }

/-- The running task. -/
def cur (k : Kernel) : TaskControlBlock := k.tasks k.current

def printf (k : Kernel) (fmt : String) (args : List PrintfArg) : Kernel :=
  { k with mem := k.mem.printf fmt args }

end Kernel

/-- `printf` with a string of unbounded length: a rendering of `len` characters that does not fit
`out_buf` is fatal. -/
def printfLen (m : Mem) (fmt : String) (args : List PrintfArg) (len : ℕ) : Except Halt Mem :=
  if 1000 ≤ len + 1 then .error .overflow else .ok (m.printf fmt args)

/-- The frame of a slot's trap context. -/
def TaskControlBlock.cx (t : TaskControlBlock) : ℕ := t.trapCxPpn / pageSize

end RiscvOs
