import RiscvOs.Kernel.Steps

/-!
# What the kernel does with user pointers

The system calls that take a pointer, once more, with a log of every access made through it: the
reading of a page-table entry that is `NULL`, the bytes of a string, the byte `__sys_getchar`
stores.

* `Logged.syscall`, `Logged.step`: the calls and the steps with their logs.
* **`Logged.step_snd`**: without the logs they are the calls and the steps of the kernel.
-/

set_option autoImplicit false

namespace RiscvOs

/-- An access of the kernel through a user pointer: the address the user means, and the physical
address the kernel uses for it. -/
inductive Access where
  /-- `*pte` with `pte = NULL`. -/
  | null (va : Word)
  | load (va : Word) (pa : ℕ)
  | store (va : Word) (pa : ℕ)
  deriving DecidableEq

/-- Code of the kernel with its accesses through user pointers. -/
abbrev Logged := Traced Access Halt

namespace Logged

/-- `uptr_to_kptr`. -/
def uptrToKptr (k : Kernel) (uptr : Word) : Logged ℕ :=
  match findPte k.mem.ram k.cur.pagetable
      (virtPageNumFromVirtAddr (virtAddrFromSizeT uptr.toNat)) with
  | none => do
    Traced.tell (.null uptr)
    Traced.lift (.error .fault)
  | some pte => Traced.lift (.ok (ptePa (k.mem.ram pte.1 pte.2) + uptr.toNat % 2 ^ 12))

/-- The reading of the string at a physical address, byte by byte: the user means the bytes that
follow `va`. -/
def cstringFrom (m : Mem) : ℕ → Word → ℕ → Logged (List Byte)
  | 0, _, _ => Traced.lift (.error .fault)
  | fuel + 1, va, pa => do
    Traced.tell (.load va pa)
    if pa < kernbase ∨ phystop ≤ pa then Traced.lift (.error .fault)
    else if m.byte pa = 0 then Traced.lift (.ok [])
    else do
      let rest ← cstringFrom m fuel (va + 1) (pa + 1)
      Traced.lift (.ok (m.byte pa :: rest))

def cstring (uptr : Word) (m : Mem) (pa : ℕ) : Logged (List Byte) :=
  cstringFrom m (phystop - pa + 1) uptr pa

variable (cfg : Config)

def kernelStoreByte (uptr : Word) (pa : ℕ) (b : Byte) (k : Kernel) : Logged Kernel := do
  Traced.tell (.store uptr pa)
  Traced.lift (RiscvOs.kernelStoreByte cfg pa b k)

def sysGetcharLoop (env : Env cfg) (cx : ℕ) (data : Word) (k : Kernel) : Logged (Kont × Kernel) :=
  if env.console = -1 then Traced.lift (sysYield cfg env (.sysGetchar cx data) k)
  else do
    let str ← uptrToKptr k data
    let k ← kernelStoreByte cfg data str (env.console.setWidth 8) k
    Traced.lift (.ok (.sysReturn cx 0, k))

def sysGetchar (env : Env cfg) (cx : ℕ) (fd data : Word) (k : Kernel) : Logged (Kont × Kernel) :=
  if fd = stdin then sysGetcharLoop cfg env cx data k
  else Traced.lift (.ok (.sysReturn cx 0, k))

/-- `__SYSCALL`. (`__sys_exec` compares the bytes that the `printf` before it has read.) -/
def syscall (env : Env cfg) (cx : ℕ) (id arg1 arg2 : Word) (k : Kernel) : Logged (Kont × Kernel) :=
  match SyscallId.ofWord id with
  | some .printf => do
    let str ← uptrToKptr k arg1
    let bytes ← cstring arg1 k.mem str
    Traced.lift (.ok (.sysReturn cx 0, { k with mem.console := .uart bytes :: k.mem.console }))
  | some .getChar => sysGetchar cfg env cx arg1 arg2 k
  | some .exec => do
    let name ← uptrToKptr k arg2
    let bytes ← cstring arg2 k.mem name
    Traced.lift do
      let m ← printfLen k.mem "exec app_name:%s\n" [.str bytes] (14 + bytes.length + 1)
      let k ← sysExec cfg env name { k with mem := m }
      .ok (.sysReturn cx 0, k)
  | _ => Traced.lift (RiscvOs.syscall cfg env cx id arg1 arg2 k)

/-- `trap_handler`. -/
def trapHandler (env : Env cfg) (k : Kernel) : Logged (Kont × Kernel) :=
  if k.cpu.scause.getLsbD 63 = false ∧ k.cpu.scause &&& 0xfff = 8 then
    syscall cfg env k.cur.cx ((moveSepc k).mem.ram k.cur.cx (cxReg 17))
      ((moveSepc k).mem.ram k.cur.cx (cxReg 10)) ((moveSepc k).mem.ram k.cur.cx (cxReg 11))
      (moveSepc k)
  else Traced.lift (RiscvOs.trapHandler cfg env k)

def takeTrap (scause : Word) (env : Env cfg) (k : Kernel) : Logged (Mode × Kernel) := do
  let k ← Traced.lift (enterTrap cfg scause k)
  let (kont, k) ← trapHandler cfg env k
  Traced.lift (.ok (.kernel kont, k))

def runKont (env : Env cfg) (kont : Kont) (k : Kernel) : Logged (Mode × Kernel) :=
  match kont with
  | .sysGetchar cx data => do
    let (kont, k) ← sysGetcharLoop cfg env cx data k
    Traced.lift (.ok (.kernel kont, k))
  | kont => Traced.lift (RiscvOs.runKont cfg env kont k)

/-- One step, and the accesses it makes. -/
def step (e : Event cfg) (s : Sys) : List Access × Sys :=
  match s, e with
  | .running .user k, .trap scause env =>
    ((takeTrap cfg scause env k).log, .ofExcept (takeTrap cfg scause env k).result)
  | .running (.kernel kont) k, .resume env =>
    ((runKont cfg env kont k).log, .ofExcept (runKont cfg env kont k).result)
  | s, e => ([], RiscvOs.step cfg e s)

/-! ## Without the logs -/

variable {cfg} {k : Kernel} {env : Env cfg}

@[simp] theorem uptrToKptr_result (k : Kernel) (uptr : Word) :
    (uptrToKptr k uptr).result = RiscvOs.uptrToKptr k uptr := by
  unfold uptrToKptr RiscvOs.uptrToKptr
  cases findPte k.mem.ram k.cur.pagetable
    (virtPageNumFromVirtAddr (virtAddrFromSizeT uptr.toNat)) <;> rfl

theorem cstringFrom_result (m : Mem) (fuel : ℕ) (va : Word) (pa : ℕ) :
    (cstringFrom m fuel va pa).result = m.cstringFrom fuel pa := by
  induction fuel generalizing va pa with
  | zero => rfl
  | succ fuel ih =>
    rw [cstringFrom, Mem.cstringFrom, Traced.result_bind, Traced.result_tell]
    change (ite _ _ _ : Logged (List Byte)).result = _
    split_ifs
    · rfl
    · rfl
    · rw [Traced.result_bind, ih]
      rfl

@[simp] theorem cstring_result (uptr : Word) (m : Mem) (pa : ℕ) :
    (cstring uptr m pa).result = m.cstring pa := cstringFrom_result _ _ _ _

@[simp] theorem kernelStoreByte_result (uptr : Word) (pa : ℕ) (b : Byte) (k : Kernel) :
    (kernelStoreByte cfg uptr pa b k).result = RiscvOs.kernelStoreByte cfg pa b k := rfl

@[simp] theorem sysGetcharLoop_result (env : Env cfg) (cx : ℕ) (data : Word) (k : Kernel) :
    (sysGetcharLoop cfg env cx data k).result = RiscvOs.sysGetcharLoop cfg env cx data k := by
  rw [sysGetcharLoop, RiscvOs.sysGetcharLoop]
  split_ifs
  · rfl
  · simp only [Traced.result_bind, uptrToKptr_result, kernelStoreByte_result, Traced.result_lift]

theorem syscall_result (env : Env cfg) (cx : ℕ) (id arg1 arg2 : Word) (k : Kernel) :
    (syscall cfg env cx id arg1 arg2 k).result = RiscvOs.syscall cfg env cx id arg1 arg2 k := by
  rw [syscall]
  split
  · next h =>
    simp only [Traced.result_bind, uptrToKptr_result, cstring_result, Traced.result_lift,
      RiscvOs.syscall, h]
  · next h =>
    simp only [RiscvOs.syscall, h, sysGetchar, RiscvOs.sysGetchar]
    split_ifs
    · exact sysGetcharLoop_result _ _ _ _
    · rfl
  · next h =>
    simp only [Traced.result_bind, uptrToKptr_result, cstring_result, Traced.result_lift,
      RiscvOs.syscall, h]
  · rfl

theorem trapHandler_result (env : Env cfg) (k : Kernel) :
    (trapHandler cfg env k).result = RiscvOs.trapHandler cfg env k := by
  rw [trapHandler]
  split_ifs with h
  · rw [syscall_result, trapHandler_ecall env h.1 h.2]
  · rfl

/-- **The logs change nothing.** -/
theorem step_snd (e : Event cfg) (s : Sys) : (step cfg e s).2 = RiscvOs.step cfg e s := by
  unfold step
  split
  · next k scause env =>
    have hk : (takeTrap cfg scause env k).result = RiscvOs.takeTrap cfg scause env k := by
      simp only [takeTrap, RiscvOs.takeTrap, Traced.result_bind, Traced.result_lift,
        trapHandler_result]
    rw [hk, RiscvOs.step]
  · next kont k env =>
    have hk : (runKont cfg env kont k).result = RiscvOs.runKont cfg env kont k := by
      unfold runKont
      split
      · simp only [RiscvOs.runKont, Traced.result_bind, Traced.result_lift, sysGetcharLoop_result]
      · rfl
    rw [hk, RiscvOs.step]
  · rfl

end Logged

end RiscvOs
