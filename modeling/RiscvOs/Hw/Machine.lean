import RiscvOs.Mem.Bytes

/-!
# The machine below the kernel

What the assembly of `kerneltrap.S` runs on: the registers, the Sv39 translation, and the few
instructions the file uses. The two trampoline routines run in supervisor mode through the
translation of the current `satp`; `__switch` works on two `TaskContext`s in the kernel's own data.
-/

set_option autoImplicit false

namespace RiscvOs

instance neZeroRegs : NeZero 32 := ⟨by decide⟩

/-- The registers a trap and a return from it touch. -/
structure Cpu where
  x : Fin 32 → Word
  pc : Word
  sstatus : Word
  sepc : Word
  scause : Word
  sscratch : Word
  satp : Word
  stvec : Word

namespace Cpu

def reg (c : Cpu) (r : Fin 32) : Word := if r = 0 then 0 else c.x r

def setReg (c : Cpu) (r : Fin 32) (w : Word) : Cpu :=
  if r = 0 then c else { c with x := Function.update c.x r w }

end Cpu

/-! ## Sv39 -/

/-- The Sv39 walk from a table: the leaf entry and the level it was found at. -/
def sv39Walk (ram : ℕ → Fin 512 → Word) : Fin 512 → List (Fin 512) → ℕ → Option (Word × ℕ)
  | i, is, ppn =>
    let pte := ram ppn i
    if !PageTableEntry.has pte pteV || (!PageTableEntry.has pte pteR && PageTableEntry.has pte pteW)
    then none
    else if PageTableEntry.has pte pteR || PageTableEntry.has pte pteX then some (pte, is.length)
    else match is with
      | [] => none
      | j :: js => sv39Walk ram j js (PageTableEntry.ppn pte)

/-- The translation of a virtual address: the physical page and the leaf entry. A leaf above the
last level is a superpage, which must be aligned. -/
def translate (ram : ℕ → Fin 512 → Word) (satp va : Word) : Option (ℕ × Word) :=
  if satp >>> 60 = 8 ∧ (va.setWidth 39).signExtend 64 = va then
    let vpn := va.toNat % 2 ^ 39 / pageSize
    let root := satp.toNat % 2 ^ 44
    match sv39Walk ram (getPageOffset vpn).1 (getPageOffset vpn).2 root with
    | none => none
    | some (pte, level) =>
      if PageTableEntry.ppn pte % 512 ^ level = 0 then
        some (PageTableEntry.ppn pte + vpn % 512 ^ level, pte)
      else none
  else none

/-! ## Instructions of the trampoline -/

inductive Csr where
  | sstatus | sepc | sscratch | satp
  deriving DecidableEq

namespace Cpu

def csr (c : Cpu) : Csr → Word
  | .sstatus => c.sstatus
  | .sepc => c.sepc
  | .sscratch => c.sscratch
  | .satp => c.satp

def setCsr (c : Cpu) (r : Csr) (w : Word) : Cpu :=
  match r with
  | .sstatus => { c with sstatus := w }
  | .sepc => { c with sepc := w }
  | .sscratch => { c with sscratch := w }
  | .satp => { c with satp := w }

end Cpu

inductive Instr where
  | sd (rs : Fin 32) (off : ℕ) (base : Fin 32)
  | ld (rd : Fin 32) (off : ℕ) (base : Fin 32)
  | csrrw (rd : Fin 32) (csr : Csr) (rs : Fin 32)
  | csrr (rd : Fin 32) (csr : Csr)
  | csrw (csr : Csr) (rs : Fin 32)
  | mv (rd rs : Fin 32)
  | sfenceVma
  | jr (rs : Fin 32)
  | sret

/-- The code page of the trampoline: where it lies and the words it holds. -/
structure Text where
  ppn : ℕ
  words : Fin 512 → Word

/-- The next instruction is the one `kerneltrap.S` has there: the trampoline page is mapped
executable for the supervisor, and holds its code. -/
def fetches (text : Text) (ram : ℕ → Fin 512 → Word) (satp : Word) : Bool :=
  match translate ram satp (BitVec.ofNat 64 trampolineVa) with
  | none => false
  | some (ppn, pte) => decide (ppn = text.ppn) && PageTableEntry.has pte pteX &&
      !PageTableEntry.has pte pteU && decide (ram text.ppn = text.words)

/-- One instruction in supervisor mode. A fault there, or a return to anything but user mode,
leaves the kernel's code. -/
def execInstr (ins : Instr) (c : Cpu) (m : Mem) : Except Halt (Cpu × Mem) :=
  match ins with
  | .sd rs off base =>
    let va := c.reg base + BitVec.ofNat 64 off
    match translate m.ram c.satp va with
    | none => .error .wild
    | some (ppn, pte) =>
      if PageTableEntry.has pte pteW && !PageTableEntry.has pte pteU then
        .ok (c, m.store ppn (wordIndex (va.toNat % pageSize)) (c.reg rs))
      else .error .wild
  | .ld rd off base =>
    let va := c.reg base + BitVec.ofNat 64 off
    match translate m.ram c.satp va with
    | none => .error .wild
    | some (ppn, pte) =>
      if PageTableEntry.has pte pteR && !PageTableEntry.has pte pteU then
        .ok (c.setReg rd (m.ram ppn (wordIndex (va.toNat % pageSize))), m)
      else .error .wild
  | .csrrw rd r rs => .ok ((c.setCsr r (c.reg rs)).setReg rd (c.csr r), m)
  | .csrr rd r => .ok (c.setReg rd (c.csr r), m)
  | .csrw r rs => .ok (c.setCsr r (c.reg rs), m)
  | .mv rd rs => .ok (c.setReg rd (c.reg rs), m)
  | .sfenceVma => .ok (c, m)
  | .jr rs => .ok ({ c with pc := c.reg rs }, m)
  | .sret =>
    -- `SPP` clear: back to user mode; `SIE` takes `SPIE`, which is set
    if c.sstatus.getLsbD 8 then .error .wild
    else
      let sie := if c.sstatus.getLsbD 5 then 2#64 else 0
      .ok ({ c with pc := c.sepc, sstatus := (c.sstatus &&& ~~~2#64) ||| sie ||| 32#64 }, m)

/-- A piece of the trampoline. -/
def execInstrs (text : Text) : List Instr → Cpu → Mem → Except Halt (Cpu × Mem)
  | [], c, m => .ok (c, m)
  | ins :: rest, c, m =>
    if fetches text m.ram c.satp then do
      let (c, m) ← execInstr ins c m
      execInstrs text rest c m
    else .error .wild

/-- The registers `__alltraps` saves and `__restore` loads in order; `sp` goes separately. -/
def savedRegs : List (Fin 32) :=
  [1, 3, 4, 5, 6, 7, 8, 9, 10, 11, 12, 13, 14, 15, 16, 17, 18, 19, 20, 21, 22, 23, 24, 25, 26, 27,
    28, 29, 30, 31]

/-- `sd x<r>, <r>*8(sp)` for each of them. -/
def saveRegs : List Instr := savedRegs.map fun r => .sd r (r.val * 8) 2

/-- `ld x<r>, <r>*8(sp)` for each of them. -/
def loadRegs : List Instr := savedRegs.map fun r => .ld r (r.val * 8) 2

/-- The rest of `__alltraps`: the control registers, the user's `sp`, and into the kernel. -/
def saveTail : List Instr :=
  [ .csrr 5 .sstatus, .csrr 6 .sepc, .sd 5 (32 * 8) 2, .sd 6 (33 * 8) 2,
    .csrr 7 .sscratch, .sd 7 (2 * 8) 2,
    .ld 5 (34 * 8) 2, .ld 6 (36 * 8) 2, .ld 2 (35 * 8) 2,
    .csrw .satp 5, .sfenceVma, .jr 6 ]

/-- `__alltraps`. -/
def alltraps : List Instr := Instr.csrrw 2 .sscratch 2 :: saveRegs ++ saveTail

/-- The head of `__restore`: the user's table and the control registers. -/
def loadHead : List Instr :=
  [ .csrw .satp 11, .sfenceVma, .csrw .sscratch 10, .mv 2 10,
    .ld 5 (32 * 8) 2, .ld 6 (33 * 8) 2, .csrw .sstatus 5, .csrw .sepc 6 ]

/-- The end of `__restore`. -/
def loadTail : List Instr := [.ld 2 (2 * 8) 2, .sret]

/-- `__restore`. -/
def restore : List Instr := loadHead ++ loadRegs ++ loadTail

/-! ## `TrapContext` -/

/-- The words of `TrapContext` beyond the registers. -/
def cxSstatus : Fin 512 := 32
def cxSepc : Fin 512 := 33
def cxKernelSatp : Fin 512 := 34
def cxKernelSp : Fin 512 := 35
def cxTrapHandler : Fin 512 := 36

/-- The word of a register in `TrapContext`. -/
def cxReg (r : Fin 32) : Fin 512 := Fin.castLE (by decide) r

/-! ## `__switch` -/

instance neZeroContext : NeZero 14 := ⟨by decide⟩

/-- `TaskContext`, word by word: `ra`, `sp`, `s0` … `s11`. -/
abbrev TaskContext := Fin 14 → Word

/-- The register `s<n>`. -/
def sreg (n : Fin 12) : Fin 32 := if n < 2 then Fin.ofNat 32 (n + 8) else Fin.ofNat 32 (n + 16)

/-- `SAVE_SN` for each register: its word in the context. -/
def switchSn : List (Fin 32 × Fin 14) :=
  (List.finRange 12).map fun n => (sreg n, Fin.ofNat 14 (n + 2))

/-- The stores of `__switch`, in order. -/
def switchSaves : List (Fin 32 × Fin 14) := (2, 1) :: (1, 0) :: switchSn

/-- The loads of `__switch`, in order. -/
def switchLoads : List (Fin 32 × Fin 14) := (1, 0) :: switchSn ++ [(2, 1)]

def saveContext (c : Cpu) (ctx : TaskContext) : TaskContext :=
  switchSaves.foldl (fun ctx p => Function.update ctx p.2 (c.reg p.1)) ctx

def loadContext (c : Cpu) (ctx : TaskContext) : Cpu :=
  switchLoads.foldl (fun c p => c.setReg p.1 (ctx p.2)) c

/-! ## Entering a trap -/

/-- What the hardware does on a trap from user mode: `SPP` and `SIE` are cleared, `SPIE` keeps
`SIE`. -/
def Cpu.trap (c : Cpu) (scause : Word) : Cpu :=
  let spie := if c.sstatus.getLsbD 1 then 32#64 else 0
  { c with
    pc := c.stvec
    sepc := c.pc
    scause := scause
    sstatus := (c.sstatus &&& ~~~(256#64 ||| 32#64 ||| 2#64)) ||| spie }

-- the walk is used through its lemmas
attribute [irreducible] translate fetches

end RiscvOs
