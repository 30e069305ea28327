import RiscvOs.Kernel.System
import RiscvOs.Sched.Model

/-!
# What a step can do

The functions of `trap.c` taken apart once: `Served` lists what a system call comes to, `Stepped`
what a step of the machine comes to, and `stepOp` which operation of the scheduler it is. The
invariants are proved over these two lists.

* `syscall_served`, **`step_stepped`**: the lists are complete.
-/

set_option autoImplicit false

namespace RiscvOs

variable (cfg : Config)

/-! ## The operation of a step -/

/-- The processes of a state. -/
def Kernel.sched (k : Kernel) : Sched where
  procs i := ⟨(k.tasks i).taskState, (k.tasks i).pid, (k.tasks i).parent⟩
  current := k.current
  top := k.top
  nextPid := k.nextPid

/-- The child `__sys_recycle` frees. -/
def zombieChild (father : Slot) (k : Kernel) : Option Slot :=
  (List.finRange maxTaskNum).find? fun i =>
    (k.tasks i).parent = some father ∧ (k.tasks i).taskState = .zombie

/-- `havechild` after a turn of the loop of `__sys_recycle`. -/
def hasChild (father : Slot) (havechild : Bool) (k : Kernel) : Bool :=
  havechild || (List.finRange maxTaskNum).any fun i => (k.tasks i).parent = some father

section Operation

variable {cfg} (env : Env cfg)

def recycleOp (father : Slot) (havechild : Bool) (k : Kernel) : Op :=
  match zombieChild father k with
  | some child => .reap child
  | none => if hasChild father havechild k then .yield else .skip

def getcharOp : Op := if env.console = -1 then .yield else .skip

def syscallOp (id arg1 : Word) (k : Kernel) : Op :=
  match SyscallId.ofWord id with
  | some .yield => .yield
  | some .getChar => if arg1 = stdin then getcharOp env else .skip
  | some .fork => .fork
  | some .exit => .exit
  | some .recycle => recycleOp k.current false k
  | _ => .skip

/-- `cx->sepc += 8`. -/
def moveSepc (k : Kernel) : Kernel :=
  { k with mem := k.mem.store k.cur.cx cxSepc (k.mem.ram k.cur.cx cxSepc + 8) }

def trapOp (k : Kernel) : Op :=
  if k.cpu.scause.getLsbD 63 then if k.cpu.scause &&& 0xfff = 5 then .yield else .skip
  else if k.cpu.scause &&& 0xfff = 8 then
    syscallOp env ((moveSepc k).mem.ram k.cur.cx (cxReg 17))
      ((moveSepc k).mem.ram k.cur.cx (cxReg 10)) (moveSepc k)
  else .skip

def kontOp (kont : Kont) (k : Kernel) : Op :=
  match kont with
  | .sysGetchar _ _ => getcharOp env
  | .sysRecycle _ father havechild => recycleOp father havechild k
  | _ => .skip

end Operation

/-- What a step does to the processes. -/
def stepOp (e : Event cfg) (s : Sys) : Op :=
  match s, e with
  | .running .user k, .trap scause env =>
    match enterTrap cfg scause k with
    | .ok k => trapOp env k
    | .error _ => .skip
  | .running (.kernel kont) k, .resume env => kontOp env kont k
  | _, _ => .skip

/-! ## System calls -/

/-- Where a system call waits. -/
inductive Waits (cx : ℕ) (father : Slot) (data : Option Word) : SyscallId → Kont → Prop
  | sysYield : Waits cx father data .yield (.sysYield cx)
  | sysGetchar {d : Word} (hd : data = some d) : Waits cx father data .getChar (.sysGetchar cx d)
  | sysRecycle : Waits cx father data .recycle (.sysRecycle cx father true)

/-- The pointer `__sys_getchar` stores through, if it stores at all. -/
def getcharData (fd data : Word) : Option Word := if fd = stdin then some data else none

/-- What a system call of the task `father` with trap context `cx` comes to. `data` is the pointer
of `__sys_getchar`. -/
inductive Served (env : Env cfg) (cx : ℕ) (father : Slot) (data : Option Word) (k : Kernel) :
    SyscallId → Op → Kont → Kernel → Prop
  /-- It prints, or does nothing. -/
  | quiet (call : SyscallId) (v : Word) (out : List Output) (hd : call = .getChar → data = none) :
    Served env cx father data k call .skip (.sysReturn cx v) { k with mem.console := out }
  /-- It stores a byte at a user address. -/
  | putchar {d : Word} {pa : ℕ} {k' : Kernel} (hd : data = some d) (hpa : uptrToKptr k d = .ok pa)
    (hst : kernelStoreByte cfg pa (env.console.setWidth 8) k = .ok k') (hc : env.console ≠ -1) :
    Served env cx father data k .getChar .skip (.sysReturn cx 0) k'
  | fork {pid : BitVec 32} {k' : Kernel} (h : sysFork cfg k = .ok (pid, k')) :
    Served env cx father data k .fork .fork (.sysReturn cx (pid.signExtend 64)) k'
  | exec {name : ℕ} {out : List Output} {k' : Kernel}
    (h : sysExec cfg env name { k with mem.console := out } = .ok k') :
    Served env cx father data k .exec .skip (.sysReturn cx 0) k'
  | reap {child : Slot} {k' : Kernel} (out : List Output) (hc : zombieChild father k = some child)
    (h : freeChild k child = .ok k') :
    Served env cx father data k .recycle (.reap child)
      (.sysReturn cx ((k.tasks child).pid.signExtend 64)) { k' with mem.console := out }
  | exit {code : Word} {kont : Kont} {k' : Kernel} (hpid : k.cur.pid ≠ 0)
    (h : sysYield cfg env .exit (becomeZombie code k) = .ok (kont, k')) (hk : kont ≠ .exit) :
    Served env cx father data k .exit .exit kont k'
  | yield {call : SyscallId} {self kont : Kont} {k' : Kernel} (hw : Waits cx father data call self)
    (h : sysYield cfg env self k = .ok (kont, k')) (hc : call = .getChar → env.console = -1) :
    Served env cx father data k call .yield kont k'

variable {cfg} {env : Env cfg} {cx : ℕ} {father : Slot} {k k' : Kernel} {kont : Kont}

theorem printfLen_ok {m m' : Mem} {fmt : String} {args : List PrintfArg} {len : ℕ}
    (h : printfLen m fmt args len = .ok m') : m' = m.printf fmt args := by
  rw [printfLen] at h
  split_ifs at h
  exact (Except.ok.inj h).symm

theorem sysGetcharLoop_served {data : Word}
    (h : sysGetcharLoop cfg env cx data k = .ok (kont, k')) :
    Served cfg env cx father (some data) k .getChar (getcharOp env) kont k' := by
  rw [sysGetcharLoop] at h
  rw [getcharOp]
  split_ifs at h ⊢ with hc
  · exact .yield (.sysGetchar rfl) h fun _ => hc
  · obtain ⟨pa, hpa, h⟩ := exists_of_bind_ok h
    obtain ⟨k₁, hst, h⟩ := exists_of_bind_ok h
    obtain ⟨rfl, rfl⟩ := Prod.mk.inj (Except.ok.inj h)
    exact .putchar rfl hpa hst hc

/-- A turn of the loop of `__sys_recycle`: it frees a zombie, gives up, or waits. -/
theorem sysRecycleLoop_cases {havechild : Bool}
    (h : sysRecycleLoop cfg env cx father havechild k = .ok (kont, k')) :
    (∃ child k₁ out, zombieChild father k = some child ∧ freeChild k child = .ok k₁ ∧
      kont = .sysReturn cx ((k.tasks child).pid.signExtend 64) ∧
      k' = { k₁ with mem.console := out }) ∨
    (zombieChild father k = none ∧ hasChild father havechild k = false ∧
      kont = .sysReturn cx (-1) ∧ ∃ out, k' = { k with mem.console := out }) ∨
    (zombieChild father k = none ∧ hasChild father havechild k = true ∧
      sysYield cfg env (.sysRecycle cx father true) k = .ok (kont, k')) := by
  rw [sysRecycleLoop] at h
  cases hc : zombieChild father k with
  | some child =>
    rw [zombieChild] at hc
    simp only [hc] at h
    obtain ⟨k₁, hf, h⟩ := exists_of_bind_ok h
    obtain ⟨rfl, rfl⟩ := Prod.mk.inj (Except.ok.inj h)
    exact .inl ⟨child, k₁, _, rfl, hf, rfl, rfl⟩
  | none =>
    rw [zombieChild] at hc
    simp only [hc] at h
    rw [show (havechild || (List.finRange maxTaskNum).any fun i =>
      (k.tasks i).parent = some father) = hasChild father havechild k from rfl] at h
    cases hh : hasChild father havechild k with
    | true =>
      simp only [hh, Bool.not_true, Bool.false_eq_true, if_false] at h
      exact .inr (.inr ⟨rfl, rfl, h⟩)
    | false =>
      simp only [hh, Bool.not_false, if_true] at h
      obtain ⟨rfl, rfl⟩ := Prod.mk.inj (Except.ok.inj h)
      exact .inr (.inl ⟨rfl, rfl, rfl, _, rfl⟩)

theorem sysRecycleLoop_served {havechild : Bool} {data : Option Word}
    (h : sysRecycleLoop cfg env cx father havechild k = .ok (kont, k')) :
    Served cfg env cx father data k .recycle (recycleOp father havechild k) kont k' := by
  rw [recycleOp]
  obtain ⟨child, k₁, out, hz, hf, rfl, rfl⟩ | ⟨hz, hh, rfl, out, rfl⟩ | ⟨hz, hh, hy⟩ :=
    sysRecycleLoop_cases h
  · simp only [hz]
    exact .reap out hz hf
  · simp only [hz, hh, Bool.false_eq_true, if_false]
    exact .quiet _ _ _ fun h => by cases h
  · simp only [hz, hh, if_true]
    exact .yield .sysRecycle hy fun h => by cases h

/-- **What a system call comes to.** -/
theorem syscall_served {id arg1 arg2 : Word}
    (h : syscall cfg env cx id arg1 arg2 k = .ok (kont, k')) :
    ∃ call, SyscallId.ofWord id = some call ∧
      Served cfg env cx k.current (getcharData arg1 arg2) k call (syscallOp env id arg1 k)
        kont k' := by
  rw [syscall] at h
  rw [syscallOp]
  cases hid : SyscallId.ofWord id with
  | none => simp only [hid] at h; cases h
  | some call =>
    refine ⟨call, rfl, ?_⟩
    simp only [hid] at h
    cases call with
    | printf =>
      obtain ⟨pa, -, h⟩ := exists_of_bind_ok h
      obtain ⟨bytes, -, h⟩ := exists_of_bind_ok h
      obtain ⟨rfl, rfl⟩ := Prod.mk.inj (Except.ok.inj h)
      exact .quiet _ 0 _ fun h => by cases h
    | yield => exact .yield .sysYield h fun h => by cases h
    | setTrigger =>
      obtain ⟨rfl, rfl⟩ := Prod.mk.inj (Except.ok.inj h)
      exact .quiet _ 0 k.mem.console fun h => by cases h
    | getTime =>
      obtain ⟨rfl, rfl⟩ := Prod.mk.inj (Except.ok.inj h)
      exact .quiet _ 0 _ fun h => by cases h
    | getChar =>
      simp only [sysGetchar] at h
      rw [getcharData]
      split_ifs at h ⊢
      · exact sysGetcharLoop_served h
      · obtain ⟨rfl, rfl⟩ := Prod.mk.inj (Except.ok.inj h)
        exact .quiet _ 0 k.mem.console fun _ => rfl
    | fork =>
      obtain ⟨⟨pid, k₁⟩, hf, h⟩ := exists_of_bind_ok h
      obtain ⟨rfl, rfl⟩ := Prod.mk.inj (Except.ok.inj h)
      exact .fork hf
    | exec =>
      obtain ⟨name, -, h⟩ := exists_of_bind_ok h
      obtain ⟨bytes, -, h⟩ := exists_of_bind_ok h
      obtain ⟨m, hm, h⟩ := exists_of_bind_ok h
      obtain ⟨k₁, he, h⟩ := exists_of_bind_ok h
      obtain ⟨rfl, rfl⟩ := Prod.mk.inj (Except.ok.inj h)
      rw [printfLen_ok hm] at he
      exact .exec he
    | exit =>
      simp only [exitCurrentAndRunNext] at h
      split_ifs at h with hp
      obtain ⟨⟨kont₁, k₁⟩, hy, h⟩ := exists_of_bind_ok h
      split_ifs at h with hk
      obtain ⟨rfl, rfl⟩ := Prod.mk.inj (Except.ok.inj h)
      exact .exit hp hy hk
    | recycle => exact sysRecycleLoop_served h

/-! ## Steps -/

/-- The machine does not react to the event. -/
def Ignored (e : Event cfg) : Mode → Prop
  | .user => ∃ env, e = .resume env
  | .kernel _ => ∀ env, e ≠ .resume env

/-- What a step comes to. -/
inductive Stepped : Mode → Kernel → Event cfg → Op → Mode → Kernel → Prop
  | idle (mode : Mode) (k : Kernel) (e : Event cfg) (he : Ignored e mode) :
    Stepped mode k e .skip mode k
  | compute (k : Kernel) (x : Fin 32 → Word) (pc : Word) :
    Stepped .user k (.compute x pc) .skip .user { k with cpu := { k.cpu with x := x, pc := pc } }
  | store (k : Kernel) (va : Word) (b : Byte) :
    Stepped .user k (.store va b) .skip .user (userStore va b k)
  | timer {k k₁ k' : Kernel} {scause : Word} {env : Env cfg} {kont : Kont}
    (henter : enterTrap cfg scause k = .ok k₁) (hc : k₁.cpu.scause.getLsbD 63 = true)
    (h : sysYield cfg env .timer k₁ = .ok (kont, k')) :
    Stepped .user k (.trap scause env) .yield (.kernel kont) k'
  | interrupt {k k₁ : Kernel} {scause : Word} {env : Env cfg} (out : List Output)
    (henter : enterTrap cfg scause k = .ok k₁) (hc : k₁.cpu.scause.getLsbD 63 = true) :
    Stepped .user k (.trap scause env) .skip (.kernel .trapReturn) { k₁ with mem.console := out }
  | ecall {k k₁ k' : Kernel} {scause : Word} {env : Env cfg} {call : SyscallId} {op : Op}
    {kont : Kont} (henter : enterTrap cfg scause k = .ok k₁)
    (hc : k₁.cpu.scause.getLsbD 63 = false)
    (hcall : SyscallId.ofWord ((moveSepc k₁).mem.ram k₁.cur.cx (cxReg 17)) = some call)
    (h : Served cfg env k₁.cur.cx k₁.current
      (getcharData ((moveSepc k₁).mem.ram k₁.cur.cx (cxReg 10))
        ((moveSepc k₁).mem.ram k₁.cur.cx (cxReg 11))) (moveSepc k₁) call op kont k') :
    Stepped .user k (.trap scause env) op (.kernel kont) k'
  | leave {k k' : Kernel} {env : Env cfg} {kont : Kont} (hk : kont = .trapReturn ∨ kont = .timer)
    (h : trapReturn cfg k = .ok k') : Stepped (.kernel kont) k (.resume env) .skip .user k'
  | yielded (k : Kernel) (env : Env cfg) (cx : ℕ) :
    Stepped (.kernel (.sysYield cx)) k (.resume env) .skip (.kernel (.sysReturn cx 0)) k
  | getchar {k k' : Kernel} {env : Env cfg} {cx : ℕ} {data : Word} {op : Op} {kont : Kont}
    (h : Served cfg env cx k.current (some data) k .getChar op kont k') :
    Stepped (.kernel (.sysGetchar cx data)) k (.resume env) op (.kernel kont) k'
  | recycle {k k' : Kernel} {env : Env cfg} {cx : ℕ} {father : Slot} {havechild : Bool} {op : Op}
    {kont : Kont} (h : Served cfg env cx father none k .recycle op kont k') :
    Stepped (.kernel (.sysRecycle cx father havechild)) k (.resume env) op (.kernel kont) k'
  | sysReturn {k k' : Kernel} {env : Env cfg} {cx : ℕ} {v : Word}
    (h : trapReturn cfg { k with mem := k.mem.store cx (cxReg 10) v } = .ok k') :
    Stepped (.kernel (.sysReturn cx v)) k (.resume env) .skip .user k'

section Step

variable {mode mode' : Mode}

theorem ofExcept_running {x : Except Halt (Mode × Kernel)}
    (h : Sys.ofExcept x = .running mode' k') : x = .ok (mode', k') := by
  cases x with
  | ok r =>
    obtain ⟨mode, k⟩ := r
    obtain ⟨rfl, rfl⟩ := Sys.running.inj h
    rfl
  | error e => cases h

/-- An `ecall` calls `__SYSCALL` with the saved registers. -/
theorem trapHandler_ecall (env : Env cfg) (hbit : k.cpu.scause.getLsbD 63 = false)
    (hcode : k.cpu.scause &&& 0xfff = 8) : trapHandler cfg env k =
      syscall cfg env k.cur.cx ((moveSepc k).mem.ram k.cur.cx (cxReg 17))
        ((moveSepc k).mem.ram k.cur.cx (cxReg 10)) ((moveSepc k).mem.ram k.cur.cx (cxReg 11))
        (moveSepc k) := by
  simp only [trapHandler, hbit, hcode, Bool.false_eq_true, if_false, if_true]
  rfl

theorem takeTrap_stepped {scause : Word} (h : takeTrap cfg scause env k = .ok (mode', k')) :
    Stepped .user k (.trap scause env) (stepOp cfg (.trap scause env) (.running .user k))
      mode' k' := by
  rw [takeTrap] at h
  obtain ⟨k₁, henter, h⟩ := exists_of_bind_ok h
  obtain ⟨⟨kont, k₂⟩, hh, h⟩ := exists_of_bind_ok h
  obtain ⟨rfl, rfl⟩ := Prod.mk.inj (Except.ok.inj h)
  simp only [stepOp, henter, trapOp]
  simp only [trapHandler] at hh
  split_ifs at hh ⊢ with h₁ h₂ h₂
  · exact .timer henter h₁ hh
  · obtain ⟨rfl, rfl⟩ := Prod.mk.inj (Except.ok.inj hh)
    exact .interrupt _ henter h₁
  · obtain ⟨call, hcall, hs⟩ := syscall_served hh
    exact .ecall henter (by simpa using h₁) hcall hs

theorem runKont_stepped (h : runKont cfg env kont k = .ok (mode', k')) :
    Stepped (.kernel kont) k (.resume env) (kontOp env kont k) mode' k' := by
  cases kont with
  | trapReturn =>
    obtain ⟨k₁, hr, h⟩ := exists_of_bind_ok h
    obtain ⟨rfl, rfl⟩ := Prod.mk.inj (Except.ok.inj h)
    exact .leave (.inl rfl) hr
  | timer =>
    obtain ⟨k₁, hr, h⟩ := exists_of_bind_ok h
    obtain ⟨rfl, rfl⟩ := Prod.mk.inj (Except.ok.inj h)
    exact .leave (.inr rfl) hr
  | sysYield cx =>
    obtain ⟨rfl, rfl⟩ := Prod.mk.inj (Except.ok.inj h)
    exact .yielded k env cx
  | sysGetchar cx data =>
    obtain ⟨⟨kont, k₁⟩, hl, h⟩ := exists_of_bind_ok h
    obtain ⟨rfl, rfl⟩ := Prod.mk.inj (Except.ok.inj h)
    exact .getchar (sysGetcharLoop_served hl)
  | sysRecycle cx father havechild =>
    obtain ⟨⟨kont, k₁⟩, hl, h⟩ := exists_of_bind_ok h
    obtain ⟨rfl, rfl⟩ := Prod.mk.inj (Except.ok.inj h)
    exact .recycle (sysRecycleLoop_served hl)
  | exit => cases h
  | sysReturn cx v =>
    obtain ⟨k₁, hr, h⟩ := exists_of_bind_ok h
    obtain ⟨rfl, rfl⟩ := Prod.mk.inj (Except.ok.inj h)
    exact .sysReturn hr

/-- **What a step comes to.** -/
theorem step_stepped {e : Event cfg} (h : step cfg e (.running mode k) = .running mode' k') :
    Stepped mode k e (stepOp cfg e (.running mode k)) mode' k' := by
  have hidle : ∀ {op : Op}, op = .skip → Ignored e mode → (Sys.running mode k = .running mode' k') →
      Stepped mode k e op mode' k' := fun hop hi he => by
    obtain ⟨rfl, rfl⟩ := Sys.running.inj he
    exact hop ▸ .idle mode k e hi
  cases mode with
  | user =>
    cases e with
    | compute x pc =>
      obtain ⟨rfl, rfl⟩ := Sys.running.inj h
      exact .compute k x pc
    | store va b =>
      obtain ⟨rfl, rfl⟩ := Sys.running.inj h
      exact .store k va b
    | trap scause env => exact takeTrap_stepped (ofExcept_running h)
    | resume env => exact hidle rfl ⟨env, rfl⟩ h
  | kernel kont =>
    cases e with
    | compute x pc => exact hidle rfl (fun _ he => by cases he) h
    | store va b => exact hidle rfl (fun _ he => by cases he) h
    | trap scause env => exact hidle rfl (fun _ he => by cases he) h
    | resume env => exact runKont_stepped (ofExcept_running h)

/-- A trap leads into the kernel. -/
theorem step_trap_kernel {scause : Word}
    (h : step cfg (.trap scause env) (.running .user k) = .running mode' k') :
    ∃ kont, mode' = .kernel kont := by
  obtain ⟨k₁, -, hr⟩ := exists_of_bind_ok (ofExcept_running h)
  obtain ⟨⟨kont, k₂⟩, -, hr⟩ := exists_of_bind_ok hr
  obtain ⟨rfl, rfl⟩ := Prod.mk.inj (Except.ok.inj hr)
  exact ⟨kont, rfl⟩

theorem step_halted {e : Event cfg} {h : Halt} : step cfg e (.halted h) = .halted h := by
  cases e <;> rfl

end Step

/-- The system call a program makes in a step. -/
def madeCall (e : Event cfg) (mode : Mode) (k : Kernel) : Option SyscallId :=
  match mode, e with
  | .user, .trap scause _ =>
    if scause.getLsbD 63 = false ∧ scause &&& 0xfff = 8 then SyscallId.ofWord (k.cpu.reg 17)
    else none
  | _, _ => none

end RiscvOs
