import RiscvOs.Calls.Exec
import RiscvOs.Calls.Trap
import RiscvOs.Sched.History

/-!
# Processes as their programs know them

What the kernel is for: every process is a machine of its own, with registers, a program counter and
a memory, and the system calls are operations on that machine. Frames, page tables, trap contexts
and kernel stacks do not appear.

* `Machine`, `Phase`: a process, and what it is waiting for.
* `Act`: what the running process does by itself when an event happens; `OsStep`: with the processes
  it creates and ends; `OsRun`: event after event.
* **`OsStep.other`**, **`OsStep.remembers`**: a step changes the process that makes it only, and its
  memory by a store, by the byte of `__SYS_GET_CHAR__` or by `__SYS_EXEC` only.
-/

set_option autoImplicit false

namespace RiscvOs

/-! ## Processes -/

/-- Where a process is. -/
inductive Phase where
  /-- It runs its program. -/
  | user
  /-- It goes on where it was. -/
  | interrupted
  | yielding
  /-- In `__SYS_GET_CHAR__`, for a byte at `data`. -/
  | reading (data : Word)
  /-- In `__SYS_RECYCLE`, for a child. -/
  | waiting
  /-- Its call is done and gives `v`. -/
  | returning (v : Word)
  deriving DecidableEq

/-- A process. The memory is what is mapped below the trap context, with its permissions. -/
structure Machine where
  reg : Fin 32 → Word
  pc : Word
  mem : ℕ → Option (Byte × Frame)
  phase : Phase

/-- The pages below the trap context. -/
def low (V : ℕ → Option (Byte × Frame)) : ℕ → Option (Byte × Frame) := fun v =>
  if v < trapframeVpn then V v else none

namespace Machine

variable (p : Machine)

/-- The system call it asks for. -/
def call : Option SyscallId := SyscallId.ofWord (p.reg 17)

/-- A call has been taken: `sepc` is past it. -/
def enter : Machine := { p with pc := p.pc + 8 }

/-- A call is done. -/
def give (v : Word) : Machine := { p with phase := .returning v }

def setReg (r : Fin 32) (v : Word) : Machine := { p with reg := Function.update p.reg r v }

/-- A byte in its memory. -/
def put (va : Word) (b : Byte) : Machine :=
  { p with
    mem := Function.update p.mem (pageOf va)
      ((p.mem (pageOf va)).map fun q => (q.1, setFrameByte q.2 (va.toNat % 4096) b)) }

/-- It may store there. -/
def Writable (va : Word) : Prop :=
  Canonical va ∧ ∃ q, p.mem (pageOf va) = some q ∧ (q.1 &&& pteR != 0) = true ∧
    (q.1 &&& pteW != 0) = true ∧ (q.1 &&& pteU != 0) = true

/-- The string at an address that ends in the page where it starts. -/
structure Reads (va : Word) (str : List Byte) : Prop where
  noNul : 0 ∉ str
  inPage : va.toNat % 4096 + str.length < 4096
  byte : ∃ q, p.mem (pageOf va) = some q ∧
    ∀ o ≤ str.length, frameByte q.2 (va.toNat % 4096 + o) = str.getD o 0

/-- A new program: its pages, its entry point and a stack. -/
def exec (f : ℕ → Byte) : Machine :=
  { p with
    mem := low (imagePages f)
    pc := BitVec.ofNat 64 (ehdrOf f).eEntry
    reg := Function.update p.reg 2 (BitVec.ofNat 64 (imageTop f)) }

/-- The child of a fork. -/
def child : Machine := { p.setReg 10 0 with phase := .interrupted }

/-- A byte at the offset `o` of its own trap context, where the registers and `sepc` are. -/
def patch (o : ℕ) (b : Byte) : Machine :=
  { p with
    reg := fun r =>
      if r ≠ 0 ∧ wordIndex o = cxReg r then setWordByte (p.reg r) (o % 8) b else p.reg r
    pc := if wordIndex o = cxSepc then setWordByte p.pc (o % 8) b else p.pc }

end Machine

/-- A trap by `ecall`. -/
def IsEcall (scause : Word) : Prop := scause.getLsbD 63 = false ∧ scause &&& 0xfff = 8

section Events

variable {cfg : Config}

/-- With the event the process makes a system call. -/
inductive Machine.Calls (p : Machine) (call : SyscallId) : Event cfg → Env cfg → Prop
  | ecall {scause : Word} {env : Env cfg} (hp : p.phase = .user) (hc : p.call = some call)
    (he : IsEcall scause) : Calls p call (.trap scause env) env

/-- `__SYS_GET_CHAR__` is at work for `data`: it has just been called, or goes on. -/
inductive Reading (p : Machine) : Event cfg → Env cfg → Word → Machine → Prop
  | call {e : Event cfg} {env : Env cfg} (hc : p.Calls .getChar e env) (hfd : p.reg 10 = stdin) :
    Reading p e env (p.reg 11) p.enter
  | go (env : Env cfg) (data : Word) (hp : p.phase = .reading data) :
    Reading p (.resume env) env data p

/-- `__SYS_RECYCLE` is at work: it has just been called, or goes on. -/
inductive Recycling (p : Machine) : Event cfg → Machine → Prop
  | call {e : Event cfg} {env : Env cfg} (hc : p.Calls .recycle e env) : Recycling p e p.enter
  | go (env : Env cfg) (hp : p.phase = .waiting) : Recycling p (.resume env) p

/-- The event means nothing to the process where it is: its own instructions while it is in the
kernel, a store it may not make, a turn in the kernel while it runs its program. -/
def Machine.Idle (p : Machine) : Event cfg → Prop
  | .store va _ => p.phase ≠ .user ∨ ¬ p.Writable va
  | .resume _ => p.phase = .user
  | _ => p.phase ≠ .user

end Events

/-- The calls that print or do nothing. -/
def Quiet (p : Machine) (call : SyscallId) : Prop :=
  call = .printf ∨ call = .setTrigger ∨ call = .getTime ∨ (call = .getChar ∧ p.reg 10 ≠ stdin)

/-- A child of the running process that can be freed. -/
def Sched.ZombieChild (s : Sched) (i : Slot) : Prop :=
  (s.procs i).parent = some s.current ∧ (s.procs i).taskState = .zombie

/-- What the running process does by itself when an event happens, and what that is to the
scheduler. -/
inductive Act (cfg : Config) (s : Sched) (p : Machine) : Event cfg → Op → Machine → Prop
  | compute (hp : p.phase = .user) (x : Fin 32 → Word) (pc : Word) :
    Act cfg s p (.compute x pc) .skip
      { p with reg := fun r => if r = 0 then 0 else x r, pc := pc }
  | store (hp : p.phase = .user) (va : Word) (b : Byte) (hw : p.Writable va) :
    Act cfg s p (.store va b) .skip (p.put va b)
  | interrupt (hp : p.phase = .user) {scause : Word} (env : Env cfg)
    (hi : scause.getLsbD 63 = true) :
    Act cfg s p (.trap scause env) (if scause &&& 0xfff = 5 then .yield else .skip)
      { p with phase := .interrupted }
  | resume (hp : p.phase = .interrupted) (env : Env cfg) :
    Act cfg s p (.resume env) .skip { p with phase := .user }
  | quiet {e : Event cfg} {env : Env cfg} {call : SyscallId} (hc : p.Calls call e env)
    (hq : Quiet p call) : Act cfg s p e .skip (p.enter.give 0)
  | yield {e : Event cfg} {env : Env cfg} (hc : p.Calls .yield e env) :
    Act cfg s p e .yield { p.enter with phase := .yielding }
  | yielded (hp : p.phase = .yielding) (env : Env cfg) :
    Act cfg s p (.resume env) .skip (p.give 0)
  | await {e : Event cfg} {env : Env cfg} {data : Word} {q : Machine}
    (hr : Reading p e env data q) (hc : env.console = -1) :
    Act cfg s p e .yield { q with phase := .reading data }
  | deliver {e : Event cfg} {env : Env cfg} {data : Word} {q : Machine}
    (hr : Reading p e env data q) (hc : env.console ≠ -1) (hm : (p.mem (pageOf data)).isSome) :
    Act cfg s p e .skip ((q.put data (env.console.setWidth 8)).give 0)
  /-- A byte into its own trap context. -/
  | smash {e : Event cfg} {env : Env cfg} {data : Word} {q : Machine}
    (hr : Reading p e env data q) (hc : env.console ≠ -1) (hd : pageOf data = trapframeVpn) :
    Act cfg s p e .skip ((q.patch (data.toNat % 4096) (env.console.setWidth 8)).give 0)
  /-- The program with the name at `a1`. (A name that goes on in another page may be read as
  another one.) -/
  | exec {e : Event cfg} {env : Env cfg} (hc : p.Calls .exec e env) {path : List Byte} {a : App}
    (ha : cfg.find path = some a) (hn : ∀ str, p.Reads (p.reg 11) str → path = str) :
    Act cfg s p e .skip ((p.enter.exec (a.view env).file).give 0)
  | reap {e : Event cfg} {q : Machine} (hr : Recycling p e q) (i : Slot) (hz : s.ZombieChild i) :
    Act cfg s p e (.reap i) (q.give ((s.procs i).pid.signExtend 64))
  | noChild {e : Event cfg} {env : Env cfg} (hc : p.Calls .recycle e env)
    (hn : ∀ i, (s.procs i).parent ≠ some s.current) : Act cfg s p e .skip (p.enter.give (-1))
  | wait {e : Event cfg} {q : Machine} (hr : Recycling p e q) (hn : ∀ i, ¬ s.ZombieChild i)
    (hw : p.phase = .waiting ∨ ∃ i, (s.procs i).parent = some s.current) :
    Act cfg s p e .yield { q with phase := .waiting }
  | forkFull {e : Event cfg} {env : Env cfg} (hc : p.Calls .fork e env) (hf : s.freeSlot = none) :
    Act cfg s p e .fork (p.enter.give (-1))
  /-- The call is done and its value is in `a0`. -/
  | leave (v : Word) (hp : p.phase = .returning v) (env : Env cfg) :
    Act cfg s p (.resume env) .skip { p.setReg 10 v with phase := .user }

/-! ## The system -/

/-- The processes and their scheduling. -/
structure Os where
  sched : Sched
  proc : Slot → Option Machine

/-- A step of the running process when an event happens. -/
inductive OsStep (cfg : Config) (s : Os) : Event cfg → Os → Prop
  | move {p p' : Machine} {e : Event cfg} {op : Op} (hp : s.proc s.sched.current = some p)
    (hop : op.Enabled s.sched) (hm : Act cfg s.sched p e op p') :
    OsStep cfg s e ⟨op.apply s.sched, Function.update s.proc s.sched.current (some p')⟩
  /-- A child with a copy of the machine, in which `a0` is 0. -/
  | fork {p : Machine} {e : Event cfg} {env : Env cfg} {i : Slot}
    (hp : s.proc s.sched.current = some p) (hc : p.Calls .fork e env)
    (hi : s.sched.freeSlot = some i) :
    OsStep cfg s e ⟨s.sched.fork,
      Function.update (Function.update s.proc s.sched.current
        (some (p.enter.give ((BitVec.ofNat 32 s.sched.nextPid).signExtend 64)))) i
        (some p.enter.child)⟩
  | exit {p : Machine} {e : Event cfg} {env : Env cfg} (hp : s.proc s.sched.current = some p)
    (hc : p.Calls .exit e env) (hop : Op.exit.Enabled s.sched) :
    OsStep cfg s e ⟨Op.exit.apply s.sched, Function.update s.proc s.sched.current none⟩
  | idle {p : Machine} {e : Event cfg} (hp : s.proc s.sched.current = some p) (hi : p.Idle e) :
    OsStep cfg s e s

/-- A run of the processes. -/
inductive OsRun (cfg : Config) : Os → List (Event cfg) → Os → Prop
  | nil (s : Os) : OsRun cfg s [] s
  | cons {s₁ s₂ s₃ : Os} {e : Event cfg} {es : List (Event cfg)} (h : OsStep cfg s₁ e s₂)
    (hes : OsRun cfg s₂ es s₃) : OsRun cfg s₁ (e :: es) s₃

/-! ## Isolation -/

section Isolation

variable {cfg : Config} {s s' : Os} {i : Slot} {p p' : Machine} {e : Event cfg}

theorem Machine.Calls.phase {call : SyscallId} {env : Env cfg} (h : p.Calls call e env) :
    p.phase = .user ∧ p.call = some call := by
  cases h with
  | ecall hp hc => exact ⟨hp, hc⟩

theorem Reading.mem_eq {env : Env cfg} {data : Word} {q : Machine} (h : Reading p e env data q) :
    q.mem = p.mem := by
  cases h <;> rfl

theorem Recycling.mem_eq {q : Machine} (h : Recycling p e q) : q.mem = p.mem := by
  cases h <;> rfl

theorem Sched.freeSlot_ne {s : Sched} {j : Slot} (hj : s.freeSlot = some j) (hi : ¬ s.UnInit i) :
    i ≠ j := fun he => by
  have hu := List.find?_some hj
  exact hi (he ▸ of_decide_eq_true hu)

/-- **A step changes the running process only**, and may create one in a free slot. -/
theorem OsStep.other (h : OsStep cfg s e s') (hi : i ≠ s.sched.current)
    (hfree : ¬ s.sched.UnInit i) : s'.proc i = s.proc i := by
  cases h with
  | move => exact Function.update_of_ne hi _ _
  | fork _ _ hj =>
    exact (Function.update_of_ne (Sched.freeSlot_ne hj hfree) _ _).trans
      (Function.update_of_ne hi _ _)
  | exit => exact Function.update_of_ne hi _ _
  | idle => rfl

/-- How the memory of a process can change when an event happens. -/
inductive Remembers (cfg : Config) (p : Machine) : Event cfg → Machine → Prop
  | same {e : Event cfg} {p' : Machine} (h : p'.mem = p.mem) : Remembers cfg p e p'
  | store {p' : Machine} (va : Word) (b : Byte) (hu : p.phase = .user) (hw : p.Writable va)
    (h : p'.mem = (p.put va b).mem) : Remembers cfg p (.store va b) p'
  | read {p' : Machine} {e : Event cfg} {env : Env cfg} {data : Word} {q : Machine}
    (hr : Reading p e env data q) (hc : env.console ≠ -1)
    (h : p'.mem = (p.put data (env.console.setWidth 8)).mem) : Remembers cfg p e p'
  | exec {p' : Machine} {e : Event cfg} {env : Env cfg} (a : App) (ha : a ∈ cfg.apps)
    (hc : p.Calls .exec e env) (h : p'.mem = low (imagePages (a.view env).file)) :
    Remembers cfg p e p'

theorem Act.remembers {op : Op} (h : Act cfg s.sched p e op p') : Remembers cfg p e p' := by
  cases h with
  | store hp va b hw => exact .store va b hp hw rfl
  | await hr => exact .same hr.mem_eq
  | @deliver _ _ data q hr hc =>
    refine .read hr hc ?_
    change Function.update q.mem _ _ = Function.update p.mem _ _
    rw [hr.mem_eq]
  | smash hr => exact .same hr.mem_eq
  | @exec _ _ hc path a ha => exact .exec a (Config.mem_of_find ha).1 hc rfl
  | reap hr => exact .same hr.mem_eq
  | wait hr => exact .same hr.mem_eq
  | _ => exact .same rfl

/-- **What changes the memory of the running process.** -/
theorem OsStep.remembers (h : OsStep cfg s e s') (hinit : ¬ s.sched.UnInit s.sched.current)
    (hp : s.proc s.sched.current = some p) (hp' : s'.proc s.sched.current = some p') :
    Remembers cfg p e p' := by
  cases h with
  | move hq _ ha =>
    obtain rfl := Option.some.inj (hq.symm.trans hp)
    simp only [Function.update_self] at hp'
    obtain rfl := Option.some.inj hp'
    exact ha.remembers
  | fork hq _ hj =>
    obtain rfl := Option.some.inj (hq.symm.trans hp)
    simp only [Function.update_of_ne (Sched.freeSlot_ne hj hinit), Function.update_self] at hp'
    obtain rfl := Option.some.inj hp'
    exact .same rfl
  | exit =>
    simp only [Function.update_self, reduceCtorEq] at hp'
  | idle =>
    obtain rfl := Option.some.inj (hp.symm.trans hp')
    exact .same rfl

/-- A new process is the child of a fork. -/
theorem OsStep.created (h : OsStep cfg s e s') (hi : i ≠ s.sched.current) (hn : s.proc i = none)
    (hp' : s'.proc i = some p') : ∃ p, s.proc s.sched.current = some p ∧ p.phase = .user ∧
      p.call = some .fork ∧ p' = p.enter.child := by
  cases h with
  | move =>
    simp only [Function.update_of_ne hi, hn, reduceCtorEq] at hp'
  | @fork p _ _ j hp hc hj =>
    by_cases hij : i = j
    · subst hij
      simp only [Function.update_self] at hp'
      exact ⟨p, hp, hc.phase.1, hc.phase.2, (Option.some.inj hp').symm⟩
    · simp only [Function.update_of_ne hij, Function.update_of_ne hi, hn, reduceCtorEq] at hp'
  | exit =>
    simp only [Function.update_of_ne hi, hn, reduceCtorEq] at hp'
  | idle =>
    rw [hn] at hp'
    cases hp'

end Isolation

end RiscvOs
