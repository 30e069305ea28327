import RiscvOs.Kernel.Steps

/-!
# The timer

`timer.c` and what it programs: the counter `mtime`, the comparator that `sbi_set_timer` writes, and
the interrupt the two raise. In user mode the interrupt is taken as soon as it is pending; in the
kernel only while `SIE` is set, and then `stvec` leads to `trap_from_kernel`.

* `Clock`: the counter and the comparator; `setNextTrigger`, `getTimeUs`.
* `Timed.Step`, `Timed.Run`: the steps of the system, taken in time.
* **`Timed.Run.sys_eq`**: a run in time is a run of the system.
-/

set_option autoImplicit false

namespace RiscvOs

/-! ## The clock -/

/-- `CLOCK_FREQ`. -/
def clockFreq : ℕ := 10000000

/-- `TICKS_PER_SEC`. -/
def ticksPerSec : ℕ := 1000

/-- The length of a time slice, `CLOCK_FREQ / TICKS_PER_SEC`. -/
def slice : ℕ := clockFreq / ticksPerSec

theorem slice_eq : slice = 10000 := rfl

attribute [irreducible] slice

/-- The counter, and the comparator that `sbi_set_timer` writes. -/
structure Clock where
  mtime : ℕ
  mtimecmp : ℕ

namespace Clock

variable (c : Clock)

/-- `set_next_trigger`. -/
def setNextTrigger : Clock := { c with mtimecmp := (c.mtime + slice) % 2 ^ 64 }

/-- `get_time_us`. -/
def getTimeUs : ℕ := c.mtime / slice

/-- The timer interrupt is pending. -/
def Pending : Prop := c.mtimecmp ≤ c.mtime

instance : Decidable c.Pending := inferInstanceAs (Decidable (_ ≤ _))

/-- How far away it is. -/
def left : ℕ := c.mtimecmp - c.mtime

def elapse (d : ℕ) : Clock := { c with mtime := c.mtime + d }

/-- It is at most a slice away. -/
def Armed : Prop := c.left ≤ slice

theorem armed_setNextTrigger : c.setNextTrigger.Armed := by
  unfold Armed left setNextTrigger
  exact Nat.sub_le_iff_le_add'.mpr (Nat.mod_le _ _)

variable {c} in
theorem Armed.elapse (h : c.Armed) (d : ℕ) : (c.elapse d).Armed :=
  (Nat.sub_le_sub_left (Nat.le_add_right _ _) _).trans h

end Clock

/-! ## Steps in time -/

section Timed

variable (cfg : Config)

/-- The program calls `__SET_TRIGGER`. -/
def callsTrigger (e : Event cfg) (mode : Mode) (k : Kernel) : Bool :=
  decide (madeCall e mode k = some .setTrigger)

/-- The step executes `set_next_trigger`: in `__SET_TRIGGER`, or in the handler of a timer
interrupt, after its `__sys_yield`. -/
def setsTrigger (e : Event cfg) (mode : Mode) (k : Kernel) : Bool :=
  match mode, e with
  | .kernel .timer, .resume _ => true
  | mode, e => callsTrigger cfg e mode k

/-- The comparator after a step. -/
def Clock.after (e : Event cfg) (mode : Mode) (k : Kernel) (c : Clock) : Clock :=
  if setsTrigger cfg e mode k then c.setNextTrigger else c

theorem Clock.after_mtime (e : Event cfg) (mode : Mode) (k : Kernel) (c : Clock) :
    (c.after cfg e mode k).mtime = c.mtime := by
  unfold Clock.after
  cases setsTrigger cfg e mode k with
  | true => rfl
  | false => rfl

/-- What the clock lets happen. A user instruction, and an exception with it, needs that no timer
interrupt is pending; a timer interrupt needs that one is. -/
def Occurs (e : Event cfg) (mode : Mode) (c : Clock) : Prop :=
  match mode, e with
  | .user, .compute _ _ => ¬ c.Pending
  | .user, .store _ _ => ¬ c.Pending
  | .user, .trap scause env => env.time = c.getTimeUs ∧
      (scause.getLsbD 63 = true → scause &&& 0xfff = 5 → c.Pending) ∧
      (scause.getLsbD 63 = false → ¬ c.Pending)
  | .kernel _, .resume env => env.time = c.getTimeUs
  | _, _ => False

/-- `SIE` is set now, or in the status that `__restore` loads before its `sret`. -/
def Interruptible (k : Kernel) : Prop :=
  k.cpu.sstatus.getLsbD 1 = true ∨ (k.mem.ram k.cur.cx cxSstatus).getLsbD 1 = true

/-- The system and the clock. -/
structure Timed where
  sys : Sys
  clock : Clock

/-- What happens next. -/
inductive Tick (cfg : Config) where
  /-- Time passes. -/
  | elapse (d : ℕ)
  /-- A step of the system. -/
  | event (e : Event cfg)
  /-- The timer interrupts the kernel. -/
  | kernelTrap

namespace Timed

/-- A step in time. The counter stays below the end of its range, and a user program runs only until
the interrupt is pending. -/
inductive Step : Timed → Tick cfg → Timed → Prop
  | elapse (s : Timed) (d : ℕ) (hend : s.clock.mtime + d < 2 ^ 64 - 1)
    (huser : ∀ k, s.sys = .running .user k → d ≤ s.clock.left) :
    Step s (.elapse d) ⟨s.sys, s.clock.elapse d⟩
  | event {mode : Mode} {k : Kernel} {c : Clock} (e : Event cfg) (h : Occurs cfg e mode c) :
    Step ⟨.running mode k, c⟩ (.event e)
      ⟨step cfg e (.running mode k), c.after cfg e mode k⟩
  | kernelTrap {kont : Kont} {k : Kernel} {c : Clock} (hp : c.Pending) (hi : Interruptible k) :
    Step ⟨.running (.kernel kont) k, c⟩ .kernelTrap ⟨.halted (.panic "trap from kernel!\n"), c⟩

inductive Run : Timed → List (Tick cfg) → Timed → Prop
  | nil (s : Timed) : Run s [] s
  | cons {s s₁ s' : Timed} {t : Tick cfg} {ts : List (Tick cfg)} (h : Step cfg s t s₁)
    (hr : Run s₁ ts s') : Run s (t :: ts) s'

end Timed

variable {cfg}

/-- The steps of the system among them. -/
def events : List (Tick cfg) → List (Event cfg)
  | [] => []
  | .event e :: ts => e :: events ts
  | _ :: ts => events ts

theorem events_append (ts ts' : List (Tick cfg)) :
    events (ts ++ ts') = events ts ++ events ts' := by
  induction ts with
  | nil => rfl
  | cons t ts ih =>
    cases t with
    | event e => exact congrArg (e :: ·) ih
    | _ => exact ih

namespace Timed

variable {s s' : Timed} {ts ts' : List (Tick cfg)}

theorem Run.append {s₁ : Timed} (h : Run cfg s ts s₁) (h' : Run cfg s₁ ts' s') :
    Run cfg s (ts ++ ts') s' := by
  induction h with
  | nil => exact h'
  | cons hs _ ih => exact .cons hs (ih h')

theorem Run.split (h : Run cfg s (ts ++ ts') s') :
    ∃ s₁, Run cfg s ts s₁ ∧ Run cfg s₁ ts' s' := by
  induction ts generalizing s with
  | nil => exact ⟨s, .nil s, h⟩
  | cons t ts ih =>
    cases h with
    | cons ht hr =>
      obtain ⟨s₁, h₁, h'⟩ := ih hr
      exact ⟨s₁, .cons ht h₁, h'⟩

/-- A run that starts with a step of the system. -/
theorem Run.event_cons {mode : Mode} {k : Kernel} {e : Event cfg}
    (h : Run cfg s (.event e :: ts) s') (hs : s.sys = .running mode k) :
    Occurs cfg e mode s.clock ∧
      Run cfg ⟨step cfg e (.running mode k), s.clock.after cfg e mode k⟩ ts s' := by
  cases h with
  | cons ht hr =>
    cases ht with
    | event _ hocc =>
      obtain ⟨rfl, rfl⟩ := Sys.running.inj hs
      exact ⟨hocc, hr⟩

/-- Nothing happens after a halt. -/
theorem Run.halted {h : Halt} (hr : Run cfg s ts s') (hs : s.sys = .halted h) :
    s'.sys = .halted h := by
  induction hr with
  | nil => exact hs
  | cons ht _ ih =>
    cases ht with
    | elapse => exact ih hs
    | event => cases hs
    | kernelTrap => cases hs

/-- **The runs to a state that has not halted**: time passes, and the system steps. -/
theorem Run.induction {P : Timed → List (Tick cfg) → Prop} {mode' : Mode} {k' : Kernel}
    (hrun : Run cfg s ts s') (hs' : s'.sys = .running mode' k') (nil : P s' [])
    (elapse : ∀ s d ts, s.clock.mtime + d < 2 ^ 64 - 1 →
      (∀ k, s.sys = .running .user k → d ≤ s.clock.left) →
      P ⟨s.sys, s.clock.elapse d⟩ ts → P s (.elapse d :: ts))
    (event : ∀ mode k c e ts, Occurs cfg e mode c →
      P ⟨step cfg e (.running mode k), c.after cfg e mode k⟩ ts →
      P ⟨.running mode k, c⟩ (.event e :: ts)) : P s ts := by
  induction hrun with
  | nil => exact nil
  | cons ht hr ih =>
    have hrest := ih hs' nil
    cases ht with
    | elapse _ d hend huser => exact elapse _ d _ hend huser hrest
    | event e hocc => exact event _ _ _ e _ hocc hrest
    | kernelTrap =>
      rw [hr.halted rfl] at hs'
      cases hs'

/-- **A run in time is a run of the system.** -/
theorem Run.sys_eq {mode : Mode} {k : Kernel} (hrun : Run cfg s ts s')
    (hs' : s'.sys = .running mode k) : run cfg (events ts) s.sys = .running mode k :=
  hrun.induction (P := fun s ts => run cfg (events ts) s.sys = .running mode k) hs' hs'
    (fun _ _ _ _ _ h => h) fun _ _ _ _ _ _ h => h

end Timed

end Timed

end RiscvOs
