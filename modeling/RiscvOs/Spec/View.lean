import RiscvOs.Inv.Words
import RiscvOs.Spec.Processes

/-!
# The processes of a kernel state

* `Kernel.machine`: a task as its program knows it, from the registers while it runs and from its
  trap context while it does not; `Kernel.os`: all of them.
* **`Stepped.machine_other`**: a step leaves the machines of the other tasks as they are.
* `os_act`: a step of the kernel that is an act of the running process is a step of the processes.
-/

set_option autoImplicit false

namespace RiscvOs

open PageTableEntry

variable {cfg : Config} {mode mode' : Mode} {k k' : Kernel} {t : Slot} {κ : Kont}

/-! ## Machines -/

/-- What a task does in the kernel. (`exit` is not gone on from.) -/
def Kont.phase : Kont → Phase
  | .trapReturn | .timer | .exit => .interrupted
  | .sysYield _ => .yielding
  | .sysGetchar _ data => .reading data
  | .sysRecycle .. => .waiting
  | .sysReturn _ v => .returning v

/-- The machine of a task in the kernel, with the trap context `F` and the pages `V`. -/
def framed (F : Frame) (V : ℕ → Option (Byte × Frame)) (phase : Phase) : Machine where
  reg r := if r = 0 then 0 else F (cxReg r)
  pc := F cxSepc
  mem := low V
  phase := phase

variable (cfg) in
/-- The machine of a task. -/
def Kernel.machine (mode : Mode) (k : Kernel) (t : Slot) : Machine :=
  if k.current = t then
    match mode with
    | .user => ⟨k.cpu.reg, k.cpu.pc, low (k.pages t), .user⟩
    | .kernel κ => framed (k.trap t) (k.pages t) κ.phase
  else
    match resumeAt cfg k (k.tasks t).taskContext with
    | .ok κ => framed (k.trap t) (k.pages t) κ.phase
    | .error _ => framed (k.trap t) (k.pages t) .interrupted

variable (cfg) in
/-- The processes of a state. -/
def Kernel.os (mode : Mode) (k : Kernel) : Os where
  sched := k.sched
  proc t := if k.sched.Live t then some (k.machine cfg mode t) else none

theorem machine_user (h : k.current = t) :
    k.machine cfg .user t = ⟨k.cpu.reg, k.cpu.pc, low (k.pages t), .user⟩ := if_pos h

theorem machine_thread (h : Thread cfg mode k t κ) :
    k.machine cfg mode t = framed (k.trap t) (k.pages t) κ.phase := by
  unfold Kernel.machine
  split_ifs with hc
  · rw [h.mode_eq hc]
  · rw [(h.suspended hc).resumeAt]

theorem low_congr {V V' : ℕ → Option (Byte × Frame)} (h : ∀ v < trapframeVpn, V v = V' v) :
    low V = low V' := by
  funext v
  rw [low, low]
  split_ifs with hv
  · exact h v hv
  · rfl

theorem framed_ext {F F' : Frame} {V V' : ℕ → Option (Byte × Frame)} {phase : Phase}
    (hF : F = F') (hV : low V = low V') : framed F V phase = framed F' V' phase := by
  rw [hF, framed, framed, hV]

/-- A task whose frames a step has left alone. -/
theorem Untouched.framed_eq (h : MemInv cfg k) (hi : (k.tasks t).taskState ≠ .unInit)
    (hu : Untouched k k' t) (phase : Phase) :
    framed (k'.trap t) (k'.pages t) phase = framed (k.trap t) (k.pages t) phase :=
  framed_ext hu.trap_eq (low_congr fun _ hv => hu.pages_eq h hi hv)

/-- **The other machines stand still.** -/
theorem Stepped.machine_other {e : Event cfg} {op : Op} (hwf : cfg.WellFormed)
    (h : Inv cfg mode k) (hs : Stepped mode k e op mode' k') (ht : t ≠ k.current)
    (hl : k.sched.Live t) : k'.machine cfg mode' t = k.machine cfg mode t := by
  obtain ⟨κ, hκ⟩ := h.stack.suspended t ht hl
  have hthread : Thread cfg mode k t κ := .of_suspended (Ne.symm ht) hκ
  have hthread' := hthread.others (Ne.symm ht) ((hs.stack h.stack h.live).2 t ht hl)
  rw [machine_thread hthread, machine_thread hthread']
  exact ((hs.inv hwf h).2 t ht hl).framed_eq h.mem (live_init hl) _

/-! ## Steps -/

theorem os_proc_live (hl : k.sched.Live t) :
    (k.os cfg mode).proc t = some (k.machine cfg mode t) := if_pos hl

theorem os_proc_dead (hl : ¬ k.sched.Live t) : (k.os cfg mode).proc t = none := if_neg hl

theorem os_eq {s : Sched} {proc : Slot → Option Machine} (hs : k.sched = s)
    (hp : ∀ t, (k.os cfg mode).proc t = proc t) : k.os cfg mode = ⟨s, proc⟩ := by
  rw [← hs, ← funext hp]
  rfl

/-- The process of a slot that does not run and that the step neither fills nor empties. -/
theorem Stepped.os_proc_other {e : Event cfg} {op : Op} (hwf : cfg.WellFormed)
    (h : Inv cfg mode k) (hs : Stepped mode k e op mode' k') (ht : t ≠ k.current)
    (hlive : k'.sched.Live t ↔ k.sched.Live t) :
    (k'.os cfg mode').proc t = (k.os cfg mode).proc t := by
  by_cases hl : k.sched.Live t
  · rw [os_proc_live hl, os_proc_live (hlive.mpr hl), hs.machine_other hwf h ht hl]
  · rw [os_proc_dead hl, os_proc_dead (mt hlive.mp hl)]

/-- The operations of acts end no process and create none. -/
theorem Act.live_iff {s : Sched} {p p' : Machine} {e : Event cfg} {op : Op}
    (ha : Act cfg s p e op p') (hop : op.Enabled s) : (op.apply s).Live t ↔ s.Live t := by
  have hkind : op ≠ .exit ∧ (op = .fork → s.freeSlot = none) := by
    cases ha with
    | @interrupt _ scause =>
      by_cases hcode : scause &&& 0xfff = 5
      · rw [if_pos hcode]
        exact ⟨Op.noConfusion, Op.noConfusion⟩
      · rw [if_neg hcode]
        exact ⟨Op.noConfusion, Op.noConfusion⟩
    | forkFull _ hf => exact ⟨Op.noConfusion, fun _ => hf⟩
    | _ => exact ⟨Op.noConfusion, Op.noConfusion⟩
  obtain ⟨hexit, hfork⟩ := hkind
  refine ⟨fun h => ?_, Op.live_apply hop fun he => absurd he hexit⟩
  obtain h | ⟨he, hf⟩ := Op.live_of_apply hop h
  · exact h
  · rw [hfork he] at hf
    cases hf

/-- An act of the running process. -/
theorem os_act {e : Event cfg} {op : Op} (hwf : cfg.WellFormed) (h : Inv cfg mode k)
    (hs : Stepped mode k e op mode' k')
    (ha : Act cfg k.sched (k.machine cfg mode k.current) e op (k'.machine cfg mode' k.current)) :
    OsStep cfg (k.os cfg mode) e (k'.os cfg mode') := by
  obtain ⟨hsched, hop⟩ := hs.sched h.live
  have hlive : ∀ t, k'.sched.Live t ↔ k.sched.Live t := fun t => by
    rw [hsched]
    exact ha.live_iff hop
  have hos : k'.os cfg mode' = ⟨op.apply k.sched,
      Function.update (k.os cfg mode).proc k.current (some (k'.machine cfg mode' k.current))⟩ := by
    refine os_eq hsched fun t => ?_
    by_cases ht : t = k.current
    · subst ht
      rw [Function.update_self, os_proc_live ((hlive _).mpr h.live)]
    · rw [Function.update_of_ne ht, hs.os_proc_other hwf h ht (hlive t)]
  rw [hos]
  exact .move (os_proc_live h.live) hop ha

end RiscvOs
