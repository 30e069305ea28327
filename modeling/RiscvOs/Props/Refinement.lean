import RiscvOs.Props.Halting
import RiscvOs.Props.Lifecycle
import RiscvOs.Spec.Refine

/-!
# The kernel as a system of processes

* **`refines_processes`**: every run of the kernel is a run of the processes, event by event.
* **`memory_of_process`**: what changes the memory of a process.
* `back_as_left`, **`exec_first_run`**, **`fork_first_run`**: the machine of a program when it
  starts, whatever the others do before.
-/

set_option autoImplicit false

namespace RiscvOs

open PageTableEntry

variable {cfg : Config} {env : Env cfg} {mode mode' : Mode} {k k₁ k' : Kernel} {t : Slot}
  {es : List (Event cfg)}

/-! ## Runs -/

/-- The system after boot: one process, at the entry point of the first program. -/
structure Os.Initial (cfg : Config) (s : Os) : Prop where
  sched : s.sched = initSched
  proc : ∃ p a, ∃ env : Env cfg, s.proc 0 = some p ∧ a ∈ cfg.apps.head? ∧ p.phase = .interrupted ∧
    p.mem = low (imagePages (a.view env).file) ∧
    p.pc = BitVec.ofNat 64 (ehdrOf (a.view env).file).eEntry ∧
    p.reg 2 = BitVec.ofNat 64 (imageTop (a.view env).file)
  others : ∀ i, i ≠ 0 → s.proc i = none

theorem boot_os (hwf : cfg.WellFormed) {b : Start cfg} (hb : boot cfg b = .ok (.trapReturn, k)) :
    (k.os cfg (.kernel .trapReturn)).Initial cfg := by
  obtain ⟨app, kroot, cx, root, N, D, m₀, m, happ, hl, -, hk, -, hspace⟩ :=
    (boot_spec hwf b).of_ok hb
  obtain rfl := (Prod.mk.inj hk).2
  set file := (app.view b.toEnv).file with hfile
  set k := booted cfg b kroot cx root (ehdrOf file).eEntry (imageTop file) m with hkdef
  have hlive : ∀ i, k.sched.Live i ↔ i = 0 := booted_live cfg b kroot cx root _ _ m
  refine ⟨booted_sched .., ⟨_, app, b.toEnv, os_proc_live ((hlive 0).mpr rfl), happ, ?_⟩,
    fun i hi => os_proc_dead (mt (hlive i).mp hi)⟩
  have htrap : k.trap 0 = initTrap cfg (m.ram cx) kroot (ehdrOf file).eEntry (imageTop file)
      (b.cpu.sstatus &&& 0xfffffeff) := by
    rw [Kernel.trap, hkdef, booted_cx hl, booted_mem hl]
    exact Mem.storeFrame_self _ _
  have hthread : Thread cfg (.kernel .trapReturn) k 0 .trapReturn := .of_current rfl
  rw [machine_thread hthread]
  refine ⟨rfl, low_congr fun v hv => ?_, ?_, ?_⟩
  · exact hspace.pages v hv
  · change k.trap 0 cxSepc = _
    rw [htrap]
    rfl
  · change k.trap 0 (cxReg 2) = _
    rw [htrap]
    rfl

/-- The event of a step is the event of a step of the processes. -/
def Simulated (e : Event cfg) (mode : Mode) (k : Kernel) : Prop :=
  ∀ mode' k', step cfg e (.running mode k) = .running mode' k' →
    OsStep cfg (k.os cfg mode) e (k'.os cfg mode')

/-- A run of the kernel, from a state in order. -/
theorem run_os (hwf : cfg.WellFormed) (h : Inv cfg mode k)
    (hrun : run cfg es (.running mode k) = .running mode' k') :
    OsRun cfg (k.os cfg mode) es (k'.os cfg mode') ∧ Along Simulated es (.running mode k) := by
  induction es generalizing mode k with
  | nil =>
    obtain ⟨rfl, rfl⟩ := Sys.running.inj hrun
    exact ⟨.nil _, trivial⟩
  | cons e es ih =>
    rw [run_cons] at hrun
    obtain ⟨mode₁, k₁, hstep⟩ := running_of_run hrun
    rw [hstep] at hrun
    obtain ⟨hes, halong⟩ := ih ((step_stepped hstep).inv hwf h).1 hrun
    exact ⟨.cons (step_os hwf h hstep) hes,
      .cons (fun _ _ hs => step_os hwf h hs) (hstep ▸ halong)⟩

/-- **Every run of the kernel is a run of the processes**, from the first program on and event by
event: each step takes the processes of a state to those of the next. -/
theorem refines_processes (hwf : cfg.WellFormed) {b : Start cfg}
    (hrun : run cfg es (start cfg b) = .running mode k) :
    ∃ k₀, start cfg b = .running (.kernel .trapReturn) k₀ ∧
      (k₀.os cfg (.kernel .trapReturn)).Initial cfg ∧
      OsRun cfg (k₀.os cfg (.kernel .trapReturn)) es (k.os cfg mode) ∧
      Along Simulated es (start cfg b) := by
  obtain ⟨mode₀, k₀, hs⟩ := running_of_run hrun
  obtain ⟨hb, rfl⟩ := start_running hs
  rw [hs] at hrun
  obtain ⟨hos, halong⟩ := run_os hwf (.boot hwf hb) hrun
  exact ⟨k₀, hs, boot_os hwf hb, hos, hs ▸ halong⟩

/-- A getchar, a fork and a timer interrupt, after which the child runs. -/
theorem refines_processes_busy : ∃ k k₀ : Kernel,
    run tiny busyEvents (start tiny (tinyStart 0)) = .running .user k ∧ k.current = 1 ∧
    (k₀.os tiny (.kernel .trapReturn)).Initial tiny ∧
    OsRun tiny (k₀.os tiny (.kernel .trapReturn)) busyEvents (k.os tiny .user) := by
  obtain ⟨k, hrun, hs, -⟩ := busy_run
  obtain ⟨k₀, -, hinit, hos, -⟩ := refines_processes tiny_wf hrun
  have hcur : k.current = (applyAll [.fork, .yield] initSched).current := congrArg Sched.current hs
  exact ⟨k, k₀, hrun, hcur.trans (by decide +kernel), hinit, hos⟩

/-! ## Memory -/

/-- **What changes the memory of a process**: nothing that another process does, and of what it does
itself only a store to a writable page, the byte of `__SYS_GET_CHAR__` and `__SYS_EXEC`. -/
theorem memory_of_process (hwf : cfg.WellFormed) (hreach : Reachable cfg (.running mode k))
    {e : Event cfg} (hstep : step cfg e (.running mode k) = .running mode' k')
    (hl : k.sched.Live t) (hl' : k'.sched.Live t) :
    (t ≠ k.current → k'.machine cfg mode' t = k.machine cfg mode t) ∧
      Remembers cfg (k.machine cfg mode t) e (k'.machine cfg mode' t) := by
  have h := hreach.inv hwf
  have hos := step_os hwf h hstep
  have hp : (k.os cfg mode).proc t = some (k.machine cfg mode t) := os_proc_live hl
  have hp' : (k'.os cfg mode').proc t = some (k'.machine cfg mode' t) := os_proc_live hl'
  have hother (ht : t ≠ k.current) : k'.machine cfg mode' t = k.machine cfg mode t :=
    Option.some.inj (by rw [← hp', ← hp, hos.other ht hl.not_unInit])
  refine ⟨hother, ?_⟩
  by_cases ht : t = k.current
  · subst ht
    exact hos.remembers hl.not_unInit hp hp'
  · exact .same (by rw [hother ht])

/-- A store of the parent, and the child. -/
theorem memory_of_process_child : ∃ (k k' : Kernel), Reachable tiny (.running .user k) ∧
    k.current = 0 ∧ step tiny (.store 0 0x41) (.running .user k) = .running .user k' ∧
    k'.machine tiny .user 1 = k.machine tiny .user 1 := by
  obtain ⟨es, k, hrun, h, hs⟩ := tiny_history 0
    (show [Op.fork].length ≤ 1000 by decide) (by decide +kernel)
  have hcur : k.current = 0 := (congrArg Sched.current hs).trans (by decide +kernel)
  have hlive : k.sched.Live 1 := by
    rw [hs]
    decide +kernel
  have hstore : Stepped .user k (.store 0 0x41 : Event tiny) .skip .user (userStore 0 0x41 k) :=
    .store k 0 0x41
  have hlive' : (userStore 0 0x41 k).sched.Live 1 := by
    rw [(hstore.sched h.live).1]
    exact hlive
  have hmem := memory_of_process tiny_wf ⟨_, es, hrun⟩
    (show step tiny (.store 0 0x41) (.running .user k) =
    .running .user (userStore 0 0x41 k) from rfl)
    hlive hlive'
  exact ⟨k, _, ⟨_, es, hrun⟩, hcur, rfl, hmem.1 (by rw [hcur]; decide)⟩

/-! ## First instructions -/

/-- The machine of a task that is on its way back to its program. -/
def Machine.back (p : Machine) : Machine :=
  match p.phase with
  | .returning v => { p.setReg 10 v with phase := .user }
  | _ => { p with phase := .user }

/-- **A task comes back as it was left**, whatever the others do in between. -/
theorem back_as_left (hwf : cfg.WellFormed) (h : Inv cfg mode k) (hl : k.sched.Live t)
    {p : Machine} (hp : k.machine cfg mode t = p)
    (hphase : p.phase = .interrupted ∨ ∃ v, p.phase = .returning v)
    (haway : Along (fun _ mode k => Away t mode k) es (.running mode k))
    (hrun : run cfg es (.running mode k) = .running .user k') (hback : k'.current = t) :
    k'.machine cfg .user t = p.back := by
  -- where the task is
  obtain ⟨κ, ht⟩ : ∃ κ, Thread cfg mode k t κ := by
    by_cases hc : k.current = t
    · cases mode with
      | user =>
        rw [machine_user hc] at hp
        subst hp
        obtain hu | ⟨v, hu⟩ := hphase <;> cases hu
      | kernel κ => exact ⟨κ, .of_current hc⟩
    · obtain ⟨κ, hκ⟩ := h.stack.suspended t (Ne.symm hc) hl
      exact ⟨κ, .of_suspended hc hκ⟩
  rw [machine_thread ht] at hp
  obtain ⟨es₁, e, κ₁, k₁, -, -, ⟨hκ₁, hp₁⟩, hb⟩ := away_run
    (Q := fun κ k => κ.phase = p.phase ∧ framed (k.trap t) (k.pages t) κ.phase = p) hwf
    (fun mode κ k k' hi hl hu hq =>
      ⟨hq.1, (hu.framed_eq hi.mem (live_init hl) _).trans hq.2⟩)
    (fun env op κ κ' k k' hi hc hq hs => by
      -- such a task goes straight back to its program
      have hκ := hq.1
      cases hs with
      | idle => exact ⟨κ, .of_current hc, hq⟩
      | yielded =>
        rw [← hκ] at hphase
        obtain hu | ⟨v, hu⟩ := hphase <;> cases hu
      | getchar =>
        rw [← hκ] at hphase
        obtain hu | ⟨v, hu⟩ := hphase <;> cases hu
      | recycle =>
        rw [← hκ] at hphase
        obtain hu | ⟨v, hu⟩ := hphase <;> cases hu)
    h hl ht ⟨by rw [← hp]; rfl, hp⟩ haway hrun hback
  obtain ⟨hi₁, rfl, env, hs⟩ := hb
  have hsv : Serving k₁ p := by
    rw [Serving, ← hκ₁]
    exact hp₁.symm
  generalize stepOp cfg _ _ = op at hs
  cases hs with
  | leave hk hr =>
    rw [hsv.leave hi₁ hr, Machine.back, ← hκ₁]
    obtain rfl | rfl := hk <;> rfl
  | @sysReturn _ _ _ cx v hr =>
    obtain rfl : cx = k₁.cur.cx := hi₁.stack.kontOk
    rw [hsv.sysReturn hi₁ hr, Machine.back, ← hκ₁]
    rfl

/-- A trap that is no interrupt is a system call. -/
theorem Inv.step_call {scause : Word} (h : Inv cfg .user k) (hbit : scause.getLsbD 63 = false)
    (hstep : step cfg (.trap scause env) (.running .user k) = .running mode k') :
    ∃ k₁ kont, Handling cfg scause k k₁ ∧ mode = .kernel kont ∧
      syscall cfg env k₁.cur.cx (k.cpu.reg 17) (k.cpu.reg 10) (k.cpu.reg 11) (moveSepc k₁) =
        .ok (kont, k') := by
  obtain ⟨k₁, he, hr⟩ := exists_of_bind_ok (ofExcept_running hstep)
  obtain ⟨⟨kont, k₂⟩, ht, hr⟩ := exists_of_bind_ok hr
  obtain ⟨rfl, rfl⟩ := Prod.mk.inj (Except.ok.inj hr)
  have hh := h.enter he
  refine ⟨k₁, kont, hh, rfl, ?_⟩
  by_cases hcode : scause &&& 0xfff = 8
  · rwa [trapHandler_ecall env (by rw [hh.scause_eq, hbit]) (by rw [hh.scause_eq, hcode]),
      hh.arg (by decide), hh.arg (by decide), hh.arg (by decide)] at ht
  · simp only [trapHandler, hh.scause_eq, hbit, hcode, Bool.false_eq_true, if_false,
      reduceCtorEq] at ht

theorem CanExec.not_callStops {path : List Byte} {a : App} {arg1 arg2 : Word} {e : Halt}
    (h : CanExec cfg env k path a) (ha : cfg.find path = some a)
    (hn : callString k arg2 = .ok path) : ¬ CallStops env k arg1 arg2 .exec e := by
  have hpath {path' : List Byte} (hn' : callString k arg2 = .ok path') : path' = path :=
    Except.ok.inj (hn'.symm.trans hn)
  have happ {path' : List Byte} {a' : App} (hn' : callString k arg2 = .ok path')
      (ha' : cfg.find path' = some a') : a' = a := by
    rw [hpath hn', ha] at ha'
    exact (Option.some.inj ha').symm
  intro hs
  cases hs with
  | execName he =>
    rw [hn] at he
    cases he
  | longName path' hn' hf => exact hf (hpath hn' ▸ h.fits)
  | noApp path' hn' hf =>
    rw [hpath hn', ha] at hf
    cases hf
  | elf path' a' hn' ha' he =>
    rw [happ hn' ha', h.elf] at he
    cases he
  | memory path' a' hn' ha' hm => exact absurd h.memory (by rw [happ hn' ha'] at hm; omega)
  | read path' a' hn' ha' hr => exact hr (happ hn' ha' ▸ h.readable)
  | stack path' a' hn' ha' hst => exact absurd h.stack (by rw [happ hn' ha'] at hst; omega)

theorem CanExec.of_tasks {path : List Byte} {a : App} {scause : Word}
    (h : CanExec cfg env k path a) (hh : Handling cfg scause k k₁) :
    CanExec cfg env (moveSepc k₁) path a := by
  obtain ⟨c, rfl, -⟩ := hh.entered.shape
  exact ⟨h.fits, h.elf, h.memory, h.readable, h.stack⟩

/-- `__SYS_EXEC` with the name of a program that can be run goes through. -/
theorem CanExec.step {path : List Byte} {a : App} (h : CanExec cfg env k path a)
    (hwf : cfg.WellFormed) (hi : Inv cfg .user k)
    (hwords : KernelWords cfg k k.current (k.trap k.current))
    (hid : SyscallId.ofWord (k.cpu.reg 17) = some .exec)
    (hname : ∀ k₁, Handling cfg ecallCause k k₁ →
      callString (moveSepc k₁) (k.cpu.reg 11) = .ok path) (ha : cfg.find path = some a) :
    ∃ mode k₁, RiscvOs.step cfg (.trap ecallCause env) (.running .user k) = .running mode k₁ := by
  cases hstep : RiscvOs.step cfg (.trap ecallCause env) (.running .user k) with
  | running mode k₁ => exact ⟨mode, k₁, rfl⟩
  | halted e =>
    exfalso
    cases hi.stops hwf hstep with
    | words hw => exact hw hwords
    | exception _ hcode => exact hcode (by decide)
    | unknown _ _ hno =>
      rw [hid] at hno
      cases hno
    | call _ _ he hid' hstop =>
      obtain rfl := Option.some.inj (hid'.symm.trans hid)
      have hh := hi.enter he
      exact (h.of_tasks hh).not_callStops ha (hname _ hh) hstop

/-- **The first instruction of a new program.** A task that calls `__SYS_EXEC` with the name of a
program that can be run is next seen in user mode with the pages of that program, at its entry
point, with its stack and `a0 = 0`; the other registers are those of the caller. -/
theorem exec_first_run (hwf : cfg.WellFormed) (hreach : Reachable cfg (.running .user k))
    (hwords : KernelWords cfg k k.current (k.trap k.current))
    (hid : SyscallId.ofWord (k.cpu.reg 17) = some .exec) {path : List Byte} {a : App}
    (hstr : UserString k (k.cpu.reg 11) path) (hadj : Adjacent k (k.cpu.reg 11) path)
    (ha : cfg.find path = some a) (hcan : CanExec cfg env k path a) :
    ∃ mode k₁, step cfg (.trap ecallCause env) (.running .user k) = .running mode k₁ ∧
      ∀ es k', Along (fun _ mode k' => Away k.current mode k') es (.running mode k₁) →
        run cfg es (.running mode k₁) = .running .user k' → k'.current = k.current →
        k'.machine cfg .user k.current =
          { ((k.machine cfg .user k.current).exec (a.view env).file).setReg 10 0 with
            phase := .user } := by
  have h := hreach.inv hwf
  have hname : ∀ k₁, Handling cfg ecallCause k k₁ →
      callString (moveSepc k₁) (k.cpu.reg 11) = .ok path := fun k₁ hh =>
    callString_eq_ok_iff.mpr ⟨hstr.noNul, hadj.consecutive h hh hstr⟩
  obtain ⟨mode, k₁, hstep⟩ := hcan.step hwf h hwords hid hname ha
  refine ⟨mode, k₁, hstep, fun es k' haway hrun hback => ?_⟩
  obtain ⟨k₂, kont, hh, rfl, hr⟩ := h.step_call (by decide) hstep
  obtain ⟨hsched, -, path', a', hpath', ha', hmach⟩ := exec_call hwf h hh hid hr
  obtain rfl : path' = path := Except.ok.inj (hpath'.symm.trans (hname k₂ hh))
  obtain rfl : a' = a := Option.some.inj (ha'.symm.trans ha)
  have hlive : k₁.sched.Live k.current := hsched ▸ h.live
  exact back_as_left hwf ((step_stepped hstep).inv hwf h).1 hlive hmach (.inr ⟨0, rfl⟩) haway hrun
    hback

/-- The registers of a call of `__SYS_EXEC` for the name at address 0. -/
def execRegs : Fin 32 → Word := fun r => if r = 17 then 7 else 0

/-- A task that has replaced its program returns to it. -/
theorem Health.exec_resume {n s : ℕ} (hwf : cfg.WellFormed) (h : Health cfg .user k n s)
    (hid : SyscallId.ofWord (k.cpu.reg 17) = some .exec)
    (hclean : CleanStep (.trap ecallCause env) .user k)
    (hstep : step cfg (.trap ecallCause env) (.running .user k) = .running mode k₁)
    (env' : Env cfg) : mode ≠ .user ∧
      ∃ k', step cfg (.resume env') (.running mode k₁) = .running .user k' ∧
        k'.current = k.current := by
  have hs₁ := step_stepped hstep
  obtain ⟨k₂, kont, hh, rfl, hr⟩ := h.toInv.step_call (by decide) hstep
  obtain ⟨hsched, rfl, -⟩ := exec_call hwf h.toInv hh hid hr
  have hready := hs₁.ready hwf h.toInv h.ready hclean
  have hi₁ := (hs₁.inv hwf h.toInv).1
  refine ⟨Mode.noConfusion, ?_⟩
  cases hstep' : step cfg (.resume env') (.running (.kernel (.sysReturn k₂.cur.cx 0)) k₁) with
  | halted e =>
    exfalso
    cases hi₁.stops hwf hstep' with
    | status _ hspp =>
      rw [(hready k₁.current hi₁.live).spp] at hspp
      cases hspp
  | running mode' k' =>
    obtain ⟨k₃, ht, hr'⟩ := exists_of_bind_ok (ofExcept_running hstep')
    obtain ⟨rfl, rfl⟩ := Prod.mk.inj (Except.ok.inj hr')
    obtain ⟨m, c, rfl⟩ := trapReturn_shape ht
    exact ⟨_, rfl, congrArg Sched.current hsched⟩

/-- The first program of the small system executes itself, by the name at its address 0. -/
theorem exec_first_run_tiny : ∃ k k' : Kernel, Reachable tiny (.running .user k) ∧
    SyscallId.ofWord (k.cpu.reg 17) = some .exec ∧ k.cpu.reg 11 = 0 ∧
    UserString k 0 tinyApp.name ∧
    run tiny [.trap ecallCause (tinyStart 0).toEnv, .resume (tinyEnv (-1) 0)] (.running .user k) =
      .running .user k' ∧ k'.machine tiny .user k.current =
      { ((k.machine tiny .user k.current).exec (tinyApp.view (tinyStart 0).toEnv).file).setReg 10 0
        with phase := .user } := by
  obtain ⟨es, k, hrun, hfirst, hs, hpages⟩ := tiny_first 0
  have h := hfirst.compute tiny_wf execRegs 0
  have hreach : Reachable tiny (.running .user
      { k with cpu := { k.cpu with x := execRegs, pc := 0 } }) := by
    refine ⟨tinyStart 0, es ++ [.compute execRegs 0], ?_⟩
    rw [run_append, hrun]
    rfl
  obtain ⟨e, he, hr, hu, hbyte⟩ := tiny_name hs hpages
  obtain ⟨hstr, hadj⟩ : UserString _ 0 tinyApp.name ∧ Adjacent _ 0 tinyApp.name :=
    h.toInv.string_inPage (by decide) (by decide) he hr hu tinyApp.noNul fun o ho => by
      rw [show (0 : Word).toNat % 4096 = 0 from rfl, Nat.zero_add]
      exact hbyte o ho
  obtain ⟨mode, k₁, hstep, hrest⟩ := exec_first_run tiny_wf hreach
    (h.ready.kernelWords (h.stack.kstack _) h.live) rfl hstr hadj rfl
    (tiny_canExec 0 (h.mono (by decide : 1000 ≤ 32000)).free)
  have hclean : CleanStep (.trap ecallCause (tinyStart 0).toEnv) .user
      { k with cpu := { k.cpu with x := execRegs, pc := 0 } } := fun d hd => by
    have hd₀ : some (0 : Word) = some d := hd
    rw [← Option.some.inj hd₀]
    decide
  obtain ⟨hmode, k', hstep', hcur⟩ :=
    h.exec_resume tiny_wf rfl hclean hstep (tinyEnv (-1) 0)
  refine ⟨_, k', hreach, rfl, rfl, hstr, ?_, hrest [.resume (tinyEnv (-1) 0)] k'
    (.cons (fun hu => hmode hu.1) trivial) hstep' hcur⟩
  rw [run_cons, hstep]
  exact hstep'

/-- **The first instruction of a child.** A task that a step has created is next seen in user mode
with the memory and the registers its parent had at the fork, past the `ecall` and with `a0 = 0`. -/
theorem fork_first_run (hwf : cfg.WellFormed) (hreach : Reachable cfg (.running mode k))
    {e : Event cfg} {mode₁ : Mode} (hstep : step cfg e (.running mode k) = .running mode₁ k₁)
    {child : Slot} (hnew : ¬ k.sched.Live child) (hlive : k₁.sched.Live child)
    (haway : Along (fun _ mode k' => Away child mode k') es (.running mode₁ k₁))
    (hrun : run cfg es (.running mode₁ k₁) = .running .user k') (hback : k'.current = child) :
    (k.machine cfg mode k.current).call = some .fork ∧ k'.machine cfg .user child =
      { (k.machine cfg mode k.current).enter.setReg 10 0 with phase := .user } := by
  have h := hreach.inv hwf
  have hne : child ≠ k.current := fun he => hnew (he ▸ h.live)
  obtain ⟨p, hp, -, hcall, hchild⟩ := (step_os hwf h hstep).created hne (os_proc_dead hnew)
    (os_proc_live hlive)
  obtain rfl := Option.some.inj ((os_proc_live h.live).symm.trans hp)
  refine ⟨hcall, ?_⟩
  exact back_as_left hwf ((step_stepped hstep).inv hwf h).1 hlive hchild (.inl rfl) haway hrun hback

/-- The child of the first program, after its parent has been interrupted. -/
theorem fork_first_run_tiny : ∃ (k k' : Kernel), Reachable tiny (.running .user k) ∧
    k'.current = 1 ∧ k'.machine tiny .user 1 =
      { (k.machine tiny .user k.current).enter.setReg 10 0 with phase := .user } := by
  obtain ⟨es, k, hrun, h, hs⟩ :=
    tiny_history 0 (show ([] : List Op).length ≤ 1000 by decide) trivial
  have hreach : Reachable tiny (.running .user
      { k with cpu := { k.cpu with x := callRegs 6, pc := 0 } }) := by
    refine ⟨tinyStart 0, es ++ [.compute (callRegs 6) 0], ?_⟩
    rw [run_append, hrun]
    rfl
  obtain ⟨κ₁, k₁, hstep₁, h₁, hs₁, -⟩ := (h.compute tiny_wf (callRegs 6) 0).fork (tinyEnv (-1) 0)
    tiny_wf rfl (callRegs_clean _ _ _) (show 0 + (6 + 3 * 4) ≤ 1000 by decide)
  obtain ⟨k₂, hstep₂, h₂, hs₂⟩ := h₁.resume tiny_wf (tinyEnv (-1) 0)
  obtain ⟨κ₃, k₃, hstep₃, h₃, hs₃, -⟩ := h₂.timer tiny_wf (tinyEnv (-1) 0)
  obtain ⟨k₄, hstep₄, -, hs₄⟩ := h₃.resume tiny_wf (tinyEnv (-1) 0)
  have hk : ({ k with cpu := { k.cpu with x := callRegs 6, pc := 0 } } : Kernel).sched =
    initSched := hs
  rw [hk] at hs₁
  have hnew :
    ¬ ({ k with cpu := { k.cpu with x := callRegs 6, pc := 0 } } : Kernel).sched.Live 1 := by
    rw [hk]
    decide
  have hlive : k₁.sched.Live 1 := by
    rw [hs₁]
    decide +kernel
  have hcur₂ : k₂.sched.current = 0 := by
    rw [hs₂, hs₁]
    decide +kernel
  have hcur₄ : k₄.sched.current = 1 := by
    rw [hs₄, hs₃, hs₂, hs₁]
    decide +kernel
  have hrun' : run tiny [.resume (tinyEnv (-1) 0), .trap timerCause (tinyEnv (-1) 0),
      .resume (tinyEnv (-1) 0)] (.running (.kernel κ₁) k₁) = .running .user k₄ := by
    rw [run_cons, hstep₂, run_cons, hstep₃, run_cons, hstep₄, run_nil]
  have haway : Along (fun _ mode k' => Away 1 mode k') [.resume (tinyEnv (-1) 0),
      .trap timerCause (tinyEnv (-1) 0), .resume (tinyEnv (-1) 0)] (.running (.kernel κ₁) k₁) := by
    refine ⟨?_, ?_, ?_, trivial⟩
    · rintro _ _ he ⟨rfl, -⟩
      cases he
    · rintro _ _ he ⟨-, hc⟩
      rw [hstep₂] at he
      obtain ⟨-, rfl⟩ := Sys.running.inj he
      exact absurd (hc.symm.trans hcur₂) (by decide)
    · rintro _ _ he ⟨rfl, -⟩
      rw [hstep₂, hstep₃] at he
      cases he
  exact ⟨_, k₄, hreach, hcur₄,
    (fork_first_run tiny_wf hreach hstep₁ hnew hlive haway hrun' hcur₄).2⟩

end RiscvOs
