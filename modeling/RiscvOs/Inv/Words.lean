import RiscvOs.Inv.Thread

/-!
# Trap contexts

What the kernel keeps in a trap page besides the user's registers: its own table, stack and handler,
which lead back into it.

* `TrapEntered.trap`, **`Served.trap_eq`**: what a trap and a system call do to the caller's own
  page.
* `TrapOk`, `Ready`: the kernel's words are intact; `CleanStep`: no `getchar` writes over them.
* **`Stepped.ready`**, **`ready_run`**: then they stay intact, and every trap reaches the handler.
-/

set_option autoImplicit false

namespace RiscvOs

open PageTableEntry

variable {cfg : Config} {env : Env cfg} {mode mode' : Mode} {k k' : Kernel} {kont : Kont}

/-! ## The registers of a trap -/

/-- The trap context when `trap_handler` starts. -/
def savedFrame (k : Kernel) (scause : Word) : Frame :=
  trapFrame (k.cpu.trap scause) (k.trap k.current)

theorem TrapEntered.trap {scause : Word} (h : TrapEntered cfg scause k k') :
    k'.trap k.current = savedFrame k scause := by
  obtain ⟨c, rfl, -⟩ := h.shape
  exact Mem.storeFrame_self _ _

theorem savedFrame_reg (k : Kernel) (scause : Word) {r : Fin 32} (h : r ≠ 0) :
    savedFrame k scause (cxReg r) = k.cpu.reg r := by
  rw [savedFrame, trapFrame_reg _ _ h]
  rfl

theorem savedFrame_sepc (k : Kernel) (scause : Word) : savedFrame k scause cxSepc = k.cpu.pc := rfl

/-- The trap context with which `__SYSCALL` is called. -/
def callFrame (k : Kernel) (scause : Word) : Frame :=
  Function.update (savedFrame k scause) cxSepc (k.cpu.pc + 8)

theorem moveSepc_trap (k : Kernel) : (moveSepc k).trap k.current =
    Function.update (k.trap k.current) cxSepc (k.trap k.current cxSepc + 8) :=
  Function.update_self _ _ _

theorem TrapEntered.moveSepc {scause : Word} (h : TrapEntered cfg scause k k') :
    (moveSepc k').trap k.current = callFrame k scause := by
  rw [← h.current, moveSepc_trap, h.current, h.trap]
  rfl

theorem cxReg_ne_sepc (r : Fin 32) : cxReg r ≠ cxSepc := by
  revert r
  decide

theorem callFrame_reg (k : Kernel) (scause : Word) {r : Fin 32} (h : r ≠ 0) :
    callFrame k scause (cxReg r) = k.cpu.reg r := by
  rw [callFrame, Function.update_of_ne (cxReg_ne_sepc r), savedFrame_reg k scause h]

theorem callFrame_sepc (k : Kernel) (scause : Word) :
    callFrame k scause cxSepc = k.cpu.pc + 8 := Function.update_self _ _ _

/-- `__SYSCALL` is called with the user's registers. -/
theorem Handling.arg {scause : Word} {k₁ : Kernel} (hh : Handling cfg scause k k₁) {r : Fin 32}
    (hr : r ≠ 0) : (moveSepc k₁).mem.ram k₁.cur.cx (cxReg r) = k.cpu.reg r := by
  have h := congrFun hh.entered.moveSepc (cxReg r)
  rw [callFrame_reg k scause hr, ← hh.current] at h
  exact h

theorem Handling.scause_eq {scause : Word} {k₁ : Kernel} (hh : Handling cfg scause k k₁) :
    k₁.cpu.scause = scause := by
  obtain ⟨c, rfl, hc⟩ := hh.entered.shape
  exact hc

variable (cfg) in
/-- The system call a trap makes. -/
def callOf (scause : Word) (k : Kernel) : Option SyscallId :=
  match enterTrap cfg scause k with
  | .ok k₁ =>
    if k₁.cpu.scause.getLsbD 63 = false ∧ k₁.cpu.scause &&& 0xfff = 8 then
      SyscallId.ofWord ((moveSepc k₁).mem.ram k₁.cur.cx (cxReg 17))
    else none
  | .error _ => none

section Call

variable {scause : Word} {k₁ : Kernel} (hh : Handling cfg scause k k₁)

include hh

theorem Handling.call_tasks : (moveSepc k₁).tasks = k.tasks := by
  obtain ⟨c, rfl, -⟩ := hh.entered.shape
  rfl

theorem Handling.call_cur : (moveSepc k₁).cur = k.cur := by
  obtain ⟨c, rfl, -⟩ := hh.entered.shape
  rfl

/-- A call starts with the memory of the program, but for its trap page. -/
theorem Handling.call_ram {f : ℕ} (hf : f ≠ k.cur.cx) : (moveSepc k₁).mem.ram f = k.mem.ram f := by
  obtain ⟨c, rfl, -⟩ := hh.entered.shape
  exact (Mem.storeFrame_of_ne hf _).trans (Mem.storeFrame_of_ne hf _)

theorem Handling.call_pages (h : MemInv cfg k) (hi : k.cur.taskState ≠ .unInit) {v : ℕ}
    (hv : v < trapframeVpn) : (moveSepc k₁).pages k.current v = k.pages k.current v :=
  h.pages_of_agree hi (by rw [hh.call_tasks]) (fun _ _ hf => hh.call_ram hf) hv

theorem Handling.call_lookup (h : MemInv cfg k) (hi : k.cur.taskState ≠ .unInit) {v : ℕ}
    (hv : v < 2 ^ 27) : lookup (moveSepc k₁).mem.ram k.cur.pagetable.rootPpn v =
      lookup k.mem.ram k.cur.pagetable.rootPpn v := by
  refine ((h.task _ hi).space.table.congr fun f hf => hh.call_ram fun he => ?_).lookup v hv
  exact h.cx_not_mem_table hi (he ▸ hf)

end Call

/-! ## The caller's own page -/

/-- The character of the console, if it has one. -/
def Env.char (env : Env cfg) : Option (BitVec 32) :=
  if env.console = -1 then none else some env.console

/-- The pointer a system call may store through; `data` is that of `__sys_getchar`. -/
def callData (call : SyscallId) (data : Option Word) : Option Word :=
  if call = .getChar then data else none

/-- The caller's trap context after a call that has read `c`: the character is in it if it was to be
stored there. -/
def returnFrame (F : Frame) (data : Option Word) (c : Option (BitVec 32)) : Frame :=
  match data, c with
  | some d, some c =>
    if pageOf d = trapframeVpn then setFrameByte F (d.toNat % 4096) (c.setWidth 8) else F
  | _, _ => F

theorem returnFrame_none (F : Frame) (c : Option (BitVec 32)) : returnFrame F none c = F := by
  cases c <;> rfl

theorem returnFrame_no_char (F : Frame) (data : Option Word) : returnFrame F data none = F := by
  cases data <;> rfl

theorem returnFrame_of_clean {F : Frame} {data : Option Word} {c : Option (BitVec 32)}
    (h : ∀ d, data = some d → pageOf d ≠ trapframeVpn) : returnFrame F data c = F := by
  cases data with
  | none => exact returnFrame_none F c
  | some d =>
    cases c with
    | none => rfl
    | some c => exact if_neg (h d rfl)

section Caller

variable {cx : ℕ} {father : Slot} {data : Option Word} {call : SyscallId} {op : Op}
  (h : MemInv cfg k) (hon : OnStack cfg k) (hc : k.sched.Live k.current) (hcx : cx = k.cur.cx)
  (hf : father = k.current) (hs : Served cfg env cx father data k call op kont k')
  (hexec : call ≠ .exec) (hexit : call ≠ .exit)

include h hon hc hcx hf hs hexec hexit

/-- **A system call that returns**, other than `exec`, leaves the caller's trap context alone, but
for the character of a `getchar` into it. -/
theorem Served.trap_eq :
    k'.trap k.current = returnFrame (k.trap k.current) (callData call data) env.char := by
  cases hs with
  | quiet call v out hd =>
    have hnone : callData call data = none := by
      rw [callData]
      split_ifs with hg
      · exact hd hg
      · rfl
    rw [hnone, returnFrame_none]
    rfl
  | @putchar d _ _ hd hpa hst hcon =>
    rw [callData, if_pos rfl, hd, Env.char, if_neg hcon]
    obtain ⟨f, c, rfl, ⟨hv, hleaf⟩ | ⟨hv, rfl, rfl⟩⟩ := putchar_spec h (live_init hc) hpa hst
    · exact (Mem.storeFrame_of_ne (h.leaf_ne_cx (live_init hc) hleaf).symm _).trans
        (if_neg hv.ne).symm
    · exact (Mem.storeFrame_self _ _).trans (if_pos hv).symm
  | fork hk =>
    rw [callData, if_neg (by decide), returnFrame_none]
    obtain ⟨-, hr⟩ | ⟨p, f, root, m, hfk, hr⟩ := (sysFork_spec h (live_init hc)).of_ok hk
    · rw [(Prod.mk.inj hr).2]
      rfl
    · rw [(Prod.mk.inj hr).2]
      exact (Untouched.of_onlyTask (hfk.onlyTask h) (hfk.ne (live_init hc)) (live_init hc)).trap_eq
  | exec => exact absurd rfl hexec
  | @reap child _ out hz hk =>
    rw [callData, if_neg (by decide), returnFrame_none]
    have hzs := (zombie_of_zombieChild hz).2
    have hne : k.current ≠ child := fun he => zombie_not_live hzs (he ▸ hc)
    have hinit := zombie_init hzs
    obtain ⟨m, hfr, rfl⟩ := (freeChild_spec h hinit).of_ok hk
    exact (Untouched.of_onlyTask (hfr.onlyTask h hinit) hne (live_init hc)).trap_eq
  | exit => exact absurd rfl hexit
  | yield hw hy hcon =>
    have hsame : returnFrame (k.trap k.current) (callData call data) env.char =
        k.trap k.current := by
      by_cases hg : call = .getChar
      · rw [Env.char, if_pos (hcon hg), returnFrame_no_char]
      · rw [callData, if_neg hg, returnFrame_none]
    obtain ⟨hm, -, ht⟩ := sysYield_sameSpace hon (fun _ => hw.kontOk hcx hf) hy
    rw [hsame, Kernel.trap, Kernel.trap, (ht k.current).cx, hm]

theorem Served.trap_of_clean
    (hdata : call = .getChar → ∀ d, data = some d → pageOf d ≠ trapframeVpn) :
    k'.trap k.current = k.trap k.current := by
  rw [hs.trap_eq h hon hc hcx hf hexec hexit]
  refine returnFrame_of_clean fun d hd => ?_
  rw [callData] at hd
  split_ifs at hd with hg
  exact hdata hg d hd

end Caller

/-- `exec` changes `sepc` and `sp`. -/
theorem sysExec_trap {name : ℕ} (hwf : cfg.WellFormed) (h : MemInv cfg k)
    (hc : k.sched.Live k.current) (he : sysExec cfg env name k = .ok k') :
    ∃ f, k'.trap k.current = execTrap f (k.trap k.current) := by
  obtain ⟨path, a, root, N, D, m, m', hx, rfl⟩ := (sysExec_spec h (live_init hc) hwf).of_ok he
  refine ⟨(a.view env).file, ?_⟩
  have hcx : ((afterExec k (a.view env).file root m').tasks k.current).cx = k.cur.cx := by
    rw [afterExec, setTask_self]
    rfl
  rw [Kernel.trap, hcx]
  exact hx.trap h (live_init hc)

section Child

variable {p : Slot} {f root : ℕ} {m : Mem}

/-- The trap context of a child. -/
theorem Forked.trap_child (hf : Forked cfg k p f root m) :
    (afterFork cfg k p f root m).trap p = forkedTrap (k.trap k.current) (k.tasks p).kstack := by
  rw [Kernel.trap, afterFork_self, forkedTask_cx cfg k p root hf.lt]
  exact hf.trap

/-- The child has the pages of its parent. -/
theorem Forked.pages_child (hf : Forked cfg k p f root m) {v : ℕ} (hv : v < trapframeVpn) :
    (afterFork cfg k p f root m).pages p v = k.pages k.current v := by
  rw [Kernel.pages, afterFork_self]
  exact hf.pages v hv

/-- A child starts at `trap_return`. -/
theorem Suspended.of_fork (hs : Suspended cfg (afterFork cfg k p f root m) p kont) :
    kont = .trapReturn := by
  obtain ⟨-, hk⟩ | ⟨hra, -⟩ := hs.resume
  · exact hk
  · rw [afterFork_self] at hra
    exact absurd hra.symm cfg.yieldRet_ne

theorem OnStack.thread_child (h : OnStack cfg (afterFork cfg k p f root m))
    (hne : p ≠ k.current) (hl : (afterFork cfg k p f root m).sched.Live p) :
    Thread cfg mode (afterFork cfg k p f root m) p .trapReturn := by
  obtain ⟨κ, hκ⟩ := h.suspended p hne hl
  obtain rfl := hκ.of_fork
  exact .of_suspended (Ne.symm hne) hκ

end Child

/-! ## The kernel's words -/

/-- The trap context of slot `i` leads back into the kernel, and its return to user mode. -/
structure TrapOk (cfg : Config) (kroot : ℕ) (i : Slot) (c : Frame) : Prop where
  satp : c cxKernelSatp = makeSatp kroot
  handler : c cxTrapHandler = cfg.trapHandler
  sp : c cxKernelSp = BitVec.ofNat 64 (kstackVa i + pageSize)
  spp : (c cxSstatus).getLsbD 8 = false

namespace TrapOk

variable {kroot : ℕ} {i p : Slot} {c : Frame}

/-- Stores into registers and `sepc` do no harm. -/
theorem update (h : TrapOk cfg kroot i c) {j : Fin 512} (hj : j.val < 32 ∨ j = cxSepc) (w : Word) :
    TrapOk cfg kroot i (Function.update c j w) := by
  have hne : ∀ x : Fin 512, 31 < x.val → x.val ≠ 33 → Function.update c j w x = c x := by
    intro x h₁ h₂
    refine Function.update_of_ne ?_ _ _
    rintro rfl
    obtain hj | rfl := hj
    · omega
    · exact h₂ rfl
  refine ⟨?_, ?_, ?_, ?_⟩
  · rw [hne _ (by decide) (by decide)]
    exact h.satp
  · rw [hne _ (by decide) (by decide)]
    exact h.handler
  · rw [hne _ (by decide) (by decide)]
    exact h.sp
  · rw [hne _ (by decide) (by decide)]
    exact h.spp

/-- A trap from user mode clears `SPP`. -/
theorem saved (h : TrapOk cfg kroot i c) (u : Cpu) (scause : Word) :
    TrapOk cfg kroot i (trapFrame (u.trap scause) c) := by
  have hrest : ∀ j : Fin 512, 33 < j.val → trapFrame (u.trap scause) c j = c j := fun j hj =>
    trapFrame_rest _ _ (.inr hj)
  refine ⟨?_, ?_, ?_, ?_⟩
  · rw [hrest _ (by decide)]
    exact h.satp
  · rw [hrest _ (by decide)]
    exact h.handler
  · rw [hrest _ (by decide)]
    exact h.sp
  · rw [trapFrame_sstatus]
    simp only [Cpu.trap]
    split_ifs <;> simp

theorem execTrap (h : TrapOk cfg kroot i c) (f : ℕ → Byte) :
    TrapOk cfg kroot i (RiscvOs.execTrap f c) :=
  (h.update (.inr rfl) _).update (.inl (by decide)) _

/-- The child of a fork gets its own stack. -/
theorem forkedTrap (h : TrapOk cfg kroot i c) :
    TrapOk cfg kroot p (RiscvOs.forkedTrap c (kstackVa p + pageSize)) := by
  have h' := h.update (j := cxReg 10) (.inl (by decide)) 0
  refine ⟨?_, ?_, Function.update_self _ _ _, ?_⟩
  · rw [RiscvOs.forkedTrap, Function.update_of_ne (by decide)]
    exact h'.satp
  · rw [RiscvOs.forkedTrap, Function.update_of_ne (by decide)]
    exact h'.handler
  · rw [RiscvOs.forkedTrap, Function.update_of_ne (by decide)]
    exact h'.spp

theorem initTrap (old : Frame) (kroot entry ustack : ℕ) (sstatus : Word) :
    TrapOk cfg kroot 0 (RiscvOs.initTrap cfg old kroot entry ustack (sstatus &&& 0xfffffeff)) := by
  refine ⟨?_, ?_, ?_, ?_⟩
  · simp only [RiscvOs.initTrap]
    rw [Function.update_of_ne (by decide), Function.update_of_ne (by decide), Function.update_self]
  · simp only [RiscvOs.initTrap, Function.update_self]
  · simp only [RiscvOs.initTrap]
    rw [Function.update_of_ne (by decide), Function.update_self]
    rfl
  · have hmask : (0xfffffeff : Word).getLsbD 8 = false := by decide
    simp only [RiscvOs.initTrap]
    rw [Function.update_of_ne (by decide), Function.update_of_ne (by decide),
      Function.update_of_ne (by decide), Function.update_of_ne (by decide), Function.update_self,
      BitVec.getLsbD_and, hmask, Bool.and_false]

end TrapOk

/-- The trap contexts of all live tasks lead back into the kernel. -/
def Ready (cfg : Config) (k : Kernel) : Prop :=
  ∀ i, k.sched.Live i → TrapOk cfg k.kernelPagetable.rootPpn i (k.trap i)

theorem Ready.kernelWords {i : Slot} (h : Ready cfg k)
    (hst : (k.tasks i).kstack = kstackVa i + pageSize) (hl : k.sched.Live i) :
    KernelWords cfg k i (k.trap i) :=
  ⟨(h i hl).satp, (h i hl).handler, (h i hl).sp.trans (by rw [hst])⟩

/-- **How trap contexts stay intact.** -/
theorem Ready.of_keeps (h : Ready cfg k) (hk : Keeps cfg k k')
    (hnew : ∀ i, i ≠ k.current → k'.sched.Live i → ¬ k.sched.Live i →
      TrapOk cfg k.kernelPagetable.rootPpn i (k'.trap i))
    (hcur : k'.sched.Live k.current →
      TrapOk cfg k.kernelPagetable.rootPpn k.current (k'.trap k.current)) : Ready cfg k' := by
  intro i hl
  rw [hk.kernelPagetable]
  by_cases hi : i = k.current
  · subst hi
    exact hcur hl
  · by_cases hli : k.sched.Live i
    · rw [(hk.others i hi hli).trap_eq]
      exact h i hli
    · exact hnew i hi hl hli

/-! ## Steps -/

/-- A slot comes to life by a fork only. -/
theorem Op.live_of_apply {s : Sched} {op : Op} {i : Slot} (hop : op.Enabled s)
    (h : (op.apply s).Live i) : s.Live i ∨ (op = .fork ∧ s.freeSlot = some i) := by
  cases op with
  | skip => exact .inl h
  | yield => exact .inl (((Sched.sameProcs_yield s).live i).mp h)
  | fork =>
    cases hf : s.freeSlot with
    | none =>
      rw [Op.apply, Tree.fork_of_full hf] at h
      exact .inl h
    | some p =>
      obtain rfl | hl := (Tree.live_fork hf).mp h
      · exact .inr ⟨rfl, rfl⟩
      · exact .inl hl
  | exit => exact .inl (Tree.live_zombify.mp (((Sched.sameProcs_yield _).live i).mp h)).1
  | reap child =>
    by_cases hi : i = child
    · subst hi
      rw [Sched.Live, Op.apply, Sched.reap] at h
      simp only [Function.update_self] at h
      exact absurd h (by decide)
    · rw [Sched.Live, Op.apply, Sched.reap] at h
      simp only [Function.update_of_ne hi] at h
      exact .inl h

/-- A system call that does not write over its own trap context keeps them all intact. -/
theorem Served.ready {cx : ℕ} {father : Slot} {data : Option Word} {call : SyscallId} {op : Op}
    (hwf : cfg.WellFormed) (h : MemInv cfg k) (hon : OnStack cfg k) (hc : k.sched.Live k.current)
    (hcx : cx = k.cur.cx) (hf : father = k.current)
    (hs : Served cfg env cx father data k call op kont k')
    (hdata : ∀ d, data = some d → pageOf d ≠ trapframeVpn) (hr : Ready cfg k) : Ready cfg k' := by
  obtain ⟨hsched, hen⟩ := hs.sched hc
  refine hr.of_keeps (hs.keeps hwf h hon hc hcx hf) (fun i hi hl hn => ?_) fun hl => ?_
  · -- the child of a fork
    rw [hsched] at hl
    obtain hl | ⟨rfl, hp⟩ := Op.live_of_apply hen hl
    · exact absurd hl hn
    cases hs with
    | fork hk =>
      obtain ⟨hfull, -⟩ | ⟨p, f, root, m, hfk, hr'⟩ := (sysFork_spec h (live_init hc)).of_ok hk
      · rw [freeSlot_sched, hfull] at hp
        cases hp
      · rw [freeSlot_sched, hfk.slot] at hp
        obtain rfl := Option.some.inj hp
        rw [(Prod.mk.inj hr').2, hfk.trap_child, hon.kstack]
        exact (hr _ hc).forkedTrap
  · by_cases hexit : call = .exit
    · subst hexit
      cases hs with
      | quiet => exact hr _ hc
      | exit =>
        rw [hsched] at hl
        exact absurd rfl (Tree.live_zombify.mp (((Sched.sameProcs_yield _).live _).mp hl)).2
      | yield hw => cases hw
    · by_cases hexec : call = .exec
      · subst hexec
        cases hs with
        | quiet => exact hr _ hc
        | @exec _ out _ hk =>
          have h₀ : MemInv cfg { k with mem.console := out } := ((Keeps.refl h).withConsole out).mem
          obtain ⟨f, he⟩ := sysExec_trap hwf h₀ hc hk
          have he' : k'.trap k.current = execTrap f (k.trap k.current) := he
          rw [he']
          exact (hr _ hc).execTrap f
        | yield hw => cases hw
      · rw [hs.trap_of_clean h hon hc hcx hf hexec hexit fun _ => hdata]
        exact hr _ hc

/-- A store into a register or `sepc` of the running task's trap context. -/
theorem Ready.storeCx (hr : Ready cfg k) (h : MemInv cfg k) (hc : k.sched.Live k.current)
    {j : Fin 512} (hj : j.val < 32 ∨ j = cxSepc) (w : Word) :
    Ready cfg { k with mem := k.mem.store k.cur.cx j w } := by
  have hk : Keeps cfg k { k with mem := k.mem.store k.cur.cx j w } := .storeCx h hc _
  refine hr.of_keeps hk (fun i _ hl hn => absurd hl hn) fun _ => ?_
  have htrap : ({ k with mem := k.mem.store k.cur.cx j w } : Kernel).trap k.current =
      Function.update (k.trap k.current) j w := Function.update_self _ _ _
  rw [htrap]
  exact (hr _ hc).update hj w

theorem Handling.ready {scause : Word} {k₁ : Kernel} (hh : Handling cfg scause k k₁)
    (hr : Ready cfg k) : Ready cfg k₁ := by
  have hsched := hh.sched
  refine hr.of_keeps hh.keeps (fun i _ hl hn => absurd (hsched ▸ hl) hn) fun hl => ?_
  rw [hsched] at hl
  rw [hh.entered.trap]
  exact (hr _ hl).saved _ _

/-- A yield leaves all trap contexts alone. -/
theorem sysYield_ready {self : Kont} (hon : OnStack cfg k)
    (hself : k.sched.Live k.current → KontOk k k.current self)
    (hy : sysYield cfg env self k = .ok (kont, k')) (hr : Ready cfg k) : Ready cfg k' := by
  obtain ⟨hm, hkp, ht⟩ := sysYield_sameSpace hon hself hy
  intro i hl
  rw [sysYield_sched hy, (Sched.sameProcs_yield _).live] at hl
  rw [hkp, Kernel.trap, (ht i).cx, hm]
  exact hr i hl

/-- The user pointer a step may make the kernel store through. -/
def storePointer (e : Event cfg) (mode : Mode) (k : Kernel) : Option Word :=
  match mode, e with
  | .user, .trap scause _ =>
    if scause.getLsbD 63 = false then getcharData (k.cpu.reg 10) (k.cpu.reg 11) else none
  | .kernel (.sysGetchar _ data), .resume _ => some data
  | _, _ => none

/-- The step is no `getchar` into the caller's own trap context. -/
def CleanStep (e : Event cfg) (mode : Mode) (k : Kernel) : Prop :=
  ∀ d, storePointer e mode k = some d → pageOf d ≠ trapframeVpn

/-- **A clean step keeps the trap contexts intact.** -/
theorem Stepped.ready {e : Event cfg} {op : Op} (hwf : cfg.WellFormed) (h : Inv cfg mode k)
    (hr : Ready cfg k) (hclean : CleanStep e mode k) (hs : Stepped mode k e op mode' k') :
    Ready cfg k' := by
  have hc := h.live
  have hkeep := (hs.keeps hwf h).1
  cases hs with
  | idle => exact hr
  | compute => exact hr
  | store _ va b =>
    obtain he | ⟨f, c, hf, he⟩ := userStore_spec h.mem h.init (h.csrs rfl).satp va b
    · rwa [he]
    · rw [he] at hkeep ⊢
      refine hr.of_keeps hkeep (fun i _ hl hn => absurd hl hn) fun hl => ?_
      have hne : k.cur.cx ≠ f := (h.mem.leaf_ne_cx h.init hf).symm
      have htrap : ({ k with mem := k.mem.storeFrame f c } : Kernel).trap k.current =
          k.trap k.current := Mem.storeFrame_of_ne hne _
      rw [htrap]
      exact hr _ hc
  | @timer _ k₁ _ _ env _ he _ hy =>
    have hh := h.enter he
    have hok : KontOk k₁ k₁.current .timer := trivial
    exact sysYield_ready hh.onStack (fun _ => hok) hy (hh.ready hr)
  | interrupt out he _ => exact (h.enter he).ready hr
  | @ecall _ k₁ _ _ env _ _ _ he hi _ hsv =>
    have hh := h.enter he
    have hmv := hh.call_keeps h.mem
    refine hsv.ready hwf hmv.mem hh.call_onStack hh.live rfl rfl (fun d hd => hclean d ?_)
      ((hh.ready hr).storeCx hh.keeps.mem hh.live (.inr rfl) _)
    rw [hh.arg (by decide), hh.arg (by decide)] at hd
    rw [hh.scause_eq] at hi
    rw [storePointer, if_pos hi]
    exact hd
  | leave _ ht =>
    obtain ⟨c, rfl⟩ := ((trapReturn_spec h.mem h.init h.stack.onStack.satp).of_ok ht).shape
    exact hr
  | yielded => exact hr
  | getchar hsv =>
    exact hsv.ready hwf h.mem h.stack.onStack hc h.stack.kontOk rfl hclean hr
  | recycle hsv =>
    exact hsv.ready hwf h.mem h.stack.onStack hc h.stack.kontOk.1 h.stack.kontOk.2.1 nofun hr
  | @sysReturn _ _ _ cx v ht =>
    have hcx : cx = k.cur.cx := h.stack.kontOk
    subst hcx
    have hst := Keeps.storeCx h.mem hc (Function.update (k.mem.ram k.cur.cx) (cxReg 10) v)
    obtain ⟨c, rfl⟩ := ((trapReturn_spec hst.mem h.init h.stack.onStack.satp).of_ok ht).shape
    exact hr.storeCx h.mem hc (.inl (by decide)) v

/-- The first trap context is intact. -/
theorem Ready.boot {b : Start cfg} (hwf : cfg.WellFormed) (h : boot cfg b = .ok (.trapReturn, k)) :
    Ready cfg k := by
  obtain ⟨app, kroot, cx, root, N, D, m₀, m, -, hl, -, hr, -⟩ := (boot_spec hwf b).of_ok h
  obtain rfl := (Prod.mk.inj hr).2
  intro i hi
  rw [booted_live] at hi
  subst hi
  rw [Kernel.trap, booted_cx hl, booted_mem hl, Mem.storeFrame_self]
  exact TrapOk.initTrap ..

/-- **Every trap of a clean run reaches the handler.** -/
theorem enterTrap_of_ready (h : Inv cfg .user k) (hr : Ready cfg k) (scause : Word) :
    ∃ k₁, enterTrap cfg scause k = .ok k₁ ∧ Handling cfg scause k k₁ := by
  obtain ⟨k₁, he, -⟩ := (enterTrap_spec h.mem h.init (h.csrs rfl) scause).exists_ok fun e he =>
    he.2 (hr.kernelWords (h.stack.kstack _) h.live)
  exact ⟨k₁, he, h.enter he⟩

end RiscvOs
