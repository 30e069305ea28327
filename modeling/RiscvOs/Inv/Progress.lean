import RiscvOs.Inv.Words

/-!
# Runs that go on

When a step of the kernel does not stop: a yield under the stack invariant, a trap and its return
with intact trap contexts, a system call with enough frames.

* `sysYield_exists`: a yield never stops.
* `Health`: no task waits in a system call, all trap contexts are intact, and `n` frames are left.
* `Health.resume`, **`Health.timer`**, **`Health.call`**: the steps from there, and what they need.
-/

set_option autoImplicit false

namespace RiscvOs

open PageTableEntry

variable {cfg : Config} {mode mode' : Mode} {k k' : Kernel} {kont : Kont} {n : Slot}

/-! ## Yields -/

theorem switch_exists (env : Env cfg) (self : Kont) (h : OnStack cfg k) (hl : k.sched.Live n) :
    ∃ r, switch cfg env self k.current n (switching k n) = .ok r := by
  have hfields : (switching k n).cpu = k.cpu ∧ (switching k n).kstacks = k.kstacks := by
    rw [switching]
    split_ifs <;> exact ⟨rfl, rfl⟩
  obtain ⟨hcpu, hst⟩ := hfields
  have hsave := saveContext_eq (atSwitch cfg env k.cpu k.current)
    ((switching k n).tasks k.current).taskContext
  generalize hctx : saveContext (atSwitch cfg env k.cpu k.current)
    ((switching k n).tasks k.current).taskContext = ctx at hsave
  let r : Kernel := { (switching k n).setTask k.current
    { (switching k n).tasks k.current with taskContext := ctx } with
    kstacks := Function.update (switching k n).kstacks k.current (some ⟨ctx, self⟩) }
  suffices ∃ κ, resumeAt cfg r (r.tasks n).taskContext = .ok κ by
    obtain ⟨κ, hκ⟩ := this
    have hres : Outcome (resumeAt cfg r (r.tasks n).taskContext) (fun _ => True)
        fun _ => False := by
      rw [hκ]
      trivial
    have hsw : Outcome (switch cfg env self k.current n (switching k n)) (fun _ => True)
        fun _ => False := by
      simp only [switch, hcpu, h.stack, hctx]
      exact Outcome.bind hres fun _ _ => trivial
    obtain ⟨x, hx, -⟩ := hsw.exists_ok fun _ => id
    exact ⟨x, hx⟩
  by_cases hn : n = k.current
  · -- the task comes back to itself
    subst hn
    have htask : (r.tasks k.current).taskContext = ctx := by
      simp only [r, setTask_self]
    have hframe : r.kstacks k.current = some ⟨ctx, self⟩ := Function.update_self _ _ _
    have hra : ctx 0 = cfg.yieldRet := hsave.1.trans (atSwitch_ra _ _)
    refine ⟨self, ?_⟩
    rw [htask, resumeAt, if_neg (by rw [hra]; exact cfg.yieldRet_ne), if_pos hra, hsave.2,
      kernelStackOf_atSwitch, Option.bind_some, hframe]
    exact if_pos rfl
  · obtain ⟨κ, hκ⟩ := h.suspended n hn hl
    obtain ⟨st, ht⟩ := switching_tasks k n n
    have htask : r.tasks n = { k.tasks n with taskState := st } := (setTask_of_ne _ hn _).trans ht
    have hframe : r.kstacks n = k.kstacks n :=
      (Function.update_of_ne hn _ _).trans (congrFun hst n)
    exact ⟨κ, (hκ.congr ⟨by rw [htask], hframe, by rw [htask]; rfl⟩).resumeAt⟩

/-- **A yield never stops.** -/
theorem sysYield_exists (env : Env cfg) (self : Kont) (h : OnStack cfg k) {m : Slot}
    (hnext : k.sched.next = some m) : ∃ kont k', sysYield cfg env self k = .ok (kont, k') := by
  rw [sysYield_eq hnext]
  split_ifs with hl
  · obtain ⟨r, hr⟩ := switch_exists env self h hl
    exact ⟨r.1, r.2, hr⟩
  · exact ⟨_, _, rfl⟩

/-- The scheduler always looks at some slot. -/
theorem Tree.next_some {s : Sched} (h : Tree s) : ∃ m, s.next = some m := by
  have hpos : 0 < s.top := by
    rw [h.top]
    exact Finset.card_pos.mpr ⟨0, Sched.mem_liveSlots.mpr h.init⟩
  have hle : s.top ≤ maxTaskNum := by
    rw [h.top]
    exact (Finset.card_le_univ _).trans (Fintype.card_fin _).le
  have hmod := Nat.mod_lt (s.current.val + 1) hpos
  exact ⟨_, by rw [Sched.next, dif_pos ⟨hpos, by omega⟩]⟩

/-! ## States in which nobody waits -/

/-- Places of the kernel from which a task returns to its program at once. -/
def Calm : Kont → Prop
  | .timer | .trapReturn | .sysReturn _ _ => True
  | _ => False

/-- Every task is running its program or about to return to it, the trap contexts are intact, `n`
frames are free, and no program has more than `s` pages. -/
structure Health (cfg : Config) (mode : Mode) (k : Kernel) (n s : ℕ) : Prop
    extends Inv cfg mode k where
  ready : Ready cfg k
  parked : ∀ i, k.sched.Live i → (mode = .user → i ≠ k.current) →
    ∃ κ, Calm κ ∧ Thread cfg mode k i κ
  free : n ≤ k.mem.free.card
  size : ∀ i, k.sched.Live i → (k.tasks i).baseSize / 4096 ≤ s

theorem trapReturn_of_ready (h : MemInv cfg k) (hc : k.sched.Live k.current)
    (hsatp : k.cpu.satp = makeSatp k.kernelPagetable.rootPpn) (hr : Ready cfg k) :
    ∃ k', trapReturn cfg k = .ok k' ∧ Resumed k k' :=
  (trapReturn_spec h (live_init hc) hsatp).exists_ok fun _ he => by
    have := (hr _ hc).spp
    rw [Kernel.trap, show (k.mem.ram (k.tasks k.current).cx cxSstatus).getLsbD 8 = true from he.2]
      at this
    cases this

namespace Health

variable {n n' s : ℕ}

theorem mono (h : Health cfg mode k n s) (hn : n' ≤ n) : Health cfg mode k n' s :=
  { h with free := hn.trans h.free }

/-- **The state after a step**, from what the step did to the running task, to new tasks, to the
number of free frames and to the sizes. -/
theorem stepped_of_ready {e : Event cfg} (hwf : cfg.WellFormed) (h : Health cfg mode k n s)
    (hready : Ready cfg k') (hstep : step cfg e (.running mode k) = .running mode' k')
    (hself : k'.sched.Live k.current → (mode' = .user → k.current ≠ k'.current) →
      ∃ κ, Calm κ ∧ Thread cfg mode' k' k.current κ)
    (hnew : ∀ i, k'.sched.Live i → ¬ k.sched.Live i → (mode' = .user → i ≠ k'.current) →
      ∃ κ, Calm κ ∧ Thread cfg mode' k' i κ)
    (hfree : n' ≤ k'.mem.free.card)
    (hsize : ∀ i, k'.sched.Live i → (k'.tasks i).baseSize / 4096 ≤ s) :
    Health cfg mode' k' n' s where
  toInv := ((step_stepped hstep).inv hwf h.toInv).1
  ready := hready
  parked i hl hi := by
    by_cases hc : i = k.current
    · subst hc
      exact hself hl hi
    · by_cases hli : k.sched.Live i
      · obtain ⟨κ, hκ, ht⟩ := h.parked i hli fun _ => hc
        have hb := ((step_stepped hstep).stack h.stack h.live).2 i hc hli
        exact ⟨κ, hκ, ht.others (Ne.symm hc) hb⟩
      · exact hnew i hl hli hi
  free := hfree
  size := hsize

theorem stepped {e : Event cfg} (hwf : cfg.WellFormed) (h : Health cfg mode k n s)
    (hclean : CleanStep e mode k) (hstep : step cfg e (.running mode k) = .running mode' k')
    (hself : k'.sched.Live k.current → (mode' = .user → k.current ≠ k'.current) →
      ∃ κ, Calm κ ∧ Thread cfg mode' k' k.current κ)
    (hnew : ∀ i, k'.sched.Live i → ¬ k.sched.Live i → (mode' = .user → i ≠ k'.current) →
      ∃ κ, Calm κ ∧ Thread cfg mode' k' i κ)
    (hfree : n' ≤ k'.mem.free.card)
    (hsize : ∀ i, k'.sched.Live i → (k'.tasks i).baseSize / 4096 ≤ s) :
    Health cfg mode' k' n' s :=
  h.stepped_of_ready hwf ((step_stepped hstep).ready hwf h.toInv h.ready hclean) hstep hself hnew
    hfree hsize

/-- The user program computes. -/
theorem compute (hwf : cfg.WellFormed) (h : Health cfg .user k n s) (x : Fin 32 → Word)
    (pc : Word) : Health cfg .user { k with cpu := { k.cpu with x := x, pc := pc } } n s :=
  h.stepped (e := .compute x pc) hwf nofun rfl (fun _ hi => absurd rfl (hi rfl))
    (fun _ hl hn => absurd hl hn) h.free h.size

/-- **The running task returns to its program.** -/
theorem resume (hwf : cfg.WellFormed) {κ : Kont} (h : Health cfg (.kernel κ) k n s)
    (env : Env cfg) :
    ∃ k', step cfg (.resume env) (.running (.kernel κ) k) = .running .user k' ∧
      Health cfg .user k' n s ∧ k'.sched = k.sched := by
  obtain ⟨κ', hκ', ht⟩ := h.parked k.current h.live nofun
  obtain rfl := Mode.kernel.inj (ht.mode_eq rfl)
  have hsatp := h.stack.onStack.satp
  -- the state `trap_return` starts in
  obtain ⟨m, hfree, k', hstep, c, hk'⟩ : ∃ m, m.free = k.mem.free ∧ ∃ k',
      step cfg (.resume env) (.running (.kernel κ) k) = .running .user k' ∧
      ∃ c, k' = { k with mem := m, cpu := c } := by
    have hleave : κ = .timer ∨ κ = .trapReturn → ∃ m, m.free = k.mem.free ∧ ∃ k',
        step cfg (.resume env) (.running (.kernel κ) k) = .running .user k' ∧
        ∃ c, k' = { k with mem := m, cpu := c } := fun hκ => by
      obtain ⟨k', hk', hr⟩ := trapReturn_of_ready h.mem h.live hsatp h.ready
      obtain ⟨c, rfl⟩ := hr.shape
      refine ⟨k.mem, rfl, _, ?_, c, rfl⟩
      obtain rfl | rfl := hκ
      · simp only [step, runKont, hk']
        rfl
      · simp only [step, runKont, hk']
        rfl
    cases κ with
    | timer => exact hleave (.inl rfl)
    | trapReturn => exact hleave (.inr rfl)
    | sysReturn cx v =>
      have hcx : cx = k.cur.cx := h.stack.kontOk
      subst hcx
      have hst := Keeps.storeCx h.mem h.live (Function.update (k.mem.ram k.cur.cx) (cxReg 10) v)
      obtain ⟨k', hk', hr⟩ := trapReturn_of_ready
        (k := { k with mem := k.mem.store k.cur.cx (cxReg 10) v }) hst.mem h.live hsatp
        (h.ready.storeCx h.mem h.live (.inl (by decide)) v)
      obtain ⟨c, rfl⟩ := hr.shape
      refine ⟨k.mem.store k.cur.cx (cxReg 10) v, rfl, _, ?_, c, rfl⟩
      simp only [step, runKont, hk']
      rfl
    | sysYield => exact hκ'.elim
    | sysGetchar => exact hκ'.elim
    | sysRecycle => exact hκ'.elim
    | exit => exact hκ'.elim
  subst hk'
  refine ⟨_, hstep, h.stepped hwf ?_ hstep (fun _ hi => absurd rfl (hi rfl))
    (fun _ hl hn => absurd hl hn) (by rw [hfree]; exact h.free) h.size, rfl⟩
  intro d hd
  cases κ with
  | sysGetchar => exact hκ'.elim
  | _ => cases hd

end Health

theorem cleanStep_of_none {e : Event cfg} (h : storePointer e mode k = none) :
    CleanStep e mode k := fun d hd => by
  rw [h] at hd
  cases hd

/-- A task that returns to its program at once stores nothing and leaves the processes alone. -/
theorem Health.calm {κ : Kont} {n s : ℕ} (h : Health cfg (.kernel κ) k n s) (env : Env cfg) :
    CleanStep (.resume env) (.kernel κ) k ∧
      stepOp cfg (.resume env) (.running (.kernel κ) k) = .skip := by
  obtain ⟨κ', hκ, ht⟩ := h.parked k.current h.live nofun
  obtain rfl := Mode.kernel.inj (ht.mode_eq rfl)
  cases κ with
  | sysGetchar => exact hκ.elim
  | sysRecycle => exact hκ.elim
  | _ => exact ⟨cleanStep_of_none rfl, rfl⟩

/-! ## Interrupts -/

/-- The cause of a timer interrupt. -/
def timerCause : Word := 0x8000000000000005

/-- The cause of a system call. -/
def ecallCause : Word := 8

/-- **A timer interrupt** yields. -/
theorem Health.timer {n s : ℕ} (hwf : cfg.WellFormed) (h : Health cfg .user k n s)
    (env : Env cfg) :
    ∃ kont k', step cfg (.trap timerCause env) (.running .user k) = .running (.kernel kont) k' ∧
      Health cfg (.kernel kont) k' n s ∧ k'.sched = k.sched.yield ∧
      stepOp cfg (.trap timerCause env) (.running .user k) = .yield := by
  obtain ⟨k₁, he, hh⟩ := enterTrap_of_ready h.toInv h.ready timerCause
  have hok : KontOk k₁ k₁.current .timer := trivial
  obtain ⟨m, hm⟩ : ∃ m, k₁.sched.next = some m := by
    rw [hh.sched]
    exact h.tree.toTree.next_some
  obtain ⟨kont, k', hy⟩ := sysYield_exists env .timer hh.onStack hm
  have hsc : k₁.cpu.scause = timerCause := hh.scause_eq
  have hbit : timerCause.getLsbD 63 = true := by decide
  have hcode : timerCause &&& 0xfff = 5 := by decide
  have hstep : step cfg (.trap timerCause env) (.running .user k) = .running (.kernel kont) k' := by
    have hth : trapHandler cfg env k₁ = sysYield cfg env .timer k₁ := by
      simp only [trapHandler, hsc, hbit, hcode, if_true]
    simp only [step, takeTrap, he]
    change Sys.ofExcept (trapHandler cfg env k₁ >>= _) = _
    rw [hth, hy]
    rfl
  have hop : stepOp cfg (.trap timerCause env) (.running .user k) = .yield := by
    simp only [stepOp, he, trapOp, hsc, hbit, hcode, if_true]
  obtain ⟨hmem, -, hspace⟩ := sysYield_sameSpace hh.onStack (fun _ => hok) hy
  have hsched : k'.sched = k.sched.yield := by rw [sysYield_sched hy, hh.sched]
  obtain ⟨c, hk₁, -⟩ := hh.entered.shape
  refine ⟨kont, k', hstep, h.stepped hwf ?_ hstep (fun _ _ => ?_) (fun i hl hn => ?_) ?_
    (fun i hl => ?_), hsched, hop⟩
  · intro d hd
    rw [storePointer, if_neg (by rw [hbit]; decide)] at hd
    cases hd
  · have ht := sysYield_thread hh.onStack hh.live hok hy
    rw [hh.current] at ht
    exact ⟨.timer, trivial, ht⟩
  · rw [hsched, (Sched.sameProcs_yield _).live] at hl
    exact absurd hl hn
  · rw [hmem, hk₁]
    exact h.free
  · rw [hsched, (Sched.sameProcs_yield _).live] at hl
    rw [(hspace i).baseSize, hk₁]
    exact h.size i hl

/-! ## System calls -/

/-- An `ecall` calls `__SYSCALL` with the user's registers. -/
theorem step_ecall {k₁ : Kernel} (he : enterTrap cfg ecallCause k = .ok k₁)
    (hh : Handling cfg ecallCause k k₁) (env : Env cfg) :
    step cfg (.trap ecallCause env) (.running .user k) = .ofExcept
      (syscall cfg env k₁.cur.cx (k.cpu.reg 17) (k.cpu.reg 10) (k.cpu.reg 11) (moveSepc k₁) >>=
        fun r => .ok (.kernel r.1, r.2)) := by
  have hth := trapHandler_ecall env (k := k₁) (by rw [hh.scause_eq]; decide)
    (by rw [hh.scause_eq]; decide)
  rw [hh.arg (by decide), hh.arg (by decide), hh.arg (by decide)] at hth
  simp only [step, takeTrap, he]
  change Sys.ofExcept (trapHandler cfg env k₁ >>= _) = _
  rw [hth]

theorem stepOp_ecall {k₁ : Kernel} (he : enterTrap cfg ecallCause k = .ok k₁)
    (hh : Handling cfg ecallCause k k₁) (env : Env cfg) :
    stepOp cfg (.trap ecallCause env) (.running .user k) =
      syscallOp env (k.cpu.reg 17) (k.cpu.reg 10) (moveSepc k₁) := by
  have hsc : k₁.cpu.scause = ecallCause := hh.scause_eq
  have hbit : ecallCause.getLsbD 63 = false := by decide
  have hcode : ecallCause &&& 0xfff = 8 := by decide
  simp only [stepOp, he, trapOp, hsc, hbit, hcode, if_true, Bool.false_eq_true, if_false]
  rw [hh.arg (r := 17) (by decide), hh.arg (r := 10) (by decide)]

/-- The state in which `__SYSCALL` is called, and the step that calls it. -/
theorem Health.call {n s : ℕ} (h : Health cfg .user k n s) (env : Env cfg) :
    ∃ k₁, Handling cfg ecallCause k k₁ ∧ MemInv cfg (moveSepc k₁) ∧ OnStack cfg (moveSepc k₁) ∧
      n ≤ (moveSepc k₁).mem.free.card ∧ (moveSepc k₁).tasks = k.tasks ∧
      step cfg (.trap ecallCause env) (.running .user k) = .ofExcept
        (syscall cfg env k₁.cur.cx (k.cpu.reg 17) (k.cpu.reg 10) (k.cpu.reg 11) (moveSepc k₁) >>=
          fun r => .ok (.kernel r.1, r.2)) ∧
      stepOp cfg (.trap ecallCause env) (.running .user k) =
        syscallOp env (k.cpu.reg 17) (k.cpu.reg 10) (moveSepc k₁) := by
  obtain ⟨k₁, he, hh⟩ := enterTrap_of_ready h.toInv h.ready ecallCause
  obtain ⟨c, hk₁, -⟩ := hh.entered.shape
  refine ⟨k₁, hh, (hh.call_keeps h.mem).mem, hh.call_onStack, ?_, hh.call_tasks,
    step_ecall he hh env, stepOp_ecall he hh env⟩
  rw [hk₁]
  exact h.free

/-! ### Exit -/

section Exit

variable {env : Env cfg} {code : Word}

/-- An exit that finds a live successor switches to it. -/
theorem exit_of_handsOver (env : Env cfg) (code : Word) (h : OnStack cfg k)
    (hpid : k.cur.pid ≠ 0) (ho : k.sched.HandsOver) :
    ∃ kont k', exitCurrentAndRunNext cfg env code k = .ok (kont, k') ∧
      sysYield cfg env .exit (becomeZombie code k) = .ok (kont, k') ∧ kont ≠ .exit := by
  obtain ⟨n, hn, hl⟩ := ho
  rw [← becomeZombie_sched code] at hn hl
  have hdead : ¬ (becomeZombie code k).sched.Live (becomeZombie code k).current := fun hlive => by
    rw [becomeZombie_sched] at hlive
    exact (Tree.live_zombify.mp hlive).2 rfl
  obtain ⟨kont, k', hy⟩ := sysYield_exists env .exit (becomeZombie_stack h code).1 hn
  have hne : kont ≠ .exit := by
    rintro rfl
    obtain ⟨rfl, -⟩ | ⟨-, hst, -⟩ := sysYield_stack (becomeZombie_stack h code).1
      (fun hlive => absurd hlive hdead) hy
    · -- the yield has switched, to a live slot
      have hcur := congrArg Sched.current (sysYield_sched hy)
      rw [Sched.yield_of_live hn hl] at hcur
      exact hdead (show (becomeZombie code k).sched.Live (becomeZombie code k).sched.current from
        hcur ▸ hl)
    · exact hst.kontOk
  refine ⟨kont, k', ?_, hy, hne⟩
  simp only [exitCurrentAndRunNext, if_neg hpid]
  rw [hy]
  exact if_neg hne

/-- An exit that finds none panics. -/
theorem exit_of_not_handsOver (ht : Tree k.sched.zombify) (hpid : k.cur.pid ≠ 0)
    (ho : ¬ k.sched.HandsOver) :
    exitCurrentAndRunNext cfg env code k = .error (.panic "Zombie exit failed") := by
  obtain ⟨n, hn⟩ := ht.next_some
  have hl : ¬ k.sched.zombify.Live n := fun hl => ho ⟨n, hn, hl⟩
  rw [← becomeZombie_sched code] at hn hl
  have hy : sysYield cfg env .exit (becomeZombie code k) = .ok (.exit, becomeZombie code k) := by
    rw [sysYield_eq hn, if_neg hl]
  simp only [exitCurrentAndRunNext, if_neg hpid]
  rw [hy]
  rfl

end Exit

namespace Health

variable {n n' s : ℕ} (env : Env cfg)

/-- **A fork** with enough frames goes through. -/
theorem fork (hwf : cfg.WellFormed) (h : Health cfg .user k n s)
    (hid : SyscallId.ofWord (k.cpu.reg 17) = some .fork)
    (hclean : CleanStep (.trap ecallCause env) .user k) (hn : n' + (6 + 3 * s) ≤ n) :
    ∃ kont k', step cfg (.trap ecallCause env) (.running .user k) = .running (.kernel kont) k' ∧
      Health cfg (.kernel kont) k' n' s ∧ k'.sched = k.sched.fork ∧
      stepOp cfg (.trap ecallCause env) (.running .user k) = .fork := by
  obtain ⟨k₁, hh, hmem, hon, hfree, htasks, hstep, hop⟩ := h.call env
  have hlive : (moveSepc k₁).sched.Live (moveSepc k₁).current := hh.live
  have hsched : (moveSepc k₁).sched = k.sched := hh.sched
  have hsize : (moveSepc k₁).cur.baseSize / 4096 ≤ s := by
    rw [Kernel.cur, htasks]
    exact h.size _ (hsched ▸ hlive)
  obtain ⟨⟨pid, k'⟩, hf, hres⟩ := (sysFork_spec hmem (live_init hlive)).exists_ok
    fun e he => by have := he.2; omega
  have hs : syscall cfg env k₁.cur.cx (k.cpu.reg 17) (k.cpu.reg 10) (k.cpu.reg 11) (moveSepc k₁) =
      .ok (.sysReturn k₁.cur.cx (pid.signExtend 64), k') := by
    simp only [syscall, hid, hf]
    rfl
  rw [hs] at hstep
  have hfs : k'.sched = k.sched.fork := by rw [sysFork_sched hlive hf, hsched]
  have hret := sysFork_stack hon hlive hf
  have hcur : k'.current = k.current := hret.current.trans hh.current
  refine ⟨_, k', hstep, h.stepped hwf hclean hstep
    (fun _ _ => ⟨.sysReturn k₁.cur.cx _, trivial, .of_current hcur⟩)
    (fun i hl hi _ => ?_) ?_ (fun i hl => ?_), hfs, ?_⟩
  · -- the child starts at `trap_return`
    obtain ⟨hfull, hr⟩ | ⟨p, f, root, m, hfk, hr⟩ := hres
    · rw [(Prod.mk.inj hr).2] at hl
      exact absurd (hsched ▸ hl) hi
    obtain rfl := (Prod.mk.inj hr).2
    have hip : i = p := by
      have hfl := hl
      rw [hfs, Tree.live_fork (hsched ▸ hfk.slot : k.sched.freeSlot = some p)] at hfl
      exact hfl.resolve_right hi
    subst hip
    have hic : i ≠ (moveSepc k₁).current := fun he =>
      hi (by rw [he, show (moveSepc k₁).current = k.current from hh.current]; exact h.live)
    exact ⟨.trapReturn, trivial, hret.onStack.thread_child hic hl⟩
  · obtain ⟨hfull, hr⟩ | ⟨p, f, root, m, hfk, hr⟩ := hres
    · rw [(Prod.mk.inj hr).2]
      exact (by omega : n' ≤ n).trans hfree
    · rw [(Prod.mk.inj hr).2]
      have hc := hfk.grows.card
      have hle := hfk.card
      change n' ≤ m.free.card
      omega
  · obtain ⟨hfull, hr⟩ | ⟨p, f, root, m, hfk, hr⟩ := hres
    · rw [(Prod.mk.inj hr).2] at hl ⊢
      rw [show ((moveSepc k₁).printf "child_proc failed!" []).tasks = k.tasks from htasks]
      exact h.size i (hsched ▸ hl)
    · obtain rfl := (Prod.mk.inj hr).2
      rw [hfs, Tree.live_fork (hsched ▸ hfk.slot : k.sched.freeSlot = some p)] at hl
      by_cases hip : i = p
      · subst hip
        simp only [afterFork, Function.update_self]
        exact hsize
      · simp only [afterFork, Function.update_of_ne hip]
        rw [htasks]
        exact h.size i (hl.resolve_left hip)
  · rw [hop, syscallOp, hid]

/-- **An exit** that finds a successor goes through. -/
theorem exit (hwf : cfg.WellFormed) (h : Health cfg .user k n s)
    (hid : SyscallId.ofWord (k.cpu.reg 17) = some .exit)
    (hclean : CleanStep (.trap ecallCause env) .user k) (hpid : k.cur.pid ≠ 0)
    (ho : k.sched.HandsOver) :
    ∃ kont k', step cfg (.trap ecallCause env) (.running .user k) = .running (.kernel kont) k' ∧
      Health cfg (.kernel kont) k' n s ∧ k'.sched = k.sched.zombify.yield ∧
      stepOp cfg (.trap ecallCause env) (.running .user k) = .exit := by
  obtain ⟨k₁, hh, hmem, hon, hfree, htasks, hstep, hop⟩ := h.call env
  have hsched : (moveSepc k₁).sched = k.sched := hh.sched
  have hlive : (moveSepc k₁).sched.Live (moveSepc k₁).current := hh.live
  have hcur : (moveSepc k₁).current = k.current := hh.current
  have hpid' : (moveSepc k₁).cur.pid ≠ 0 := by
    rw [Kernel.cur, htasks, hcur]
    exact hpid
  obtain ⟨kont, k', hx, hy, -⟩ := exit_of_handsOver env (k.cpu.reg 10) hon hpid'
    (hsched.symm ▸ ho)
  have hs : syscall cfg env k₁.cur.cx (k.cpu.reg 17) (k.cpu.reg 10) (k.cpu.reg 11) (moveSepc k₁) =
      .ok (kont, k') := by
    simp only [syscall, hid, hx]
  rw [hs] at hstep
  have hes : k'.sched = k.sched.zombify.yield := by
    rw [sysYield_sched hy, becomeZombie_sched, hsched]
  have hsub : ∀ i, k'.sched.Live i → k.sched.Live i ∧ i ≠ k.current := fun i hl => by
    rw [hes, (Sched.sameProcs_yield _).live] at hl
    exact Tree.live_zombify.mp hl
  have hdead : ¬ (becomeZombie (k.cpu.reg 10) (moveSepc k₁)).sched.Live
      (becomeZombie (k.cpu.reg 10) (moveSepc k₁)).current := fun hl => by
    rw [becomeZombie_sched] at hl
    exact (Tree.live_zombify.mp hl).2 rfl
  obtain ⟨hm, -, hspace⟩ := sysYield_sameSpace (becomeZombie_stack hon _).1
    (fun hl => absurd hl hdead) hy
  refine ⟨kont, k', hstep, h.stepped hwf hclean hstep
    (fun hl _ => absurd rfl (hsub _ hl).2) (fun i hl hi => absurd (hsub i hl).1 hi) ?_
    (fun i hl => ?_), hes, ?_⟩
  · rw [hm]
    exact hfree
  · rw [(hspace i).baseSize, (becomeZombie_sameSpace _ hlive i).baseSize, htasks]
    exact h.size i (hsub i hl).1
  · rw [hop, syscallOp, hid]

/-- An exit that finds none is the end. -/
theorem exit_stops (h : Health cfg .user k n s)
    (hid : SyscallId.ofWord (k.cpu.reg 17) = some .exit) (hpid : k.cur.pid ≠ 0)
    (ho : ¬ k.sched.HandsOver) : step cfg (.trap ecallCause env) (.running .user k) =
      .halted (.panic "Zombie exit failed") := by
  obtain ⟨k₁, hh, -, -, -, htasks, hstep, -⟩ := h.call env
  have hsched : (moveSepc k₁).sched = k.sched := hh.sched
  have hpid' : (moveSepc k₁).cur.pid ≠ 0 := by
    rw [Kernel.cur, htasks, show (moveSepc k₁).current = k.current from hh.current]
    exact hpid
  have htree := h.tree.zombify h.live (h.tree.current_ne_zero hpid)
  rw [hstep]
  simp only [syscall, hid]
  rw [exit_of_not_handsOver (hsched.symm ▸ htree) hpid' (hsched.symm ▸ ho)]
  rfl

/-- **A getchar** goes through when the console has a character and the pointer leads to a frame of
the program. -/
theorem getchar (hwf : cfg.WellFormed) (h : Health cfg .user k n s)
    (hid : SyscallId.ofWord (k.cpu.reg 17) = some .getChar) (hfd : k.cpu.reg 10 = stdin)
    (hcon : env.console ≠ -1) {uptr e : Word} (hptr : k.cpu.reg 11 = uptr)
    (he : lookup k.mem.ram k.cur.pagetable.rootPpn (pageOf uptr) = some e)
    (hown : ppn e ∈ k.owned) :
    ∃ k₁ k', Handling cfg ecallCause k k₁ ∧
      k' = { moveSepc k₁ with
        mem := (moveSepc k₁).mem.storeByte (ppn e * 4096 + uptr.toNat % 4096)
          (env.console.setWidth 8) } ∧
      step cfg (.trap ecallCause env) (.running .user k) =
        .running (.kernel (.sysReturn k₁.cur.cx 0)) k' ∧
      k'.sched = k.sched ∧
      (Ready cfg k' → Health cfg (.kernel (.sysReturn k₁.cur.cx 0)) k' n s) := by
  obtain ⟨k₁, hh, -, -, hfree, htasks, hstep, -⟩ := h.call env
  have hl : lookup (moveSepc k₁).mem.ram (moveSepc k₁).cur.pagetable.rootPpn (pageOf uptr) =
      some e := by
    rw [hh.call_cur, hh.call_lookup h.mem h.init (pageOf_lt _)]
    exact he
  obtain ⟨k', hk', hput⟩ : ∃ k' : Kernel, k' = { moveSepc k₁ with
        mem := (moveSepc k₁).mem.storeByte (ppn e * 4096 + uptr.toNat % 4096)
          (env.console.setWidth 8) } ∧
      kernelStoreByte cfg (ppn e * 4096 + uptr.toNat % 4096) (env.console.setWidth 8)
        (moveSepc k₁) = .ok k' :=
    ⟨_, rfl, if_pos (h.mem.frame_mapped hown (Nat.mod_lt _ (by decide)))⟩
  have hs : syscall cfg env k₁.cur.cx (k.cpu.reg 17) (k.cpu.reg 10) (k.cpu.reg 11) (moveSepc k₁) =
      .ok (.sysReturn k₁.cur.cx 0, k') := by
    simp only [syscall, hid, hfd, hptr, sysGetchar, sysGetcharLoop, if_neg hcon, if_true]
    rw [uptrToKptr_of_lookup hl, ok_bind, hput]
    rfl
  rw [hs] at hstep
  subst hk'
  have hsched : (moveSepc k₁).sched = k.sched := hh.sched
  refine ⟨k₁, _, hh, rfl, hstep, hsched, fun hr => h.stepped_of_ready hwf hr hstep
    (fun _ _ => ⟨.sysReturn k₁.cur.cx 0, trivial, .of_current hh.current⟩)
    (fun i hl hn => absurd (hsched ▸ hl) hn) hfree fun i hl => ?_⟩
  change ((moveSepc k₁).tasks i).baseSize / 4096 ≤ s
  rw [htasks]
  exact h.size i (hsched ▸ hl)

/-- A getchar into a page of the program. -/
theorem getchar_page (hwf : cfg.WellFormed) (h : Health cfg .user k n s)
    (hid : SyscallId.ofWord (k.cpu.reg 17) = some .getChar) (hfd : k.cpu.reg 10 = stdin)
    (hcon : env.console ≠ -1) {uptr e : Word} (hptr : k.cpu.reg 11 = uptr)
    (hlow : pageOf uptr < trapframeVpn)
    (he : lookup k.mem.ram k.cur.pagetable.rootPpn (pageOf uptr) = some e) :
    ∃ κ k', step cfg (.trap ecallCause env) (.running .user k) = .running (.kernel κ) k' ∧
      Health cfg (.kernel κ) k' n s ∧ k'.sched = k.sched ∧
      CleanStep (.trap ecallCause env) .user k := by
  have hclean : CleanStep (.trap ecallCause env) .user k := fun d hd => by
    rw [storePointer, if_pos (by decide), getcharData, if_pos hfd, hptr] at hd
    rw [← Option.some.inj hd]
    exact hlow.ne
  have hown : ppn e ∈ k.owned := by
    have htop : trapframeVpn < trampolineVpn := by decide
    obtain ⟨-, -, hf⟩ | ⟨hv, -⟩ | ⟨hv, -⟩ := h.mem.lookup_cases h.init (pageOf_lt _) he
    · exact MemInv.frames_mem h.init (Multiset.mem_add.mpr (.inr hf))
    · exact absurd hv hlow.ne
    · omega
  obtain ⟨k₁, k', -, -, hstep, hsched, hhealth⟩ := h.getchar env hwf hid hfd hcon hptr he hown
  exact ⟨_, k', hstep, hhealth ((step_stepped hstep).ready hwf h.toInv h.ready hclean), hsched,
    hclean⟩

/-- **A recycle** that finds a zombie frees it. -/
theorem recycle (h : Health cfg .user k n s)
    (hid : SyscallId.ofWord (k.cpu.reg 17) = some .recycle) {child : Slot}
    (hz : zombieChild k.current k = some child) :
    ∃ cx k', step cfg (.trap ecallCause env) (.running .user k) =
        .running (.kernel (.sysReturn cx ((k.tasks child).pid.signExtend 64))) k' ∧
      k'.sched = k.sched.reap child ∧
      stepOp cfg (.trap ecallCause env) (.running .user k) = .reap child := by
  obtain ⟨k₁, hh, hmem, -, -, htasks, hstep, hop⟩ := h.call env
  have hcur : (moveSepc k₁).current = k.current := hh.current
  have hz' : zombieChild (moveSepc k₁).current (moveSepc k₁) = some child := by
    rw [zombieChild, htasks, hcur]
    exact hz
  have hinit : ((moveSepc k₁).tasks child).taskState ≠ .unInit := by
    rw [(zombie_of_zombieChild hz').2]
    decide
  obtain ⟨k', hf, -⟩ := (freeChild_spec hmem hinit).exists_ok fun _ => id
  refine ⟨k₁.cur.cx, k'.printf "free pid:%d\n" [.num (k.tasks child).pid.toNat], ?_, ?_, ?_⟩
  · have hz'' := hz'
    rw [zombieChild] at hz''
    rw [hstep, ← htasks]
    simp only [syscall, hid, sysRecycleLoop, hz'', hf]
    rfl
  · exact (freeChild_sched hf).trans (congrArg (Sched.reap · child) hh.sched)
  · rw [hop, syscallOp, hid]
    simp only [recycleOp, hz']

end Health

end RiscvOs
