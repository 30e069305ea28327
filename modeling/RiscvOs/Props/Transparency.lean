import RiscvOs.Inv.Histories

/-!
# What a program sees of the kernel

A task that enters the kernel goes on where its trap context says, whatever the other tasks have
done in between.

* `MemInv.userPage_congr`: a task sees its own frames only.
* `interrupted_run`, `called_run`, `child_back`: a task away after an interrupt, in a system call,
  or just forked.
* **`preemption_transparent`**: an interrupt changes nothing.
* `charRead`: the character a `getchar` takes; `leaveFrame`: the trap context a call leaves with.
* **`syscall_return`**, `returns_past_next`: a system call changes `a0`, and skips an instruction
  unless it is made to write over its own return address.
-/

set_option autoImplicit false

namespace RiscvOs

open PageTableEntry

variable {cfg : Config} {mode mode' : Mode} {k k' : Kernel} {κ : Kont}

/-! ## User memory -/

/-- A page the user may access: its permissions and its bytes. -/
def Kernel.userPage (k : Kernel) (i : Slot) (v : ℕ) : Option (Byte × Frame) :=
  (lookup k.mem.ram (k.tasks i).pagetable.rootPpn v).bind fun e =>
    if has e pteU then some (flags e, k.mem.ram (ppn e)) else none

section UserPage

variable {i : Slot} (h : MemInv cfg k) (hi : (k.tasks i).taskState ≠ .unInit)

include h hi

theorem MemInv.userPage_congr (k' : Kernel) (hroot : (k'.tasks i).pagetable = (k.tasks i).pagetable)
    (hag : ∀ f ∈ (k.tasks i).ownFrames k.mem.ram, k'.mem.ram f = k.mem.ram f) {v : ℕ}
    (hv : v < 2 ^ 27) : k'.userPage i v = k.userPage i v := by
  have hl : lookup k'.mem.ram (k.tasks i).pagetable.rootPpn v =
      lookup k.mem.ram (k.tasks i).pagetable.rootPpn v :=
    ((h.task i hi).space.table.congr fun f hf => hag f (Multiset.mem_add.mpr (.inr hf))).lookup v hv
  rw [Kernel.userPage, Kernel.userPage, hroot, hl]
  cases he : lookup k.mem.ram (k.tasks i).pagetable.rootPpn v with
  | none => rfl
  | some e =>
    rw [Option.bind_some, Option.bind_some]
    split_ifs with hu
    · obtain ⟨-, -, hf⟩ | ⟨-, rfl⟩ | ⟨-, rfl⟩ := h.lookup_cases hi hv he
      · rw [hag _ (Multiset.mem_add.mpr (.inl hf))]
      · rw [has_trapPage (h.cx_lt hi)] at hu
        cases hu
      · rw [has_trampolinePage cfg.trampolinePpn_lt] at hu
        cases hu
    · rfl

theorem Untouched.userPage_eq (hu : Untouched k k' i) {v : ℕ} (hv : v < 2 ^ 27) :
    k'.userPage i v = k.userPage i v := by
  refine h.userPage_congr hi k' hu.space.pagetable (fun f hf => hu.ram f ?_) hv
  rw [TaskControlBlock.frames_split]
  exact Multiset.mem_add.mpr (.inl hf)

theorem MemInv.userPage_storeCx (c : Frame) {v : ℕ} (hv : v < 2 ^ 27) :
    ({ k with mem := k.mem.storeFrame (k.tasks i).cx c } : Kernel).userPage i v =
      k.userPage i v := by
  refine h.userPage_congr hi { k with mem := k.mem.storeFrame (k.tasks i).cx c } rfl
    (fun f hf => ?_) hv
  have hne : f ≠ (k.tasks i).cx := fun he => h.cx_not_mem_own hi (he ▸ hf)
  exact Mem.storeFrame_of_ne hne c

end UserPage

/-! ## Interrupts -/

section Interrupt

variable {t : Slot} {F : Frame} {M : ℕ → Option (Byte × Frame)} {es : List (Event cfg)}

/-- **A task away after an interrupt** comes back with its trap context and its memory. -/
theorem interrupted_run (hwf : cfg.WellFormed) (hi : Inv cfg mode k) (hl : k.sched.Live t)
    (ht : Thread cfg mode k t κ) (hκ : κ = .trapReturn ∨ κ = .timer) (hF : k.trap t = F)
    (hM : ∀ v < 2 ^ 27, k.userPage t v = M v)
    (haway : Along (fun _ mode k => Away t mode k) es (.running mode k))
    (hrun : run cfg es (.running mode k) = .running .user k') (hback : k'.current = t) :
    (∀ r, r ≠ 0 → k'.cpu.x r = F (cxReg r)) ∧ k'.cpu.pc = F cxSepc ∧ UserCsrs k' ∧
      ∀ v < 2 ^ 27, k'.userPage t v = M v := by
  obtain ⟨es₁, e, κ₁, k₁, -, -, ⟨hκ₁, hF₁, hM₁⟩, hb⟩ := away_run
    (Q := fun κ k => (κ = .trapReturn ∨ κ = .timer) ∧ k.trap t = F ∧
      ∀ v < 2 ^ 27, k.userPage t v = M v) hwf
    (fun mode κ k k' hi hl hu hq => ⟨hq.1, (hu.trap_eq).trans hq.2.1,
      fun v hv => (hu.userPage_eq hi.mem (live_init hl) hv).trans (hq.2.2 v hv)⟩)
    (fun env op κ κ' k k' hi hc hq hs => by
      -- such a task goes straight back to its program
      cases hs with
      | idle => exact ⟨κ, .of_current hc, hq⟩
      | yielded => exact absurd hq.1 (by rintro (h | h) <;> cases h)
      | getchar => exact absurd hq.1 (by rintro (h | h) <;> cases h)
      | recycle => exact absurd hq.1 (by rintro (h | h) <;> cases h))
    hi hl ht ⟨hκ, hF, hM⟩ haway hrun hback
  obtain ⟨hi₁, rfl, env, hs⟩ := hb
  generalize stepOp cfg _ _ = op at hs
  cases hs with
  | leave _ hr =>
    have hres := (trapReturn_spec hi₁.mem hi₁.init hi₁.stack.onStack.satp).of_ok hr
    obtain ⟨c, hk'⟩ := hres.shape
    refine ⟨fun r h₀ => (hres.regs r h₀).trans (congrFun hF₁ _), hres.pc.trans (congrFun hF₁ _),
      hres.csrs, fun v hv => ?_⟩
    rw [← hM₁ v hv, hk']
    rfl
  | sysReturn => exact absurd hκ₁ (by rintro (h | h) <;> cases h)

end Interrupt

/-- **Preemption is transparent.** A task that enters the kernel by an interrupt is in the same
state when it next runs its program: the same registers, program counter, address space and user
memory, whatever the others do in between. -/
theorem preemption_transparent (hwf : cfg.WellFormed) (hreach : Reachable cfg (.running .user k))
    {scause : Word} (hint : scause.getLsbD 63 = true) {env : Env cfg} {k₁ : Kernel}
    (hstep : step cfg (.trap scause env) (.running .user k) = .running mode k₁)
    {es : List (Event cfg)}
    (haway : Along (fun _ mode k' => Away k.current mode k') es (.running mode k₁))
    (hrun : run cfg es (.running mode k₁) = .running .user k') (hback : k'.current = k.current) :
    (∀ r, r ≠ 0 → k'.cpu.x r = k.cpu.x r) ∧ k'.cpu.pc = k.cpu.pc ∧
      (∀ v < 2 ^ 27, k'.userPage k.current v = k.userPage k.current v) ∧
      k'.cpu.satp = makeSatp k'.cur.pagetable.rootPpn ∧
      k'.cpu.sscratch = BitVec.ofNat 64 trapframeVa := by
  have h := hreach.inv hwf
  have hs := step_stepped hstep
  have hi₁ := (hs.inv hwf h).1
  obtain ⟨kont, rfl⟩ := step_trap_kernel hstep
  -- where the task is after the trap
  obtain ⟨κ, k₀, hh, hl, ht, hκ, hmem, hsame⟩ : ∃ κ k₀, Handling cfg scause k k₀ ∧
      k₁.sched.Live k.current ∧ Thread cfg (.kernel kont) k₁ k.current κ ∧
      (κ = .trapReturn ∨ κ = .timer) ∧ k₁.mem.ram = k₀.mem.ram ∧
      (k₀.tasks k.current).SameSpace (k₁.tasks k.current) := by
    generalize stepOp cfg _ _ = op at hs
    cases hs with
    | @timer _ k₀ _ _ _ kont he _ hy =>
      have hh := h.enter he
      have hok : KontOk k₀ k₀.current .timer := trivial
      obtain ⟨hm, -, hsp⟩ := sysYield_sameSpace hh.onStack (fun _ => hok) hy
      have hth := sysYield_thread hh.onStack hh.live hok hy
      rw [hh.current] at hth
      refine ⟨.timer, k₀, hh, ?_, hth, .inr rfl, by rw [hm], hsp _⟩
      rw [sysYield_sched hy, (Sched.sameProcs_yield _).live, hh.sched]
      exact h.live
    | interrupt out he =>
      have hh := h.enter he
      exact ⟨.trapReturn, _, hh, hh.live_of_live h.live, .of_current hh.current, .inl rfl, rfl,
        .refl _⟩
    | ecall he hc =>
      rw [(h.enter he).scause_eq, hint] at hc
      cases hc
  -- what it has left there
  have hF : k₁.trap k.current = savedFrame k scause := by
    rw [← hh.entered.trap, Kernel.trap, Kernel.trap, hsame.cx, hmem]
  have hM : ∀ v < 2 ^ 27, k₁.userPage k.current v = k.userPage k.current v := fun v hv => by
    obtain ⟨c, hk₀, -⟩ := hh.entered.shape
    rw [← h.mem.userPage_storeCx h.init _ hv, Kernel.userPage, hsame.pagetable, hmem, hk₀]
    rfl
  obtain ⟨hx, hpc, hcsrs, hM'⟩ := interrupted_run hwf hi₁ hl ht hκ hF hM haway hrun hback
  refine ⟨fun r hr => ?_, hpc.trans (savedFrame_sepc k scause), hM', hcsrs.satp, hcsrs.sscratch⟩
  rw [hx r hr, savedFrame_reg k scause hr, Cpu.reg, if_neg hr]

/-- A parent is interrupted, its child runs and is interrupted in turn. -/
theorem preemption_transparent_child : ∃ (k k₁ k' : Kernel) (mode : Mode) (es : List (Event tiny)),
    Reachable tiny (.running .user k) ∧
    step tiny (.trap timerCause (tinyEnv (-1) 0)) (.running .user k) = .running mode k₁ ∧
    k₁.current ≠ k.current ∧ run tiny es (.running mode k₁) = .running .user k' ∧
    k'.current = k.current ∧ k'.cpu.pc = k.cpu.pc ∧ ∀ r, r ≠ 0 → k'.cpu.x r = k.cpu.x r := by
  obtain ⟨es, k, hrun, h, hs⟩ := tiny_history 0
    (show [Op.fork].length ≤ 1000 by decide) (by decide +kernel)
  obtain ⟨κ₁, k₁, hstep₁, h₁, hs₁, -⟩ := h.timer tiny_wf (tinyEnv (-1) 0)
  obtain ⟨k₂, hstep₂, h₂, hs₂⟩ := h₁.resume tiny_wf (tinyEnv (-1) 0)
  obtain ⟨κ₃, k₃, hstep₃, h₃, hs₃, -⟩ := h₂.timer tiny_wf (tinyEnv (-1) 0)
  obtain ⟨k₄, hstep₄, -, hs₄⟩ := h₃.resume tiny_wf (tinyEnv (-1) 0)
  have hcur : k.sched.current = 0 := by
    rw [hs]
    decide +kernel
  have hcur₂ : k₂.sched.current = 1 := by
    rw [hs₂, hs₁, hs]
    decide +kernel
  have hcur₄ : k₄.sched.current = 0 := by
    rw [hs₄, hs₃, hs₂, hs₁, hs]
    decide +kernel
  have hne : k₂.current ≠ k.current := fun he => by
    have := hcur₂.symm.trans (he.trans hcur)
    exact absurd this (by decide)
  have hrun' : run tiny [.resume (tinyEnv (-1) 0), .trap timerCause (tinyEnv (-1) 0),
      .resume (tinyEnv (-1) 0)] (.running (.kernel κ₁) k₁) = .running .user k₄ := by
    rw [run_cons, hstep₂, run_cons, hstep₃, run_cons, hstep₄, run_nil]
  have haway : Along (fun _ mode k' => Away k.current mode k') [.resume (tinyEnv (-1) 0),
      .trap timerCause (tinyEnv (-1) 0), .resume (tinyEnv (-1) 0)] (.running (.kernel κ₁) k₁) := by
    refine ⟨?_, ?_, ?_, trivial⟩
    · rintro _ _ he ⟨rfl, -⟩
      cases he
    · rintro _ _ he ⟨-, hc⟩
      rw [hstep₂] at he
      obtain ⟨-, rfl⟩ := Sys.running.inj he
      exact hne hc
    · rintro _ _ he ⟨rfl, -⟩
      rw [hstep₂, hstep₃] at he
      cases he
  have hback : k₄.current = k.current := hcur₄.trans hcur.symm
  obtain ⟨hx, hpc, -⟩ := preemption_transparent tiny_wf ⟨_, es, hrun⟩ (by decide) hstep₁ haway hrun'
    hback
  refine ⟨k, k₁, k₄, _, _, ⟨_, es, hrun⟩, hstep₁, ?_, hrun', hback, hpc, hx⟩
  exact fun he => hne ((congrArg Sched.current hs₂).trans he)

/-! ## System calls -/

/-- The character that the console has when the task enters the kernel, or when its `__sys_getchar`
asks again. -/
def charOf (t : Slot) : Event cfg → Sys → Option (BitVec 32)
  | .trap _ env, .running .user k => if k.current = t then env.char else none
  | .resume env, .running (.kernel (.sysGetchar _ _)) k =>
    if k.current = t then env.char else none
  | _, _ => none

/-- The first such character of a run, which is the one that `__sys_getchar` takes. -/
def charRead (t : Slot) : List (Event cfg) → Sys → Option (BitVec 32)
  | [], _ => none
  | e :: es, s => (charOf t e s).or (charRead t es (step cfg e s))

section Char

variable {t : Slot} {e : Event cfg} {es : List (Event cfg)}

/-- The turns of others do not count. -/
theorem charRead_of_ne (h : k.current ≠ t)
    (hstep : step cfg e (.running mode k) = .running mode' k') :
    charRead t (e :: es) (.running mode k) = charRead t es (.running mode' k') := by
  have hnone : charOf t e (.running mode k) = none := by
    unfold charOf
    split
    · next heq => exact if_neg ((Sys.running.inj heq).2 ▸ h)
    · next heq => exact if_neg ((Sys.running.inj heq).2 ▸ h)
    · rfl
  rw [charRead, hnone, Option.none_or, hstep]

/-- In the kernel only `resume` counts. -/
theorem charRead_idle (h : ∀ env, e ≠ .resume env) :
    charRead t (e :: es) (.running (.kernel κ) k) = charRead t es (.running (.kernel κ) k) := by
  cases e with
  | resume env => exact absurd rfl (h env)
  | _ => rfl

end Char

/-- The task `t` is in a system call and will leave it with the trap context `F`, if `c` is the
character that a `__sys_getchar` is still to take. -/
def AtCall (t : Slot) (cx : ℕ) (data : Option Word) (call : SyscallId) (F : Frame)
    (c : Option (BitVec 32)) (κ : Kont) (k : Kernel) : Prop :=
  (∃ v, κ = .sysReturn cx v) ∧ k.trap t = F ∨
    Waits cx t data call κ ∧ returnFrame (k.trap t) (callData call data) c = F

section Call

variable {t : Slot} {F : Frame} {es : List (Event cfg)} {cx : ℕ} {data : Option Word}
  {call : SyscallId} {c : Option (BitVec 32)}

theorem AtCall.congr (h : AtCall t cx data call F c κ k) (ht : k'.trap t = k.trap t) :
    AtCall t cx data call F c κ k' := by
  rwa [AtCall, ht]

/-- A system call waits for its character or has it. -/
theorem Served.atCall {env : Env cfg} {op : Op} {kont : Kont} (h : MemInv cfg k)
    (hon : OnStack cfg k) (hc : k.sched.Live k.current) (hcx : cx = k.cur.cx)
    (hs : Served cfg env cx k.current data k call op kont k') (hexec : call ≠ .exec)
    (hexit : call ≠ .exit) :
    ∃ κ, Thread cfg (.kernel kont) k' k.current κ ∧ AtCall k.current cx data call
      (returnFrame (k.trap k.current) (callData call data) (env.char.or c)) c κ k' := by
  have htrap := hs.trap_eq h hon hc hcx rfl hexec hexit
  obtain ⟨κ, ht, ⟨hκ, hchar⟩ | ⟨hw, hchar⟩⟩ := hs.thread hon hc hcx rfl hexit
  · refine ⟨κ, ht, .inl ⟨hκ, htrap.trans ?_⟩⟩
    by_cases hg : call = .getChar
    · obtain hd | hcon := hchar hg
      · rw [callData, if_pos hg, hd, returnFrame_none, returnFrame_none]
      · rw [Env.char, if_neg hcon, Option.some_or]
    · rw [callData, if_neg hg, returnFrame_none, returnFrame_none]
  · refine ⟨κ, ht, .inr ⟨hw, ?_⟩⟩
    rw [htrap]
    by_cases hg : call = .getChar
    · rw [Env.char, if_pos (hchar hg), returnFrame_no_char, Option.none_or]
    · rw [callData, if_neg hg, returnFrame_none, returnFrame_none, returnFrame_none]

/-- **A turn of the task** in its call. -/
theorem AtCall.resume {env : Env cfg} {op : Op} {κ' : Kont} (hi : Inv cfg (.kernel κ) k)
    (hs : Stepped (.kernel κ) k (.resume env) op (.kernel κ') k')
    (hat : AtCall k.current cx data call F
      ((charOf k.current (.resume env) (.running (.kernel κ) k)).or c) κ k) :
    ∃ κ₁, Thread cfg (.kernel κ') k' k.current κ₁ ∧ AtCall k.current cx data call F c κ₁ k' := by
  obtain ⟨⟨v, rfl⟩, -⟩ | ⟨hw, hF⟩ := hat
  · cases hs with
    | idle _ _ _ he => exact absurd rfl (he env)
  cases hw with
  | sysYield =>
    cases hs with
    | idle _ _ _ he => exact absurd rfl (he env)
    | yielded => exact ⟨_, .of_current rfl, .inl ⟨⟨0, rfl⟩, hF⟩⟩
  | @sysGetchar d hd =>
    have hcx : cx = k.cur.cx := hi.stack.kontOk
    rw [show charOf k.current (.resume env) (.running (.kernel (.sysGetchar cx d)) k) =
      env.char from if_pos rfl] at hF
    cases hs with
    | idle _ _ _ he => exact absurd rfl (he env)
    | getchar hsv =>
      rw [← hF, hd]
      exact hsv.atCall hi.mem hi.stack.onStack hi.live hcx (by decide) (by decide)
  | sysRecycle =>
    have hcx : cx = k.cur.cx := hi.stack.kontOk.1
    cases hs with
    | idle _ _ _ he => exact absurd rfl (he env)
    | recycle hsv =>
      obtain ⟨κ₁, ht₁, hat₁⟩ := hsv.atCall (c := c) hi.mem hi.stack.onStack hi.live hcx (by decide)
        (by decide)
      refine ⟨κ₁, ht₁, hF ▸ hat₁.imp id fun h => ⟨?_, h.2⟩⟩
      cases h.1
      exact .sysRecycle

/-- **The task leaves its call** with the trap context, but for `a0`. -/
theorem AtCall.leave (hat : AtCall t cx data call F c κ k) (hb : Back cfg t κ k k') :
    (∀ r, r ≠ 0 → r ≠ 10 → k'.cpu.x r = F (cxReg r)) ∧ k'.cpu.pc = F cxSepc ∧
      ∃ cx₁, κ = .sysReturn cx₁ (k'.cpu.x 10) := by
  obtain ⟨hi, rfl, env, hs⟩ := hb
  generalize stepOp cfg _ _ = op at hs
  cases hs with
  | leave hk =>
    obtain ⟨⟨v, rfl⟩, -⟩ | ⟨hw, -⟩ := hat
    · obtain hk | hk := hk <;> cases hk
    · obtain rfl | rfl := hk <;> cases hw
  | @sysReturn _ _ _ cx₁ v hr =>
    obtain ⟨-, rfl⟩ | ⟨hw, -⟩ := hat
    swap
    · cases hw
    obtain rfl : cx₁ = k.cur.cx := hi.stack.kontOk
    have hst := Keeps.storeCx hi.mem hi.live (Function.update (k.mem.ram k.cur.cx) (cxReg 10) v)
    have hres := (trapReturn_spec hst.mem hi.init hi.stack.onStack.satp).of_ok hr
    have hframe (j) : (k.mem.store k.cur.cx (cxReg 10) v).ram k.cur.cx j =
        Function.update (k.trap k.current) (cxReg 10) v j :=
      congrFun (Function.update_self _ _ _) j
    refine ⟨fun r h₀ h₁₀ => ?_, ?_, k.cur.cx, ?_⟩
    · refine (hres.regs r h₀).trans ((hframe _).trans (Function.update_of_ne ?_ _ _))
      exact fun he => h₁₀ (cxReg_injective he)
    · exact hres.pc.trans ((hframe _).trans (Function.update_of_ne (by decide) _ _))
    · rw [(hres.regs 10 (by decide)).trans ((hframe _).trans (Function.update_self _ _ _))]

/-- **A task in a system call** comes back with its trap context and the value of the call. -/
theorem called_run (hwf : cfg.WellFormed) (hi : Inv cfg mode k) (hl : k.sched.Live t)
    (ht : Thread cfg mode k t κ)
    (hat : AtCall t cx data call F (charRead t es (.running mode k)) κ k)
    (haway : Along (fun _ mode k => Away t mode k) es (.running mode k))
    (hrun : run cfg es (.running mode k) = .running .user k') (hback : k'.current = t) :
    (∀ r, r ≠ 0 → r ≠ 10 → k'.cpu.x r = F (cxReg r)) ∧ k'.cpu.pc = F cxSepc ∧
      ∃ es₁ e cx₁ k₁, es = es₁ ++ [e] ∧ run cfg es₁ (.running mode k) =
        .running (.kernel (.sysReturn cx₁ (k'.cpu.x 10))) k₁ := by
  obtain ⟨es₁, e, κ₁, k₁, hes, hrun₁, hat₁, hb⟩ := away_induction
    (Q := fun es mode κ k => AtCall t cx data call F (charRead t es (.running mode k)) κ k) hwf
    (fun e es mode mode' κ k k' _ _ hne hstep hu hq =>
      (charRead_of_ne hne hstep ▸ hq).congr hu.trap_eq)
    (fun e es κ k hne hq => charRead_idle hne ▸ hq)
    (fun env es op κ κ' k k' hi hc hq hstep hs => by
      subst hc
      rw [charRead, hstep] at hq
      exact hq.resume hi hs)
    hi hl ht hat haway hrun hback
  obtain ⟨hx, hpc, cx₁, rfl⟩ := hat₁.leave hb
  exact ⟨hx, hpc, es₁, e, cx₁, k₁, hes, hrun₁⟩

variable {scause : Word} {env : Env cfg} {k₁ : Kernel}

/-- The trap context that a system call other than `exec` and `exit` leaves with: past the `ecall`,
and with the character `c` of a `getchar` into it. -/
def leaveFrame (k : Kernel) (scause : Word) (call : SyscallId) (c : Option (BitVec 32)) : Frame :=
  returnFrame (callFrame k scause) (callData call (getcharData (k.cpu.reg 10) (k.cpu.reg 11))) c

/-- **A system call that returns.** -/
theorem call_back (hwf : cfg.WellFormed) (h : Inv cfg .user k) (hint : scause.getLsbD 63 = false)
    (hcall : SyscallId.ofWord (k.cpu.reg 17) = some call) (hexec : call ≠ .exec)
    (hexit : call ≠ .exit)
    (hstep : step cfg (.trap scause env) (.running .user k) = .running mode k₁)
    (haway : Along (fun _ mode k' => Away k.current mode k') es (.running mode k₁))
    (hrun : run cfg es (.running mode k₁) = .running .user k') (hback : k'.current = k.current)
    (hc : charRead k.current (.trap scause env :: es) (.running .user k) = c) :
    (∀ r, r ≠ 0 → r ≠ 10 → k'.cpu.x r = leaveFrame k scause call c (cxReg r)) ∧
      k'.cpu.pc = leaveFrame k scause call c cxSepc ∧
      ∃ es₁ e cx₁ k₂, es = es₁ ++ [e] ∧ run cfg es₁ (.running mode k₁) =
        .running (.kernel (.sysReturn cx₁ (k'.cpu.x 10))) k₂ := by
  have hs := step_stepped hstep
  have hi₁ := (hs.inv hwf h).1
  obtain ⟨hsched, hen⟩ := hs.sched h.live
  obtain ⟨kont, rfl⟩ := step_trap_kernel hstep
  rw [charRead, hstep, show charOf k.current (.trap scause env) (.running .user k) = env.char from
    if_pos rfl] at hc
  generalize stepOp cfg _ _ = op at hs hsched hen
  cases hs with
  | timer he hb =>
    rw [(h.enter he).scause_eq, hint] at hb
    cases hb
  | interrupt out he hb =>
    rw [(h.enter he).scause_eq, hint] at hb
    cases hb
  | @ecall _ k₀ _ _ _ _ _ _ he _ hcall' hsv =>
    have hh := h.enter he
    rw [hh.arg (by decide), hcall] at hcall'
    obtain rfl := Option.some.inj hcall'
    rw [hh.arg (by decide), hh.arg (by decide)] at hsv
    have hcur : (moveSepc k₀).current = k.current := hh.current
    obtain ⟨κ, ht, hat⟩ := hsv.atCall (c := charRead k.current es (.running (.kernel kont) k₁))
      (hh.call_keeps h.mem).mem hh.call_onStack hh.live rfl hexec hexit
    rw [hcur] at ht hat
    rw [hc, hh.entered.moveSepc] at hat
    have hl : k₁.sched.Live k.current := by
      rw [hsched]
      exact Op.live_apply hen (fun hx => absurd hx (hsv.op_ne_exit hexit)) h.live
    exact called_run hwf hi₁ hl ht hat haway hrun hback

/-- **The child of a fork** starts like its parent, with `a0 = 0`. -/
theorem child_back (hwf : cfg.WellFormed) (h : Inv cfg .user k) (hint : scause.getLsbD 63 = false)
    (hcall : SyscallId.ofWord (k.cpu.reg 17) = some .fork)
    (hstep : step cfg (.trap scause env) (.running .user k) = .running mode k₁) {child : Slot}
    (hnew : ¬ k.sched.Live child) (hlive : k₁.sched.Live child)
    (haway : Along (fun _ mode k' => Away child mode k') es (.running mode k₁))
    (hrun : run cfg es (.running mode k₁) = .running .user k') (hback : k'.current = child) :
    (∀ r, r ≠ 0 → r ≠ 10 → k'.cpu.x r = k.cpu.x r) ∧ k'.cpu.x 10 = 0 ∧
      k'.cpu.pc = k.cpu.pc + 8 := by
  have hs := step_stepped hstep
  have hi₁ := (hs.inv hwf h).1
  obtain ⟨kont, rfl⟩ := step_trap_kernel hstep
  generalize stepOp cfg _ _ = op at hs
  cases hs with
  | timer he hc =>
    rw [(h.enter he).scause_eq, hint] at hc
    cases hc
  | interrupt out he hc =>
    rw [(h.enter he).scause_eq, hint] at hc
    cases hc
  | @ecall _ k₀ _ _ _ _ _ _ he _ hcall' hsv =>
    have hh := h.enter he
    have hsched : (moveSepc k₀).sched = k.sched := hh.sched
    rw [hh.arg (by decide), hcall] at hcall'
    obtain rfl := Option.some.inj hcall'
    cases hsv with
    | quiet => exact absurd (hsched ▸ hlive) hnew
    | yield hw => cases hw
    | fork hk =>
      obtain ⟨-, hr⟩ | ⟨p, f, root, m, hfk, hr⟩ := (sysFork_spec (hh.call_keeps h.mem).mem
        (live_init hh.live)).of_ok hk
      · rw [(Prod.mk.inj hr).2] at hlive
        exact absurd (hsched ▸ hlive) hnew
      obtain rfl := (Prod.mk.inj hr).2
      have hslot : (moveSepc k₀).sched.freeSlot = some p := hfk.slot
      have hp : child = p := by
        rw [afterFork_sched hfk.slot, Tree.live_fork hslot, hsched] at hlive
        exact hlive.resolve_right hnew
      subst hp
      have hcur : (moveSepc k₀).current = k.current := hh.current
      have hne : child ≠ (moveSepc k₀).current := fun he => hnew (by rw [he, hcur]; exact h.live)
      have hF := hfk.trap_child
      rw [hcur, hh.entered.moveSepc] at hF
      obtain ⟨hx, hpc, -⟩ := interrupted_run hwf hi₁ hlive
        (hi₁.stack.onStack.thread_child hne hlive) (.inl rfl) hF (fun _ _ => rfl) haway hrun hback
      refine ⟨fun r h₀ h₁₀ => ?_, ?_, ?_⟩
      · have hr : cxReg r ≠ cxReg 10 := fun he => h₁₀ (cxReg_injective he)
        rw [hx r h₀, forkedTrap_of_ne _ _ hr (cxReg_ne_kernelSp r), callFrame_reg k scause h₀,
          Cpu.reg, if_neg h₀]
      · rw [hx 10 (by decide), forkedTrap, Function.update_of_ne (by decide), Function.update_self]
      · rw [hpc, forkedTrap_of_ne _ _ (by decide) (by decide), callFrame_sepc]

end Call

/-! ### Where it goes on -/

theorem add_eight_ne (pc : Word) : pc + 8 ≠ pc + 4 := fun h =>
  absurd ((BitVec.add_right_inj pc).mp h) (by decide)

theorem setWordByte_zero_eq_iff {w x : Word} {b : Byte} :
    setWordByte w 0 b = x ↔ b = x.setWidth 8 ∧ x >>> 8 = w >>> 8 := by
  have hbit : ∀ i < 64, (setWordByte w 0 b).getLsbD i =
      if i < 8 then b.getLsbD i else w.getLsbD i := fun i hi => by
    rw [getLsbD_setWordByte w 0 b hi]
    split_ifs with h₁ h₂
    · rw [Nat.mod_eq_of_lt h₂]
    · omega
    · omega
    · rfl
  constructor
  · rintro rfl
    refine ⟨BitVec.eq_of_getLsbD_eq fun i hi => ?_, BitVec.eq_of_getLsbD_eq fun i hi => ?_⟩
    · rw [BitVec.getLsbD_setWidth, hbit i (by omega), if_pos hi, decide_eq_true hi, Bool.true_and]
    · rw [BitVec.getLsbD_ushiftRight, BitVec.getLsbD_ushiftRight]
      by_cases h : 8 + i < 64
      · rw [hbit _ h, if_neg (by omega)]
      · rw [BitVec.getLsbD_of_ge _ _ (by omega), BitVec.getLsbD_of_ge _ _ (by omega)]
  · rintro ⟨rfl, hx⟩
    refine BitVec.eq_of_getLsbD_eq fun i hi => ?_
    rw [hbit i hi]
    split_ifs with h
    · rw [BitVec.getLsbD_setWidth, decide_eq_true h, Bool.true_and]
    · have := congrArg (BitVec.getLsbD · (i - 8)) hx
      simp only [BitVec.getLsbD_ushiftRight, Nat.add_sub_cancel' (Nat.le_of_not_lt h)] at this
      exact this.symm

/-- A byte put into `pc + 8` gives `pc + 4` if it is the low one and no carry goes beyond it. -/
theorem setWordByte_add_eight_eq_iff {pc : Word} {j : ℕ} {b : Byte} :
    setWordByte (pc + 8) j b = pc + 4 ↔
      j = 0 ∧ b = (pc + 4).setWidth 8 ∧ (pc + 4) >>> 8 = (pc + 8) >>> 8 := by
  by_cases hj : j = 0
  · subst hj
    exact setWordByte_zero_eq_iff.trans (and_iff_right rfl).symm
  · refine iff_of_false (fun h => ?_) fun h => hj h.1
    -- the low byte of `pc + 8` would be that of `pc + 4`
    have hlow := congrArg (wordByte · 0) h
    simp only [wordByte_setWordByte _ (by decide : 0 < 8), if_neg (Ne.symm hj)] at hlow
    simp only [wordByte, Nat.mul_zero, BitVec.ushiftRight_zero] at hlow
    rw [BitVec.setWidth_add _ _ (by decide), BitVec.setWidth_add _ _ (by decide)] at hlow
    exact absurd ((BitVec.add_right_inj _).mp hlow) (by decide)

/-- The call is a `getchar` into the caller's own trap context. -/
def IntoTrapframe (k : Kernel) (call : SyscallId) : Prop :=
  call = .getChar ∧ k.cpu.reg 10 = stdin ∧ pageOf (k.cpu.reg 11) = trapframeVpn

/-- The call reads the character `c` over the low byte of the saved `sepc`, which is `pc + 8`, and
makes it `pc + 4`. -/
structure PatchesSepc (k : Kernel) (call : SyscallId) (c : Option (BitVec 32)) : Prop where
  into : IntoTrapframe k call
  offset : (k.cpu.reg 11).toNat % 4096 = 8 * cxSepc
  char : ∃ b, c = some b ∧ b.setWidth 8 = (k.cpu.pc + 4).setWidth 8
  carry : (k.cpu.pc + 4) >>> 8 = (k.cpu.pc + 8) >>> 8

section Leave

variable {scause : Word} {call : SyscallId} {c : Option (BitVec 32)}

theorem leaveFrame_of_not_into (h : ¬ IntoTrapframe k call) :
    leaveFrame k scause call c = callFrame k scause := by
  refine returnFrame_of_clean fun d hd hp => ?_
  rw [callData, getcharData] at hd
  split_ifs at hd with hg hfd
  exact h ⟨hg, hfd, Option.some.inj hd ▸ hp⟩

theorem leaveFrame_into (h : IntoTrapframe k call) (b : BitVec 32) :
    leaveFrame k scause call (some b) =
      setFrameByte (callFrame k scause) ((k.cpu.reg 11).toNat % 4096) (b.setWidth 8) := by
  obtain ⟨rfl, hfd, hp⟩ := h
  rw [leaveFrame, callData, if_pos rfl, getcharData, if_pos hfd]
  exact if_pos hp

/-- **When a call leaves with the next instruction in `sepc`** and the registers as they were. -/
theorem leaveFrame_next_iff :
    (∀ r, r ≠ 0 → r ≠ 10 → leaveFrame k scause call c (cxReg r) = k.cpu.x r) ∧
      leaveFrame k scause call c cxSepc = k.cpu.pc + 4 ↔ PatchesSepc k call c := by
  have hlt : (k.cpu.reg 11).toNat % 4096 < 4096 := Nat.mod_lt _ (by decide)
  constructor
  · rintro ⟨-, hpc⟩
    have hne : leaveFrame k scause call c cxSepc ≠ callFrame k scause cxSepc := by
      rw [hpc, callFrame_sepc]
      exact (add_eight_ne _).symm
    have hin : IntoTrapframe k call := by
      by_contra hin
      exact hne (by rw [leaveFrame_of_not_into hin])
    cases c with
    | none => exact absurd (by rw [leaveFrame, returnFrame_no_char]) hne
    | some b =>
      rw [leaveFrame_into hin, setFrameByte] at hpc hne
      have hw : wordIndex ((k.cpu.reg 11).toNat % 4096) = cxSepc := by
        by_contra hw
        exact hne (Function.update_of_ne (Ne.symm hw) _ _)
      rw [hw, Function.update_self, callFrame_sepc, setWordByte_add_eight_eq_iff] at hpc
      obtain ⟨hzero, hb, hcarry⟩ := hpc
      have hword : (k.cpu.reg 11).toNat % 4096 / 8 % 512 = cxSepc := congrArg Fin.val hw
      exact ⟨hin, by omega, ⟨b, rfl, hb⟩, hcarry⟩
  · rintro ⟨hin, hoff, ⟨b, rfl, hb⟩, hcarry⟩
    have hw : wordIndex (8 * cxSepc) = cxSepc := by decide
    rw [leaveFrame_into hin, setFrameByte, hoff, hw, callFrame_sepc]
    refine ⟨fun r h₀ _ => ?_, ?_⟩
    · rw [Function.update_of_ne (cxReg_ne_sepc r), callFrame_reg k scause h₀, Cpu.reg, if_neg h₀]
    · rw [Function.update_self, setWordByte_add_eight_eq_iff]
      exact ⟨Nat.mul_mod_right 8 _, hb, hcarry⟩

end Leave

/-- **The return of a system call.** In the caller `a0` holds the value of the call. The other
registers are unchanged and the program goes on at the next instruction exactly when a `getchar` has
put that address into its trap context; without a `getchar` into the trap context the other
registers are unchanged and it goes on 8 bytes after the `ecall`. A forked child goes on there too,
with `a0 = 0`. -/
theorem syscall_return (hwf : cfg.WellFormed) (hreach : Reachable cfg (.running .user k))
    {scause : Word} (hint : scause.getLsbD 63 = false) {call : SyscallId}
    (hcall : SyscallId.ofWord (k.cpu.reg 17) = some call) (hexec : call ≠ .exec)
    (hexit : call ≠ .exit) {env : Env cfg} {k₁ : Kernel}
    (hstep : step cfg (.trap scause env) (.running .user k) = .running mode k₁)
    {es : List (Event cfg)} (hrun : run cfg es (.running mode k₁) = .running .user k') :
    (Along (fun _ mode k' => Away k.current mode k') es (.running mode k₁) →
      k'.current = k.current →
      (∃ es₁ e cx₁ k₂, es = es₁ ++ [e] ∧ run cfg es₁ (.running mode k₁) =
        .running (.kernel (.sysReturn cx₁ (k'.cpu.x 10))) k₂) ∧
      ((∀ r, r ≠ 0 → r ≠ 10 → k'.cpu.x r = k.cpu.x r) ∧ k'.cpu.pc = k.cpu.pc + 4 ↔
        PatchesSepc k call (charRead k.current (.trap scause env :: es) (.running .user k))) ∧
      (¬ IntoTrapframe k call →
        (∀ r, r ≠ 0 → r ≠ 10 → k'.cpu.x r = k.cpu.x r) ∧ k'.cpu.pc = k.cpu.pc + 8)) ∧
    ∀ child, call = .fork → ¬ k.sched.Live child → k₁.sched.Live child →
      Along (fun _ mode k' => Away child mode k') es (.running mode k₁) → k'.current = child →
      (∀ r, r ≠ 0 → r ≠ 10 → k'.cpu.x r = k.cpu.x r) ∧ k'.cpu.x 10 = 0 ∧
      k'.cpu.pc = k.cpu.pc + 8 ∧ k'.cpu.pc ≠ k.cpu.pc + 4 := by
  have h := hreach.inv hwf
  constructor
  · intro haway hback
    obtain ⟨hx, hpc, hv⟩ :=
      call_back hwf h hint hcall hexec hexit hstep haway hrun hback rfl
    refine ⟨hv, ?_, fun hin => ?_⟩
    · rw [← leaveFrame_next_iff, hpc]
      exact and_congr_left' (forall_congr' fun r => forall₂_congr fun h₀ h₁₀ => by rw [hx r h₀ h₁₀])
    · rw [leaveFrame_of_not_into hin] at hx hpc
      refine ⟨fun r h₀ h₁₀ => ?_, hpc.trans (callFrame_sepc k scause)⟩
      rw [hx r h₀ h₁₀, callFrame_reg k scause h₀, Cpu.reg, if_neg h₀]
  · rintro child rfl hnew hlive haway hback
    obtain ⟨hx, hv, hpc⟩ := child_back hwf h hint hcall hstep hnew hlive haway hrun hback
    exact ⟨hx, hv, hpc, hpc ▸ add_eight_ne _⟩

/-- A fork by the first program of the small system, at address 0, and its way back. -/
theorem tiny_fork : ∃ (k k₁ k' : Kernel) (mode : Mode) (es : List (Event tiny)),
    Reachable tiny (.running .user k) ∧ SyscallId.ofWord (k.cpu.reg 17) = some .fork ∧
    k.cpu.pc = 0 ∧ step tiny (.trap ecallCause (tinyEnv (-1) 0)) (.running .user k) =
      .running mode k₁ ∧
    Along (fun _ mode k' => Away k.current mode k') es (.running mode k₁) ∧
    run tiny es (.running mode k₁) = .running .user k' ∧ k'.current = k.current := by
  obtain ⟨es, k, hrun, h, hs⟩ :=
    tiny_history 0 (show ([] : List Op).length ≤ 1000 by decide) trivial
  obtain ⟨κ, k₁, hstep₁, h₁, hs₁, -⟩ := (h.compute tiny_wf (callRegs 6) 0).fork (tinyEnv (-1) 0)
    tiny_wf rfl (callRegs_clean _ _ _) (show 0 + (6 + 3 * 4) ≤ 1000 by decide)
  obtain ⟨k₂, hstep₂, -, hs₂⟩ := h₁.resume tiny_wf (tinyEnv (-1) 0)
  refine ⟨_, k₁, k₂, .kernel κ, [.resume (tinyEnv (-1) 0)],
    ⟨tinyStart 0, es ++ [.compute (callRegs 6) 0], ?_⟩, rfl, rfl, hstep₁, ⟨?_, trivial⟩, hstep₂, ?_⟩
  · rw [run_append, hrun]
    rfl
  · rintro _ _ he ⟨rfl, -⟩
    cases he
  · have hk₂ : k₂.sched.current = k.sched.fork.current := by rw [hs₂, hs₁]; rfl
    have hk : k.sched.fork.current = k.sched.current := by rw [hs]; decide
    exact hk₂.trans hk

/-- The address of the saved `sepc`. -/
def sepcVa : Word := BitVec.ofNat 64 (trapframeVa + 8 * cxSepc)

theorem sepcVa_page : pageOf sepcVa = trapframeVpn ∧ sepcVa.toNat % 4096 = 8 * cxSepc := by decide

/-- A getchar over the low byte of the saved `sepc` goes through. -/
theorem Health.getchar_sepc {n s : ℕ} (h : Health cfg .user k n s) (hwf : cfg.WellFormed)
    (env : Env cfg) (hid : SyscallId.ofWord (k.cpu.reg 17) = some .getChar)
    (hfd : k.cpu.reg 10 = stdin) (hcon : env.console ≠ -1) (hptr : k.cpu.reg 11 = sepcVa) :
    ∃ κ k', step cfg (.trap ecallCause env) (.running .user k) = .running (.kernel κ) k' ∧
      Health cfg (.kernel κ) k' n s ∧ k'.sched = k.sched := by
  obtain ⟨hpage, hoff⟩ := sepcVa_page
  have hword : wordIndex (8 * cxSepc) = cxSepc := by decide
  have hcx : k.cur.cx < 2 ^ 44 := h.mem.cx_lt h.init
  have hlk : lookup k.mem.ram k.cur.pagetable.rootPpn (pageOf sepcVa) =
      some (new k.cur.cx (pteV ||| (pteR ||| pteW))) :=
    hpage ▸ (h.mem.task _ h.init).space.trapframe
  obtain ⟨k₁, k', hh, hk', hstep, hsched, hhealth⟩ := h.getchar env hwf hid hfd hcon hptr hlk
    (by rw [ppn_new hcx]; exact MemInv.frames_mem h.init (MemInv.cx_mem_frames _ _))
  refine ⟨_, k', hstep, hhealth ?_, hsched⟩
  -- only `sepc` has changed in the trap context
  have hstore : (moveSepc k₁).mem.storeByte (k.cur.cx * 4096 + 8 * cxSepc)
      (env.console.setWidth 8) = (moveSepc k₁).mem.store (moveSepc k₁).cur.cx cxSepc (setWordByte
        ((moveSepc k₁).mem.ram (moveSepc k₁).cur.cx cxSepc) 0 (env.console.setWidth 8)) := by
    rw [storeByte_eq _ _ (by decide), setFrameByte, hword, hh.call_cur]
    rfl
  rw [hk', hoff, ppn_new hcx, hstore]
  have hmove : Ready cfg (moveSepc k₁) :=
    (hh.ready h.ready).storeCx hh.keeps.mem hh.live (.inr rfl) _
  exact hmove.storeCx (hh.call_keeps h.mem).mem hh.live (.inr rfl) _

/-- A getchar of the character 4 by the first program over its saved `sepc`, at address 0, and its
way back. -/
theorem tiny_patch : ∃ (k k₁ k' : Kernel) (mode : Mode) (es : List (Event tiny)),
    Reachable tiny (.running .user k) ∧ SyscallId.ofWord (k.cpu.reg 17) = some .getChar ∧
    k.cpu.pc = 0 ∧ k.cpu.reg 10 = stdin ∧ k.cpu.reg 11 = sepcVa ∧
    step tiny (.trap ecallCause (tinyEnv 4 0)) (.running .user k) = .running mode k₁ ∧
    Along (fun _ mode k' => Away k.current mode k') es (.running mode k₁) ∧
    run tiny es (.running mode k₁) = .running .user k' ∧ k'.current = k.current := by
  obtain ⟨es, k, hrun, h, -⟩ := tiny_first 0
  obtain ⟨κ, k₁, hstep₁, h₁, hs₁⟩ := (h.compute tiny_wf (getcharRegs sepcVa) 0).getchar_sepc tiny_wf
    (tinyEnv 4 0) rfl rfl (by decide) rfl
  obtain ⟨k₂, hstep₂, -, hs₂⟩ := h₁.resume tiny_wf (tinyEnv (-1) 0)
  refine ⟨_, k₁, k₂, _, [.resume (tinyEnv (-1) 0)],
    ⟨tinyStart 0, es ++ [.compute (getcharRegs sepcVa) 0], ?_⟩, rfl, rfl, rfl, rfl, hstep₁,
    .cons (fun hu => Mode.noConfusion hu.1) trivial, hstep₂, congrArg Sched.current (hs₂.trans hs₁)⟩
  rw [run_append, hrun]
  rfl

/-- The caller of a fork at address 0 goes on at address 8, and that of a getchar of the character 4
over the low byte of its saved `sepc` at address 4. -/
theorem syscall_return_tiny :
    (∃ (k k' : Kernel) (es : List (Event tiny)), Reachable tiny (.running .user k) ∧
      SyscallId.ofWord (k.cpu.reg 17) = some .fork ∧ k.cpu.pc = 0 ∧
      run tiny (.trap ecallCause (tinyEnv (-1) 0) :: es) (.running .user k) = .running .user k' ∧
      k'.current = k.current ∧ (∀ r, r ≠ 0 → r ≠ 10 → k'.cpu.x r = k.cpu.x r) ∧
      k'.cpu.pc = k.cpu.pc + 8) ∧
    ∃ (k k' : Kernel) (es : List (Event tiny)), Reachable tiny (.running .user k) ∧
      SyscallId.ofWord (k.cpu.reg 17) = some .getChar ∧ k.cpu.reg 11 = sepcVa ∧ k.cpu.pc = 0 ∧
      run tiny (.trap ecallCause (tinyEnv 4 0) :: es) (.running .user k) = .running .user k' ∧
      k'.current = k.current ∧ (∀ r, r ≠ 0 → r ≠ 10 → k'.cpu.x r = k.cpu.x r) ∧
      k'.cpu.pc = k.cpu.pc + 4 := by
  have hbit : ecallCause.getLsbD 63 = false := by decide
  constructor
  · obtain ⟨k, k₁, k', mode, es, hreach, hcall, hpc, hstep, haway, hrun, hback⟩ := tiny_fork
    obtain ⟨-, -, hret⟩ := (syscall_return tiny_wf hreach hbit hcall (by decide) (by decide) hstep
      hrun).1 haway hback
    obtain ⟨hx, hpc'⟩ := hret fun hin => by cases hin.1
    refine ⟨k, k', es, hreach, hcall, hpc, ?_, hback, hx, hpc'⟩
    rw [run_cons, hstep, hrun]
  · obtain ⟨k, k₁, k', mode, es, hreach, hcall, hpc, hfd, hptr, hstep, haway, hrun, hback⟩ :=
      tiny_patch
    obtain ⟨-, hret, -⟩ := (syscall_return tiny_wf hreach hbit hcall (by decide) (by decide) hstep
      hrun).1 haway hback
    have hchar : charRead k.current (.trap ecallCause (tinyEnv 4 0) :: es) (.running .user k) =
        some 4 := by
      rw [charRead, show charOf k.current (.trap ecallCause (tinyEnv 4 0)) (.running .user k) =
        some 4 from if_pos rfl, Option.some_or]
    obtain ⟨hx, hpc'⟩ := hret.mpr ⟨⟨rfl, hfd, hptr ▸ sepcVa_page.1⟩, hptr ▸ sepcVa_page.2,
      ⟨4, hchar, by rw [hpc]; decide⟩, by rw [hpc]; decide⟩
    refine ⟨k, k', es, hreach, hcall, hptr, hpc, ?_, hback, hx, hpc'⟩
    rw [run_cons, hstep, hrun]

/-- An `ecall` at address 0 that does not return to address 4. -/
theorem returns_past_next : ∃ (k k₁ k' : Kernel) (mode : Mode) (es : List (Event tiny)),
    Reachable tiny (.running .user k) ∧ SyscallId.ofWord (k.cpu.reg 17) = some .fork ∧
    step tiny (.trap ecallCause (tinyEnv (-1) 0)) (.running .user k) = .running mode k₁ ∧
    Along (fun _ mode k' => Away k.current mode k') es (.running mode k₁) ∧
    run tiny es (.running mode k₁) = .running .user k' ∧ k'.current = k.current ∧
    k.cpu.pc = 0 ∧ k'.cpu.pc ≠ 4 := by
  obtain ⟨k, k₁, k', mode, es, hreach, hcall, hpc, hstep, haway, hrun, hback⟩ := tiny_fork
  obtain ⟨-, hret, -⟩ := call_back tiny_wf (hreach.inv tiny_wf) (by decide) hcall (by decide)
    (by decide) hstep haway hrun hback rfl
  have hfork : ¬ IntoTrapframe k .fork := fun hin => by cases hin.1
  rw [leaveFrame_of_not_into hfork, callFrame_sepc] at hret
  refine ⟨k, k₁, k', mode, es, hreach, hcall, hstep, haway, hrun, hback, hpc, ?_⟩
  rw [hret, hpc]
  decide

end RiscvOs
