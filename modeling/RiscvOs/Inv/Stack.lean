import RiscvOs.Hw.Trampoline
import RiscvOs.Sched.Refine

/-!
# Every task on its own kernel stack

A live task that is not running is suspended: its context leads back to where it stopped, on its
own kernel stack. The running task is on its own stack too.

* `kernelStackOf_eq`, `saveContext_eq`, `loadContext_sp`: `__switch` and stack pointers.
* **`Stepped.stack`**: every step keeps it.
-/

set_option autoImplicit false

namespace RiscvOs

variable {cfg : Config} {env : Env cfg} {k k' : Kernel} {kont self : Kont} {i n : Slot}

/-! ## Stack pointers -/

theorem kstackVa_eq (p : Slot) : kstackVa p = 2 ^ 64 - 4096 - (p.val + 1) * 8192 := by
  rw [kstackVa, trampolineVa_eq, pageSize_eq]
  omega

theorem kernelStackOf_eq {sp : Word} {p : Slot} (h₁ : kstackVa p < sp.toNat)
    (h₂ : sp.toNat ≤ kstackVa p + pageSize) : kernelStackOf sp = some p := by
  have huniq : ∀ q : Slot, kstackVa q < sp.toNat ∧ sp.toNat ≤ kstackVa q + pageSize → q = p :=
    fun q hq => by
      rw [kstackVa_eq] at h₁ h₂ hq
      rw [pageSize_eq] at h₂ hq
      have hp : p.val < 10 := p.isLt
      have hq' : q.val < 10 := q.isLt
      exact Fin.ext (by omega)
  rw [kernelStackOf, List.find?_eq_some_iff_append]
  refine ⟨by simpa using ⟨h₁, h₂⟩, ?_⟩
  obtain ⟨as, bs, hl⟩ := List.append_of_mem (List.mem_finRange p)
  refine ⟨as, bs, hl, fun q hq => ?_⟩
  have hnd := List.nodup_finRange maxTaskNum
  rw [hl, List.nodup_append] at hnd
  have hne : q ≠ p := fun he => hnd.2.2 q hq p List.mem_cons_self he
  rw [Bool.not_eq_true', decide_eq_false_iff_not]
  exact fun h => hne (huniq q h)

theorem kernelStackOf_kstack (p : Slot) :
    kernelStackOf (BitVec.ofNat 64 (kstackVa p + pageSize)) = some p := by
  have hlt : p.val < 10 := p.isLt
  have hv := kstackVa_eq p
  have hmod : (BitVec.ofNat 64 (kstackVa p + pageSize)).toNat = kstackVa p + 4096 := by
    rw [BitVec.toNat_ofNat, pageSize_eq]
    omega
  refine kernelStackOf_eq ?_ ?_
  · omega
  · rw [hmod, pageSize_eq]

/-! ## `__switch` -/

theorem foldl_setReg_of_not_mem (l : List (Fin 12)) (f : Fin 12 → Word) (c : Cpu) {r : Fin 32}
    (h : ∀ n, sreg n ≠ r) : (l.foldl (fun c n => c.setReg (sreg n) (f n)) c).reg r = c.reg r := by
  induction l generalizing c with
  | nil => rfl
  | cons n l ih => exact (ih _).trans (Cpu.setReg_of_ne _ _ (h n).symm)

theorem foldl_setReg_satp (l : List (Fin 12)) (f : Fin 12 → Word) (c : Cpu) :
    (l.foldl (fun c n => c.setReg (sreg n) (f n)) c).satp = c.satp := by
  induction l generalizing c with
  | nil => rfl
  | cons n l ih => exact (ih _).trans (Cpu.setReg_satp _ _ _)

theorem sreg_ne_one (n : Fin 12) : sreg n ≠ 1 := by
  revert n
  decide

theorem sreg_ne_two (n : Fin 12) : sreg n ≠ 2 := by
  revert n
  decide

theorem atSwitch_ra (c : Cpu) (p : Slot) : (atSwitch cfg env c p).reg 1 = cfg.yieldRet := by
  rw [atSwitch, foldl_setReg_of_not_mem _ _ _ sreg_ne_one, Cpu.setReg_of_ne _ _ (by decide),
    Cpu.setReg_self _ _ (by decide)]

theorem atSwitch_sp (c : Cpu) (p : Slot) : (atSwitch cfg env c p).reg 2 =
    BitVec.ofNat 64 (kstackVa p + pageSize - env.depth) := by
  rw [atSwitch, foldl_setReg_of_not_mem _ _ _ sreg_ne_two, Cpu.setReg_self _ _ (by decide)]

theorem atSwitch_satp (c : Cpu) (p : Slot) : (atSwitch cfg env c p).satp = c.satp := by
  rw [atSwitch, foldl_setReg_satp, Cpu.setReg_satp, Cpu.setReg_satp]

theorem kernelStackOf_atSwitch (c : Cpu) (p : Slot) :
    kernelStackOf ((atSwitch cfg env c p).reg 2) = some p := by
  have hd := env.depth_lt
  have hlt : p.val < 10 := p.isLt
  have hv := kstackVa_eq p
  rw [pageSize_eq] at hd
  have hmod : (BitVec.ofNat 64 (kstackVa p + pageSize - env.depth)).toNat =
      kstackVa p + 4096 - env.depth := by
    rw [BitVec.toNat_ofNat, pageSize_eq]
    omega
  rw [atSwitch_sp]
  refine kernelStackOf_eq ?_ ?_
  · omega
  · rw [hmod, pageSize_eq]
    omega

theorem switchSn_snd {p : Fin 32 × Fin 14} (h : p ∈ switchSn) : p.2 ≠ 0 ∧ p.2 ≠ 1 := by
  obtain ⟨n, -, rfl⟩ := List.mem_map.mp h
  revert n
  decide

theorem saveContext_eq (c : Cpu) (ctx : TaskContext) :
    saveContext c ctx 0 = c.reg 1 ∧ saveContext c ctx 1 = c.reg 2 := by
  have key : ∀ (l : List (Fin 32 × Fin 14)) (ctx : TaskContext) (j : Fin 14),
      (∀ p ∈ l, p.2 ≠ j) →
      l.foldl (fun ctx p => Function.update ctx p.2 (c.reg p.1)) ctx j = ctx j := by
    intro l
    induction l with
    | nil => exact fun _ _ _ => rfl
    | cons p l ih =>
      intro ctx j hj
      rw [List.foldl_cons, ih _ _ fun q hq => hj q (List.mem_cons_of_mem _ hq)]
      exact Function.update_of_ne (hj p List.mem_cons_self).symm _ _
  rw [saveContext, switchSaves, List.foldl_cons, List.foldl_cons]
  exact ⟨(key switchSn _ 0 fun p hp => (switchSn_snd hp).1).trans (Function.update_self _ _ _),
    (key switchSn _ 1 fun p hp => (switchSn_snd hp).2).trans
      ((Function.update_of_ne (by decide) _ _).trans (Function.update_self _ _ _))⟩

theorem loadContext_sp (c : Cpu) (ctx : TaskContext) : (loadContext c ctx).reg 2 = ctx 1 := by
  rw [loadContext, switchLoads, List.foldl_append, List.foldl_cons, List.foldl_nil,
    Cpu.setReg_self _ _ (by decide)]

theorem loadContext_satp (c : Cpu) (ctx : TaskContext) : (loadContext c ctx).satp = c.satp := by
  rw [loadContext]
  generalize switchLoads = l
  induction l generalizing c with
  | nil => rfl
  | cons p l ih => exact (ih _).trans (Cpu.setReg_satp _ _ _)

/-! ## Suspended tasks -/

/-- An activation of the task `i` can go on so: `cx` is its own trap context. -/
def KontOk (k : Kernel) (i : Slot) : Kont → Prop
  | .trapReturn => True
  | .timer => True
  | .sysYield cx => cx = (k.tasks i).cx
  | .sysGetchar cx _ => cx = (k.tasks i).cx
  | .sysRecycle cx father havechild => cx = (k.tasks i).cx ∧ father = i ∧ havechild = true
  | .exit => False
  | .sysReturn cx _ => cx = (k.tasks i).cx

/-- The task `i` is suspended and goes on at `kont`, on its own stack. -/
structure Suspended (cfg : Config) (k : Kernel) (i : Slot) (kont : Kont) : Prop where
  stack : kernelStackOf ((k.tasks i).taskContext 1) = some i
  resume : ((k.tasks i).taskContext 0 = cfg.trapReturn ∧ kont = .trapReturn) ∨
    ((k.tasks i).taskContext 0 = cfg.yieldRet ∧
      k.kstacks i = some ⟨(k.tasks i).taskContext, kont⟩)
  ok : KontOk k i kont

theorem KontOk.congr (h : KontOk k i kont) (hcx : (k'.tasks i).cx = (k.tasks i).cx) :
    KontOk k' i kont := by
  cases kont with
  | trapReturn => trivial
  | timer => trivial
  | sysYield cx => exact h.trans hcx.symm
  | sysGetchar cx data => exact h.trans hcx.symm
  | sysRecycle cx father havechild => exact ⟨h.1.trans hcx.symm, h.2⟩
  | exit => exact h
  | sysReturn cx v => exact h.trans hcx.symm

theorem Suspended.resumeAt (h : Suspended cfg k i kont) :
    resumeAt cfg k (k.tasks i).taskContext = .ok kont := by
  rw [RiscvOs.resumeAt]
  obtain ⟨hra, rfl⟩ | ⟨hra, hst⟩ := h.resume
  · rw [if_pos hra]
  · have hne : (k.tasks i).taskContext 0 ≠ cfg.trapReturn := by
      rw [hra]
      exact cfg.yieldRet_ne
    rw [if_neg hne, if_pos hra, h.stack, Option.bind_some, hst]
    exact if_pos rfl

/-- The records of the task `i` that its suspension rests on are the same. -/
structure SameThread (k k' : Kernel) (i : Slot) : Prop where
  taskContext : (k'.tasks i).taskContext = (k.tasks i).taskContext
  kstacks : k'.kstacks i = k.kstacks i
  cx : (k'.tasks i).cx = (k.tasks i).cx

theorem SameThread.refl (k : Kernel) (i : Slot) : SameThread k k i := ⟨rfl, rfl, rfl⟩

theorem SameThread.trans {k₁ k₂ : Kernel} (h : SameThread k k₁ i) (h' : SameThread k₁ k₂ i) :
    SameThread k k₂ i :=
  ⟨h'.taskContext.trans h.taskContext, h'.kstacks.trans h.kstacks, h'.cx.trans h.cx⟩

theorem SameThread.of_mem {m : Mem} (h : SameThread { k with mem := m } k' i) : SameThread k k' i :=
  ⟨h.taskContext, h.kstacks, h.cx⟩

theorem Suspended.congr (h : Suspended cfg k i kont) (hs : SameThread k k' i) :
    Suspended cfg k' i kont where
  stack := by rw [hs.taskContext]; exact h.stack
  resume := by rw [hs.taskContext, hs.kstacks]; exact h.resume
  ok := h.ok.congr hs.cx

/-- **The stack invariant.** -/
structure StackInv (cfg : Config) (mode : Mode) (k : Kernel) : Prop where
  kstack : ∀ i, (k.tasks i).kstack = kstackVa i + pageSize
  suspended : ∀ i, i ≠ k.current → k.sched.Live i → ∃ kont, Suspended cfg k i kont
  current : ∀ kont, mode = .kernel kont → kernelStackOf (k.cpu.reg 2) = some k.current ∧
    k.cpu.satp = makeSatp k.kernelPagetable.rootPpn ∧ KontOk k k.current kont

/-- The state in which the kernel runs for the current task, wherever it goes on. -/
structure OnStack (cfg : Config) (k : Kernel) : Prop where
  kstack : ∀ i, (k.tasks i).kstack = kstackVa i + pageSize
  suspended : ∀ i, i ≠ k.current → k.sched.Live i → ∃ kont, Suspended cfg k i kont
  stack : kernelStackOf (k.cpu.reg 2) = some k.current
  satp : k.cpu.satp = makeSatp k.kernelPagetable.rootPpn

namespace StackInv

variable {mode : Mode}

theorem onStack (h : StackInv cfg (.kernel kont) k) : OnStack cfg k :=
  ⟨h.kstack, h.suspended, (h.current kont rfl).1, (h.current kont rfl).2.1⟩

theorem kontOk (h : StackInv cfg (.kernel kont) k) : KontOk k k.current kont :=
  (h.current kont rfl).2.2

theorem of_onStack (h : OnStack cfg k) (hk : KontOk k k.current kont) :
    StackInv cfg (.kernel kont) k :=
  ⟨h.kstack, h.suspended, fun _ he => Mode.kernel.inj he ▸ ⟨h.stack, h.satp, hk⟩⟩

end StackInv

/-! ## Yields -/

theorem switching_tasks (k : Kernel) (n i : Slot) :
    ∃ st, (switching k n).tasks i = { k.tasks i with taskState := st } := by
  have h₁ : ∀ j, ∃ st, (k.setTask n { k.tasks n with taskState := .running }).tasks j =
      { k.tasks j with taskState := st } := fun j => by
    by_cases hj : j = n
    · subst hj
      exact ⟨.running, setTask_self _ _ _⟩
    · exact ⟨(k.tasks j).taskState, setTask_of_ne _ hj _⟩
  rw [switching]
  split_ifs
  · by_cases hi : i = k.current
    · subst hi
      obtain ⟨st, hst⟩ := h₁ k.current
      exact ⟨.ready, (setTask_self _ _ _).trans (by rw [hst])⟩
    · obtain ⟨st, hst⟩ := h₁ i
      exact ⟨st, (setTask_of_ne _ hi _).trans hst⟩
  · exact h₁ i

/-- What a switch leaves alone. -/
structure Switched (k k' : Kernel) : Prop where
  mem : k'.mem = k.mem
  kernelPagetable : k'.kernelPagetable = k.kernelPagetable
  satp : k'.cpu.satp = k.cpu.satp
  task : ∀ i, ∃ st ctx, k'.tasks i = { k.tasks i with taskState := st, taskContext := ctx }
  thread : ∀ i, i ≠ k.current → SameThread k k' i

/-- A switch saves the running task on its own stack. -/
theorem switch_spec (h : OnStack cfg k)
    (hs : switch cfg env self k.current n (switching k n) = .ok (kont, k')) :
    Switched k k' ∧ k'.current = n ∧ k'.cpu.reg 2 = (k'.tasks n).taskContext 1 ∧
      resumeAt cfg k' (k'.tasks n).taskContext = .ok kont ∧
      (KontOk k k.current self → Suspended cfg k' k.current self) := by
  have hfields : (switching k n).cpu = k.cpu ∧ (switching k n).kstacks = k.kstacks ∧
      (switching k n).mem = k.mem ∧ (switching k n).kernelPagetable = k.kernelPagetable ∧
      (switching k n).current = n := by
    rw [switching]
    split_ifs <;> exact ⟨rfl, rfl, rfl, rfl, rfl⟩
  obtain ⟨hcpu, hst, hmem, hpt, hcur⟩ := hfields
  obtain ⟨stack, ctx, hstack, hctx, hres, rfl⟩ := switch_cases hs
  rw [hcpu, h.stack] at hstack
  obtain rfl := Option.some.inj hstack
  have hsave := saveContext_eq (atSwitch cfg env k.cpu k.current)
    ((switching k n).tasks k.current).taskContext
  rw [hcpu] at hctx
  rw [← hctx] at hsave
  have hself : ∀ t, ((switching k n).setTask k.current t).tasks k.current = t := fun t =>
    setTask_self _ _ _
  refine ⟨⟨hmem, hpt, ?_, fun i => ?_, fun i hi => ?_⟩, hcur, ?_, hres, fun hk => ?_⟩
  · rw [loadContext_satp, atSwitch_satp, hcpu]
  · obtain ⟨st, hi⟩ := switching_tasks k n i
    by_cases hic : i = k.current
    · subst hic
      exact ⟨st, ctx, (hself _).trans (by rw [hi])⟩
    · exact ⟨st, (k.tasks i).taskContext, (setTask_of_ne _ hic _).trans hi⟩
  · obtain ⟨st, hti⟩ := switching_tasks k n i
    have ht := (setTask_of_ne (switching k n) hi
      { (switching k n).tasks k.current with taskContext := ctx }).trans hti
    refine ⟨?_, ?_, ?_⟩
    · rw [ht]
    · exact (Function.update_of_ne hi _ _).trans (congrFun hst i)
    · rw [ht]
      rfl
  · exact loadContext_sp _ _
  · obtain ⟨st, hi⟩ := switching_tasks k n k.current
    refine ⟨?_, .inr ⟨?_, ?_⟩, hk.congr ?_⟩
    · rw [hself]
      change kernelStackOf (ctx 1) = _
      rw [hsave.2]
      exact kernelStackOf_atSwitch _ _
    · rw [hself]
      change ctx 0 = _
      rw [hsave.1]
      exact atSwitch_ra _ _
    · rw [hself]
      exact Function.update_self _ _ _
    · rw [hself, hi]
      rfl

/-- **A yield leads to a live task, on its own stack**, or nowhere. -/
theorem sysYield_stack (h : OnStack cfg k)
    (hself : k.sched.Live k.current → KontOk k k.current self)
    (hy : sysYield cfg env self k = .ok (kont, k')) :
    (k' = k ∧ kont = self) ∨ (Switched k k' ∧ StackInv cfg (.kernel kont) k' ∧
      (k'.current ≠ k.current → Suspended cfg k k'.current kont) ∧
      (k'.current = k.current → kont = self) ∧
      (k.sched.Live k.current → k'.current ≠ k.current → Suspended cfg k' k.current self)) := by
  obtain ⟨hk, hs, -⟩ | ⟨n, hn, hl, hs⟩ := sysYield_cases hy
  · exact .inl ⟨hk, hs⟩
  obtain ⟨hsw, hcur, hsp, hres, hsusp⟩ := switch_spec h hs
  have hlive : ∀ i, k'.sched.Live i ↔ k.sched.Live i := fun i => by
    rw [sysYield_sched hy]
    exact (Sched.sameProcs_yield _).live i
  subst hcur
  have hnext : Suspended cfg k' k'.current kont ∧
      (k'.current ≠ k.current → Suspended cfg k k'.current kont) ∧
      (k'.current = k.current → kont = self) := by
    by_cases hne : k'.current = k.current
    · have hsu := hsusp (hself (hne ▸ hl))
      have hres' := hsu.resumeAt
      rw [← hne, hres] at hres'
      obtain rfl := Except.ok.inj hres'
      exact ⟨hne ▸ hsu, fun h => absurd hne h, fun _ => rfl⟩
    · obtain ⟨κ, hκ⟩ := h.suspended _ hne hl
      have hsu := hκ.congr (hsw.thread _ hne)
      have hres' := hsu.resumeAt
      rw [hres] at hres'
      obtain rfl := Except.ok.inj hres'
      exact ⟨hsu, fun _ => hκ, fun h => absurd h hne⟩
  refine .inr ⟨hsw, StackInv.of_onStack ⟨fun i => ?_, fun i hi hli => ?_, ?_, ?_⟩ hnext.1.ok,
    hnext.2.1, hnext.2.2, fun hc _ => hsusp (hself hc)⟩
  · obtain ⟨st, ctx, ht⟩ := hsw.task i
    rw [ht]
    exact h.kstack i
  · rw [hlive] at hli
    by_cases hic : i = k.current
    · subst hic
      exact ⟨self, hsusp (hself hli)⟩
    · obtain ⟨κ, hκ⟩ := h.suspended i hic hli
      exact ⟨κ, hκ.congr (hsw.thread i hic)⟩
  · rw [hsp]
    exact hnext.1.stack
  · rw [hsw.satp, hsw.kernelPagetable]
    exact h.satp

/-! ## Other calls -/

/-- A change of the records of others: those that live are as they were, or are suspended. -/
theorem OnStack.of_others (h : OnStack cfg k)
    (hkst : ∀ i, (k'.tasks i).kstack = (k.tasks i).kstack) (hcur : k'.current = k.current)
    (hcpu : k'.cpu = k.cpu) (hpt : k'.kernelPagetable = k.kernelPagetable)
    (ho : ∀ i, i ≠ k.current → k'.sched.Live i →
      (k.sched.Live i ∧ SameThread k k' i) ∨ ∃ kont, Suspended cfg k' i kont) : OnStack cfg k' where
  kstack i := (hkst i).trans (h.kstack i)
  suspended i hi hl := by
    rw [hcur] at hi
    obtain ⟨hl', ht⟩ | hs := ho i hi hl
    · obtain ⟨kont, hs⟩ := h.suspended i hi hl'
      exact ⟨kont, hs.congr ht⟩
    · exact hs
  stack := by rw [hcpu, hcur]; exact h.stack
  satp := by rw [hcpu, hpt]; exact h.satp

theorem OnStack.withMem (h : OnStack cfg k) (m : Mem) : OnStack cfg { k with mem := m } :=
  h.of_others (fun _ => rfl) rfl rfl rfl fun _ _ hl => .inl ⟨hl, rfl, rfl, rfl⟩

theorem kstack_setTask (k : Kernel) {c : Slot} {t : TaskControlBlock} (m : Mem)
    (ht : t.kstack = (k.tasks c).kstack) (i : Slot) :
    (({ k with mem := m }.setTask c t).tasks i).kstack = (k.tasks i).kstack := by
  by_cases hi : i = c
  · subst hi
    rw [setTask_self, ht]
  · rw [setTask_of_ne _ hi]

theorem thread_setTask (k : Kernel) {c : Slot} (t : TaskControlBlock) (m : Mem) (hi : i ≠ c) :
    SameThread k ({ k with mem := m }.setTask c t) i := by
  have ht := setTask_of_ne { k with mem := m } hi t
  exact ⟨by rw [ht], rfl, by rw [ht]⟩

/-- What a call that returns to the running task does to the threads of the others. -/
structure Returned (cfg : Config) (k k' : Kernel) : Prop where
  onStack : OnStack cfg k'
  current : k'.current = k.current
  cx : k'.cur.cx = k.cur.cx
  thread : ∀ i, i ≠ k.current → k.sched.Live i → SameThread k k' i

theorem Returned.withMem (h : Returned cfg k k') (m : Mem) : Returned cfg k { k' with mem := m } :=
  ⟨h.onStack.withMem m, h.current, h.cx, fun i hi hl => (h.thread i hi hl).trans ⟨rfl, rfl, rfl⟩⟩

theorem Returned.refl (h : OnStack cfg k) : Returned cfg k k :=
  ⟨h, rfl, rfl, fun i _ _ => .refl k i⟩

section Calls

variable (h : OnStack cfg k)

include h in
theorem sysExec_stack {name : ℕ} (he : sysExec cfg env name k = .ok k') : Returned cfg k k' := by
  have hsched := sysExec_sched he
  obtain ⟨m, root, u, rfl⟩ := sysExec_shape he
  refine ⟨h.of_others (kstack_setTask k m rfl) rfl rfl rfl fun i hi hl =>
    .inl ⟨by rwa [hsched] at hl, thread_setTask k _ m hi⟩, rfl, ?_,
    fun i hi _ => thread_setTask k _ m hi⟩
  exact (congrArg TaskControlBlock.cx (setTask_self _ k.current _)).trans rfl

include h in
theorem freeChild_stack {child : Slot} (hc : k.sched.Live k.current)
    (hz : (k.tasks child).taskState = .zombie) (hf : freeChild k child = .ok k') :
    Returned cfg k k' := by
  have hsched := freeChild_sched hf
  have hne : ∀ {i}, k.sched.Live i → i ≠ child := fun hl he => by
    subst he
    rw [Sched.Live, show (k.sched.procs _).taskState = .zombie from hz] at hl
    exact absurd hl (by decide)
  obtain ⟨m, rfl⟩ := freeChild_shape hf
  refine ⟨h.of_others (kstack_setTask k m rfl) rfl rfl rfl fun i hi hl => ?_, rfl, ?_,
    fun i _ hl => thread_setTask k _ m (hne hl)⟩
  · have hic : i ≠ child := fun he => by
      subst he
      rw [hsched, Sched.Live, Sched.reap] at hl
      simp only [Function.update_self] at hl
      exact absurd hl (by decide)
    rw [hsched, Sched.Live, Sched.reap] at hl
    simp only [Function.update_of_ne hic] at hl
    exact .inl ⟨hl, thread_setTask k _ m hic⟩
  · exact congrArg TaskControlBlock.cx (setTask_of_ne _ (hne hc) _)

include h in
theorem sysFork_stack {pid : BitVec 32} (hc : k.sched.Live k.current)
    (hf : sysFork cfg k = .ok (pid, k')) : Returned cfg k k' := by
  obtain ⟨-, -, rfl⟩ | ⟨p, f, root, m, hp, -, hk⟩ := sysFork_shape hf
  · exact (Returned.refl h).withMem _
  have hpu := unInit_of_freeSlot hp
  have hne : ∀ {i}, k.sched.Live i → i ≠ p := fun hl he =>
    hl.not_unInit (he ▸ hpu : (k.tasks _).taskState = .unInit)
  rw [hk (hne hc)]
  have hother : ∀ {i}, i ≠ p → (afterFork cfg k p f root m).tasks i = k.tasks i := fun hi =>
    Function.update_of_ne hi _ _
  have hth : ∀ {i}, i ≠ p → SameThread k (afterFork cfg k p f root m) i := fun hi =>
    ⟨by rw [hother hi], rfl, by rw [hother hi]⟩
  refine ⟨h.of_others (fun i => ?_) rfl rfl rfl fun i hi hl => ?_, rfl, ?_,
    fun i _ hl => hth (hne hl)⟩
  · by_cases hi : i = p
    · subst hi
      rw [afterFork_self]
      rfl
    · rw [hother hi]
  · by_cases hip : i = p
    · -- the child starts at `trap_return`
      subst hip
      refine .inr ⟨.trapReturn, ?_, .inl ⟨?_, rfl⟩, trivial⟩
      · rw [afterFork_self]
        change kernelStackOf (BitVec.ofNat 64 (k.tasks i).kstack) = _
        rw [h.kstack]
        exact kernelStackOf_kstack i
      · rw [afterFork_self]
        rfl
    · rw [afterFork_sched hp, Tree.live_fork (s := k.sched) hp] at hl
      exact .inl ⟨hl.resolve_left hip, hth hip⟩
  · exact congrArg TaskControlBlock.cx (hother (hne hc))

include h in
theorem becomeZombie_stack (code : Word) :
    OnStack cfg (becomeZombie code k) ∧ ∀ i, SameThread k (becomeZombie code k) i := by
  have htask : ∀ i, ∃ st code' par, (becomeZombie code k).tasks i =
      { k.tasks i with taskState := st, exitCode := code', parent := par } := fun i => by
    by_cases hi : i = k.current
    · subst hi
      simp only [becomeZombie, childProcMv, Kernel.setTask, Function.update_self]
      split_ifs
      · exact ⟨_, _, _, rfl⟩
      · exact ⟨_, _, _, rfl⟩
    · simp only [becomeZombie, childProcMv, Kernel.setTask, Function.update_of_ne hi]
      split_ifs
      · exact ⟨_, _, _, rfl⟩
      · exact ⟨_, _, _, rfl⟩
  have hth : ∀ i, SameThread k (becomeZombie code k) i := fun i => by
    obtain ⟨st, code', par, ht⟩ := htask i
    exact ⟨by rw [ht], rfl, by rw [ht]; rfl⟩
  refine ⟨h.of_others (fun i => ?_) rfl rfl rfl fun i hi hl => .inl ⟨?_, hth i⟩, hth⟩
  · obtain ⟨st, code', par, ht⟩ := htask i
    rw [ht]
  · rw [becomeZombie_sched, Tree.live_zombify] at hl
    exact hl.1

end Calls

/-! ## Steps -/

theorem Waits.kontOk {cx : ℕ} {father : Slot} {data : Option Word} {call : SyscallId}
    (h : Waits cx father data call self) (hcx : cx = k.cur.cx) (hf : father = k.current) :
    KontOk k k.current self := by
  cases h with
  | sysYield => exact hcx
  | sysGetchar => exact hcx
  | sysRecycle => exact ⟨hcx, hf, rfl⟩

/-- What a step does to the thread of another task: nothing, but the task may be the one that goes
on. -/
def Bystander (cfg : Config) (k k' : Kernel) (mode' : Mode) (i : Slot) : Prop :=
  SameThread k k' i ∧ (k'.current = i → ∃ kont, mode' = .kernel kont ∧ Suspended cfg k i kont)

theorem Bystander.of_mem {mode' : Mode} {m : Mem}
    (h : Bystander cfg { k with mem := m } k' mode' i) : Bystander cfg k k' mode' i :=
  ⟨h.1.of_mem, fun he => (h.2 he).imp fun _ hκ =>
    ⟨hκ.1, hκ.2.congr ⟨rfl, rfl, rfl⟩⟩⟩

theorem Returned.bystander (h : Returned cfg k k') (mode' : Mode) (hi : i ≠ k.current)
    (hl : k.sched.Live i) : Bystander cfg k k' mode' i :=
  ⟨h.thread i hi hl, fun he => absurd (he.symm.trans h.current) hi⟩

theorem sysYield_bystander (h : OnStack cfg k)
    (hself : k.sched.Live k.current → KontOk k k.current self)
    (hy : sysYield cfg env self k = .ok (kont, k')) (hi : i ≠ k.current) :
    Bystander cfg k k' (.kernel kont) i := by
  obtain ⟨rfl, -⟩ | ⟨hsw, -, hsu, -⟩ := sysYield_stack h hself hy
  · exact ⟨.refl _ i, fun he => absurd he.symm hi⟩
  · refine ⟨hsw.thread i hi, fun he => ⟨kont, rfl, ?_⟩⟩
    have := hsu (by rw [he]; exact hi)
    rwa [he] at this

/-- A system call keeps every task on its own stack. -/
theorem Served.stack {cx : ℕ} {father : Slot} {data : Option Word} {call : SyscallId} {op : Op}
    (h : OnStack cfg k)
    (hc : k.sched.Live k.current) (hcx : cx = k.cur.cx) (hf : father = k.current)
    (hs : Served cfg env cx father data k call op kont k') :
    StackInv cfg (.kernel kont) k' ∧
      ∀ i, i ≠ k.current → k.sched.Live i → Bystander cfg k k' (.kernel kont) i := by
  have key : ∀ {v}, Returned cfg k k' → StackInv cfg (.kernel (.sysReturn cx v)) k' ∧
      ∀ i, i ≠ k.current → k.sched.Live i →
        Bystander cfg k k' (.kernel (.sysReturn cx v)) i := fun hr =>
    ⟨.of_onStack hr.onStack (hcx.trans hr.cx.symm),
      fun i hi hl => hr.bystander _ hi hl⟩
  cases hs with
  | quiet _ v out => exact key ((Returned.refl h).withMem _)
  | putchar _ hpa hst =>
    obtain ⟨-, rfl⟩ := kernelStoreByte_shape hst
    exact key ((Returned.refl h).withMem _)
  | fork hk => exact key (sysFork_stack h hc hk)
  | exec hk =>
    have hr := sysExec_stack (h.withMem _) hk
    exact key ⟨hr.onStack, hr.current, hr.cx, fun i hi hl =>
      (hr.thread i hi hl).of_mem⟩
  | reap out hz hk =>
    exact key ((freeChild_stack h hc (zombie_of_zombieChild hz).2 hk).withMem _)
  | exit hpid hy hk =>
    rename_i code
    obtain ⟨hz, hth⟩ := becomeZombie_stack h code
    have hdead : (becomeZombie code k).sched.Live (becomeZombie code k).current →
        KontOk (becomeZombie code k) (becomeZombie code k).current .exit := fun hl => by
      rw [becomeZombie_sched, Tree.live_zombify] at hl
      exact absurd rfl hl.2
    refine ⟨?_, fun i hi _ => ?_⟩
    · obtain ⟨-, rfl⟩ | ⟨-, hst, -⟩ := sysYield_stack hz hdead hy
      · exact absurd rfl hk
      · exact hst
    · obtain ⟨hsame, hgo⟩ := sysYield_bystander hz hdead hy hi
      refine ⟨(hth i).trans hsame, fun he => ?_⟩
      obtain ⟨κ, hκ, hsu⟩ := hgo he
      exact ⟨κ, hκ, hsu.congr ⟨(hth i).taskContext.symm, (hth i).kstacks.symm, (hth i).cx.symm⟩⟩
  | yield hw hy =>
    have hok := hw.kontOk (k := k) hcx hf
    refine ⟨?_, fun i hi _ => sysYield_bystander h (fun _ => hok) hy hi⟩
    obtain ⟨rfl, rfl⟩ | ⟨-, hst, -⟩ := sysYield_stack h (fun _ => hok) hy
    · exact .of_onStack h hok
    · exact hst

theorem enterTrap_stack {mode : Mode} {scause : Word} (h : StackInv cfg mode k)
    (he : enterTrap cfg scause k = .ok k') :
    OnStack cfg k' ∧ ∀ i, i ≠ k.current → SameThread k k' i := by
  obtain ⟨m, c, rfl, hsatp, hsp⟩ := enterTrap_shape he
  have hth : ∀ i, i ≠ k.current → SameThread k
      { k with mem := m, cpu := c, kstacks := Function.update k.kstacks k.current none } i :=
    fun i hi => ⟨rfl, Function.update_of_ne hi _ _, rfl⟩
  refine ⟨⟨h.kstack, fun i hi hl => ?_, ?_, hsatp⟩, hth⟩
  · obtain ⟨κ, hκ⟩ := h.suspended i hi hl
    exact ⟨κ, hκ.congr (hth i hi)⟩
  · change kernelStackOf (c.reg 2) = _
    rw [hsp, Kernel.cur, h.kstack]
    exact kernelStackOf_kstack k.current

/-- **Every step keeps every task on its own stack.** -/
theorem Stepped.stack {mode mode' : Mode} {e : Event cfg} {op : Op} (h : StackInv cfg mode k)
    (hc : k.sched.Live k.current) (hs : Stepped mode k e op mode' k') :
    StackInv cfg mode' k' ∧
      ∀ i, i ≠ k.current → k.sched.Live i → Bystander cfg k k' mode' i := by
  have hleave : ∀ {m c}, k' = { k with mem := m, cpu := c } → StackInv cfg .user k' ∧
      ∀ i, i ≠ k.current → k.sched.Live i → Bystander cfg k k' .user i := fun he => by
    subst he
    exact ⟨⟨h.kstack, fun i hi hl => (h.suspended i hi hl).imp fun _ hκ => hκ.congr ⟨rfl, rfl, rfl⟩,
      fun _ he => nomatch he⟩, fun i hi _ => ⟨⟨rfl, rfl, rfl⟩, fun he => absurd he.symm hi⟩⟩
  have htrap : ∀ {k₁ kont scause}, enterTrap cfg scause k = .ok k₁ →
      (StackInv cfg (.kernel kont) k' ∧
        ∀ i, i ≠ k₁.current → k₁.sched.Live i → Bystander cfg k₁ k' (.kernel kont) i) →
      StackInv cfg (.kernel kont) k' ∧
        ∀ i, i ≠ k.current → k.sched.Live i → Bystander cfg k k' (.kernel kont) i :=
    fun {k₁ kont scause} he hk => by
      obtain ⟨-, hth⟩ := enterTrap_stack h he
      refine ⟨hk.1, fun i hi hl => ?_⟩
      have hcur : k₁.current = k.current := by
        obtain ⟨m, c, rfl, -⟩ := enterTrap_shape he
        rfl
      obtain ⟨hsame, hgo⟩ := hk.2 i (by rw [hcur]; exact hi) (by rw [enterTrap_sched he]; exact hl)
      refine ⟨(hth i hi).trans hsame, fun hi' => ?_⟩
      obtain ⟨κ, hκ, hsu⟩ := hgo hi'
      exact ⟨κ, hκ, hsu.congr
        ⟨(hth i hi).taskContext.symm, (hth i hi).kstacks.symm, (hth i hi).cx.symm⟩⟩
  cases hs with
  | idle => exact ⟨h, fun i hi _ => ⟨.refl k i, fun he => absurd he.symm hi⟩⟩
  | compute _ x pc => exact hleave (m := k.mem) rfl
  | store _ va b =>
    obtain ⟨m, hm⟩ := userStore_shape va b k
    exact hleave (m := m) (c := k.cpu) hm
  | timer he _ hy =>
    obtain ⟨hon, -⟩ := enterTrap_stack h he
    rename_i k₁ _ _ _ _
    have hok : KontOk k₁ k₁.current .timer := trivial
    refine htrap he ⟨?_, fun i hi _ => sysYield_bystander hon (fun _ => hok) hy hi⟩
    obtain ⟨rfl, rfl⟩ | ⟨-, hst, -⟩ := sysYield_stack hon (fun _ => hok) hy
    · exact .of_onStack hon trivial
    · exact hst
  | interrupt out he _ =>
    obtain ⟨hon, -⟩ := enterTrap_stack h he
    exact htrap he ⟨.of_onStack (hon.withMem _) trivial,
      fun i hi hl => ((Returned.refl hon).withMem _).bystander _ hi hl⟩
  | @ecall _ k₁ _ _ _ _ _ _ he _ _ hsv =>
    obtain ⟨hon, -⟩ := enterTrap_stack h he
    have hon' : OnStack cfg (moveSepc k₁) := hon.withMem _
    have hc₁ : (moveSepc k₁).sched.Live k₁.current := by
      obtain ⟨m, c, rfl, -⟩ := enterTrap_shape he
      exact hc
    obtain ⟨hst, hby⟩ := hsv.stack hon' hc₁ rfl rfl
    exact htrap he ⟨hst, fun i hi hl => (hby i hi hl).of_mem⟩
  | leave _ ht =>
    obtain ⟨m, c, hk⟩ := trapReturn_shape ht
    exact hleave hk
  | yielded =>
    exact ⟨.of_onStack h.onStack h.kontOk, fun i hi _ => ⟨.refl k i, fun he => absurd he.symm hi⟩⟩
  | getchar hsv => exact hsv.stack h.onStack hc h.kontOk rfl
  | recycle hsv => exact hsv.stack h.onStack hc h.kontOk.1 h.kontOk.2.1
  | sysReturn ht =>
    obtain ⟨m, c, hk⟩ := trapReturn_shape ht
    exact hleave hk

end RiscvOs
