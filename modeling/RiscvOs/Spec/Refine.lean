import RiscvOs.Spec.View

/-!
# The kernel implements the processes

* `MemInv.low_storeByte`: a byte stored through a page of a task is a byte in its memory.
* `getchar_act`, `recycle_act`, `call_os`: the code of the system calls, as acts of the process.
* **`step_os`**: every step of the kernel is a step of the processes, with the same event.
-/

set_option autoImplicit false

namespace RiscvOs

open PageTableEntry

variable {cfg : Config} {env : Env cfg} {mode mode' : Mode} {k k' : Kernel} {t : Slot} {kont : Kont}

/-! ## Bytes -/

/-- Two pages of a task are in two frames. -/
theorem MemInv.page_injective (h : MemInv cfg k) (hi : (k.tasks t).taskState ≠ .unInit) {v w : ℕ}
    {e e' : Word} (hv : v < trapframeVpn) (hw : w < trapframeVpn)
    (he : lookup k.mem.ram (k.tasks t).pagetable.rootPpn v = some e)
    (he' : lookup k.mem.ram (k.tasks t).pagetable.rootPpn w = some e') (heq : ppn e = ppn e') :
    v = w := by
  by_contra hne
  have hs := (h.task t hi).space
  have hlow : ∀ {x c}, x < trapframeVpn →
      lookup k.mem.ram (k.tasks t).pagetable.rootPpn x = some c →
      x ∈ Finset.Ico 0 (0 + (k.tasks t).baseSize / 4096) := fun {x c} hx hc => by
    refine Finset.mem_Ico.mpr ⟨Nat.zero_le x, ?_⟩
    by_contra hge
    rw [hs.high x (by omega) hx] at hc
    cases hc
  -- the frame would be there twice
  have hle : leaf (lookup k.mem.ram (k.tasks t).pagetable.rootPpn) v +
      leaf (lookup k.mem.ram (k.tasks t).pagetable.rootPpn) w ≤ k.owned := by
    rw [← Finset.sum_pair hne]
    refine le_trans (Finset.sum_le_sum_of_subset ?_) (le_trans (Multiset.le_add_left _ _)
      ((Kernel.taskFrames_of_init hi).symm.le.trans (MemInv.taskFrames_le k t)))
    intro x hx
    obtain rfl | rfl := Finset.mem_insert.mp hx |>.imp id Finset.mem_singleton.mp
    · exact hlow hv he
    · exact hlow hw he'
  have hnd := Multiset.nodup_of_le hle (Multiset.nodup_add.mp h.own.nodup_add).1
  rw [leaf, leaf, he, he', Option.elim_some, Option.elim_some, heq] at hnd
  exact absurd hnd (by simp)

/-- A byte stored through a page is a byte in the memory of the process. -/
theorem MemInv.low_storeByte (h : MemInv cfg k) (hi : (k.tasks t).taskState ≠ .unInit) {va e : Word}
    (hva : pageOf va < trapframeVpn)
    (he : lookup k.mem.ram (k.tasks t).pagetable.rootPpn (pageOf va) = some e) (b : Byte) :
    ({ k with mem := k.mem.storeByte (ppn e * 4096 + va.toNat % 4096) b } : Kernel).trap t =
      k.trap t ∧
    low (({ k with mem := k.mem.storeByte (ppn e * 4096 + va.toNat % 4096) b } : Kernel).pages t) =
      Function.update (low (k.pages t)) (pageOf va) ((low (k.pages t) (pageOf va)).map
        fun q => (q.1, setFrameByte q.2 (va.toNat % 4096) b)) := by
  have hlt : va.toNat % 4096 < 4096 := Nat.mod_lt _ (by decide)
  have hleaf : ppn e ∈ leaves (lookup k.mem.ram (k.tasks t).pagetable.rootPpn) 0
      ((k.tasks t).baseSize / 4096) := by
    obtain ⟨-, -, hf⟩ | ⟨hv, -⟩ | ⟨hv, -⟩ := h.lookup_cases hi (pageOf_lt va) he
    · exact hf
    · exact absurd hva (by omega)
    · have : trapframeVpn < trampolineVpn := by decide
      omega
  rw [storeByte_eq _ _ hlt]
  refine ⟨Mem.storeFrame_of_ne (h.leaf_ne_cx hi hleaf).symm _, funext fun v => ?_⟩
  -- the table is as it was
  have hlook : ∀ v < 2 ^ 27, lookup (k.mem.storeFrame (ppn e)
      (setFrameByte (k.mem.ram (ppn e)) (va.toNat % 4096) b)).ram
      (k.tasks t).pagetable.rootPpn v = lookup k.mem.ram (k.tasks t).pagetable.rootPpn v :=
    fun v hv => by
      refine ((h.task t hi).space.table.congr fun f hf => ?_).lookup v hv
      have hf' : f ≠ ppn e := fun he => h.leaf_not_mem_table hi hleaf (he ▸ hf)
      exact Mem.storeFrame_of_ne hf' _
  by_cases hv : v < trapframeVpn
  swap
  · have hne : v ≠ pageOf va := fun he => hv (he ▸ hva)
    rw [Function.update_of_ne hne, low, low, if_neg hv, if_neg hv]
  have hv27 : v < 2 ^ 27 := lt_trans hv (by decide)
  by_cases hne : v = pageOf va
  · subst hne
    rw [Function.update_self, low, low, if_pos hv, if_pos hv, Kernel.pages, Kernel.pages, pagesOf,
      pagesOf, hlook _ hv27, he]
    simp only [Option.map_some, Mem.storeFrame_self]
  · rw [Function.update_of_ne hne, low, low, if_pos hv, if_pos hv, Kernel.pages, Kernel.pages,
      pagesOf, pagesOf, hlook _ hv27]
    cases he' : lookup k.mem.ram (k.tasks t).pagetable.rootPpn v with
    | none => rfl
    | some e' =>
      have hf : ppn e' ≠ ppn e := fun heq => hne (h.page_injective hi hv hva he' he heq)
      rw [Option.map_some, Option.map_some, Mem.storeFrame_of_ne hf]

theorem MemInv.low_storeCx (h : MemInv cfg k) (hi : k.cur.taskState ≠ .unInit) (j : Fin 512)
    (w : Word) : low (({ k with mem := k.mem.store k.cur.cx j w } : Kernel).pages k.current) =
      low (k.pages k.current) := by
  refine low_congr fun v hv => ?_
  refine h.pages_of_agree hi ?_ (fun f _ hf => ?_) hv
  · rfl
  · exact Mem.storeFrame_of_ne hf _

/-! ## The code of the calls -/

/-- A machine after `__sys_exec`. -/
theorem framed_execTrap (f : ℕ → Byte) (F : Frame) (V : ℕ → Option (Byte × Frame)) (phase : Phase) :
    framed (execTrap f F) (imagePages f) phase = (framed F V phase).exec f := by
  simp only [framed, Machine.exec, Machine.mk.injEq, and_true]
  refine ⟨funext fun r => ?_, ?_⟩
  · by_cases hr : r = 0
    · rw [if_pos hr, Function.update_of_ne (by rw [hr]; decide), if_pos hr]
    · rw [if_neg hr, execTrap]
      by_cases h₂ : r = 2
      · rw [h₂, Function.update_self, Function.update_self]
      · have hne : cxReg r ≠ cxReg 2 := fun he => h₂ (cxReg_injective he)
        rw [Function.update_of_ne hne, Function.update_of_ne (cxReg_ne_sepc r),
          Function.update_of_ne h₂, if_neg hr]
  · rw [execTrap, Function.update_of_ne (by decide), Function.update_self]

/-- A byte in the trap context, to the program. -/
theorem framed_setFrameByte (F : Frame) (V : ℕ → Option (Byte × Frame)) (phase : Phase) (o : ℕ)
    (b : Byte) : framed (setFrameByte F o b) V phase = (framed F V phase).patch o b := by
  have hword : ∀ j, setFrameByte F o b j =
      if wordIndex o = j then setWordByte (F j) (o % 8) b else F j := fun j => by
    rw [setFrameByte]
    split_ifs with hj
    · rw [← hj, Function.update_self]
    · exact Function.update_of_ne (Ne.symm hj) _ _
  simp only [framed, Machine.patch, Machine.mk.injEq, and_true]
  refine ⟨funext fun r => ?_, hword cxSepc⟩
  by_cases hr : r = 0
  · rw [if_pos hr, if_neg fun h => h.1 hr, if_pos hr]
  · rw [if_neg hr, if_neg hr, hword]
    simp only [ne_eq, hr, not_false_eq_true, true_and]

/-- The machine of the running task while a call is served, but for its phase. -/
def Serving (k : Kernel) (q : Machine) : Prop :=
  q = framed (k.trap k.current) (k.pages k.current) q.phase

section Serve

variable {κ : Kont} {cx : ℕ} {p q : Machine} {e : Event cfg} (h : MemInv cfg k)
  (hon : OnStack cfg k) (hc : k.sched.Live k.current) (hcx : cx = k.cur.cx) (hq : Serving k q)

include h hc hq in
theorem Serving.untouched (hu : Untouched k k' k.current)
    (ht : Thread cfg mode' k' k.current κ) :
    k'.machine cfg mode' k.current = { q with phase := κ.phase } := by
  rw [machine_thread ht, hu.framed_eq h (live_init hc), hq]
  rfl

include h hon hc hq in
theorem Serving.yield {self : Kont} (hself : KontOk k k.current self)
    (hy : sysYield cfg env self k = .ok (kont, k')) :
    k'.machine cfg (.kernel kont) k.current = { q with phase := self.phase } := by
  obtain ⟨hm, -, ht⟩ := sysYield_sameSpace hon (fun _ => hself) hy
  exact hq.untouched h hc (.of_same (by rw [hm]) (ht _)) (sysYield_thread hon hc hself hy)

include h hon hc hcx hq in
/-- A turn of the loop of `__sys_getchar`. -/
theorem getchar_act {s : Sched} {data : Word} (hr : Reading p e env data q)
    (hg : sysGetcharLoop cfg env cx data k = .ok (kont, k')) :
    Act cfg s p e (getcharOp env) (k'.machine cfg (.kernel kont) k.current) := by
  have hi := live_init hc
  rw [sysGetcharLoop] at hg
  rw [getcharOp]
  split_ifs at hg ⊢ with hconsole
  · have hself : KontOk k k.current (.sysGetchar cx data) := hcx
    rw [hq.yield h hon hc hself hg]
    exact .await hr hconsole
  · obtain ⟨pa, hpa, hg⟩ := exists_of_bind_ok hg
    obtain ⟨k₁, hst, hg⟩ := exists_of_bind_ok hg
    obtain ⟨rfl, rfl⟩ := Prod.mk.inj (Except.ok.inj hg)
    obtain ⟨e, he, rfl⟩ := uptrToKptr_ok hpa
    obtain ⟨-, hk₁⟩ := kernelStoreByte_shape hst
    have hcur : k₁.current = k.current := by rw [hk₁]
    have hmem : q.mem = low (k.pages k.current) := by rw [hq]; rfl
    rw [machine_thread (.of_current hcur)]
    by_cases hlow : pageOf data < trapframeVpn
    · obtain ⟨htrap, hpages⟩ := h.low_storeByte hi hlow he (env.console.setWidth 8)
      rw [← hk₁] at htrap hpages
      have hput : framed (k₁.trap k.current) (k₁.pages k.current) (Kont.sysReturn cx 0).phase =
          (q.put data (env.console.setWidth 8)).give 0 := by
        rw [framed, htrap, hpages, ← hmem, hq]
        rfl
      rw [hput]
      refine .deliver hr hconsole ?_
      rw [← hr.mem_eq, hmem, low, if_pos hlow, Kernel.pages, pagesOf,
        show lookup k.mem.ram (k.tasks k.current).pagetable.rootPpn (pageOf data) = some e from he]
      rfl
    · -- the trap context, since the trampoline is not writable
      obtain ⟨f, c, hk₁, ⟨hv, -⟩ | ⟨hv, rfl, rfl⟩⟩ := putchar_spec h hi hpa hst
      · exact absurd hv hlow
      have hpages : low (k₁.pages k.current) = low (k.pages k.current) := by
        refine low_congr fun v hv => h.pages_of_agree hi (by rw [hk₁]) (fun f _ hf => ?_) hv
        rw [hk₁]
        exact Mem.storeFrame_of_ne hf _
      have htrap : k₁.trap k.current =
          setFrameByte (k.trap k.current) (data.toNat % 4096) (env.console.setWidth 8) := by
        rw [hk₁]
        exact Mem.storeFrame_self _ _
      have hsmash : framed (k₁.trap k.current) (k₁.pages k.current) (Kont.sysReturn cx 0).phase =
          (q.patch (data.toNat % 4096) (env.console.setWidth 8)).give 0 := by
        rw [htrap, framed_setFrameByte, hq, framed, hpages]
        rfl
      rw [hsmash]
      exact .smash hr hconsole hv

include h hon hc hcx hq in
/-- A turn of the loop of `__sys_recycle`. -/
theorem recycle_act {havechild : Bool} (hr : Recycling p e q)
    (hcall : havechild = false → p.Calls .recycle e env ∧ q = p.enter)
    (hgo : havechild = true → p.phase = .waiting)
    (hg : sysRecycleLoop cfg env cx k.current havechild k = .ok (kont, k')) :
    Act cfg k.sched p e (recycleOp k.current havechild k)
      (k'.machine cfg (.kernel kont) k.current) := by
  rw [recycleOp]
  obtain ⟨i, k₁, out, hz, hf, rfl, rfl⟩ | ⟨hz, hh, rfl, out, rfl⟩ | ⟨hz, hh, hy⟩ :=
    sysRecycleLoop_cases hg
  · have hzs := zombie_of_zombieChild hz
    have hne : k.current ≠ i := fun he => zombie_not_live hzs.2 (he ▸ hc)
    have hinit := zombie_init hzs.2
    obtain ⟨m, hfr, rfl⟩ := (freeChild_spec h hinit).of_ok hf
    have hu := Untouched.of_onlyTask (hfr.onlyTask h hinit) hne (live_init hc)
    have hu' : Untouched k { afterFree k i m with mem.console := out } k.current := ⟨hu.1, hu.2⟩
    simp only [hz]
    rw [hq.untouched h hc hu' (.of_current rfl)]
    exact .reap hr i hzs
  · simp only [hz, hh, Bool.false_eq_true, if_false]
    have hfalse : havechild = false := by
      cases havechild with
      | false => rfl
      | true => cases hh
    obtain ⟨hp, hqp⟩ := hcall hfalse
    have hu : Untouched k { k with mem.console := out } k.current := .of_same rfl (.refl _)
    rw [hq.untouched h hc hu (.of_current rfl), hqp]
    refine .noChild hp fun i hi => ?_
    rw [hasChild, hfalse, Bool.false_or, List.any_eq_false] at hh
    exact hh i (List.mem_finRange i) (decide_eq_true hi)
  · simp only [hz, hh, if_true]
    have hself : KontOk k k.current (.sysRecycle cx k.current true) := ⟨hcx, rfl, rfl⟩
    rw [hq.yield h hon hc hself hy]
    refine .wait hr (fun i hi => ?_) ?_
    · have hnone := List.find?_eq_none.mp hz i (List.mem_finRange i)
      exact hnone (decide_eq_true hi)
    · rw [hasChild, Bool.or_eq_true, List.any_eq_true] at hh
      obtain hh | ⟨i, -, hi⟩ := hh
      · exact .inl (hgo hh)
      · exact .inr ⟨i, of_decide_eq_true hi⟩

include h hc hq in
/-- `__sys_exec`. -/
theorem exec_machine (hwf : cfg.WellFormed) (cx : ℕ) {name : ℕ}
    (hx : sysExec cfg env name k = .ok k') :
    ∃ path a, k.mem.cstring name = .ok path ∧ cfg.find path = some a ∧
      k'.machine cfg (.kernel (.sysReturn cx 0)) k.current =
        (q.exec (a.view env).file).give 0 := by
  have hi := live_init hc
  obtain ⟨path, a, root, N, D, m, m', hxd, rfl⟩ := (sysExec_spec h hi hwf).of_ok hx
  have htrap : (afterExec k (a.view env).file root m').trap k.current =
      execTrap (a.view env).file (k.trap k.current) := by
    rw [Kernel.trap, afterExec_self]
    exact hxd.trap h hi
  have hpages : low ((afterExec k (a.view env).file root m').pages k.current) =
      low (imagePages (a.view env).file) := low_congr fun v hv => by
    rw [Kernel.pages, afterExec_self]
    exact (hxd.space h hi).pages v hv
  refine ⟨path, a, hxd.name, hxd.app, ?_⟩
  have hthread : Thread cfg (.kernel (.sysReturn cx 0))
      (afterExec k (a.view env).file root m') k.current (.sysReturn cx 0) := .of_current rfl
  rw [machine_thread hthread, htrap, hq, Machine.give, ← framed_execTrap]
  simp only [framed, hpages]
  rfl

end Serve

/-! ## The calls -/

/-- In the trap handler the machine is in the trap context. -/
theorem Handling.interrupted {scause : Word} {k₁ : Kernel} (h : Inv cfg .user k)
    (hh : Handling cfg scause k k₁) : Serving k₁ (k.machine cfg .user k.current) := by
  have hcur : k₁.current = k.current := hh.current
  have htasks : k₁.tasks = k.tasks := hh.call_tasks
  have hpages : low (k₁.pages k.current) = low (k.pages k.current) :=
    low_congr fun v hv => h.mem.pages_of_agree h.init (by rw [htasks]) (fun f _ hf => by
      obtain ⟨c, rfl, -⟩ := hh.entered.shape
      exact Mem.storeFrame_of_ne hf _) hv
  rw [Serving, hcur, hh.entered.trap, machine_user rfl, framed, hpages]
  simp only [Machine.mk.injEq, and_true]
  refine ⟨funext fun r => ?_, (savedFrame_sepc k scause).symm⟩
  by_cases hr : r = 0
  · rw [if_pos hr, Cpu.reg, if_pos hr]
  · rw [if_neg hr, savedFrame_reg k scause hr]

/-- Where a call is served, the machine is past the `ecall`. -/
theorem Handling.serving {scause : Word} {k₁ : Kernel} (h : Inv cfg .user k)
    (hh : Handling cfg scause k k₁) :
    Serving (moveSepc k₁) (k.machine cfg .user k.current).enter := by
  have hcur : (moveSepc k₁).current = k.current := hh.current
  have htasks : (moveSepc k₁).tasks = k.tasks := hh.call_tasks
  have hpages : low ((moveSepc k₁).pages k.current) = low (k.pages k.current) :=
    low_congr fun v hv => hh.call_pages h.mem h.init hv
  rw [Serving, hcur, hh.entered.moveSepc, machine_user rfl, Machine.enter, framed, hpages]
  simp only [Machine.mk.injEq, and_true]
  refine ⟨funext fun r => ?_, (callFrame_sepc k scause).symm⟩
  by_cases hr : r = 0
  · rw [if_pos hr, Cpu.reg, if_pos hr]
  · rw [if_neg hr, callFrame_reg k scause hr]

theorem machine_user_phase : (k.machine cfg .user k.current).phase = .user := by
  rw [machine_user rfl]

theorem machine_user_reg : (k.machine cfg .user k.current).reg = k.cpu.reg := by
  rw [machine_user rfl]

/-- An `ecall` of the program. -/
theorem machine_calls {scause : Word} {call : SyscallId} (he : IsEcall scause)
    (hid : SyscallId.ofWord (k.cpu.reg 17) = some call) :
    (k.machine cfg .user k.current).Calls call (.trap scause env) env :=
  .ecall machine_user_phase (by rw [Machine.call, machine_user_reg, hid]) he

/-- The kernel reads a string that ends in its page as the program does. -/
theorem Handling.reads_eq {scause : Word} {k₁ : Kernel} (h : Inv cfg .user k)
    (hh : Handling cfg scause k k₁) {uptr : Word} {path str : List Byte}
    (hpath : callString (moveSepc k₁) uptr = .ok path)
    (hr : (k.machine cfg .user k.current).Reads uptr str) : path = str := by
  obtain ⟨hnul, hin, q, hq, hbyte⟩ := hr
  rw [machine_user rfl] at hq
  obtain ⟨hlow, hq⟩ : pageOf uptr < trapframeVpn ∧ k.pages k.current (pageOf uptr) = some q := by
    simp only [low] at hq
    split_ifs at hq with hlow
    exact ⟨hlow, hq⟩
  obtain ⟨e, he, rfl⟩ := Option.map_eq_some_iff.mp hq
  obtain ⟨-, -, hleaf⟩ | ⟨hv, -⟩ | ⟨hv, -⟩ := h.mem.lookup_cases h.init (pageOf_lt uptr) he
  rotate_left
  · exact absurd hv hlow.ne
  · have htop : trapframeVpn < trampolineVpn := by decide
    omega
  have hown := MemInv.frames_mem h.init (Multiset.mem_add.mpr (.inr hleaf))
  have hbase := cfg.layout
  have hread : callString (moveSepc k₁) uptr = .ok str := by
    refine callString_eq_ok_iff.mpr ⟨hnul, e, ?_, fun o ho => ?_⟩
    · rw [hh.call_cur, hh.call_lookup h.mem h.init (pageOf_lt uptr)]
      exact he
    · obtain ⟨hge, hlt⟩ := h.mem.frame_mapped (o := uptr.toNat % 4096 + o) hown (by omega)
      rw [Nat.add_assoc]
      refine ⟨by omega, hlt, ?_⟩
      rw [Mem.byte_frame _ _ (by omega), hh.call_ram (h.mem.leaf_ne_cx h.init hleaf)]
      exact hbyte o ho
  exact Except.ok.inj (hpath.symm.trans hread)

/-- The machine of a child. -/
theorem framed_forkedTrap (F : Frame) (V : ℕ → Option (Byte × Frame)) (kstack : ℕ)
    (phase : Phase) :
    framed (forkedTrap F kstack) V .interrupted = (framed F V phase).child := by
  simp only [framed, Machine.child, Machine.setReg, Machine.mk.injEq, and_true]
  refine ⟨funext fun r => ?_, ?_⟩
  · by_cases hr : r = 0
    · rw [if_pos hr, Function.update_of_ne (by rw [hr]; decide), if_pos hr]
    rw [if_neg hr]
    by_cases h₁₀ : r = 10
    · rw [h₁₀, forkedTrap, Function.update_of_ne (by decide), Function.update_self,
        Function.update_self]
    · have hne : cxReg r ≠ cxReg 10 := fun he => h₁₀ (cxReg_injective he)
      rw [forkedTrap_of_ne _ _ hne (cxReg_ne_kernelSp r), Function.update_of_ne h₁₀, if_neg hr]
  · exact forkedTrap_of_ne _ _ (by decide) (by decide)

theorem Forked.machine_child {i : Slot} {f root : ℕ} {m : Mem} {q : Machine}
    (hf : Forked cfg k i f root m) (hq : Serving k q)
    (ht : Thread cfg mode (afterFork cfg k i f root m) i .trapReturn) :
    (afterFork cfg k i f root m).machine cfg mode i = q.child := by
  rw [machine_thread ht, hf.trap_child, hq, ← framed_forkedTrap _ _ (k.tasks i).kstack]
  exact framed_ext rfl (low_congr fun v hv => hf.pages_child hv)

section Ecall

variable {scause : Word} {k₁ : Kernel} (hwf : cfg.WellFormed) (h : Inv cfg .user k)
  (hh : Handling cfg scause k k₁)

include hwf h hh in
/-- **A fork.** The child is a copy of the machine, in which `a0` is 0. -/
theorem fork_os {pid : BitVec 32} (hec : IsEcall scause)
    (hs : Stepped .user k (.trap scause env) .fork
      (.kernel (.sysReturn k₁.cur.cx (pid.signExtend 64))) k')
    (hid : SyscallId.ofWord (k.cpu.reg 17) = some .fork)
    (hf : sysFork cfg (moveSepc k₁) = .ok (pid, k')) :
    OsStep cfg (k.os cfg .user) (.trap scause env)
      (k'.os cfg (.kernel (.sysReturn k₁.cur.cx (pid.signExtend 64)))) := by
  have hcall : (k.machine cfg .user k.current).Calls .fork (.trap scause env) env :=
    machine_calls hec hid
  have hsv := hh.serving h
  have hm := (hh.call_keeps h.mem).mem
  have hl : (moveSepc k₁).sched.Live (moveSepc k₁).current := hh.live
  have hcur : (moveSepc k₁).current = k.current := hh.current
  have hsched : (moveSepc k₁).sched = k.sched := hh.sched
  have hsp := hs.sched h.live
  obtain ⟨hfull, hr⟩ | ⟨i, f, root, m, hfk, hr⟩ := (sysFork_spec hm (live_init hl)).of_ok hf
  · obtain ⟨rfl, rfl⟩ := Prod.mk.inj hr
    have hu : Untouched (moveSepc k₁) ((moveSepc k₁).printf "child_proc failed!" [])
      (moveSepc k₁).current := .of_same rfl (.refl _)
    refine os_act hwf h hs ?_
    rw [← hcur, hsv.untouched hm hl hu (.of_current rfl), hcur]
    exact .forkFull hcall (hsched ▸ hfull)
  · obtain ⟨rfl, rfl⟩ := Prod.mk.inj hr
    set k₂ := afterFork cfg (moveSepc k₁) i f root m with hk₂
    have hslot : k.sched.freeSlot = some i := hsched ▸ hfk.slot
    have hsf : k₂.sched = k.sched.fork := hsp.1
    have hlive : ∀ t, k₂.sched.Live t ↔ t = i ∨ k.sched.Live t := fun t => by
      rw [hsf, Tree.live_fork hslot]
    have hdead : ¬ k.sched.Live i := fun hi =>
      live_init hi (hh.call_tasks ▸ unInit_of_freeSlot hfk.slot)
    have hci : k.current ≠ i := fun he => hdead (he ▸ h.live)
    have hu := Untouched.of_onlyTask (hfk.onlyTask hm) (hfk.ne (live_init hl)) (live_init hl)
    -- the parent
    have hparent : k₂.machine cfg (.kernel (.sysReturn k₁.cur.cx
        ((BitVec.ofNat 32 (moveSepc k₁).nextPid).signExtend 64))) k.current =
        (k.machine cfg .user k.current).enter.give
          ((BitVec.ofNat 32 k.sched.nextPid).signExtend 64) := by
      rw [← hcur, hsv.untouched hm hl hu (.of_current rfl), hcur,
        show (moveSepc k₁).nextPid = k.sched.nextPid from congrArg Sched.nextPid hsched]
      rfl
    -- the child
    have hchild : k₂.machine cfg (.kernel (.sysReturn k₁.cur.cx
        ((BitVec.ofNat 32 (moveSepc k₁).nextPid).signExtend 64))) i =
        (k.machine cfg .user k.current).enter.child := by
      have hne : i ≠ (moveSepc k₁).current := fun he => hci (hcur.symm.trans he.symm)
      exact hfk.machine_child hsv ((hs.inv hwf h).1.stack.onStack.thread_child hne
        ((hlive i).mpr (.inl rfl)))
    have hos : k₂.os cfg (.kernel (.sysReturn k₁.cur.cx
        ((BitVec.ofNat 32 (moveSepc k₁).nextPid).signExtend 64))) = ⟨k.sched.fork,
        Function.update (Function.update (k.os cfg .user).proc k.current
          (some ((k.machine cfg .user k.current).enter.give
            ((BitVec.ofNat 32 k.sched.nextPid).signExtend 64)))) i
          (some (k.machine cfg .user k.current).enter.child)⟩ := by
      refine os_eq hsf fun t => ?_
      by_cases hti : t = i
      · subst hti
        rw [Function.update_self, os_proc_live ((hlive t).mpr (.inl rfl)), hchild]
      rw [Function.update_of_ne hti]
      by_cases htc : t = k.current
      · subst htc
        rw [Function.update_self, os_proc_live ((hlive _).mpr (.inr h.live)), hparent]
      · rw [Function.update_of_ne htc]
        exact hs.os_proc_other hwf h htc ((hlive t).trans (or_iff_right hti))
    rw [hos]
    exact .fork (os_proc_live h.live) hcall hslot

include hwf h in
/-- **An exit.** -/
theorem exit_os (hec : IsEcall scause) (hs : Stepped .user k (.trap scause env) .exit mode' k')
    (hid : SyscallId.ofWord (k.cpu.reg 17) = some .exit) :
    OsStep cfg (k.os cfg .user) (.trap scause env) (k'.os cfg mode') := by
  obtain ⟨hsched, hop⟩ := hs.sched h.live
  have hlive : ∀ t, k'.sched.Live t ↔ k.sched.Live t ∧ t ≠ k.current := fun t => by
    rw [hsched, Op.apply, (Sched.sameProcs_yield _).live, Tree.live_zombify]
    rfl
  have hos : k'.os cfg mode' = ⟨Op.exit.apply k.sched,
      Function.update (k.os cfg .user).proc k.current none⟩ := by
    refine os_eq hsched fun t => ?_
    by_cases ht : t = k.current
    · rw [ht, Function.update_self, os_proc_dead fun hx => ((hlive _).mp hx).2 rfl]
    · rw [Function.update_of_ne ht]
      exact hs.os_proc_other hwf h ht ((hlive t).trans (and_iff_left ht))
  rw [hos]
  exact .exit (os_proc_live h.live) (machine_calls hec hid) hop

include hwf h hh in
/-- **An exec.** -/
theorem exec_call (hid : SyscallId.ofWord (k.cpu.reg 17) = some .exec)
    (hr : syscall cfg env k₁.cur.cx (k.cpu.reg 17) (k.cpu.reg 10) (k.cpu.reg 11) (moveSepc k₁) =
      .ok (kont, k')) : k'.sched = k.sched ∧ kont = .sysReturn k₁.cur.cx 0 ∧ ∃ path a,
        callString (moveSepc k₁) (k.cpu.reg 11) = .ok path ∧ cfg.find path = some a ∧
        k'.machine cfg (.kernel kont) k.current =
          ((k.machine cfg .user k.current).enter.exec (a.view env).file).give 0 := by
  have hcur : (moveSepc k₁).current = k.current := hh.current
  simp only [syscall, hid] at hr
  obtain ⟨name, hname, hr⟩ := exists_of_bind_ok hr
  obtain ⟨bytes, hbytes, hr⟩ := exists_of_bind_ok hr
  obtain ⟨m, hp, hr⟩ := exists_of_bind_ok hr
  obtain ⟨k₂, hx, hr⟩ := exists_of_bind_ok hr
  obtain ⟨rfl, rfl⟩ := Prod.mk.inj (Except.ok.inj hr)
  obtain rfl := printfLen_ok hp
  have hm : MemInv cfg { moveSepc k₁ with
      mem := (moveSepc k₁).mem.printf "exec app_name:%s\n" [.str bytes] } :=
    ((hh.call_keeps h.mem).withConsole _).mem
  obtain ⟨path, a, hpath, ha, hmach⟩ := exec_machine hm hh.live (hh.serving h) hwf k₁.cur.cx hx
  refine ⟨(sysExec_sched hx).trans hh.sched, rfl, path, a, ?_, ha, hcur ▸ hmach⟩
  -- the name that has been printed is the one that is looked for
  have hsame := Mem.stringAt_iff.mp (Mem.cstring_eq_ok_iff.mp hbytes)
  have hread : ((moveSepc k₁).mem.printf "exec app_name:%s\n" [.str bytes]).cstring name =
      .ok bytes := Mem.cstring_eq_ok_iff.mpr (Mem.stringAt_iff.mpr hsame)
  rw [callString, hname, ok_bind, hbytes]
  exact hread.symm.trans hpath

include hwf h hh in
/-- The calls that only print. -/
theorem quiet_os {call : SyscallId} (out : List Output)
    (hcall : (k.machine cfg .user k.current).Calls call (.trap scause env) env)
    (hq : Quiet (k.machine cfg .user k.current) call)
    (hs : Stepped .user k (.trap scause env) .skip (.kernel (.sysReturn k₁.cur.cx 0))
      { moveSepc k₁ with mem.console := out }) :
    OsStep cfg (k.os cfg .user) (.trap scause env)
      (({ moveSepc k₁ with mem.console := out } : Kernel).os cfg
        (.kernel (.sysReturn k₁.cur.cx 0))) := by
  have hm := (hh.call_keeps h.mem).mem
  have hcur : (moveSepc k₁).current = k.current := hh.current
  have hu : Untouched (moveSepc k₁) { moveSepc k₁ with mem.console := out }
    (moveSepc k₁).current := .of_same rfl (.refl _)
  refine os_act hwf h hs ?_
  rw [← hcur, (hh.serving h).untouched hm hh.live hu (.of_current rfl), hcur]
  exact .quiet hcall hq

include hwf h hh in
/-- **A system call.** -/
theorem call_os (hec : IsEcall scause)
    (hs : Stepped .user k (.trap scause env)
      (syscallOp env (k.cpu.reg 17) (k.cpu.reg 10) (moveSepc k₁)) (.kernel kont) k')
    (hr : syscall cfg env k₁.cur.cx (k.cpu.reg 17) (k.cpu.reg 10) (k.cpu.reg 11) (moveSepc k₁) =
      .ok (kont, k')) :
    OsStep cfg (k.os cfg .user) (.trap scause env) (k'.os cfg (.kernel kont)) := by
  have hsv := hh.serving h
  have hm := (hh.call_keeps h.mem).mem
  have hon : OnStack cfg (moveSepc k₁) := hh.call_onStack
  have hl : (moveSepc k₁).sched.Live (moveSepc k₁).current := hh.live
  have hcur : (moveSepc k₁).current = k.current := hh.current
  have hsched : (moveSepc k₁).sched = k.sched := hh.sched
  have hcx : k₁.cur.cx = (moveSepc k₁).cur.cx := rfl
  have hreg : (k.machine cfg .user k.current).reg = k.cpu.reg := machine_user_reg
  rw [syscall] at hr
  rw [syscallOp] at hs
  cases hid : SyscallId.ofWord (k.cpu.reg 17) with
  | none =>
    simp only [hid] at hr
    cases hr
  | some call =>
    have hcall : (k.machine cfg .user k.current).Calls call (.trap scause env) env :=
      machine_calls hec hid
    simp only [hid] at hr hs
    cases call with
    | printf =>
      obtain ⟨pa, -, hr⟩ := exists_of_bind_ok hr
      obtain ⟨bytes, -, hr⟩ := exists_of_bind_ok hr
      obtain ⟨rfl, rfl⟩ := Prod.mk.inj (Except.ok.inj hr)
      exact quiet_os hwf h hh _ hcall (.inl rfl) hs
    | setTrigger =>
      obtain ⟨rfl, rfl⟩ := Prod.mk.inj (Except.ok.inj hr)
      exact quiet_os hwf h hh (moveSepc k₁).mem.console hcall (.inr (.inl rfl)) hs
    | getTime =>
      obtain ⟨rfl, rfl⟩ := Prod.mk.inj (Except.ok.inj hr)
      exact quiet_os hwf h hh _ hcall (.inr (.inr (.inl rfl))) hs
    | yield =>
      have hself : KontOk (moveSepc k₁) (moveSepc k₁).current (.sysYield k₁.cur.cx) := hcx
      refine os_act hwf h hs ?_
      rw [← hcur, hsv.yield hm hon hl hself hr, hcur]
      exact .yield hcall
    | getChar =>
      simp only [sysGetchar] at hr
      split_ifs at hr hs with hfd
      · have hrd : Reading (k.machine cfg .user k.current) (.trap scause env) env (k.cpu.reg 11)
            (k.machine cfg .user k.current).enter := by
          have := Reading.call hcall (by rw [hreg]; exact hfd)
          rwa [hreg] at this
        refine os_act hwf h hs ?_
        have hact := getchar_act (s := k.sched) hm hon hl hcx hsv hrd hr
        rwa [hcur] at hact
      · obtain ⟨rfl, rfl⟩ := Prod.mk.inj (Except.ok.inj hr)
        refine quiet_os hwf h hh (moveSepc k₁).mem.console hcall (.inr (.inr (.inr ⟨rfl, ?_⟩))) hs
        rwa [hreg]
    | fork =>
      obtain ⟨⟨pid, k₂⟩, hf, hr⟩ := exists_of_bind_ok hr
      obtain ⟨rfl, rfl⟩ := Prod.mk.inj (Except.ok.inj hr)
      exact fork_os hwf h hh hec hs hid hf
    | exec =>
      obtain ⟨-, -, path, a, hpath, ha, hmach⟩ := exec_call hwf h hh hid
        (by rw [syscall, hid]; exact hr)
      refine os_act hwf h hs ?_
      rw [hmach]
      refine .exec hcall ha fun str hstr => ?_
      rw [hreg] at hstr
      exact hh.reads_eq h hpath hstr
    | exit => exact exit_os hwf h hec hs hid
    | recycle =>
      have hact := recycle_act hm hon hl hcx hsv (.call hcall) (fun _ => ⟨hcall, rfl⟩)
        (fun hf => by cases hf) hr
      rw [hsched, hcur] at hact
      refine os_act hwf h hs ?_
      change Act _ _ _ _ (recycleOp (moveSepc k₁).current false (moveSepc k₁)) _
      rwa [hcur]

end Ecall

/-! ## Steps -/

/-- The value of a call. -/
theorem framed_setReg (F : Frame) (V : ℕ → Option (Byte × Frame)) (v : Word) (phase : Phase) :
    framed (Function.update F (cxReg 10) v) V .user =
      { (framed F V phase).setReg 10 v with phase := .user } := by
  simp only [framed, Machine.setReg, Machine.mk.injEq, and_true]
  refine ⟨funext fun r => ?_, Function.update_of_ne (by decide) _ _⟩
  by_cases h₁₀ : r = 10
  · rw [h₁₀, Function.update_self, Function.update_self, if_neg (by decide)]
  · have hne : cxReg r ≠ cxReg 10 := fun he => h₁₀ (cxReg_injective he)
    rw [Function.update_of_ne hne, Function.update_of_ne h₁₀]

/-- The user's machine when a task leaves the kernel. -/
theorem Resumed.machine (hr : Resumed k k') :
    k'.machine cfg .user k.current = framed (k.trap k.current) (k.pages k.current) .user := by
  obtain ⟨c, hk'⟩ := hr.shape
  have hcur : k'.current = k.current := by rw [hk']
  have hpages : k'.pages k.current = k.pages k.current := by rw [hk']; rfl
  rw [machine_user hcur, hpages, framed]
  simp only [Machine.mk.injEq, and_true]
  refine ⟨funext fun r => ?_, hr.pc⟩
  rw [Cpu.reg]
  split_ifs with h₀
  · rfl
  · exact hr.regs r h₀

/-- A store of the user is a byte in its memory, where it may store. -/
theorem userStore_act {s : Sched} (h : Inv cfg .user k) (va : Word) (b : Byte) :
    (¬ (k.machine cfg .user k.current).Writable va ∧ userStore va b k = k) ∨
      Act cfg s (k.machine cfg .user k.current) (.store va b) .skip
        ((userStore va b k).machine cfg .user k.current) := by
  have hok := h.mem.task _ h.init
  have hsatp := (h.csrs rfl).satp
  by_cases hw : (k.machine cfg .user k.current).Writable va
  · right
    obtain ⟨hcan, q, hq, hr, hwr, hu⟩ := id hw
    rw [machine_user rfl] at hq
    obtain ⟨hlow, hq⟩ : pageOf va < trapframeVpn ∧ k.pages k.current (pageOf va) = some q := by
      simp only [low] at hq
      split_ifs at hq with hlow
      exact ⟨hlow, hq⟩
    obtain ⟨e, he, rfl⟩ := Option.map_eq_some_iff.mp hq
    have ht : translate k.mem.ram k.cpu.satp va = some (ppn e, e) := by
      rw [hsatp]
      exact translate_of_lookup hok.space.links (h.mem.root_lt h.init) hcan he
        ⟨.inl hr, .inl hr⟩
    have hst : userStore va b k =
        { k with mem := k.mem.storeByte (ppn e * 4096 + va.toNat % 4096) b } := by
      have hwu : (has e pteW && has e pteU) = true := Bool.and_eq_true_iff.mpr ⟨hwr, hu⟩
      rw [userStore, ht]
      exact if_pos hwu
    have hput : (userStore va b k).machine cfg .user k.current =
        (k.machine cfg .user k.current).put va b := by
      obtain ⟨-, hpages⟩ := h.mem.low_storeByte h.init hlow he b
      rw [hst, machine_user rfl, machine_user rfl, Machine.put]
      simp only [Machine.mk.injEq, and_true, true_and]
      exact hpages
    rw [hput]
    exact .store machine_user_phase va b hw
  · refine .inl ⟨hw, ?_⟩
    cases ht : translate k.mem.ram k.cpu.satp va with
    | none => rw [userStore, ht]
    | some r =>
      obtain ⟨p, e⟩ := r
      rw [userStore, ht]
      refine if_neg fun hwu => hw ?_
      rw [Bool.and_eq_true] at hwu
      obtain ⟨hcan, hleaf⟩ := isLeaf_of_translate ht
      rw [hsatp] at ht
      obtain ⟨hl, rfl⟩ := lookup_of_translate hok.space.links (h.mem.root_lt h.init) ht
      have hlow : pageOf va < trapframeVpn := by
        obtain ⟨hv, -, -⟩ | ⟨-, rfl⟩ | ⟨-, rfl⟩ := h.mem.lookup_cases h.init (pageOf_lt va) hl
        · exact lt_of_lt_of_le hv hok.space.bound
        · rw [has_trapPage (h.mem.cx_lt h.init)] at hwu
          exact absurd hwu.2 (by decide)
        · rw [has_trampolinePage cfg.trampolinePpn_lt] at hwu
          exact absurd hwu.2 (by decide)
      have hr : has e pteR = true := by
        obtain hr | hn := hleaf.2
        · exact hr
        · rw [hwu.1] at hn
          cases hn
      refine ⟨hcan, (flags e, k.mem.ram (ppn e)), ?_, hr, hwu⟩
      rw [machine_user rfl]
      change (if pageOf va < trapframeVpn then k.pages k.current (pageOf va) else none) = _
      rw [if_pos hlow, Kernel.pages, pagesOf,
        show lookup k.mem.ram (k.tasks k.current).pagetable.rootPpn (pageOf va) = some e from hl,
        Option.map_some]

/-- The end of a call. -/
theorem Serving.sysReturn {κ : Kont} {v : Word} {q : Machine} (hq : Serving k q)
    (h : Inv cfg (.kernel κ) k)
    (ht : trapReturn cfg { k with mem := k.mem.store k.cur.cx (cxReg 10) v } = .ok k') :
    k'.machine cfg .user k.current = { q.setReg 10 v with phase := .user } := by
  have hst := Keeps.storeCx h.mem h.live (Function.update (k.mem.ram k.cur.cx) (cxReg 10) v)
  have hres := (trapReturn_spec hst.mem h.init h.stack.onStack.satp).of_ok ht
  rw [hq, ← framed_setReg]
  exact hres.machine.trans (framed_ext (Mem.storeFrame_self _ _)
    (h.mem.low_storeCx h.init (cxReg 10) v))

/-- The end of an interrupt. -/
theorem Serving.leave {κ : Kont} {q : Machine} (hq : Serving k q) (h : Inv cfg (.kernel κ) k)
    (ht : trapReturn cfg k = .ok k') :
    k'.machine cfg .user k.current = { q with phase := .user } := by
  rw [((trapReturn_spec h.mem h.init h.stack.onStack.satp).of_ok ht).machine, hq]
  rfl

/-- A task goes on in the kernel. -/
theorem resume_os {κ : Kont} (hwf : cfg.WellFormed) (h : Inv cfg (.kernel κ) k)
    (hs : Stepped (.kernel κ) k (.resume env) (kontOp env κ k) mode' k')
    (hr : runKont cfg env κ k = .ok (mode', k')) :
    OsStep cfg (k.os cfg (.kernel κ)) (.resume env) (k'.os cfg mode') := by
  have hon := h.stack.onStack
  have hmach : k.machine cfg (.kernel κ) k.current =
    framed (k.trap k.current) (k.pages k.current) κ.phase := machine_thread (.of_current rfl)
  have hsv : Serving k (k.machine cfg (.kernel κ) k.current) := by
    rw [Serving, hmach]
    rfl
  have hphase : (k.machine cfg (.kernel κ) k.current).phase = κ.phase := by rw [hmach]; rfl
  refine os_act hwf h hs ?_
  cases κ with
  | trapReturn =>
    obtain ⟨k₁, ht, hr⟩ := exists_of_bind_ok hr
    obtain ⟨rfl, rfl⟩ := Prod.mk.inj (Except.ok.inj hr)
    rw [hsv.leave h ht]
    exact .resume hphase env
  | timer =>
    obtain ⟨k₁, ht, hr⟩ := exists_of_bind_ok hr
    obtain ⟨rfl, rfl⟩ := Prod.mk.inj (Except.ok.inj hr)
    rw [hsv.leave h ht]
    exact .resume hphase env
  | sysYield cx =>
    obtain ⟨rfl, rfl⟩ := Prod.mk.inj (Except.ok.inj hr)
    have hnext : k.machine cfg (.kernel (.sysReturn cx 0)) k.current =
        (k.machine cfg (.kernel (.sysYield cx)) k.current).give 0 := by
      rw [hmach, machine_thread (.of_current rfl)]
      rfl
    rw [hnext]
    exact .yielded hphase env
  | sysGetchar cx data =>
    obtain ⟨⟨kont, k₁⟩, hl, hr⟩ := exists_of_bind_ok hr
    obtain ⟨rfl, rfl⟩ := Prod.mk.inj (Except.ok.inj hr)
    exact getchar_act h.mem hon h.live h.stack.kontOk hsv (.go env data hphase) hl
  | sysRecycle cx father havechild =>
    obtain ⟨⟨kont, k₁⟩, hl, hr⟩ := exists_of_bind_ok hr
    obtain ⟨rfl, rfl⟩ := Prod.mk.inj (Except.ok.inj hr)
    obtain ⟨hcx, rfl, rfl⟩ := h.stack.kontOk
    exact recycle_act h.mem hon h.live hcx hsv (.go env hphase) (fun hf => by cases hf)
      (fun _ => hphase) hl
  | exit => exact h.stack.kontOk.elim
  | sysReturn cx v =>
    obtain ⟨k₁, ht, hr⟩ := exists_of_bind_ok hr
    obtain ⟨rfl, rfl⟩ := Prod.mk.inj (Except.ok.inj hr)
    obtain rfl : cx = k.cur.cx := h.stack.kontOk
    rw [hsv.sysReturn h ht]
    exact .leave v hphase env

/-- **Every step of the kernel is a step of the processes** with the same event. -/
theorem step_os {e : Event cfg} (hwf : cfg.WellFormed) (h : Inv cfg mode k)
    (hstep : step cfg e (.running mode k) = .running mode' k') :
    OsStep cfg (k.os cfg mode) e (k'.os cfg mode') := by
  have hs := step_stepped hstep
  have hlive : (k.os cfg mode).proc k.current = some (k.machine cfg mode k.current) :=
    os_proc_live h.live
  cases mode with
  | user =>
    cases e with
    | compute x pc =>
      obtain ⟨rfl, rfl⟩ := Sys.running.inj hstep
      refine os_act hwf h hs ?_
      rw [machine_user rfl, machine_user rfl]
      exact .compute rfl x pc
    | store va b =>
      obtain ⟨rfl, rfl⟩ := Sys.running.inj hstep
      obtain ⟨hno, heq⟩ | hact := userStore_act (s := k.sched) h va b
      · rw [heq]
        exact .idle hlive (.inr hno)
      · exact os_act hwf h hs hact
    | trap scause env =>
      obtain ⟨k₁, he, hr⟩ := exists_of_bind_ok (ofExcept_running hstep)
      obtain ⟨⟨kont, k₂⟩, ht, hr⟩ := exists_of_bind_ok hr
      obtain ⟨rfl, rfl⟩ := Prod.mk.inj (Except.ok.inj hr)
      have hh := h.enter he
      have hsv := hh.interrupted h
      have hcur := hh.current
      have hop : stepOp cfg (.trap scause env) (.running .user k) = trapOp env k₁ := by
        simp only [stepOp, he]
      rw [hop, trapOp, hh.scause_eq] at hs
      simp only [trapHandler, hh.scause_eq] at ht
      have hact : scause.getLsbD 63 = true → ∀ op : Op,
          (if scause &&& 0xfff = 5 then .yield else .skip) = op →
          Act cfg k.sched (k.machine cfg .user k.current) (.trap scause env) op
            { k.machine cfg .user k.current with phase := .interrupted } := by
        rintro hbit op rfl
        exact .interrupt machine_user_phase env hbit
      split_ifs at ht hs with hbit hcode hcode
      · have hself : KontOk k₁ k₁.current .timer := trivial
        refine os_act hwf h hs ?_
        rw [← hcur, hsv.yield hh.keeps.mem hh.onStack hh.live hself ht, hcur]
        exact hact hbit .yield (if_pos hcode)
      · obtain ⟨rfl, rfl⟩ := Prod.mk.inj (Except.ok.inj ht)
        have hu : Untouched k₁ (k₁.printf "undfined interrrupt scause:%x\n"
          [.num scause.toNat]) k₁.current := .of_same rfl (.refl _)
        refine os_act hwf h hs ?_
        rw [← hcur, hsv.untouched hh.keeps.mem hh.live hu (.of_current rfl), hcur]
        exact hact hbit .skip (if_neg hcode)
      · change syscall cfg env k₁.cur.cx ((moveSepc k₁).mem.ram k₁.cur.cx (cxReg 17))
          ((moveSepc k₁).mem.ram k₁.cur.cx (cxReg 10)) ((moveSepc k₁).mem.ram k₁.cur.cx (cxReg 11))
          (moveSepc k₁) = _ at ht
        rw [hh.arg (by decide), hh.arg (by decide), hh.arg (by decide)] at ht
        rw [hh.arg (by decide), hh.arg (by decide)] at hs
        exact call_os hwf h hh ⟨by simpa using hbit, hcode⟩ hs ht
    | resume env =>
      obtain ⟨rfl, rfl⟩ := Sys.running.inj hstep
      exact .idle hlive machine_user_phase
  | kernel κ =>
    have hphase : (k.machine cfg (.kernel κ) k.current).phase ≠ .user := by
      rw [machine_thread (.of_current rfl)]
      cases κ <;> exact Phase.noConfusion
    cases e with
    | compute x pc =>
      obtain ⟨rfl, rfl⟩ := Sys.running.inj hstep
      exact .idle hlive hphase
    | store va b =>
      obtain ⟨rfl, rfl⟩ := Sys.running.inj hstep
      exact .idle hlive (.inl hphase)
    | trap scause env =>
      obtain ⟨rfl, rfl⟩ := Sys.running.inj hstep
      exact .idle hlive hphase
    | resume env => exact resume_os hwf h hs (ofExcept_running hstep)

end RiscvOs
