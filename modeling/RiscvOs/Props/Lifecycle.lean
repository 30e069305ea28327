import RiscvOs.Inv.Capacity
import RiscvOs.Load.Contents

/-!
# The memory of a process, from fork to recycling

* **`fork_duplicates`**: the child has the pages and the trap context of its parent, in new frames.
* **`exec_history_independent`**: what a process is after `__sys_exec` depends on the program alone,
  and no other task is touched.
* **`reclamation_complete`**: a zombie and the caller of an exec give back what they had.
-/

set_option autoImplicit false

namespace RiscvOs

open PageTableEntry

variable {cfg : Config} {mode mode' : Mode} {k k' : Kernel} {i p : Slot}

/-! ## States of the kernel at work -/

/-- A state of a run, or one in which `__SYSCALL` serves a program of a run. -/
inductive Working (cfg : Config) : Kernel → Prop
  | reached {mode : Mode} {k : Kernel} (h : Reachable cfg (.running mode k)) : Working cfg k
  | serving {scause : Word} {k k₁ : Kernel} (out : List Output)
    (h : Reachable cfg (.running .user k)) (he : enterTrap cfg scause k = .ok k₁) :
    Working cfg { moveSepc k₁ with mem.console := out }

namespace Working

variable (hwf : cfg.WellFormed) (hk : Working cfg k)

include hwf hk

theorem mem : MemInv cfg k := by
  cases hk with
  | reached h => exact (h.inv hwf).mem
  | serving out h he =>
    exact ((((h.inv hwf).enter he).call_keeps (h.inv hwf).mem).withConsole out).mem

theorem live : k.sched.Live k.current := by
  cases hk with
  | reached h => exact (h.inv hwf).live
  | serving out h he => exact ((h.inv hwf).enter he).live

theorem init : k.cur.taskState ≠ .unInit := live_init (hk.live hwf)

theorem kstack (i : Slot) : (k.tasks i).kstack = kstackVa i + pageSize := by
  cases hk with
  | reached h => exact (h.inv hwf).stack.kstack i
  | serving out h he => exact ((h.inv hwf).enter he).onStack.kstack i

end Working

/-! ## Fork -/

/-- The slot `p` of `k'` holds a copy of the running process of `k`. -/
structure Duplicated (cfg : Config) (k k' : Kernel) (p : Slot) : Prop where
  unInit : (k.tasks p).taskState = .unInit
  baseSize : (k'.tasks p).baseSize = k.cur.baseSize
  /-- The same pages are mapped, with the same flags and bytes. -/
  pages : ∀ v < k.cur.baseSize / 4096, k'.pages p v = k.pages k.current v
  /-- No page of the child is in a frame that was owned before. -/
  frames : ∀ v < k.cur.baseSize / 4096, ∀ e,
    lookup k'.mem.ram (k'.tasks p).pagetable.rootPpn v = some e → ppn e ∉ k.owned
  /-- No page of the user is missed. -/
  user : ∀ v < 2 ^ 27, ∀ e, lookup k.mem.ram k.cur.pagetable.rootPpn v = some e →
    has e pteU = true → v < k.cur.baseSize / 4096
  trap : k'.trap p = forkedTrap (k.trap k.current) (kstackVa p + pageSize)
  trampoline : lookup k'.mem.ram (k'.tasks p).pagetable.rootPpn trampolineVpn =
    some (new cfg.trampolinePpn (pteV ||| (pteR ||| pteX)))
  trapframe : lookup k'.mem.ram (k'.tasks p).pagetable.rootPpn trapframeVpn =
    some (new (k'.tasks p).cx (pteV ||| (pteR ||| pteW)))
  /-- The trap page is new as well. -/
  cx : (k'.tasks p).cx ∉ k.owned
  others : ∀ i, i ≠ p → k'.tasks i = k.tasks i
  memory : ∀ f ∈ k.owned, k'.mem.ram f = k.mem.ram f

/-- The pages of the user are those below `base_size`. -/
theorem MemInv.user_lt (h : MemInv cfg k) (hi : (k.tasks i).taskState ≠ .unInit) {v : ℕ} {e : Word}
    (hv : v < 2 ^ 27) (he : lookup k.mem.ram (k.tasks i).pagetable.rootPpn v = some e)
    (hu : has e pteU = true) : v < (k.tasks i).baseSize / 4096 := by
  obtain ⟨hlt, -⟩ | ⟨-, rfl⟩ | ⟨-, rfl⟩ := h.lookup_cases hi hv he
  · exact hlt
  · rw [has_trapPage (h.cx_lt hi)] at hu
    cases hu
  · rw [has_trampolinePage cfg.trampolinePpn_lt] at hu
    cases hu

theorem Forked.duplicated {f root : ℕ} {m : Mem} (h : MemInv cfg k)
    (hcur : k.cur.taskState ≠ .unInit)
    (hkstack : (k.tasks p).kstack = kstackVa p + pageSize) (hf : Forked cfg k p f root m) :
    Duplicated cfg k (afterFork cfg k p f root m) p := by
  have hnew : ∀ x ∈ (forkedTask cfg k p f root).frames m.ram, x ∉ k.owned := fun x hx =>
    h.apart.new_not_mem hf.grows hx
  have hbound := (h.task _ hcur).space.bound
  have hspace := hf.ok.space
  refine ⟨unInit_of_freeSlot hf.slot, by rw [afterFork_self]; rfl,
    fun v hv => hf.pages_child (hv.trans_le hbound), fun v hv e he => ?_,
    fun v hv e he hu => h.user_lt hcur hv he hu, ?_, ?_, ?_, ?_,
    fun i hi => Function.update_of_ne hi _ _, fun x hx => h.owned_agree hf.grows hx⟩
  · rw [afterFork_self] at he
    exact hnew _ (Multiset.mem_add.mpr (.inr (mem_leaves he hv)))
  · rw [Kernel.trap, afterFork_self, forkedTask_cx cfg k p root hf.lt, ← hkstack]
    exact hf.trap
  · rw [afterFork_self]
    exact hspace.trampoline
  · rw [afterFork_self]
    exact hspace.trapframe
  · rw [afterFork_self]
    exact hnew _ (MemInv.cx_mem_frames _ _)

/-- **A fork duplicates the process.** -/
theorem fork_duplicates (hwf : cfg.WellFormed) (hk : Working cfg k) (hp : freeSlot k = some p)
    {pid : BitVec 32} (hf : sysFork cfg k = .ok (pid, k')) : Duplicated cfg k k' p := by
  have h := hk.mem hwf
  obtain ⟨hn, -⟩ | ⟨p', f, root, m, hfk, hr⟩ := (sysFork_spec h (hk.init hwf)).of_ok hf
  · rw [hp] at hn
    cases hn
  · obtain rfl : p = p' := Option.some.inj (hp.symm.trans hfk.slot)
    rw [(Prod.mk.inj hr).2]
    exact hfk.duplicated h (hk.init hwf) (hk.kstack hwf p)

/-- The first program of the small system, in a system call. -/
theorem tiny_serving : ∃ k : Kernel, Working tiny k ∧ k.sched = initSched ∧
    1000 ≤ k.mem.free.card ∧ k.cur.baseSize / 4096 ≤ 4 := by
  obtain ⟨es, k, hrun, h, hs⟩ :=
    tiny_history 0 (show ([] : List Op).length ≤ 1000 by decide) trivial
  obtain ⟨k₁, he, hh⟩ := enterTrap_of_ready h.toInv h.ready ecallCause
  refine ⟨_, .serving k₁.mem.console ⟨tinyStart 0, es, hrun⟩ he, hh.sched.trans hs, ?_, ?_⟩
  · obtain ⟨c, rfl, -⟩ := hh.entered.shape
    exact h.free
  · change (moveSepc k₁).cur.baseSize / 4096 ≤ 4
    rw [hh.call_cur]
    exact h.size _ h.live

/-- The first program forks into slot 1. -/
theorem fork_duplicates_first : ∃ k k' : Kernel, Working tiny k ∧ Duplicated tiny k k' 1 := by
  obtain ⟨k, hk, hs, hfree, hsize⟩ := tiny_serving
  have hp : freeSlot k = some 1 := by
    change k.sched.freeSlot = some 1
    rw [hs]
    decide
  obtain ⟨⟨pid, k'⟩, hf, -⟩ := (sysFork_spec (hk.mem tiny_wf) (hk.init tiny_wf)).exists_ok
    fun e he => by have := he.2; omega
  exact ⟨k, k', hk, fork_duplicates tiny_wf hk hp hf⟩

/-! ## `exec` -/

/-- The address space, the trap context and the neighbours of a process that has executed the
program `a`. -/
structure Replaced (a : App) (k k' : Kernel) : Prop where
  current : k'.current = k.current
  /-- The pages below the trap page and their flags. -/
  layout : ∀ v < trapframeVpn,
    (k'.pages k.current v).map Prod.fst = (imagePages a.file v).map Prod.fst
  bytes : ∀ i < (ehdrOf a.file).ePhnum, IsLoad a.file i → ∀ o < (phdrOf a.file i).pFilesz,
    o < (phdrOf a.file i).pMemsz → (phdrOf a.file i).pOffset + o < a.image.length →
    lowByte (k'.pages k.current) ((phdrOf a.file i).pVaddr + o) =
      some (a.file ((phdrOf a.file i).pOffset + o))
  baseSize : (k'.tasks k.current).baseSize = imageTop a.file
  ustack : (k'.tasks k.current).ustack = imageTop a.file
  stack : k'.pages k.current (stackPage a.file) =
    some (pteV ||| (pteR ||| pteW ||| pteU), fun _ => 0)
  sepc : k'.trap k.current cxSepc = BitVec.ofNat 64 (ehdrOf a.file).eEntry
  sp : k'.trap k.current (cxReg 2) = BitVec.ofNat 64 (k'.tasks k.current).ustack
  /-- The trap page is the same frame, mapped in the new table. -/
  cx : (k'.tasks k.current).cx = (k.tasks k.current).cx
  trapframe : lookup k'.mem.ram (k'.tasks k.current).pagetable.rootPpn trapframeVpn =
    some (new (k.tasks k.current).cx (pteV ||| (pteR ||| pteW)))
  kernelWords : ∀ w ∈ [cxKernelSatp, cxKernelSp, cxTrapHandler],
    k'.trap k.current w = k.trap k.current w
  others : ∀ i, i ≠ k.current → k'.tasks i = k.tasks i
  /-- The table, the pages and the trap page of every other task. -/
  memory : ∀ i, i ≠ k.current → (k.tasks i).taskState ≠ .unInit →
    ∀ f ∈ (k.tasks i).frames k.mem.ram, k'.mem.ram f = k.mem.ram f

section Exec

variable {env : Env cfg} {name root : ℕ} {path : List Byte} {a : App} {N D : Multiset ℕ}
  {m m' : Mem}

omit env name root path a N D m m' in
theorem kernelWords_ne : ∀ w ∈ [cxKernelSatp, cxKernelSp, cxTrapHandler],
    w ≠ cxReg 2 ∧ w ≠ cxSepc := by
  intro w hw
  simp only [List.mem_cons, List.not_mem_nil, or_false] at hw
  rcases hw with rfl | rfl | rfl <;> decide

theorem Execed.replaced (hwf : cfg.WellFormed) (h : MemInv cfg k)
    (hcur : k.cur.taskState ≠ .unInit) (he : Execed cfg env name k path a root N D m m') :
    Replaced a k (afterExec k (a.view env).file root m') := by
  have ha := (Config.mem_of_find he.app).1
  have hagree : ∀ x < a.image.length, (a.view env).file x = a.file x := fun x hx =>
    App.view_file ha env hx
  have hawf := hwf a ha
  have hspace := he.space h hcur
  have hlt : stackPage a.file < trapframeVpn := by
    have hbound := hspace.bound
    rw [imageTop, Nat.mul_div_cancel _ (by decide), hawf.stackPage_agree hagree] at hbound
    exact hbound
  have hpages : ∀ v < trapframeVpn, (afterExec k (a.view env).file root m').pages k.current v =
      imagePages (a.view env).file v := by
    rw [Kernel.pages, afterExec_self]
    exact hspace.pages
  have htrap : (afterExec k (a.view env).file root m').trap k.current =
      execTrap (a.view env).file (k.mem.ram k.cur.cx) := by
    rw [Kernel.trap, afterExec_self]
    exact he.trap h hcur
  refine
    { current := rfl
      layout := fun v hv => ?_
      bytes := fun i hi hl o hfile hmem himage => ?_
      baseSize := ?_
      ustack := ?_
      stack := ?_
      sepc := ?_
      sp := ?_
      cx := ?_
      trapframe := ?_
      kernelWords := fun w hw => ?_
      others := fun i hi => setTask_of_ne _ hi _
      memory := fun i hi hinit f hf => (he.onlyTask h hcur).frames_agree hi hinit hf }
  · rw [hpages v hv, hawf.imagePages_flags hagree]
  · have hva : ((phdrOf a.file i).pVaddr + o) / 4096 < trapframeVpn := by
      have hbelow := hawf.layout.below i hi hl
      generalize (phdrOf a.file i).pVaddr = va at hbelow ⊢
      generalize (phdrOf a.file i).pMemsz = sz at hbelow hmem
      exact Nat.div_lt_of_lt_mul (by omega)
    have hi' : i < (ehdrOf (a.view env).file).ePhnum := hawf.ehdr_eq hagree ▸ hi
    have hload := (hawf.layout_of_agree hagree).imageByte_load hi'
      ((hawf.isLoad_iff hagree hi').mpr hl) (hawf.phdr_eq hagree hi' ▸ hmem)
    rw [hawf.phdr_eq hagree hi'] at hload
    rw [lowByte, hpages _ hva, ← hagree _ himage]
    exact hload
  · rw [afterExec_self]
    exact hawf.imageTop_agree hagree
  · rw [afterExec_self]
    exact hawf.imageTop_agree hagree
  · rw [hpages _ hlt, ← hawf.stackPage_agree hagree, imagePages_stack]
  · rw [htrap, execTrap, Function.update_of_ne (by decide), Function.update_self,
      hawf.ehdr_eq hagree]
  · rw [htrap, afterExec_self, execTrap, Function.update_self]
    rfl
  · rw [afterExec_self]
    rfl
  · rw [afterExec_self]
    exact hspace.trapframe
  · have hw' : w ≠ cxReg 2 ∧ w ≠ cxSepc := kernelWords_ne w hw
    rw [htrap, execTrap, Function.update_of_ne hw'.1, Function.update_of_ne hw'.2]
    rfl

end Exec

/-- Two processes that have executed `a` see the same program. -/
structure SameProgram (a : App) (k₁ k₂ : Kernel) : Prop where
  layout : ∀ v < trapframeVpn,
    (k₁.pages k₁.current v).map Prod.fst = (k₂.pages k₂.current v).map Prod.fst
  bytes : ∀ i < (ehdrOf a.file).ePhnum, IsLoad a.file i → ∀ o < (phdrOf a.file i).pFilesz,
    o < (phdrOf a.file i).pMemsz → (phdrOf a.file i).pOffset + o < a.image.length →
    lowByte (k₁.pages k₁.current) ((phdrOf a.file i).pVaddr + o) =
      lowByte (k₂.pages k₂.current) ((phdrOf a.file i).pVaddr + o)
  baseSize : k₁.cur.baseSize = k₂.cur.baseSize
  ustack : k₁.cur.ustack = k₂.cur.ustack

theorem Replaced.sameProgram {a : App} {k₁ k₁' k₂ k₂' : Kernel} (h₁ : Replaced a k₁ k₁')
    (h₂ : Replaced a k₂ k₂') : SameProgram a k₁' k₂' := by
  refine ⟨fun v hv => ?_, fun i hi hl o hfile hmem himage => ?_, ?_, ?_⟩
  · rw [h₁.current, h₂.current, h₁.layout v hv, h₂.layout v hv]
  · rw [h₁.current, h₂.current, h₁.bytes i hi hl o hfile hmem himage,
      h₂.bytes i hi hl o hfile hmem himage]
  · rw [Kernel.cur, Kernel.cur, h₁.current, h₂.current, h₁.baseSize, h₂.baseSize]
  · rw [Kernel.cur, Kernel.cur, h₁.current, h₂.current, h₁.ustack, h₂.ustack]

/-- What `__sys_exec` needs of a program it has found: that it passes `elf_check` and can be read,
that its stack is below the trap page, and memory. -/
structure CanExec (cfg : Config) (env : Env cfg) (k : Kernel) (path : List Byte) (a : App) :
    Prop where
  fits : NameFits cfg path
  elf : elfCheck (a.view env).file = .ok ()
  memory : imageNeed (a.view env).file ≤ k.mem.free.card
  readable : (a.view env).Readable
  stack : stackPage (a.view env).file < trapframeVpn

theorem CanExec.not_stops {env : Env cfg} {name : ℕ} {path : List Byte} {a : App}
    (h : CanExec cfg env k path a) (ha : cfg.find path = some a)
    (hname : k.mem.cstring name = .ok path) {e : Halt} : ¬ExecStops cfg env name k e := by
  have hpath {path' : List Byte} (hn : k.mem.cstring name = .ok path') : path' = path :=
    Except.ok.inj (hn.symm.trans hname)
  rintro (hn | ⟨path', -, hnone, hn⟩ | ⟨path', -, hlong, hn⟩ | ⟨path', a', hn, ha', helf⟩ |
    ⟨path', a', hn, ha', -, hfree⟩ | ⟨path', a', hn, ha', -, hread⟩ | ⟨path', a', hn, ha', hstack⟩)
  · rw [hname] at hn
    cases hn
  · rw [hpath hn, ha] at hnone
    cases hnone
  · exact hlong (hpath hn ▸ h.fits)
  all_goals
    rw [hpath hn, ha] at ha'
    obtain rfl := Option.some.inj ha'
  · rw [h.elf] at helf
    cases helf
  · exact Nat.not_lt.mpr h.memory hfree
  · exact hread h.readable
  · exact Nat.not_le.mpr h.stack hstack

/-- With what it needs, `__sys_exec` returns. -/
theorem CanExec.exists_ok {env : Env cfg} {name : ℕ} {path : List Byte} {a : App}
    (h : CanExec cfg env k path a) (hwf : cfg.WellFormed) (hk : Working cfg k)
    (ha : cfg.find path = some a) (hname : k.mem.cstring name = .ok path) :
    ∃ k', sysExec cfg env name k = .ok k' := by
  obtain ⟨k', he, -⟩ := (sysExec_spec (hk.mem hwf) (hk.init hwf) hwf).exists_ok
    fun e he => h.not_stops ha hname he
  exact ⟨k', he⟩

/-- **Exec does not depend on the history, and touches only its caller.** -/
theorem exec_history_independent (hwf : cfg.WellFormed) {k₁ k₂ : Kernel} (h₁ : Working cfg k₁)
    (h₂ : Working cfg k₂) {env₁ env₂ : Env cfg} {name₁ name₂ : ℕ} {path : List Byte} {a : App}
    (ha : cfg.find path = some a) (hn₁ : k₁.mem.cstring name₁ = .ok path)
    (hn₂ : k₂.mem.cstring name₂ = .ok path) :
    (∀ k₁' k₂', sysExec cfg env₁ name₁ k₁ = .ok k₁' → sysExec cfg env₂ name₂ k₂ = .ok k₂' →
      SameProgram a k₁' k₂' ∧ Replaced a k₁ k₁' ∧ Replaced a k₂ k₂') ∧
    (CanExec cfg env₁ k₁ path a → ∃ k₁', sysExec cfg env₁ name₁ k₁ = .ok k₁') := by
  have hreplaced : ∀ {k k' : Kernel} {env : Env cfg} {name : ℕ}, Working cfg k →
      k.mem.cstring name = .ok path → sysExec cfg env name k = .ok k' → Replaced a k k' := by
    intro k k' env name hk hn he
    have hmem := hk.mem hwf
    obtain ⟨path', a', root, N, D, m, m', hex, rfl⟩ :=
      (sysExec_spec hmem (hk.init hwf) hwf).of_ok he
    obtain rfl : path' = path := Except.ok.inj (hex.name.symm.trans hn)
    obtain rfl : a' = a := Option.some.inj (hex.app.symm.trans ha)
    exact hex.replaced hwf hmem (hk.init hwf)
  refine ⟨fun k₁' k₂' he₁ he₂ => ?_, fun hcan => ?_⟩
  · have hr₁ := hreplaced h₁ hn₁ he₁
    have hr₂ := hreplaced h₂ hn₂ he₂
    exact ⟨hr₁.sameProgram hr₂, hr₁, hr₂⟩
  · exact hcan.exists_ok hwf h₁ ha hn₁

/-- A process with page 0 of the small system's program finds its name there. -/
theorem Working.tiny_name {k : Kernel} (hk : Working tiny k) {env : Env tiny}
    (hpage : k.pages k.current 0 = imagePages (tinyApp.view env).file 0) :
    ∃ name, k.mem.cstring name = .ok tinyApp.name := by
  have hmem := hk.mem tiny_wf
  have hinit : (k.tasks k.current).taskState ≠ .unInit := hk.init tiny_wf
  rw [tiny_imagePages _ (by decide), Kernel.pages, pagesOf, Option.map_eq_some_iff] at hpage
  obtain ⟨e, he, hpage⟩ := hpage
  have hram : k.mem.ram (ppn e) = _ := (Prod.mk.inj hpage).2
  have hv := hmem.user_lt hinit (by decide) he ((hmem.task _ hinit).user 0 (by decide) e he)
  have hmapped : ∀ o < 4096, kernbase ≤ ppn e * 4096 + o ∧ ppn e * 4096 + o < phystop := by
    intro o ho
    have hown := MemInv.frames_mem hinit (Multiset.mem_add.mpr (.inr (mem_leaves he hv)))
    obtain ⟨hge, hlt⟩ := hmem.frame_mapped hown ho
    exact ⟨(by decide : kernbase ≤ tiny.etext).trans hge, hlt⟩
  have hbyte : ∀ o < 8, k.mem.byte (ppn e * 4096 + o) = tinyApp.file (120 + o) := by
    intro o ho
    rw [Mem.byte_frame _ _ (by omega), hram, frameByte_pageAt _ (by omega)]
    exact App.view_file tinyApp_mem _ (by rw [tinyApp_length]; omega)
  have hname : ∀ o ≤ 4, tinyApp.file (120 + o) = tinyApp.name.getD o 0 := by decide
  refine ⟨ppn e * 4096, Mem.cstring_eq_ok_iff.mpr (Mem.stringAt_iff.mpr ?_)⟩
  refine ⟨tinyApp.noNul, fun o ho => ?_⟩
  have ho' : o ≤ 4 := ho
  obtain ⟨hge, hlt⟩ := hmapped o (by omega)
  exact ⟨hge, hlt, (hbyte o (by omega)).trans (hname o ho')⟩

/-- The first program of the small system has its name. -/
theorem tiny_named (fill : Byte) : ∃ (k : Kernel) (name : ℕ),
    Reachable tiny (.running .user k) ∧ k.current = 0 ∧
    k.mem.cstring name = .ok tinyApp.name ∧ 1000 ≤ k.mem.free.card := by
  obtain ⟨es, k, hrun, h, hs, hpages⟩ := tiny_first fill
  have hreach : Reachable tiny (.running .user k) := ⟨tinyStart fill, es, hrun⟩
  have hcur : k.current = 0 := congrArg Sched.current hs
  obtain ⟨name, hn⟩ := (Working.reached hreach).tiny_name (by rw [hcur]; exact hpages 0 (by decide))
  exact ⟨k, name, hreach, hcur, hn, (h.mono (by decide : 1000 ≤ 32000)).free⟩

/-- A healthy program forks, and its child has its pages. -/
theorem Health.fork_pages {n n' s : ℕ} (env : Env cfg) (hwf : cfg.WellFormed)
    (h : Health cfg .user k n s) (hid : SyscallId.ofWord (k.cpu.reg 17) = some .fork)
    (hclean : CleanStep (.trap ecallCause env) .user k) (hn : n' + (6 + 3 * s) ≤ n)
    (hp : freeSlot k = some p) :
    ∃ κ k', step cfg (.trap ecallCause env) (.running .user k) = .running (.kernel κ) k' ∧
      Health cfg (.kernel κ) k' n' s ∧ k'.sched = k.sched.fork ∧
      ∀ v < trapframeVpn, k'.pages p v = k.pages k.current v := by
  obtain ⟨κ, k', hstep, h', hs', -⟩ := h.fork env hwf hid hclean hn
  refine ⟨κ, k', hstep, h', hs', fun v hv => ?_⟩
  obtain ⟨k₁, he, hh⟩ := enterTrap_of_ready h.toInv h.ready ecallCause
  rw [step_ecall he hh, syscall, hid] at hstep
  obtain ⟨r, hsys, hr⟩ := exists_of_bind_ok (ofExcept_running hstep)
  obtain ⟨⟨pid, k''⟩, hf, hr'⟩ := exists_of_bind_ok hsys
  obtain rfl : k'' = k' := by
    rw [← Except.ok.inj hr'] at hr
    exact (Prod.mk.inj (Except.ok.inj hr)).2
  have hmem := (hh.call_keeps h.mem).mem
  have hcur : (moveSepc k₁).cur.taskState ≠ .unInit := by
    rw [hh.call_cur]
    exact h.init
  have hslot : freeSlot (moveSepc k₁) = some p := by
    rw [← hp]
    exact congrArg Sched.freeSlot hh.sched
  obtain ⟨hfull, -⟩ | ⟨p', f, root, m, hfk, hr⟩ := (sysFork_spec hmem hcur).of_ok hf
  · rw [hslot] at hfull
    cases hfull
  · obtain rfl : p = p' := Option.some.inj (hslot.symm.trans hfk.slot)
    rw [(Prod.mk.inj hr).2, hfk.pages_child hv, ← hh.call_pages h.mem h.init hv]
    exact congrArg (fun i => (moveSepc k₁).pages i v) hh.current

/-- A child of the first program has its name as well. -/
theorem tiny_child (fill : Byte) : ∃ (k : Kernel) (name : ℕ), Working tiny k ∧ k.current = 1 ∧
    k.mem.cstring name = .ok tinyApp.name ∧ 1000 ≤ k.mem.free.card := by
  obtain ⟨es, k, hrun, h, hs, hpages⟩ := tiny_first fill
  have hreach : Reachable tiny (.running .user k) := ⟨tinyStart fill, es, hrun⟩
  have env := (tinyStart fill).toEnv
  have hcur : k.current = 0 := congrArg Sched.current hs
  have hslot : freeSlot k = some 1 := by
    change k.sched.freeSlot = some 1
    rw [hs]
    decide
  -- it forks, returns and is interrupted
  obtain ⟨κ₁, k₁, hstep₁, h₁, hs₁, hchild⟩ := (h.compute tiny_wf (callRegs 6) 0).fork_pages env
    tiny_wf rfl (callRegs_clean _ _ _) (by decide : 1000 + (6 + 3 * 4) ≤ 32000) hslot
  obtain ⟨k₂, hstep₂, h₂, hs₂⟩ := h₁.resume tiny_wf env
  obtain ⟨κ₃, k₃, hstep₃, h₃, hs₃, -⟩ := h₂.timer tiny_wf env
  have hsched₁ : k₁.sched = initSched.fork := hs₁.trans (congrArg Sched.fork hs)
  have hsched₂ : k₂.sched = initSched.fork := hs₂.trans hsched₁
  have hlive : initSched.fork.Live 1 := by decide +kernel
  have hother : ∀ {k : Kernel}, k.sched = initSched.fork → 1 ≠ k.current ∧ k.sched.Live 1 := by
    intro k hk
    refine ⟨fun he => ?_, hk ▸ hlive⟩
    have hc : k.current = initSched.fork.current := congrArg Sched.current hk
    rw [hc] at he
    exact absurd he (by decide +kernel)
  -- the steps of its parent leave the child alone
  have hpage : k₃.pages 1 0 = imagePages (tinyApp.view (tinyStart fill).toEnv).file 0 := by
    have hu₂ := ((step_stepped hstep₂).inv tiny_wf h₁.toInv).2 1 (hother hsched₁).1
      (hother hsched₁).2
    have hu₃ := ((step_stepped hstep₃).inv tiny_wf h₂.toInv).2 1 (hother hsched₂).1
      (hother hsched₂).2
    calc k₃.pages 1 0
        = k₂.pages 1 0 := hu₃.pages_eq h₂.mem (live_init (hother hsched₂).2) (by decide)
      _ = k₁.pages 1 0 := hu₂.pages_eq h₁.mem (live_init (hother hsched₁).2) (by decide)
      _ = k.pages k.current 0 := hchild 0 (by decide)
      _ = _ := by rw [hcur]; exact hpages 0 (by decide)
  have hcur₃ : k₃.current = 1 := by
    have hc : k₃.current = initSched.fork.yield.current :=
      congrArg Sched.current (hs₃.trans (congrArg Sched.yield hsched₂))
    rw [hc]
    decide +kernel
  have hk : Working tiny k₃ := by
    have hr := ((((hreach.step (.compute (callRegs 6) 0)).step (.trap ecallCause env)).step
      (.resume env)).step (.trap timerCause env))
    change Reachable tiny (step tiny _ (step tiny _ (step tiny _ (.running .user _)))) at hr
    rw [hstep₁, hstep₂, hstep₃] at hr
    exact .reached hr
  obtain ⟨name, hn⟩ := hk.tiny_name (by rw [hcur₃]; exact hpage)
  exact ⟨k₃, name, hk, hcur₃, hn, h₃.free⟩

theorem tiny_canExec (fill : Byte) (hfree : 1000 ≤ k.mem.free.card) :
    CanExec tiny (tinyStart fill).toEnv k tinyApp.name tinyApp := by
  have hb := tiny_bootable fill
  have hrepr : ∀ id ≤ 1, (Nat.repr id).length ≤ 3 := fun id hid =>
    Nat.repr_length id 3 (by decide) (by omega)
  refine ⟨fun id hid => ?_, hb.elf, ?_, hb.readable, hb.stack⟩
  · have := hrepr id hid
    change 4 + (Nat.repr id).length < 985
    omega
  · rw [tiny_imageNeed]
    omega

/-- The first program of one system, and in another, with different bytes around the program, a
child. -/
theorem exec_history_independent_child : ∃ (k₁ k₁' k₂ k₂' : Kernel) (name₁ name₂ : ℕ),
    (Working tiny k₁ ∧ k₁.current = 0) ∧ (Working tiny k₂ ∧ k₂.current = 1) ∧
    sysExec tiny (tinyStart 0).toEnv name₁ k₁ = .ok k₁' ∧
    sysExec tiny (tinyStart 0x41).toEnv name₂ k₂ = .ok k₂' ∧
    SameProgram tinyApp k₁' k₂' ∧ Replaced tinyApp k₁ k₁' ∧ Replaced tinyApp k₂ k₂' := by
  obtain ⟨k₁, name₁, hreach₁, hc₁, hn₁, hfree₁⟩ := tiny_named 0
  obtain ⟨k₂, name₂, hk₂, hc₂, hn₂, hfree₂⟩ := tiny_child 0x41
  have hk₁ : Working tiny k₁ := .reached hreach₁
  obtain ⟨k₁', he₁⟩ := (tiny_canExec 0 hfree₁).exists_ok tiny_wf hk₁ rfl hn₁
  obtain ⟨k₂', he₂⟩ := (tiny_canExec 0x41 hfree₂).exists_ok tiny_wf hk₂ rfl hn₂
  obtain ⟨hs, hr₁, hr₂⟩ :=
    (exec_history_independent tiny_wf hk₁ hk₂ rfl hn₁ hn₂).1 k₁' k₂' he₁ he₂
  exact ⟨k₁, k₁', k₂, k₂', name₁, name₂, ⟨hk₁, hc₁⟩, ⟨hk₂, hc₂⟩, he₁, he₂, hs, hr₁, hr₂⟩

/-! ## Reclamation -/

/-- The frames are given back, each of them once and none that the allocator had, and nothing
else; there is no message. -/
structure Reclaims (m m' : Mem) (frames : Multiset ℕ) : Prop where
  once : frames.Nodup
  held : ∀ f ∈ frames, f ∉ m.free
  recycled : m'.recycled = m.recycled + frames
  current_eq : m'.memoryAllocator.current = m.memoryAllocator.current
  end_eq : m'.memoryAllocator.end_ = m.memoryAllocator.end_
  console : m'.console = m.console

theorem Frees.reclaims {lo : ℕ} {m m' : Mem} {N freed dropped : Multiset ℕ}
    (h : Frees m m' N freed dropped) (ho : Own lo m freed)
    (hroom : m.recycled.card + freed.card ≤ maxSize) : Reclaims m m' freed := by
  obtain ⟨hdropped, hconsole⟩ := h.exact hroom
  have hfree := h.free
  rw [hdropped, add_zero] at hfree
  exact ⟨ho.nodup, fun f hf => ho.not_mem_free hf, hfree, h.current_eq, h.end_eq, hconsole⟩

/-- **Reclamation is complete and does not fail.** A zombie gives back its trap page, its pages, its
tables and its root, and an exec all of the old ones but the trap page. Where the tasks of before
are the tasks of after, as many frames are free. -/
theorem reclamation_complete (hwf : cfg.WellFormed) (hk : Working cfg k) :
    (∀ c, (k.tasks c).taskState = .zombie →
      k.mem.recycled.card + ((k.tasks c).frames k.mem.ram).card ≤ maxSize →
      ∃ k', freeChild k c = .ok k' ∧ Reclaims k.mem k'.mem ((k.tasks c).frames k.mem.ram) ∧
        cfg.trampolinePpn ∉ (k.tasks c).frames k.mem.ram) ∧
    (∀ (env : Env cfg) (name : ℕ) (k₁ : Kernel), execLoad cfg env name k = .ok k₁ →
      k₁.mem.recycled.card + (k.cur.ownFrames k.mem.ram).card ≤ maxSize →
      ∃ m', freeProcMemory k₁.mem k.cur.pagetable k.cur.baseSize = .ok m' ∧
        sysExec cfg env name k = .ok { k₁ with mem := m' } ∧
        Reclaims k₁.mem m' (k.cur.ownFrames k.mem.ram) ∧ k.cur.cx ∉ k.cur.ownFrames k.mem.ram ∧
        cfg.trampolinePpn ∉ k.cur.ownFrames k.mem.ram) ∧
    (∀ (mode mode' : Mode) (es : List (Event cfg)) (k' : Kernel),
      Reachable cfg (.running mode k) →
      Recycles (fun i => (k.tasks i).taskState ≠ .unInit) es (.running mode k) →
      run cfg es (.running mode k) = .running mode' k' →
      (∀ i, (k.tasks i).taskState = .unInit → (k'.tasks i).taskState = .unInit) →
      k'.mem.free.card = k.mem.free.card) := by
  have h := hk.mem hwf
  have htramp : ∀ {frames : Multiset ℕ}, frames ≤ k.owned → cfg.trampolinePpn ∉ frames :=
    fun hle hm => h.frame_ne (Multiset.mem_of_le hle hm) rfl
  refine ⟨fun c hz hroom => ?_, fun env name k₁ hload hroom => ?_,
    fun mode mode' es k' hreach hp hrun hslots => ?_⟩
  · have hc := zombie_init hz
    have hle : (k.tasks c).frames k.mem.ram ≤ k.owned := Kernel.frames_le_owned hc
    obtain ⟨_, hfree, m, ⟨d, hfrees⟩, rfl⟩ := (freeChild_spec h hc).exists_ok fun _ he => he
    exact ⟨_, hfree, hfrees.reclaims (h.own.mono hle) hroom, htramp hle⟩
  · have hcur := hk.init hwf
    obtain ⟨path, a, root, N, D, m, hl, rfl⟩ := (execLoad_spec h hcur hwf).of_ok hload
    obtain ⟨m', hfree, d, hfrees⟩ := (freeOld_spec h hcur hl.image).exists_ok fun _ he => he
    have hle : k.cur.ownFrames k.mem.ram ≤ k.owned := Kernel.ownFrames_le_owned hcur
    have hown : Own cfg.lo m (k.cur.ownFrames k.mem.ram) :=
      (hl.image.own h).mono (hle.trans (Multiset.le_add_right _ _))
    refine ⟨m', hfree, ?_, hfrees.reclaims hown hroom, h.cx_not_mem_own hcur, htramp hle⟩
    rw [sysExec, hload]
    change (freeProcMemory m k.cur.pagetable k.cur.baseSize >>= _) = _
    rw [hfree]
    rfl
  · rw [run_free_eq hwf (hreach.inv hwf) hp hrun hslots]

/-- The recycled stack of the small system never fills. -/
theorem Reachable.tiny_room (h : Reachable tiny (.running mode k)) :
    k.mem.recycled.card + k.owned.card ≤ 365 :=
  (h.roomy tiny_share tiny_wf).recycled_le (h.inv tiny_wf).mem

/-- A zombie of the small system is freed, and its first program executes itself. -/
theorem reclamation_complete_zombie :
    (∃ k k' : Kernel, Working tiny k ∧ (k.tasks 1).taskState = .zombie ∧
      freeChild k 1 = .ok k' ∧ Reclaims k.mem k'.mem ((k.tasks 1).frames k.mem.ram)) ∧
    ∃ (k k₁ : Kernel) (m' : Mem) (name : ℕ), Working tiny k ∧
      execLoad tiny (tinyStart 0).toEnv name k = .ok k₁ ∧
      freeProcMemory k₁.mem k.cur.pagetable k.cur.baseSize = .ok m' ∧
      Reclaims k₁.mem m' (k.cur.ownFrames k.mem.ram) := by
  have hmax : 365 ≤ maxSize := by decide
  constructor
  · obtain ⟨es, k, hrun, -, hs⟩ := tiny_history 0
      (show [Op.fork, .yield, .exit].length ≤ 1000 by decide) (by decide +kernel)
    have hreach : Reachable tiny (.running .user k) := ⟨tinyStart 0, es, hrun⟩
    have hz : (k.tasks 1).taskState = .zombie := by
      change (k.sched.procs 1).taskState = .zombie
      rw [hs]
      decide +kernel
    have hle := Multiset.card_le_card (Kernel.frames_le_owned (zombie_init hz))
    have hroom := hreach.tiny_room
    obtain ⟨k', hfree, hr, -⟩ :=
      (reclamation_complete tiny_wf (.reached hreach)).1 1 hz (by omega)
    exact ⟨k, k', .reached hreach, hz, hfree, hr⟩
  · obtain ⟨k, name, hreach, -, hn, hfree⟩ := tiny_named 0
    have hk : Working tiny k := .reached hreach
    have hcur := hk.init tiny_wf
    obtain ⟨k', he⟩ := (tiny_canExec 0 hfree).exists_ok tiny_wf hk rfl hn
    obtain ⟨k₁, hload, -⟩ := exists_of_bind_ok he
    have hrec : k₁.mem.recycled.card ≤ k.mem.recycled.card := by
      obtain ⟨path, a, root, N, D, m, hl, rfl⟩ :=
        (execLoad_spec (hk.mem tiny_wf) hcur tiny_wf).of_ok hload
      exact Multiset.card_le_card hl.image.grows.recycled
    have hle : (k.cur.ownFrames k.mem.ram).card ≤ k.owned.card :=
      Multiset.card_le_card (Kernel.ownFrames_le_owned hcur)
    have hroom := hreach.tiny_room
    obtain ⟨m', hfree, -, hr, -⟩ :=
      (reclamation_complete tiny_wf hk).2.1 (tinyStart 0).toEnv name k₁ hload (by omega)
    exact ⟨k, k₁, m', name, hk, hload, hfree, hr⟩

end RiscvOs
