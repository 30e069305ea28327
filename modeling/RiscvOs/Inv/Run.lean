import RiscvOs.Calls.Free
import RiscvOs.Calls.Trap
import RiscvOs.Inv.Stack

/-!
# The invariant of runs

The process tree, the stacks, the memory and the control registers together, and what a step does
to the tasks that do not run.

* `Untouched`: a task keeps its address space, frame by frame.
* **`Stepped.inv`**: a step keeps the invariant and leaves the other live tasks untouched.
-/

set_option autoImplicit false

namespace RiscvOs

open PageTableEntry

variable {cfg : Config} {env : Env cfg} {k k' : Kernel} {i : Slot}

/-! ## Untouched tasks -/

/-- The pages of a slot: flags and contents. -/
def Kernel.pages (k : Kernel) (i : Slot) : ℕ → Option (Byte × Frame) :=
  pagesOf k.mem.ram (lookup k.mem.ram (k.tasks i).pagetable.rootPpn)

/-- The trap context of a slot. -/
def Kernel.trap (k : Kernel) (i : Slot) : Frame := k.mem.ram (k.tasks i).cx

/-- The address space of the slot `i` is the same, and so are its frames. -/
structure Untouched (k k' : Kernel) (i : Slot) : Prop where
  space : (k.tasks i).SameSpace (k'.tasks i)
  ram : ∀ f ∈ (k.tasks i).frames k.mem.ram, k'.mem.ram f = k.mem.ram f

namespace Untouched

theorem refl (k : Kernel) (i : Slot) : Untouched k k i := ⟨.refl _, fun _ _ => rfl⟩

theorem of_onlyTask {c : Slot} (ho : OnlyTask cfg k k' c) (hic : i ≠ c)
    (hi : (k.tasks i).taskState ≠ .unInit) : Untouched k k' i :=
  ⟨ho.task i hic, fun _ hf => ho.frames_agree hic hi hf⟩

section

variable (h : MemInv cfg k) (hi : (k.tasks i).taskState ≠ .unInit) (hu : Untouched k k' i)

include hu in
theorem trap_eq : k'.trap i = k.trap i := by
  rw [Kernel.trap, hu.space.cx]
  exact hu.ram _ (MemInv.cx_mem_frames _ _)

include h hi hu

theorem frames_eq : (k'.tasks i).frames k'.mem.ram = (k.tasks i).frames k.mem.ram := by
  rw [hu.space.frames]
  exact (h.task i hi).frames_congr hu.ram

theorem pages_eq {v : ℕ} (hv : v < trapframeVpn) : k'.pages i v = k.pages i v := by
  have hs := (h.task i hi).congr_space hu.ram
  rw [Kernel.pages, Kernel.pages, hu.space.pagetable]
  exact hs.pages v hv

theorem trans {k₂ : Kernel} (hu' : Untouched k' k₂ i) : Untouched k k₂ i where
  space :=
    { pagetable := hu'.space.pagetable.trans hu.space.pagetable
      trapCxPpn := hu'.space.trapCxPpn.trans hu.space.trapCxPpn
      baseSize := hu'.space.baseSize.trans hu.space.baseSize
      unInit := hu'.space.unInit.trans hu.space.unInit }
  ram f hf := (hu'.ram f (by rwa [hu.frames_eq h hi])).trans (hu.ram f hf)

end

end Untouched

/-- A change that keeps the memory and the address spaces. -/
theorem Untouched.of_same (hram : k'.mem.ram = k.mem.ram)
    (ht : (k.tasks i).SameSpace (k'.tasks i)) : Untouched k k' i :=
  ⟨ht, fun f _ => by rw [hram]⟩

/-- The trap context is no part of the memory. -/
theorem MemInv.pages_of_agree (h : MemInv cfg k) (hi : (k.tasks i).taskState ≠ .unInit)
    (hroot : (k'.tasks i).pagetable = (k.tasks i).pagetable)
    (hag : ∀ f ∈ (k.tasks i).frames k.mem.ram, f ≠ (k.tasks i).cx → k'.mem.ram f = k.mem.ram f)
    {v : ℕ} (hv : v < trapframeVpn) : k'.pages i v = k.pages i v := by
  have hlook : lookup k'.mem.ram (k.tasks i).pagetable.rootPpn v =
      lookup k.mem.ram (k.tasks i).pagetable.rootPpn v := by
    refine ((h.task i hi).space.table.congr fun f hf => hag f ?_ ?_).lookup v
      (lt_trans hv (by decide))
    · exact Multiset.mem_add.mpr (.inl (Multiset.mem_add.mpr (.inl hf)))
    · exact fun he => h.cx_not_mem_table hi (he ▸ hf)
  rw [Kernel.pages, Kernel.pages, pagesOf, pagesOf, hroot, hlook]
  cases he : lookup k.mem.ram (k.tasks i).pagetable.rootPpn v with
  | none => rfl
  | some e =>
    obtain ⟨-, -, hf⟩ | ⟨hv', -⟩ | ⟨hv', -⟩ := h.lookup_cases hi (lt_trans hv (by decide)) he
    · rw [Option.map_some, Option.map_some,
        hag _ (Multiset.mem_add.mpr (.inr hf)) (h.leaf_ne_cx hi hf)]
    · exact absurd hv (by omega)
    · have : trapframeVpn < trampolineVpn := by decide
      omega

/-! ## System calls -/

theorem live_init (h : k.sched.Live i) : (k.tasks i).taskState ≠ .unInit := h.not_unInit

theorem zombie_init (h : (k.tasks i).taskState = .zombie) : (k.tasks i).taskState ≠ .unInit := by
  rw [h]
  decide

theorem zombie_not_live (h : (k.tasks i).taskState = .zombie) : ¬ k.sched.Live i := fun hl => by
  rw [Sched.Live, show (k.sched.procs i).taskState = .zombie from h] at hl
  exact absurd hl (by decide)

/-- A yield leaves the memory alone. -/
theorem sysYield_sameSpace {self kont : Kont} (hon : OnStack cfg k)
    (hself : k.sched.Live k.current → KontOk k k.current self)
    (hy : sysYield cfg env self k = .ok (kont, k')) :
    k'.mem = k.mem ∧ k'.kernelPagetable = k.kernelPagetable ∧
      ∀ j, (k.tasks j).SameSpace (k'.tasks j) := by
  have hsched := sysYield_sched hy
  obtain ⟨rfl, -⟩ | ⟨hsw, -⟩ := sysYield_stack hon hself hy
  · exact ⟨rfl, rfl, fun j => .refl _⟩
  · refine ⟨hsw.mem, hsw.kernelPagetable, fun j => ?_⟩
    have hu := (Sched.sameProcs_yield k.sched).unInit j
    rw [← hsched] at hu
    obtain ⟨st, ctx, ht⟩ := hsw.task j
    exact ⟨by rw [ht], by rw [ht], by rw [ht], hu⟩

/-- What a piece of kernel code does to memory: the invariant is kept, and the live tasks that do
not run are untouched. -/
structure Keeps (cfg : Config) (k k' : Kernel) : Prop where
  mem : MemInv cfg k'
  kernelPagetable : k'.kernelPagetable = k.kernelPagetable
  others : ∀ i, i ≠ k.current → k.sched.Live i → Untouched k k' i

namespace Keeps

theorem of_same (h : MemInv cfg k) (hram : k'.mem.ram = k.mem.ram)
    (hfree : k'.mem.free = k.mem.free)
    (hend : k'.mem.memoryAllocator.end_ = k.mem.memoryAllocator.end_)
    (hk : k'.kernelPagetable = k.kernelPagetable)
    (ht : ∀ i, (k.tasks i).SameSpace (k'.tasks i)) : Keeps cfg k k' :=
  ⟨h.of_same hram hfree hend hk ht, hk, fun i _ _ => .of_same hram (ht i)⟩

theorem of_onlyTask {c : Slot} (hm : MemInv cfg k') (ho : OnlyTask cfg k k' c)
    (hc : c = k.current ∨ ¬ k.sched.Live c) : Keeps cfg k k' := by
  refine ⟨hm, ho.kernelPagetable, fun i hi hl => .of_onlyTask ho (fun he => ?_) (live_init hl)⟩
  subst he
  obtain hc | hc := hc
  · exact hi hc
  · exact hc hl

theorem withConsole (h : Keeps cfg k k') (out : List Output) :
    Keeps cfg k { k' with mem.console := out } :=
  ⟨h.mem.of_same rfl rfl rfl rfl fun _ => .refl _, h.kernelPagetable,
    fun i hi hl => ⟨(h.others i hi hl).space, (h.others i hi hl).ram⟩⟩

theorem trans {k₁ : Kernel} (h₀ : MemInv cfg k) (h : Keeps cfg k k₁) (h' : Keeps cfg k₁ k')
    (hcur : k₁.current = k.current) (hl : ∀ i, k.sched.Live i → k₁.sched.Live i) :
    Keeps cfg k k' :=
  ⟨h'.mem, h'.kernelPagetable.trans h.kernelPagetable, fun i hi hli =>
    (h.others i hi hli).trans h₀ (live_init hli)
    (h'.others i (by rwa [hcur]) (hl i hli))⟩

theorem refl (h : MemInv cfg k) : Keeps cfg k k := ⟨h, rfl, fun i _ _ => .refl k i⟩

/-- A store into a frame of the running task, outside its table. -/
theorem storeFrame (h : MemInv cfg k) (hc : k.sched.Live k.current) {f : ℕ}
    (hf : f ∈ k.cur.frames k.mem.ram)
    (hn : f ∉ tableFrames k.mem.ram k.cur.pagetable.rootPpn) (c : Frame) :
    Keeps cfg k { k with mem := k.mem.storeFrame f c } :=
  .of_onlyTask (h.storeFrame (live_init hc) hf hn c)
    (onlyTask_storeFrame h (live_init hc) hf c) (.inl rfl)

theorem storeCx (h : MemInv cfg k) (hc : k.sched.Live k.current) (c : Frame) :
    Keeps cfg k { k with mem := k.mem.storeFrame k.cur.cx c } :=
  storeFrame h hc (MemInv.cx_mem_frames _ _) (h.cx_not_mem_table (live_init hc)) c

theorem storeLeaf (h : MemInv cfg k) (hc : k.sched.Live k.current) {f : ℕ}
    (hf : f ∈ leaves (lookup k.mem.ram k.cur.pagetable.rootPpn) 0 (k.cur.baseSize / 4096))
    (c : Frame) : Keeps cfg k { k with mem := k.mem.storeFrame f c } :=
  storeFrame h hc (Multiset.mem_add.mpr (.inr hf)) (h.leaf_not_mem_table (live_init hc) hf) c

end Keeps

theorem becomeZombie_sameSpace (code : Word) (hc : k.sched.Live k.current) (j : Slot) :
    (k.tasks j).SameSpace ((becomeZombie code k).tasks j) := by
  have hu : ((becomeZombie code k).tasks j).taskState = .unInit ↔
      (k.tasks j).taskState = .unInit := by
    have := Tree.unInit_zombify hc (i := j)
    rwa [← becomeZombie_sched code] at this
  refine ⟨?_, ?_, ?_, hu⟩ <;>
  · simp only [becomeZombie, childProcMv, Kernel.setTask]
    by_cases hj : j = k.current
    · subst hj
      simp only [Function.update_self]
      split_ifs <;> rfl
    · simp only [Function.update_of_ne hj]
      split_ifs <;> rfl

theorem Served.keeps {cx : ℕ} {father : Slot} {data : Option Word} {call : SyscallId} {op : Op}
    {kont : Kont} (hwf : cfg.WellFormed) (h : MemInv cfg k) (hon : OnStack cfg k)
    (hc : k.sched.Live k.current) (hcx : cx = k.cur.cx) (hf : father = k.current)
    (hs : Served cfg env cx father data k call op kont k') : Keeps cfg k k' := by
  cases hs with
  | quiet _ v out => exact (Keeps.refl h).withConsole out
  | putchar _ hpa hst =>
    obtain ⟨f, c, rfl, ⟨-, hleaf⟩ | ⟨-, rfl, -⟩⟩ := putchar_spec h (live_init hc) hpa hst
    · exact .storeLeaf h hc hleaf c
    · exact .storeCx h hc c
  | fork hk =>
    obtain ⟨-, hr⟩ | ⟨p, f, root, m, hfk, hr⟩ := (sysFork_spec h (live_init hc)).of_ok hk
    · rw [(Prod.mk.inj hr).2]
      exact (Keeps.refl h).withConsole _
    · rw [(Prod.mk.inj hr).2]
      exact .of_onlyTask (hfk.memInv h) (hfk.onlyTask h)
        (.inr fun hl => hl.not_unInit (unInit_of_freeSlot hfk.slot))
  | exec hk =>
    rename_i out
    have h₀ : MemInv cfg { k with mem.console := out } := ((Keeps.refl h).withConsole out).mem
    obtain ⟨path, a, root, N, D, m, m', he, rfl⟩ := (sysExec_spec h₀ (live_init hc) hwf).of_ok hk
    have hkeep : Keeps cfg { k with mem.console := out } _ :=
      .of_onlyTask (he.memInv h₀ (live_init hc)) (he.onlyTask h₀ (live_init hc)) (.inl rfl)
    exact Keeps.trans h ((Keeps.refl h).withConsole out) hkeep rfl fun _ hl => hl
  | reap out hz hk =>
    have hzs := (zombie_of_zombieChild hz).2
    rename_i child k₁
    have hinit := zombie_init hzs
    obtain ⟨m, hfr, rfl⟩ := (freeChild_spec h hinit).of_ok hk
    exact (Keeps.of_onlyTask (hfr.memInv h hinit) (hfr.onlyTask h hinit)
      (.inr fun hl => absurd hl (zombie_not_live hzs))).withConsole out
  | exit hpid hy hk =>
    rename_i code
    obtain ⟨hz, -⟩ := becomeZombie_stack hon code
    have hdead : (becomeZombie code k).sched.Live (becomeZombie code k).current →
        KontOk (becomeZombie code k) (becomeZombie code k).current .exit := fun hl => by
      rw [becomeZombie_sched, Tree.live_zombify] at hl
      exact absurd rfl hl.2
    obtain ⟨hm, hkp, ht⟩ := sysYield_sameSpace hz hdead hy
    have hm' : k'.mem = k.mem := hm
    refine .of_same h (by rw [hm']) (by rw [hm']) (by rw [hm']) hkp fun j => ?_
    have h₁ := becomeZombie_sameSpace code hc j
    have h₂ := ht j
    exact ⟨h₂.pagetable.trans h₁.pagetable, h₂.trapCxPpn.trans h₁.trapCxPpn,
      h₂.baseSize.trans h₁.baseSize, h₂.unInit.trans h₁.unInit⟩
  | yield hw hy =>
    obtain ⟨hm, hkp, ht⟩ := sysYield_sameSpace hon (fun _ => hw.kontOk hcx hf) hy
    exact .of_same h (by rw [hm]) (by rw [hm]) (by rw [hm]) hkp ht

/-! ## Steps -/

/-- **The invariant of runs.** -/
structure Inv (cfg : Config) (mode : Mode) (k : Kernel) : Prop where
  tree : ProcTree k.sched
  stack : StackInv cfg mode k
  mem : MemInv cfg k
  csrs : mode = .user → UserCsrs k

theorem Inv.live {mode : Mode} (h : Inv cfg mode k) : k.sched.Live k.current := h.tree.current

theorem Inv.init {mode : Mode} (h : Inv cfg mode k) : k.cur.taskState ≠ .unInit :=
  live_init h.tree.current

/-- A trap writes into the trap page of the running task. -/
theorem TrapEntered.keeps {scause : Word} (h : MemInv cfg k) (hc : k.sched.Live k.current)
    (he : TrapEntered cfg scause k k') : Keeps cfg k k' := by
  obtain ⟨c, rfl, -⟩ := he.shape
  have hk := Keeps.storeCx h hc (trapFrame (k.cpu.trap scause) (k.mem.ram k.cur.cx))
  exact ⟨hk.mem.of_same rfl rfl rfl rfl fun _ => .refl _, rfl, fun i hi hl =>
    ⟨(hk.others i hi hl).space, (hk.others i hi hl).ram⟩⟩

theorem Keeps.moveSepc (h : MemInv cfg k) (hc : k.sched.Live k.current) :
    Keeps cfg k (moveSepc k) := storeCx h hc _

/-- The state `k₁` in which the handler of a trap starts. -/
structure Handling (cfg : Config) (scause : Word) (k k₁ : Kernel) : Prop where
  entered : TrapEntered cfg scause k k₁
  keeps : Keeps cfg k k₁
  onStack : OnStack cfg k₁
  sched : k₁.sched = k.sched
  live : k₁.sched.Live k₁.current

theorem TrapEntered.current {scause : Word} (h : TrapEntered cfg scause k k') :
    k'.current = k.current := by
  obtain ⟨c, rfl, -⟩ := h.shape
  rfl

theorem Inv.enter {scause : Word} {k₁ : Kernel} (h : Inv cfg .user k)
    (he : enterTrap cfg scause k = .ok k₁) : Handling cfg scause k k₁ := by
  have hent := (enterTrap_spec h.mem h.init (h.csrs rfl) _).of_ok he
  refine ⟨hent, hent.keeps h.mem h.live, (enterTrap_stack h.stack he).1, enterTrap_sched he, ?_⟩
  rw [hent.current, enterTrap_sched he]
  exact h.live

namespace Handling

variable {scause : Word} {k₁ : Kernel} (hh : Handling cfg scause k k₁)

include hh

/-- The handler of the trap was called for the task that ran. -/
theorem current : k₁.current = k.current := hh.entered.current

theorem live_of_live {i : Slot} (hl : k.sched.Live i) : k₁.sched.Live i := by
  rw [hh.sched]
  exact hl

theorem call_keeps (h : MemInv cfg k) : Keeps cfg k (moveSepc k₁) :=
  Keeps.trans h hh.keeps (.moveSepc hh.keeps.mem hh.live) hh.current fun _ => hh.live_of_live

theorem call_onStack : OnStack cfg (moveSepc k₁) := hh.onStack.withMem _

end Handling

theorem Resumed.keeps (h : MemInv cfg k) (hr : Resumed k k') : Keeps cfg k k' := by
  obtain ⟨c, rfl⟩ := hr.shape
  exact .of_same h rfl rfl rfl rfl fun _ => .refl _

/-- What a step does to memory. -/
theorem Stepped.keeps {mode mode' : Mode} {e : Event cfg} {op : Op} (hwf : cfg.WellFormed)
    (h : Inv cfg mode k) (hs : Stepped mode k e op mode' k') :
    Keeps cfg k k' ∧ (mode' = .user → UserCsrs k') := by
  have hc := h.live
  cases hs with
  | idle => exact ⟨.refl h.mem, h.csrs⟩
  | compute _ x pc =>
    refine ⟨.of_same h.mem rfl rfl rfl rfl fun _ => .refl _, fun _ => ?_⟩
    exact ⟨(h.csrs rfl).satp, (h.csrs rfl).sscratch, (h.csrs rfl).stvec⟩
  | store _ va b =>
    have hcs := h.csrs rfl
    obtain he | ⟨f, c, hf, he⟩ := userStore_spec h.mem h.init hcs.satp va b
    · rw [he]
      exact ⟨.refl h.mem, fun _ => hcs⟩
    · rw [he]
      exact ⟨.storeLeaf h.mem hc hf c, fun _ => ⟨hcs.satp, hcs.sscratch, hcs.stvec⟩⟩
  | @timer _ k₁ _ _ env _ he _ hy =>
    have hh := h.enter he
    have hok : KontOk k₁ k₁.current .timer := trivial
    obtain ⟨hm, hkp, ht⟩ := sysYield_sameSpace hh.onStack (fun _ => hok) hy
    exact ⟨Keeps.trans h.mem hh.keeps
      (.of_same hh.keeps.mem (by rw [hm]) (by rw [hm]) (by rw [hm]) hkp ht) hh.current
      fun _ => hh.live_of_live, fun he => nomatch he⟩
  | interrupt out he _ => exact ⟨(h.enter he).keeps.withConsole out, fun he => nomatch he⟩
  | @ecall _ k₁ _ _ env _ _ _ he _ _ hsv =>
    have hh := h.enter he
    have hmv := hh.call_keeps h.mem
    exact ⟨Keeps.trans h.mem hmv (hsv.keeps hwf hmv.mem hh.call_onStack hh.live rfl rfl)
      hh.current fun _ => hh.live_of_live, fun he => nomatch he⟩
  | leave _ ht =>
    have hr := (trapReturn_spec h.mem h.init h.stack.onStack.satp).of_ok ht
    exact ⟨hr.keeps h.mem, fun _ => hr.csrs⟩
  | yielded => exact ⟨.refl h.mem, fun he => nomatch he⟩
  | getchar hsv =>
    exact ⟨hsv.keeps hwf h.mem h.stack.onStack hc h.stack.kontOk rfl, fun he => nomatch he⟩
  | recycle hsv =>
    exact ⟨hsv.keeps hwf h.mem h.stack.onStack hc h.stack.kontOk.1 h.stack.kontOk.2.1,
      fun he => nomatch he⟩
  | @sysReturn _ _ _ cx v ht =>
    have hcx : cx = k.cur.cx := h.stack.kontOk
    subst hcx
    have hst := Keeps.storeCx h.mem hc (Function.update (k.mem.ram k.cur.cx) (cxReg 10) v)
    have hr := (trapReturn_spec hst.mem h.init h.stack.onStack.satp).of_ok ht
    exact ⟨Keeps.trans h.mem hst (hr.keeps hst.mem) rfl fun _ hl => hl, fun _ => hr.csrs⟩

/-- **Every step keeps the invariant**, and leaves the other live tasks untouched. -/
theorem Stepped.inv {mode mode' : Mode} {e : Event cfg} {op : Op} (hwf : cfg.WellFormed)
    (h : Inv cfg mode k) (hs : Stepped mode k e op mode' k') :
    Inv cfg mode' k' ∧ ∀ i, i ≠ k.current → k.sched.Live i → Untouched k k' i := by
  obtain ⟨hk, hcs⟩ := hs.keeps hwf h
  obtain ⟨hsched, hen⟩ := hs.sched h.live
  exact ⟨⟨hsched ▸ h.tree.apply hen, (hs.stack h.stack h.live).1, hk.mem, hcs⟩, hk.others⟩

end RiscvOs
