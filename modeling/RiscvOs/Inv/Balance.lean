import RiscvOs.Inv.Builds
import RiscvOs.Inv.Reach

/-!
# The balance of frames

A step moves frames between the tasks and the allocator, and loses one only on a full recycled
stack.

* `Level`: a change that moves no frame and writes no table.
* **`Stepped.moves`**: a step is level, or a fork, an exec or a recycling.
* `Balanced`, **`Moves.balanced`**: what that does to the frames.
* **`run_balanced`**: over a run that never fills the recycled stack, owned and free frames together
  are the same, and a task that keeps its address space keeps its frames.
-/

set_option autoImplicit false

namespace RiscvOs

open PageTableEntry

variable {cfg : Config} {env : Env cfg} {k k' : Kernel} {i : Slot}

/-- The frames of the kernel itself. -/
def Kernel.kernelFrames (k : Kernel) : Multiset ℕ := k.kernelTableFrames + k.kernelStackFrames

theorem Kernel.owned_eq_sum (k : Kernel) : k.owned = k.kernelFrames + ∑ i, k.taskFrames i := rfl

theorem Kernel.frames_le_owned (hi : (k.tasks i).taskState ≠ .unInit) :
    (k.tasks i).frames k.mem.ram ≤ k.owned := by
  rw [← Kernel.taskFrames_of_init hi, k.owned_eq i]
  exact Multiset.le_add_left _ _

theorem Kernel.ownFrames_le_owned (hi : (k.tasks i).taskState ≠ .unInit) :
    (k.tasks i).ownFrames k.mem.ram ≤ k.owned := by
  refine le_trans ?_ (Kernel.frames_le_owned hi)
  rw [TaskControlBlock.frames_split]
  exact Multiset.le_add_right _ _

theorem OnlyTask.kernelFrames {c : Slot} (ho : OnlyTask cfg k k' c) (h : MemInv cfg k) :
    k'.kernelFrames = k.kernelFrames := by
  have hrest := ho.rest h
  have htasks : ∑ i ∈ Finset.univ.erase c, k'.taskFrames i =
      ∑ i ∈ Finset.univ.erase c, k.taskFrames i :=
    Finset.sum_congr rfl fun i hi => ho.taskFrames h (Finset.ne_of_mem_erase hi)
  unfold Kernel.rest at hrest
  rw [htasks] at hrest
  exact add_right_cancel hrest

theorem TaskControlBlock.SameSpace.symm {t t' : TaskControlBlock} (h : t.SameSpace t') :
    t'.SameSpace t :=
  ⟨h.pagetable.symm, h.trapCxPpn.symm, h.baseSize.symm, h.unInit.symm⟩

theorem TaskControlBlock.SameSpace.trans {t t₁ t' : TaskControlBlock} (h : t.SameSpace t₁)
    (h' : t₁.SameSpace t') : t.SameSpace t' :=
  ⟨h'.pagetable.trans h.pagetable, h'.trapCxPpn.trans h.trapCxPpn, h'.baseSize.trans h.baseSize,
    h'.unInit.trans h.unInit⟩

/-- The tables of a state: the kernel's, and those of the tasks. -/
def Kernel.HasTable (k : Kernel) (pt : PageTable) : Prop :=
  pt = k.kernelPagetable ∨ ∃ i, (k.tasks i).taskState ≠ .unInit ∧ pt = (k.tasks i).pagetable

theorem Kernel.table_le_owned {pt : PageTable} (ht : k.HasTable pt) :
    tableFrames k.mem.ram pt.rootPpn ≤ k.owned := by
  obtain rfl | ⟨i, hi, rfl⟩ := ht
  · rw [Kernel.owned, add_assoc]
    exact Multiset.le_add_right _ _
  · refine le_trans ?_ (Kernel.frames_le_owned hi)
    rw [TaskControlBlock.frames, add_assoc]
    exact Multiset.le_add_right _ _

/-! ## Changes that move no frame -/

/-- No frame changes hands, and no table is written. -/
structure Level (k k' : Kernel) : Prop where
  kernel : k'.kernelFrames = k.kernelFrames
  allocator : k'.mem.memoryAllocator = k.mem.memoryAllocator
  same : ∀ i, (k.tasks i).SameSpace (k'.tasks i)
  task : ∀ i, k'.taskFrames i = k.taskFrames i
  pagetable : k'.kernelPagetable = k.kernelPagetable
  tables : ∀ pt, k.HasTable pt → ∀ f ∈ tableFrames k.mem.ram pt.rootPpn,
    k'.mem.ram f = k.mem.ram f

namespace Level

theorem hasTable_iff (h : Level k k') {pt : PageTable} : k'.HasTable pt ↔ k.HasTable pt := by
  have ht : ∀ i, ((k'.tasks i).taskState ≠ .unInit ∧ pt = (k'.tasks i).pagetable) ↔
      ((k.tasks i).taskState ≠ .unInit ∧ pt = (k.tasks i).pagetable) := fun i => by
    rw [ne_eq, (h.same i).unInit, (h.same i).pagetable]
  rw [Kernel.HasTable, Kernel.HasTable, h.pagetable]
  simp only [ht]

theorem free (h : Level k k') : k'.mem.free = k.mem.free := by
  unfold Mem.free Mem.recycled
  rw [h.allocator]

theorem trans {k₁ : Kernel} (h : Level k k₁) (h' : Level k₁ k') : Level k k' where
  kernel := h'.kernel.trans h.kernel
  allocator := h'.allocator.trans h.allocator
  same i := (h.same i).trans (h'.same i)
  task i := (h'.task i).trans (h.task i)
  pagetable := h'.pagetable.trans h.pagetable
  tables pt ht f hf := by
    have hframes : tableFrames k₁.mem.ram pt.rootPpn = tableFrames k.mem.ram pt.rootPpn :=
      Radix.nodes_congr (h.tables pt ht)
    exact (h'.tables pt (h.hasTable_iff.mpr ht) f (hframes ▸ hf)).trans (h.tables pt ht f hf)

theorem owned (h : Level k k') : k'.owned = k.owned := by
  rw [Kernel.owned_eq_sum, Kernel.owned_eq_sum, h.kernel,
    Finset.sum_congr rfl fun i _ => h.task i]

theorem of_write {c : Slot} (h : MemInv cfg k) (ho : OnlyTask cfg k k' c)
    (hsame : (k.tasks c).SameSpace (k'.tasks c))
    (htab : (k.tasks c).taskState ≠ .unInit →
      ∀ f ∈ tableFrames k.mem.ram (k.tasks c).pagetable.rootPpn, k'.mem.ram f = k.mem.ram f)
    (halloc : k'.mem.memoryAllocator = k.mem.memoryAllocator) : Level k k' where
  kernel := ho.kernelFrames h
  allocator := halloc
  same i := by
    by_cases hic : i = c
    · exact hic ▸ hsame
    · exact ho.task i hic
  task := MemInv.taskFrames_write h ho hsame htab
  pagetable := ho.kernelPagetable
  tables := by
    rintro pt (rfl | ⟨i, hi, rfl⟩) f hf
    · exact ho.frame f (Multiset.mem_of_le (k.kernelTable_le_rest c) hf)
    · by_cases hic : i = c
      · subst hic
        exact htab hi f hf
      · refine ho.frames_agree hic hi ?_
        rw [TaskControlBlock.frames, add_assoc]
        exact Multiset.mem_add.mpr (.inl hf)

theorem of_same (h : MemInv cfg k) (hram : k'.mem.ram = k.mem.ram)
    (halloc : k'.mem.memoryAllocator = k.mem.memoryAllocator)
    (hk : k'.kernelPagetable = k.kernelPagetable)
    (ht : ∀ i, (k.tasks i).SameSpace (k'.tasks i)) : Level k k' := by
  have ho : OnlyTask cfg k k' k.current :=
    ⟨hk, fun i _ => ht i, fun f _ => by rw [hram], by rw [hram], by rw [halloc]⟩
  exact of_write h ho (ht _) (fun _ f _ => by rw [hram]) halloc

theorem refl (k : Kernel) : Level k k :=
  ⟨rfl, rfl, fun _ => .refl _, fun _ => rfl, rfl, fun _ _ _ _ => rfl⟩

theorem withConsole (h : MemInv cfg k) (out : List Output) :
    Level k { k with mem.console := out } :=
  of_same h rfl rfl rfl fun _ => .refl _

/-- A store into a frame of a task, outside its table. -/
theorem storeFrame (h : MemInv cfg k) (hi : (k.tasks i).taskState ≠ .unInit) {f : ℕ}
    (hf : f ∈ (k.tasks i).frames k.mem.ram)
    (hn : f ∉ tableFrames k.mem.ram (k.tasks i).pagetable.rootPpn) (c : Frame) :
    Level k { k with mem := k.mem.storeFrame f c } := by
  refine of_write h (onlyTask_storeFrame h hi hf c) (.refl _) (fun _ x hx => ?_) rfl
  exact Mem.storeFrame_of_ne (fun he : x = f => hn (he ▸ hx)) c

theorem storeCx (h : MemInv cfg k) (hi : k.cur.taskState ≠ .unInit) (c : Frame) :
    Level k { k with mem := k.mem.storeFrame k.cur.cx c } :=
  storeFrame h hi (MemInv.cx_mem_frames _ _) (h.cx_not_mem_table hi) c

theorem storeLeaf (h : MemInv cfg k) (hi : k.cur.taskState ≠ .unInit) {f : ℕ}
    (hf : f ∈ leaves (lookup k.mem.ram k.cur.pagetable.rootPpn) 0 (k.cur.baseSize / 4096))
    (c : Frame) : Level k { k with mem := k.mem.storeFrame f c } :=
  storeFrame h hi (Multiset.mem_add.mpr (.inr hf)) (h.leaf_not_mem_table hi hf) c

end Level

/-! ## What a step does to frames -/

/-- Besides level changes there are forks, execs and recyclings. -/
inductive Moves (cfg : Config) (k : Kernel) : Kernel → Prop
  | level {k' : Kernel} (hl : Level k k') : Moves cfg k k'
  | fork {k₁ : Kernel} {p : Slot} {f root : ℕ} {m : Mem} (hl : Level k k₁) (hm : MemInv cfg k₁)
    (hcur : k₁.cur.taskState ≠ .unInit) (hf : Forked cfg k₁ p f root m) (ht : Takes k₁.mem m)
    (hb : BuiltBut cfg m ⟨root⟩ f) : Moves cfg k (afterFork cfg k₁ p f root m)
  | exec {k₁ : Kernel} {env : Env cfg} {name root : ℕ} {path : List Byte} {a : App}
    {N D : Multiset ℕ} {m m' : Mem} (hl : Level k k₁) (hm : MemInv cfg k₁)
    (hcur : k₁.cur.taskState ≠ .unInit) (he : Execed cfg env name k₁ path a root N D m m')
    (ht : Takes k₁.mem m) (hb : BuiltBut cfg m ⟨root⟩ k₁.cur.cx) :
    Moves cfg k (afterExec k₁ (a.view env).file root m')
  | reap {k₁ : Kernel} {c : Slot} {m : Mem} (out : List Output) (hl : Level k k₁)
    (hm : MemInv cfg k₁) (hz : (k₁.tasks c).taskState = .zombie) (hf : Freed k₁ c m) :
    Moves cfg k { afterFree k₁ c m with mem.console := out }

theorem Moves.after {k₁ : Kernel} (h : Level k k₁) (hm : Moves cfg k₁ k') : Moves cfg k k' := by
  cases hm with
  | level hl => exact .level (h.trans hl)
  | fork hl hm hcur hf ht hb => exact .fork (h.trans hl) hm hcur hf ht hb
  | exec hl hm hcur he ht hb => exact .exec (h.trans hl) hm hcur he ht hb
  | reap out hl hm hz hf => exact .reap out (h.trans hl) hm hz hf

theorem Served.moves {cx : ℕ} {father : Slot} {data : Option Word} {call : SyscallId} {op : Op}
    {kont : Kont} (hwf : cfg.WellFormed) (h : MemInv cfg k) (hon : OnStack cfg k)
    (hc : k.sched.Live k.current) (hcx : cx = k.cur.cx) (hf : father = k.current)
    (hs : Served cfg env cx father data k call op kont k') : Moves cfg k k' := by
  have hcur : k.cur.taskState ≠ .unInit := live_init hc
  cases hs with
  | quiet _ v out => exact .level (.withConsole h out)
  | putchar _ hpa hst =>
    obtain ⟨f, c, rfl, ⟨-, hleaf⟩ | ⟨-, rfl, -⟩⟩ := putchar_spec h hcur hpa hst
    · exact .level (.storeLeaf h hcur hleaf c)
    · exact .level (.storeCx h hcur c)
  | fork hk =>
    obtain ⟨-, hr⟩ | ⟨p, f, root, m, hfk, hr⟩ := (sysFork_spec h hcur).of_ok hk
    · rw [(Prod.mk.inj hr).2]
      exact .level (.withConsole h _)
    · have ht := sysFork_takes hfk.slot hk
      have hb := sysFork_built h hfk.slot hk
      rw [(Prod.mk.inj hr).2] at ht hb ⊢
      rw [afterFork_self, forkedTask_cx cfg k p root hfk.lt] at hb
      exact .fork (.refl k) h hcur hfk ⟨ht.recycled, ht.fresh⟩ hb
  | exec hk =>
    rename_i name out
    have h₀ : MemInv cfg { k with mem.console := out } := ((Keeps.refl h).withConsole out).mem
    obtain ⟨k₁, hload, hk⟩ := exists_of_bind_ok hk
    have ht := execLoad_takes hload
    have hb := execLoad_built h₀ hload
    obtain ⟨path, a, root, N, D, m, hl, rfl⟩ := (execLoad_spec h₀ hcur hwf).of_ok hload
    obtain ⟨m', hfree, hk⟩ := exists_of_bind_ok hk
    obtain rfl := Except.ok.inj hk
    have he : Execed cfg env name { k with mem.console := out } path a root N D m m' :=
      ⟨hl, (freeOld_spec h₀ hcur hl.image).of_ok hfree⟩
    have hm : Moves cfg k (afterExec { k with mem.console := out } (a.view env).file root m') :=
      .exec (.withConsole h out) h₀ hcur he ht (by rwa [setTask_self] at hb)
    exact hm
  | reap out hz hk =>
    have hzs := (zombie_of_zombieChild hz).2
    rename_i child k₁
    have hinit := zombie_init hzs
    obtain ⟨m, hfr, rfl⟩ := (freeChild_spec h hinit).of_ok hk
    exact .reap out (.refl k) h hzs hfr
  | exit hpid hy hk =>
    rename_i code
    have hdead : (becomeZombie code k).sched.Live (becomeZombie code k).current →
        KontOk (becomeZombie code k) (becomeZombie code k).current .exit := fun hl => by
      rw [becomeZombie_sched, Tree.live_zombify] at hl
      exact absurd rfl hl.2
    obtain ⟨hm, hkp, ht⟩ := sysYield_sameSpace (becomeZombie_stack hon code).1 hdead hy
    have hm' : k'.mem = k.mem := hm
    refine .level (.of_same h (by rw [hm']) (by rw [hm']) hkp fun j => ?_)
    exact (becomeZombie_sameSpace code hc j).trans (ht j)
  | yield hw hy =>
    obtain ⟨hm, hkp, ht⟩ := sysYield_sameSpace hon (fun _ => hw.kontOk hcx hf) hy
    exact .level (.of_same h (by rw [hm]) (by rw [hm]) hkp ht)

theorem TrapEntered.level {scause : Word} (h : MemInv cfg k) (hi : k.cur.taskState ≠ .unInit)
    (he : TrapEntered cfg scause k k') : Level k k' := by
  obtain ⟨c, rfl, -⟩ := he.shape
  have hl := Level.storeCx h hi (trapFrame (k.cpu.trap scause) (k.mem.ram k.cur.cx))
  exact ⟨hl.kernel, hl.allocator, hl.same, hl.task, hl.pagetable, hl.tables⟩

theorem Resumed.level (h : MemInv cfg k) (hr : Resumed k k') : Level k k' := by
  obtain ⟨c, rfl⟩ := hr.shape
  exact .of_same h rfl rfl rfl fun _ => .refl _

/-- The way to a system call moves no frame. -/
theorem Inv.call_level {scause : Word} (h : Inv cfg .user k)
    (he : enterTrap cfg scause k = .ok k') : Level k (moveSepc k') := by
  have hh := h.enter he
  exact (hh.entered.level h.mem h.init).trans (.storeCx hh.keeps.mem (live_init hh.live) _)

/-- **A step is level, or a fork, an exec or a recycling.** -/
theorem Stepped.moves {mode mode' : Mode} {e : Event cfg} {op : Op} (hwf : cfg.WellFormed)
    (h : Inv cfg mode k) (hs : Stepped mode k e op mode' k') : Moves cfg k k' := by
  have hc := h.live
  cases hs with
  | idle => exact .level (.refl k)
  | compute _ x pc =>
    refine .level ?_
    exact .of_same h.mem rfl rfl rfl fun _ => .refl _
  | store _ va b =>
    obtain he | ⟨f, c, hf, he⟩ := userStore_spec h.mem h.init (h.csrs rfl).satp va b
    · rw [he]
      exact .level (.refl k)
    · rw [he]
      exact .level (.storeLeaf h.mem h.init hf c)
  | @timer _ k₁ _ _ env _ he _ hy =>
    have hh := h.enter he
    have hok : KontOk k₁ k₁.current .timer := trivial
    obtain ⟨hm, hkp, ht⟩ := sysYield_sameSpace hh.onStack (fun _ => hok) hy
    refine .level ((hh.entered.level h.mem h.init).trans ?_)
    exact .of_same hh.keeps.mem (by rw [hm]) (by rw [hm]) hkp ht
  | interrupt out he _ =>
    have hh := h.enter he
    exact .level ((hh.entered.level h.mem h.init).trans (.withConsole hh.keeps.mem out))
  | @ecall _ k₁ _ _ env _ _ _ he _ _ hsv =>
    have hh := h.enter he
    have hmv := hh.call_keeps h.mem
    exact .after (h.call_level he) (hsv.moves hwf hmv.mem hh.call_onStack hh.live rfl rfl)
  | leave _ ht =>
    have hr := (trapReturn_spec h.mem h.init h.stack.onStack.satp).of_ok ht
    exact .level (hr.level h.mem)
  | yielded => exact .level (.refl k)
  | getchar hsv => exact hsv.moves hwf h.mem h.stack.onStack hc h.stack.kontOk rfl
  | recycle hsv =>
    exact hsv.moves hwf h.mem h.stack.onStack hc h.stack.kontOk.1 h.stack.kontOk.2.1
  | @sysReturn _ _ _ cx v ht =>
    have hcx : cx = k.cur.cx := h.stack.kontOk
    subst hcx
    have hst := Keeps.storeCx h.mem hc (Function.update (k.mem.ram k.cur.cx) (cxReg 10) v)
    have hlevel := Level.storeCx h.mem h.init (Function.update (k.mem.ram k.cur.cx) (cxReg 10) v)
    have hr := (trapReturn_spec hst.mem h.init h.stack.onStack.satp).of_ok ht
    exact .level (hlevel.trans (hr.level hst.mem))

/-! ## Balanced changes -/

/-- Frames change hands between tasks and the allocator; what is lost was given back to a full
recycled stack. A task that keeps its address space keeps its frames. -/
structure Balanced (k k' : Kernel) : Prop where
  kernel : k'.kernelFrames = k.kernelFrames
  total : ∃ lost : Multiset ℕ, k'.owned + k'.mem.free + lost = k.owned + k.mem.free ∧
    (lost ≠ 0 → k'.mem.recycled.card = maxSize)
  task : ∀ i, (k.tasks i).taskState ≠ .unInit → (k.tasks i).SameSpace (k'.tasks i) →
    k'.taskFrames i = k.taskFrames i

theorem Level.balanced (h : Level k k') : Balanced k k' where
  kernel := h.kernel
  total := by
    refine ⟨0, ?_, fun h0 => absurd rfl h0⟩
    rw [add_zero, h.owned, h.free]
  task i _ _ := h.task i

theorem Level.then {k₁ : Kernel} (h : Level k k₁) (h' : Balanced k₁ k') : Balanced k k' where
  kernel := h'.kernel.trans h.kernel
  total := by
    obtain ⟨lost, htotal, hfull⟩ := h'.total
    rw [h.owned, h.free] at htotal
    exact ⟨lost, htotal, hfull⟩
  task i hi hsame := by
    have hi' : (k₁.tasks i).taskState ≠ .unInit := fun he => hi ((h.same i).unInit.mp he)
    exact (h'.task i hi' ((h.same i).symm.trans hsame)).trans (h.task i)

theorem Balanced.withConsole (h : Balanced k k') (out : List Output) :
    Balanced k { k' with mem.console := out } :=
  ⟨h.kernel, h.total, h.task⟩

/-- A change to one task. -/
theorem Balanced.of_onlyTask {c : Slot} (h : MemInv cfg k) (ho : OnlyTask cfg k k' c)
    (htotal : ∃ lost : Multiset ℕ,
      k'.taskFrames c + k'.mem.free + lost = k.taskFrames c + k.mem.free ∧
        (lost ≠ 0 → k'.mem.recycled.card = maxSize))
    (hc : (k.tasks c).taskState ≠ .unInit → ¬(k.tasks c).SameSpace (k'.tasks c)) :
    Balanced k k' where
  kernel := ho.kernelFrames h
  total := by
    obtain ⟨lost, htotal, hfull⟩ := htotal
    refine ⟨lost, ?_, hfull⟩
    rw [k'.owned_eq c, k.owned_eq c, ho.rest h, add_assoc, add_assoc, ← add_assoc _ _ lost, htotal,
      add_assoc]
  task i hi hsame := by
    by_cases hic : i = c
    · subst hic
      exact absurd hsame (hc hi)
    · exact ho.taskFrames h hic

theorem Frees.balance {m m' : Mem} {N freed lost : Multiset ℕ} (h : Frees m m' N freed lost) :
    m'.free + lost = m.free + freed := by
  unfold Mem.free
  rw [h.current_eq, h.end_eq, add_right_comm, h.free, add_right_comm]

theorem Forked.balanced {p : Slot} {f root : ℕ} {m : Mem} (h : MemInv cfg k)
    (hf : Forked cfg k p f root m) : Balanced k (afterFork cfg k p f root m) := by
  have hp : (k.tasks p).taskState = .unInit := unInit_of_freeSlot hf.slot
  have hi : ((afterFork cfg k p f root m).tasks p).taskState ≠ .unInit := by
    rw [afterFork_self]
    exact TaskState.noConfusion
  refine .of_onlyTask h (hf.onlyTask h) ⟨0, ?_, fun h0 => absurd rfl h0⟩ fun hi => absurd hp hi
  rw [add_zero, Kernel.taskFrames_of_unInit hp, zero_add, Kernel.taskFrames_of_init hi,
    afterFork_self, hf.grows.free]
  rfl

/-- The root of a new table is not the old one. -/
theorem Execed.root_ne {name root : ℕ} {path : List Byte} {a : App} {N D : Multiset ℕ}
    {m m' : Mem} (h : MemInv cfg k) (hcur : k.cur.taskState ≠ .unInit)
    (he : Execed cfg env name k path a root N D m m') : k.cur.pagetable.rootPpn ≠ root := by
  intro heq
  have hold : root ∈ k.owned := heq ▸ MemInv.frames_mem hcur (MemInv.root_mem_frames _ _)
  exact he.image.not_new h hold (Multiset.mem_add.mpr (.inl he.image.space.root_mem))

theorem Execed.balanced {name root : ℕ} {path : List Byte} {a : App} {N D : Multiset ℕ}
    {m m' : Mem} (h : MemInv cfg k) (hcur : k.cur.taskState ≠ .unInit)
    (he : Execed cfg env name k path a root N D m m') :
    Balanced k (afterExec k (a.view env).file root m') := by
  obtain ⟨lost, hfrees⟩ := he.frees
  refine .of_onlyTask h (he.onlyTask h hcur) ⟨lost, ?_, hfrees.full⟩ fun _ hsame => ?_
  · have hgrows : k.mem.free = N + D + m.free := he.image.grows.free
    rw [he.frames h hcur, Kernel.taskFrames_of_init hcur, TaskControlBlock.frames_split, hgrows]
    calc N + {k.cur.cx} + D + m'.free + lost
        = N + {k.cur.cx} + D + (m'.free + lost) := add_assoc _ _ _
      _ = N + {k.cur.cx} + D + (m.free + k.cur.ownFrames k.mem.ram) := by rw [hfrees.balance]
      _ = k.cur.ownFrames k.mem.ram + {k.cur.cx} + (N + D + m.free) := by abel
  · have hroot := hsame.pagetable
    rw [afterExec_self] at hroot
    exact he.root_ne h hcur (congrArg PageTable.rootPpn hroot).symm

theorem Freed.balanced {c : Slot} {m : Mem} (h : MemInv cfg k)
    (hc : (k.tasks c).taskState ≠ .unInit) (hf : Freed k c m) : Balanced k (afterFree k c m) := by
  obtain ⟨lost, hfrees⟩ := hf.frees
  have hu : ((afterFree k c m).tasks c).taskState = .unInit := by
    rw [afterFree_self]
    rfl
  refine .of_onlyTask h (hf.onlyTask h hc) ⟨lost, ?_, hfrees.full⟩ fun hi hsame => ?_
  · rw [Kernel.taskFrames_of_unInit hu, zero_add, Kernel.taskFrames_of_init hc,
      add_comm _ k.mem.free]
    exact hfrees.balance
  · exact hi (hsame.unInit.mp hu)

/-- **Every move is balanced.** -/
theorem Moves.balanced (h : Moves cfg k k') : Balanced k k' := by
  cases h with
  | level hl => exact hl.balanced
  | fork hl hm hcur hf ht hb => exact hl.then (hf.balanced hm)
  | exec hl hm hcur he ht hb => exact hl.then (he.balanced hm hcur)
  | reap out hl hm hz hf =>
    exact (hl.then (hf.balanced hm (zombie_init hz))).withConsole out

/-! ## Runs -/

/-- After every step of the run there is room on the recycled stack, and the tasks of `S` have the
address spaces they had before it. -/
def Recycles (S : Slot → Prop) (es : List (Event cfg)) (s : Sys) : Prop :=
  Along (fun e mode k => ∀ mode' k', step cfg e (.running mode k) = .running mode' k' →
    k'.mem.recycled.card < maxSize ∧ ∀ i, S i → (k.tasks i).SameSpace (k'.tasks i)) es s

/-- **Over a run that never fills the recycled stack**, no frame is lost, and the tasks that keep
their address spaces keep their frames. -/
theorem run_balanced {S : Slot → Prop} {es : List (Event cfg)} {mode mode' : Mode}
    (hwf : cfg.WellFormed) (h : Inv cfg mode k)
    (hS : ∀ i, S i → (k.tasks i).taskState ≠ .unInit) (hp : Recycles S es (.running mode k))
    (hrun : run cfg es (.running mode k) = .running mode' k') :
    k'.kernelFrames = k.kernelFrames ∧ k'.owned + k'.mem.free = k.owned + k.mem.free ∧
      ∀ i, S i → k'.taskFrames i = k.taskFrames i := by
  induction es generalizing mode k with
  | nil =>
    obtain ⟨-, rfl⟩ := Sys.running.inj hrun
    exact ⟨rfl, rfl, fun _ _ => rfl⟩
  | cons e es ih =>
    rw [run_cons] at hrun
    obtain ⟨mode₁, k₁, hstep⟩ := running_of_run hrun
    have hs := step_stepped hstep
    have hb := (hs.moves hwf h).balanced
    obtain ⟨hnow, hlater⟩ := hp
    obtain ⟨hroom, hsame⟩ := hnow mode k rfl mode₁ k₁ hstep
    rw [hstep] at hrun hlater
    -- What a step loses it loses on a full stack, and this one is not.
    obtain ⟨lost, htotal, hfull⟩ := hb.total
    have hlost : lost = 0 := by
      by_contra hne
      exact absurd (hfull hne) hroom.ne
    rw [hlost, add_zero] at htotal
    have hS₁ : ∀ i, S i → (k₁.tasks i).taskState ≠ .unInit := fun i hi he =>
      hS i hi ((hsame i hi).unInit.mp he)
    obtain ⟨hkernel, htotal', htasks⟩ := ih (hs.inv hwf h).1 hS₁ hlater hrun
    refine ⟨hkernel.trans hb.kernel, htotal'.trans htotal, fun i hi => ?_⟩
    exact (htasks i hi).trans (hb.task i (hS i hi) (hsame i hi))

/-- **Where the same slots are in use at both ends**, by tasks that kept their address spaces, the
same frames are free. -/
theorem run_free_eq {es : List (Event cfg)} {mode mode' : Mode} (hwf : cfg.WellFormed)
    (h : Inv cfg mode k)
    (hp : Recycles (fun i => (k.tasks i).taskState ≠ .unInit) es (.running mode k))
    (hrun : run cfg es (.running mode k) = .running mode' k')
    (hslots : ∀ i, (k.tasks i).taskState = .unInit → (k'.tasks i).taskState = .unInit) :
    k'.mem.free = k.mem.free := by
  obtain ⟨hkernel, htotal, htasks⟩ := run_balanced hwf h (fun _ hi => hi) hp hrun
  have htask : ∀ i, k'.taskFrames i = k.taskFrames i := by
    intro i
    by_cases hi : (k.tasks i).taskState = .unInit
    · rw [Kernel.taskFrames_of_unInit hi, Kernel.taskFrames_of_unInit (hslots i hi)]
    · exact htasks i hi
  have howned : k'.owned = k.owned := by
    rw [Kernel.owned_eq_sum, Kernel.owned_eq_sum, hkernel, Finset.sum_congr rfl fun i _ => htask i]
  rw [howned] at htotal
  exact add_left_cancel htotal

end RiscvOs
