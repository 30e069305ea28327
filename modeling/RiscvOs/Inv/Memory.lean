import RiscvOs.Hw.Trampoline
import RiscvOs.Hw.Walk
import RiscvOs.Kernel.Build
import RiscvOs.Kernel.System

/-!
# Who owns which frame

Every frame that is handed out has one owner: the kernel's table, a kernel stack, or a task, which
owns its table, its trap page and the frames behind its low half.

* `Kernel.owned`: all of them; `MemInv`: they are distinct, apart from the free frames, and every
  task's address space is in order.
* **`MemInv.replace`**: a change to one task keeps the invariant if it leaves the others' frames
  alone and accounts for its own.
* `MemInv.trapMapped`, `MemInv.kernelFetch`: so the trampoline runs under every table.
-/

set_option autoImplicit false

namespace RiscvOs

open PageTableEntry

/-- The page of a slot's kernel stack. -/
def kstackVpn (p : Slot) : ℕ := floorVirts (virtAddrFromSizeT (kstackVa p))

/-! ## The frames of a task -/

namespace TaskControlBlock

/-- The frames of a task: its table, its trap page, its low half. -/
def frames (ram : ℕ → Frame) (t : TaskControlBlock) : Multiset ℕ :=
  tableFrames ram t.pagetable.rootPpn + {t.cx} +
    leaves (lookup ram t.pagetable.rootPpn) 0 (t.baseSize / 4096)

/-- The address space of a task, by its control block. -/
structure Ok (cfg : Config) (ram : ℕ → Frame) (t : TaskControlBlock) : Prop where
  space : Space ram t.pagetable.rootPpn t.cx cfg.trampolinePpn (t.baseSize / 4096)
    (tableFrames ram t.pagetable.rootPpn)
    (leaves (lookup ram t.pagetable.rootPpn) 0 (t.baseSize / 4096))
    (pagesOf ram (lookup ram t.pagetable.rootPpn))
  sizeAligned : t.baseSize % 4096 = 0
  cxAligned : t.trapCxPpn % 4096 = 0
  user : ∀ v < trapframeVpn, ∀ e, lookup ram t.pagetable.rootPpn v = some e → has e pteU = true

/-- Two control blocks of the same address space. -/
structure SameSpace (t t' : TaskControlBlock) : Prop where
  pagetable : t'.pagetable = t.pagetable
  trapCxPpn : t'.trapCxPpn = t.trapCxPpn
  baseSize : t'.baseSize = t.baseSize
  unInit : t'.taskState = .unInit ↔ t.taskState = .unInit

theorem SameSpace.refl (t : TaskControlBlock) : SameSpace t t := ⟨rfl, rfl, rfl, Iff.rfl⟩

theorem SameSpace.cx {t t' : TaskControlBlock} (h : SameSpace t t') : t'.cx = t.cx := by
  rw [TaskControlBlock.cx, TaskControlBlock.cx, h.trapCxPpn]

theorem SameSpace.frames {t t' : TaskControlBlock} (h : SameSpace t t') (ram : ℕ → Frame) :
    t'.frames ram = t.frames ram := by
  rw [TaskControlBlock.frames, TaskControlBlock.frames, h.pagetable, h.cx, h.baseSize]

theorem SameSpace.ok {cfg : Config} {t t' : TaskControlBlock} {ram : ℕ → Frame}
    (h : SameSpace t t') (ho : Ok cfg ram t) : Ok cfg ram t' where
  space := by rw [h.pagetable, h.cx, h.baseSize]; exact ho.space
  sizeAligned := by rw [h.baseSize]; exact ho.sizeAligned
  cxAligned := by rw [h.trapCxPpn]; exact ho.cxAligned
  user := by rw [h.pagetable]; exact ho.user

variable {cfg : Config} {ram ram' : ℕ → Frame} {t : TaskControlBlock} {tramp : ℕ}
  {N D : Multiset ℕ} {V : ℕ → Option (Byte × Frame)}

theorem frames_eq
    (h : Space ram t.pagetable.rootPpn t.cx tramp (t.baseSize / 4096) N D V) :
    t.frames ram = N + {t.cx} + D := by
  rw [frames, h.nodes, h.data]

theorem Ok.of_space
    (h : Space ram t.pagetable.rootPpn t.cx cfg.trampolinePpn (t.baseSize / 4096) N D V)
    (hs : t.baseSize % 4096 = 0) (hc : t.trapCxPpn % 4096 = 0)
    (hu : ∀ v < trapframeVpn, ∀ p, V v = some p → (p.1 &&& pteU != 0) = true) : Ok cfg ram t where
  space := { h with nodes := rfl, data := rfl, pages := fun _ _ => rfl }
  sizeAligned := hs
  cxAligned := hc
  user v hv e he := by
    refine hu v hv (flags e, ram (ppn e)) ?_
    rw [← h.pages v hv, pagesOf, he, Option.map_some]

/-- Locality: the frames of a task determine its address space. -/
theorem Ok.congr_space (h : Ok cfg ram t) (hag : ∀ f ∈ t.frames ram, ram' f = ram f) :
    Space ram' t.pagetable.rootPpn t.cx cfg.trampolinePpn (t.baseSize / 4096)
      (tableFrames ram t.pagetable.rootPpn)
      (leaves (lookup ram t.pagetable.rootPpn) 0 (t.baseSize / 4096))
      (pagesOf ram (lookup ram t.pagetable.rootPpn)) :=
  h.space.congr
    (fun f hf => hag f (Multiset.mem_add.mpr (.inl (Multiset.mem_add.mpr (.inl hf)))))
    fun f hf => hag f (Multiset.mem_add.mpr (.inr hf))

theorem Ok.frames_congr (h : Ok cfg ram t) (hag : ∀ f ∈ t.frames ram, ram' f = ram f) :
    t.frames ram' = t.frames ram := frames_eq (h.congr_space hag)

theorem Ok.congr (h : Ok cfg ram t) (hag : ∀ f ∈ t.frames ram, ram' f = ram f) : Ok cfg ram' t := by
  refine Ok.of_space (h.congr_space hag) h.sizeAligned h.cxAligned fun v hv p hp => ?_
  rw [pagesOf, Option.map_eq_some_iff] at hp
  obtain ⟨e, he, rfl⟩ := hp
  exact h.user v hv e he

end TaskControlBlock

/-! ## The kernel's table -/

/-- The kernel's address space: itself, the trampoline and the kernel stacks. -/
structure KernelTable (cfg : Config) (ram : ℕ → Frame) (root : ℕ) : Prop where
  links : Radix.Interior pteFormat IsLink ram 2 root
  text : ∀ v, kernbase / 4096 ≤ v → v < cfg.etext / 4096 →
    lookup ram root v = some (new v (pteV ||| (pteR ||| pteX)))
  data : ∀ v, cfg.etext / 4096 ≤ v → v < phystop / 4096 →
    lookup ram root v = some (new v (pteV ||| (pteR ||| pteW)))
  trampoline : lookup ram root trampolineVpn =
    some (new cfg.trampolinePpn (pteV ||| (pteR ||| pteX)))
  stack : ∀ p : Slot, ∃ f < 2 ^ 44,
    lookup ram root (kstackVpn p) = some (new f (pteV ||| (pteR ||| pteW)))
  other : ∀ v < 2 ^ 27, ¬ (kernbase / 4096 ≤ v ∧ v < phystop / 4096) → v ≠ trampolineVpn →
    (∀ p : Slot, v ≠ kstackVpn p) → lookup ram root v = none

theorem kstackVpn_lt (p : Slot) : kstackVpn p < 2 ^ 27 := by
  revert p
  decide

theorem KernelTable.lookup_congr {cfg : Config} {ram ram' : ℕ → Frame} {root : ℕ}
    (h : KernelTable cfg ram root) (hag : ∀ f ∈ tableFrames ram root, ram' f = ram f) {v : ℕ}
    (hv : v < 2 ^ 27) : lookup ram' root v = lookup ram root v :=
  ((Table.self h.links).congr hag).lookup v hv

theorem KernelTable.congr {cfg : Config} {ram ram' : ℕ → Frame} {root : ℕ}
    (h : KernelTable cfg ram root) (hag : ∀ f ∈ tableFrames ram root, ram' f = ram f) :
    KernelTable cfg ram' root := by
  have hl := cfg.layout
  have hp : phystop / 4096 < 2 ^ 27 := by decide
  have he : cfg.etext / 4096 ≤ phystop / 4096 := Nat.div_le_div_right (by omega)
  refine ⟨((Table.self h.links).congr hag).links, fun v h₁ h₂ => ?_, fun v h₁ h₂ => ?_, ?_,
    fun p => ?_, fun v hv h₁ h₂ h₃ => ?_⟩
  · rw [h.lookup_congr hag (by omega)]
    exact h.text v h₁ h₂
  · rw [h.lookup_congr hag (by omega)]
    exact h.data v h₁ h₂
  · rw [h.lookup_congr hag (by decide)]
    exact h.trampoline
  · rw [h.lookup_congr hag (kstackVpn_lt p)]
    exact h.stack p
  · rw [h.lookup_congr hag hv]
    exact h.other v hv h₁ h₂ h₃

/-! ## All owned frames -/

namespace Kernel

/-- The frames of a slot. -/
def taskFrames (k : Kernel) (i : Slot) : Multiset ℕ :=
  if (k.tasks i).taskState = .unInit then 0 else (k.tasks i).frames k.mem.ram

/-- The frames of the kernel's table. -/
def kernelTableFrames (k : Kernel) : Multiset ℕ := tableFrames k.mem.ram k.kernelPagetable.rootPpn

/-- The frames of the kernel stacks. -/
def kernelStackFrames (k : Kernel) : Multiset ℕ :=
  ∑ p : Slot, leaf (lookup k.mem.ram k.kernelPagetable.rootPpn) (kstackVpn p)

/-- All frames with an owner. -/
def owned (k : Kernel) : Multiset ℕ :=
  k.kernelTableFrames + k.kernelStackFrames + ∑ i, k.taskFrames i

/-- The frames that do not belong to the slot `c`. -/
def rest (k : Kernel) (c : Slot) : Multiset ℕ :=
  k.kernelTableFrames + k.kernelStackFrames + ∑ i ∈ Finset.univ.erase c, k.taskFrames i

theorem owned_eq (k : Kernel) (c : Slot) : k.owned = k.rest c + k.taskFrames c := by
  rw [owned, rest, ← Finset.sum_erase_add Finset.univ k.taskFrames (Finset.mem_univ c), ← add_assoc]

theorem taskFrames_of_init {k : Kernel} {i : Slot} (h : (k.tasks i).taskState ≠ .unInit) :
    k.taskFrames i = (k.tasks i).frames k.mem.ram := if_neg h

theorem taskFrames_of_unInit {k : Kernel} {i : Slot} (h : (k.tasks i).taskState = .unInit) :
    k.taskFrames i = 0 := if_pos h

theorem taskFrames_le_rest (k : Kernel) {i c : Slot} (h : i ≠ c) : k.taskFrames i ≤ k.rest c :=
  (Finset.single_le_sum (f := k.taskFrames) (fun _ _ => Multiset.zero_le _)
    (Finset.mem_erase.mpr ⟨h, Finset.mem_univ i⟩)).trans (Multiset.le_add_left _ _)

theorem kernelTable_le_rest (k : Kernel) (c : Slot) : k.kernelTableFrames ≤ k.rest c := by
  rw [rest, add_assoc]
  exact Multiset.le_add_right _ _

end Kernel

/-- The end of the allocator's range. -/
def frameEnd : ℕ := ceilPhys (physAddrFromSizeT phystop)

/-- **The memory invariant.** -/
structure MemInv (cfg : Config) (k : Kernel) : Prop where
  own : Own cfg.lo k.mem k.owned
  end_eq : k.mem.memoryAllocator.end_ = frameEnd
  kernel : KernelTable cfg k.mem.ram k.kernelPagetable.rootPpn
  task : ∀ i, (k.tasks i).taskState ≠ .unInit → (k.tasks i).Ok cfg k.mem.ram
  text : k.mem.ram cfg.trampolinePpn = cfg.text

theorem Config.trampolinePpn_lt_lo (cfg : Config) : cfg.trampolinePpn < cfg.lo := by
  have h := cfg.layout
  have ha := cfg.aligned
  have hp : phystop < 2 ^ 56 := by decide
  rw [pageSize_eq] at h ha
  rw [Config.trampolinePpn, Config.lo, ceilPhys, physAddrFromSizeT, pageSize_eq,
    Nat.mod_eq_of_lt (by omega)]
  omega

namespace MemInv

variable {cfg : Config} {k k' : Kernel} {c i : Slot}

theorem apart (h : MemInv cfg k) : Apart k.mem k.owned :=
  h.own.apart (by rw [h.end_eq]; decide)

theorem frame_lt (h : MemInv cfg k) {f : ℕ} (hf : f ∈ k.owned) : f < 2 ^ 44 := by
  have h₁ := (h.own.mem_Ico hf).2
  have h₂ := k.mem.memoryAllocator.le
  rw [h.end_eq] at h₂
  exact lt_of_lt_of_le h₁ (h₂.trans (by decide))

/-- No owned frame is the trampoline's. -/
theorem frame_ne (h : MemInv cfg k) {f : ℕ} (hf : f ∈ k.owned) : f ≠ cfg.trampolinePpn := by
  have h₁ := (h.own.mem_Ico hf).1
  have h₂ := cfg.trampolinePpn_lt_lo
  omega

/-- The kernel reads and writes owned frames through its identity mapping. -/
theorem frame_mapped (h : MemInv cfg k) {f o : ℕ} (hf : f ∈ k.owned) (ho : o < 4096) :
    cfg.etext ≤ f * 4096 + o ∧ f * 4096 + o < phystop := by
  have h₁ := (h.own.mem_Ico hf).1
  have h₂ := (h.own.mem_Ico hf).2.trans_le k.mem.memoryAllocator.le
  have hl := cfg.layout
  have ha := cfg.aligned
  have hp : phystop < 2 ^ 56 := by decide
  have he : frameEnd * 4096 = phystop := by decide
  rw [h.end_eq] at h₂
  rw [pageSize_eq] at hl ha
  rw [Config.lo, ceilPhys, physAddrFromSizeT, pageSize_eq, Nat.mod_eq_of_lt (by omega)] at h₁
  omega

theorem taskFrames_le (k : Kernel) (i : Slot) : k.taskFrames i ≤ k.owned := by
  rw [k.owned_eq i]
  exact Multiset.le_add_left _ _

theorem rest_le (k : Kernel) (c : Slot) : k.rest c ≤ k.owned := by
  rw [k.owned_eq c]
  exact Multiset.le_add_right _ _

theorem frames_mem (hi : (k.tasks i).taskState ≠ .unInit) {f : ℕ}
    (hf : f ∈ (k.tasks i).frames k.mem.ram) : f ∈ k.owned := by
  rw [← Kernel.taskFrames_of_init hi] at hf
  exact Multiset.mem_of_le (taskFrames_le k i) hf

theorem cx_mem_frames (t : TaskControlBlock) (ram : ℕ → Frame) : t.cx ∈ t.frames ram := by
  rw [TaskControlBlock.frames, add_right_comm]
  exact Multiset.mem_add.mpr (.inr (Multiset.mem_singleton_self _))

theorem root_mem_frames (t : TaskControlBlock) (ram : ℕ → Frame) :
    t.pagetable.rootPpn ∈ t.frames ram := by
  rw [TaskControlBlock.frames, add_assoc]
  exact Multiset.mem_add.mpr (.inl Radix.root_mem_nodes)

theorem root_lt (h : MemInv cfg k) (hi : (k.tasks i).taskState ≠ .unInit) :
    (k.tasks i).pagetable.rootPpn < 2 ^ 44 := h.frame_lt (frames_mem hi (root_mem_frames _ _))

theorem cx_lt (h : MemInv cfg k) (hi : (k.tasks i).taskState ≠ .unInit) :
    (k.tasks i).cx < 2 ^ 44 := h.frame_lt (frames_mem hi (cx_mem_frames _ _))

theorem kernelRoot_lt (h : MemInv cfg k) : k.kernelPagetable.rootPpn < 2 ^ 44 := by
  refine h.frame_lt (Multiset.mem_of_le (rest_le k 0) ?_)
  exact Multiset.mem_of_le (k.kernelTable_le_rest 0) Radix.root_mem_nodes

/-- A frame of one task is no frame of the rest. -/
theorem not_mem_rest (h : MemInv cfg k) {f : ℕ} (hf : f ∈ k.taskFrames c) : f ∉ k.rest c :=
  fun hr => (k.owned_eq c ▸ h.own : Own _ _ _).not_mem_right hr hf

end MemInv

/-! ## Changing one task -/

/-- Between `k` and `k'` only the slot `c` changed its address space, and the frames of the others
were not written. -/
structure OnlyTask (cfg : Config) (k k' : Kernel) (c : Slot) : Prop where
  kernelPagetable : k'.kernelPagetable = k.kernelPagetable
  task : ∀ i, i ≠ c → (k.tasks i).SameSpace (k'.tasks i)
  frame : ∀ f ∈ k.rest c, k'.mem.ram f = k.mem.ram f
  text : k'.mem.ram cfg.trampolinePpn = k.mem.ram cfg.trampolinePpn
  end_eq : k'.mem.memoryAllocator.end_ = k.mem.memoryAllocator.end_

namespace OnlyTask

variable {cfg : Config} {k k' : Kernel} {c i : Slot}

theorem frames_agree (ho : OnlyTask cfg k k' c) (hic : i ≠ c)
    (hi : (k.tasks i).taskState ≠ .unInit) {f : ℕ} (hf : f ∈ (k.tasks i).frames k.mem.ram) :
    k'.mem.ram f = k.mem.ram f := by
  rw [← Kernel.taskFrames_of_init hi] at hf
  exact ho.frame f (Multiset.mem_of_le (k.taskFrames_le_rest hic) hf)

/-- The other tasks keep their address spaces. -/
theorem ok (ho : OnlyTask cfg k k' c) (h : MemInv cfg k) (hic : i ≠ c)
    (hi : (k'.tasks i).taskState ≠ .unInit) : (k'.tasks i).Ok cfg k'.mem.ram := by
  have hi' : (k.tasks i).taskState ≠ .unInit := fun he => hi ((ho.task i hic).unInit.mpr he)
  exact (ho.task i hic).ok ((h.task i hi').congr fun f hf => ho.frames_agree hic hi' hf)

/-- The other tasks keep their frames. -/
theorem taskFrames (ho : OnlyTask cfg k k' c) (h : MemInv cfg k) (hic : i ≠ c) :
    k'.taskFrames i = k.taskFrames i := by
  by_cases hi : (k.tasks i).taskState = .unInit
  · rw [Kernel.taskFrames_of_unInit hi, Kernel.taskFrames_of_unInit ((ho.task i hic).unInit.mpr hi)]
  · have hi' : (k'.tasks i).taskState ≠ .unInit := fun he => hi ((ho.task i hic).unInit.mp he)
    rw [Kernel.taskFrames_of_init hi, Kernel.taskFrames_of_init hi', (ho.task i hic).frames,
      (h.task i hi).frames_congr fun f hf => ho.frames_agree hic hi hf]

theorem kernel (ho : OnlyTask cfg k k' c) (h : MemInv cfg k) :
    KernelTable cfg k'.mem.ram k'.kernelPagetable.rootPpn := by
  rw [ho.kernelPagetable]
  exact h.kernel.congr fun f hf => ho.frame f (Multiset.mem_of_le (k.kernelTable_le_rest c) hf)

/-- The kernel and the other tasks keep their frames. -/
theorem rest (ho : OnlyTask cfg k k' c) (h : MemInv cfg k) : k'.rest c = k.rest c := by
  have hag : ∀ f ∈ k.kernelTableFrames, k'.mem.ram f = k.mem.ram f := fun f hf =>
    ho.frame f (Multiset.mem_of_le (k.kernelTable_le_rest c) hf)
  have h₁ : k'.kernelTableFrames = k.kernelTableFrames := by
    rw [Kernel.kernelTableFrames, ho.kernelPagetable]
    exact Radix.nodes_congr hag
  have h₂ : k'.kernelStackFrames = k.kernelStackFrames := by
    rw [Kernel.kernelStackFrames, ho.kernelPagetable]
    refine Finset.sum_congr rfl fun p _ => ?_
    rw [leaf, leaf, h.kernel.lookup_congr hag (kstackVpn_lt p)]
  have h₃ : ∑ i ∈ Finset.univ.erase c, k'.taskFrames i =
      ∑ i ∈ Finset.univ.erase c, k.taskFrames i :=
    Finset.sum_congr rfl fun i hi => ho.taskFrames h (Finset.ne_of_mem_erase hi)
  rw [Kernel.rest, Kernel.rest, h₁, h₂, h₃]

end OnlyTask

namespace MemInv

variable {cfg : Config} {k k' : Kernel} {c i : Slot}

/-- **The rule of a change to one task.** -/
theorem replace (h : MemInv cfg k) (ho : OnlyTask cfg k k' c)
    (hown : Own cfg.lo k'.mem (k.rest c + k'.taskFrames c))
    (hok : (k'.tasks c).taskState ≠ .unInit → (k'.tasks c).Ok cfg k'.mem.ram) : MemInv cfg k' where
  own := by rw [k'.owned_eq c, ho.rest h]; exact hown
  end_eq := ho.end_eq.trans h.end_eq
  kernel := ho.kernel h
  task i hi := by
    by_cases hic : i = c
    · subst hic
      exact hok hi
    · exact ho.ok h hic hi
  text := ho.text.trans h.text

section Write

variable (h : MemInv cfg k) (ho : OnlyTask cfg k k' c) (hsame : (k.tasks c).SameSpace (k'.tasks c))
  (htab : (k.tasks c).taskState ≠ .unInit →
    ∀ f ∈ tableFrames k.mem.ram (k.tasks c).pagetable.rootPpn, k'.mem.ram f = k.mem.ram f)

include h htab in
theorem space_write (hc : (k.tasks c).taskState ≠ .unInit) :
    Space k'.mem.ram (k.tasks c).pagetable.rootPpn
      (k.tasks c).cx cfg.trampolinePpn ((k.tasks c).baseSize / 4096)
      (tableFrames k.mem.ram (k.tasks c).pagetable.rootPpn)
      (leaves (lookup k.mem.ram (k.tasks c).pagetable.rootPpn) 0 ((k.tasks c).baseSize / 4096))
      (pagesOf k'.mem.ram (lookup k.mem.ram (k.tasks c).pagetable.rootPpn)) := by
  have hs := (h.task c hc).space
  exact Space.of_table (hs.table.congr (htab hc)) hs.bound hs.trampoline hs.trapframe hs.high

include h ho hsame htab

/-- A change that touches no table moves no frame. -/
theorem taskFrames_write (i : Slot) : k'.taskFrames i = k.taskFrames i := by
  by_cases hic : i = c
  · subst hic
    by_cases hi : (k.tasks i).taskState = .unInit
    · rw [Kernel.taskFrames_of_unInit hi, Kernel.taskFrames_of_unInit (hsame.unInit.mpr hi)]
    · have hi' : (k'.tasks i).taskState ≠ .unInit := fun he => hi (hsame.unInit.mp he)
      rw [Kernel.taskFrames_of_init hi, Kernel.taskFrames_of_init hi', hsame.frames,
        TaskControlBlock.frames_eq (space_write h htab hi)]
      rfl
  · exact ho.taskFrames h hic

/-- A change that touches no table, in the frames of one task. -/
theorem write (hfree : k'.mem.free = k.mem.free) : MemInv cfg k' := by
  refine h.replace ho ?_ fun hc' => hsame.ok ?_
  · rw [taskFrames_write h ho hsame htab, ← k.owned_eq c, Own, ho.end_eq, hfree]
    exact h.own
  · have hc : (k.tasks c).taskState ≠ .unInit := fun he => hc' (hsame.unInit.mpr he)
    have hok := h.task c hc
    refine .of_space (space_write h htab hc) hok.sizeAligned hok.cxAligned fun v hv p hp => ?_
    rw [pagesOf, Option.map_eq_some_iff] at hp
    obtain ⟨e, he, rfl⟩ := hp
    exact hok.user v hv e he

end Write

/-- A change that leaves the memory alone. -/
theorem of_same (h : MemInv cfg k) (hram : k'.mem.ram = k.mem.ram)
    (hfree : k'.mem.free = k.mem.free)
    (hend : k'.mem.memoryAllocator.end_ = k.mem.memoryAllocator.end_)
    (hk : k'.kernelPagetable = k.kernelPagetable)
    (ht : ∀ i, (k.tasks i).SameSpace (k'.tasks i)) : MemInv cfg k' :=
  h.write (c := k.current) ⟨hk, fun i _ => ht i, fun f _ => by rw [hram], by rw [hram], hend⟩
    (ht _) (fun _ f _ => by rw [hram]) hfree

/-! ## The trampoline under every table -/

theorem isLeaf_new {p : ℕ} (hp : p < 2 ^ 44) {f : Byte} (hr : (f &&& pteR != 0) = true) :
    IsLeaf (new p f) := by
  rw [IsLeaf, has_new hp, has_new hp, has_new hp]
  exact ⟨.inl hr, .inl hr⟩

theorem canonical_trapframe {off : ℕ} (h : off < 4096) :
    Canonical (BitVec.ofNat 64 trapframeVa + BitVec.ofNat 64 off) ∧
      (BitVec.ofNat 64 trapframeVa + BitVec.ofNat 64 off).toNat % 2 ^ 39 / 4096 = trapframeVpn := by
  have hv : trapframeVa = 2 ^ 64 - 8192 := by decide
  have hs : (BitVec.ofNat 64 trapframeVa + BitVec.ofNat 64 off).toNat = 2 ^ 64 - 8192 + off := by
    rw [BitVec.toNat_add, BitVec.toNat_ofNat, BitVec.toNat_ofNat, hv]
    omega
  refine ⟨canonical_of_ge (by omega), ?_⟩
  rw [hs, trapframeVpn]
  omega

/-- The supervisor fetches the trampoline where a table maps it. -/
theorem fetches_of_lookup {ram : ℕ → Frame} {root : ℕ}
    (hl : Radix.Interior pteFormat IsLink ram 2 root) (hroot : root < 2 ^ 44)
    (ht : lookup ram root trampolineVpn = some (new cfg.trampolinePpn (pteV ||| (pteR ||| pteX))))
    (htext : ram cfg.trampolinePpn = cfg.text) :
    fetches cfg.trampolineText ram (makeSatp root) = true := by
  have hc : Canonical (BitVec.ofNat 64 trampolineVa) := canonical_of_ge (by decide)
  have hv : (BitVec.ofNat 64 trampolineVa).toNat % 2 ^ 39 / 4096 = trampolineVpn := by decide
  have hp := cfg.trampolinePpn_lt
  have htr := translate_of_lookup hl hroot hc (by rw [hv]; exact ht) (isLeaf_new hp (by decide))
  rw [fetches, htr]
  simp only [has_new hp, ppn_new hp, Config.trampolineText, htext]
  decide

theorem kernelFetch (h : MemInv cfg k) {ram : ℕ → Frame}
    (hag : ∀ f ∈ k.kernelTableFrames, ram f = k.mem.ram f)
    (htext : ram cfg.trampolinePpn = k.mem.ram cfg.trampolinePpn) :
    fetches cfg.trampolineText ram (makeSatp k.kernelPagetable.rootPpn) = true :=
  fetches_of_lookup (h.kernel.congr hag).links h.kernelRoot_lt (h.kernel.congr hag).trampoline
    (htext.trans h.text)

/-- The trap page of a task is apart from its table. -/
theorem cx_not_mem_table (h : MemInv cfg k) (hi : (k.tasks i).taskState ≠ .unInit) :
    (k.tasks i).cx ∉ tableFrames k.mem.ram (k.tasks i).pagetable.rootPpn := fun hm => by
  have ho := h.own.mono (taskFrames_le k i)
  rw [Kernel.taskFrames_of_init hi, TaskControlBlock.frames, add_assoc] at ho
  exact ho.not_mem_right hm (Multiset.mem_add.mpr (.inl (Multiset.mem_singleton_self _)))

/-- The trampoline finds every task's trap context. -/
theorem trapMapped (h : MemInv cfg k) (hi : (k.tasks i).taskState ≠ .unInit) :
    TrapMapped cfg.trampolineText k.mem.ram (makeSatp (k.tasks i).pagetable.rootPpn)
      (k.tasks i).cx := by
  have hs := (h.task i hi).space
  have hcx : (k.tasks i).cx < 2 ^ 44 := h.cx_lt hi
  have hkeep : ∀ c, ∀ f ∈ tableFrames k.mem.ram (k.tasks i).pagetable.rootPpn,
      Function.update k.mem.ram (k.tasks i).cx c f = k.mem.ram f := fun c f hf =>
    Function.update_of_ne (fun he : f = (k.tasks i).cx => h.cx_not_mem_table hi (he ▸ hf)) _ _
  refine ⟨fun c => ?_, fun c off hoff => ?_⟩
  · have ht := hs.table.congr (hkeep c)
    refine fetches_of_lookup ht.links (h.root_lt hi) ?_ ?_
    · rw [ht.lookup _ (by decide)]
      exact hs.trampoline
    · have hne := h.frame_ne (frames_mem hi (cx_mem_frames _ _))
      rw [Function.update_of_ne hne.symm]
      exact h.text
  · have ht := hs.table.congr (hkeep c)
    obtain ⟨hc, hv⟩ := canonical_trapframe hoff
    refine ⟨new (k.tasks i).cx (pteV ||| (pteR ||| pteW)), ?_, ?_, ?_, ?_⟩
    · have := translate_of_lookup ht.links (h.root_lt hi) hc
        (by rw [hv, ht.lookup _ (by decide)]; exact hs.trapframe) (isLeaf_new hcx (by decide))
      rwa [ppn_new hcx] at this
    · rw [has_new hcx]
      decide
    · rw [has_new hcx]
      decide
    · rw [has_new hcx]
      decide

end MemInv

end RiscvOs
