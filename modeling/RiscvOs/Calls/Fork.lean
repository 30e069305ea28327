import RiscvOs.Inv.Memory
import RiscvOs.Kernel.Shape

/-!
# What `__sys_fork` does

* `allocProc_spec`: a trap page and a table with the two high pages, all in new frames.
* `forkMem_spec`: the parent's pages and trap context in new frames.
* **`sysFork_spec`**: the state after a fork, `Forked`; or no slot was free and nothing happened.
-/

set_option autoImplicit false

namespace RiscvOs

open PageTableEntry

variable {cfg : Config} {k k' : Kernel} {p : Slot}

/-! ## New frames and the owned ones -/

namespace MemInv

variable {m : Mem} {new : Multiset ℕ}

/-- New frames are in the allocator's range, so the trampoline's page is none of them. -/
theorem trampoline_not_mem (h : MemInv cfg k) (hg : Grows k.mem m 0 new) :
    cfg.trampolinePpn ∉ new := fun hm => by
  have hfree : cfg.trampolinePpn ∈ k.mem.free := Own.new_free hg hm
  have hI : cfg.trampolinePpn ∈ Finset.Ico cfg.lo k.mem.memoryAllocator.end_ :=
    Multiset.mem_of_le h.own (Multiset.mem_add.mpr (.inr hfree))
  rw [Finset.mem_Ico] at hI
  have := cfg.trampolinePpn_lt_lo
  omega

/-- Owned frames are not written while others are taken. -/
theorem owned_agree (h : MemInv cfg k) (hg : Grows k.mem m 0 new) {f : ℕ} (hf : f ∈ k.owned) :
    m.ram f = k.mem.ram f :=
  hg.frame f (Multiset.notMem_zero f) fun hn => h.apart.new_not_mem hg hn hf

theorem text_agree (h : MemInv cfg k) (hg : Grows k.mem m 0 new) :
    m.ram cfg.trampolinePpn = k.mem.ram cfg.trampolinePpn :=
  hg.frame _ (Multiset.notMem_zero _) (h.trampoline_not_mem hg)

end MemInv

/-! ## The child's memory -/

section ForkMem

variable {m : Mem} {fa child : TaskControlBlock} {fN fD N : Multiset ℕ}
  {V : ℕ → Option (Byte × Frame)} {ftramp tramp : ℕ}

/-- The trap context of a forked child. -/
def forkedTrap (parent : Frame) (kstack : ℕ) : Frame :=
  Function.update (Function.update parent (cxReg 10) 0) cxKernelSp (BitVec.ofNat 64 kstack)

theorem forkedTrap_of_ne (parent : Frame) (kstack : ℕ) {j : Fin 512} (ha0 : j ≠ cxReg 10)
    (hsp : j ≠ cxKernelSp) : forkedTrap parent kstack j = parent j := by
  rw [forkedTrap, Function.update_of_ne hsp, Function.update_of_ne ha0]

/-- **The memory of the child.** Its table is `N`, its trap page the frame `cx` of `child`. -/
theorem forkMem_spec
    (hf : Space m.ram fa.pagetable.rootPpn fa.cx ftramp (fa.baseSize / 4096) fN fD V)
    (hsz : fa.baseSize % 4096 = 0)
    (hc : Space m.ram child.pagetable.rootPpn child.cx tramp 0 N 0 fun _ => none)
    (ha : Apart m (fN + {fa.cx} + fD + ({child.cx} + N))) :
    Outcome (forkMem m fa child)
      (fun m' => ∃ nt nd, Grows m m' ({child.cx} + N) (nd + nt) ∧
        (nd + nt).card ≤ 3 * (fa.baseSize / 4096) ∧
        Space m'.ram child.pagetable.rootPpn child.cx tramp (fa.baseSize / 4096) (N + nt) nd V ∧
        m'.ram child.cx = forkedTrap (m.ram fa.cx) child.kstack)
      (fun e => e = .panic "memory is full" ∧ m.free.card < 3 * (fa.baseSize / 4096)) := by
  have ha' : Apart m (fN + fD + N) := ha.mono (by
    have : fN + {fa.cx} + fD + ({child.cx} + N) = fN + fD + N + ({fa.cx} + {child.cx}) := by abel
    rw [this]
    exact Multiset.le_add_right _ _)
  rw [forkMem]
  refine Outcome.bind (uvmCopy_spec hf hsz hc ha') ?_
  rintro m₁ ⟨nt, nd, hg, hs, hcard⟩
  rw [zero_add] at hs
  have hnd := (Multiset.nodup_add.mp ha.nodup_left).2.2
  -- neither trap page is touched by the copy
  have hkeep : ∀ f, f ∈ fN + {fa.cx} + fD + ({child.cx} + N) → f ∉ N → m₁.ram f = m.ram f :=
    fun f hf hN => hg.frame f hN fun hnew => ha.new_not_mem hg hnew hf
  have hfacx : m₁.ram fa.cx = m.ram fa.cx := by
    have hmem : fa.cx ∈ fN + {fa.cx} + fD :=
      Multiset.mem_add.mpr (.inl (Multiset.mem_add.mpr (.inr (Multiset.mem_singleton_self _))))
    exact hkeep _ (Multiset.mem_add.mpr (.inl hmem)) fun hN =>
      Multiset.disjoint_left.mp hnd hmem (Multiset.mem_add.mpr (.inr hN))
  have hcx : child.cx ∉ N + nt + nd := by
    have hcm : child.cx ∈ ({child.cx} : Multiset ℕ) := Multiset.mem_singleton_self _
    have hcN : child.cx ∉ N := Multiset.disjoint_left.mp
      (Multiset.nodup_add.mp (Multiset.nodup_add.mp ha.nodup_left).2.1).2.2 hcm
    have hcnew : child.cx ∉ nd + nt := fun hnew => ha.new_not_mem hg hnew
      (Multiset.mem_add.mpr (.inr (Multiset.mem_add.mpr (.inl hcm))))
    simp only [Multiset.mem_add, not_or] at hcnew ⊢
    exact ⟨⟨hcN, hcnew.2⟩, hcnew.1⟩
  set m₂ := m₁.storeFrame child.cx (forkedTrap (m.ram fa.cx) child.kstack) with hm₂
  have heq : ((m₁.storeFrame child.cx (m₁.ram fa.cx)).store child.cx (cxReg 10) 0).store child.cx
      cxKernelSp (BitVec.ofNat 64 child.kstack) = m₂ := by
    rw [store_storeFrame, store_storeFrame, hfacx]
    rfl
  have hne : ∀ f, f ∈ N + nt + nd → m₂.ram f = m₁.ram f := fun f hf =>
    Mem.storeFrame_of_ne (fun he : f = child.cx => hcx (he ▸ hf)) _
  simp only [heq, Outcome.ok_iff]
  refine ⟨nt, nd, ?_, hcard, ?_, Mem.storeFrame_self _ _⟩
  · refine ⟨hg.free, hg.recycled, fun f hN hnew => ?_, hg.end_eq, hg.console⟩
    rw [Multiset.mem_add, not_or, Multiset.mem_singleton] at hN
    exact (Mem.storeFrame_of_ne hN.1 _).trans (hg.frame f hN.2 hnew)
  · exact hs.congr (fun f hf => hne f (Multiset.mem_add.mpr (.inl hf)))
      fun f hf => hne f (Multiset.mem_add.mpr (.inr hf))

end ForkMem

/-! ## `alloc_proc` -/

theorem procTrap_spec (k : Kernel) (p : Slot) :
    Outcome (procTrap k p)
      (fun k' => ∃ f m, Grows k.mem m 0 {f} ∧ k' = { k with mem := m }.setTask p
        { k.tasks p with trapCxPpn := physAddrFromPhysPageNum f, taskContext := fun _ => 0 })
      (fun e => e = .panic "memory is full" ∧ k.mem.free.card = 0) := by
  rw [procTrap]
  refine Outcome.bind (kalloc_spec k.mem) ?_
  rintro ⟨f, m⟩ ⟨hg, -⟩
  exact ⟨f, m, hg, rfl⟩

theorem procPagetable_spec (ha : Apart k.mem 0) (hcx : (k.tasks p).trapCxPpn < 2 ^ 56) :
    Outcome (procPagetable cfg k p)
      (fun k' => ∃ root nt m, Grows k.mem m 0 nt ∧ nt.card ≤ 5 ∧
        Space m.ram root (k.tasks p).cx cfg.trampolinePpn 0 nt 0 (fun _ => none) ∧
        k' = { k with mem := m }.setTask p { k.tasks p with pagetable := ⟨root⟩ })
      (fun e => e = .panic "memory is full" ∧ k.mem.free.card < 5) := by
  rw [procPagetable]
  refine Outcome.bind (procTable_spec ha hcx) ?_
  rintro ⟨⟨root⟩, m⟩ ⟨nt, hg, hc, hs⟩
  exact ⟨root, nt, m, hg, hc, hs, rfl⟩

/-- **`alloc_proc`**: the first free slot gets a trap page and a table. -/
theorem allocProc_spec (ha : Apart k.mem 0) (hp : freeSlot k = some p) :
    Outcome (allocProc cfg k)
      (fun r => ∃ f root nt m, f < 2 ^ 44 ∧ r = (some p, withAllocated k p f root m) ∧
        Grows k.mem m 0 ({f} + nt) ∧ nt.card ≤ 5 ∧
        Space m.ram root f cfg.trampolinePpn 0 nt 0 fun _ => none)
      (fun e => e = .panic "memory is full" ∧ k.mem.free.card < 6) := by
  rw [allocProc, hp]
  refine Outcome.bind ((procTrap_spec _ p).mono (fun _ h => h) fun e he => ⟨he.1, ?_⟩) ?_
  · have : k.mem.free.card = 0 := he.2
    omega
  rintro k₁ ⟨f, m, hg, rfl⟩
  have hff : f ∈ ({f} : Multiset ℕ) := Multiset.mem_singleton_self f
  have hf : f < 2 ^ 44 := ha.new_lt hg hff
  have hcard : k.mem.free.card = 1 + m.free.card := hg.card
  have ha₁ : Apart m 0 := (ha.grows hg).mono (Multiset.zero_le _)
  have hpa : physAddrFromPhysPageNum f = f * 4096 := physAddrFromPhysPageNum_eq hf
  refine Outcome.bind ((procPagetable_spec ha₁ ?_).mono (fun _ h => h) fun e he => ⟨he.1, ?_⟩) ?_
  · rw [setTask_self]
    change physAddrFromPhysPageNum f < _
    omega
  · have : m.free.card < 5 := he.2
    omega
  rintro k₂ ⟨root, nt, m', hg', hnt, hs, rfl⟩
  have hcx : TaskControlBlock.cx { k.tasks p with trapCxPpn := physAddrFromPhysPageNum f } = f := by
    rw [TaskControlBlock.cx, pageSize_eq]
    exact physAddrFromPhysPageNum_div hf
  refine ⟨f, root, nt, m', hf, ?_, ?_, hnt, ?_⟩
  · simp only [withAllocated, allocated, Kernel.setTask, Function.update_self,
      Function.update_idem]
  · exact hg.trans (hg'.mono (Multiset.zero_le _))
  · rw [setTask_self] at hs
    exact hcx ▸ hs

/-! ## `__sys_fork` -/

/-- The child, with trap page `f` and table `root`, in the memory `m`. -/
structure Forked (cfg : Config) (k : Kernel) (p : Slot) (f root : ℕ) (m : Mem) : Prop where
  slot : freeSlot k = some p
  lt : f < 2 ^ 44
  grows : Grows k.mem m 0 ((forkedTask cfg k p f root).frames m.ram)
  ok : (forkedTask cfg k p f root).Ok cfg m.ram
  pages : ∀ v < trapframeVpn, pagesOf m.ram (lookup m.ram root) v =
    pagesOf k.mem.ram (lookup k.mem.ram k.cur.pagetable.rootPpn) v
  trap : m.ram f = forkedTrap (k.mem.ram k.cur.cx) (k.tasks p).kstack
  card : ((forkedTask cfg k p f root).frames m.ram).card ≤ 6 + 3 * (k.cur.baseSize / 4096)

theorem forkedTask_cx (cfg : Config) (k : Kernel) (p : Slot) {f : ℕ} (root : ℕ) (h : f < 2 ^ 44) :
    (forkedTask cfg k p f root).cx = f := by
  rw [TaskControlBlock.cx, pageSize_eq]
  exact physAddrFromPhysPageNum_div h

/-- The memory of a fork. -/
theorem forked_of_mem (h : MemInv cfg k) (hcur : k.cur.taskState ≠ .unInit)
    (hp : freeSlot k = some p) {f root : ℕ} {nt nt' nd : Multiset ℕ} {m₁ m : Mem} (hf : f < 2 ^ 44)
    (hg₁ : Grows k.mem m₁ 0 ({f} + nt)) (hg : Grows m₁ m ({f} + nt) (nd + nt'))
    (hs : Space m.ram root f cfg.trampolinePpn (k.cur.baseSize / 4096) (nt + nt') nd
      (pagesOf k.mem.ram (lookup k.mem.ram k.cur.pagetable.rootPpn)))
    (htrap : m.ram f = forkedTrap (m₁.ram k.cur.cx) (k.tasks p).kstack) (hnt : nt.card ≤ 5)
    (hcard : (nd + nt').card ≤ 3 * (k.cur.baseSize / 4096)) :
    Forked cfg k p f root m := by
  have hcx := forkedTask_cx cfg k p root hf
  have hok := h.task _ hcur
  have hs' : Space m.ram (forkedTask cfg k p f root).pagetable.rootPpn
      (forkedTask cfg k p f root).cx cfg.trampolinePpn
      ((forkedTask cfg k p f root).baseSize / 4096) (nt + nt') nd
      (pagesOf k.mem.ram (lookup k.mem.ram k.cur.pagetable.rootPpn)) := by
    rw [hcx]
    exact hs
  refine ⟨hp, hf, ?_, .of_space hs' hok.sizeAligned ?_ ?_, hs.pages, ?_, ?_⟩
  · rw [TaskControlBlock.frames_eq hs', hcx]
    have := hg₁.trans (by rwa [zero_add])
    have hsum : {f} + nt + (nd + nt') = nt + nt' + {f} + nd := by abel
    rwa [hsum] at this
  · rw [show (forkedTask cfg k p f root).trapCxPpn = f * 4096 from physAddrFromPhysPageNum_eq hf]
    exact Nat.mul_mod_left f 4096
  · intro v hv q hq
    rw [pagesOf, Option.map_eq_some_iff] at hq
    obtain ⟨e, he, rfl⟩ := hq
    exact hok.user v hv e he
  · have hkeep : m₁.ram k.cur.cx = k.mem.ram k.cur.cx :=
      h.owned_agree hg₁ (MemInv.frames_mem hcur (MemInv.cx_mem_frames _ _))
    rw [htrap, hkeep]
  · rw [Multiset.card_add] at hcard
    rw [TaskControlBlock.frames_eq hs', Multiset.card_add, Multiset.card_add, Multiset.card_add,
      Multiset.card_singleton]
    omega

/-- **`__sys_fork`.** -/
theorem sysFork_spec (h : MemInv cfg k) (hcur : k.cur.taskState ≠ .unInit) :
    Outcome (sysFork cfg k)
      (fun r => (freeSlot k = none ∧ r = (-1, k.printf "child_proc failed!" [])) ∨
        ∃ p f root m, Forked cfg k p f root m ∧
          r = (BitVec.ofNat 32 k.nextPid, afterFork cfg k p f root m))
      (fun e => e = .panic "memory is full" ∧
        k.mem.free.card < 6 + 3 * (k.cur.baseSize / 4096)) := by
  rw [sysFork]
  cases hp : freeSlot k with
  | none =>
    rw [allocProc_full hp]
    exact .inl ⟨rfl, rfl⟩
  | some p =>
    have hne : k.current ≠ p := fun he => hcur (by
      rw [Kernel.cur, he]
      exact unInit_of_freeSlot hp)
    refine Outcome.bind ((allocProc_spec (h.apart.mono (Multiset.zero_le _)) hp).mono
      (fun _ h => h) fun e he => ⟨he.1, by have := he.2; omega⟩) ?_
    rintro _ ⟨f, root, nt, m₁, hf, rfl, hg₁, hnt, hs₁⟩
    have hcur₁ : (withAllocated k p f root m₁).cur = k.cur := Function.update_of_ne hne _ _
    have htask₁ : (withAllocated k p f root m₁).tasks p =
        allocated (k.tasks p) (BitVec.ofNat 32 k.nextPid) f root := Function.update_self _ _ _
    have hcx : (allocated (k.tasks p) (BitVec.ofNat 32 k.nextPid) f root).cx = f := by
      rw [TaskControlBlock.cx, pageSize_eq]
      exact physAddrFromPhysPageNum_div hf
    simp only [hcur₁, htask₁]
    have hok := h.task _ hcur
    have hkeep : ∀ x ∈ k.cur.frames k.mem.ram, m₁.ram x = k.mem.ram x := fun x hx =>
      h.owned_agree hg₁ (MemInv.frames_mem hcur hx)
    have hle : k.cur.frames k.mem.ram ≤ k.owned := by
      have := MemInv.taskFrames_le k k.current
      rwa [Kernel.taskFrames_of_init hcur] at this
    have ha₁ : Apart m₁ (k.cur.frames k.mem.ram + ({f} + nt)) :=
      (h.apart.grows hg₁).mono (add_le_add_left hle _)
    have hcard := hg₁.card
    refine Outcome.bind ((forkMem_spec (hok.congr_space hkeep) hok.sizeAligned
      (by rw [hcx]; exact hs₁) (by rw [hcx]; exact ha₁)).mono (fun _ h => h)
      fun e he => ⟨he.1, ?_⟩) ?_
    · have : m₁.free.card < 3 * (k.cur.baseSize / 4096) := he.2
      rw [Multiset.card_add, Multiset.card_singleton] at hcard
      omega
    rintro m ⟨nt', nd, hg, hcard', hs, htrap⟩
    rw [hcx] at hg hs htrap
    refine .inr ⟨p, f, root, m, forked_of_mem h hcur hp hf hg₁ hg hs htrap hnt hcard', ?_⟩
    simp only [afterFork, forkedTask, withAllocated, allocated, Kernel.setTask, Kernel.printf,
      Kernel.cur, Function.update_self, Function.update_idem]

/-! ## The state after a fork -/

section After

variable {f root : ℕ} {m : Mem} (h : MemInv cfg k) (hf : Forked cfg k p f root m)

include hf

theorem Forked.ne (hcur : k.cur.taskState ≠ .unInit) : k.current ≠ p := fun he => hcur (by
  rw [Kernel.cur, he]
  exact unInit_of_freeSlot hf.slot)

include h

/-- Only the child's slot has changed. -/
theorem Forked.onlyTask : OnlyTask cfg k (afterFork cfg k p f root m) p where
  kernelPagetable := rfl
  task i hi := by
    rw [show (afterFork cfg k p f root m).tasks i = k.tasks i from Function.update_of_ne hi _ _]
    exact .refl _
  frame x hx := h.owned_agree hf.grows (Multiset.mem_of_le (MemInv.rest_le k p) hx)
  text := (h.text_agree hf.grows : m.ram cfg.trampolinePpn = _)
  end_eq := hf.grows.end_eq

/-- **The memory invariant after a fork.** -/
theorem Forked.memInv : MemInv cfg (afterFork cfg k p f root m) := by
  have hi : ((afterFork cfg k p f root m).tasks p).taskState ≠ .unInit := by
    rw [afterFork_self]
    exact nofun
  refine h.replace (hf.onlyTask h) ?_ fun _ => ?_
  · rw [Kernel.taskFrames_of_init hi, afterFork_self]
    have ho := h.own.grows hf.grows
    rw [k.owned_eq p, Kernel.taskFrames_of_unInit (unInit_of_freeSlot hf.slot), add_zero] at ho
    exact ho
  · rw [afterFork_self]
    exact hf.ok

end After

end RiscvOs
