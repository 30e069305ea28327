import RiscvOs.Inv.Walks
import RiscvOs.Kernel.Steps

/-!
# Building a table

`kvm_make`, `proc_pagetable`, `load_segment` and `uvm_copy` are made of two steps: a frame is taken
from the allocator and filled, or a page is mapped.

* `Builds`: such steps on one table; the operations are of this form, with any arguments.
* **`Builds.extends`**: no entry that is valid is changed, and no frame of the table is dropped.
* `Takes`, **`Builds.takes`**: no frame is given back, and an unused one is taken only when no
  recycled one is left.
-/

set_option autoImplicit false

namespace RiscvOs

open PageTableEntry

/-- Frames are taken and filled, pages are mapped. -/
inductive Builds (pt : PageTable) (m : Mem) : Mem → Prop where
  | refl : Builds pt m m
  | alloc {m₁ m₂ : Mem} {f : ℕ} (h : Builds pt m m₁) (hk : kalloc m₁ = .ok (f, m₂)) :
    Builds pt m m₂
  | fill {m₁ m₂ : Mem} {f : ℕ} (h : Builds pt m m₁) (hk : kalloc m₁ = .ok (f, m₂)) (c : Frame) :
    Builds pt m (m₂.storeFrame f c)
  | map {m₁ m₂ : Mem} {v p : ℕ} {fl : Byte} (h : Builds pt m m₁)
    (hm : pt.mapPerPage m₁ v p fl = .ok m₂) : Builds pt m m₂

/-- Frames are taken, recycled ones first. -/
structure Takes (m m' : Mem) : Prop where
  recycled : m'.recycled ≤ m.recycled
  fresh : m'.memoryAllocator.current = m.memoryAllocator.current ∨ m'.recycled = 0

namespace Takes

theorem refl (m : Mem) : Takes m m := ⟨le_rfl, .inl rfl⟩

theorem trans {m m₁ m' : Mem} (h : Takes m m₁) (h' : Takes m₁ m') : Takes m m' := by
  refine ⟨h'.recycled.trans h.recycled, ?_⟩
  obtain hc | hz := h.fresh
  · rw [← hc]
    exact h'.fresh
  · exact .inr (Multiset.le_zero.mp (hz ▸ h'.recycled))

theorem congr {m m' m₁ m₁' : Mem} (h : Takes m m') (hm : m.memoryAllocator = m₁.memoryAllocator)
    (hm' : m'.memoryAllocator = m₁'.memoryAllocator) : Takes m₁ m₁' := by
  obtain ⟨hr, hf⟩ := h
  unfold Mem.recycled at hr hf
  rw [hm, hm'] at hr hf
  exact ⟨hr, hf⟩

end Takes

namespace Builds

variable {pt : PageTable} {m m₁ m' : Mem} {v p va pa size : ℕ} {fl : Byte}

/-! ## The operations -/

theorem mapLoop {more : ℕ} (h : Builds pt m m₁) (hr : pt.mapLoop fl more v p m₁ = .ok m') :
    Builds pt m m' := by
  induction more generalizing m₁ v p with
  | zero => exact h.map hr
  | succ more ih =>
    rw [PageTable.mapLoop] at hr
    obtain ⟨m₂, h₂, hr⟩ := exists_of_bind_ok hr
    exact ih (h.map h₂) hr

/-- `PageTable_map`. -/
theorem mapRange (h : Builds pt m m₁) (hr : pt.map m₁ va pa size fl = .ok m') :
    Builds pt m m' := by
  rw [PageTable.map] at hr
  split_ifs at hr
  exact h.mapLoop hr

theorem loadPage {im : Image} {offset : ℕ} (h : Builds pt m m₁)
    (hr : RiscvOs.loadPage im pt fl offset va m₁ = .ok m') : Builds pt m m' := by
  obtain ⟨⟨f, m₂⟩, h₂, hr⟩ := exists_of_bind_ok hr
  obtain ⟨-, -, hr⟩ := exists_of_bind_ok hr
  exact (h.fill h₂ _).mapRange hr

theorem loadPages {im : Image} {n offset : ℕ} (h : Builds pt m m₁)
    (hr : RiscvOs.loadPages im pt fl n offset va m₁ = .ok m') : Builds pt m m' := by
  induction n generalizing offset va m₁ with
  | zero =>
    obtain rfl := Except.ok.inj hr
    exact h
  | succ n ih =>
    obtain ⟨m₂, h₂, hr⟩ := exists_of_bind_ok hr
    exact ih (h.loadPage h₂) hr

theorem loadPhdr {im : Image} {s s' : ℕ × Mem} {i : ℕ} (h : Builds pt m s.2)
    (hr : RiscvOs.loadPhdr im pt s i = .ok s') : Builds pt m s'.2 := by
  obtain ⟨-, -, hr⟩ := exists_of_bind_ok hr
  simp only at hr
  split_ifs at hr
  · obtain ⟨m₂, h₂, hr⟩ := exists_of_bind_ok hr
    obtain rfl := Except.ok.inj hr
    exact h.loadPages h₂
  · obtain rfl := Except.ok.inj hr
    exact h

theorem loadPhdrs {im : Image} {l : List ℕ} {s s' : ℕ × Mem} (h : Builds pt m s.2)
    (hr : l.foldlM (RiscvOs.loadPhdr im pt) s = .ok s') : Builds pt m s'.2 := by
  induction l generalizing s with
  | nil =>
    obtain rfl := Except.ok.inj hr
    exact h
  | cons i l ih =>
    rw [List.foldlM_cons] at hr
    obtain ⟨s₁, h₁, hr⟩ := exists_of_bind_ok hr
    exact ih (h.loadPhdr h₁) hr

/-- `load_segment`. -/
theorem loadSegment {im : Image} {ustack ustack' : ℕ} (h : Builds pt m m₁)
    (hr : RiscvOs.loadSegment im pt ustack m₁ = .ok (ustack', m')) : Builds pt m m' := by
  obtain ⟨⟨u, m₂⟩, h₂, hr⟩ := exists_of_bind_ok hr
  obtain ⟨⟨f, m₃⟩, h₃, hr⟩ := exists_of_bind_ok hr
  obtain ⟨m₄, h₄, hr⟩ := exists_of_bind_ok hr
  obtain ⟨-, rfl⟩ := Prod.mk.inj (Except.ok.inj hr)
  exact ((loadPhdrs (s := (ustack, m₁)) h h₂).alloc h₃).mapRange h₄

/-- `uvm_copy`, on the table of the child. -/
theorem uvmCopyFrom {father : PageTable} {n : ℕ} (h : Builds pt m m₁)
    (hr : RiscvOs.uvmCopyFrom father pt v n m₁ = .ok m') : Builds pt m m' := by
  induction n generalizing v m₁ with
  | zero =>
    obtain rfl := Except.ok.inj hr
    exact h
  | succ n ih =>
    obtain ⟨m₂, h₂, hr⟩ := exists_of_bind_ok hr
    refine ih ?_ hr
    rw [uvmCopyPage] at h₂
    split at h₂
    · obtain rfl := Except.ok.inj h₂
      exact h
    · obtain ⟨⟨f, m₃⟩, h₃, h₂⟩ := exists_of_bind_ok h₂
      exact (h.fill h₃ _).mapRange h₂

/-- The table of a task, from its root on. -/
theorem procTable {cfg : Config} {trapCx : ℕ}
    (hr : RiscvOs.procTable cfg m trapCx = .ok (pt, m')) :
    ∃ f m₁, kalloc m = .ok (f, m₁) ∧ pt = ⟨f⟩ ∧ Builds pt m₁ m' := by
  obtain ⟨⟨f, m₁⟩, h₁, hr⟩ := exists_of_bind_ok hr
  obtain ⟨m₂, h₂, hr⟩ := exists_of_bind_ok hr
  obtain ⟨m₃, h₃, hr⟩ := exists_of_bind_ok hr
  obtain ⟨rfl, rfl⟩ := Prod.mk.inj (Except.ok.inj hr)
  exact ⟨f, m₁, h₁, rfl, (Builds.refl.mapRange h₂).mapRange h₃⟩

theorem kvmMakeTable {cfg : Config} (h : Builds pt m m₁)
    (hr : RiscvOs.kvmMakeTable cfg pt m₁ = .ok m') : Builds pt m m' := by
  obtain ⟨m₂, h₂, hr⟩ := exists_of_bind_ok hr
  obtain ⟨m₃, h₃, hr⟩ := exists_of_bind_ok hr
  exact ((h.mapRange h₂).mapRange h₃).mapRange hr

theorem procMapstacks {l : List Slot} {k k' : Kernel} (h : Builds k.kernelPagetable m k.mem)
    (hr : l.foldlM procMapstack k = .ok k') : Builds k.kernelPagetable m k'.mem := by
  induction l generalizing k with
  | nil =>
    obtain rfl := Except.ok.inj hr
    exact h
  | cons i l ih =>
    rw [List.foldlM_cons] at hr
    obtain ⟨k₁, h₁, hr⟩ := exists_of_bind_ok hr
    obtain ⟨⟨f, m₁⟩, h₂, h₁⟩ := exists_of_bind_ok h₁
    simp only at h₁
    split_ifs at h₁
    obtain ⟨m₃, h₃, h₁⟩ := exists_of_bind_ok h₁
    obtain rfl := Except.ok.inj h₁
    exact ih (k := { k with mem := m₃ }.setTask i _) ((h.alloc h₂).mapRange h₃) hr

/-! ## How frames are taken -/

theorem kalloc_takes {f : ℕ} (hk : kalloc m = .ok (f, m')) : Takes m m' := by
  refine ⟨((kalloc_spec m).of_ok hk).1.recycled, ?_⟩
  rw [kalloc, stackFrameAllocatorAlloc] at hk
  split at hk
  · obtain ⟨-, rfl⟩ := Prod.mk.inj (Except.ok.inj hk)
    exact .inl rfl
  · rename_i hnil
    split_ifs at hk
    obtain ⟨-, rfl⟩ := Prod.mk.inj (Except.ok.inj hk)
    exact .inr ((Multiset.coe_eq_zero _).mpr hnil)

theorem findPteCreateFrom_takes {i : Fin 512} {is : List (Fin 512)} {n : ℕ} {q : PtePtr}
    (hr : findPteCreateFrom i is n m = .ok (q, m')) : Takes m m' := by
  induction is generalizing i n m with
  | nil =>
    obtain ⟨-, rfl⟩ := Prod.mk.inj (Except.ok.inj hr)
    exact .refl m
  | cons j js ih =>
    rw [findPteCreateFrom] at hr
    split_ifs at hr
    · exact ih hr
    · obtain ⟨⟨f, m₁⟩, h₁, hr⟩ := exists_of_bind_ok hr
      have hrest := ih hr
      exact (kalloc_takes h₁).trans ⟨hrest.recycled, hrest.fresh⟩

theorem takes (h : Builds pt m m') : Takes m m' := by
  induction h with
  | refl => exact .refl m
  | alloc _ hk ih => exact ih.trans (kalloc_takes hk)
  | fill _ hk _ ih =>
    have ht := kalloc_takes hk
    exact ih.trans ⟨ht.recycled, ht.fresh⟩
  | map _ hm ih =>
    rw [PageTable.mapPerPage] at hm
    obtain ⟨⟨q, m₃⟩, h₃, hm⟩ := exists_of_bind_ok hm
    simp only at hm
    split_ifs at hm
    obtain rfl := Except.ok.inj hm
    have ht := findPteCreateFrom_takes h₃
    exact ih.trans ⟨ht.recycled, ht.fresh⟩

end Builds

theorem procTable_takes {cfg : Config} {m m' : Mem} {pt : PageTable} {trapCx : ℕ}
    (hr : procTable cfg m trapCx = .ok (pt, m')) : Takes m m' := by
  obtain ⟨f, m₁, hk, -, hb⟩ := Builds.procTable hr
  exact (Builds.kalloc_takes hk).trans hb.takes

/-! ## The tables of `__sys_fork` and `__sys_exec` -/

theorem forkMem_trace {m m' : Mem} {fa child : TaskControlBlock}
    (hr : forkMem m fa child = .ok m') :
    ∃ m₁, uvmCopy m fa.pagetable child.pagetable fa.baseSize = .ok m₁ ∧
      m'.memoryAllocator = m₁.memoryAllocator ∧ ∀ f, f ≠ child.cx → m'.ram f = m₁.ram f := by
  obtain ⟨m₁, hc, hr⟩ := exists_of_bind_ok hr
  obtain rfl := Except.ok.inj hr
  refine ⟨m₁, hc, rfl, fun f hf => ?_⟩
  rw [Mem.store_of_ne hf, Mem.store_of_ne hf, Mem.storeFrame_of_ne hf]

/-- What `__sys_fork` runs through when there is a free slot. -/
theorem sysFork_trace {cfg : Config} {k k' : Kernel} {pid : BitVec 32} {p : Slot}
    (hp : freeSlot k = some p) (hr : sysFork cfg k = .ok (pid, k')) :
    ∃ cx m₁ trapCx m₂ father sz m, kalloc k.mem = .ok (cx, m₁) ∧
      procTable cfg m₁ trapCx = .ok ((k'.tasks p).pagetable, m₂) ∧
      uvmCopy m₂ father (k'.tasks p).pagetable sz = .ok m ∧
      k'.mem.memoryAllocator = m.memoryAllocator ∧
      ∀ f, f ≠ (k'.tasks p).cx → k'.mem.ram f = m.ram f := by
  obtain ⟨⟨q, k₁⟩, h₁, hr⟩ := exists_of_bind_ok hr
  rw [allocProc, hp] at h₁
  obtain ⟨k₂, h₂, h₁⟩ := exists_of_bind_ok h₁
  obtain ⟨k₃, h₃, h₁⟩ := exists_of_bind_ok h₁
  obtain ⟨rfl, rfl⟩ := Prod.mk.inj (Except.ok.inj h₁)
  obtain ⟨⟨cx, m₁⟩, hk, h₂⟩ := exists_of_bind_ok h₂
  obtain rfl := Except.ok.inj h₂
  obtain ⟨⟨pt, m₂⟩, ht, h₃⟩ := exists_of_bind_ok h₃
  obtain rfl := Except.ok.inj h₃
  obtain ⟨m', hm, hr⟩ := exists_of_bind_ok hr
  obtain ⟨-, rfl⟩ := Prod.mk.inj (Except.ok.inj hr)
  obtain ⟨m, hc, halloc, hram⟩ := forkMem_trace hm
  simp only [Kernel.setTask, Function.update_self, Function.update_idem] at ht hc hram
  simp only [Kernel.printf, Kernel.setTask, Function.update_self]
  exact ⟨cx, m₁, _, m₂, _, _, m, hk, ht, hc, halloc, hram⟩

/-- What `__sys_exec` runs through up to the freeing of the old memory. -/
theorem execLoad_trace {cfg : Config} {env : Env cfg} {name : ℕ} {k k' : Kernel}
    (hr : execLoad cfg env name k = .ok k') :
    ∃ m₀ trapCx m₁ im u u' m, m₀.memoryAllocator = k.mem.memoryAllocator ∧
      procTable cfg m₀ trapCx = .ok ((k'.tasks k.current).pagetable, m₁) ∧
      loadSegment im (k'.tasks k.current).pagetable u m₁ = .ok (u', m) ∧
      k'.mem.memoryAllocator = m.memoryAllocator ∧
      ∀ f, f ≠ k.cur.cx → k'.mem.ram f = m.ram f := by
  obtain ⟨path, -, hr⟩ := exists_of_bind_ok hr
  obtain ⟨⟨start, m₀⟩, h₁, hr⟩ := exists_of_bind_ok hr
  obtain ⟨-, -, hr⟩ := exists_of_bind_ok hr
  obtain ⟨k₁, h₂, hr⟩ := exists_of_bind_ok hr
  obtain ⟨⟨u', m⟩, h₃, hr⟩ := exists_of_bind_ok hr
  obtain rfl := Except.ok.inj hr
  have hname : m₀.memoryAllocator = k.mem.memoryAllocator := by
    rw [getAppDataByName] at h₁
    split at h₁
    · cases h₁
    · obtain ⟨m₂, hm, h₁⟩ := exists_of_bind_ok h₁
      obtain ⟨-, rfl⟩ := Prod.mk.inj (Except.ok.inj h₁)
      rw [printfLen_ok hm]
      rfl
  obtain ⟨⟨pt, m₁⟩, ht, h₂⟩ := exists_of_bind_ok h₂
  obtain rfl := Except.ok.inj h₂
  simp only [Kernel.cur, Kernel.setTask, Function.update_self, Function.update_idem] at ht h₃ ⊢
  refine ⟨m₀, _, m₁, _, _, u', m, hname, ht, h₃, rfl, fun f hf => ?_⟩
  exact (Mem.store_of_ne hf _ _).trans (Mem.store_of_ne hf _ _)

theorem sysFork_takes {cfg : Config} {k k' : Kernel} {pid : BitVec 32} {p : Slot}
    (hp : freeSlot k = some p) (hr : sysFork cfg k = .ok (pid, k')) : Takes k.mem k'.mem := by
  obtain ⟨cx, m₁, _, m₂, _, _, m, hk, ht, hc, hm, -⟩ := sysFork_trace hp hr
  have hcopy : Builds (k'.tasks p).pagetable m₂ m := Builds.refl.uvmCopyFrom hc
  exact ((Builds.kalloc_takes hk).trans ((procTable_takes ht).trans hcopy.takes)).congr rfl hm.symm

theorem sysFork_built {cfg : Config} {k k' : Kernel} {pid : BitVec 32} {p : Slot}
    (h : MemInv cfg k) (hp : freeSlot k = some p) (hr : sysFork cfg k = .ok (pid, k')) :
    BuiltBut cfg k'.mem (k'.tasks p).pagetable (k'.tasks p).cx := by
  obtain ⟨cx, m₁, _, m₂, _, _, m, hk, ht, hc, -, hram⟩ := sysFork_trace hp hr
  obtain ⟨hg, -⟩ := (kalloc_spec k.mem).of_ok hk
  have ho : Own cfg.lo m₁ 0 := (h.own.grows hg).mono (Multiset.zero_le _)
  exact ⟨m, .uvmCopy (.procPagetable ho (hg.end_eq.trans h.end_eq) ht) hc, hram⟩

theorem execLoad_takes {cfg : Config} {env : Env cfg} {name : ℕ} {k k' : Kernel}
    (hr : execLoad cfg env name k = .ok k') : Takes k.mem k'.mem := by
  obtain ⟨m₀, _, m₁, _, _, u', m, hname, ht, hl, hm, -⟩ := execLoad_trace hr
  exact ((procTable_takes ht).trans (Builds.refl.loadSegment hl).takes).congr hname hm.symm

theorem execLoad_built {cfg : Config} {env : Env cfg} {name : ℕ} {k k' : Kernel}
    (h : MemInv cfg k) (hr : execLoad cfg env name k = .ok k') :
    BuiltBut cfg k'.mem (k'.tasks k.current).pagetable k.cur.cx := by
  obtain ⟨m₀, _, m₁, _, _, u', m, hname, ht, hl, -, hram⟩ := execLoad_trace hr
  have ho : Own cfg.lo m₀ 0 := by
    have hk : Own cfg.lo k.mem 0 := h.own.mono (Multiset.zero_le _)
    unfold Own Mem.free Mem.recycled at hk ⊢
    rwa [hname]
  have hend : m₀.memoryAllocator.end_ = frameEnd := by rw [hname, h.end_eq]
  exact ⟨m, .loadSegment (.procPagetable ho hend ht) hl, hram⟩

/-! ## Nothing is taken from a table -/

/-- The table has its frames and its valid entries still. -/
structure Extends (m m' : Mem) (root : ℕ) : Prop where
  frames : tableFrames m.ram root ≤ tableFrames m'.ram root
  keep : ∀ f ∈ tableFrames m.ram root, ∀ j, isValid (m.ram f j) → m'.ram f j = m.ram f j

namespace Extends

variable {m m₁ m' : Mem} {root v : ℕ} {e : Word}

theorem of_agree (hag : ∀ f ∈ tableFrames m.ram root, m'.ram f = m.ram f) : Extends m m' root where
  frames := (Radix.nodes_congr hag).ge
  keep f hf j _ := by rw [hag f hf]

theorem trans (h : Extends m m₁ root) (h' : Extends m₁ m' root) : Extends m m' root where
  frames := h.frames.trans h'.frames
  keep f hf j hv := by
    have hv₁ : isValid (m₁.ram f j) = true := by rwa [h.keep f hf j hv]
    rw [h'.keep f (Multiset.mem_of_le h.frames hf) j hv₁, h.keep f hf j hv]

/-- A page that is mapped stays mapped, to the same frame and with the same flags. -/
theorem lookup (h : Extends m m' root) (he : lookup m.ram root v = some e) :
    lookup m'.ram root v = some e := by
  obtain ⟨q, hw, hv, he⟩ := Radix.get_eq_some_iff.mp he
  refine Radix.get_eq_some_iff.mpr ⟨q, Radix.walk_keep h.keep hw, hv, ?_⟩
  have hq : q.1 ∈ tableFrames m.ram root := Radix.walk_mem hw
  rw [h.keep q.1 hq q.2 (by rw [he]; exact hv), he]

end Extends

section Sound

variable {lo : ℕ} {m m' : Mem} {pt : PageTable} {X : Multiset ℕ} {v p : ℕ} {fl : Byte}

theorem Sound.not_free (h : Sound lo m pt X) {f : ℕ} (hf : f ∈ tableFrames m.ram pt.rootPpn) :
    f ∉ m.free := h.own.not_mem_free (Multiset.mem_add.mpr (.inl hf))

theorem Sound.extends_kalloc {f : ℕ} (h : Sound lo m pt X) (hr : RiscvOs.kalloc m = .ok (f, m')) :
    Extends m m' pt.rootPpn := by
  obtain ⟨hg, -⟩ := (kalloc_spec m).of_ok hr
  refine .of_agree fun g hgN => hg.frame g (Multiset.notMem_zero g) fun hgf => ?_
  exact h.wf.new_not_mem hg hgf hgN

theorem Sound.extends_mapPerPage (h : Sound lo m pt X) (hr : pt.mapPerPage m v p fl = .ok m') :
    Extends m m' pt.rootPpn := by
  rw [PageTable.mapPerPage] at hr
  obtain ⟨⟨q, m₁⟩, hc, hr⟩ := exists_of_bind_ok hr
  obtain ⟨nt, hcr⟩ := (findPteCreate_spec h.wf).of_ok hc
  simp only at hr
  split_ifs at hr with hq
  obtain rfl := Except.ok.inj hr
  have hn : (Radix.nodes pteFormat m₁.ram (getPageOffset v).2.length pt.rootPpn).Nodup :=
    hcr.wf.nodup_left
  have hN : tableFrames (m₁.store q.1 q.2 (new p (pteV ||| fl))).ram pt.rootPpn =
      tableFrames m₁.ram pt.rootPpn := Radix.nodes_setAt hn hcr.entry
  have hcreate : Extends m m₁ pt.rootPpn :=
    { frames := hcr.frames ▸ Multiset.le_add_right _ _
      keep := fun f hf => findPteCreateFrom_keep hc f (h.not_free hf) }
  refine hcreate.trans ⟨hN.ge, fun f _ j hv => ?_⟩
  -- the entry that is written is not valid
  by_cases hf : f = q.1
  · subst hf
    refine Mem.store_self_of_ne (fun hj => ?_) _
    subst hj
    exact hq hv
  · rw [Mem.store_of_ne hf]

/-- The steps keep the table sound, whatever they are. -/
theorem Builds.sound (hb : Builds pt m m') (h : Sound lo m pt X) : Sound lo m' pt X := by
  induction hb with
  | refl => exact h
  | alloc _ hk ih => exact (ih.kalloc hk).mono (Multiset.le_add_right _ _)
  | @fill _ _ f _ hk c ih =>
    have hf : f ∈ X + {f} := Multiset.mem_add.mpr (.inr (Multiset.mem_singleton_self f))
    exact ((ih.kalloc hk).storeFrame hf c).mono (Multiset.le_add_right _ _)
  | map _ hm ih => exact ih.mapPerPage hm

/-- **Building only adds to a table.** -/
theorem Builds.extends (hb : Builds pt m m') (h : Sound lo m pt X) : Extends m m' pt.rootPpn := by
  induction hb with
  | refl => exact .of_agree fun _ _ => rfl
  | alloc hb hk ih => exact ih.trans ((hb.sound h).extends_kalloc hk)
  | @fill m₁ m₂ f hb hk c ih =>
    have hs := hb.sound h
    refine (ih.trans (hs.extends_kalloc hk)).trans (.of_agree fun g hg => ?_)
    have hf : f ∈ X + {f} := Multiset.mem_add.mpr (.inr (Multiset.mem_singleton_self f))
    exact Mem.storeFrame_of_ne (fun he : g = f => (hs.kalloc hk).own.not_mem_right hg (he ▸ hf)) c
  | map hb hm ih => exact ih.trans ((hb.sound h).extends_mapPerPage hm)

end Sound

end RiscvOs
