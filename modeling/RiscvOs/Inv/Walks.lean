import RiscvOs.Hw.Walk
import RiscvOs.Inv.KernelMap
import RiscvOs.Mem.Entries

/-!
# Tables the kernel's operations build

`Built cfg m pt`: the table at `pt` is reached in the memory `m` by the operations of the kernel,
with any arguments: `kvm_make`, `proc_pagetable`, `load_segment` of any image, `uvm_copy` and
`page_unmap_free`. Between them the rest of the system may do anything that leaves the frames of the
table alone.

* `Sound`: its frames are handed out, and its interior entries are links.
* **`Built.sound`**: every operation keeps that.
-/

set_option autoImplicit false

namespace RiscvOs

open PageTableEntry

/-- The frames of the table and the frames `X` are handed out, and the interior entries are links.
-/
structure Sound (lo : ℕ) (m : Mem) (pt : PageTable) (X : Multiset ℕ) : Prop where
  own : Own lo m (tableFrames m.ram pt.rootPpn + X)
  end_le : m.memoryAllocator.end_ ≤ 2 ^ 44
  links : Links m.ram pt.rootPpn

namespace Sound

variable {lo : ℕ} {m m' : Mem} {pt : PageTable} {X Y : Multiset ℕ} {v p va pa size : ℕ} {fl : Byte}

theorem mono (h : Sound lo m pt X) (hY : Y ≤ X) : Sound lo m pt Y :=
  { h with own := h.own.mono (add_le_add_right hY _) }

theorem wf (h : Sound lo m pt X) : WfTable m pt :=
  (h.own.mono (Multiset.le_add_right _ _)).apart h.end_le

theorem root_lt (h : Sound lo m pt X) : pt.rootPpn < 2 ^ 44 := by
  have hroot : pt.rootPpn ∈ tableFrames m.ram pt.rootPpn := Radix.root_mem_nodes
  have hI := (h.own.mem_Ico (Multiset.mem_add.mpr (.inl hroot))).2
  have hle := m.memoryAllocator.le
  have hend := h.end_le
  omega

/-- Memory that agrees on the table. -/
theorem congr (h : Sound lo m pt X) (hag : ∀ f ∈ tableFrames m.ram pt.rootPpn, m'.ram f = m.ram f)
    (ho : Own lo m' (tableFrames m.ram pt.rootPpn + Y))
    (hend : m'.memoryAllocator.end_ ≤ 2 ^ 44) : Sound lo m' pt Y := by
  have ht := (Table.self h.links).congr hag
  refine ⟨?_, hend, ht.links⟩
  rw [ht.nodes]
  exact ho

theorem kalloc {f : ℕ} (h : Sound lo m pt X) (hr : RiscvOs.kalloc m = .ok (f, m')) :
    Sound lo m' pt (X + {f}) := by
  obtain ⟨hg, -⟩ := (kalloc_spec m).of_ok hr
  refine h.congr (fun g hgN => hg.frame g (Multiset.notMem_zero g) fun hgf => ?_) ?_ ?_
  · exact h.wf.new_not_mem hg hgf hgN
  · rw [← add_assoc]
    exact h.own.grows hg
  · rw [hg.end_eq]
    exact h.end_le

theorem storeFrame {f : ℕ} (h : Sound lo m pt X) (hf : f ∈ X) (c : Frame) :
    Sound lo (m.storeFrame f c) pt X :=
  h.congr (fun g hg => Mem.storeFrame_of_ne (fun he : g = f => h.own.not_mem_right hg (he ▸ hf)) c)
    h.own h.end_le

/-- One page, at any page number and onto any frame. -/
theorem mapPerPage (h : Sound lo m pt X) (hr : pt.mapPerPage m v p fl = .ok m') :
    Sound lo m' pt X := by
  rw [PageTable.mapPerPage] at hr
  obtain ⟨⟨q, m₁⟩, hc, hr⟩ := exists_of_bind_ok hr
  obtain ⟨nt, hc⟩ := (findPteCreate_spec h.wf).of_ok hc
  simp only at hr
  split_ifs at hr
  obtain rfl := Except.ok.inj hr
  have hn : (Radix.nodes pteFormat m₁.ram (getPageOffset v).2.length pt.rootPpn).Nodup :=
    hc.wf.nodup_left
  have hN : tableFrames (m₁.store q.1 q.2 (new p (pteV ||| fl))).ram pt.rootPpn =
      tableFrames m₁.ram pt.rootPpn := Radix.nodes_setAt hn hc.entry
  refine ⟨?_, ?_, Radix.Interior.setAt hn hc.entry (hc.links h.links)⟩
  · have ho := h.own.grows hc.grows
    have hsum : tableFrames m.ram pt.rootPpn + X + nt = tableFrames m₁.ram pt.rootPpn + X := by
      rw [hc.frames]
      abel
    rw [hsum] at ho
    rw [hN]
    exact ho
  · exact hc.grows.end_eq.trans_le h.end_le

theorem mapLoop {more : ℕ} (h : Sound lo m pt X) (hr : pt.mapLoop fl more v p m = .ok m') :
    Sound lo m' pt X := by
  induction more generalizing m v p with
  | zero => exact h.mapPerPage hr
  | succ more ih =>
    rw [PageTable.mapLoop] at hr
    obtain ⟨m₁, h₁, hr⟩ := exists_of_bind_ok hr
    exact ih (h.mapPerPage h₁) hr

/-- **`PageTable_map`**, with any arguments. -/
theorem map (h : Sound lo m pt X) (hr : pt.map m va pa size fl = .ok m') : Sound lo m' pt X := by
  rw [PageTable.map] at hr
  split_ifs at hr
  exact h.mapLoop hr

/-! ### `load_segment` -/

theorem loadPage {im : Image} {offset : ℕ} (h : Sound lo m pt X)
    (hr : RiscvOs.loadPage im pt fl offset va m = .ok m') : Sound lo m' pt X := by
  obtain ⟨⟨f, m₁⟩, h₁, hr⟩ := exists_of_bind_ok hr
  obtain ⟨-, -, hr⟩ := exists_of_bind_ok hr
  have hf : f ∈ X + {f} := Multiset.mem_add.mpr (.inr (Multiset.mem_singleton_self f))
  exact (((h.kalloc h₁).storeFrame hf _).map hr).mono (Multiset.le_add_right _ _)

theorem loadPages {im : Image} {n offset : ℕ} (h : Sound lo m pt X)
    (hr : RiscvOs.loadPages im pt fl n offset va m = .ok m') : Sound lo m' pt X := by
  induction n generalizing offset va m with
  | zero =>
    obtain rfl := Except.ok.inj hr
    exact h
  | succ n ih =>
    obtain ⟨m₁, h₁, hr⟩ := exists_of_bind_ok hr
    exact ih (h.loadPage h₁) hr

theorem loadPhdr {im : Image} {s s' : ℕ × Mem} {i : ℕ} (h : Sound lo s.2 pt X)
    (hr : RiscvOs.loadPhdr im pt s i = .ok s') : Sound lo s'.2 pt X := by
  obtain ⟨-, -, hr⟩ := exists_of_bind_ok hr
  simp only at hr
  split_ifs at hr
  · obtain ⟨m₁, h₁, hr⟩ := exists_of_bind_ok hr
    obtain rfl := Except.ok.inj hr
    exact h.loadPages h₁
  · obtain rfl := Except.ok.inj hr
    exact h

theorem loadPhdrs {im : Image} {l : List ℕ} {s s' : ℕ × Mem} (h : Sound lo s.2 pt X)
    (hr : l.foldlM (RiscvOs.loadPhdr im pt) s = .ok s') : Sound lo s'.2 pt X := by
  induction l generalizing s with
  | nil =>
    obtain rfl := Except.ok.inj hr
    exact h
  | cons i l ih =>
    rw [List.foldlM_cons] at hr
    obtain ⟨s₁, h₁, hr⟩ := exists_of_bind_ok hr
    exact ih (h.loadPhdr h₁) hr

/-- **`load_segment`** of any image. -/
theorem loadSegment {im : Image} {ustack ustack' : ℕ} (h : Sound lo m pt X)
    (hr : RiscvOs.loadSegment im pt ustack m = .ok (ustack', m')) : Sound lo m' pt X := by
  obtain ⟨⟨u, m₁⟩, h₁, hr⟩ := exists_of_bind_ok hr
  obtain ⟨⟨f, m₂⟩, h₂, hr⟩ := exists_of_bind_ok hr
  obtain ⟨m₃, h₃, hr⟩ := exists_of_bind_ok hr
  obtain ⟨-, rfl⟩ := Prod.mk.inj (Except.ok.inj hr)
  exact (((h.loadPhdrs (s := (ustack, m)) h₁).kalloc h₂).map h₃).mono (Multiset.le_add_right _ _)

/-! ### `uvm_copy` -/

theorem uvmCopyPage {father : PageTable} (h : Sound lo m pt X)
    (hr : RiscvOs.uvmCopyPage father pt v m = .ok m') : Sound lo m' pt X := by
  rw [RiscvOs.uvmCopyPage] at hr
  split at hr
  · obtain rfl := Except.ok.inj hr
    exact h
  · obtain ⟨⟨f, m₁⟩, h₁, hr⟩ := exists_of_bind_ok hr
    have hf : f ∈ X + {f} := Multiset.mem_add.mpr (.inr (Multiset.mem_singleton_self f))
    exact (((h.kalloc h₁).storeFrame hf _).map hr).mono (Multiset.le_add_right _ _)

theorem uvmCopyFrom {father : PageTable} {n : ℕ} (h : Sound lo m pt X)
    (hr : RiscvOs.uvmCopyFrom father pt v n m = .ok m') : Sound lo m' pt X := by
  induction n generalizing v m with
  | zero =>
    obtain rfl := Except.ok.inj hr
    exact h
  | succ n ih =>
    obtain ⟨m₁, h₁, hr⟩ := exists_of_bind_ok hr
    exact ih (h.uvmCopyPage h₁) hr

/-! ### `page_unmap_free` -/

theorem pageUnmapFree {free : Bool} {n : ℕ} (h : Sound lo m pt 0) (hv : v + n ≤ 2 ^ 27)
    (ho : free = true →
      Own lo m (tableFrames m.ram pt.rootPpn + leaves (lookup m.ram pt.rootPpn) v n))
    (hr : RiscvOs.pageUnmapFree pt free v n m = .ok m') : Sound lo m' pt 0 := by
  have ho' : Own lo m (tableFrames m.ram pt.rootPpn +
      if free then leaves (lookup m.ram pt.rootPpn) v n else 0) := by
    split_ifs with hf
    · exact ho hf
    · exact h.own
  obtain ⟨d, hf, ht⟩ := (pageUnmapFree_spec (Table.self h.links) hv ho').of_ok hr
  refine ⟨?_, hf.end_eq.trans_le h.end_le, ht.links⟩
  rw [ht.nodes, add_zero]
  exact ho'.frees hf

end Sound

/-! ## The operations that make a table -/

section Make

variable {cfg : Config} {lo : ℕ} {m m' : Mem} {pt : PageTable}

/-- A fresh root is a table. -/
theorem sound_root {X : Multiset ℕ} {f : ℕ} (ho : Own lo m X)
    (hend : m.memoryAllocator.end_ ≤ 2 ^ 44) (hr : kalloc m = .ok (f, m')) :
    Sound lo m' ⟨f⟩ X := by
  obtain ⟨hg, hz⟩ := (kalloc_spec m).of_ok hr
  have ht : Table m'.ram f {f} fun _ => none := Table.empty hz
  refine ⟨?_, hg.end_eq.trans_le hend, ht.links⟩
  have hg' := ho.grows hg
  rw [add_comm] at hg'
  rw [ht.nodes]
  exact hg'

theorem sound_procTable {X : Multiset ℕ} {trapCx : ℕ} (ho : Own lo m X)
    (hend : m.memoryAllocator.end_ ≤ 2 ^ 44) (hr : procTable cfg m trapCx = .ok (pt, m')) :
    Sound lo m' pt X := by
  obtain ⟨⟨f, m₁⟩, h₁, hr⟩ := exists_of_bind_ok hr
  obtain ⟨m₂, h₂, hr⟩ := exists_of_bind_ok hr
  obtain ⟨m₃, h₃, hr⟩ := exists_of_bind_ok hr
  obtain ⟨rfl, rfl⟩ := Prod.mk.inj (Except.ok.inj hr)
  exact ((sound_root ho hend h₁).map h₂).map h₃

theorem sound_kvmMake {b : Start cfg} {k : Kernel}
    (hr : kvmMake cfg (frameAlloctorInit cfg b) = .ok k) :
    Sound cfg.lo k.mem k.kernelPagetable 0 := by
  obtain ⟨root, m, rfl, h, -⟩ := (kvmMake_spec b).of_ok hr
  refine ⟨?_, ?_, h.kernel.links⟩
  · rw [add_zero]
    refine h.own.mono ?_
    rw [Kernel.owned, add_assoc]
    exact Multiset.le_add_right _ _
  · rw [h.end_eq]
    decide

end Make

/-! ## Reachable tables -/

/-- The tables the kernel's operations lead to, each operation on any arguments. What
`page_unmap_free` gives back is the kernel's to give: handed out, and not a frame of the table. -/
inductive Built (cfg : Config) : Mem → PageTable → Prop where
  | kvmMake {b : Start cfg} {k : Kernel} (hr : kvmMake cfg (frameAlloctorInit cfg b) = .ok k) :
    Built cfg k.mem k.kernelPagetable
  | procPagetable {m m' : Mem} {trapCx : ℕ} {pt : PageTable} (ho : Own cfg.lo m 0)
    (hend : m.memoryAllocator.end_ = frameEnd) (hr : procTable cfg m trapCx = .ok (pt, m')) :
    Built cfg m' pt
  | loadSegment {m m' : Mem} {pt : PageTable} {im : Image} {ustack ustack' : ℕ} (h : Built cfg m pt)
    (hr : loadSegment im pt ustack m = .ok (ustack', m')) : Built cfg m' pt
  | uvmCopy {m m' : Mem} {father pt : PageTable} {sz : ℕ} (h : Built cfg m pt)
    (hr : uvmCopy m father pt sz = .ok m') : Built cfg m' pt
  | pageUnmapFree {m m' : Mem} {pt : PageTable} {free : Bool} {v n : ℕ} (h : Built cfg m pt)
    (hv : v + n ≤ 2 ^ 27)
    (ho : free = true →
      Own cfg.lo m (tableFrames m.ram pt.rootPpn + leaves (lookup m.ram pt.rootPpn) v n))
    (hr : pageUnmapFree pt free v n m = .ok m') : Built cfg m' pt
  | other {m m' : Mem} {pt : PageTable} (h : Built cfg m pt)
    (hag : ∀ f ∈ tableFrames m.ram pt.rootPpn, m'.ram f = m.ram f)
    (ho : Own cfg.lo m' (tableFrames m.ram pt.rootPpn))
    (hend : m'.memoryAllocator.end_ = frameEnd) : Built cfg m' pt

/-- The table was built, and after that nothing but the frame `cx` was written. -/
def BuiltBut (cfg : Config) (m' : Mem) (pt : PageTable) (cx : ℕ) : Prop :=
  ∃ m, Built cfg m pt ∧ ∀ f, f ≠ cx → m'.ram f = m.ram f

/-- **Every reachable table is one for the hardware.** -/
theorem Built.sound {cfg : Config} {m : Mem} {pt : PageTable} (h : Built cfg m pt) :
    Sound cfg.lo m pt 0 := by
  have hfe : frameEnd ≤ 2 ^ 44 := by decide
  induction h with
  | kvmMake hr => exact sound_kvmMake hr
  | procPagetable ho hend hr => exact sound_procTable ho (hend.trans_le hfe) hr
  | loadSegment _ hr ih => exact ih.loadSegment hr
  | uvmCopy _ hr ih => exact ih.uvmCopyFrom hr
  | pageUnmapFree _ hv ho hr ih => exact ih.pageUnmapFree hv ho hr
  | other _ hag ho hend ih =>
    exact ih.congr hag (by rwa [add_zero]) (hend.trans_le hfe)

end RiscvOs
