import RiscvOs.Inv.Balance
import RiscvOs.Inv.FirstBoot

/-!
# All frames of the allocator

`StackFrameAllocator` manages the frames from the end of the kernel's image to the end of memory.
Building a table moves frames from the free ones to the table and loses none.

* `Sound.total_mapPerPage`: what mapping a page takes is in the table.
* `kvmMake_total`: the frames of the kernel and the free ones are all there are.
* **`boot_frames`**: so are those of the kernel, of the first program and the free ones after boot.
-/

set_option autoImplicit false

namespace RiscvOs

open PageTableEntry

variable {cfg : Config} {b : Start cfg}

/-- The frames the allocator manages. -/
def Config.allFrames (cfg : Config) : Multiset ℕ := (Finset.Ico cfg.lo frameEnd).val

/-! ## Tables -/

/-- The frames of a table and the free ones. -/
def tableTotal (m : Mem) (root : ℕ) : Multiset ℕ := tableFrames m.ram root + m.free

section Sound

variable {lo : ℕ} {m m' : Mem} {pt : PageTable} {X : Multiset ℕ} {v p va pa size : ℕ} {fl : Byte}

theorem Sound.total_mapPerPage (h : Sound lo m pt X) (hr : pt.mapPerPage m v p fl = .ok m') :
    tableTotal m' pt.rootPpn = tableTotal m pt.rootPpn := by
  rw [PageTable.mapPerPage] at hr
  obtain ⟨⟨q, m₁⟩, hc, hr⟩ := exists_of_bind_ok hr
  obtain ⟨nt, hcr⟩ := (findPteCreate_spec h.wf).of_ok hc
  simp only at hr
  split_ifs at hr
  obtain rfl := Except.ok.inj hr
  have hn : (Radix.nodes pteFormat m₁.ram (getPageOffset v).2.length pt.rootPpn).Nodup :=
    hcr.wf.nodup_left
  have hN : tableFrames (m₁.store q.1 q.2 (new p (pteV ||| fl))).ram pt.rootPpn =
      tableFrames m₁.ram pt.rootPpn := Radix.nodes_setAt hn hcr.entry
  have hfree : (m₁.store q.1 q.2 (new p (pteV ||| fl))).free = m₁.free := rfl
  rw [tableTotal, tableTotal, hN, hfree, hcr.frames, hcr.grows.free, add_assoc]

theorem Sound.total_mapLoop {more : ℕ} (h : Sound lo m pt X)
    (hr : pt.mapLoop fl more v p m = .ok m') :
    tableTotal m' pt.rootPpn = tableTotal m pt.rootPpn := by
  induction more generalizing m v p with
  | zero => exact h.total_mapPerPage hr
  | succ more ih =>
    rw [PageTable.mapLoop] at hr
    obtain ⟨m₁, h₁, hr⟩ := exists_of_bind_ok hr
    rw [ih (h.mapPerPage h₁) hr, h.total_mapPerPage h₁]

theorem Sound.total_map (h : Sound lo m pt X) (hr : pt.map m va pa size fl = .ok m') :
    tableTotal m' pt.rootPpn = tableTotal m pt.rootPpn := by
  rw [PageTable.map] at hr
  split_ifs at hr
  exact h.total_mapLoop hr

/-- A frame that is taken leaves the total. -/
theorem Sound.total_kalloc {f : ℕ} (h : Sound lo m pt X) (hr : RiscvOs.kalloc m = .ok (f, m')) :
    {f} + tableTotal m' pt.rootPpn = tableTotal m pt.rootPpn := by
  obtain ⟨hg, -⟩ := (kalloc_spec m).of_ok hr
  have hN : tableFrames m'.ram pt.rootPpn = tableFrames m.ram pt.rootPpn :=
    Radix.nodes_congr fun g hgN => hg.frame g (Multiset.notMem_zero g) fun hgf =>
      h.wf.new_not_mem hg hgf hgN
  rw [tableTotal, tableTotal, hN, hg.free]
  abel

end Sound

/-! ## The kernel -/

theorem kvmMakeTable_total {lo : ℕ} {m m' : Mem} {pt : PageTable} {X : Multiset ℕ}
    (h : Sound lo m pt X) (hr : kvmMakeTable cfg pt m = .ok m') :
    Sound lo m' pt X ∧ tableTotal m' pt.rootPpn = tableTotal m pt.rootPpn := by
  obtain ⟨m₁, h₁, hr⟩ := exists_of_bind_ok hr
  obtain ⟨m₂, h₂, hr⟩ := exists_of_bind_ok hr
  have hs₁ := h.map h₁
  have hs₂ := hs₁.map h₂
  exact ⟨hs₂.map hr, (hs₂.total_map hr).trans ((hs₁.total_map h₂).trans (h.total_map h₁))⟩

/-- Every kernel stack takes one frame that is not of the table. -/
theorem procMapstacks_total {lo : ℕ} {l : List Slot} {k k' : Kernel}
    (h : Sound lo k.mem k.kernelPagetable 0) (hr : l.foldlM procMapstack k = .ok k') :
    k'.kernelPagetable = k.kernelPagetable ∧
      (tableTotal k'.mem k.kernelPagetable.rootPpn).card + l.length =
        (tableTotal k.mem k.kernelPagetable.rootPpn).card := by
  induction l generalizing k with
  | nil =>
    obtain rfl := Except.ok.inj hr
    exact ⟨rfl, rfl⟩
  | cons i l ih =>
    rw [List.foldlM_cons] at hr
    obtain ⟨k₁, h₁, hr⟩ := exists_of_bind_ok hr
    obtain ⟨⟨f, m₁⟩, h₂, h₁⟩ := exists_of_bind_ok h₁
    simp only at h₁
    split_ifs at h₁
    obtain ⟨m₃, h₃, h₁⟩ := exists_of_bind_ok h₁
    obtain rfl := Except.ok.inj h₁
    have hs₁ : Sound lo m₁ k.kernelPagetable 0 := (h.kalloc h₂).mono (Multiset.zero_le _)
    obtain ⟨hpt, hcard⟩ := ih (k := { k with mem := m₃ }.setTask i _) (hs₁.map h₃) hr
    have htotal := congrArg Multiset.card (h.total_kalloc h₂)
    rw [Multiset.card_add, Multiset.card_singleton, ← hs₁.total_map h₃] at htotal
    have hcard' : (tableTotal k'.mem k.kernelPagetable.rootPpn).card + l.length =
        (tableTotal m₃ k.kernelPagetable.rootPpn).card := hcard
    refine ⟨hpt, ?_⟩
    rw [List.length_cons]
    omega

theorem kernelStackFrames_card {k : Kernel}
    (h : KernelTable cfg k.mem.ram k.kernelPagetable.rootPpn) :
    k.kernelStackFrames.card = maxTaskNum := by
  have hleaf : ∀ p : Slot,
      (leaf (lookup k.mem.ram k.kernelPagetable.rootPpn) (kstackVpn p)).card = 1 := fun p => by
    obtain ⟨f, -, hf⟩ := h.stack p
    rw [leaf, hf]
    rfl
  rw [Kernel.kernelStackFrames, Multiset.card_sum, Finset.sum_congr rfl fun p _ => hleaf p,
    Finset.sum_const, Finset.card_univ, Fintype.card_fin]
  rfl

/-- **The frames of the kernel and the free ones are all.** -/
theorem kvmMake_total {k : Kernel} (hr : kvmMake cfg (frameAlloctorInit cfg b) = .ok k) :
    k.owned + k.mem.free = cfg.allFrames := by
  obtain ⟨kroot, m, hk, hinv, -⟩ := (kvmMake_spec b).of_ok hr
  obtain ⟨⟨root, m₁⟩, h₁, hr⟩ := exists_of_bind_ok hr
  obtain ⟨m₂, h₂, hr⟩ := exists_of_bind_ok hr
  have hfree : (frameAlloctorInit cfg b).mem.free = cfg.allFrames := zero_add _
  have ho : Own cfg.lo (frameAlloctorInit cfg b).mem 0 := by
    rw [Own, zero_add, hfree]
    exact le_rfl
  have hend : (frameAlloctorInit cfg b).mem.memoryAllocator.end_ ≤ 2 ^ 44 := by
    change frameEnd ≤ _
    decide
  have hs₁ := sound_root ho hend h₁
  obtain ⟨hs₂, ht₂⟩ := kvmMakeTable_total hs₁ h₂
  obtain ⟨hpt, hcard⟩ := procMapstacks_total (k := { frameAlloctorInit cfg b with
    mem := m₂, kernelPagetable := ⟨root⟩ }) hs₂ hr
  have hroot : tableTotal m₁ root = cfg.allFrames := by
    obtain ⟨hg, hz⟩ := (kalloc_spec _).of_ok h₁
    have hN : tableFrames m₁.ram root = {root} := (Table.empty hz).nodes
    rw [tableTotal, hN, ← hfree, hg.free]
  have htotal : (tableTotal k.mem k.kernelPagetable.rootPpn).card + maxTaskNum =
      cfg.allFrames.card := by
    have hlen : (List.finRange maxTaskNum).length = maxTaskNum := List.length_finRange
    rw [← hroot, hpt, ← hlen, hcard]
    exact congrArg Multiset.card ht₂
  have hle : k.owned + k.mem.free ≤ cfg.allFrames := by
    have hown := hinv.own
    rwa [Own, hinv.end_eq] at hown
  refine Multiset.eq_of_le_of_card_le hle ?_
  rw [← htotal, Kernel.owned_eq_sum, Kernel.kernelFrames, Multiset.card_add, Multiset.card_add,
    Multiset.card_add, kernelStackFrames_card hinv.kernel, tableTotal, Multiset.card_add]
  change (tableFrames k.mem.ram k.kernelPagetable.rootPpn).card + _ + _ ≤
    (tableFrames k.mem.ram k.kernelPagetable.rootPpn).card + _ + _ + _
  omega

/-! ## Boot -/

/-- The frames of the first program are those that loading it took. -/
theorem booted_taskFrames {kroot entry cx root : ℕ} {file : ℕ → Byte} {N D : Multiset ℕ}
    {m₀ m : Mem} (h : MemInv cfg (kernelReady cfg b kroot m₀))
    (hl : AppLoaded cfg m₀ file cx root N D m) :
    (booted cfg b kroot cx root entry (imageTop file) m).taskFrames 0 = {cx} + (N + D) := by
  have htask : (booted cfg b kroot cx root entry (imageTop file) m).tasks 0 =
      initTask cfg cx root entry (imageTop file) := by simp only [booted, Function.update_self]
  have hinit : ((booted cfg b kroot cx root entry (imageTop file) m).tasks 0).taskState ≠
      .unInit := by
    rw [htask]
    exact TaskState.noConfusion
  have hcx : (initTask cfg cx root entry (imageTop file)).cx = cx := htask ▸ booted_cx hl
  have hs : Space (booted cfg b kroot cx root entry (imageTop file) m).mem.ram
      (initTask cfg cx root entry (imageTop file)).pagetable.rootPpn
      (initTask cfg cx root entry (imageTop file)).cx cfg.trampolinePpn
      ((initTask cfg cx root entry (imageTop file)).baseSize / 4096) N D (imagePages file) := by
    rw [hcx]
    exact booted_space h hl
  rw [Kernel.taskFrames_of_init hinit, htask, TaskControlBlock.frames_eq hs, hcx]
  abel

/-- The frames after boot: all of them are somewhere, and how many the kernel and the first program
have. -/
structure BootFrames (cfg : Config) (b : Start cfg) (k : Kernel) (app : App) : Prop where
  total : k.owned + k.mem.free = cfg.allFrames
  kernel : k.kernelFrames.card ≤ 167
  task : (k.taskFrames 0).card ≤ 1 + imageNeed (app.view b.toEnv).file
  baseSize : (k.tasks 0).baseSize = imageTop (app.view b.toEnv).file
  unInit : ∀ i, i ≠ 0 → (k.tasks i).taskState = .unInit

theorem kernelReady_owned (kroot : ℕ) (m₀ : Mem) : (kernelReady cfg b kroot m₀).owned =
    (kernelReady cfg b kroot m₀).kernelFrames := by
  have hzero : ∀ i, (kernelReady cfg b kroot m₀).taskFrames i = 0 := fun i =>
    Kernel.taskFrames_of_unInit rfl
  rw [Kernel.owned_eq_sum, Finset.sum_eq_zero fun i _ => hzero i, add_zero]

/-- **All frames after boot.** -/
theorem boot_frames {k : Kernel} {kont : Kont} (hwf : cfg.WellFormed)
    (hr : boot cfg b = .ok (kont, k)) : ∃ app ∈ cfg.apps, BootFrames cfg b k app := by
  rw [boot] at hr
  obtain ⟨k₁, h₁, hr⟩ := exists_of_bind_ok hr
  have htotal : k₁.owned + k₁.mem.free = cfg.allFrames := by
    obtain ⟨k₀, h₀, hinit⟩ := exists_of_bind_ok h₁
    split at hinit
    · cases hinit
    · obtain rfl := Except.ok.inj hinit
      have hmake := kvmMake_total h₀
      exact hmake
  obtain ⟨kroot, m₀, rfl, hm, hcard⟩ := (kvminit_spec b).of_ok h₁
  obtain ⟨-, -, hr⟩ := exists_of_bind_ok hr
  obtain ⟨k₂, h₂, hr⟩ := exists_of_bind_ok hr
  have hpi : procinit (kernelReady cfg b kroot m₀) = kernelReady cfg b kroot m₀ := rfl
  rw [hpi] at h₂
  have htop : (kernelReady cfg b kroot m₀).top < maxTaskNum := Nat.zero_lt_succ _
  obtain ⟨app, cx, root, N, D, m, happ, hl, rfl⟩ :=
    (loadApp_spec htop (hm.apart.mono (Multiset.zero_le _)) hwf).of_ok h₂
  rw [startTask_booted] at hr
  obtain ⟨-, rfl⟩ := Prod.mk.inj (Except.ok.inj hr)
  have hl' : AppLoaded cfg m₀ (app.view b.toEnv).file cx root N D m := hl
  have hfree : m₀.free = {cx} + (N + D) + m.free := hl'.grows.free
  have ho : OnlyTask cfg (kernelReady cfg b kroot m₀) (booted cfg b kroot cx root
      (ehdrOf (app.view b.toEnv).file).eEntry (imageTop (app.view b.toEnv).file) m) 0 :=
    booted_onlyTask hm hl'
  refine ⟨app, List.mem_of_mem_head? happ, ?_, ?_, ?_, ?_, fun i hi => ?_⟩
  · have hready : (kernelReady cfg b kroot m₀).owned = (kernelReady cfg b kroot m₀).rest 0 := by
      rw [(kernelReady cfg b kroot m₀).owned_eq 0, Kernel.taskFrames_of_unInit rfl, add_zero]
    rw [Kernel.owned_eq _ 0, ho.rest hm, booted_taskFrames hm hl', ← hready, ← htotal,
      booted_mem hl', add_assoc]
    change _ + ({cx} + (N + D) + m.free) = _ + m₀.free
    rw [hfree]
  · have hc := congrArg Multiset.card htotal
    rw [kernelReady_owned, Multiset.card_add, Config.allFrames, Finset.card_val, Nat.card_Ico] at hc
    have hmem : (kernelReady cfg b kroot m₀).mem.free.card = m₀.free.card := rfl
    rw [ho.kernelFrames hm]
    omega
  · rw [booted_taskFrames hm hl', Multiset.card_add, Multiset.card_singleton]
    exact Nat.add_le_add_left hl'.card 1
  · simp only [booted, Function.update_self]
    rfl
  · simp only [booted, Function.update_of_ne hi]
    rfl

end RiscvOs
