import RiscvOs.Inv.Builds
import RiscvOs.Inv.Histories
import RiscvOs.Mem.Allocator

/-!
# The frames of the first program

Up to the first program no frame is given back, so the allocator hands out its frames in order.

* **`boot_recycled`**: the recycled stack is empty when the first program starts.
* `Behind`: the frame after that of a page is the table the page is found through.
* **`boot_behind`**: that is so for the first page of the first program.
-/

set_option autoImplicit false

namespace RiscvOs

open PageTableEntry

variable {cfg : Config} {b : Start cfg}

/-! ## An allocator that has not been given anything back -/

/-- It hands out the next frame. -/
theorem kalloc_of_fresh {m m' : Mem} {f : ℕ} (h : m.recycled = 0) (hk : kalloc m = .ok (f, m')) :
    f = m.memoryAllocator.current ∧ m'.memoryAllocator.current = f + 1 ∧ m'.recycled = 0 := by
  have hnil : m.memoryAllocator.recycled.data = [] := (Multiset.coe_eq_zero _).mp h
  have hlt : m.memoryAllocator.current < m.memoryAllocator.end_ := by
    refine lt_of_le_of_ne m.memoryAllocator.le fun he => ?_
    rw [kalloc, alloc_of_full hnil he] at hk
    cases hk
  obtain ⟨m₁, hm₁, -, hdata, hcurrent⟩ := alloc_of_unused hnil hlt
  rw [kalloc, hm₁] at hk
  obtain ⟨rfl, rfl⟩ := Prod.mk.inj (Except.ok.inj hk)
  exact ⟨rfl, hcurrent, (Multiset.coe_eq_zero _).mpr hdata⟩

theorem Builds.fresh {pt : PageTable} {m m' : Mem} (hb : Builds pt m m') (h : m.recycled = 0) :
    m'.recycled = 0 := Multiset.le_zero.mp (h ▸ hb.takes.recycled)

theorem kvmMake_recycled {k : Kernel} (hr : kvmMake cfg (frameAlloctorInit cfg b) = .ok k) :
    k.mem.recycled = 0 := by
  obtain ⟨⟨root, m⟩, h₁, hr⟩ := exists_of_bind_ok hr
  obtain ⟨m₁, h₂, hr⟩ := exists_of_bind_ok hr
  have hzero : (frameAlloctorInit cfg b).mem.recycled = 0 := rfl
  have hfresh := (kalloc_of_fresh hzero h₁).2.2
  have htable : Builds ⟨root⟩ m m₁ := Builds.refl.kvmMakeTable h₂
  exact (htable.procMapstacks (k := { frameAlloctorInit cfg b with
    mem := m₁, kernelPagetable := ⟨root⟩ }) hr).fresh hfresh

theorem kvminit_recycled {k : Kernel} (hr : kvminit cfg (frameAlloctorInit cfg b) = .ok k) :
    k.mem.recycled = 0 := by
  obtain ⟨k₁, h₁, hr⟩ := exists_of_bind_ok hr
  split at hr
  · cases hr
  · obtain rfl := Except.ok.inj hr
    have hmake := kvmMake_recycled h₁
    exact hmake

/-! ## The root of a table -/

section Root

variable {lo : ℕ} {m m' : Mem} {pt : PageTable} {X : Multiset ℕ} {v p : ℕ} {fl : Byte}

/-- What `find_pte_create` does to the root: nothing, or one link to the frame it takes first. -/
theorem findPteCreateFrom_root {i j : Fin 512} {js : List (Fin 512)} {n : ℕ} {q : PtePtr}
    (ha : Apart m (Radix.nodes pteFormat m.ram (js.length + 1) n))
    (hr : findPteCreateFrom i (j :: js) n m = .ok (q, m')) :
    (isValid (m.ram n i) = true ∧ m'.ram n = m.ram n) ∨
      (isValid (m.ram n i) = false ∧ ∃ f m₁, kalloc m = .ok (f, m₁) ∧
        m'.ram n = Function.update (m.ram n) i (new f pteV)) := by
  -- below the root only the frames of the child and new ones are written
  have hbelow : ∀ {m₁ : Mem}, Apart m₁ (Radix.nodes pteFormat m₁.ram (js.length + 1) n) →
      isValid (m₁.ram n i) = true →
      findPteCreateFrom j js (ppn (m₁.ram n i)) m₁ = .ok (q, m') → m'.ram n = m₁.ram n := by
    intro m₁ ha₁ hv h₁
    have hle : Radix.nodes pteFormat m₁.ram js.length (ppn (m₁.ram n i)) ≤
        Radix.nodes pteFormat m₁.ram (js.length + 1) n := Radix.child_le (F := pteFormat) hv
    obtain ⟨nt, hc⟩ := (findPteCreateFrom_spec (ha₁.mono hle)).of_ok h₁
    refine hc.grows.frame n (Radix.root_not_mem_child ha₁.nodup_left hv) fun hn => ?_
    exact ha₁.new_not_mem hc.grows hn Radix.root_mem_nodes
  rw [findPteCreateFrom] at hr
  split_ifs at hr with hv
  · exact .inl ⟨hv, hbelow ha hv hr⟩
  · rw [Bool.not_eq_true] at hv
    obtain ⟨⟨f, m₁⟩, hk, hr⟩ := exists_of_bind_ok hr
    obtain ⟨hg, hz⟩ := (kalloc_spec m).of_ok hk
    obtain ⟨hg₂, hN₂, -, -, hroot₂, -⟩ := created_link ha hv hg hz
    have hlt : f < 2 ^ 44 := ha.new_lt hg (Multiset.mem_singleton_self f)
    have hnf : n ≠ f := fun he =>
      ha.new_not_mem hg (Multiset.mem_singleton_self f) (he ▸ Radix.root_mem_nodes)
    refine .inr ⟨hv, f, m₁, hk, ?_⟩
    have hroot : m'.ram n = (m₁.store n i (new f pteV)).ram n := by
      refine hbelow ?_ ?_ hr
      · rw [hN₂, ← Multiset.singleton_add, add_comm]
        exact ha.grows hg₂
      · rw [hroot₂]
        exact valid_new hlt
    rw [hroot]
    funext x
    by_cases hx : x = i
    · subst hx
      rw [Mem.store_self, Function.update_self]
    · rw [Mem.store_self_of_ne hx, Function.update_of_ne hx,
        hg.frame n (Multiset.notMem_zero n) (by simpa using hnf)]

/-- What mapping a page does to the root. -/
theorem Sound.mapPerPage_root (h : Sound lo m pt X) (hr : pt.mapPerPage m v p fl = .ok m') :
    (isValid (m.ram pt.rootPpn (getPageOffset v).1) = true ∧
      m'.ram pt.rootPpn = m.ram pt.rootPpn) ∨
    (isValid (m.ram pt.rootPpn (getPageOffset v).1) = false ∧ ∃ f m₁,
      RiscvOs.kalloc m = .ok (f, m₁) ∧ m'.ram pt.rootPpn =
        Function.update (m.ram pt.rootPpn) (getPageOffset v).1 (new f pteV)) := by
  rw [PageTable.mapPerPage] at hr
  obtain ⟨⟨q, m₁⟩, hc, hr⟩ := exists_of_bind_ok hr
  obtain ⟨nt, hcr⟩ := (findPteCreate_spec h.wf).of_ok hc
  simp only at hr
  split_ifs at hr
  obtain rfl := Except.ok.inj hr
  -- the entry of the page is below the root
  have hne : pt.rootPpn ≠ q.1 := by
    have hw : Radix.walk pteFormat m₁.ram (getPageOffset v).1 (getPageOffset v).2 pt.rootPpn =
        some q := hcr.entry
    rw [show (getPageOffset v).2 = _ :: _ from rfl, Radix.walk] at hw
    split_ifs at hw with hv
    intro he
    have hn : (Radix.nodes pteFormat m₁.ram 2 pt.rootPpn).Nodup := hcr.wf.nodup_left
    exact Radix.root_not_mem_child hn hv (he ▸ Radix.walk_mem hw)
  rw [Mem.store_of_ne hne]
  rw [findPteCreate, show (getPageOffset v).2 = [_, _] from rfl] at hc
  refine findPteCreateFrom_root ?_ hc
  exact h.wf

theorem Sound.lookup_mapPerPage (h : Sound lo m pt X) (hv : v < 2 ^ 27) (hp : p < 2 ^ 44)
    (hr : pt.mapPerPage m v p fl = .ok m') :
    lookup m'.ram pt.rootPpn v = some (new p (pteV ||| fl)) := by
  have ht := pt.pageTree m
  cases hL : lookup m.ram pt.rootPpn v with
  | some e => exact ((PageTable.mapPerPage_of_mapped ht h.wf hv hL).of_ok hr).elim
  | none =>
    obtain ⟨nt, -, ht', -⟩ := (PageTable.mapPerPage_tree ht h.wf hv hL hp).of_ok hr
    rw [ht'.lookup v hv, Function.update_self]

end Root

/-! ## The first page of a program -/

/-- The frame after that of the page `v` is the table that the root has for the page. -/
def Behind (ram : ℕ → Fin 512 → Word) (root v : ℕ) : Prop :=
  ∃ e, lookup ram root v = some e ∧ ppn e + 1 < 2 ^ 44 ∧
    ram root (getPageOffset v).1 = new (ppn e + 1) pteV

theorem Extends.behind {m m' : Mem} {root v : ℕ} (h : Extends m m' root)
    (hb : Behind m.ram root v) : Behind m'.ram root v := by
  obtain ⟨e, he, hlt, hroot⟩ := hb
  refine ⟨e, h.lookup he, hlt, ?_⟩
  rw [h.keep root Radix.root_mem_nodes _ (by rw [hroot]; exact valid_new hlt), hroot]

/-- The tables of a page whose path is missing come after the page. -/
theorem Sound.loadPage_behind {lo : ℕ} {m m' : Mem} {pt : PageTable} {X : Multiset ℕ} {im : Image}
    {v offset : ℕ} {fl : Byte} (h : Sound lo m pt X) (hfresh : m.recycled = 0) (hv : v < 2 ^ 27)
    (hroot : isValid (m.ram pt.rootPpn (getPageOffset v).1) = false)
    (hr : RiscvOs.loadPage im pt fl offset (v * 4096) m = .ok m') :
    Behind m'.ram pt.rootPpn v := by
  obtain ⟨⟨f, m₁⟩, h₁, hr⟩ := exists_of_bind_ok hr
  obtain ⟨-, -, hr⟩ := exists_of_bind_ok hr
  obtain ⟨-, hcurrent, hfresh₁⟩ := kalloc_of_fresh hfresh h₁
  have hff : f ∈ X + {f} := Multiset.mem_add.mpr (.inr (Multiset.mem_singleton_self f))
  have hs₁ := (h.kalloc h₁).storeFrame hff (pageAt im.file offset)
  have hend := hs₁.end_le
  have hle := m₁.memoryAllocator.le
  have hlt : f + 1 ≤ 2 ^ 44 := hcurrent ▸ hle.trans hend
  have hva : virtAddrFromSizeT (v * 4096) = v * 4096 := by
    rw [virtAddrFromSizeT, Nat.mod_eq_of_lt (by omega)]
  have hpa : physAddrFromPhysPageNum f / 4096 = f := by
    rw [physAddrFromPhysPageNum_eq (by omega)]
    exact Nat.mul_div_cancel f (by decide)
  simp only [hva] at hr
  rw [PageTable.map_vpn hv, hpa] at hr
  have hroot₁ : (m₁.storeFrame f (pageAt im.file offset)).ram pt.rootPpn = m.ram pt.rootPpn := by
    obtain ⟨hg, -⟩ := (kalloc_spec m).of_ok h₁
    have hne : pt.rootPpn ≠ f := fun he => h.not_free Radix.root_mem_nodes
      (he ▸ Own.new_free hg (Multiset.mem_singleton_self f))
    rw [Mem.storeFrame_of_ne hne, hg.frame _ (Multiset.notMem_zero _) (by simpa using hne)]
  obtain ⟨hv₁, -⟩ | ⟨-, g, m₂, hg, hroot'⟩ := hs₁.mapPerPage_root hr
  · rw [hroot₁, hroot] at hv₁
    cases hv₁
  · obtain ⟨rfl, hcurrent', -⟩ := kalloc_of_fresh
      (m := m₁.storeFrame f (pageAt im.file offset)) hfresh₁ hg
    have hlt' : f + 1 < 2 ^ 44 := by
      have hle' := m₂.memoryAllocator.le
      have hend' := ((kalloc_spec _).of_ok hg).1.end_eq
      change _ = f + 1 at hcurrent
      change m₂.memoryAllocator.current = m₁.memoryAllocator.current + 1 at hcurrent'
      rw [hend'] at hle'
      have := hle'.trans hend
      omega
    have hppn : ppn (new f (pteV ||| fl)) = f := ppn_new (by omega) _
    refine ⟨_, hs₁.lookup_mapPerPage hv (by omega) hr, by rwa [hppn], ?_⟩
    rw [hroot', Function.update_self, hppn, ← hcurrent]
    rfl

/-- The first program header is one to load, with a page at the page number `v` of the lower
half. -/
structure FirstPage (file : ℕ → Byte) (v : ℕ) : Prop where
  phnum : 0 < (ehdrOf file).ePhnum
  load : (phdrOf file 0).pType = ptLoad
  vaddr : (phdrOf file 0).pVaddr = v * 4096
  pages : 0 < (phdrOf file 0).mapSize / pageSize
  lt : v < 511 * 2 ^ 18

theorem Sound.loadSegment_behind {lo : ℕ} {m m' : Mem} {pt : PageTable} {X : Multiset ℕ}
    {im : Image} {v ustack ustack' : ℕ} (h : Sound lo m pt X) (hfresh : m.recycled = 0)
    (hf : FirstPage im.file v)
    (hroot : isValid (m.ram pt.rootPpn (getPageOffset v).1) = false)
    (hr : RiscvOs.loadSegment im pt ustack m = .ok (ustack', m')) :
    Behind m'.ram pt.rootPpn v := by
  have hlt := hf.lt
  obtain ⟨⟨u, m₁⟩, h₁, hr⟩ := exists_of_bind_ok hr
  obtain ⟨⟨f, m₂⟩, h₂, hr⟩ := exists_of_bind_ok hr
  obtain ⟨m₃, h₃, hr⟩ := exists_of_bind_ok hr
  obtain ⟨-, rfl⟩ := Prod.mk.inj (Except.ok.inj hr)
  obtain ⟨n, hn⟩ := Nat.exists_eq_succ_of_ne_zero hf.phnum.ne'
  rw [hn, List.range_succ_eq_map, List.foldlM_cons] at h₁
  obtain ⟨s, h₀, h₁⟩ := exists_of_bind_ok h₁
  -- the first turn of the loop, and of the loop in it
  obtain ⟨-, -, h₀⟩ := exists_of_bind_ok h₀
  simp only [hf.load, if_true, hf.vaddr] at h₀
  obtain ⟨m₄, h₄, h₀⟩ := exists_of_bind_ok h₀
  obtain rfl := Except.ok.inj h₀
  obtain ⟨c, hc⟩ := Nat.exists_eq_succ_of_ne_zero hf.pages.ne'
  rw [hc] at h₄
  obtain ⟨m₅, h₅, h₄⟩ := exists_of_bind_ok h₄
  have hfirst := h.loadPage_behind hfresh (by omega) hroot h₅
  -- everything later only adds to the table
  have hrest : Builds pt m₅ m₃ :=
    ((Builds.loadPhdrs (s := (_, m₄)) (Builds.refl.loadPages h₄) h₁).alloc h₂).mapRange h₃
  exact (hrest.extends (h.loadPage h₅)).behind hfirst

/-! ## The first program -/

theorem procTable_root {lo : ℕ} {m m' : Mem} {X : Multiset ℕ} {pt : PageTable} {trapCx v : ℕ}
    (ho : Own lo m X) (hend : m.memoryAllocator.end_ ≤ 2 ^ 44) (hv : v < 511 * 2 ^ 18)
    (hr : procTable cfg m trapCx = .ok (pt, m')) :
    isValid (m'.ram pt.rootPpn (getPageOffset v).1) = false := by
  obtain ⟨⟨f, m₁⟩, h₁, hr⟩ := exists_of_bind_ok hr
  obtain ⟨m₂, h₂, hr⟩ := exists_of_bind_ok hr
  obtain ⟨m₃, h₃, hr⟩ := exists_of_bind_ok hr
  obtain ⟨rfl, rfl⟩ := Prod.mk.inj (Except.ok.inj hr)
  have hs₁ := sound_root ho hend h₁
  have hs₂ := hs₁.map h₂
  rw [PageTable.map_page (by decide) (by decide)] at h₂ h₃
  -- the two high pages have another entry of the root
  have hne : ∀ w, w / 2 ^ 18 = 511 → (getPageOffset v).1 ≠ (getPageOffset w).1 := by
    intro w hw he
    have := congrArg Fin.val he
    simp only [getPageOffset, Fin.val_ofNat] at this
    omega
  have hkeep : ∀ {m m' : Mem} {w p : ℕ} {fl : Byte}, Sound lo m ⟨f⟩ X → w / 2 ^ 18 = 511 →
      PageTable.mapPerPage m ⟨f⟩ w p fl = .ok m' →
      m'.ram f (getPageOffset v).1 = m.ram f (getPageOffset v).1 := by
    intro m m' w p fl hs hw hr
    obtain ⟨-, he⟩ | ⟨-, g, -, -, he⟩ := hs.mapPerPage_root hr
    · exact congrFun he _
    · exact (congrFun he _).trans (Function.update_of_ne (hne w hw) _ _)
  have hzero : m₁.ram f (getPageOffset v).1 = 0 := congrFun ((kalloc_spec m).of_ok h₁).2 _
  have h0 : isValid (0 : Word) = false := isValid_zero
  change isValid (m₃.ram f (getPageOffset v).1) = false
  rw [hkeep hs₂ (by decide) h₃, hkeep hs₁ (by decide) h₂, hzero, h0]

theorem loadApp_trace {k k' : Kernel} {app : App} (htop : k.top < maxTaskNum)
    (happ : cfg.apps.head? = some app) (hr : loadApp cfg b k = .ok k') :
    ∃ cx m₁ root m₂ u u' entry m, kalloc k.mem = .ok (cx, m₁) ∧
      procTable cfg m₁ (physAddrFromPhysPageNum cx) = .ok (⟨root⟩, m₂) ∧
      loadSegment (app.view b.toEnv) ⟨root⟩ u m₂ = .ok (u', m) ∧
      k' = appLoaded k cx root entry u' m := by
  rw [loadApp] at hr
  cases happs : cfg.apps with
  | nil =>
    rw [happs] at happ
    cases happ
  | cons a rest =>
    rw [happs] at happ
    obtain rfl : a = app := Option.some.inj happ
    simp only [happs] at hr
    obtain ⟨-, -, hr⟩ := exists_of_bind_ok hr
    obtain ⟨k₁, h₁, hr⟩ := exists_of_bind_ok hr
    obtain ⟨⟨u', m⟩, h₂, hr⟩ := exists_of_bind_ok hr
    rw [taskCreatePt, if_pos htop] at h₁
    obtain ⟨k₂, h₃, h₁⟩ := exists_of_bind_ok h₁
    obtain ⟨k₃, h₄, h₁⟩ := exists_of_bind_ok h₁
    obtain ⟨⟨cx, m₁⟩, hk, h₃⟩ := exists_of_bind_ok h₃
    obtain rfl := Except.ok.inj h₃
    obtain ⟨⟨⟨root⟩, m₂⟩, ht, h₄⟩ := exists_of_bind_ok h₄
    obtain rfl := Except.ok.inj h₄
    obtain rfl := Except.ok.inj h₁
    simp only [setTask_self] at ht h₂
    refine ⟨cx, m₁, root, m₂, _, u', (ehdrOf (a.view b.toEnv).file).eEntry, m, hk, ht, h₂, ?_⟩
    rw [← Except.ok.inj hr]
    simp only [appLoaded, loadedTask, Kernel.setTask, Function.update_self, Function.update_idem,
      App.view]

/-- The steps of boot. -/
theorem boot_trace {k : Kernel} {kont : Kont} (hr : boot cfg b = .ok (kont, k)) :
    ∃ kroot m₀ app cx m₁ root m₂ u u' entry m,
      kvminit cfg (frameAlloctorInit cfg b) = .ok (kernelReady cfg b kroot m₀) ∧
      cfg.apps.head? = some app ∧ kalloc m₀ = .ok (cx, m₁) ∧
      procTable cfg m₁ (physAddrFromPhysPageNum cx) = .ok (⟨root⟩, m₂) ∧
      loadSegment (app.view b.toEnv) ⟨root⟩ u m₂ = .ok (u', m) ∧
      k = booted cfg b kroot cx root entry u' m := by
  rw [boot] at hr
  obtain ⟨k₁, h₁, hr⟩ := exists_of_bind_ok hr
  obtain ⟨kroot, m₀, rfl, -⟩ := (kvminit_spec b).of_ok h₁
  obtain ⟨-, -, hr⟩ := exists_of_bind_ok hr
  obtain ⟨k₂, h₂, hr⟩ := exists_of_bind_ok hr
  have hpi : procinit (kernelReady cfg b kroot m₀) = kernelReady cfg b kroot m₀ := rfl
  rw [hpi] at h₂
  have htop : (kernelReady cfg b kroot m₀).top < maxTaskNum := Nat.zero_lt_succ _
  cases happ : cfg.apps.head? with
  | none =>
    rw [loadApp, List.head?_eq_none_iff.mp happ] at h₂
    cases h₂
  | some app =>
    obtain ⟨cx, m₁, root, m₂, u, u', entry, m, hk, ht, hl, rfl⟩ := loadApp_trace htop happ h₂
    rw [startTask_booted] at hr
    obtain ⟨-, rfl⟩ := Prod.mk.inj (Except.ok.inj hr)
    exact ⟨kroot, m₀, app, cx, m₁, root, m₂, u, u', entry, m, h₁, rfl, hk, ht, hl, rfl⟩

/-- **The first program finds the allocator without a recycled frame.** -/
theorem boot_recycled {k : Kernel} {kont : Kont} (hr : boot cfg b = .ok (kont, k)) :
    k.mem.recycled = 0 := by
  obtain ⟨kroot, m₀, app, cx, m₁, root, m₂, u, u', entry, m, h₁, -, hk, ht, hl, rfl⟩ :=
    boot_trace hr
  have hfresh : m₀.recycled = 0 := kvminit_recycled h₁
  obtain ⟨root', m', hroot', -, hb⟩ := Builds.procTable ht
  have hfresh₂ : m₂.recycled = 0 :=
    hb.fresh (kalloc_of_fresh (kalloc_of_fresh hfresh hk).2.2 hroot').2.2
  exact (Builds.refl.loadSegment hl).fresh hfresh₂

/-- Behind the frame of the first page of the first program is the table that leads to it. -/
theorem boot_behind {k : Kernel} {kont : Kont} {app : App} {v : ℕ} (hr : boot cfg b = .ok (kont, k))
    (happ : cfg.apps.head? = some app) (hf : FirstPage (app.view b.toEnv).file v) :
    Behind k.mem.ram (k.tasks 0).pagetable.rootPpn v := by
  obtain ⟨kroot, m₀, app', cx, m₁, root, m₂, u, u', entry, m, h₁, happ', hk', ht, hl, rfl⟩ :=
    boot_trace hr
  obtain rfl : app' = app := Option.some.inj (happ'.symm.trans happ)
  have hfresh : m₀.recycled = 0 := kvminit_recycled h₁
  obtain ⟨-, -, -, hm, -⟩ := (kvminit_spec b).of_ok h₁
  obtain ⟨hg, -⟩ := (kalloc_spec m₀).of_ok hk'
  have hend₀ : m₀.memoryAllocator.end_ ≤ 2 ^ 44 := hm.end_eq.trans_le (by decide)
  have hend₁ : m₁.memoryAllocator.end_ ≤ 2 ^ 44 := hg.end_eq.trans_le hend₀
  have ho : Own cfg.lo m₁ (0 + {cx}) := (hm.own.mono (Multiset.zero_le _)).grows hg
  have hs := sound_procTable ho hend₁ ht
  obtain ⟨root', m', hroot', hpt, hb⟩ := Builds.procTable ht
  have hfresh₂ : m₂.recycled = 0 :=
    hb.fresh (kalloc_of_fresh (kalloc_of_fresh hfresh hk').2.2 hroot').2.2
  have hbehind := hs.loadSegment_behind hfresh₂ hf (procTable_root ho hend₁ hf.lt ht) hl
  have hs' := hs.loadSegment hl
  have hcx : cx < 2 ^ 44 := (hm.apart.new_lt hg (Multiset.mem_singleton_self cx))
  have hcxpa : physAddrFromPhysPageNum cx / pageSize = cx := by
    rw [physAddrFromPhysPageNum_eq hcx, pageSize_eq]
    exact Nat.mul_div_cancel cx (by decide)
  have hmem : (booted cfg b kroot cx root entry u' m).mem = m.storeFrame cx
      (initTrap cfg (m.ram cx) kroot entry u' (b.cpu.sstatus &&& 0xfffffeff)) := by
    simp only [booted, hcxpa]
    exact appTrap_eq ..
  have hpt₀ : ((booted cfg b kroot cx root entry u' m).tasks 0).pagetable.rootPpn = root := by
    simp only [booted, Function.update_self]
    rfl
  rw [hpt₀, hmem]
  -- the trap page is not part of the table
  refine (Extends.of_agree fun g hg' => ?_).behind hbehind
  refine Mem.storeFrame_of_ne (fun he : g = cx => hs'.own.not_mem_right hg' ?_) _
  rw [he, zero_add]
  exact Multiset.mem_singleton_self cx

/-- The first program, when it starts. -/
theorem Bootable.first_behind {app : App} {n v : ℕ} (hb : Bootable cfg b app n) (env : Env cfg)
    (hf : FirstPage (app.view b.toEnv).file v) :
    ∃ k, run cfg [.resume env] (start cfg b) = .running .user k ∧
      Health cfg .user k n (imageTop (app.view b.toEnv).file / 4096) ∧ k.sched = initSched ∧
      (∀ v < trapframeVpn, k.pages 0 v = imagePages (app.view b.toEnv).file v) ∧
      Behind k.mem.ram (k.tasks 0).pagetable.rootPpn v := by
  obtain ⟨k, hrun, h, hs, hpages⟩ := hb.first env
  refine ⟨k, hrun, h, hs, hpages, ?_⟩
  obtain ⟨k₀, hstart, h₀, -, -⟩ := Health.start hb
  rw [hstart] at hrun
  obtain ⟨k₁, hret, hr⟩ := exists_of_bind_ok (ofExcept_running hrun)
  obtain ⟨-, rfl⟩ := Prod.mk.inj (Except.ok.inj hr)
  obtain ⟨c, rfl⟩ := ((trapReturn_spec h₀.mem h₀.init h₀.stack.onStack.satp).of_ok hret).shape
  cases hboot : boot cfg b with
  | error e =>
    rw [start, hboot] at hstart
    cases hstart
  | ok r =>
    rw [start, hboot] at hstart
    obtain ⟨-, rfl⟩ := Sys.running.inj hstart
    have hbehind := boot_behind hboot hb.head hf
    exact hbehind

/-! ## The small system -/

theorem tiny_firstPage (fill : Byte) :
    FirstPage (tinyApp.view (tinyStart fill).toEnv).file 0 where
  phnum := by
    rw [tiny_ehdr]
    decide
  load := by
    rw [tiny_phdr]
  vaddr := by
    rw [tiny_phdr]
  pages := by
    rw [tiny_phdr]
    decide
  lt := by decide

theorem tiny_first_behind (fill : Byte) :
    ∃ es k, run tiny es (start tiny (tinyStart fill)) = .running .user k ∧
      Health tiny .user k 32000 4 ∧ k.sched = initSched ∧
      (∀ v < trapframeVpn, k.pages 0 v = imagePages (tinyApp.view (tinyStart fill).toEnv).file v) ∧
      Behind k.mem.ram (k.tasks 0).pagetable.rootPpn 0 := by
  obtain ⟨k, hrun, h, hs, hpages, hbehind⟩ :=
    (tiny_bootable fill).first_behind (tinyStart fill).toEnv (tiny_firstPage fill)
  rw [tiny_imageTop] at h
  exact ⟨_, k, hrun, h, hs, hpages, hbehind⟩

end RiscvOs
