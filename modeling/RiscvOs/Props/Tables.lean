import RiscvOs.Inv.Tables
import RiscvOs.Load.Contents

/-!
# Page tables

What the functions of `address.c` do to a well-formed table, through the pointers `find_pte`
returns.

* **`find_pte_create_adds_levels`**: `find_pte_create` adds the missing levels and nothing else.
* **`map_requested_range`**: `PageTable_map` maps the requested pages and no others.
* **`unmap_mapped`**: `PageTable_unmap` stops on every page that is mapped. It asserts that the
  entry is not valid, and `find_pte` returns valid entries only.
* **`walks_agree`**: the Sv39 walk of a table the kernel built finds what `find_pte` finds. By
  `Reachable.built` the tables of every reachable state are such tables.
* **`kernel_address_space`**: what `kvm_make` maps, page by page.
-/

set_option autoImplicit false

namespace RiscvOs

open PageTableEntry

/-! ## A table to try them on -/

/-- Zeroed memory with the frames from `0x80301` on free. -/
def rootOnly : Mem where
  ram := fun _ _ => 0
  memoryAllocator := stackFrameAllocatorNew 0x80301 0x80400 (by decide)
  console := []

/-- A table without an entry. -/
def rootTable : PageTable := ⟨0x80300⟩

theorem rootOnly_not_valid (j : Fin 512) :
    isValid (rootOnly.ram rootTable.rootPpn j) = false := isValid_zero

theorem rootOnly_findPte (v : ℕ) : findPte rootOnly.ram rootTable v = none :=
  findPte_eq_none_iff.mpr (Radix.get_of_empty rootOnly_not_valid)

theorem rootOnly_wf : WfTable rootOnly rootTable := by
  have hfree : rootOnly.free = (Finset.Ico 0x80301 0x80400).val := zero_add _
  have hN : tableFrames rootOnly.ram rootTable.rootPpn = {0x80300} :=
    Radix.nodes_of_empty rootOnly_not_valid
  rw [WfTable, hN]
  refine ⟨?_, fun f hf => ?_⟩
  · rw [hfree, Multiset.singleton_add, Multiset.nodup_cons]
    exact ⟨by rw [Finset.mem_val, Finset.mem_Ico]; decide, Finset.nodup _⟩
  · rw [hfree, Finset.mem_val, Finset.mem_Ico] at hf
    omega

theorem rootOnly_card : rootOnly.free.card = 0xff := by
  rw [Mem.card_free]
  rfl

/-! ## `find_pte_create` -/

section

variable {m : Mem} {pt : PageTable}

/-- **`find_pte_create` only adds empty levels.** -/
theorem find_pte_create_adds_levels {v : ℕ} (h : WfTable m pt) (hv : v < 2 ^ 27)
    (hfree : missingLevels m.ram pt.rootPpn v ≤ m.free.card) :
    ∃ p m' new, findPteCreate m pt v = .ok (p, m') ∧
      -- the frames taken are as many as levels were missing, and become the table's
      m.free = new + m'.free ∧ new.card = missingLevels m.ram pt.rootPpn v ∧
      tableFrames m'.ram pt.rootPpn = tableFrames m.ram pt.rootPpn + new ∧
      (∀ w < 2 ^ 27, findPte m'.ram pt w = findPte m.ram pt w) ∧ WfTable m' pt ∧
      (∀ q, findPte m.ram pt v = some q → p = q ∧ m' = m) ∧
      findPteCreate m' pt v = .ok (p, m') ∧
      -- a later call for another page leads elsewhere, and leaves this entry where it is
      ∀ w < 2 ^ 27, w ≠ v → ∀ q m'', findPteCreate m' pt w = .ok (q, m'') →
        q ≠ p ∧ findPteCreate m'' pt v = .ok (p, m'') := by
  obtain ⟨⟨p, m'⟩, hr, new, hc⟩ := (findPteCreate_spec (v := v) h).exists_ok fun e he => by omega
  refine ⟨p, m', new, hr, hc.grows.free, hc.card, hc.frames, hc.findPte, hc.wf, fun q hq => ?_,
    findPteCreate_of_entryAt hc.entry, fun w hw hwv q m'' hr' => ?_⟩
  · have := hr.symm.trans (findPteCreate_of_entryAt (entryAt_of_findPte hq))
    exact Prod.mk.inj (Except.ok.inj this)
  · obtain ⟨new', hc'⟩ := (findPteCreate_spec (v := w) hc.wf).of_ok hr'
    have hp : entryAt m''.ram pt v = some p := hc'.keep v p hc.entry
    refine ⟨fun he => hwv ?_, findPteCreate_of_entryAt hp⟩
    exact hc'.wf.entryAt_injective hv hw hp (he ▸ hc'.entry)

end

theorem find_pte_create_adds_levels_first : ∃ p m', findPteCreate rootOnly rootTable 0x12345 =
    .ok (p, m') ∧ rootOnly.free.card = 2 + m'.free.card := by
  have hmiss : missingLevels rootOnly.ram rootTable.rootPpn 0x12345 = 2 := by rfl
  obtain ⟨p, m', new, hr, hfree, hcard, -⟩ := find_pte_create_adds_levels (v := 0x12345) rootOnly_wf
    (by decide) (by rw [hmiss, rootOnly_card]; decide)
  refine ⟨p, m', hr, ?_⟩
  rw [hfree, Multiset.card_add, hcard, hmiss]

/-! ## `PageTable_map` -/

/-- **`PageTable_map` maps exactly the requested range.** It stops only when the allocator runs out
of frames, and a frame for each table boundary in the range is enough. -/
theorem map_requested_range {m : Mem} {pt : PageTable} {va pa size : ℕ} {fl : Byte}
    (h : WfTable m pt) (hsize : 0 < size) (hva : va + size ≤ 2 ^ 39)
    (hpa : pa + size ≤ 2 ^ 56 - 4096)
    (hun : ∀ v, va / 4096 ≤ v → v ≤ (va + size - 1) / 4096 → findPte m.ram pt v = none) :
    (missingLevels m.ram pt.rootPpn (va / 4096) + span (va / 4096) ((va + size - 1) / 4096) ≤
      m.free.card → pt.map m va pa size fl ≠ .error (.panic "memory is full")) ∧
    (pt.map m va pa size fl ≠ .error (.panic "memory is full") →
      ∃ m' new, pt.map m va pa size fl = .ok m' ∧
        (∀ v, va / 4096 ≤ v → v ≤ (va + size - 1) / 4096 → ∃ p, findPte m'.ram pt v = some p ∧
          ppn (m'.ram p.1 p.2) = pa / 4096 + (v - va / 4096) ∧
          flags (m'.ram p.1 p.2) = pteV ||| fl) ∧
        (∀ v < 2 ^ 27, ¬ (va / 4096 ≤ v ∧ v ≤ (va + size - 1) / 4096) →
          pteAt m'.ram pt v = pteAt m.ram pt v) ∧
        m.free = new + m'.free ∧
        (∀ f, f ∉ tableFrames m.ram pt.rootPpn → f ∉ new → m'.ram f = m.ram f) ∧
        WfTable m' pt ∧
        (va % 4096 = pa % 4096 → ∀ o < size, ∃ p,
          findPte m'.ram pt ((va + o) / 4096) = some p ∧
          ptePa (m'.ram p.1 p.2) + (va + o) % 4096 = pa + o)) := by
  have hspec : Outcome (pt.map m va pa size fl) _ _ :=
    PageTable.map_tree (pt.pageTree m) h hsize hva hpa
      fun x hx hx' => findPte_eq_none_iff.mp (hun x hx hx')
  refine ⟨fun hfree he => ?_, fun hne => ?_⟩
  · have := (hspec.of_error he).2
    omega
  cases hr : pt.map m va pa size fl with
  | error e => exact absurd (by rw [hr, (hspec.of_error hr).1]) hne
  | ok m' =>
    obtain ⟨new, hg, ht, -, -⟩ := hspec.of_ok hr
    have hin : ∀ v, va / 4096 ≤ v → v ≤ (va + size - 1) / 4096 → ∃ p, findPte m'.ram pt v = some p ∧
        m'.ram p.1 p.2 = PageTableEntry.new (pa / 4096 + (v - va / 4096)) (pteV ||| fl) := by
      intro v hv hv'
      have hl := ht.lookup v (by omega)
      rw [PageTable.mapped, if_pos (by omega), ← pteAt_eq_lookup, pteAt,
        Option.map_eq_some_iff] at hl
      exact hl
    refine ⟨m', new, rfl, fun v hv hv' => ?_, fun v hv hv' => ?_, hg.free, hg.frame,
      ht.wfTable (h.grows hg), fun hcong o ho => ?_⟩
    · obtain ⟨p, hp, he⟩ := hin v hv hv'
      refine ⟨p, hp, ?_, ?_⟩
      · rw [he, ppn_new (by omega)]
      · rw [he, flags_new (by omega)]
    · rw [pteAt_eq_lookup, pteAt_eq_lookup, ht.lookup v hv, PageTable.mapped, if_neg (by omega)]
    · obtain ⟨p, hp, he⟩ := hin ((va + o) / 4096) (by omega) (by omega)
      refine ⟨p, hp, ?_⟩
      rw [ptePa, he, ppn_new (by omega)]
      omega

/-- Two pages from an address inside a page. -/
theorem map_requested_range_tiny : ∃ m', rootTable.map rootOnly 0x1800 0x80500800 0x1000 pteR =
    .ok m' ∧ ∃ p, findPte m'.ram rootTable 2 = some p ∧ ppn (m'.ram p.1 p.2) = 0x80501 := by
  have hmiss : missingLevels rootOnly.ram rootTable.rootPpn (0x1800 / 4096) = 2 := by rfl
  obtain ⟨hfree, hmap⟩ := @map_requested_range rootOnly rootTable 0x1800 0x80500800 0x1000 pteR
    rootOnly_wf (by decide) (by decide) (by decide) fun v _ _ => rootOnly_findPte v
  obtain ⟨m', new, hr, hin, -⟩ := hmap (hfree (by rw [hmiss, rootOnly_card]; decide))
  obtain ⟨p, hp, he, -⟩ := hin 2 (by decide) (by decide)
  exact ⟨m', hr, p, hp, he⟩

/-! ## `PageTable_unmap` -/

/-- **`PageTable_unmap` never completes on a mapped page.** -/
theorem unmap_mapped {m : Mem} {pt : PageTable} {v : ℕ} (h : findPte m.ram pt v ≠ none) :
    pt.unmap m v = .error (.assertion "!PageTableEntry_is_valid(*pte_ptr)") := by
  obtain ⟨p, hp⟩ := Option.ne_none_iff_exists'.mp h
  simp only [PageTable.unmap, hp, isValid_of_findPte hp, if_true]

/-- A page that was just mapped. -/
theorem unmap_mapped_tiny : ∃ m', rootTable.mapPerPage rootOnly 5 0x80500 pteR = .ok m' ∧
    findPte m'.ram rootTable 5 ≠ none ∧
    rootTable.unmap m' 5 = .error (.assertion "!PageTableEntry_is_valid(*pte_ptr)") := by
  have hm : ∃ m', rootTable.mapPerPage rootOnly 5 0x80500 pteR = .ok m' ∧
      findPte m'.ram rootTable 5 ≠ none := ⟨_, rfl, by decide⟩
  obtain ⟨m', hm', hf⟩ := hm
  exact ⟨m', hm', hf, unmap_mapped hf⟩

/-- Mapping a page and unmapping it stops the kernel. -/
theorem map_unmap_stops : (rootTable.mapPerPage rootOnly 5 0x80500 pteR >>= fun m =>
    rootTable.unmap m 5) = .error (.assertion "!PageTableEntry_is_valid(*pte_ptr)") := by
  rfl

/-! ## The hardware walk -/

/-- The page number of an address. -/
def vpnOf (va : Word) : ℕ := virtPageNumFromVirtAddr (virtAddrFromSizeT va.toNat)

/-- **The software walk agrees with the Sv39 walk.** -/
theorem walks_agree {cfg : Config} {m : Mem} {pt : PageTable} (h : Built cfg m pt)
    (hleaf : ∀ v < 2 ^ 27, ∀ p, findPte m.ram pt v = some p → IsLeaf (m.ram p.1 p.2)) {va : Word}
    (hc : Canonical va) :
    -- no leaf above the last level
    (∀ e level, sv39Walk m.ram (getPageOffset (vpnOf va)).1 (getPageOffset (vpnOf va)).2
      pt.rootPpn = some (e, level) → level = 0) ∧
    (translate m.ram (makeSatp pt.rootPpn) va ≠ none ↔ findPte m.ram pt (vpnOf va) ≠ none) ∧
    ∀ p, findPte m.ram pt (vpnOf va) = some p →
      ∃ q, translate m.ram (makeSatp pt.rootPpn) va = some (q, m.ram p.1 p.2) ∧
        ∀ k : Kernel, k.mem = m → k.cur.pagetable = pt →
          uptrToKptr k va = .ok (q * 4096 + va.toNat % 4096) := by
  have hs := h.sound
  have hvpn : vpnOf va < 2 ^ 27 := by
    rw [vpnOf, virtPageNumFromVirtAddr, virtAddrFromSizeT, pageSize_eq]
    omega
  have htr : ∀ p, findPte m.ram pt (vpnOf va) = some p →
      translate m.ram (makeSatp pt.rootPpn) va = some (ppn (m.ram p.1 p.2), m.ram p.1 p.2) :=
    fun p hp => translate_of_lookup hs.links hs.root_lt hc (findPte_eq_some hp).2
      (hleaf _ hvpn p hp)
  refine ⟨fun e level hw => ?_, ⟨fun hne hf => ?_, fun hne hf => ?_⟩, fun p hp => ?_⟩
  · have hl :
        Radix.Interior pteFormat IsLink m.ram (getPageOffset (vpnOf va)).2.length pt.rootPpn :=
      hs.links
    exact (get_of_sv39Walk hl hw).1
  · obtain ⟨⟨q, e⟩, ht⟩ := Option.ne_none_iff_exists'.mp hne
    have hl := (lookup_of_translate hs.links hs.root_lt ht).1
    rw [show va.toNat % 2 ^ 39 / 4096 = vpnOf va from rfl, findPte_eq_none hf] at hl
    cases hl
  · obtain ⟨p, hp⟩ := Option.ne_none_iff_exists'.mp hne
    rw [htr p hp] at hf
    cases hf
  · refine ⟨ppn (m.ram p.1 p.2), htr p hp, fun k hm hpt => ?_⟩
    subst hm hpt
    have hp' : findPte k.mem.ram k.cur.pagetable
        (virtPageNumFromVirtAddr (virtAddrFromSizeT va.toNat)) = some p := hp
    simp only [uptrToKptr, hp', ptePa]
    rfl

/-- All pages of the small system's program can be read. -/
theorem tiny_pages_readable {env : Env tiny} {v : ℕ} {q : Byte × Frame}
    (hq : imagePages (tinyApp.view env).file v = some q) : (q.1 &&& pteR != 0) = true := by
  by_cases hv : v < 2
  · rw [tiny_imagePages env hv] at hq
    rw [← Option.some.inj hq]
    exact (by decide : ((pteV ||| (pteR ||| pteW ||| pteX ||| pteU)) &&& pteR != 0) = true)
  · by_cases hstack : v = stackPage (tinyApp.view env).file
    · rw [hstack, imagePages_stack] at hq
      rw [← Option.some.inj hq]
      decide
    · rw [imagePages_eq_none hstack fun i hi _ hc => ?_] at hq
      · cases hq
      · rw [tiny_ehdr] at hi
        obtain rfl := Nat.lt_one_iff.mp hi
        rw [tiny_phdr] at hc
        exact hv hc.2

/-- The trap page of the first program. -/
theorem walks_agree_trapframe : ∃ (k : Kernel) (p : PtePtr), Reachable tiny (.running .user k) ∧
    findPte k.mem.ram k.cur.pagetable (vpnOf (BitVec.ofNat 64 trapframeVa)) = some p ∧
    translate k.mem.ram (makeSatp k.cur.pagetable.rootPpn) (BitVec.ofNat 64 trapframeVa) ≠
      none := by
  obtain ⟨es, k, hrun, h, hs, hpages⟩ := tiny_first 0
  have hreach : Reachable tiny (.running .user k) := ⟨_, es, hrun⟩
  have hb : Built tiny k.mem k.cur.pagetable :=
    hreach.built tiny_wf (.inr ⟨k.current, h.init, rfl⟩)
  have hcur : k.current = 0 := congrArg Sched.current hs
  have hvpn : vpnOf (BitVec.ofNat 64 trapframeVa) = trapframeVpn := by decide
  have hp : findPte k.mem.ram k.cur.pagetable (vpnOf (BitVec.ofNat 64 trapframeVa)) ≠ none := by
    rw [hvpn, ne_eq, findPte_eq_none_iff, Kernel.cur, (h.mem.task _ h.init).space.trapframe]
    exact Option.some_ne_none _
  obtain ⟨p, hp'⟩ := Option.ne_none_iff_exists'.mp hp
  refine ⟨k, p, hreach, hp', (walks_agree hb (fun v hv p hf => ?_) ?_).2.1.mpr hp⟩
  · have hl := (findPte_eq_some hf).2
    obtain ⟨hlt, -⟩ | ⟨-, he⟩ | ⟨-, he⟩ := h.mem.lookup_cases h.init hv hl
    · have hbound := (h.mem.task _ h.init).space.bound
      have hpage := hpages v (hlt.trans_le hbound)
      rw [← hcur, Kernel.pages, ← Kernel.cur, pagesOf, hl] at hpage
      have hr := tiny_pages_readable hpage.symm
      exact ⟨.inl hr, .inl hr⟩
    · rw [he]
      exact MemInv.isLeaf_new (h.mem.cx_lt h.init) (by decide)
    · rw [he]
      exact MemInv.isLeaf_new tiny.trampolinePpn_lt (by decide)
  · exact canonical_of_ge (by decide)

/-! ## `kvm_make` -/

namespace KernelTable

variable {cfg : Config} {ram : ℕ → Frame} {root : ℕ} (h : KernelTable cfg ram root)

include h

/-- The stacks are two pages apart. -/
theorem guard (p : Slot) : lookup ram root (kstackVpn p - 1) = none := by
  have hp := kstackVpn_eq p
  have hlt : p.val < 10 := p.isLt
  have htop : phystop / 4096 + 21 < 2 ^ 27 := by decide
  have ht : trampolineVpn = 2 ^ 27 - 1 := by decide
  refine h.other _ (by omega) (by omega) (by omega) fun q => ?_
  have hq := kstackVpn_eq q
  have hlt' : q.val < 10 := q.isLt
  omega

theorem trapframe : lookup ram root trapframeVpn = none := by
  refine h.other _ (by decide) (by decide) (by decide) ?_
  decide

/-- A mapping is for the text or the data. -/
theorem entry_cases {v : ℕ} (hv : v < 2 ^ 27) {e : Word} (he : lookup ram root v = some e) :
    ∃ f < 2 ^ 44, e = PageTableEntry.new f (pteV ||| (pteR ||| pteX)) ∨
      e = PageTableEntry.new f (pteV ||| (pteR ||| pteW)) := by
  by_cases htext : kernbase / 4096 ≤ v ∧ v < cfg.etext / 4096
  · rw [h.text v htext.1 htext.2] at he
    exact ⟨v, by omega, .inl (Option.some.inj he).symm⟩
  by_cases hdata : cfg.etext / 4096 ≤ v ∧ v < phystop / 4096
  · rw [h.data v hdata.1 hdata.2] at he
    exact ⟨v, by omega, .inr (Option.some.inj he).symm⟩
  by_cases htr : v = trampolineVpn
  · rw [htr, h.trampoline] at he
    exact ⟨_, cfg.trampolinePpn_lt, .inl (Option.some.inj he).symm⟩
  by_cases hst : ∃ p, v = kstackVpn p
  · obtain ⟨p, rfl⟩ := hst
    obtain ⟨f, hf, hl⟩ := h.stack p
    rw [hl] at he
    exact ⟨f, hf, .inr (Option.some.inj he).symm⟩
  · rw [h.other v hv (by omega) htr fun p hp => hst ⟨p, hp⟩] at he
    cases he

/-- No page is both writable and executable. -/
theorem not_writable_executable {v : ℕ} (hv : v < 2 ^ 27) {e : Word}
    (he : lookup ram root v = some e) : ¬ (has e pteW = true ∧ has e pteX = true) := by
  obtain ⟨f, hf, rfl | rfl⟩ := h.entry_cases hv he
  · rw [has_new hf, has_new hf]
    decide
  · rw [has_new hf, has_new hf]
    decide

/-- The frames of the allocator are data of the kernel. -/
theorem allocatable {f : ℕ} (hf : cfg.lo ≤ f) (hf' : f < frameEnd) :
    lookup ram root f = some (PageTableEntry.new f (pteV ||| (pteR ||| pteW))) := by
  have hl := cfg.layout
  have hp : phystop < 2 ^ 56 := by decide
  have he : frameEnd = phystop / 4096 := by decide
  rw [Config.lo, ceilPhys, physAddrFromSizeT, pageSize_eq, Nat.mod_eq_of_lt (by omega)] at hf
  exact h.data f (by omega) (by omega)

end KernelTable

/-- The frames of the kernel stacks, one by one. -/
theorem kernelStackFrames_eq {k : Kernel} {stack : Slot → ℕ}
    (hs : ∀ p, lookup k.mem.ram k.kernelPagetable.rootPpn (kstackVpn p) =
      some (PageTableEntry.new (stack p) (pteV ||| (pteR ||| pteW))))
    (hlt : ∀ p, stack p < 2 ^ 44) : k.kernelStackFrames = Finset.univ.val.map stack := by
  have hleaf : ∀ p, leaf (lookup k.mem.ram k.kernelPagetable.rootPpn) (kstackVpn p) =
    {stack p} := by
    intro p
    rw [leaf, hs p, Option.elim_some, ppn_new (hlt p)]
  rw [Kernel.kernelStackFrames, Finset.sum_congr rfl fun p _ => hleaf p, Finset.sum,
    ← Multiset.sum_map_singleton (Finset.univ.val.map stack), Multiset.map_map]
  rfl

/-- **The kernel's address space.** -/
theorem kernel_address_space {cfg : Config} (b : Start cfg) :
    (167 ≤ frameEnd - cfg.lo →
      kvmMake cfg (frameAlloctorInit cfg b) ≠ .error (.panic "memory is full")) ∧
    (kvmMake cfg (frameAlloctorInit cfg b) ≠ .error (.panic "memory is full") →
      ∃ (k : Kernel) (stack : Slot → ℕ), kvmMake cfg (frameAlloctorInit cfg b) = .ok k ∧
        let entry := pteAt k.mem.ram k.kernelPagetable
        (∀ v, kernbase / 4096 ≤ v → v < cfg.etext / 4096 →
          entry v = some (PageTableEntry.new v (pteV ||| (pteR ||| pteX)))) ∧
        (∀ v, cfg.etext / 4096 ≤ v → v < phystop / 4096 →
          entry v = some (PageTableEntry.new v (pteV ||| (pteR ||| pteW)))) ∧
        entry trampolineVpn =
          some (PageTableEntry.new cfg.trampolinePpn (pteV ||| (pteR ||| pteX))) ∧
        -- a frame of its own for each kernel stack
        (∀ p, entry (kstackVpn p) =
          some (PageTableEntry.new (stack p) (pteV ||| (pteR ||| pteW)))) ∧
        Function.Injective stack ∧
        (∀ p, cfg.lo ≤ stack p ∧ stack p < frameEnd ∧ stack p ∉ k.mem.free ∧
          stack p ∉ tableFrames k.mem.ram k.kernelPagetable.rootPpn) ∧
        -- nothing else
        (∀ v < 2 ^ 27, ¬ (kernbase / 4096 ≤ v ∧ v < phystop / 4096) → v ≠ trampolineVpn →
          (∀ p, v ≠ kstackVpn p) → entry v = none) ∧
        (∀ p, entry (kstackVpn p - 1) = none) ∧ entry trapframeVpn = none ∧
        (∀ v < 2 ^ 27, ∀ e, entry v = some e → ¬ (has e pteW = true ∧ has e pteX = true)) ∧
        -- the frames of the allocator
        ∀ f, cfg.lo ≤ f → f < frameEnd →
          entry f = some (PageTableEntry.new f (pteV ||| (pteR ||| pteW)))) := by
  have hspec := kvmMake_spec b
  refine ⟨fun hlo he => ?_, fun hne => ?_⟩
  · have := (hspec.of_error he).2
    omega
  cases hr : kvmMake cfg (frameAlloctorInit cfg b) with
  | error e => exact absurd (by rw [hr, (hspec.of_error hr).1]) hne
  | ok k =>
    obtain ⟨root, m, rfl, h, -⟩ := hspec.of_ok hr
    choose stack hlt hstack using h.kernel.stack
    have hframes := kernelStackFrames_eq hstack hlt
    have hown : Own cfg.lo m (tableFrames m.ram root + Finset.univ.val.map stack) := by
      refine h.own.mono ?_
      rw [Kernel.owned, hframes]
      exact Multiset.le_add_right _ _
    refine ⟨_, stack, rfl, ?_⟩
    simp only [pteAt_eq_lookup]
    refine ⟨h.kernel.text, h.kernel.data, h.kernel.trampoline, hstack, ?_, fun p => ?_,
      h.kernel.other, h.kernel.guard, h.kernel.trapframe,
      fun v hv e he => h.kernel.not_writable_executable hv he,
      fun f hf hf' => h.kernel.allocatable hf hf'⟩
    · have hnd := (Multiset.nodup_add.mp hown.nodup).2.1
      exact fun p q hpq => Multiset.inj_on_of_nodup_map hnd p (Finset.mem_univ p) q
        (Finset.mem_univ q) hpq
    · have hp : stack p ∈ Finset.univ.val.map stack :=
        Multiset.mem_map_of_mem stack (Finset.mem_univ p)
      have hI := hown.mem_Ico (Multiset.mem_add.mpr (.inr hp))
      have hle := m.memoryAllocator.le
      have hend : m.memoryAllocator.end_ = frameEnd := h.end_eq
      exact ⟨hI.1, by omega, hown.not_mem_free (Multiset.mem_add.mpr (.inr hp)),
        fun hN => hown.not_mem_right hN hp⟩

/-- The first kernel stack of a small image, above its guard page. -/
theorem kernel_address_space_tiny : ∃ k,
    kvmMake tiny (frameAlloctorInit tiny (tinyStart 0)) = .ok k ∧
    pteAt k.mem.ram k.kernelPagetable (kstackVpn 0) ≠ none ∧
    pteAt k.mem.ram k.kernelPagetable (kstackVpn 0 - 1) = none := by
  obtain ⟨henough, hmade⟩ := kernel_address_space (tinyStart 0)
  obtain ⟨k, stack, hr, -, -, -, hstack, -, -, -, hguard, -⟩ := hmade (henough (by decide))
  refine ⟨k, hr, ?_, hguard 0⟩
  rw [hstack 0]
  exact Option.some_ne_none _

end RiscvOs
