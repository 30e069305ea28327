import RiscvOs.Inv.Memory

/-!
# The kernel's address space

`kvm_make` maps the kernel onto itself, the trampoline, and a page with a guard below it for every
kernel stack.

* `procMapstack_spec`: one kernel stack.
* **`kvmMake_spec`**: the table of `KernelTable`, in new frames.
-/

set_option autoImplicit false

namespace RiscvOs

open PageTableEntry

variable {cfg : Config}

/-! ## The pages of the kernel stacks -/

theorem kstackVpn_eq (p : Slot) : kstackVpn p = 2 ^ 27 - 1 - (p.val + 1) * 2 := by
  revert p
  decide

theorem kstackVpn_injective : Function.Injective kstackVpn := fun p q h => by
  rw [kstackVpn_eq, kstackVpn_eq] at h
  have hp : p.val < 10 := p.isLt
  have hq : q.val < 10 := q.isLt
  exact Fin.ext (by omega)

theorem kstackVpn_ne_trampoline (p : Slot) : kstackVpn p ≠ trampolineVpn := by
  revert p
  decide

theorem kstackVpn_ge (p : Slot) : phystop / 4096 ≤ kstackVpn p := by
  revert p
  decide

theorem kstackVa_aligned (p : Slot) : virtAddrFromSizeT (kstackVa p) % 4096 = 0 ∧
    virtAddrFromSizeT (kstackVa p) < 2 ^ 63 := by
  revert p
  decide

/-! ## The identity mapping -/

/-- The translation of `kvm_make` before the stacks. -/
def identityMap (cfg : Config) (v : ℕ) : Option Word :=
  if v = trampolineVpn then some (new cfg.trampolinePpn (pteV ||| (pteR ||| pteX)))
  else if cfg.etext / 4096 ≤ v ∧ v < phystop / 4096 then some (new v (pteV ||| (pteR ||| pteW)))
  else if kernbase / 4096 ≤ v ∧ v < cfg.etext / 4096 then some (new v (pteV ||| (pteR ||| pteX)))
  else none

theorem kernel_span {a b : ℕ} (ha : kernbase / 4096 ≤ a) (hb : b ≤ phystop / 4096) :
    span a b ≤ 65 := by
  have h₁ : kernbase / 4096 = 524800 := by decide
  have h₂ : phystop / 4096 = 557568 := by decide
  rw [span]
  omega

/-- Mapping a range of whole pages onto itself. -/
theorem map_identity {m : Mem} {pt : PageTable} {N : Multiset ℕ} {L : ℕ → Option Word} {a b : ℕ}
    {fl : Byte} (h : Table m.ram pt.rootPpn N L) (ha : Apart m N) (hab : a < b)
    (hal : a % 4096 = 0) (hbl : b % 4096 = 0) (hb : b < 2 ^ 38)
    (hL : ∀ v, a / 4096 ≤ v → v < b / 4096 → L v = none) :
    Outcome (pt.map m a a (b - a) fl)
      (fun m' => ∃ nt, Grows m m' N nt ∧ Table m'.ram pt.rootPpn (N + nt)
        (fun v => if a / 4096 ≤ v ∧ v < b / 4096 then some (new v (pteV ||| fl)) else L v) ∧
        nt.card ≤ 2 + span (a / 4096) (b / 4096))
      (fun e => e = .panic "memory is full" ∧ m.free.card < 2 + span (a / 4096) (b / 4096)) := by
  have hlast : (a + (b - a) - 1) / 4096 = b / 4096 - 1 := by omega
  have hmiss := missingLevels_le_two m.ram pt.rootPpn (a / 4096)
  have hspan : span (a / 4096) (b / 4096 - 1) ≤ span (a / 4096) (b / 4096) := by
    unfold span
    omega
  have hspec : Outcome (pt.map m a a (b - a) fl) _ _ :=
    PageTable.map_spec h ha (by omega) (by omega) (by omega) fun x hx hx' => hL x hx (by omega)
  rw [hlast] at hspec
  refine hspec.mono ?_ fun e he => ⟨he.1, by have := he.2; omega⟩
  rintro m' ⟨nt, hg, ht, hc⟩
  refine ⟨nt, hg, ⟨⟨ht.nodes, fun v hv => (ht.lookup v hv).trans ?_⟩, ht.links⟩, by omega⟩
  rw [PageTable.mapped]
  by_cases hv : a / 4096 ≤ v ∧ v < b / 4096
  · rw [if_pos hv, if_pos (by omega), Nat.add_sub_cancel' hv.1]
  · rw [if_neg hv, if_neg (by omega)]

/-- **The identity mapping of the kernel.** -/
theorem kvmMakeTable_spec {m : Mem} {root : ℕ} (ha : Apart m {root}) (hz : m.ram root = fun _ => 0)
    (he : cfg.etext < phystop) :
    Outcome (kvmMakeTable cfg ⟨root⟩ m)
      (fun m' => ∃ nt, Grows m m' {root} nt ∧ Table m'.ram root ({root} + nt) (identityMap cfg) ∧
        nt.card ≤ 136)
      (fun e => e = .panic "memory is full" ∧ m.free.card < 136) := by
  have hl := cfg.layout
  have hal := cfg.aligned
  have hlt : phystop < 2 ^ 38 := by decide
  have hkb : kernbase % 4096 = 0 := by decide
  have hps : phystop % 4096 = 0 := by decide
  rw [pageSize_eq] at hal hl
  have hpos : kernbase < cfg.etext := by omega
  rw [kvmMakeTable]
  have hv₁ : virtAddrFromSizeT kernbase = kernbase := by decide
  have hp₁ : physAddrFromSizeT kernbase = kernbase := by decide
  have hv₂ : virtAddrFromSizeT cfg.etext = cfg.etext := Nat.mod_eq_of_lt (by omega)
  have hp₂ : physAddrFromSizeT cfg.etext = cfg.etext := Nat.mod_eq_of_lt (by omega)
  have hp₃ : physAddrFromSizeT cfg.trampoline = cfg.trampoline :=
    Nat.mod_eq_of_lt cfg.trampoline_lt
  have hva₁ : virtAddrFromSizeT trampolineVa / 4096 = trampolineVpn := by decide
  have htr : cfg.trampoline / 4096 = cfg.trampolinePpn := rfl
  have htv : phystop / 4096 < trampolineVpn := by decide
  have hspan₁ := kernel_span (le_refl (kernbase / 4096))
    (by omega : cfg.etext / 4096 ≤ phystop / 4096)
  have hspan₂ := kernel_span (by omega : kernbase / 4096 ≤ cfg.etext / 4096)
    (le_refl (phystop / 4096))
  have hpage : ∀ {m : Mem}, (⟨root⟩ : PageTable).map m (virtAddrFromSizeT trampolineVa)
      cfg.trampoline pageSize (pteR ||| pteX) =
        (⟨root⟩ : PageTable).mapPerPage m trampolineVpn cfg.trampolinePpn (pteR ||| pteX) := by
    intro m
    rw [PageTable.map_page (by decide : virtAddrFromSizeT trampolineVa % 4096 = 0) (by decide),
      hva₁, htr]
  rw [hv₁, hp₁, hv₂, hp₂, hp₃]
  simp only [hpage]
  have ht₀ : Table m.ram (⟨root⟩ : PageTable).rootPpn {root} fun _ => none := Table.empty hz
  -- text
  refine Outcome.bind ((map_identity ht₀ ha hpos hkb hal.2.1 (he.trans hlt) fun _ _ _ => rfl).mono
    (fun _ h => h) fun e he' => ⟨he'.1, by have := he'.2; omega⟩) ?_
  rintro m₁ ⟨n₁, hg₁, ht₁, hc₁⟩
  have hcard₁ := hg₁.card
  -- data
  refine Outcome.bind ((map_identity ht₁ (ha.grows hg₁) he hal.2.1 hps hlt
    fun v hv _ => if_neg (by omega)).mono (fun _ h => h) fun e he' => ⟨he'.1, by
      have := he'.2
      omega⟩) ?_
  rintro m₂ ⟨n₂, hg₂, ht₂, hc₂⟩
  have hcard₂ := hg₂.card
  refine (PageTable.mapPerPage_spec_two ht₂ ((ha.grows hg₁).grows hg₂)
    (by decide : trampolineVpn < 2 ^ 27) ?_ cfg.trampolinePpn_lt).mono ?_ fun e he' => ⟨he'.1, ?_⟩
  · rw [if_neg (by omega), if_neg (by omega)]
  · rintro m₃ ⟨n₃, hg₃, ht₃, hc₃⟩
    refine ⟨n₁ + n₂ + n₃, (hg₁.trans hg₂).trans (by rwa [← add_assoc]), ?_, ?_⟩
    · rw [← add_assoc, ← add_assoc]
      refine ⟨⟨ht₃.nodes, fun v hv => (ht₃.lookup v hv).trans ?_⟩, ht₃.links⟩
      by_cases hvt : v = trampolineVpn
      · rw [hvt, Function.update_self, identityMap, if_pos rfl]
      · rw [Function.update_of_ne hvt, identityMap, if_neg hvt]
    · rw [Multiset.card_add, Multiset.card_add]
      omega
  · have := he'.2
    omega

/-! ## The kernel stacks -/

/-- Frames below the allocator's range are not written. -/
theorem Own.below_agree {lo t : ℕ} {m m' : Mem} {X N nt : Multiset ℕ} (h : Own lo m X)
    (hg : Grows m m' N nt) (hN : N ≤ X) (ht : t < lo) : m'.ram t = m.ram t := by
  refine hg.frame t (fun hm => ?_) fun hm => ?_
  · have := (h.mem_Ico (Multiset.mem_of_le hN hm)).1
    omega
  · have hI : t ∈ Finset.Ico lo m.memoryAllocator.end_ :=
      Multiset.mem_of_le h (Multiset.mem_add.mpr (.inr (Own.new_free hg hm)))
    rw [Finset.mem_Ico] at hI
    omega

/-- The state of `kvm_make` when the stacks of the slots `done` are mapped. -/
def stackedKernel (cfg : Config) (b : Start cfg) (root : ℕ) (m : Mem) (done : List Slot) : Kernel :=
  { frameAlloctorInit cfg b with
    mem := m
    kernelPagetable := ⟨root⟩
    tasks := fun i => { TaskControlBlock.zero with
      kstack := if i ∈ done then kstackVa i + pageSize else 0 } }

/-- The invariant of `proc_mapstacks`: the table `N` translates by `L`. -/
structure Stacked (cfg : Config) (root : ℕ) (m : Mem) (done : List Slot) (N : Multiset ℕ)
    (L : ℕ → Option Word) : Prop where
  table : Table m.ram root N L
  own : Own cfg.lo m (N + (done.map fun p => leaf L (kstackVpn p)).sum)
  other : ∀ v, (∀ p ∈ done, v ≠ kstackVpn p) → L v = identityMap cfg v
  stack : ∀ p ∈ done, ∃ f < 2 ^ 44, L (kstackVpn p) = some (new f (pteV ||| (pteR ||| pteW)))
  text : m.ram cfg.trampolinePpn = cfg.text
  end_eq : m.memoryAllocator.end_ = frameEnd
  console : m.console = []
  card : frameEnd - cfg.lo ≤ m.free.card + 137 + 3 * done.length

theorem identityMap_kstackVpn (cfg : Config) (p : Slot) : identityMap cfg (kstackVpn p) = none := by
  have h := kstackVpn_ge p
  have hl := cfg.layout
  have he : cfg.etext / 4096 ≤ phystop / 4096 := Nat.div_le_div_right (by omega)
  rw [identityMap, if_neg (kstackVpn_ne_trampoline p), if_neg (by omega), if_neg (by omega)]

/-- One kernel stack. -/
theorem procMapstack_spec {b : Start cfg} {root : ℕ} {m : Mem} {done : List Slot} {p : Slot}
    {N : Multiset ℕ} {L : ℕ → Option Word} (hp : p ∉ done) (h : Stacked cfg root m done N L) :
    Outcome (procMapstack (stackedKernel cfg b root m done) p)
      (fun k => ∃ m' N' L', k = stackedKernel cfg b root m' (done ++ [p]) ∧
        Stacked cfg root m' (done ++ [p]) N' L')
      (fun e => e = .panic "memory is full" ∧ m.free.card < 3) := by
  have hne : ∀ q ∈ done, kstackVpn p ≠ kstackVpn q := fun q hq he => by
    rw [kstackVpn_injective he] at hp
    exact hp hq
  have hLp : L (kstackVpn p) = none := by
    rw [h.other _ hne]
    exact identityMap_kstackVpn cfg p
  have hend : m.memoryAllocator.end_ ≤ 2 ^ 44 := by
    rw [h.end_eq]
    decide
  rw [procMapstack]
  refine Outcome.bind ((kalloc_spec m).mono (fun _ h => h) fun e he => ⟨he.1, by omega⟩) ?_
  rintro ⟨f, m₁⟩ ⟨hg₁, -⟩
  have hff : f ∈ ({f} : Multiset ℕ) := Multiset.mem_singleton_self f
  have hcard₁ : m.free.card = 1 + m₁.free.card := hg₁.card
  have ho₁ := h.own.grows hg₁
  have hf : f < 2 ^ 44 := (h.own.apart hend).new_lt hg₁ hff
  have hf₀ : f ≠ 0 := fun he => by
    have := (ho₁.mem_Ico (Multiset.mem_add.mpr (.inr hff))).1
    have := cfg.trampolinePpn_lt_lo
    omega
  have hpa : physAddrFromPhysPageNum f = f * 4096 := physAddrFromPhysPageNum_eq hf
  have hpa₀ : physAddrFromPhysPageNum f ≠ 0 := by omega
  have hpa' : physAddrFromSizeT (physAddrFromPhysPageNum f) / 4096 = f := by
    rw [hpa, physAddrFromSizeT, Nat.mod_eq_of_lt (by omega)]
    omega
  have hv : virtAddrFromSizeT (kstackVa p) / 4096 = kstackVpn p := rfl
  simp only [if_neg hpa₀, PageTable.map_page (kstackVa_aligned p).1 (kstackVa_aligned p).2, hpa',
    hv]
  -- the table has not been touched
  have haN : Apart m N := (h.own.mono (Multiset.le_add_right _ _)).apart hend
  have ht₁ : Table m₁.ram root N L := h.table.congr fun x hx =>
    hg₁.frame x (Multiset.notMem_zero x) fun hxf => haN.new_not_mem hg₁ hxf hx
  have haN₁ : Apart m₁ N := (haN.grows hg₁).mono (Multiset.le_add_right _ _)
  refine Outcome.bind ((PageTable.mapPerPage_spec_two ht₁ haN₁ (kstackVpn_lt p) hLp hf).mono
    (fun _ h => h) fun e he => ⟨he.1, ?_⟩) ?_
  · have := he.2
    omega
  rintro m₂ ⟨nt, hg₂, ht₂, hc₂⟩
  have hold : ∀ q ∈ done, Function.update L (kstackVpn p)
      (some (new f (pteV ||| (pteR ||| pteW)))) (kstackVpn q) = L (kstackVpn q) := fun q hq =>
    Function.update_of_ne (hne q hq).symm _ _
  refine ⟨m₂, N + nt, _, ?_, ht₂, ?_, fun v hv' => ?_, fun q hq => ?_, ?_, ?_, ?_, ?_⟩
  · simp only [stackedKernel, Kernel.setTask, Kernel.mk.injEq, and_true, true_and]
    funext i
    by_cases hi : i = p
    · subst hi
      simp
    · simp [hi]
  · have hleaves : ((done ++ [p]).map fun q => leaf (Function.update L (kstackVpn p)
        (some (new f (pteV ||| (pteR ||| pteW))))) (kstackVpn q)).sum =
        (done.map fun q => leaf L (kstackVpn q)).sum + {f} := by
      rw [List.map_append, List.sum_append, List.map_singleton, List.sum_singleton]
      congr 1
      · congr 1
        exact List.map_congr_left fun q hq => by rw [leaf, leaf, hold q hq]
      · rw [leaf, Function.update_self, Option.elim_some, ppn_new hf]
    rw [hleaves]
    have := ho₁.grows hg₂
    have hsum : N + (done.map fun p => leaf L (kstackVpn p)).sum + {f} + nt =
        N + nt + ((done.map fun q => leaf L (kstackVpn q)).sum + {f}) := by abel
    rwa [hsum] at this
  · rw [Function.update_of_ne (hv' p (by simp))]
    exact h.other v fun q hq => hv' q (List.mem_append_left _ hq)
  · rw [List.mem_append, List.mem_singleton] at hq
    obtain hq | rfl := hq
    · rw [hold q hq]
      exact h.stack q hq
    · exact ⟨f, hf, Function.update_self _ _ _⟩
  · rw [ho₁.below_agree hg₂ (by
        rw [add_assoc]
        exact Multiset.le_add_right _ _) cfg.trampolinePpn_lt_lo,
      h.own.below_agree hg₁ (Multiset.zero_le _) cfg.trampolinePpn_lt_lo]
    exact h.text
  · exact hg₂.end_eq.trans (hg₁.end_eq.trans h.end_eq)
  · exact hg₂.console.trans (hg₁.console.trans h.console)
  · have h₂ := hg₂.card
    have h₃ := h.card
    rw [List.length_append, List.length_singleton]
    omega

/-! ## `kvm_make` -/

/-- The state `kvm_make` leaves. -/
def kernelMade (cfg : Config) (b : Start cfg) (root : ℕ) (m : Mem) : Kernel :=
  { frameAlloctorInit cfg b with
    mem := m
    kernelPagetable := ⟨root⟩
    tasks := fun i => { TaskControlBlock.zero with kstack := kstackVa i + pageSize } }

theorem stackedKernel_all (b : Start cfg) (root : ℕ) (m : Mem) :
    stackedKernel cfg b root m (List.finRange maxTaskNum) = kernelMade cfg b root m := by
  simp only [stackedKernel, kernelMade, List.mem_finRange, if_true]

/-- The table of the whole loop is the kernel's. -/
theorem Stacked.kernelTable {root : ℕ} {m : Mem} {N : Multiset ℕ} {L : ℕ → Option Word}
    (h : Stacked cfg root m (List.finRange maxTaskNum) N L) : KernelTable cfg m.ram root := by
  have hl := cfg.layout
  have he : cfg.etext / 4096 ≤ phystop / 4096 := Nat.div_le_div_right (by omega)
  have hps : phystop / 4096 < trampolineVpn := by decide
  have ht : trampolineVpn < 2 ^ 27 := by decide
  have hother : ∀ v, v < phystop / 4096 ∨ v = trampolineVpn → L v = identityMap cfg v :=
    fun v hv => h.other v fun p _ hvp => by
      have h₁ := kstackVpn_ge p
      have h₂ := kstackVpn_ne_trampoline p
      omega
  refine ⟨h.table.links, fun v h₁ h₂ => ?_, fun v h₁ h₂ => ?_, ?_, fun p => ?_,
    fun v hv h₁ h₂ h₃ => ?_⟩
  · rw [h.table.lookup v (by omega), hother v (.inl (by omega)), identityMap, if_neg (by omega),
      if_neg (by omega), if_pos ⟨h₁, h₂⟩]
  · rw [h.table.lookup v (by omega), hother v (.inl h₂), identityMap, if_neg (by omega),
      if_pos ⟨h₁, h₂⟩]
  · rw [h.table.lookup _ ht, hother _ (.inr rfl), identityMap, if_pos rfl]
  · rw [h.table.lookup _ (kstackVpn_lt p)]
    exact h.stack p (List.mem_finRange p)
  · have hke : kernbase / 4096 ≤ cfg.etext / 4096 := Nat.div_le_div_right (by omega)
    rw [h.table.lookup v hv, h.other v fun p _ => h₃ p, identityMap, if_neg h₂, if_neg (by omega),
      if_neg (by omega)]

/-- The frames of the kernel are the only owned ones. -/
theorem Stacked.memInv {b : Start cfg} {root : ℕ} {m : Mem} {N : Multiset ℕ} {L : ℕ → Option Word}
    (h : Stacked cfg root m (List.finRange maxTaskNum) N L) :
    MemInv cfg (kernelMade cfg b root m) where
  own := by
    have htasks : ∑ i, (kernelMade cfg b root m).taskFrames i = 0 :=
      Finset.sum_eq_zero fun i _ => Kernel.taskFrames_of_unInit rfl
    have hstacks : (kernelMade cfg b root m).kernelStackFrames =
        ((List.finRange maxTaskNum).map fun p => leaf L (kstackVpn p)).sum := by
      rw [Kernel.kernelStackFrames, Fin.sum_univ_def]
      refine congrArg List.sum (List.map_congr_left fun p _ => ?_)
      change leaf (lookup m.ram root) (kstackVpn p) = _
      rw [leaf, leaf, h.table.lookup _ (kstackVpn_lt p)]
    have htable : (kernelMade cfg b root m).kernelTableFrames = N := h.table.nodes
    rw [Kernel.owned, htasks, add_zero, hstacks, htable]
    exact h.own
  end_eq := h.end_eq
  kernel := h.kernelTable
  task _ hi := absurd rfl hi
  text := h.text

/-- **`kvm_make`.** -/
theorem kvmMake_spec (b : Start cfg) :
    Outcome (kvmMake cfg (frameAlloctorInit cfg b))
      (fun k => ∃ root m, k = kernelMade cfg b root m ∧ MemInv cfg k ∧ m.console = [] ∧
        frameEnd - cfg.lo ≤ m.free.card + 167)
      (fun e => e = .panic "memory is full" ∧ frameEnd - cfg.lo < 167) := by
  have hfree : (frameAlloctorInit cfg b).mem.free = (Finset.Ico cfg.lo frameEnd).val :=
    zero_add _
  have hcard₀ : (frameAlloctorInit cfg b).mem.free.card = frameEnd - cfg.lo := by
    rw [hfree]
    exact Nat.card_Ico _ _
  have ho : Own cfg.lo (frameAlloctorInit cfg b).mem 0 := by
    rw [Own, zero_add, hfree]
    exact le_rfl
  have hend : (frameAlloctorInit cfg b).mem.memoryAllocator.end_ = frameEnd := rfl
  have hend' : frameEnd ≤ 2 ^ 44 := by decide
  rw [kvmMake]
  refine Outcome.bind ((kalloc_spec _).mono (fun _ h => h) fun e he => ⟨he.1, by omega⟩) ?_
  rintro ⟨root, m₁⟩ ⟨hg₁, hz⟩
  have hcard₁ : (frameAlloctorInit cfg b).mem.free.card = 1 + m₁.free.card := hg₁.card
  have ho₁ : Own cfg.lo m₁ {root} := by
    have := ho.grows hg₁
    rwa [zero_add] at this
  have hend₁ : m₁.memoryAllocator.end_ = frameEnd := hg₁.end_eq.trans hend
  have ha₁ : Apart m₁ {root} := ho₁.apart (by rw [hend₁]; exact hend')
  have hetext : cfg.etext < phystop := by
    -- a frame is left, so the image ends below the memory
    have hl := cfg.layout
    have hlo : cfg.lo < frameEnd := by omega
    have hp : phystop < 2 ^ 56 := by decide
    rw [Config.lo, frameEnd, ceilPhys, ceilPhys, physAddrFromSizeT, physAddrFromSizeT, pageSize_eq,
      Nat.mod_eq_of_lt (by omega), Nat.mod_eq_of_lt hp] at hlo
    omega
  refine Outcome.bind ((kvmMakeTable_spec ha₁ hz hetext).mono (fun _ h => h)
    fun e he => ⟨he.1, by have := he.2; omega⟩) ?_
  rintro m₂ ⟨nt, hg₂, ht₂, hc₂⟩
  have hcard₂ := hg₂.card
  have hst : Stacked cfg root m₂ [] ({root} + nt) (identityMap cfg) := by
    refine ⟨ht₂, ?_, fun _ _ => rfl, fun p hp => absurd hp List.not_mem_nil, ?_, ?_, ?_, ?_⟩
    · rw [List.map_nil, List.sum_nil, add_zero]
      exact ho₁.grows hg₂
    · rw [ho₁.below_agree hg₂ le_rfl cfg.trampolinePpn_lt_lo,
        ho.below_agree hg₁ (Multiset.zero_le _) cfg.trampolinePpn_lt_lo]
      exact b.ram_text
    · exact hg₂.end_eq.trans hend₁
    · exact hg₂.console.trans hg₁.console
    · rw [List.length_nil]
      omega
  have hloop := Outcome.foldlM (l := List.finRange maxTaskNum)
    (a := stackedKernel cfg b root m₂ []) (g := procMapstack)
    (E := fun e => e = .panic "memory is full" ∧ frameEnd - cfg.lo < 167)
    (I := fun done _ k => ∃ m N L, k = stackedKernel cfg b root m done ∧
      Stacked cfg root m done N L)
    ⟨m₂, _, _, rfl, hst⟩ ?_
  · have hinit : ({ frameAlloctorInit cfg b with
        mem := m₂, kernelPagetable := ⟨root⟩ } : Kernel) = stackedKernel cfg b root m₂ [] := by
      simp only [stackedKernel, List.not_mem_nil, if_false]
      rfl
    rw [← hinit] at hloop
    refine hloop.mono ?_ fun _ h => h
    rintro k ⟨m, N, L, rfl, hs⟩
    refine ⟨root, m, stackedKernel_all b root m, ?_, hs.console, ?_⟩
    · rw [stackedKernel_all]
      exact hs.memInv
    · have := hs.card
      rw [List.length_finRange] at this
      exact this
  · rintro done p todo k hl ⟨m, N, L, rfl, hs⟩
    have hnd := List.nodup_finRange maxTaskNum
    have hlen := congrArg List.length hl
    rw [← hl, List.nodup_append] at hnd
    rw [List.length_append, List.length_cons, List.length_finRange] at hlen
    have hp : p ∉ done := fun hp => hnd.2.2 p hp p List.mem_cons_self rfl
    refine (procMapstack_spec hp hs).mono (fun _ h => h) fun e he => ⟨he.1, ?_⟩
    have := he.2
    have := hs.card
    have h10 : maxTaskNum = 10 := rfl
    omega

end RiscvOs
