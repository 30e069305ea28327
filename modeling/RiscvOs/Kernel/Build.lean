import RiscvOs.Kernel.Task
import RiscvOs.Mem.Space

/-!
# Building and copying an address space

* **`procTable_spec`**: `proc_pagetable` builds an address space with the two high pages only.
* **`uvmCopy_spec`**: `uvm_copy` gives the child the parent's pages, each in a frame of its own.
-/

set_option autoImplicit false

namespace RiscvOs

open PageTableEntry

variable {cfg : Config}

/-! ## `proc_pagetable` -/

theorem Config.trampoline_lt (cfg : Config) : cfg.trampoline < 2 ^ 56 := by
  have h := cfg.layout
  have hp : phystop < 2 ^ 56 := by decide
  omega

theorem Config.trampolinePpn_lt (cfg : Config) : cfg.trampolinePpn < 2 ^ 44 := by
  have h := cfg.trampoline_lt
  rw [Config.trampolinePpn, pageSize_eq]
  omega

section ProcTable

variable {m : Mem} {trapCx : ℕ}

/-- **The table of a new process.** -/
theorem procTable_spec (ha : Apart m 0) (hcx : trapCx < 2 ^ 56) :
    Outcome (procTable cfg m trapCx)
      (fun r => ∃ nt, Grows m r.2 0 nt ∧ nt.card ≤ 5 ∧
        Space r.2.ram r.1.rootPpn (trapCx / 4096) cfg.trampolinePpn 0 nt 0 fun _ => none)
      (fun e => e = .panic "memory is full" ∧ m.free.card < 5) := by
  have hne : trapframeVpn ≠ trampolineVpn := by decide
  rw [procTable]
  refine Outcome.bind ((kalloc_spec m).mono (fun _ h => h) fun e he => ⟨he.1, by omega⟩) ?_
  rintro ⟨root, m₁⟩ ⟨hg₁, hz⟩
  have ha₁ : Apart m₁ {root} := by have := ha.grows hg₁; rwa [zero_add] at this
  have hcard : m.free.card = 1 + m₁.free.card := hg₁.card
  have hva₁ : virtAddrFromSizeT trampolineVa / 4096 = trampolineVpn := by decide
  have hva₂ : virtAddrFromSizeT trapframeVa / 4096 = trapframeVpn := by decide
  simp only [PageTable.map_page (by decide : virtAddrFromSizeT trampolineVa % 4096 = 0) (by decide),
    PageTable.map_page (by decide : virtAddrFromSizeT trapframeVa % 4096 = 0) (by decide),
    hva₁, hva₂, physAddrFromSizeT, Nat.mod_eq_of_lt cfg.trampoline_lt, Nat.mod_eq_of_lt hcx]
  have htr : cfg.trampoline / 4096 = cfg.trampolinePpn := rfl
  rw [htr]
  have ht₁ : Table m₁.ram (⟨root⟩ : PageTable).rootPpn {root} fun _ => none := Table.empty hz
  refine Outcome.bind ((PageTable.mapPerPage_spec_two ht₁ ha₁ (by decide : trampolineVpn < 2 ^ 27)
    rfl cfg.trampolinePpn_lt).mono (fun _ h => h) fun e he => ⟨he.1, by have := he.2; omega⟩) ?_
  rintro m₂ ⟨n₂, hg₂, ht₂, hc₂⟩
  have hcard₂ := hg₂.card
  refine Outcome.bind ((PageTable.mapPerPage_spec_two ht₂ (ha₁.grows hg₂)
    (by decide : trapframeVpn < 2 ^ 27) (Function.update_of_ne hne _ _) (by omega)).mono
    (fun _ h => h) fun e he => ⟨he.1, by have := he.2; omega⟩) ?_
  rintro m₃ ⟨n₃, hg₃, ht₃, hc₃⟩
  refine ⟨{root} + n₂ + n₃, ?_, ?_, ?_⟩
  · rw [← zero_add ({root} : Multiset ℕ)]
    exact ((hg₁.mono (Multiset.zero_le _)).trans (by rw [zero_add]; exact hg₂)).trans
      (by rw [zero_add]; exact hg₃)
  · rw [Multiset.card_add, Multiset.card_add, Multiset.card_singleton]
    omega
  · have hs := Space.of_table ht₃ (Nat.zero_le _)
      (by rw [Function.update_of_ne hne.symm, Function.update_self])
      (by rw [Function.update_self])
      fun v _ hv => by
        rw [Function.update_of_ne (by omega), Function.update_of_ne]
        have : trapframeVpn < trampolineVpn := by decide
        omega
    rw [leaves_zero] at hs
    exact hs.congr_pages fun v hv => hs.pages_high (Nat.zero_le v) hv

end ProcTable

/-! ## `uvm_copy` -/

/-- The pages below `n`. -/
def below (V : ℕ → Option (Byte × Frame)) (n : ℕ) : ℕ → Option (Byte × Frame) := fun v =>
  if v < n then V v else none

theorem below_succ (V : ℕ → Option (Byte × Frame)) (n : ℕ) :
    below V (n + 1) = Function.update (below V n) n (V n) := by
  funext v
  by_cases hv : v = n
  · subst hv
    rw [Function.update_self, below, if_pos (Nat.lt_succ_self v)]
  · rw [Function.update_of_ne hv, below, below]
    by_cases hlt : v < n
    · rw [if_pos hlt, if_pos (by omega)]
    · rw [if_neg hlt, if_neg (by omega)]

section Copy

variable {m : Mem} {father child : PageTable} {ftrap ftramp fn trap tramp v k : ℕ}
  {fN fD N D : Multiset ℕ} {fV : ℕ → Option (Byte × Frame)}

/-- One page: mapped for the child iff for the parent, with the same flags and contents. -/
theorem uvmCopyPage_spec (hf : Space m.ram father.rootPpn ftrap ftramp fn fN fD fV)
    (hc : Space m.ram child.rootPpn trap tramp v N D (below fV v))
    (ha : Apart m (fN + fD + (N + D))) (hv : v < fn) :
    Outcome (uvmCopyPage father child v m)
      (fun m' => Grown m m' child.rootPpn trap tramp N D (v + 1) (below fV (v + 1)) 3)
      (fun e => e = .panic "memory is full" ∧ m.free.card < 3) := by
  have hvt : v < trapframeVpn := lt_of_lt_of_le hv hf.bound
  have hv27 : v < 2 ^ 27 := lt_trans hvt (by decide)
  have hva : virtAddrFromSizeT (v * 4096) = v * 4096 := Nat.mod_eq_of_lt (by omega)
  have hvpn : floorVirts (v * 4096) = v := by rw [floorVirts, pageSize_eq]; omega
  rw [uvmCopyPage, pageSize_eq, hva, hvpn]
  cases hp : findPte m.ram father v with
  | none =>
    have hL : fV v = none := by
      rw [← hf.pages v hvt, pagesOf, findPte_eq_none hp, Option.map_none]
    refine ((Grown.refl (hc.mono_bound (Nat.le_succ v) (by omega))).mono
      (Nat.zero_le 3)).congr_pages fun x _ => ?_
    rw [below_succ, hL]
    by_cases hx : x = v
    · subst hx
      rw [Function.update_self, below, if_neg (lt_irrefl x)]
    · rw [Function.update_of_ne hx]
  | some p =>
    obtain ⟨-, hl⟩ := findPte_eq_some hp
    set e := m.ram p.1 p.2 with he
    have hfv : fV v = some (flags e, m.ram (ppn e)) := by
      rw [← hf.pages v hvt, pagesOf, hl, Option.map_some]
    have hval : pteV ||| flags e = flags e := pteV_or_flags (isValid_of_lookup hl)
    have hdata : ppn e ∈ fD := hf.data ▸ mem_leaves hl hv
    have haC : Apart m (N + D) := ha.mono (Multiset.le_add_left _ _)
    refine Outcome.bind ((kalloc_spec m).mono (fun _ h => h) fun e he => ⟨he.1, by omega⟩) ?_
    rintro ⟨f, m₁⟩ ⟨hg, -⟩
    have hff : f ∈ ({f} : Multiset ℕ) := Multiset.mem_singleton_self f
    have hpage : ptePa e / 4096 = ppn e := by rw [ptePa]; omega
    have hsrc : m₁.ram (ppn e) = m.ram (ppn e) := hg.frame _ (Multiset.notMem_zero _) fun hmem =>
      ha.new_not_mem hg hmem (Multiset.mem_add.mpr (.inl (Multiset.mem_add.mpr (.inr hdata))))
    have hpa : physAddrFromPhysPageNum f / 4096 = f :=
      physAddrFromPhysPageNum_div (ha.new_lt hg hff)
    change Outcome (child.map (m₁.storeFrame f (m₁.ram (ptePa e / 4096))) (v * 4096)
      (physAddrFromPhysPageNum f) pageSize (flags e)) _ _
    rw [PageTable.map_vpn hv27, hpa, below_succ, hfv, hpage, hsrc]
    have hadd : Outcome (child.mapPerPage (m₁.storeFrame f (m.ram (ppn e))) v f (flags e)) _ _ :=
      hc.add_page haC (hg.storeFrame hff (m.ram (ppn e))) le_rfl hvt
    rwa [Mem.storeFrame_self, hval] at hadd

/-- The loop, from page `v` on. -/
theorem uvmCopyFrom_spec (hf : Space m.ram father.rootPpn ftrap ftramp fn fN fD fV)
    (hc : Space m.ram child.rootPpn trap tramp v N D (below fV v))
    (ha : Apart m (fN + fD + (N + D))) (hv : v + k ≤ fn) :
    Outcome (uvmCopyFrom father child v k m)
      (fun m' => Grown m m' child.rootPpn trap tramp N D (v + k) (below fV (v + k)) (3 * k))
      (fun e => e = .panic "memory is full" ∧ m.free.card < 3 * k) := by
  induction k generalizing m v N D with
  | zero => exact Grown.refl hc
  | succ k ih =>
    rw [uvmCopyFrom]
    refine Outcome.bind ((uvmCopyPage_spec hf hc ha (by omega)).mono (fun _ h => h)
      fun e he => ⟨he.1, by have := he.2; omega⟩) ?_
    rintro m₁ ⟨nt, nd, hg, hs, hcard⟩
    -- the parent's frames are neither the child's nor new
    have hkeep : ∀ f ∈ fN + fD, m₁.ram f = m.ram f := fun f hfm => by
      refine hg.frame f (fun hN => ?_) fun hnew => ?_
      · exact Multiset.disjoint_left.mp (Multiset.nodup_add.mp ha.nodup_left).2.2 hfm
          (Multiset.mem_add.mpr (.inl hN))
      · exact ha.new_not_mem hg hnew (Multiset.mem_add.mpr (.inl hfm))
    have hf₁ := hf.congr (fun f h => hkeep f (Multiset.mem_add.mpr (.inl h)))
      fun f h => hkeep f (Multiset.mem_add.mpr (.inr h))
    have hk : v + (k + 1) = v + 1 + k := by omega
    refine (ih hf₁ hs (ha.grown hg) (by omega)).mono ?_ ?_
    · intro m' h'
      rw [hk]
      exact (Grown.trans hg hcard h').mono (by omega)
    · rintro e ⟨he, hlt⟩
      have := hg.card
      exact ⟨he, by omega⟩

/-- **`uvm_copy` duplicates the low half.** -/
theorem uvmCopy_spec {sz : ℕ} (hf : Space m.ram father.rootPpn ftrap ftramp (sz / 4096) fN fD fV)
    (hsz : sz % 4096 = 0) (hc : Space m.ram child.rootPpn trap tramp 0 N 0 fun _ => none)
    (ha : Apart m (fN + fD + N)) :
    Outcome (uvmCopy m father child sz)
      (fun m' => Grown m m' child.rootPpn trap tramp N 0 (sz / 4096) fV (3 * (sz / 4096)))
      (fun e => e = .panic "memory is full" ∧ m.free.card < 3 * (sz / 4096)) := by
  have hn : (sz + 4096 - 1) / 4096 = sz / 4096 := by omega
  rw [uvmCopy, pageSize_eq, hn]
  refine (uvmCopyFrom_spec hf (hc.congr_pages fun x _ => ?_) (by rwa [add_zero])
    (by rw [Nat.zero_add])).mono ?_ fun _ h => h
  · rw [below, if_neg (Nat.not_lt_zero x)]
  · intro m' h'
    rw [Nat.zero_add] at h'
    refine h'.congr_pages fun x hx => ?_
    rw [below]
    split_ifs with hlt
    · rfl
    · exact (hf.pages_high (Nat.le_of_not_lt hlt) hx).symm

end Copy

end RiscvOs
