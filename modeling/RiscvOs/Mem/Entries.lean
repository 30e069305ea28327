import RiscvOs.Mem.Map

/-!
# Tables through their entry pointers

`WfTable m pt`: the frames of the table at `pt` are distinct and none of them is free. The walks of
`address.c` return pointers to entries; `pteAt` is the entry behind the pointer of `find_pte`.

* `pteAt_eq_lookup`: it is the entry the table translates by.
* `entryAt_keep`, `findPte_keep`: a walk survives as long as the valid entries stay.
* **`findPteCreate_spec`**: `find_pte_create` on a table with enough free frames.
* `findPteCreate_of_entryAt`: on a path that has its levels it changes nothing.
-/

set_option autoImplicit false

namespace RiscvOs

open PageTableEntry

/-- The frames of the table are distinct and apart from the free ones. -/
def WfTable (m : Mem) (pt : PageTable) : Prop := Apart m (tableFrames m.ram pt.rootPpn)

/-- The entry `find_pte` points to. -/
def pteAt (ram : ℕ → Fin 512 → Word) (pt : PageTable) (vpn : ℕ) : Option Word :=
  (findPte ram pt vpn).map fun p => ram p.1 p.2

theorem pteAt_eq_lookup (ram : ℕ → Fin 512 → Word) (pt : PageTable) (v : ℕ) :
    pteAt ram pt v = lookup ram pt.rootPpn v := by
  rw [pteAt]
  cases hf : findPte ram pt v with
  | none => exact (findPte_eq_none hf).symm
  | some p => exact (findPte_eq_some hf).2.symm

theorem findPte_eq_none_iff {ram : ℕ → Fin 512 → Word} {pt : PageTable} {v : ℕ} :
    findPte ram pt v = none ↔ lookup ram pt.rootPpn v = none := by
  rw [← pteAt_eq_lookup, pteAt, Option.map_eq_none_iff]

theorem isValid_of_findPte {ram : ℕ → Fin 512 → Word} {pt : PageTable} {v : ℕ} {p : PtePtr}
    (h : findPte ram pt v = some p) : isValid (ram p.1 p.2) = true :=
  isValid_of_lookup (findPte_eq_some h).2

theorem PageTable.pageTree (m : Mem) (pt : PageTable) :
    PageTree m.ram pt.rootPpn (tableFrames m.ram pt.rootPpn) (lookup m.ram pt.rootPpn) :=
  ⟨rfl, fun _ _ => rfl⟩

theorem PageTree.wfTable {m : Mem} {pt : PageTable} {N : Multiset ℕ} {L : ℕ → Option Word}
    (h : PageTree m.ram pt.rootPpn N L) (ha : Apart m N) : WfTable m pt := by
  rw [WfTable, h.nodes]
  exact ha

/-! ## The place of an entry -/

/-- The place of the entry of `vpn`, when the path has its levels. -/
def entryAt (ram : ℕ → Fin 512 → Word) (pt : PageTable) (vpn : ℕ) : Option PtePtr :=
  Radix.walk pteFormat ram (getPageOffset vpn).1 (getPageOffset vpn).2 pt.rootPpn

theorem entryAt_of_findPte {ram : ℕ → Fin 512 → Word} {pt : PageTable} {v : ℕ} {p : PtePtr}
    (h : findPte ram pt v = some p) : entryAt ram pt v = some p := (findPte_eq_some h).1

/-- Different pages have different entries. -/
theorem WfTable.entryAt_injective {m : Mem} {pt : PageTable} {v w : ℕ} {p : PtePtr}
    (h : WfTable m pt) (hv : v < 2 ^ 27) (hw : w < 2 ^ 27) (hp : entryAt m.ram pt v = some p)
    (hq : entryAt m.ram pt w = some p) : w = v := by
  have hn : (Radix.nodes pteFormat m.ram (getPageOffset v).2.length pt.rootPpn).Nodup :=
    h.nodup_left
  have hl : (getPageOffset w).2.length = (getPageOffset v).2.length := rfl
  have hi := Radix.walk_injective hn hp hl hq
  exact getPageOffset_injective hw hv (Prod.ext (List.cons.inj hi).1 (List.cons.inj hi).2)

section Keep

variable {ram ram' : ℕ → Fin 512 → Word} {pt : PageTable} {v : ℕ} {p : PtePtr}
  (hk : ∀ f ∈ tableFrames ram pt.rootPpn, ∀ j, isValid (ram f j) → ram' f j = ram f j)

include hk

theorem entryAt_keep (h : entryAt ram pt v = some p) : entryAt ram' pt v = some p := by
  have hk' : ∀ f ∈ Radix.nodes pteFormat ram (getPageOffset v).2.length pt.rootPpn, _ := hk
  exact Radix.walk_keep hk' h

theorem findPte_keep (hl : lookup ram' pt.rootPpn v = lookup ram pt.rootPpn v) :
    findPte ram' pt v = findPte ram pt v := by
  cases hf : findPte ram pt v with
  | none => rw [findPte_eq_none_iff, hl, ← findPte_eq_none_iff, hf]
  | some p =>
    have hp := entryAt_of_findPte hf
    have hv := isValid_of_findPte hf
    have hmem : p.1 ∈ tableFrames ram pt.rootPpn := Radix.walk_mem hp
    have hp' : Radix.walk pteFormat ram' (getPageOffset v).1 (getPageOffset v).2 pt.rootPpn =
      some p := entryAt_keep hk hp
    rw [findPte, findPteFrom_eq, hp', Option.filter_some, hk p.1 hmem p.2 hv, if_pos hv]

end Keep

/-! ## `find_pte_create` -/

section Create

variable {m m' : Mem} {i : Fin 512} {is : List (Fin 512)} {n : ℕ} {p : PtePtr}

/-- Every valid entry of a frame that is not free stays. -/
theorem findPteCreateFrom_keep (h : findPteCreateFrom i is n m = .ok (p, m')) :
    ∀ f ∉ m.free, ∀ j, isValid (m.ram f j) → m'.ram f j = m.ram f j := by
  induction is generalizing i n m with
  | nil =>
    obtain ⟨-, rfl⟩ := Prod.mk.inj (Except.ok.inj h)
    exact fun _ _ _ _ => rfl
  | cons j js ih =>
    rw [findPteCreateFrom] at h
    split_ifs at h with hv
    · exact ih h
    · obtain ⟨⟨f, m₁⟩, hk, hrest⟩ := exists_of_bind_ok h
      obtain ⟨hg, -⟩ := (kalloc_spec m).of_ok hk
      intro g hgm x hx
      have hgf : g ≠ f := fun he => hgm (he ▸ Own.new_free hg (Multiset.mem_singleton_self f))
      have hg₁ : m₁.ram g = m.ram g := hg.frame g (Multiset.notMem_zero g) (by simpa using hgf)
      -- the entry written was invalid
      have hstore : (m₁.store n i (PageTableEntry.new f pteV)).ram g x = m.ram g x := by
        by_cases hgn : g = n
        · subst hgn
          have hxi : x ≠ i := fun he => hv (he ▸ hx)
          rw [Mem.store_self_of_ne hxi, hg₁]
        · rw [Mem.store_of_ne hgn, hg₁]
      have hfree : g ∉ (m₁.store n i (PageTableEntry.new f pteV)).free := fun hm =>
        hgm (hg.free ▸ Multiset.mem_add.mpr (.inr hm))
      rw [ih hrest g hfree x (by rw [hstore]; exact hx), hstore]

/-- On a path that has its levels nothing happens. -/
theorem findPteCreateFrom_of_walk (h : Radix.walk pteFormat m.ram i is n = some p) :
    findPteCreateFrom i is n m = .ok (p, m) := by
  induction is generalizing i n with
  | nil =>
    rw [findPteCreateFrom, Option.some.inj h]
  | cons j js ih =>
    rw [Radix.walk] at h
    split_ifs at h with hv
    rw [findPteCreateFrom, if_pos (show isValid (m.ram n i) = true from hv)]
    exact ih h

variable {pt : PageTable} {v : ℕ}

theorem findPteCreate_of_entryAt (h : entryAt m.ram pt v = some p) :
    findPteCreate m pt v = .ok (p, m) := findPteCreateFrom_of_walk h

/-- What `find_pte_create` leaves behind. -/
structure CreatedAt (m m' : Mem) (pt : PageTable) (vpn : ℕ) (p : PtePtr) (new : Multiset ℕ) :
    Prop where
  grows : Grows m m' (tableFrames m.ram pt.rootPpn) new
  card : new.card = missingLevels m.ram pt.rootPpn vpn
  frames : tableFrames m'.ram pt.rootPpn = tableFrames m.ram pt.rootPpn + new
  wf : WfTable m' pt
  entry : entryAt m'.ram pt vpn = some p
  keep : ∀ w q, entryAt m.ram pt w = some q → entryAt m'.ram pt w = some q
  findPte : ∀ w < 2 ^ 27, findPte m'.ram pt w = RiscvOs.findPte m.ram pt w
  links : Links m.ram pt.rootPpn → Links m'.ram pt.rootPpn

/-- **`find_pte_create` adds the missing levels and changes no walk of `find_pte`.** -/
theorem findPteCreate_spec (h : WfTable m pt) :
    Outcome (findPteCreate m pt v) (fun r => ∃ new, CreatedAt m r.2 pt v r.1 new)
      (fun e => e = .panic "memory is full" ∧
        m.free.card < missingLevels m.ram pt.rootPpn v) := by
  have hspec :
    Outcome (findPteCreateFrom (getPageOffset v).1 (getPageOffset v).2 pt.rootPpn m) _ _ :=
    findPteCreateFrom_spec h
  rw [findPteCreate]
  cases hr : findPteCreateFrom (getPageOffset v).1 (getPageOffset v).2 pt.rootPpn m with
  | error e => exact hspec.of_error hr
  | ok r =>
    obtain ⟨new, hc⟩ := hspec.of_ok hr
    have hnodes : tableFrames r.2.ram pt.rootPpn = tableFrames m.ram pt.rootPpn + new := by
      rw [add_comm]
      exact hc.nodes
    have hk : ∀ f ∈ tableFrames m.ram pt.rootPpn, ∀ j, isValid (m.ram f j) →
        r.2.ram f j = m.ram f j := fun f hf j hj =>
      findPteCreateFrom_keep hr f (h.not_mem_free hf) j hj
    refine ⟨new, hc.grows, hc.card, hnodes, ?_, hc.walk, fun w q => entryAt_keep hk,
      fun w _ => findPte_keep hk (hc.get _ _ rfl), hc.links⟩
    rw [WfTable, hnodes]
    exact h.grows hc.grows

end Create

end RiscvOs
