import RiscvOs.Mem.Unmap

/-!
# User address spaces

`Space ram root trap tramp n N D V` is the address space of a process: the table at `root` occupies
the frames `N`; it maps the trampoline and the trap context at the two highest pages; all other
mappings are below page `n`, onto the frames `D`, and `V` gives their flags and contents.

* `Space.congr`: it depends on the frames `N` and `D` only.
* **`Space.add_page`**: mapping a fresh frame at a page above all others.
* `Space.free_space`: what `free_proc_memory` and `free_child` give back.
-/

set_option autoImplicit false

namespace RiscvOs

open PageTableEntry

/-- The contents of a frame. -/
abbrev Frame := Fin 512 → Word

/-- The flags and contents of the pages of a translation. -/
def pagesOf (ram : ℕ → Frame) (L : ℕ → Option Word) (v : ℕ) : Option (Byte × Frame) :=
  (L v).map fun e => (flags e, ram (ppn e))

/-- The address space of a process. -/
structure Space (ram : ℕ → Frame) (root trap tramp n : ℕ) (N D : Multiset ℕ)
    (V : ℕ → Option (Byte × Frame)) : Prop where
  nodes : tableFrames ram root = N
  links : Radix.Interior pteFormat IsLink ram 2 root
  trampoline : lookup ram root trampolineVpn = some (new tramp (pteV ||| (pteR ||| pteX)))
  trapframe : lookup ram root trapframeVpn = some (new trap (pteV ||| (pteR ||| pteW)))
  bound : n ≤ trapframeVpn
  high : ∀ v, n ≤ v → v < trapframeVpn → lookup ram root v = none
  data : leaves (lookup ram root) 0 n = D
  pages : ∀ v < trapframeVpn, pagesOf ram (lookup ram root) v = V v

/-! ## Leaves -/

section Leaves

variable {L : ℕ → Option Word} {v n : ℕ} {e : Word}

theorem mem_leaves (he : L v = some e) (hv : v < n) : ppn e ∈ leaves L 0 n := by
  refine Multiset.mem_of_le (Finset.single_le_sum (f := leaf L) (fun _ _ => Multiset.zero_le _)
    (Finset.mem_Ico.mpr ⟨Nat.zero_le v, by omega⟩)) ?_
  rw [leaf, he, Option.elim_some]
  exact Multiset.mem_singleton_self _

theorem leaves_add (L : ℕ → Option Word) (n k : ℕ) :
    leaves L 0 (n + k) = leaves L 0 n + leaves L n k := by
  rw [leaves, leaves, leaves, Nat.zero_add, Nat.zero_add,
    Finset.sum_Ico_consecutive _ (Nat.zero_le n) (Nat.le_add_right n k)]

theorem leaves_none {k : ℕ} (h : ∀ x, n ≤ x → x < n + k → L x = none) : leaves L n k = 0 :=
  Finset.sum_eq_zero fun x hx => by
    rw [Finset.mem_Ico] at hx
    rw [leaf, h x hx.1 hx.2, Option.elim_none]

/-- Pages without a mapping add no leaf. -/
theorem leaves_extend (hnv : n ≤ v) (h : ∀ x, n ≤ x → x < v → L x = none) :
    leaves L 0 v = leaves L 0 n := by
  obtain ⟨k, rfl⟩ := Nat.exists_eq_add_of_le hnv
  rw [leaves_add, leaves_none h, add_zero]

theorem leaves_update (hnv : n ≤ v) (h : ∀ x, n ≤ x → x < v → L x = none) :
    leaves (Function.update L v (some e)) 0 (v + 1) = leaves L 0 n + {ppn e} := by
  have hlow : leaves (Function.update L v (some e)) 0 v = leaves L 0 v :=
    leaves_congr fun x _ hx => Function.update_of_ne (by omega) _ _
  rw [leaves_add, hlow, leaves_extend hnv h, leaves_succ, leaves_zero, add_zero, leaf,
    Function.update_self, Option.elim_some]

end Leaves

/-! ## Tables -/

/-- The translation of a table, in its own words. -/
theorem Table.self {ram : ℕ → Frame} {root : ℕ} (h : Radix.Interior pteFormat IsLink ram 2 root) :
    Table ram root (tableFrames ram root) (RiscvOs.lookup ram root) :=
  ⟨⟨rfl, fun _ _ => rfl⟩, h⟩

/-- A zeroed frame is an empty table. -/
theorem Table.empty {ram : ℕ → Frame} {root : ℕ} (hz : ram root = fun _ => 0) :
    Table ram root {root} fun _ => none := by
  have hv : ∀ j, pteFormat.valid (ram root j) = false := fun j => by
    rw [congrFun hz j]
    exact isValid_zero
  exact ⟨⟨Radix.nodes_of_empty hv, fun v _ => Radix.get_of_empty hv⟩, Radix.interior_of_empty hv⟩

namespace Space

variable {ram ram' : ℕ → Frame} {root trap tramp n : ℕ} {N D : Multiset ℕ}
  {V : ℕ → Option (Byte × Frame)}

theorem table (h : Space ram root trap tramp n N D V) : Table ram root N (lookup ram root) :=
  ⟨⟨h.nodes, fun _ _ => rfl⟩, h.links⟩

theorem root_mem (h : Space ram root trap tramp n N D V) : root ∈ N := h.table.root_mem

/-- A table with the two high pages and nothing above `n` is an address space. -/
theorem of_table {L : ℕ → Option Word} (h : Table ram root N L) (hb : n ≤ trapframeVpn)
    (ht : L trampolineVpn = some (new tramp (pteV ||| (pteR ||| pteX))))
    (hf : L trapframeVpn = some (new trap (pteV ||| (pteR ||| pteW))))
    (hhigh : ∀ v, n ≤ v → v < trapframeVpn → L v = none) :
    Space ram root trap tramp n N (leaves L 0 n) (pagesOf ram L) where
  nodes := h.nodes
  links := h.links
  trampoline := (h.lookup _ (by decide)).trans ht
  trapframe := (h.lookup _ (by decide)).trans hf
  bound := hb
  high v hv hlt := (h.lookup v (lt_trans hlt (by decide))).trans (hhigh v hv hlt)
  data := leaves_congr fun x _ hx =>
    h.lookup x (lt_trans (by omega : x < trapframeVpn) (by decide))
  pages v hv := by rw [pagesOf, pagesOf, h.lookup v (lt_trans hv (by decide))]

/-- An unmapped page above `n` in terms of the contents. -/
theorem pages_high (h : Space ram root trap tramp n N D V) {v : ℕ} (hv : n ≤ v)
    (hlt : v < trapframeVpn) : V v = none := by
  rw [← h.pages v hlt, pagesOf, h.high v hv hlt, Option.map_none]

/-- **Locality.** -/
theorem congr (h : Space ram root trap tramp n N D V) (hN : ∀ f ∈ N, ram' f = ram f)
    (hD : ∀ f ∈ D, ram' f = ram f) : Space ram' root trap tramp n N D V := by
  have ht := h.table.congr hN
  have hs := of_table ht h.bound h.trampoline h.trapframe h.high
  refine { hs with
    data := hs.data.trans h.data
    pages := fun v hv => (hs.pages v hv).trans ((?_ : _ = _).trans (h.pages v hv)) }
  rw [pagesOf, pagesOf]
  cases hL : lookup ram root v with
  | none => rfl
  | some e =>
    have hvn : v < n := by
      by_contra hge
      rw [h.high v (by omega) hv] at hL
      cases hL
    rw [Option.map_some, Option.map_some, hD _ (h.data ▸ mem_leaves hL hvn)]

/-- A larger bound. -/
theorem mono_bound (h : Space ram root trap tramp n N D V) {n' : ℕ} (hn : n ≤ n')
    (hb : n' ≤ trapframeVpn) : Space ram root trap tramp n' N D V :=
  { h with
    bound := hb
    high := fun v hv hlt => h.high v (by omega) hlt
    data := (leaves_extend hn fun x hx hlt => h.high x hx (by omega)).trans h.data }

/-- The same contents by another name. -/
theorem congr_pages (h : Space ram root trap tramp n N D V) {V' : ℕ → Option (Byte × Frame)}
    (hV : ∀ v < trapframeVpn, V v = V' v) : Space ram root trap tramp n N D V' :=
  { h with pages := fun v hv => (h.pages v hv).trans (hV v hv) }

end Space

/-! ## Adding pages -/

section Grown

variable {m m₁ m₂ : Mem} {root trap tramp n n' c c' : ℕ} {N D nt nd : Multiset ℕ}
  {V V' : ℕ → Option (Byte × Frame)}

/-- From `m` on, the table `N` and the data `D` were given at most `c` new frames, and the address
space has the pages `V` now. -/
def Grown (m m' : Mem) (root trap tramp : ℕ) (N D : Multiset ℕ) (n : ℕ)
    (V : ℕ → Option (Byte × Frame)) (c : ℕ) : Prop :=
  ∃ nt nd, Grows m m' N (nd + nt) ∧ Space m'.ram root trap tramp n (N + nt) (D + nd) V ∧
    (nd + nt).card ≤ c

namespace Grown

theorem refl (h : Space m.ram root trap tramp n N D V) : Grown m m root trap tramp N D n V 0 :=
  ⟨0, 0, Grows.refl m N, by rwa [add_zero, add_zero], le_rfl⟩

theorem trans (hg : Grows m m₁ N (nd + nt)) (hc : (nd + nt).card ≤ c)
    (h : Grown m₁ m₂ root trap tramp (N + nt) (D + nd) n V c') :
    Grown m m₂ root trap tramp N D n V (c + c') := by
  obtain ⟨nt', nd', hg', hs', hc'⟩ := h
  refine ⟨nt + nt', nd + nd', ?_, by rwa [← add_assoc, ← add_assoc], ?_⟩
  · have hle : N + nt ≤ N + (nd + nt) := add_le_add_right (Multiset.le_add_left _ _) N
    have := hg.trans (hg'.mono hle)
    rwa [add_add_add_comm]
  · rw [add_add_add_comm, Multiset.card_add]
    omega

theorem mono (h : Grown m m₁ root trap tramp N D n V c) (hc : c ≤ c') :
    Grown m m₁ root trap tramp N D n V c' := by
  obtain ⟨nt, nd, hg, hs, hcard⟩ := h
  exact ⟨nt, nd, hg, hs, hcard.trans hc⟩

theorem congr_pages (h : Grown m m₁ root trap tramp N D n V c)
    (hV : ∀ v < trapframeVpn, V v = V' v) : Grown m m₁ root trap tramp N D n V' c := by
  obtain ⟨nt, nd, hg, hs, hcard⟩ := h
  exact ⟨nt, nd, hg, hs.congr_pages hV, hcard⟩

end Grown

/-- The frames of the table and of the data, after both have grown, are apart from the rest. -/
theorem Apart.grown {X : Multiset ℕ} (ha : Apart m (X + (N + D))) (hg : Grows m m₁ N (nd + nt)) :
    Apart m₁ (X + (N + nt + (D + nd))) := by
  have h := ha.grows hg
  have hsplit : X + (N + D) + (nd + nt) = X + (N + nt + (D + nd)) := by abel
  rwa [hsplit] at h

end Grown

section Add

variable {m m₁ : Mem} {pt : PageTable} {trap tramp n : ℕ} {N D : Multiset ℕ}
  {V : ℕ → Option (Byte × Frame)} {f v : ℕ} {fl : Byte}

/-- **A fresh frame is mapped above all other pages.** -/
theorem Space.add_page (h : Space m.ram pt.rootPpn trap tramp n N D V) (ha : Apart m (N + D))
    (hg : Grows m m₁ 0 {f}) (hnv : n ≤ v) (hv : v < trapframeVpn) :
    Outcome (pt.mapPerPage m₁ v f fl)
      (fun m' => Grown m m' pt.rootPpn trap tramp N D (v + 1)
        (Function.update V v (some (pteV ||| fl, m₁.ram f))) 3)
      (fun e => e = .panic "memory is full" ∧ m.free.card < 3) := by
  have hf : f ∈ ({f} : Multiset ℕ) := Multiset.mem_singleton_self f
  have hlt : f < 2 ^ 44 := ha.new_lt hg hf
  have hv27 : v < 2 ^ 27 := lt_trans hv (by decide)
  have ha₁ : Apart m₁ (N + D + {f}) := ha.grows hg
  have hagree : ∀ x ∈ N + D, m₁.ram x = m.ram x := fun x hx =>
    hg.frame x (Multiset.notMem_zero x) fun hxf => ha.new_not_mem hg hxf hx
  have h₁ : Space m₁.ram pt.rootPpn trap tramp n N D V :=
    h.congr (fun x hx => hagree x (Multiset.mem_add.mpr (.inl hx)))
      fun x hx => hagree x (Multiset.mem_add.mpr (.inr hx))
  have haN : Apart m₁ N := ha₁.mono (by rw [add_assoc]; exact Multiset.le_add_right _ _)
  refine (PageTable.mapPerPage_spec_two h₁.table haN hv27 (h₁.high v hnv hv) hlt).mono ?_ ?_
  · rintro m' ⟨nt, hg', ht', hnt⟩
    refine ⟨nt, {f}, (hg.mono (Multiset.zero_le N)).trans (hg'.mono (Multiset.le_add_right _ _)),
      ?_, by rw [Multiset.card_add, Multiset.card_singleton]; omega⟩
    have hentry : ppn (new f (pteV ||| fl)) = f := ppn_new hlt _
    have hfl : flags (new f (pteV ||| fl)) = pteV ||| fl := flags_new hlt _
    have hne₁ : trampolineVpn ≠ v := by
      have : trapframeVpn < trampolineVpn := by decide
      omega
    have hs := of_table ht' (by omega : v + 1 ≤ trapframeVpn)
      (by rw [Function.update_of_ne hne₁]; exact h₁.trampoline)
      (by rw [Function.update_of_ne (by omega)]; exact h₁.trapframe)
      fun x hx hxlt => by rw [Function.update_of_ne (by omega)]; exact h₁.high x (by omega) hxlt
    rw [leaves_update hnv fun x hx hxv => h₁.high x hx (by omega), h₁.data, hentry] at hs
    refine hs.congr_pages fun x hx => ?_
    -- the frames behind the pages were not touched while the table grew
    have hkeep : ∀ y ∈ D + {f}, m'.ram y = m₁.ram y := fun y hy => by
      rw [add_assoc] at ha₁
      refine hg'.frame y (fun hN => ?_) fun hnt => ?_
      · exact Multiset.disjoint_left.mp (Multiset.nodup_add.mp ha₁.nodup_left).2.2 hN hy
      · exact ha₁.new_not_mem hg' hnt (Multiset.mem_add.mpr (.inr hy))
    by_cases hxv : x = v
    · subst hxv
      rw [pagesOf, Function.update_self, Function.update_self, Option.map_some, hfl, hentry,
        hkeep f (Multiset.mem_add.mpr (.inr hf))]
    · rw [Function.update_of_ne hxv, pagesOf, Function.update_of_ne hxv, ← h₁.pages x hx, pagesOf]
      cases hL : lookup m₁.ram pt.rootPpn x with
      | none => rfl
      | some e =>
        have hxn : x < n := by
          by_contra hge
          rw [h₁.high x (by omega) hx] at hL
          cases hL
        rw [Option.map_some, Option.map_some,
          hkeep _ (Multiset.mem_add.mpr (.inl (h₁.data ▸ mem_leaves hL hxn)))]
  · rintro e ⟨he, hcard⟩
    have := hg.card
    rw [Multiset.card_singleton] at this
    exact ⟨he, by omega⟩

end Add

/-! ## Giving it back -/

/-- **Freeing an address space**: its pages, its table and, by the flag, its trap page. -/
theorem Space.free_space {lo : ℕ} {m : Mem} {pt : PageTable} {trap tramp sz : ℕ} {N D : Multiset ℕ}
    {V : ℕ → Option (Byte × Frame)} (freeTrap : Bool)
    (h : Space m.ram pt.rootPpn trap tramp (sz / 4096) N D V) (htrap : trap < 2 ^ 44)
    (ho : Own lo m (N + (if freeTrap then {trap} else 0) + D)) :
    Outcome (freeSpace freeTrap m pt sz)
      (fun m' => ∃ d, Frees m m' N ((if freeTrap then {trap} else 0) + D + N) d)
      fun _ => False := by
  have hleaf : leaf (lookup m.ram pt.rootPpn) trapframeVpn = {trap} := by
    rw [leaf, h.trapframe, Option.elim_some, ppn_new htrap]
  have hspec : Outcome (freeSpace freeTrap m pt sz) _ _ :=
    freeSpace_spec h.table h.bound (fun v hlt hv => h.high v hv hlt)
      (by rw [hleaf, h.data]; exact ho)
  rw [hleaf, h.data] at hspec
  exact hspec

end RiscvOs
