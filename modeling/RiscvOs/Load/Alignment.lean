import RiscvOs.Load.Segment
import RiscvOs.Inv.Memory

/-!
# Segments that do not start on a page

`load_segment` takes one frame for every 4096 bytes from `p_vaddr`; `PageTable_map` maps the pages
these bytes touch, which are two where `p_vaddr` is not a multiple of 4096, and the second gets the
frame number after the first.

* `Counted`: frames taken for pages against pages mapped, over the run of `load_segment`.
* **`loadSegment_counted`**: one such segment, and more pages are mapped than frames were taken.
-/

set_option autoImplicit false

namespace RiscvOs

open PageTableEntry

/-! ## Counting pages -/

/-- The pages of the low half that a table maps. -/
def mappedPages (L : ℕ → Option Word) : Finset ℕ := {v ∈ Finset.range trapframeVpn | (L v).isSome}

theorem mem_mappedPages {L : ℕ → Option Word} {v : ℕ} :
    v ∈ mappedPages L ↔ v < trapframeVpn ∧ (L v).isSome := by
  rw [mappedPages, Finset.mem_filter, Finset.mem_range]

theorem card_mappedPages_update {L : ℕ → Option Word} {v : ℕ} {e : Word} (hv : v < trapframeVpn)
    (hL : L v = none) :
    (mappedPages (Function.update L v (some e))).card = (mappedPages L).card + 1 := by
  have hins : mappedPages (Function.update L v (some e)) = insert v (mappedPages L) := by
    ext w
    rw [Finset.mem_insert, mem_mappedPages, mem_mappedPages]
    by_cases hw : w = v
    · subst hw
      simp [hv]
    · simp [hw]
  rw [hins, Finset.card_insert_of_notMem fun hm => by simpa [hL] using (mem_mappedPages.mp hm).2]

/-- At least `c` more pages are mapped in the low half than frames were taken for pages. -/
def Counted (m m' : Mem) (root : ℕ) (N : Multiset ℕ) (c : ℤ) : Prop :=
  ∃ nt nd L, Grows m m' N (nd + nt) ∧ Table m'.ram root (N + nt) L ∧ (L trapframeVpn).isSome ∧
    (nd.card : ℤ) + c ≤ (mappedPages L).card

section Counted

variable {m m₁ m₂ : Mem} {pt : PageTable} {N : Multiset ℕ} {c c' : ℤ} {f v p : ℕ} {fl : Byte}

theorem Counted.mono (h : Counted m m₁ pt.rootPpn N c) (hc : c' ≤ c) :
    Counted m m₁ pt.rootPpn N c' := by
  obtain ⟨nt, nd, L, hg, ht, htrap, hle⟩ := h
  exact ⟨nt, nd, L, hg, ht, htrap, by omega⟩

/-- Before the first segment. -/
theorem Space.counted {trap tramp n : ℕ} {D : Multiset ℕ} {V : ℕ → Option (Byte × Frame)}
    (h : Space m.ram pt.rootPpn trap tramp n N D V) : Counted m m pt.rootPpn N 0 := by
  refine ⟨0, 0, _, Grows.refl m N, by rw [add_zero]; exact h.table, ?_, ?_⟩
  · rw [h.trapframe]
    rfl
  · rw [Multiset.card_zero]
    omega

/-- A frame is taken. -/
theorem Counted.take (h : Counted m m₁ pt.rootPpn N c) (ha : Apart m N) (hg : Grows m₁ m₂ 0 {f}) :
    Counted m m₂ pt.rootPpn N (c - 1) ∧ f ∈ m.free := by
  obtain ⟨nt, nd, L, hg₁, ht, htrap, hle⟩ := h
  have ha₁ : Apart m₁ (N + (nd + nt)) := ha.grows hg₁
  have hff : f ∈ ({f} : Multiset ℕ) := Multiset.mem_singleton_self f
  have hkeep : ∀ x ∈ N + nt, m₂.ram x = m₁.ram x := fun x hx =>
    hg.frame x (Multiset.notMem_zero x) fun hxf => ha₁.new_not_mem hg hxf (by
      rw [Multiset.mem_add] at hx ⊢
      exact hx.imp_right fun h => Multiset.mem_add.mpr (.inr h))
  refine ⟨⟨nt, nd + {f}, L, ?_, ht.congr hkeep, htrap, ?_⟩, ?_⟩
  · have := hg₁.trans (hg.mono (Multiset.zero_le _))
    rwa [add_right_comm] at this
  · rw [Multiset.card_add, Multiset.card_singleton]
    push_cast
    omega
  · rw [hg₁.free]
    exact Multiset.mem_add.mpr (.inr (Own.new_free hg hff))

/-- A page is mapped. -/
theorem Counted.mapPerPage (h : Counted m m₁ pt.rootPpn N c) (ha : Apart m N)
    (hv : v ≤ trapframeVpn) (hp : p < 2 ^ 44) :
    Outcome (pt.mapPerPage m₁ v p fl) (Counted m · pt.rootPpn N (c + 1)) fun _ => True := by
  obtain ⟨nt, nd, L, hg, ht, htrap, hle⟩ := h
  have ha₁ : Apart m₁ (N + nt) := (ha.grows hg).mono (by
    rw [add_left_comm, add_comm nd]
    exact Multiset.le_add_right _ _)
  have h27 : v < 2 ^ 27 := by
    have : trapframeVpn < 2 ^ 27 := by decide
    omega
  cases hL : L v with
  | some e =>
    exact (PageTable.mapPerPage_of_mapped ht.toPageTree ha₁ h27 hL).mono
      (fun _ h => h.elim) fun _ _ => trivial
  | none =>
    have hne : v ≠ trapframeVpn := fun he => by simp [← he, hL] at htrap
    refine (PageTable.mapPerPage_spec ht ha₁ h27 hL hp).mono ?_ fun _ _ => trivial
    rintro m₂ ⟨new, hg₂, ht₂, -⟩
    refine ⟨nt + new, nd, _, ?_, by rwa [← add_assoc], ?_, ?_⟩
    · rw [← add_assoc]
      refine hg.trans (hg₂.mono ?_)
      rw [add_left_comm, add_comm nd]
      exact Multiset.le_add_right _ _
    · rwa [Function.update_of_ne (Ne.symm hne)]
    · rw [card_mappedPages_update (by omega) hL]
      push_cast
      omega

end Counted

/-! ## The run of `load_segment` -/

/-- The pages the first program headers map beyond the frames they take. -/
def excessPages (f : ℕ → Byte) : ℕ → ℕ
  | 0 => 0
  | i + 1 => excessPages f i +
    if IsLoad f i ∧ (phdrOf f i).pVaddr % 4096 ≠ 0 then (phdrOf f i).numPages else 0

theorem numPages_pos {f : ℕ → Byte} (hd : PageDisjoint f) {i : ℕ} (hi : i < (ehdrOf f).ePhnum)
    (hl : IsLoad f i) (hpos : 0 < (phdrOf f i).pMemsz) : 0 < (phdrOf f i).numPages := by
  have hb := hd.below i hi hl
  have ht : trapframeVpn * 4096 < 2 ^ 39 := by decide
  rw [Elf64Phdr.numPages, Elf64Phdr.mapSize, pgroundup_div (by omega)]
  exact Nat.div_pos (by omega) (by decide)

theorem excessPages_pos {f : ℕ → Byte} {i n : ℕ} (hi : i < n) (hl : IsLoad f i)
    (hal : (phdrOf f i).pVaddr % 4096 ≠ 0) (hpos : 0 < (phdrOf f i).numPages) :
    0 < excessPages f n := by
  induction n with
  | zero => exact absurd hi (Nat.not_lt_zero i)
  | succ n ih =>
    rw [excessPages]
    obtain hlt | rfl := Nat.lt_succ_iff_lt_or_eq.mp hi
    · exact Nat.add_pos_left (ih hlt) _
    · rw [if_pos ⟨hl, hal⟩]
      exact Nat.add_pos_right _ hpos

section Load

variable {im : Image} {m m₁ : Mem} {pt : PageTable} {N : Multiset ℕ} {c : ℤ} {o va k u : ℕ}
  {fl : Byte}

/-- One turn of the inner loop takes a frame, and maps one page or two. -/
theorem loadPage_counted (h : Counted m m₁ pt.rootPpn N c) (ha : Apart m N)
    (hend : ∀ f ∈ m.free, f < frameEnd) (hva : va / 4096 < trapframeVpn) :
    Outcome (loadPage im pt fl o va m₁)
      (Counted m · pt.rootPpn N (c + if va % 4096 = 0 then 0 else 1)) fun _ => True := by
  have ht : trapframeVpn < 2 ^ 27 := by decide
  have he : frameEnd < 2 ^ 43 := by decide
  rw [loadPage]
  refine Outcome.bind ((kalloc_spec m₁).mono (fun _ h => h) fun _ _ => trivial) ?_
  rintro ⟨f, m₂⟩ ⟨hg, -⟩
  refine Outcome.bind ((im.read_spec o pageSize).mono (fun _ h => h) fun _ _ => trivial) ?_
  rintro - -
  have hff : f ∈ ({f} : Multiset ℕ) := Multiset.mem_singleton_self f
  obtain ⟨htake, hfree⟩ := h.take ha (hg.storeFrame hff (pageAt im.file o))
  have hf := hend f hfree
  have hpa : physAddrFromPhysPageNum f / 4096 = f := physAddrFromPhysPageNum_div (by omega)
  have hmod : virtAddrFromSizeT va = va := Nat.mod_eq_of_lt (by omega)
  by_cases hal : va % 4096 = 0
  · simp only [hmod, PageTable.map_page hal (by omega), hpa, if_pos hal]
    exact (htake.mapPerPage ha (by omega) (by omega)).imp fun _ h => h.mono (by omega)
  · simp only [hmod, PageTable.map_two_pages hal (by omega), hpa, if_neg hal]
    refine Outcome.bind (htake.mapPerPage ha (by omega) (by omega)) fun m₃ h₃ => ?_
    exact (h₃.mapPerPage ha (by omega) (by omega)).imp fun _ h => h.mono (by omega)

/-- What such a turn maps: the page of `va` to the frame it took, and the next page to the frame
after that. -/
theorem loadPage_skewed {L : ℕ → Option Word} (h : Table m.ram pt.rootPpn N L) (ha : Apart m N)
    (hend : ∀ f ∈ m.free, f < frameEnd) (hva : va / 4096 + 1 < trapframeVpn)
    (hal : va % 4096 ≠ 0) (h₀ : L (va / 4096) = none) (h₁ : L (va / 4096 + 1) = none) :
    Outcome (loadPage im pt fl o va m)
      (fun m' => ∃ f nt, Grows m m' N ({f} + nt) ∧ Table m'.ram pt.rootPpn (N + nt)
        (Function.update (Function.update L (va / 4096) (some (new f (pteV ||| fl))))
          (va / 4096 + 1) (some (new (f + 1) (pteV ||| fl)))) ∧ f < frameEnd ∧ nt.card ≤ 4)
      (fun e => (e = .panic "memory is full" ∧ m.free.card < 5) ∨
        (e = .fault ∧ ¬ im.InRange (o + 4096))) := by
  have ht : trapframeVpn < 2 ^ 27 := by decide
  have he : frameEnd < 2 ^ 43 := by decide
  rw [loadPage]
  refine Outcome.bind ((kalloc_spec m).mono (fun _ h => h) fun e he => .inl ⟨he.1, by omega⟩) ?_
  rintro ⟨f, m₁⟩ ⟨hg, -⟩
  refine Outcome.bind ((im.read_spec o pageSize).mono (fun _ h => h) fun e he => .inr he) ?_
  rintro - -
  have hff : f ∈ ({f} : Multiset ℕ) := Multiset.mem_singleton_self f
  have hf := hend f (Own.new_free hg hff)
  have hpa : physAddrFromPhysPageNum f / 4096 = f := physAddrFromPhysPageNum_div (by omega)
  have hmod : virtAddrFromSizeT va = va := Nat.mod_eq_of_lt (by omega)
  simp only [hmod, PageTable.map_two_pages hal (by omega), hpa]
  have hg₁ : Grows m (m₁.storeFrame f (pageAt im.file o)) 0 {f} := hg.storeFrame hff _
  generalize m₁.storeFrame f (pageAt im.file o) = m₂ at hg₁
  have ha₂ : Apart m₂ N := (ha.grows hg₁).mono (Multiset.le_add_right _ _)
  have ht₂ : Table m₂.ram pt.rootPpn N L := h.congr fun x hx =>
    hg₁.frame x (Multiset.notMem_zero x) fun hxf => ha.new_not_mem hg₁ hxf hx
  have hc₁ := hg₁.card
  rw [Multiset.card_singleton] at hc₁
  refine Outcome.bind ((PageTable.mapPerPage_spec_two ht₂ ha₂ (by omega) h₀ (by omega)).mono
    (fun _ h => h) fun e he => .inl ⟨he.1, by have := he.2; omega⟩) ?_
  rintro m₃ ⟨n₁, hg₃, ht₃, hn₁⟩
  have hc₃ := hg₃.card
  refine (PageTable.mapPerPage_spec_two ht₃ (ha₂.grows hg₃) (by omega)
    (by rwa [Function.update_of_ne (by omega)]) (by omega)).mono ?_
    fun e he => .inl ⟨he.1, by have := he.2; omega⟩
  rintro m₄ ⟨n₂, hg₄, ht₄, hn₂⟩
  refine ⟨f, n₁ + n₂, ?_, by rwa [← add_assoc], hf, by rw [Multiset.card_add]; omega⟩
  exact (hg₁.mono (Multiset.zero_le N)).trans
    ((hg₃.trans hg₄).mono (Multiset.le_add_right _ _))

/-- The inner loop. -/
theorem loadPages_counted (h : Counted m m₁ pt.rootPpn N c) (ha : Apart m N)
    (hend : ∀ f ∈ m.free, f < frameEnd) (hva : va + k * 4096 < trapframeVpn * 4096 + 4096) :
    Outcome (loadPages im pt fl k o va m₁)
      (Counted m · pt.rootPpn N (c + if va % 4096 = 0 then 0 else k)) fun _ => True := by
  induction k generalizing m₁ o va c with
  | zero => exact h.mono (by split_ifs <;> simp)
  | succ k ih =>
    rw [loadPages, pageSize_eq]
    refine Outcome.bind (loadPage_counted h ha hend (by omega)) fun m₂ h₂ => ?_
    have hmod : (va + 4096) % 4096 = va % 4096 := by omega
    refine (ih h₂ (by omega)).imp fun _ h => h.mono ?_
    rw [hmod]
    split_ifs
    · omega
    · push_cast
      omega

/-- One turn of the loop over the program headers. -/
theorem loadPhdr_counted {s : ℕ × Mem} {i : ℕ} (hd : PageDisjoint im.file)
    (h : Counted m s.2 pt.rootPpn N (excessPages im.file i)) (hu : s.1 = imageEnd im.file u i)
    (ha : Apart m N) (hend : ∀ f ∈ m.free, f < frameEnd) (hi : i < (ehdrOf im.file).ePhnum) :
    Outcome (loadPhdr im pt s i) (fun s' => s'.1 = imageEnd im.file u (i + 1) ∧
      Counted m s'.2 pt.rootPpn N (excessPages im.file (i + 1))) fun _ => True := by
  rw [loadPhdr]
  refine Outcome.bind ((im.read_spec _ _).mono (fun _ h => h) fun _ _ => trivial) ?_
  rintro - -
  by_cases hl : IsLoad im.file i
  · have hb := hd.below i hi hl
    have ht : trapframeVpn * 4096 < 2 ^ 39 := by decide
    have hmod : ((phdrOf im.file i).pVaddr + (phdrOf im.file i).pMemsz) % 2 ^ 64 =
        (phdrOf im.file i).pVaddr + (phdrOf im.file i).pMemsz := Nat.mod_eq_of_lt (by omega)
    have hnum : (phdrOf im.file i).mapSize / 4096 = (phdrOf im.file i).numPages := rfl
    have hsz : (phdrOf im.file i).numPages * 4096 < (phdrOf im.file i).pMemsz + 4096 := by
      rw [← hnum, Elf64Phdr.mapSize, pgroundup_div (by omega)]
      exact (Nat.div_mul_le_self _ _).trans_lt (by omega)
    simp only [if_pos (show (phdrOf im.file i).pType = ptLoad from hl), hmod, pageSize_eq, hnum]
    refine Outcome.bind (loadPages_counted h ha hend (by omega)) fun m' h' => ?_
    refine ⟨(imageEnd_of_load hl).symm, h'.mono ?_⟩
    rw [excessPages]
    push_cast
    by_cases hal : (phdrOf im.file i).pVaddr % 4096 = 0
    · simp [hal]
    · simp [hal, hl]
  · simp only [if_neg (show ¬ (phdrOf im.file i).pType = ptLoad from hl)]
    refine ⟨by rw [imageEnd_of_not_load hl]; exact hu, h.mono ?_⟩
    rw [excessPages, if_neg fun hc => hl hc.1]
    omega

/-- **Pages against frames** when `load_segment` returns. -/
theorem loadSegment_counted (hd : PageDisjoint im.file) (h : Counted m m pt.rootPpn N 0)
    (ha : Apart m N) (hend : ∀ f ∈ m.free, f < frameEnd)
    (hstack : pgroundup (imageEnd im.file u (ehdrOf im.file).ePhnum) / 4096 + 1 < trapframeVpn) :
    Outcome (loadSegment im pt u m)
      (fun r => Counted m r.2 pt.rootPpn N (excessPages im.file (ehdrOf im.file).ePhnum))
      fun _ => True := by
  have hloop : Outcome ((List.range (ehdrOf im.file).ePhnum).foldlM (loadPhdr im pt) (u, m))
      (fun s => s.1 = imageEnd im.file u (ehdrOf im.file).ePhnum ∧
        Counted m s.2 pt.rootPpn N (excessPages im.file (ehdrOf im.file).ePhnum)) fun _ => True :=
    Outcome.foldlM_range (I := fun i (s : ℕ × Mem) => s.1 = imageEnd im.file u i ∧
      Counted m s.2 pt.rootPpn N (excessPages im.file i)) ⟨rfl, h⟩
      fun i hi s hs => loadPhdr_counted hd hs.2 hs.1 ha hend hi
  have ht : trapframeVpn < 2 ^ 27 := by decide
  have he : frameEnd < 2 ^ 43 := by decide
  rw [loadSegment]
  refine Outcome.bind hloop ?_
  rintro ⟨u₁, m₁⟩ ⟨rfl, h₁⟩
  refine Outcome.bind ((kalloc_spec m₁).mono (fun _ h => h) fun _ _ => trivial) ?_
  rintro ⟨f, m₂⟩ ⟨hg, -⟩
  obtain ⟨htake, hfree⟩ := h₁.take ha hg
  have hf := hend f hfree
  have hpa : physAddrFromPhysPageNum f / 4096 = f := physAddrFromPhysPageNum_div (by omega)
  simp only [stackVa_eq (hstack.trans ht), PageTable.map_vpn (hstack.trans ht), hpa]
  refine Outcome.bind (htake.mapPerPage ha hstack.le (by omega)) fun m' h' => ?_
  exact h'.mono (by omega)

end Load

/-! ## Frames of their own -/

/-- Every page of the low half is on a frame taken since `m` that is not a frame of the table, and
no two are on the same. -/
structure OwnPages (m m' : Mem) (root : ℕ) : Prop where
  taken : ∀ v < trapframeVpn, ∀ e, lookup m'.ram root v = some e →
    ppn e ∈ m.free ∧ ppn e ∉ m'.free ∧ ppn e ∉ tableFrames m'.ram root
  distinct : ∀ v < trapframeVpn, ∀ w < trapframeVpn, ∀ e e', lookup m'.ram root v = some e →
    lookup m'.ram root w = some e' → ppn e = ppn e' → v = w

theorem leaves_injective {L : ℕ → Option Word} {n v w : ℕ} {e e' : Word}
    (hn : (leaves L 0 n).Nodup) (hv : v < n) (hw : w < n) (he : L v = some e) (he' : L w = some e')
    (heq : ppn e = ppn e') : v = w := by
  by_contra hne
  have hle : ∑ x ∈ ({v, w} : Finset ℕ), leaf L x ≤ leaves L 0 n := by
    refine Finset.sum_le_sum_of_subset fun x hx => ?_
    rw [Finset.mem_Ico]
    rw [Finset.mem_insert, Finset.mem_singleton] at hx
    omega
  rw [Finset.sum_pair hne, leaf, leaf, he, he'] at hle
  have hdup := Multiset.nodup_of_le hle hn
  rw [Multiset.nodup_add] at hdup
  exact Multiset.disjoint_left.mp hdup.2.2 (Multiset.mem_singleton_self _)
    (Multiset.mem_singleton.mpr heq)

section Own

variable {m m' : Mem} {root trap tramp n cost : ℕ} {N : Multiset ℕ} {c : ℤ}
  {V : ℕ → Option (Byte × Frame)}

/-- Pages mapped one for one are on frames of their own. -/
theorem Grown.ownPages (h : Grown m m' root trap tramp N 0 n V cost) (ha : Apart m N) :
    OwnPages m m' root := by
  obtain ⟨nt, nd, hg, hs, -⟩ := h
  have ha' : Apart m' (N + (nd + nt)) := ha.grows hg
  have hdata : leaves (lookup m'.ram root) 0 n = nd := hs.data.trans (zero_add nd)
  have hlow : ∀ v < trapframeVpn, ∀ e, lookup m'.ram root v = some e → v < n := by
    intro v hv e he
    by_contra hge
    rw [hs.high v (Nat.le_of_not_lt hge) hv] at he
    cases he
  have hnd : ∀ v < trapframeVpn, ∀ e, lookup m'.ram root v = some e → ppn e ∈ nd := by
    intro v hv e he
    rw [← hdata]
    exact mem_leaves he (hlow v hv e he)
  have hnodup : (nd + (N + nt)).Nodup := by
    rw [add_left_comm]
    exact ha'.nodup_left
  refine ⟨fun v hv e he => ⟨?_, ?_, ?_⟩, fun v hv w hw e e' he he' heq => ?_⟩
  · rw [hg.free]
    exact Multiset.mem_add.mpr (.inl (Multiset.mem_add.mpr (.inl (hnd v hv e he))))
  · exact ha'.not_mem_free (Multiset.mem_add.mpr (.inr (Multiset.mem_add.mpr
      (.inl (hnd v hv e he)))))
  · rw [hs.nodes]
    exact Multiset.disjoint_left.mp (Multiset.nodup_add.mp hnodup).2.2 (hnd v hv e he)
  · refine leaves_injective ?_ (hlow v hv e he) (hlow w hw e' he') he he' heq
    rw [hdata]
    exact (Multiset.nodup_add.mp hnodup).1

/-- With more pages than frames taken for them, some page is on a foreign frame. -/
theorem Counted.not_ownPages (h : Counted m m' root N c) (hc : 0 < c) : ¬ OwnPages m m' root := by
  intro ho
  obtain ⟨nt, nd, L, hg, ht, -, hle⟩ := h
  have h27 : trapframeVpn < 2 ^ 27 := by decide
  have hL : ∀ v ∈ mappedPages L, v < trapframeVpn ∧ ∃ e, lookup m'.ram root v = some e := by
    intro v hv
    obtain ⟨hlt, hs⟩ := mem_mappedPages.mp hv
    exact ⟨hlt, by rw [ht.lookup v (hlt.trans h27)]; exact Option.isSome_iff_exists.mp hs⟩
  have hcard : (mappedPages L).card ≤ nd.toFinset.card := by
    refine Finset.card_le_card_of_injOn (fun v => ((lookup m'.ram root v).map ppn).getD 0) ?_ ?_
    · intro v hv
      obtain ⟨hlt, e, he⟩ := hL v hv
      obtain ⟨h₁, h₂, h₃⟩ := ho.taken v hlt e he
      rw [hg.free, Multiset.mem_add, Multiset.mem_add] at h₁
      rw [ht.nodes, Multiset.mem_add, not_or] at h₃
      simp only [he, Option.map_some, Option.getD_some, Finset.mem_coe, Multiset.mem_toFinset]
      exact (h₁.resolve_right h₂).resolve_right h₃.2
    · intro v hv w hw heq
      obtain ⟨hlt, e, he⟩ := hL v hv
      obtain ⟨hlt', e', he'⟩ := hL w hw
      simp only [he, he', Option.map_some, Option.getD_some] at heq
      exact ho.distinct v hlt w hlt' e e' he he' heq
  have := hcard.trans (Multiset.toFinset_card_le nd)
  omega

end Own

end RiscvOs
