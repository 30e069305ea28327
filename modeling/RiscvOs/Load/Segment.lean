import RiscvOs.Load.Layout

/-!
# What `load_segment` builds

* `loadPages_spec`: the pages of one segment.
* `loadPhdrs_spec`: the loop over the program headers.
* **`loadSegment_spec`**: loading into an empty low half gives the layout of the image, in new
  frames. It stops only for want of frames, when the image is not in the kernel's memory, or when
  the stack would run into the trap context.
-/

set_option autoImplicit false

namespace RiscvOs

open PageTableEntry

/-! ## One segment -/

/-- The bytes of the image up to `hi` lie in the kernel's memory. -/
def Image.InRange (im : Image) (hi : ℕ) : Prop := kernbase ≤ im.start ∧ im.start + hi ≤ phystop

theorem Image.InRange.mono {im : Image} {hi hi' : ℕ} (h : im.InRange hi') (hle : hi ≤ hi') :
    im.InRange hi := ⟨h.1, by have := h.2; omega⟩

theorem Image.read_spec (im : Image) (o n : ℕ) :
    Outcome (im.read o n) (fun _ => True) fun e => e = .fault ∧ ¬ im.InRange (o + n) := by
  rw [Image.read]
  split_ifs with h
  · trivial
  · refine ⟨rfl, fun hr => h ?_⟩
    have h₁ := hr.1
    have h₂ := hr.2
    have hp : phystop < 2 ^ 64 := by decide
    rw [Nat.mod_eq_of_lt (by omega)]
    omega

/-- The pages `V`, with `k` pages of the file from `v` on laid over them. -/
def overlay (V : ℕ → Option (Byte × Frame)) (f : ℕ → Byte) (fl : Byte) (o v k : ℕ) :
    ℕ → Option (Byte × Frame) := fun x =>
  if v ≤ x ∧ x < v + k then some (pteV ||| fl, pageAt f (o + (x - v) * 4096)) else V x

theorem overlay_zero (V : ℕ → Option (Byte × Frame)) (f : ℕ → Byte) (fl : Byte) (o v : ℕ) :
    overlay V f fl o v 0 = V := by
  funext x
  exact if_neg (by omega)

theorem overlay_succ (V : ℕ → Option (Byte × Frame)) (f : ℕ → Byte) (fl : Byte) (o v k : ℕ) :
    overlay (Function.update V v (some (pteV ||| fl, pageAt f o))) f fl (o + 4096) (v + 1) k =
      overlay V f fl o v (k + 1) := by
  funext x
  by_cases hx : x = v
  · subst hx
    rw [overlay, overlay, if_neg (by omega), if_pos (by omega), Function.update_self, Nat.sub_self,
      Nat.zero_mul, Nat.add_zero]
  · rw [overlay, overlay, Function.update_of_ne hx]
    by_cases hr : v + 1 ≤ x ∧ x < v + 1 + k
    · have ho : o + 4096 + (x - (v + 1)) * 4096 = o + (x - v) * 4096 := by omega
      rw [if_pos hr, if_pos (by omega), ho]
    · rw [if_neg hr, if_neg (by omega)]

section Pages

variable {im : Image} {m : Mem} {pt : PageTable} {trap tramp n o va k : ℕ} {N D : Multiset ℕ}
  {V : ℕ → Option (Byte × Frame)} {fl : Byte}

theorem loadPage_spec (h : Space m.ram pt.rootPpn trap tramp n N D V) (ha : Apart m (N + D))
    (hal : va % 4096 = 0) (hn : n ≤ va / 4096) (hva : va / 4096 < trapframeVpn) :
    Outcome (loadPage im pt fl o va m)
      (fun m' => Grown m m' pt.rootPpn trap tramp N D (va / 4096 + 1)
        (Function.update V (va / 4096) (some (pteV ||| fl, pageAt im.file o))) 3)
      (fun e => (e = .panic "memory is full" ∧ m.free.card < 3) ∨
        (e = .fault ∧ ¬ im.InRange (o + 4096))) := by
  have ht : trapframeVpn < 2 ^ 27 := by decide
  rw [loadPage]
  refine Outcome.bind ((kalloc_spec m).mono (fun _ h => h)
    fun e he => .inl ⟨he.1, by omega⟩) ?_
  rintro ⟨f, m₁⟩ ⟨hg, -⟩
  have hff : f ∈ ({f} : Multiset ℕ) := Multiset.mem_singleton_self f
  refine Outcome.bind ((im.read_spec o pageSize).mono (fun _ h => h) fun e he => .inr he) ?_
  rintro - -
  have hpa : physAddrFromPhysPageNum f / 4096 = f := physAddrFromPhysPageNum_div (ha.new_lt hg hff)
  have hmod : virtAddrFromSizeT va = va := Nat.mod_eq_of_lt (by omega)
  simp only [hmod, PageTable.map_page hal (by omega), hpa]
  have hadd : Outcome (pt.mapPerPage (m₁.storeFrame f (pageAt im.file o)) (va / 4096) f fl) _ _ :=
    h.add_page ha (hg.storeFrame hff (pageAt im.file o)) hn hva
  rw [Mem.storeFrame_self] at hadd
  exact hadd.mono (fun _ h => h) fun e he => .inl he

/-- **The pages of a segment**, above all pages mapped so far. -/
theorem loadPages_spec (h : Space m.ram pt.rootPpn trap tramp n N D V) (ha : Apart m (N + D))
    (hal : va % 4096 = 0) (hn : n ≤ va / 4096) (hva : va / 4096 + k ≤ trapframeVpn) :
    Outcome (loadPages im pt fl k o va m)
      (fun m' => Grown m m' pt.rootPpn trap tramp N D (va / 4096 + k)
        (overlay V im.file fl o (va / 4096) k) (3 * k))
      (fun e => (e = .panic "memory is full" ∧ m.free.card < 3 * k) ∨
        (e = .fault ∧ ¬ im.InRange (o + k * 4096))) := by
  induction k generalizing m n N D V o va with
  | zero =>
    rw [overlay_zero]
    exact Grown.refl (h.mono_bound hn (by omega))
  | succ k ih =>
    rw [loadPages, pageSize_eq]
    refine Outcome.bind ((loadPage_spec h ha hal hn (by omega)).mono (fun _ h => h) ?_) ?_
    · rintro e (⟨he, hlt⟩ | ⟨he, hr⟩)
      · exact .inl ⟨he, by omega⟩
      · exact .inr ⟨he, fun hr' => hr (hr'.mono (by omega))⟩
    rintro m₁ ⟨nt, nd, hg, hs, hcard⟩
    have hnext : (va + 4096) / 4096 = va / 4096 + 1 := by omega
    have ha₁ : Apart m₁ (N + nt + (D + nd)) := by
      have := Apart.grown (X := 0) (by rwa [zero_add]) hg
      rwa [zero_add] at this
    refine (ih hs ha₁ (by omega) (by omega) (by omega)).mono ?_ ?_
    · intro m' h'
      rw [hnext, overlay_succ] at h'
      rw [show va / 4096 + (k + 1) = va / 4096 + 1 + k by omega]
      exact (Grown.trans hg hcard h').mono (by omega)
    · have := hg.card
      rintro e (⟨he, hlt⟩ | ⟨he, hr⟩)
      · exact .inl ⟨he, by omega⟩
      · exact .inr ⟨he, fun hr' => hr (hr'.mono (by omega))⟩

end Pages

/-! ## The loop over the program headers -/

/-- All the kernel reads of the image lies in its memory. -/
structure Image.Readable (im : Image) : Prop where
  headers : ∀ i < (ehdrOf im.file).ePhnum, im.InRange (phdrOffset im.file i + 56)
  segments : ∀ i < (ehdrOf im.file).ePhnum, IsLoad im.file i →
    im.InRange ((phdrOf im.file i).pOffset + (phdrOf im.file i).numPages * 4096)

theorem imageSize_mono (f : ℕ → Byte) {i j : ℕ} (h : i ≤ j) : imageSize f i ≤ imageSize f j := by
  induction j, h using Nat.le_induction with
  | base => exact le_rfl
  | succ j _ ih => exact ih.trans (Nat.le_add_right _ _)

theorem segmentPages_of_load {f : ℕ → Byte} {i : ℕ} (hl : IsLoad f i) :
    segmentPages f (i + 1) = overlay (segmentPages f i) f (phdrOf f i).mapPerm (phdrOf f i).pOffset
      (phdrOf f i).firstPage (phdrOf f i).numPages := by
  funext v
  rw [segmentPages, segmentPage, overlay]
  by_cases hr : (phdrOf f i).firstPage ≤ v ∧ v < (phdrOf f i).firstPage + (phdrOf f i).numPages
  · rw [if_pos hr, if_pos ⟨hl, hr⟩, Option.some_or]
  · rw [if_neg hr, if_neg fun h => hr h.2, Option.none_or]

theorem segmentPages_of_not_load {f : ℕ → Byte} {i : ℕ} (hl : ¬ IsLoad f i) :
    segmentPages f (i + 1) = segmentPages f i := by
  funext v
  rw [segmentPages, segmentPage, if_neg fun h => hl h.1, Option.none_or]

section Headers

variable {im : Image} {m m₁ : Mem} {pt : PageTable} {trap tramp i : ℕ} {N : Multiset ℕ}

/-- Why the loop stops: no frames for the segments, or an image outside the kernel's memory. -/
def LoadStops (im : Image) (m : Mem) (need : ℕ) (e : Halt) : Prop :=
  (e = .panic "memory is full" ∧ m.free.card < need) ∨ (e = .fault ∧ ¬ im.Readable)

/-- The invariant of the loop: the first `i` program headers are loaded. -/
def Loaded (im : Image) (pt : PageTable) (trap tramp u : ℕ) (N : Multiset ℕ) (m : Mem) (i : ℕ)
    (s : ℕ × Mem) : Prop :=
  s.1 = imageEnd im.file u i ∧ ∃ n ≤ topPage im.file i, Grown m s.2 pt.rootPpn trap tramp N 0 n
    (segmentPages im.file i) (3 * imageSize im.file i)

/-- The segments that take memory start on a page. -/
def PageAligned (f : ℕ → Byte) : Prop :=
  ∀ i < (ehdrOf f).ePhnum, IsLoad f i → 0 < (phdrOf f i).pMemsz → (phdrOf f i).pVaddr % 4096 = 0

/-- The pages of one segment. -/
theorem loadSegmentPages_spec {n : ℕ} {D : Multiset ℕ} {V : ℕ → Option (Byte × Frame)}
    (hd : PageDisjoint im.file) (hal : PageAligned im.file) (hi : i < (ehdrOf im.file).ePhnum)
    (hl : IsLoad im.file i) (h : Space m.ram pt.rootPpn trap tramp n N D V) (ha : Apart m (N + D))
    (hn : n ≤ topPage im.file i) :
    Outcome (loadPages im pt (phdrOf im.file i).mapPerm (phdrOf im.file i).numPages
        (phdrOf im.file i).pOffset (phdrOf im.file i).pVaddr m)
      (fun m' => ∃ n ≤ topPage im.file (i + 1), Grown m m' pt.rootPpn trap tramp N D n
        (overlay V im.file (phdrOf im.file i).mapPerm (phdrOf im.file i).pOffset
          (phdrOf im.file i).firstPage (phdrOf im.file i).numPages)
        (3 * (phdrOf im.file i).numPages))
      (fun e => (e = .panic "memory is full" ∧ m.free.card < 3 * (phdrOf im.file i).numPages) ∨
        (e = .fault ∧
          ¬ im.InRange ((phdrOf im.file i).pOffset + (phdrOf im.file i).numPages * 4096))) := by
  have hfirst := hn.trans (hd.topPage_le hi hl)
  obtain hz | hpos := Nat.eq_zero_or_pos (phdrOf im.file i).pMemsz
  · -- an empty segment may start anywhere
    have hnum : (phdrOf im.file i).numPages = 0 := by
      rw [Elf64Phdr.numPages, Elf64Phdr.mapSize, hz]
      decide
    rw [hnum, overlay_zero]
    exact ⟨n, hfirst.trans (hd.firstPage_le_topPage hi hl), Grown.refl h⟩
  · have hva := hal i hi hl hpos
    have htop := hd.topPage_succ hi hl hva
    have hle := hd.topPage_le_trapframe (i := i + 1) hi
    rw [htop] at hle ⊢
    exact (loadPages_spec h ha hva hfirst hle).imp fun m' h' => ⟨_, le_rfl, h'⟩

/-- One turn of the loop. -/
theorem loadPhdr_spec {u : ℕ} {s : ℕ × Mem} (hd : PageDisjoint im.file)
    (hal : PageAligned im.file) (ha : Apart m N) (hi : i < (ehdrOf im.file).ePhnum)
    (h : Loaded im pt trap tramp u N m i s) :
    Outcome (loadPhdr im pt s i) (Loaded im pt trap tramp u N m (i + 1))
      (LoadStops im m (3 * imageSize im.file (ehdrOf im.file).ePhnum)) := by
  obtain ⟨hu, n, hn, nt, nd, hg, hs, hcard⟩ := h
  rw [loadPhdr]
  refine Outcome.bind ((im.read_spec _ _).mono (fun _ h => h)
    fun e he => .inr ⟨he.1, fun hr => he.2 (hr.headers i hi)⟩) ?_
  rintro - -
  by_cases hl : IsLoad im.file i
  · have hb := hd.below i hi hl
    have ht : trapframeVpn * 4096 < 2 ^ 39 := by decide
    have hmod : ((phdrOf im.file i).pVaddr + (phdrOf im.file i).pMemsz) % 2 ^ 64 =
        (phdrOf im.file i).pVaddr + (phdrOf im.file i).pMemsz := Nat.mod_eq_of_lt (by omega)
    have hsz : imageSize im.file (i + 1) = imageSize im.file i + (phdrOf im.file i).numPages := by
      rw [imageSize, if_pos hl]
    have hmono := imageSize_mono im.file (i := i + 1) hi
    have ha₁ : Apart s.2 (N + nt + (0 + nd)) := by
      have := Apart.grown (X := 0) (D := 0) (by rwa [zero_add, add_zero]) hg
      rwa [zero_add] at this
    have hnum : (phdrOf im.file i).mapSize / 4096 = (phdrOf im.file i).numPages := rfl
    simp only [if_pos (show (phdrOf im.file i).pType = ptLoad from hl), hmod, pageSize_eq, hnum]
    refine Outcome.bind ((loadSegmentPages_spec hd hal hi hl hs ha₁ hn).mono (fun _ h => h) ?_) ?_
    · have := hg.card
      rintro e (⟨he, hlt⟩ | ⟨he, hr⟩)
      · exact .inl ⟨he, by omega⟩
      · exact .inr ⟨he, fun hrd => hr (hrd.segments i hi hl)⟩
    · rintro m' ⟨n', hn', h'⟩
      refine ⟨(imageEnd_of_load hl).symm, n', hn', ?_⟩
      rw [segmentPages_of_load hl, hsz]
      exact (Grown.trans hg hcard h').mono (by omega)
  · have hsz : imageSize im.file (i + 1) = imageSize im.file i := by
      rw [imageSize, if_neg hl, Nat.add_zero]
    simp only [if_neg (show ¬ (phdrOf im.file i).pType = ptLoad from hl)]
    refine ⟨by rw [imageEnd_of_not_load hl]; exact hu, n, ?_, nt, nd, hg, ?_, by rwa [hsz]⟩
    · rwa [topPage, imageEnd_of_not_load hl]
    · rwa [segmentPages_of_not_load hl]

/-- The whole loop. -/
theorem loadPhdrs_spec {u : ℕ} (hd : PageDisjoint im.file) (hal : PageAligned im.file)
    (ha : Apart m N) (h : Space m.ram pt.rootPpn trap tramp 0 N 0 fun _ => none) :
    Outcome ((List.range (ehdrOf im.file).ePhnum).foldlM (loadPhdr im pt) (u, m))
      (Loaded im pt trap tramp u N m (ehdrOf im.file).ePhnum)
      (LoadStops im m (3 * imageSize im.file (ehdrOf im.file).ePhnum)) := by
  refine Outcome.foldlM_range ⟨rfl, 0, Nat.zero_le _, ?_⟩ fun i hi s hs =>
    loadPhdr_spec hd hal ha hi hs
  exact Grown.refl h

end Headers

/-! ## `load_segment` -/

section Segment

variable {im : Image} {m : Mem} {pt : PageTable} {trap tramp u : ℕ} {N : Multiset ℕ}

/-- Where `load_segment` puts the stack page. -/
theorem stackVa_eq {x : ℕ} (hx : pgroundup x / 4096 + 1 < 2 ^ 27) :
    virtAddrFromSizeT (((2 * pageSize + pgroundup x) % 2 ^ 64 + 2 ^ 64 - pageSize) % 2 ^ 64) =
      (pgroundup x / 4096 + 1) * 4096 := by
  have hal : pgroundup x % 4096 = 0 := by
    rw [pgroundup, pageSize_eq]
    exact Nat.mul_mod_left _ _
  rw [virtAddrFromSizeT, pageSize_eq]
  generalize pgroundup x = y at hx hal
  omega

theorem ustack_eq {x : ℕ} (hx : pgroundup x / 4096 + 1 < 2 ^ 27) :
    (2 * pageSize + pgroundup x) % 2 ^ 64 = (pgroundup x / 4096 + 1 + 1) * 4096 := by
  have hal : pgroundup x % 4096 = 0 := by
    rw [pgroundup, pageSize_eq]
    exact Nat.mul_mod_left _ _
  rw [pageSize_eq]
  generalize pgroundup x = y at hx hal
  omega

/-- Mapping the stack page `v`. -/
theorem loadStack_spec {D : Multiset ℕ} {m₁ m₂ : Mem} {f n v : ℕ}
    {V : ℕ → Option (Byte × Frame)} (ha : Apart m₁ (N + D)) (hg : Grows m₁ m₂ 0 {f})
    (hz : m₂.ram f = fun _ => 0) (h : Space m₁.ram pt.rootPpn trap tramp n N D V) (hn : n ≤ v)
    (hv : v < 2 ^ 27) :
    Outcome (pt.mapPerPage m₂ v f (pteR ||| pteW ||| pteU))
      (fun m' => Grown m₁ m' pt.rootPpn trap tramp N D (v + 1)
        (Function.update V v (some (pteV ||| (pteR ||| pteW ||| pteU), fun _ => 0))) 3)
      (fun e => (e = .panic "memory is full" ∧ m₁.free.card < 3) ∨ trapframeVpn ≤ v) := by
  by_cases hlt : v < trapframeVpn
  · have hadd : Outcome (pt.mapPerPage m₂ v f (pteR ||| pteW ||| pteU)) _ _ :=
      h.add_page ha hg hn hlt
    rw [hz] at hadd
    exact hadd.mono (fun _ h => h) fun e he => .inl he
  · -- the page is the trap context or the trampoline, both of which are mapped
    have hkeep : ∀ x ∈ N, m₂.ram x = m₁.ram x := fun x hx =>
      hg.frame x (Multiset.notMem_zero x) fun hxf =>
        ha.new_not_mem hg hxf (Multiset.mem_add.mpr (.inl hx))
    have ht₂ := h.table.congr hkeep
    have ha₂ : Apart m₂ N := (ha.grows hg).mono
      (by rw [add_assoc]; exact Multiset.le_add_right _ _)
    have hv' : v = trapframeVpn ∨ v = trampolineVpn := by
      have h₁ : trampolineVpn = trapframeVpn + 1 := by decide
      have h₂ : trampolineVpn + 1 = 2 ^ 27 := by decide
      omega
    have hmapped : ∃ e, lookup m₁.ram pt.rootPpn v = some e := by
      obtain rfl | rfl := hv'
      · exact ⟨_, h.trapframe⟩
      · exact ⟨_, h.trampoline⟩
    obtain ⟨e, he⟩ := hmapped
    exact (PageTable.mapPerPage_of_mapped ht₂.toPageTree ha₂ hv he).mono (fun _ h => h.elim)
      fun _ _ => .inr (Nat.le_of_not_lt hlt)

/-- **`load_segment` builds the layout of the image**, for segments that may be empty or absent. -/
theorem loadSegment_spec_of_aligned (hd : PageDisjoint im.file) (hal : PageAligned im.file)
    (ha : Apart m N) (h : Space m.ram pt.rootPpn trap tramp 0 N 0 fun _ => none) {v : ℕ}
    (hv : v = pgroundup (imageEnd im.file u (ehdrOf im.file).ePhnum) / 4096 + 1)
    (hlt : v < 2 ^ 27) :
    Outcome (loadSegment im pt u m)
      (fun r => r.1 = (v + 1) * 4096 ∧ Grown m r.2 pt.rootPpn trap tramp N 0 (v + 1)
        (Function.update (segmentPages im.file (ehdrOf im.file).ePhnum) v
          (some (pteV ||| (pteR ||| pteW ||| pteU), fun _ => 0)))
        (3 * (imageSize im.file (ehdrOf im.file).ePhnum + 1)))
      (fun e => LoadStops im m (3 * (imageSize im.file (ehdrOf im.file).ePhnum + 1)) e ∨
        trapframeVpn ≤ v) := by
  subst hv
  rw [loadSegment]
  refine Outcome.bind ((loadPhdrs_spec hd hal ha h).mono (fun _ h => h) ?_) ?_
  · rintro e (⟨he, hlt⟩ | hf)
    · exact .inl (.inl ⟨he, by omega⟩)
    · exact .inl (.inr hf)
  rintro ⟨u₁, m₁⟩ ⟨rfl, n, hn, nt, nd, hg, hs, hcard⟩
  have hgc : m.free.card = (nd + nt).card + m₁.free.card := hg.card
  have ha₁ : Apart m₁ (N + nt + (0 + nd)) := by
    have := Apart.grown (X := 0) (D := 0) (by rwa [zero_add, add_zero]) hg
    rwa [zero_add] at this
  have htop := hn.trans (topPage_le_of_start im.file u _)
  refine Outcome.bind ((kalloc_spec m₁).mono (fun _ h => h)
    fun e he => .inl (.inl ⟨he.1, by have := he.2; omega⟩)) ?_
  rintro ⟨f, m₂⟩ ⟨hg₂, hz⟩
  have hff : f ∈ ({f} : Multiset ℕ) := Multiset.mem_singleton_self f
  have hpa : physAddrFromPhysPageNum f / 4096 = f :=
    physAddrFromPhysPageNum_div (ha₁.new_lt hg₂ hff)
  simp only [stackVa_eq hlt, PageTable.map_vpn hlt, hpa]
  refine Outcome.bind ((loadStack_spec ha₁ hg₂ hz hs (by omega) hlt).mono (fun _ h => h) ?_) ?_
  · rintro e (⟨he, hlt⟩ | hf)
    · exact .inl (.inl ⟨he, by omega⟩)
    · exact .inr hf
  · intro m' h'
    exact ⟨ustack_eq hlt, (Grown.trans hg hcard h').mono (by omega)⟩

theorem WfLayout.pageAligned {f : ℕ → Byte} (h : WfLayout f) : PageAligned f :=
  fun i hi hl _ => h.aligned i hi hl

/-- **`load_segment` builds the layout of the image.** -/
theorem loadSegment_spec (hwf : WfLayout im.file) (ha : Apart m N)
    (h : Space m.ram pt.rootPpn trap tramp 0 N 0 fun _ => none) :
    Outcome (loadSegment im pt u m)
      (fun r => r.1 = imageTop im.file ∧ Grown m r.2 pt.rootPpn trap tramp N 0
        (imageTop im.file / 4096) (imagePages im.file)
        (3 * (imageSize im.file (ehdrOf im.file).ePhnum + 1)))
      (fun e => LoadStops im m (3 * (imageSize im.file (ehdrOf im.file).ePhnum + 1)) e ∨
        trapframeVpn ≤ stackPage im.file) := by
  have hv : stackPage im.file =
      pgroundup (imageEnd im.file u (ehdrOf im.file).ePhnum) / 4096 + 1 := by
    rw [stackPage, imageEnd_eq (u := u) hwf.exists_load]
  have hlt : stackPage im.file < 2 ^ 27 := by
    have hle := hwf.topPage_le_trapframe le_rfl
    have ht : trapframeVpn + 1 < 2 ^ 27 := by decide
    change topPage im.file (ehdrOf im.file).ePhnum + 1 < 2 ^ 27
    omega
  have hdiv : imageTop im.file / 4096 = stackPage im.file + 1 := Nat.mul_div_cancel _ (by decide)
  rw [hdiv]
  exact loadSegment_spec_of_aligned hwf.toPageDisjoint hwf.pageAligned ha h hv hlt

end Segment

end RiscvOs
