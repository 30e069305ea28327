import RiscvOs.Inv.Histories
import RiscvOs.Load.Alignment
import RiscvOs.Load.Contents

/-!
# What `load_segment` makes of an image

* **`load_segment_layout`**: the segments with their permissions and file bytes, a guard page and a
  zeroed stack page.
* **`zero_data_iff`**: memory beyond the file's part of a segment starts as whatever follows the
  segment in the kernel image.
* **`own_pages_iff`**: every page is on a frame taken for it exactly when the segments start on
  pages.
-/

set_option autoImplicit false

namespace RiscvOs

open PageTableEntry

/-! ## The layout -/

/-- The pages `V` of the low half and the top `ustack` are those of a process that runs the image
`f`. -/
structure ImageLayout (f : ℕ → Byte) (V : ℕ → Option (Byte × Frame)) (ustack : ℕ) : Prop where
  /-- Exactly the pages of the segments and the stack page are mapped. -/
  mapped : ∀ v < trapframeVpn, V v ≠ none ↔
    (∃ i < (ehdrOf f).ePhnum, IsLoad f i ∧ (phdrOf f i).pVaddr ≤ v * 4096 ∧
      v * 4096 < (phdrOf f i).pVaddr + (phdrOf f i).pMemsz) ∨ v + 1 = ustack / 4096
  /-- The permissions are those of the segment. -/
  flags : ∀ i < (ehdrOf f).ePhnum, IsLoad f i → ∀ v, (phdrOf f i).pVaddr ≤ v * 4096 →
    v * 4096 < (phdrOf f i).pVaddr + (phdrOf f i).pMemsz →
    (V v).map Prod.fst = some (pteV ||| (pteU |||
      ((if (phdrOf f i).pFlags &&& pfR ≠ 0 then pteR else 0) |||
        (if (phdrOf f i).pFlags &&& pfW ≠ 0 then pteW else 0) |||
        (if (phdrOf f i).pFlags &&& pfX ≠ 0 then pteX else 0))))
  /-- The bytes are those of the file. -/
  bytes : ∀ i < (ehdrOf f).ePhnum, IsLoad f i → ∀ o < (phdrOf f i).pFilesz,
    lowByte V ((phdrOf f i).pVaddr + o) = some (f ((phdrOf f i).pOffset + o))
  /-- The stack page is the last one, and zero. -/
  stack : V (ustack / 4096 - 1) = some (pteV ||| (pteR ||| pteW ||| pteU), fun _ => 0)
  /-- It lies above the segments, with a page between. -/
  guard : V (ustack / 4096 - 2) = none
  above : ∀ i < (ehdrOf f).ePhnum, IsLoad f i →
    (phdrOf f i).pVaddr + (phdrOf f i).pMemsz ≤ ustack - 2 * 4096
  aligned : ustack % 4096 = 0
  bound : ∀ v < trapframeVpn, V v ≠ none → v < ustack / 4096

section Layout

variable {f : ℕ → Byte} {i v : ℕ}

theorem and_mod_256 (n : ℕ) {b : ℕ} (hb : b < 256) : n % 2 ^ 8 &&& b = n &&& b := by
  apply Nat.eq_of_testBit_eq
  intro j
  rw [Nat.testBit_and, Nat.testBit_and, Nat.testBit_mod_two_pow]
  by_cases hj : j < 8
  · simp [hj]
  · have : b.testBit j = false := Nat.testBit_lt_two_pow
      (hb.trans_le (Nat.pow_le_pow_right (by decide : 0 < 2) (Nat.le_of_not_lt hj)))
    simp [this]

/-- `map_perm`, bit by bit. -/
theorem mapPerm_eq (ph : Elf64Phdr) : ph.mapPerm = pteU |||
    ((if ph.pFlags &&& pfR ≠ 0 then pteR else 0) ||| (if ph.pFlags &&& pfW ≠ 0 then pteW else 0) |||
      (if ph.pFlags &&& pfX ≠ 0 then pteX else 0)) := by
  rw [Elf64Phdr.mapPerm, flagsToMmapProt, and_mod_256 _ (by decide), and_mod_256 _ (by decide),
    and_mod_256 _ (by decide)]

theorem stackPage_eq (f : ℕ → Byte) : stackPage f = topPage f (ehdrOf f).ePhnum + 1 := rfl

/-- **The layout of an image**, in pages that agree with it on the low half. -/
theorem WfLayout.imageLayout (h : WfLayout f) {V : ℕ → Option (Byte × Frame)}
    (hsz : ∀ i < (ehdrOf f).ePhnum, IsLoad f i → (phdrOf f i).pFilesz ≤ (phdrOf f i).pMemsz)
    (hst : stackPage f < trapframeVpn) (hV : ∀ v < trapframeVpn, V v = imagePages f v) :
    ImageLayout f V (imageTop f) := by
  have htop : imageTop f / 4096 = stackPage f + 1 := Nat.mul_div_cancel _ (by decide)
  have hseg : ∀ i < (ehdrOf f).ePhnum, IsLoad f i → ∀ v, (phdrOf f i).Covers v →
      V v = imagePages f v := fun i hi hl v hc =>
    hV v ((Nat.lt_of_succ_lt (h.covered_lt_stack hi hl hc)).trans hst)
  have hcov : ∀ v < trapframeVpn, v ≠ stackPage f → V v ≠ none →
      ∃ i < (ehdrOf f).ePhnum, IsLoad f i ∧ (phdrOf f i).Covers v := fun v hlt hv hne => by
    by_contra hno
    push Not at hno
    exact hne ((hV v hlt).trans (imagePages_eq_none hv hno))
  refine ⟨fun v hlt => ?_, fun i hi hl v h₁ h₂ => ?_, fun i hi hl o ho => ?_, ?_, ?_,
    fun i hi hl => ?_, Nat.mul_mod_left _ _, fun v hlt hne => ?_⟩
  · rw [htop]
    constructor
    · intro hne
      by_cases hv : v = stackPage f
      · exact .inr (by rw [hv])
      · obtain ⟨i, hi, hl, hc⟩ := hcov v hlt hv hne
        exact .inl ⟨i, hi, hl, (h.covers_iff hi hl).mp hc⟩
    · rw [hV v hlt]
      rintro (⟨i, hi, hl, hc⟩ | hv)
      · rw [h.imagePages_load hi hl ((h.covers_iff hi hl).mpr hc)]
        exact Option.some_ne_none _
      · obtain rfl : v = stackPage f := by omega
        rw [imagePages_stack]
        exact Option.some_ne_none _
  · have hc := (h.covers_iff hi hl).mpr ⟨h₁, h₂⟩
    rw [hseg i hi hl v hc, h.imagePages_load hi hl hc, Option.map_some, mapPerm_eq]
  · have ho' := ho.trans_le (hsz i hi hl)
    have hal := h.aligned i hi hl
    have hc : (phdrOf f i).Covers (((phdrOf f i).pVaddr + o) / 4096) :=
      (h.covers_iff hi hl).mpr (by omega)
    rw [lowByte, hseg i hi hl _ hc]
    exact h.imageByte_load hi hl ho'
  · rw [htop, Nat.add_sub_cancel, hV _ hst, imagePages_stack]
  · have hg : stackPage f + 1 - 2 = topPage f (ehdrOf f).ePhnum := by
      rw [stackPage_eq]
      omega
    rw [htop, hg, hV _ (by rw [stackPage_eq] at hst; omega)]
    refine imagePages_eq_none (by rw [stackPage_eq]; omega) fun i hi hl hc => ?_
    have h₁ := h.topPage_mono hi le_rfl hl
    have h₂ := hc.2
    omega
  · have h₁ := h.topPage_mono hi le_rfl hl
    have hb := h.below i hi hl
    have hal := h.aligned i hi hl
    have ht : trapframeVpn * 4096 < 2 ^ 39 := by decide
    rw [Elf64Phdr.firstPage, Elf64Phdr.numPages, Elf64Phdr.mapSize, pgroundup_div (by omega)] at h₁
    rw [imageTop, stackPage_eq]
    omega
  · rw [htop]
    by_cases hv : v = stackPage f
    · omega
    · obtain ⟨i, hi, hl, hc⟩ := hcov v hlt hv hne
      have := h.covered_lt_stack hi hl hc
      omega

end Layout

section Segment

variable {im : Image} {m : Mem} {pt : PageTable} {trap tramp u : ℕ} {N : Multiset ℕ}

/-- **`load_segment` builds the layout of the image**, in a table that holds the two high pages, and
with enough memory it does so. -/
theorem load_segment_layout (hwf : WfLayout im.file)
    (hsz : ∀ i < (ehdrOf im.file).ePhnum, IsLoad im.file i →
      (phdrOf im.file i).pFilesz ≤ (phdrOf im.file i).pMemsz)
    (h : Space m.ram pt.rootPpn trap tramp 0 N 0 fun _ => none) (ha : Apart m N) :
    (∀ r, loadSegment im pt u m = .ok r →
      ImageLayout im.file (pagesOf r.2.ram (lookup r.2.ram pt.rootPpn)) r.1) ∧
    (3 * (imageSize im.file (ehdrOf im.file).ePhnum + 1) ≤ m.free.card → im.Readable →
      stackPage im.file < trapframeVpn → ∃ r, loadSegment im pt u m = .ok r) := by
  have hspec := loadSegment_spec (u := u) hwf ha h
  constructor
  · intro r hr
    obtain ⟨hu, nt, nd, -, hs, -⟩ := hspec.of_ok hr
    have hb := hs.bound
    rw [imageTop, Nat.mul_div_cancel _ (by decide)] at hb
    rw [hu]
    exact hwf.imageLayout hsz hb hs.pages
  · intro hfree hread hstack
    obtain ⟨r, hr, -⟩ := hspec.exists_ok fun e he => by
      obtain (⟨-, hlt⟩ | ⟨-, hr⟩) | hge := he
      · omega
      · exact hr hread
      · omega
    exact ⟨r, hr⟩

end Segment

/-! ## An empty table -/

/-- A machine after power-on, with the frames of 64 MiB to hand out. -/
def blank : Mem where
  ram := fun _ _ => 0
  memoryAllocator := stackFrameAllocatorNew 0x80300 0x84300 (by decide)
  console := []

theorem blank_free : blank.free = (Finset.Ico 0x80300 0x84300).val := zero_add _

theorem blank_apart : Apart blank 0 where
  nodup := by
    rw [zero_add, blank_free]
    exact Finset.nodup _
  lt f hf := by
    rw [blank_free, Finset.mem_val, Finset.mem_Ico] at hf
    omega

/-- A table that holds the two high pages only, and memory for a program. -/
theorem exists_emptyTable (cfg : Config) : ∃ (m : Mem) (pt : PageTable) (N : Multiset ℕ),
    Space m.ram pt.rootPpn 0 cfg.trampolinePpn 0 N 0 (fun _ => none) ∧ Apart m N ∧
      1000 ≤ m.free.card ∧ ∀ f ∈ m.free, f < 0x84300 := by
  have hcard : blank.free.card = 0x4000 := by
    rw [Mem.card_free]
    rfl
  have hspec : Outcome (procTable cfg blank 0) _ _ := procTable_spec blank_apart (by decide)
  obtain ⟨⟨pt, m⟩, -, N, hg, hN, hs⟩ := hspec.exists_ok fun e he => by
    have := he.2
    omega
  refine ⟨m, pt, N, hs, ?_, ?_, fun f hf => ?_⟩
  · have := blank_apart.grows hg
    rwa [zero_add] at this
  · have hc : blank.free.card = N.card + m.free.card := hg.card
    omega
  · have : f ∈ blank.free := hg.free ▸ Multiset.mem_add.mpr (.inr hf)
    rw [blank_free, Finset.mem_val, Finset.mem_Ico] at this
    exact this.2

/-! ## An image with two segments -/

/-- An ELF file with two segments, eight bytes of text at address 0 and two pages of data above it,
and between their headers that of the RISC-V attributes. -/
def linkedImage : List Byte :=
  [0x7f, 0x45, 0x4c, 0x46, 2, 1, 1] ++ List.replicate 9 0 ++ [2, 0, 0xf3, 0, 1, 0, 0, 0] ++
  List.replicate 8 0 ++ [0x40] ++ List.replicate 19 0 ++ [0x40, 0, 0x38, 0, 3, 0] ++
  List.replicate 6 0 ++
  -- the program headers: text, attributes, data
  [1, 0, 0, 0, 5, 0, 0, 0] ++ [0xe8] ++ List.replicate 23 0 ++ [8] ++ List.replicate 7 0 ++ [8] ++
  List.replicate 8 0 ++ [0x10] ++ List.replicate 6 0 ++
  [3, 0, 0, 0x70, 4, 0, 0, 0] ++ [0xf0] ++ List.replicate 23 0 ++ [8] ++ List.replicate 15 0 ++
  [1] ++ List.replicate 7 0 ++
  [1, 0, 0, 0, 6, 0, 0, 0] ++ [0xf0] ++ List.replicate 8 0 ++ [0x10] ++ List.replicate 14 0 ++
  [8] ++ List.replicate 8 0 ++ [0x20] ++ List.replicate 7 0 ++ [0x10] ++ List.replicate 6 0 ++
  [0x73, 0, 0, 0, 0x6f, 0, 0, 0] ++ [0x69, 0x6e, 0x69, 0x74, 0, 0, 0, 0]

def linked : Image := ⟨kernbase, fun x => linkedImage.getD (x - kernbase) 0⟩

theorem linked_ehdr : ehdrOf linked.file = ⟨elfmag, elfclass64, emRiscv, 0, 64, 56, 3⟩ := by
  decide +kernel

theorem linked_text : phdrOf linked.file 0 = ⟨ptLoad, 5, 232, 0, 8, 8⟩ := by decide +kernel

theorem linked_attributes : phdrOf linked.file 1 = ⟨0x70000003, 4, 240, 0, 8, 0⟩ := by
  decide +kernel

theorem linked_data : phdrOf linked.file 2 = ⟨ptLoad, 6, 240, 4096, 8, 8192⟩ := by decide +kernel

theorem linked_isLoad {i : ℕ} (hi : i < (ehdrOf linked.file).ePhnum) (hl : IsLoad linked.file i) :
    i = 0 ∨ i = 2 := by
  rw [linked_ehdr] at hi
  have hne : i ≠ 1 := by
    rintro rfl
    rw [IsLoad, linked_attributes] at hl
    exact absurd hl (by decide)
  have : i < 3 := hi
  omega

/-- A property of both segments. -/
theorem linked_load {P : Elf64Phdr → Prop} (ht : P ⟨ptLoad, 5, 232, 0, 8, 8⟩)
    (hd : P ⟨ptLoad, 6, 240, 4096, 8, 8192⟩) (i : ℕ) (hi : i < (ehdrOf linked.file).ePhnum)
    (hl : IsLoad linked.file i) : P (phdrOf linked.file i) := by
  obtain rfl | rfl := linked_isLoad hi hl
  · rwa [linked_text]
  · rwa [linked_data]

theorem linked_wf : WfLayout linked.file where
  ascending i j hij hj hli hlj := by
    obtain rfl : i = 0 := by
      have := linked_isLoad (hij.trans hj) hli
      have := linked_isLoad hj hlj
      omega
    obtain rfl : j = 2 := by
      have := linked_isLoad hj hlj
      omega
    rw [linked_text, linked_data]
    decide
  below := linked_load (P := fun ph => ph.pVaddr + ph.pMemsz ≤ trapframeVpn * 4096) (by decide)
    (by decide)
  exists_load := ⟨0, by rw [linked_ehdr]; decide, by rw [IsLoad, linked_text]⟩
  aligned := linked_load (P := fun ph => ph.pVaddr % 4096 = 0) rfl rfl

theorem linked_readable : linked.Readable where
  headers i hi := by
    have hlt : i < 3 := by rwa [linked_ehdr] at hi
    refine ⟨le_rfl, ?_⟩
    rw [phdrOffset, linked_ehdr]
    change kernbase + (64 + 56 * i + 56) ≤ phystop
    have : kernbase + 232 ≤ phystop := by decide
    omega
  segments := linked_load (P := fun ph => linked.InRange (ph.pOffset + ph.numPages * 4096))
    ⟨le_rfl, by decide⟩ ⟨le_rfl, by decide⟩

theorem linked_imageSize : imageSize linked.file (ehdrOf linked.file).ePhnum = 3 := by
  rw [linked_ehdr]
  simp only [imageSize]
  rw [if_pos (by rw [IsLoad, linked_text]), if_neg (by rw [IsLoad, linked_attributes]; decide),
    if_pos (by rw [IsLoad, linked_data]), linked_text, linked_data]
  decide

theorem linked_stackPage : stackPage linked.file = 4 := by
  rw [stackPage, linked_ehdr, imageEnd_of_load (by rw [IsLoad, linked_data]), linked_data]
  decide

/-- Its segments, loaded. -/
theorem load_segment_layout_linked : ∃ (m : Mem) (pt : PageTable) (r : ℕ × Mem),
    loadSegment linked pt 0 m = .ok r ∧
      ImageLayout linked.file (pagesOf r.2.ram (lookup r.2.ram pt.rootPpn)) r.1 := by
  obtain ⟨m, pt, N, hs, ha, hfree, -⟩ := exists_emptyTable tiny
  have h := load_segment_layout (u := 0) linked_wf
    (linked_load (P := fun ph => ph.pFilesz ≤ ph.pMemsz) le_rfl (by decide)) hs ha
  obtain ⟨r, hr⟩ := h.2 (by rw [linked_imageSize]; omega) linked_readable
    (by rw [linked_stackPage]; decide)
  exact ⟨m, pt, r, hr, h.1 r hr⟩

/-! ## Data beyond the file -/

section Zero

variable {im : Image} {m : Mem} {pt : PageTable} {trap tramp u : ℕ} {N : Multiset ℕ}

/-- **What `load_segment` puts behind the file's part of a segment** is what follows it in the
kernel image: it is zero exactly when that is. -/
theorem zero_data_iff (hwf : WfLayout im.file)
    (h : Space m.ram pt.rootPpn trap tramp 0 N 0 fun _ => none) (ha : Apart m N) {r : ℕ × Mem}
    (hr : loadSegment im pt u m = .ok r) :
    (∀ i < (ehdrOf im.file).ePhnum, IsLoad im.file i → ∀ o, (phdrOf im.file i).pFilesz ≤ o →
      o < (phdrOf im.file i).pMemsz → lowByte (pagesOf r.2.ram (lookup r.2.ram pt.rootPpn))
        ((phdrOf im.file i).pVaddr + o) = some 0) ↔
    ∀ i < (ehdrOf im.file).ePhnum, IsLoad im.file i → ∀ o, (phdrOf im.file i).pFilesz ≤ o →
      o < (phdrOf im.file i).pMemsz → im.file ((phdrOf im.file i).pOffset + o) = 0 := by
  obtain ⟨-, nt, nd, -, hs, -⟩ := (loadSegment_spec (u := u) hwf ha h).of_ok hr
  have hbyte : ∀ i < (ehdrOf im.file).ePhnum, IsLoad im.file i →
      ∀ o < (phdrOf im.file i).pMemsz, lowByte (pagesOf r.2.ram (lookup r.2.ram pt.rootPpn))
        ((phdrOf im.file i).pVaddr + o) = some (im.file ((phdrOf im.file i).pOffset + o)) := by
    intro i hi hl o ho
    have hb := hwf.below i hi hl
    rw [lowByte, hs.pages _ (by omega)]
    exact hwf.imageByte_load hi hl ho
  constructor
  · intro hz i hi hl o h₁ h₂
    have := hz i hi hl o h₁ h₂
    rwa [hbyte i hi hl o h₂, Option.some_inj] at this
  · intro hz i hi hl o h₁ h₂
    rw [hbyte i hi hl o h₂, hz i hi hl o h₁ h₂]

end Zero

section Tiny

variable (env : Env tiny)

theorem tiny_layout : WfLayout (tinyApp.view env).file :=
  tinyApp_wf.layout_of_agree fun _ => App.view_file tinyApp_mem env

theorem tiny_loads {i : ℕ} (hi : i < (ehdrOf (tinyApp.view env).file).ePhnum) : i = 0 := by
  rw [tiny_ehdr] at hi
  exact Nat.lt_one_iff.mp hi

theorem tiny_loadNeed :
    3 * (imageSize (tinyApp.view env).file (ehdrOf (tinyApp.view env).file).ePhnum + 1) = 9 := by
  have := tiny_imageNeed env
  rw [imageNeed] at this
  omega

end Tiny

/-- Where zeros follow the program of the small system, its data starts as zero. -/
theorem zero_data_iff_tiny : ∃ (m : Mem) (pt : PageTable) (r : ℕ × Mem),
    loadSegment (tinyApp.view (tinyEnv (-1) 0)) pt 0 m = .ok r ∧
      ∀ o, 8 ≤ o → o < 8192 →
        lowByte (pagesOf r.2.ram (lookup r.2.ram pt.rootPpn)) o = some 0 := by
  have hb := tiny_bootable 0
  obtain ⟨m, pt, N, hs, ha, hfree, -⟩ := exists_emptyTable tiny
  have hwf := tiny_layout (tinyEnv (-1) 0)
  have hspec := loadSegment_spec (u := 0) hwf ha hs
  rw [tiny_loadNeed] at hspec
  obtain ⟨r, hr, -⟩ := hspec.exists_ok fun e he => by
    obtain (⟨-, hlt⟩ | ⟨-, hno⟩) | hge := he
    · omega
    · exact hno hb.readable
    · exact absurd hb.stack (Nat.not_lt.mpr hge)
  refine ⟨m, pt, r, hr, fun o h₁ h₂ => ?_⟩
  have hzero : ∀ o, 8 ≤ o → o < 8192 → (tinyApp.view (tinyEnv (-1) 0)).file (120 + o) = 0 := by
    intro o h₁ h₂
    refine if_neg fun hin => ?_
    have hstart : (tinyApp.view (tinyEnv (-1) 0)).start = 0x80202000 := rfl
    have happ : tinyApp.start = 0x80202000 := rfl
    have := hin.2
    omega
  have h := (zero_data_iff hwf hs ha hr).mpr (fun i hi _ o h₁ h₂ => by
    rw [tiny_loads _ hi, tiny_phdr] at h₁ h₂ ⊢
    exact hzero o h₁ h₂) 0 (by rw [tiny_ehdr]; decide) (by rw [IsLoad, tiny_phdr]) o
  rw [tiny_phdr, Nat.zero_add] at h
  exact h h₁ h₂

/-- A program with 8 bytes of file and 8192 of memory, and `'A'` behind it in the kernel image: it
starts with `'A'` where it declared zero. -/
theorem data_not_zero : ∃ es k, run tiny es (start tiny (tinyStart 0x41)) = .running .user k ∧
    ((phdrOf (tinyApp.view (tinyStart 0x41).toEnv).file 0).pVaddr,
      (phdrOf (tinyApp.view (tinyStart 0x41).toEnv).file 0).pFilesz,
      (phdrOf (tinyApp.view (tinyStart 0x41).toEnv).file 0).pMemsz) = (0, 8, 8192) ∧
    lowByte (k.pages 0) 8 = some 0x41 := by
  obtain ⟨es, k, hrun, h, -, hp⟩ := tiny_first 0x41
  refine ⟨es, k, hrun, by rw [tiny_phdr], ?_⟩
  rw [lowByte, hp _ (by decide), tiny_imagePages _ (by decide), Option.map_some,
    frameByte_pageAt _ (by decide)]
  rfl

/-! ## Segments that do not start on a page -/

section Align

variable {im : Image} {m : Mem} {pt : PageTable} {trap tramp u : ℕ} {N : Multiset ℕ}

/-- **`load_segment` maps only frames it took for the page** exactly when the segments start on
pages. -/
theorem own_pages_iff (hd : PageDisjoint im.file)
    (h : Space m.ram pt.rootPpn trap tramp 0 N 0 fun _ => none) (ha : Apart m N)
    (hend : ∀ f ∈ m.free, f < frameEnd)
    (hfree : 3 * (imageSize im.file (ehdrOf im.file).ePhnum + 1) ≤ m.free.card)
    (hread : im.Readable)
    (hstack : pgroundup (imageEnd im.file u (ehdrOf im.file).ePhnum) / 4096 + 1 < trapframeVpn) :
    (∃ r, loadSegment im pt u m = .ok r ∧ OwnPages m r.2 pt.rootPpn) ↔ PageAligned im.file := by
  constructor
  · rintro ⟨r, hr, hown⟩ i hi hl hpos
    by_contra hal
    have hex := excessPages_pos hi hl hal (numPages_pos hd hi hl hpos)
    exact ((loadSegment_counted hd h.counted ha hend hstack).of_ok hr).not_ownPages (by omega) hown
  · intro hal
    have ht : trapframeVpn < 2 ^ 27 := by decide
    obtain ⟨r, hr, -, hg⟩ := (loadSegment_spec_of_aligned hd hal ha h rfl
      (hstack.trans ht)).exists_ok fun e he => by
        obtain (⟨-, hlt⟩ | ⟨-, hno⟩) | hge := he
        · omega
        · exact hno hread
        · omega
    exact ⟨r, hr, hg.ownPages ha⟩

end Align

/-- The pages of both segments are the program's own. -/
theorem own_pages_iff_linked : ∃ (m : Mem) (pt : PageTable) (r : ℕ × Mem),
    loadSegment linked pt 0 m = .ok r ∧ OwnPages m r.2 pt.rootPpn := by
  obtain ⟨m, pt, N, hs, ha, hfree, hlt⟩ := exists_emptyTable tiny
  have he : 0x84300 ≤ frameEnd := by decide
  have hstack : stackPage linked.file < trapframeVpn := by
    rw [linked_stackPage]
    decide
  obtain ⟨r, hr, hown⟩ := (own_pages_iff (u := 0) linked_wf.toPageDisjoint hs ha
    (fun f hf => (hlt f hf).trans_le he) (by rw [linked_imageSize]; omega) linked_readable
    hstack).mpr linked_wf.pageAligned
  exact ⟨m, pt, r, hr, hown⟩

/-- An ELF file with one segment of eight bytes, at the address 120 as in the file. -/
def skewedImage : List Byte :=
  [0x7f, 0x45, 0x4c, 0x46, 2, 1, 1] ++ List.replicate 9 0 ++ [2, 0, 0xf3, 0, 1, 0, 0, 0] ++
  [0x78] ++ List.replicate 7 0 ++ [0x40] ++ List.replicate 19 0 ++ [0x40, 0, 0x38, 0, 1, 0] ++
  List.replicate 6 0 ++
  [1, 0, 0, 0, 7, 0, 0, 0] ++ [0x78] ++ List.replicate 7 0 ++ [0x78] ++ List.replicate 15 0 ++
  [8] ++ List.replicate 7 0 ++ [8] ++ List.replicate 8 0 ++ [0x10] ++ List.replicate 6 0 ++
  [0x69, 0x6e, 0x69, 0x74, 0, 0, 0, 0]

/-- It lies at the start of the kernel's memory. -/
def skewed : Image := ⟨kernbase, fun x => skewedImage.getD (x - kernbase) 0⟩

theorem skewed_ehdr : ehdrOf skewed.file = ⟨elfmag, elfclass64, emRiscv, 120, 64, 56, 1⟩ := by
  decide +kernel

theorem skewed_phdr : phdrOf skewed.file 0 = ⟨ptLoad, 7, 120, 120, 8, 8⟩ := by
  decide +kernel

theorem skewed_disjoint : PageDisjoint skewed.file := by
  refine ⟨fun i j hij hj => ?_, fun i hi _ => ?_⟩
  · rw [skewed_ehdr] at hj
    exact absurd hij (by have : j < 1 := hj; omega)
  · rw [skewed_ehdr] at hi
    obtain rfl := Nat.lt_one_iff.mp hi
    rw [skewed_phdr]
    decide

/-- Its only program header. -/
theorem loadPhdr_skewed {m m₁ : Mem} {pt : PageTable}
    (h : loadPage skewed pt (phdrOf skewed.file 0).mapPerm 120 120 m = .ok m₁) :
    loadPhdr skewed pt (0, m) 0 = .ok (128, m₁) := by
  have hread : skewed.read (phdrOffset skewed.file 0) 56 = .ok () := by
    rw [phdrOffset, skewed_ehdr]
    rfl
  rw [skewed_phdr] at h
  rw [loadPhdr, hread, skewed_phdr]
  change (loadPages skewed pt _ 1 120 120 m >>= fun m => .ok (128, m)) = _
  rw [loadPages, h]
  rfl

/-- `load_segment` on it. -/
theorem loadSegment_skewed {m : Mem} {pt : PageTable} {trap tramp : ℕ} {N : Multiset ℕ}
    (h : Space m.ram pt.rootPpn trap tramp 0 N 0 fun _ => none) (ha : Apart m N)
    (hend : ∀ f ∈ m.free, f < frameEnd) (hfree : 8 ≤ m.free.card) :
    ∃ r f fl, loadSegment skewed pt 0 m = .ok r ∧ f < frameEnd ∧
      lookup r.2.ram pt.rootPpn 0 = some (new f fl) ∧
      lookup r.2.ram pt.rootPpn 1 = some (new (f + 1) fl) := by
  have hnone : ∀ v < trapframeVpn, lookup m.ram pt.rootPpn v = none := fun v hv =>
    h.high v (Nat.zero_le v) hv
  have hpage : Outcome (loadPage skewed pt (phdrOf skewed.file 0).mapPerm 120 120 m) _ _ :=
    loadPage_skewed h.table ha hend (by decide) (by decide) (hnone _ (by decide))
      (hnone _ (by decide))
  obtain ⟨m₁, hm₁, f, nt, hg, ht, hf, hnt⟩ := hpage.exists_ok fun e he => by
    obtain ⟨-, hlt⟩ | ⟨-, hno⟩ := he
    · omega
    · exact hno ⟨le_rfl, by decide⟩
  have hc := hg.card
  rw [Multiset.card_add, Multiset.card_singleton] at hc
  have ha₁ : Apart m₁ (N + nt) := (ha.grows hg).mono (by
    rw [add_left_comm]
    exact Multiset.le_add_left _ _)
  -- the stack page is 2
  obtain ⟨⟨f₂, m₂⟩, hm₂, hg₂, -⟩ := (kalloc_spec m₁).exists_ok fun e he => by
    have := he.2
    omega
  have hff : f₂ ∈ ({f₂} : Multiset ℕ) := Multiset.mem_singleton_self f₂
  have hlt₂ := ha₁.new_lt hg₂ hff
  have hc₂ : m₁.free.card = 1 + m₂.free.card := hg₂.card
  have ht₂ := ht.congr fun x hx => hg₂.frame x (Multiset.notMem_zero x) fun hxf =>
    ha₁.new_not_mem hg₂ hxf hx
  have hstack : Outcome (pt.mapPerPage m₂ 2 f₂ (pteR ||| pteW ||| pteU)) _ _ :=
    PageTable.mapPerPage_spec_two ht₂ ((ha₁.grows hg₂).mono (Multiset.le_add_right _ _))
      (by decide) (by
        rw [Function.update_of_ne (by decide), Function.update_of_ne (by decide)]
        exact hnone 2 (by decide)) hlt₂
  obtain ⟨m₃, hm₃, n₃, -, ht₃, -⟩ := hstack.exists_ok fun e he => by
    have := he.2
    omega
  refine ⟨(3 * 4096, m₃), f, pteV ||| (phdrOf skewed.file 0).mapPerm, ?_, hf, ?_, ?_⟩
  · have hpa := physAddrFromPhysPageNum_div hlt₂
    rw [loadSegment, skewed_ehdr]
    change ([0].foldlM (loadPhdr skewed pt) (0, m) >>= _) = _
    rw [List.foldlM_cons, loadPhdr_skewed hm₁]
    change (kalloc m₁ >>= _) = _
    rw [hm₂]
    change (pt.map m₂ (2 * 4096) (physAddrFromPhysPageNum f₂) pageSize _ >>= _) = _
    rw [PageTable.map_vpn (by decide), hpa, hm₃]
    rfl
  · rw [ht₃.lookup 0 (by decide), Function.update_of_ne (by decide),
      Function.update_of_ne (by decide)]
    exact Function.update_self _ _ _
  · rw [ht₃.lookup 1 (by decide), Function.update_of_ne (by decide)]
    exact Function.update_self _ _ _

/-- The second page of the segment is on the frame after the one taken for it. -/
theorem foreign_frame : elfCheck skewed.file = .ok () ∧ PageDisjoint skewed.file ∧
    (phdrOf skewed.file 0).pVaddr % 4096 = (phdrOf skewed.file 0).pOffset % 4096 ∧
    ∃ (m : Mem) (pt : PageTable) (r : ℕ × Mem) (e e' : Word),
      (∀ v < trapframeVpn, lookup m.ram pt.rootPpn v = none) ∧
      loadSegment skewed pt 0 m = .ok r ∧ lookup r.2.ram pt.rootPpn 0 = some e ∧
      lookup r.2.ram pt.rootPpn 1 = some e' ∧ ppn e' = ppn e + 1 ∧
      ¬ OwnPages m r.2 pt.rootPpn := by
  refine ⟨by rw [elfCheck, skewed_ehdr]; rfl, skewed_disjoint, by rw [skewed_phdr], ?_⟩
  obtain ⟨m, pt, N, hs, ha, hfree, hlt⟩ := exists_emptyTable tiny
  have he : 0x84300 ≤ frameEnd := by decide
  have he' : frameEnd < 2 ^ 43 := by decide
  have hend : ∀ f ∈ m.free, f < frameEnd := fun f hf => (hlt f hf).trans_le he
  obtain ⟨r, f, fl, hr, hf, h₀, h₁⟩ := loadSegment_skewed hs ha hend (by omega)
  refine ⟨m, pt, r, _, _, fun v hv => hs.high v (Nat.zero_le v) hv, hr, h₀, h₁, ?_, ?_⟩
  · rw [ppn_new (by omega), ppn_new (by omega)]
  · have hex : 0 < excessPages skewed.file (ehdrOf skewed.file).ePhnum := by
      have hload : IsLoad skewed.file 0 := by rw [IsLoad, skewed_phdr]
      have hone : 0 < (ehdrOf skewed.file).ePhnum := by
        rw [skewed_ehdr]
        decide
      refine excessPages_pos hone hload ?_ (numPages_pos skewed_disjoint hone hload ?_)
      · rw [skewed_phdr]
        decide
      · rw [skewed_phdr]
        decide
    have hstack : pgroundup (imageEnd skewed.file 0 (ehdrOf skewed.file).ePhnum) / 4096 + 1 <
        trapframeVpn := by
      rw [skewed_ehdr, imageEnd_of_load (by rw [IsLoad, skewed_phdr]), skewed_phdr]
      decide
    exact ((loadSegment_counted skewed_disjoint hs.counted ha hend hstack).of_ok hr).not_ownPages
      (by omega)

end RiscvOs
