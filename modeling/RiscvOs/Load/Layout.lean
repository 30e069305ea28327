import RiscvOs.Load.Elf
import RiscvOs.Mem.Space

/-!
# The layout of an image

What a program looks like in memory, in its own terms: the pages of its segments in order, a guard
page and a stack page. It is a function of the image alone.

* `WfLayout`, `App.Wf`: what `user.ld` guarantees of the program headers.
* `imagePages`, `imageTop`: the low half and the size of the process.
* `App.Wf.layout_of_agree`: the kernel sees the headers the file has.
-/

set_option autoImplicit false

namespace RiscvOs

open PageTableEntry

/-! ## Layouts -/

/-- The page number of a segment's first page. -/
def Elf64Phdr.firstPage (ph : Elf64Phdr) : ℕ := ph.pVaddr / 4096

/-- The number of its pages. -/
def Elf64Phdr.numPages (ph : Elf64Phdr) : ℕ := ph.mapSize / 4096

/-- The program header `i` is a `PT_LOAD`. -/
def IsLoad (f : ℕ → Byte) (i : ℕ) : Prop := (phdrOf f i).pType = ptLoad

instance (f : ℕ → Byte) (i : ℕ) : Decidable (IsLoad f i) := inferInstanceAs (Decidable (_ = _))

/-- What the program header `i` puts on the page `v`. -/
def segmentPage (f : ℕ → Byte) (i v : ℕ) : Option (Byte × Frame) :=
  let ph := phdrOf f i
  if IsLoad f i ∧ ph.firstPage ≤ v ∧ v < ph.firstPage + ph.numPages then
    some (pteV ||| ph.mapPerm, pageAt f (ph.pOffset + (v - ph.firstPage) * 4096))
  else none

/-- The pages of the first program headers. -/
def segmentPages (f : ℕ → Byte) : ℕ → ℕ → Option (Byte × Frame)
  | 0, _ => none
  | i + 1, v => (segmentPage f i v).or (segmentPages f i v)

/-- Where the last segment among the first program headers ends; `u` if there is none. -/
def imageEnd (f : ℕ → Byte) (u : ℕ) : ℕ → ℕ
  | 0 => u
  | i + 1 => if IsLoad f i then (phdrOf f i).pVaddr + (phdrOf f i).pMemsz else imageEnd f u i

/-- The number of pages of the first program headers. -/
def imageSize (f : ℕ → Byte) : ℕ → ℕ
  | 0 => 0
  | i + 1 => imageSize f i + if IsLoad f i then (phdrOf f i).numPages else 0

/-- The page of the stack: the second one after the segments. -/
def stackPage (f : ℕ → Byte) : ℕ := pgroundup (imageEnd f 0 (ehdrOf f).ePhnum) / 4096 + 1

/-- `ustack` and `base_size`. -/
def imageTop (f : ℕ → Byte) : ℕ := (stackPage f + 1) * 4096

/-- The low half of a freshly loaded process. -/
def imagePages (f : ℕ → Byte) : ℕ → Option (Byte × Frame) :=
  Function.update (segmentPages f (ehdrOf f).ePhnum) (stackPage f)
    (some (pteV ||| (pteR ||| pteW ||| pteU), fun _ => 0))

/-- The `PT_LOAD`s of an image are ascending, page-disjoint and below the trap context. -/
structure PageDisjoint (f : ℕ → Byte) : Prop where
  ascending : ∀ i j, i < j → j < (ehdrOf f).ePhnum → IsLoad f i → IsLoad f j →
    pgroundup ((phdrOf f i).pVaddr + (phdrOf f i).pMemsz) ≤ (phdrOf f j).pVaddr
  below : ∀ i < (ehdrOf f).ePhnum, IsLoad f i →
    (phdrOf f i).pVaddr + (phdrOf f i).pMemsz ≤ trapframeVpn * 4096

/-- There is a `PT_LOAD`, and they are also page-aligned. -/
structure WfLayout (f : ℕ → Byte) : Prop extends PageDisjoint f where
  exists_load : ∃ i < (ehdrOf f).ePhnum, IsLoad f i
  aligned : ∀ i < (ehdrOf f).ePhnum, IsLoad f i → (phdrOf f i).pVaddr % 4096 = 0

/-- An embedded program is well-formed: its headers lie in it, and describe a well-formed layout. -/
structure App.Wf (a : App) : Prop where
  header : 64 ≤ a.image.length
  headers : ∀ i < (ehdrOf a.file).ePhnum, phdrOffset a.file i + 56 ≤ a.image.length
  layout : WfLayout a.file

/-! ## Two views of the same headers -/

section Congr

variable {f g : ℕ → Byte} {len : ℕ}

theorem leAt_congr {o n : ℕ} (h : ∀ x < o + n, o ≤ x → f x = g x) : leAt f o n = leAt g o n := by
  induction n generalizing o with
  | zero => rfl
  | succ n ih =>
    rw [leAt, leAt, h o (by omega) le_rfl, ih fun x hx ho => h x (by omega) (by omega)]

variable (h : ∀ x < len, f x = g x)

include h in
theorem ehdrOf_congr (hlen : 64 ≤ len) : ehdrOf f = ehdrOf g := by
  have key : ∀ o n, o + n ≤ 64 → leAt f o n = leAt g o n := fun o n hon =>
    leAt_congr fun x hx _ => h x (by omega)
  simp only [ehdrOf, Elf64Ehdr.mk.injEq]
  exact ⟨key _ _ (by decide), key _ _ (by decide), key _ _ (by decide), key _ _ (by decide),
    key _ _ (by decide), key _ _ (by decide), key _ _ (by decide)⟩

include h in
theorem phdrOf_congr (hlen : 64 ≤ len) {i : ℕ} (hi : phdrOffset g i + 56 ≤ len) :
    phdrOf f i = phdrOf g i := by
  have hoff : phdrOffset f i = phdrOffset g i := by
    rw [phdrOffset, phdrOffset, ehdrOf_congr h hlen]
  rw [phdrOf, phdrOf, hoff]
  generalize phdrOffset g i = p at hi
  have key : ∀ o n, o + n ≤ p + 56 → leAt f o n = leAt g o n :=
    fun o n hon => leAt_congr fun x hx _ => h x (by omega)
  simp only [phdrAt, Elf64Phdr.mk.injEq]
  exact ⟨key _ _ (by omega), key _ _ (by omega), key _ _ (by omega), key _ _ (by omega),
    key _ _ (by omega), key _ _ (by omega)⟩

end Congr

namespace App.Wf

variable {a : App} {f : ℕ → Byte} (hwf : a.Wf) (h : ∀ x < a.image.length, f x = a.file x)

include hwf h in
theorem ehdr_eq : ehdrOf f = ehdrOf a.file := ehdrOf_congr h hwf.header

include hwf h in
theorem phdr_eq {i : ℕ} (hi : i < (ehdrOf f).ePhnum) : phdrOf f i = phdrOf a.file i :=
  phdrOf_congr h hwf.header (hwf.headers i (hwf.ehdr_eq h ▸ hi))

include hwf h in
/-- The layout as the kernel sees it. -/
theorem layout_of_agree : WfLayout f := by
  have he := hwf.ehdr_eq h
  have hload : ∀ i < (ehdrOf f).ePhnum, IsLoad f i → IsLoad a.file i := fun i hi hl => by
    rw [IsLoad, ← hwf.phdr_eq h hi]; exact hl
  refine ⟨⟨fun i j hij hj hli hlj => ?_, fun i hi hl => ?_⟩, ?_, fun i hi hl => ?_⟩
  · rw [hwf.phdr_eq h (by omega), hwf.phdr_eq h hj]
    exact hwf.layout.ascending i j hij (he ▸ hj) (hload i (by omega) hli) (hload j hj hlj)
  · rw [hwf.phdr_eq h hi]
    exact hwf.layout.below i (he ▸ hi) (hload i hi hl)
  · obtain ⟨i, hi, hl⟩ := hwf.layout.exists_load
    refine ⟨i, he ▸ hi, ?_⟩
    rw [IsLoad, hwf.phdr_eq h (he ▸ hi)]
    exact hl
  · rw [hwf.phdr_eq h hi]
    exact hwf.layout.aligned i (he ▸ hi) (hload i hi hl)

include hwf h in
theorem isLoad_iff {i : ℕ} (hi : i < (ehdrOf f).ePhnum) : IsLoad f i ↔ IsLoad a.file i := by
  rw [IsLoad, IsLoad, hwf.phdr_eq h hi]

include hwf h in
theorem imageEnd_agree {u n : ℕ} (hn : n ≤ (ehdrOf f).ePhnum) :
    imageEnd f u n = imageEnd a.file u n := by
  induction n with
  | zero => rfl
  | succ n ih =>
    rw [imageEnd, imageEnd, ih (Nat.le_of_succ_le hn), hwf.phdr_eq h hn]
    simp only [hwf.isLoad_iff h hn]

include hwf h in
theorem stackPage_agree : stackPage f = stackPage a.file := by
  rw [stackPage, stackPage, hwf.imageEnd_agree h le_rfl, hwf.ehdr_eq h]

include hwf h in
theorem imageTop_agree : imageTop f = imageTop a.file := by
  rw [imageTop, imageTop, hwf.stackPage_agree h]

include hwf h in
theorem imageSize_agree {n : ℕ} (hn : n ≤ (ehdrOf f).ePhnum) :
    imageSize f n = imageSize a.file n := by
  induction n with
  | zero => rfl
  | succ n ih =>
    rw [imageSize, imageSize, ih (Nat.le_of_succ_le hn), hwf.phdr_eq h hn]
    simp only [hwf.isLoad_iff h hn]

include hwf h in
theorem segmentPages_flags {n : ℕ} (hn : n ≤ (ehdrOf f).ePhnum) (v : ℕ) :
    (segmentPages f n v).map Prod.fst = (segmentPages a.file n v).map Prod.fst := by
  induction n with
  | zero => rfl
  | succ n ih =>
    rw [segmentPages, segmentPages, Option.map_or, Option.map_or, ih (Nat.le_of_succ_le hn)]
    congr 1
    simp only [segmentPage, hwf.phdr_eq h hn, hwf.isLoad_iff h hn]
    split_ifs
    · rw [Option.map_some, Option.map_some]
    · rfl

include hwf h in
/-- The pages of the image and their flags do not depend on what follows it. -/
theorem imagePages_flags (v : ℕ) :
    (imagePages f v).map Prod.fst = (imagePages a.file v).map Prod.fst := by
  rw [imagePages, imagePages, hwf.stackPage_agree h]
  by_cases hv : v = stackPage a.file
  · rw [hv, Function.update_self, Function.update_self]
  · rw [Function.update_of_ne hv, Function.update_of_ne hv, hwf.segmentPages_flags h le_rfl,
      hwf.ehdr_eq h]

end App.Wf

/-! ## Arithmetic of layouts -/

theorem pgroundup_div {x : ℕ} (h : x < 2 ^ 63) : pgroundup x / 4096 = (x + 4095) / 4096 := by
  rw [pgroundup, pageSize_eq, Nat.mod_eq_of_lt (by omega)]
  omega

/-- The page above the first program headers. -/
def topPage (f : ℕ → Byte) (i : ℕ) : ℕ := pgroundup (imageEnd f 0 i) / 4096

section Arithmetic

variable {f : ℕ → Byte} {i : ℕ}

theorem imageEnd_of_load {u : ℕ} (h : IsLoad f i) :
    imageEnd f u (i + 1) = (phdrOf f i).pVaddr + (phdrOf f i).pMemsz := if_pos h

theorem imageEnd_of_not_load {u : ℕ} (h : ¬ IsLoad f i) : imageEnd f u (i + 1) = imageEnd f u i :=
  if_neg h

/-- The end of the image is the end of one of its segments. -/
theorem imageEnd_cases (f : ℕ → Byte) (u i : ℕ) : (imageEnd f u i = u ∧ ∀ j < i, ¬ IsLoad f j) ∨
    ∃ j < i, IsLoad f j ∧ imageEnd f u i = (phdrOf f j).pVaddr + (phdrOf f j).pMemsz := by
  induction i with
  | zero => exact .inl ⟨rfl, fun j hj => absurd hj (Nat.not_lt_zero j)⟩
  | succ i ih =>
    by_cases hl : IsLoad f i
    · exact .inr ⟨i, Nat.lt_succ_self i, hl, imageEnd_of_load hl⟩
    · rw [imageEnd_of_not_load hl]
      obtain ⟨hu, hno⟩ | ⟨j, hj, hlj, he⟩ := ih
      · refine .inl ⟨hu, fun j hj => ?_⟩
        obtain hlt | rfl := Nat.lt_succ_iff_lt_or_eq.mp hj
        · exact hno j hlt
        · exact hl
      · exact .inr ⟨j, by omega, hlj, he⟩

theorem imageEnd_eq {u i : ℕ} (h : ∃ j < i, IsLoad f j) : imageEnd f u i = imageEnd f 0 i := by
  induction i with
  | zero =>
    obtain ⟨j, hj, -⟩ := h
    exact absurd hj (Nat.not_lt_zero j)
  | succ i ih =>
    by_cases hl : IsLoad f i
    · rw [imageEnd_of_load hl, imageEnd_of_load hl]
    · rw [imageEnd_of_not_load hl, imageEnd_of_not_load hl]
      obtain ⟨j, hj, hlj⟩ := h
      refine ih ⟨j, ?_, hlj⟩
      exact lt_of_le_of_ne (Nat.lt_succ_iff.mp hj) fun he => hl (he ▸ hlj)

namespace PageDisjoint

variable (h : PageDisjoint f)

include h in
theorem imageEnd_le (hi : i ≤ (ehdrOf f).ePhnum) : imageEnd f 0 i ≤ trapframeVpn * 4096 := by
  obtain ⟨he, -⟩ | ⟨j, hj, hl, he⟩ := imageEnd_cases f 0 i
  · rw [he]
    exact Nat.zero_le _
  · rw [he]
    exact h.below j (by omega) hl

include h in
/-- The segments before a segment end below it. -/
theorem topPage_le (hi : i < (ehdrOf f).ePhnum) (hl : IsLoad f i) :
    topPage f i ≤ (phdrOf f i).firstPage := by
  rw [topPage, Elf64Phdr.firstPage]
  obtain ⟨he, -⟩ | ⟨j, hj, hlj, he⟩ := imageEnd_cases f 0 i
  · rw [he, pgroundup_div (by decide)]
    exact Nat.zero_le _
  · rw [he]
    exact Nat.div_le_div_right (h.ascending j i hj hi hlj hl)

include h in
theorem topPage_le_trapframe (hi : i ≤ (ehdrOf f).ePhnum) : topPage f i ≤ trapframeVpn := by
  have hb := h.imageEnd_le hi
  have ht : trapframeVpn * 4096 < 2 ^ 39 := by decide
  rw [topPage, pgroundup_div (by omega)]
  omega

include h in
theorem topPage_succ (hi : i < (ehdrOf f).ePhnum) (hl : IsLoad f i)
    (hal : (phdrOf f i).pVaddr % 4096 = 0) :
    topPage f (i + 1) = (phdrOf f i).firstPage + (phdrOf f i).numPages := by
  have hb := h.below i hi hl
  have ht : trapframeVpn * 4096 < 2 ^ 39 := by decide
  rw [topPage, imageEnd_of_load hl, Elf64Phdr.firstPage, Elf64Phdr.numPages, Elf64Phdr.mapSize,
    pgroundup_div (by omega), pgroundup_div (by omega)]
  omega

include h in
theorem firstPage_le_topPage (hi : i < (ehdrOf f).ePhnum) (hl : IsLoad f i) :
    (phdrOf f i).firstPage ≤ topPage f (i + 1) := by
  have hb := h.below i hi hl
  have ht : trapframeVpn * 4096 < 2 ^ 39 := by decide
  rw [topPage, imageEnd_of_load hl, Elf64Phdr.firstPage, pgroundup_div (by omega)]
  exact Nat.div_le_div_right (by omega)

end PageDisjoint

/-- The stack lies above the segments, wherever `ustack` was before. -/
theorem topPage_le_of_start (f : ℕ → Byte) (u n : ℕ) :
    topPage f n ≤ pgroundup (imageEnd f u n) / 4096 := by
  by_cases h : ∃ j < n, IsLoad f j
  · rw [imageEnd_eq h, topPage]
  · have hz : imageEnd f 0 n = 0 := by
      obtain ⟨he, -⟩ | ⟨j, hj, hl, -⟩ := imageEnd_cases f 0 n
      · exact he
      · exact absurd ⟨j, hj, hl⟩ h
    rw [topPage, hz, pgroundup_div (by decide)]
    exact Nat.zero_le _

end Arithmetic

end RiscvOs
