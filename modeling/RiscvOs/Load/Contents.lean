import RiscvOs.Load.Layout

/-!
# The contents of an image, byte by byte

The pages of a layout hold words; programs read and write bytes.

* `frameByte_pageAt`: the bytes of a copied page.
* `WfLayout.imagePages_load`, `imagePages_eq_none`: which pages are mapped, and how.
* **`WfLayout.imageByte_load`**: a byte of a segment is the byte of the file.
-/

set_option autoImplicit false

namespace RiscvOs

open PageTableEntry

/-! ## Bytes of words -/

theorem leAt_lt (f : ℕ → Byte) (o n : ℕ) : leAt f o n < 256 ^ n := by
  induction n generalizing o with
  | zero => exact Nat.one_pos
  | succ n ih =>
    have h₁ := (f o).isLt
    have h₂ := ih (o + 1)
    rw [leAt, pow_succ]
    omega

/-- The bytes of a number read from bytes. -/
theorem leAt_div_mod (f : ℕ → Byte) {o n j : ℕ} (hj : j < n) :
    leAt f o n / 256 ^ j % 256 = (f (o + j)).toNat := by
  induction n generalizing o j with
  | zero => exact absurd hj (Nat.not_lt_zero j)
  | succ n ih =>
    have hlt := (f o).isLt
    rw [leAt]
    cases j with
    | zero =>
      rw [pow_zero, Nat.div_one, Nat.add_mul_mod_self_left]
      exact Nat.mod_eq_of_lt hlt
    | succ j =>
      have hdiv : ((f o).toNat + 256 * leAt f (o + 1) n) / 256 = leAt f (o + 1) n := by omega
      rw [pow_succ', ← Nat.div_div_eq_div_mul, hdiv, ih (by omega)]
      congr 2
      omega

theorem toNat_wordByte (w : Word) (j : ℕ) : (wordByte w j).toNat = w.toNat / 256 ^ j % 256 := by
  have h : (2 : ℕ) ^ (8 * j) = 256 ^ j := pow_mul 2 8 j
  rw [wordByte, BitVec.toNat_setWidth, BitVec.toNat_ushiftRight, Nat.shiftRight_eq_div_pow, h]

/-- **The bytes of a copied page.** -/
theorem frameByte_pageAt (f : ℕ → Byte) {o x : ℕ} (hx : x < 4096) :
    frameByte (pageAt f o) x = f (o + x) := by
  apply BitVec.eq_of_toNat_eq
  have hi : (wordIndex x).val = x / 8 := by
    rw [wordIndex]
    exact Nat.mod_eq_of_lt (by omega)
  have hlt : leAt f (o + 8 * (x / 8)) 8 < 2 ^ 64 := leAt_lt f (o + 8 * (x / 8)) 8
  have hpos : o + 8 * (x / 8) + x % 8 = o + x := by omega
  rw [frameByte, toNat_wordByte, pageAt, hi, BitVec.toNat_ofNat, Nat.mod_eq_of_lt hlt,
    leAt_div_mod f (Nat.mod_lt x (by decide)), hpos]

/-! ## Bytes of pages -/

/-- The byte at an address of the low half. -/
def lowByte (V : ℕ → Option (Byte × Frame)) (va : ℕ) : Option Byte :=
  (V (va / 4096)).map fun p => frameByte p.2 (va % 4096)

/-! ## The pages of a layout -/

section Layout

variable {f : ℕ → Byte} {i v : ℕ}

/-- The page `v` belongs to the segment. -/
def Elf64Phdr.Covers (ph : Elf64Phdr) (v : ℕ) : Prop :=
  ph.firstPage ≤ v ∧ v < ph.firstPage + ph.numPages

theorem segmentPages_eq_none {n : ℕ} (h : ∀ i < n, IsLoad f i → ¬ (phdrOf f i).Covers v) :
    segmentPages f n v = none := by
  induction n with
  | zero => rfl
  | succ n ih =>
    rw [segmentPages, ih fun i hi => h i (by omega), segmentPage, Option.or_none]
    exact if_neg fun hc => h n (Nat.lt_succ_self n) hc.1 hc.2

namespace WfLayout

variable (h : WfLayout f)

include h

/-- The segments end in order. -/
theorem topPage_mono {n : ℕ} (hi : i < n) (hn : n ≤ (ehdrOf f).ePhnum) (hl : IsLoad f i) :
    (phdrOf f i).firstPage + (phdrOf f i).numPages ≤ topPage f n := by
  rw [← h.topPage_succ (by omega) hl (h.aligned i (by omega) hl)]
  induction n, hi using Nat.le_induction with
  | base => exact le_rfl
  | succ n hin ih =>
    refine (ih (by omega)).trans ?_
    by_cases hln : IsLoad f n
    · exact (h.topPage_le (by omega) hln).trans (h.firstPage_le_topPage (by omega) hln)
    · rw [topPage, topPage, imageEnd_of_not_load hln]

/-- A page of a segment is mapped by that segment alone. -/
theorem segmentPages_load {n : ℕ} (hi : i < n) (hn : n ≤ (ehdrOf f).ePhnum) (hl : IsLoad f i)
    (hv : (phdrOf f i).Covers v) : segmentPages f n v = segmentPage f i v := by
  induction n, hi using Nat.le_induction with
  | base =>
    rw [segmentPages, segmentPage, if_pos ⟨hl, hv⟩, Option.some_or]
  | succ n hin ih =>
    have hnot : segmentPage f n v = none := by
      rw [segmentPage]
      refine if_neg fun hc => ?_
      have h₁ := h.topPage_mono hin (by omega) hl
      have h₂ := h.topPage_le (by omega) hc.1
      have h₃ := hv.2
      have h₄ := hc.2.1
      omega
    rw [segmentPages, hnot, Option.none_or, ih (by omega)]

theorem covered_lt_stack (hi : i < (ehdrOf f).ePhnum) (hl : IsLoad f i)
    (hv : (phdrOf f i).Covers v) : v + 1 < stackPage f := by
  have h₁ := h.topPage_mono hi le_rfl hl
  have h₂ := hv.2
  rw [stackPage]
  change v + 1 < topPage f (ehdrOf f).ePhnum + 1
  omega

/-- **The pages of a segment.** -/
theorem imagePages_load (hi : i < (ehdrOf f).ePhnum) (hl : IsLoad f i)
    (hv : (phdrOf f i).Covers v) : imagePages f v = some (pteV ||| (phdrOf f i).mapPerm,
      pageAt f ((phdrOf f i).pOffset + (v - (phdrOf f i).firstPage) * 4096)) := by
  have hs := h.covered_lt_stack hi hl hv
  rw [imagePages, Function.update_of_ne (by omega), h.segmentPages_load hi le_rfl hl hv,
    segmentPage, if_pos ⟨hl, hv⟩]

theorem covers_iff (hi : i < (ehdrOf f).ePhnum) (hl : IsLoad f i) :
    (phdrOf f i).Covers v ↔ (phdrOf f i).pVaddr ≤ v * 4096 ∧
      v * 4096 < (phdrOf f i).pVaddr + (phdrOf f i).pMemsz := by
  have hb := h.below i hi hl
  have hal := h.aligned i hi hl
  have ht : trapframeVpn * 4096 < 2 ^ 39 := by decide
  rw [Elf64Phdr.Covers, Elf64Phdr.firstPage, Elf64Phdr.numPages, Elf64Phdr.mapSize,
    pgroundup_div (by omega)]
  omega

/-- **A byte of a segment** is the byte of the file, or what follows it in memory. -/
theorem imageByte_load (hi : i < (ehdrOf f).ePhnum) (hl : IsLoad f i) {o : ℕ}
    (ho : o < (phdrOf f i).pMemsz) :
    lowByte (imagePages f) ((phdrOf f i).pVaddr + o) = some (f ((phdrOf f i).pOffset + o)) := by
  have hal := h.aligned i hi hl
  have hv : (phdrOf f i).Covers (((phdrOf f i).pVaddr + o) / 4096) :=
    (h.covers_iff hi hl).mpr (by omega)
  have hpos : (phdrOf f i).pOffset + (((phdrOf f i).pVaddr + o) / 4096 -
      (phdrOf f i).firstPage) * 4096 + ((phdrOf f i).pVaddr + o) % 4096 =
      (phdrOf f i).pOffset + o := by
    rw [Elf64Phdr.firstPage]
    omega
  rw [lowByte, h.imagePages_load hi hl hv, Option.map_some,
    frameByte_pageAt f (Nat.mod_lt _ (by decide)), hpos]

end WfLayout

theorem imagePages_stack (f : ℕ → Byte) : imagePages f (stackPage f) =
    some (pteV ||| (pteR ||| pteW ||| pteU), fun _ => 0) := Function.update_self _ _ _

theorem imagePages_eq_none (hv : v ≠ stackPage f)
    (h : ∀ i < (ehdrOf f).ePhnum, IsLoad f i → ¬ (phdrOf f i).Covers v) :
    imagePages f v = none := by
  rw [imagePages, Function.update_of_ne hv, segmentPages_eq_none h]

end Layout

end RiscvOs
