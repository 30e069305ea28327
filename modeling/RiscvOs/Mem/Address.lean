import Mathlib

/-!
# Addresses, page numbers and page-table entries

The constants of `address.h` and the conversions at the head of `address.c`. Addresses and page
numbers are natural numbers (the source's `uint64_t`, with the masks written as remainders); words
of memory, and so page-table entries, are 64-bit vectors.

* `PageTableEntry.ppn_new`, `PageTableEntry.flags_new`: an entry decodes to what was encoded.
* `getPageOffset_injective`: the 9/9/9 split of a 27-bit page number loses nothing.
-/

set_option autoImplicit false

namespace RiscvOs

/-- A 64-bit word (`reg_t`, `PageTableEntry`). -/
abbrev Word := BitVec 64

/-- A byte (`uint8_t`). -/
abbrev Byte := BitVec 8

/-- A page has words, so `Fin 512` has numerals. -/
instance neZeroPage : NeZero 512 := ⟨by decide⟩

/-! ## Constants -/

def pageSize : ℕ := 0x1000

def kernbase : ℕ := 0x80200000

def phystop : ℕ := kernbase + 128 * 1024 * 1024

def maxva : ℕ := 2 ^ 39

/-- `TRAMPOLINE`: the last page of the address space, sign-extended. -/
def trampolineVa : ℕ := (maxva - pageSize) ||| (2 ^ 64 - 2 ^ 39)

/-- `TRAPFRAME`: the page below the trampoline. -/
def trapframeVa : ℕ := trampolineVa - pageSize

/-- `KSTACK(p)`: the kernel-stack page of slot `p`; the page below it is its guard. -/
def kstackVa (p : ℕ) : ℕ := trampolineVa - (p + 1) * 2 * pageSize

/-- `PGROUNDUP`, on 64-bit sizes. -/
def pgroundup (sz : ℕ) : ℕ := (sz + pageSize - 1) % 2 ^ 64 / pageSize * pageSize

def pteV : Byte := 1 <<< 0
def pteR : Byte := 1 <<< 1
def pteW : Byte := 1 <<< 2
def pteX : Byte := 1 <<< 3
def pteU : Byte := 1 <<< 4

/-- `MAKE_SATP`: Sv39 mode and the root page number. -/
def makeSatp (root : ℕ) : Word := (8#64 <<< 60) ||| BitVec.ofNat 64 root

/-! ## Conversions -/

def physAddrFromSizeT (v : ℕ) : ℕ := v % 2 ^ 56

def physAddrFromPhysPageNum (ppn : ℕ) : ℕ := ppn * 2 ^ 12 % 2 ^ 64

def virtAddrFromSizeT (v : ℕ) : ℕ := v % 2 ^ 39

def virtPageNumFromSizeT (v : ℕ) : ℕ := v % 2 ^ 27

def floorPhys (pa : ℕ) : ℕ := pa / pageSize

def ceilPhys (pa : ℕ) : ℕ := (pa + pageSize - 1) / pageSize

def floorVirts (va : ℕ) : ℕ := va / pageSize

def virtPageNumFromVirtAddr (va : ℕ) : ℕ := va / pageSize

/-- The page number of `TRAMPOLINE`. -/
def trampolineVpn : ℕ := 2 ^ 27 - 1

/-- The page number of `TRAPFRAME`. -/
def trapframeVpn : ℕ := 2 ^ 27 - 2

theorem pageSize_eq : pageSize = 4096 := rfl

theorem trampolineVa_eq : trampolineVa = 2 ^ 64 - 4096 := by decide

theorem floorVirts_trampoline : floorVirts (virtAddrFromSizeT trampolineVa) = trampolineVpn := by
  decide

theorem floorVirts_trapframe : floorVirts (virtAddrFromSizeT trapframeVa) = trapframeVpn := by
  decide

theorem physAddrFromPhysPageNum_eq {p : ℕ} (h : p < 2 ^ 44) :
    physAddrFromPhysPageNum p = p * 4096 := by
  rw [physAddrFromPhysPageNum, Nat.mod_eq_of_lt (by omega)]
  norm_num

theorem physAddrFromPhysPageNum_div {p : ℕ} (h : p < 2 ^ 44) :
    physAddrFromPhysPageNum p / 4096 = p := by
  rw [physAddrFromPhysPageNum_eq h]
  omega

/-! ## Page-table entries -/

namespace PageTableEntry

/-- `PageTableEntry_new`. -/
def new (ppn : ℕ) (flags : Byte) : Word := (BitVec.ofNat 64 ppn <<< 10) ||| flags.setWidth 64

/-- `PageTableEntry_empty`. -/
def empty : Word := 0

/-- `PageTableEntry_ppn`. -/
def ppn (entry : Word) : ℕ := ((entry >>> 10) &&& BitVec.ofNat 64 (2 ^ 44 - 1)).toNat

/-- `PageTableEntry_flags`. -/
def flags (entry : Word) : Byte := entry.setWidth 8

/-- `PageTableEntry_is_valid`. -/
def isValid (entry : Word) : Bool := (flags entry &&& pteV) != 0

/-- The entry carries any of the given flags. -/
def has (entry : Word) (f : Byte) : Bool := (flags entry &&& f) != 0

theorem ppn_lt (e : Word) : ppn e < 2 ^ 44 := by
  rw [ppn, BitVec.toNat_and]
  exact lt_of_le_of_lt Nat.and_le_right (by decide)

theorem ppn_eq_div (e : Word) : ppn e = e.toNat / 2 ^ 10 % 2 ^ 44 := by
  rw [ppn, BitVec.toNat_and, BitVec.toNat_ushiftRight, Nat.shiftRight_eq_div_pow]
  have h : (BitVec.ofNat 64 (2 ^ 44 - 1)).toNat = 2 ^ 44 - 1 := by decide
  rw [h, Nat.and_two_pow_sub_one_eq_mod]

theorem toNat_new {p : ℕ} (hp : p < 2 ^ 44) (f : Byte) :
    (new p f).toNat = p * 2 ^ 10 + f.toNat := by
  have hf : f.toNat < 2 ^ 10 := lt_trans f.isLt (by decide)
  rw [new, BitVec.toNat_or, BitVec.toNat_shiftLeft, BitVec.toNat_ofNat, BitVec.toNat_setWidth,
    Nat.mod_eq_of_lt (lt_trans hp (by decide)), Nat.mod_eq_of_lt (lt_trans f.isLt (by decide)),
    Nat.mod_eq_of_lt (by rw [Nat.shiftLeft_eq]; omega), ← Nat.shiftLeft_add_eq_or_of_lt hf,
    Nat.shiftLeft_eq]

theorem ppn_new {p : ℕ} (hp : p < 2 ^ 44) (f : Byte) : ppn (new p f) = p := by
  have hf : f.toNat < 2 ^ 8 := f.isLt
  rw [ppn_eq_div, toNat_new hp]
  omega

theorem flags_new {p : ℕ} (hp : p < 2 ^ 44) (f : Byte) : flags (new p f) = f := by
  have hf : f.toNat < 2 ^ 8 := f.isLt
  apply BitVec.eq_of_toNat_eq
  rw [flags, BitVec.toNat_setWidth, toNat_new hp]
  omega

theorem isValid_eq_has (e : Word) : isValid e = has e pteV := rfl

theorem has_new {p : ℕ} (hp : p < 2 ^ 44) (f g : Byte) : has (new p f) g = ((f &&& g) != 0) := by
  rw [has, flags_new hp]

theorem isValid_new {p : ℕ} (hp : p < 2 ^ 44) (f : Byte) : isValid (new p (pteV ||| f)) = true := by
  have h : (pteV ||| f) &&& pteV = pteV := by
    ext i hi
    rw [BitVec.getElem_and, BitVec.getElem_or]
    cases pteV[i] <;> simp
  rw [isValid_eq_has, has_new hp, h]
  decide

/-- Setting `V` again changes nothing. -/
theorem pteV_or_flags {e : Word} (h : isValid e = true) : pteV ||| flags e = flags e := by
  have key : ∀ b : Byte, (b &&& pteV != 0) = true → pteV ||| b = b := by decide
  exact key _ h

@[simp] theorem isValid_zero : isValid 0 = false := by decide

end PageTableEntry

/-! ## The three indices of a page number -/

/-- `get_page_offset`: the top index first. -/
def getPageOffset (vpn : ℕ) : Fin 512 × List (Fin 512) :=
  (Fin.ofNat 512 (vpn / 2 ^ 18), [Fin.ofNat 512 (vpn / 2 ^ 9), Fin.ofNat 512 vpn])

theorem getPageOffset_injective {v w : ℕ} (hv : v < 2 ^ 27) (hw : w < 2 ^ 27)
    (h : getPageOffset v = getPageOffset w) : v = w := by
  simp only [getPageOffset, Prod.mk.injEq, List.cons.injEq, and_true, Fin.ext_iff,
    Fin.val_ofNat] at h
  omega

theorem exists_getPageOffset (i j l : Fin 512) : ∃ v < 2 ^ 27, getPageOffset v = (i, [j, l]) := by
  have hi := i.isLt
  have hj := j.isLt
  have hl := l.isLt
  refine ⟨i * 2 ^ 18 + j * 2 ^ 9 + l, by omega, ?_⟩
  simp only [getPageOffset, Prod.mk.injEq, List.cons.injEq, and_true, Fin.ext_iff, Fin.val_ofNat]
  omega

end RiscvOs
