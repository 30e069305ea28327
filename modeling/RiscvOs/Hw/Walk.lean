import RiscvOs.Hw.Machine
import RiscvOs.Mem.Map

/-!
# The hardware walk agrees with the software walk

In a table whose interior entries carry none of `R`, `W`, `X`, the Sv39 walk ends at the last level,
at the entry `find_pte` finds.

* `translate_of_lookup`: a readable or executable entry is what the hardware translates to.
* `lookup_of_translate`, `isLeaf_of_translate`: and the hardware translates to nothing else.
-/

set_option autoImplicit false

namespace RiscvOs

open PageTableEntry

/-! ## Flags -/

theorem has_or (e : Word) (f g : Byte) : has e (f ||| g) = (has e f || has e g) := by
  have key : ∀ x y : Byte, ((x ||| y) != 0) = ((x != 0) || (y != 0)) := by
    intro x y
    have h : x ||| y = 0 ↔ x = 0 ∧ y = 0 := BitVec.or_eq_zero_iff
    rw [Bool.eq_iff_iff, bne_iff_ne, Bool.or_eq_true, bne_iff_ne, bne_iff_ne, ne_eq, h, not_and_or]
  rw [has, has, has, ← key, BitVec.and_or_distrib_left]

theorem IsLink.flags {e : Word} (h : IsLink e) :
    has e pteR = false ∧ has e pteW = false ∧ has e pteX = false := by
  rw [IsLink, has_or, has_or, Bool.or_eq_false_iff, Bool.or_eq_false_iff] at h
  exact ⟨h.1.1, h.1.2, h.2⟩

/-- The hardware takes the entry for a leaf. -/
def IsLeaf (e : Word) : Prop :=
  (has e pteR = true ∨ has e pteX = true) ∧ (has e pteR = true ∨ has e pteW = false)

/-! ## The walk -/

section Walk

variable {ram : ℕ → Fin 512 → Word} {i : Fin 512} {is : List (Fin 512)} {n : ℕ} {e : Word}

theorem sv39Walk_of_get (hl : Radix.Interior pteFormat IsLink ram is.length n)
    (hg : Radix.get pteFormat ram i is n = some e) (he : IsLeaf e) :
    sv39Walk ram i is n = some (e, 0) := by
  induction is generalizing i n with
  | nil =>
    obtain ⟨p, hw, hv, rfl⟩ := Radix.get_eq_some_iff.mp hg
    obtain rfl : (n, i) = p := Option.some.inj hw
    have hv' : has (ram n i) pteV = true := hv
    rw [sv39Walk]
    obtain ⟨hrx, hrw⟩ := he
    have h₁ : (!has (ram n i) pteV || !has (ram n i) pteR && has (ram n i) pteW) = false := by
      rw [hv']
      obtain h | h := hrw <;> simp [h]
    have h₂ : (has (ram n i) pteR || has (ram n i) pteX) = true := by
      rw [Bool.or_eq_true]; exact hrx
    simp only [h₁, h₂, Bool.false_eq_true, if_false, if_true, List.length_nil]
  | cons j js ih =>
    have hv : isValid (ram n i) = true := by
      cases hv : isValid (ram n i) with
      | true => rfl
      | false =>
        rw [Radix.get_cons_of_not_valid (F := pteFormat) hv] at hg
        cases hg
    have hlink := (hl i hv).1.flags
    have hv' : has (ram n i) pteV = true := hv
    rw [sv39Walk]
    simp only [hv', hlink, Bool.not_true, Bool.and_false, Bool.or_false, Bool.false_eq_true,
      if_false]
    refine ih (hl i hv).2 ?_
    rw [Radix.get_cons_of_valid (F := pteFormat) hv] at hg
    exact hg

theorem get_of_sv39Walk {lv : ℕ} (hl : Radix.Interior pteFormat IsLink ram is.length n)
    (hw : sv39Walk ram i is n = some (e, lv)) :
    lv = 0 ∧ Radix.get pteFormat ram i is n = some e := by
  induction is generalizing i n with
  | nil =>
    rw [sv39Walk] at hw
    split_ifs at hw with h₁ h₂
    obtain ⟨rfl, rfl⟩ := Prod.mk.inj (Option.some.inj hw)
    have hv : has (ram n i) pteV = true := by
      by_contra hv
      rw [Bool.not_eq_true] at hv
      simp [hv] at h₁
    exact ⟨rfl, Radix.get_eq_some_iff.mpr ⟨(n, i), rfl, hv, rfl⟩⟩
  | cons j js ih =>
    rw [sv39Walk] at hw
    cases hv : isValid (ram n i) with
    | false =>
      have hv' : has (ram n i) pteV = false := hv
      simp [hv'] at hw
    | true =>
      have hv' : has (ram n i) pteV = true := hv
      have hlink := (hl i hv).1.flags
      simp only [hv', hlink, Bool.not_true, Bool.and_false, Bool.or_false, Bool.false_eq_true,
        if_false] at hw
      rw [Radix.get_cons_of_valid (F := pteFormat) hv]
      exact ih (hl i hv).2 hw

/-- The walk ends at leaves only. -/
theorem isLeaf_of_sv39Walk {lv : ℕ} (hw : sv39Walk ram i is n = some (e, lv)) : IsLeaf e := by
  -- at any level, an entry the walk accepts
  have hleaf : ∀ w : Word, ¬ (!has w pteV || !has w pteR && has w pteW) = true →
      (has w pteR || has w pteX) = true → IsLeaf w := fun w h₁ h₂ => by
    rw [Bool.or_eq_true] at h₂
    refine ⟨h₂, ?_⟩
    cases hr : has w pteR with
    | true => exact .inl rfl
    | false =>
      rw [hr, Bool.not_false, Bool.true_and, Bool.or_eq_true, not_or, Bool.not_eq_true] at h₁
      exact .inr (Bool.eq_false_iff.mpr h₁.2)
  induction is generalizing i n with
  | nil =>
    rw [sv39Walk] at hw
    split_ifs at hw with h₁ h₂
    obtain ⟨rfl, rfl⟩ := Prod.mk.inj (Option.some.inj hw)
    exact hleaf _ h₁ h₂
  | cons j js ih =>
    rw [sv39Walk] at hw
    split_ifs at hw with h₁ h₂
    · obtain ⟨rfl, rfl⟩ := Prod.mk.inj (Option.some.inj hw)
      exact hleaf _ h₁ h₂
    · exact ih hw

end Walk

/-! ## Translation -/

theorem toNat_makeSatp {root : ℕ} (h : root < 2 ^ 44) : (makeSatp root).toNat = 2 ^ 63 + root := by
  have h₁ : (8#64 <<< 60).toNat = 8 <<< 60 := by decide
  have h₂ : root % 2 ^ 64 = root := Nat.mod_eq_of_lt (by omega)
  rw [makeSatp, BitVec.toNat_or, BitVec.toNat_ofNat, h₁, h₂,
    ← Nat.shiftLeft_add_eq_or_of_lt (by omega), Nat.shiftLeft_eq]
  norm_num

theorem makeSatp_mode {root : ℕ} (h : root < 2 ^ 44) : makeSatp root >>> 60 = 8 := by
  apply BitVec.eq_of_toNat_eq
  rw [BitVec.toNat_ushiftRight, toNat_makeSatp h, Nat.shiftRight_eq_div_pow]
  change _ = 8
  omega

theorem makeSatp_root {root : ℕ} (h : root < 2 ^ 44) : (makeSatp root).toNat % 2 ^ 44 = root := by
  rw [toNat_makeSatp h]
  omega

section Translate

variable {ram : ℕ → Fin 512 → Word} {root : ℕ} {va e : Word}

/-- The address is one the hardware translates. -/
def Canonical (va : Word) : Prop := (va.setWidth 39).signExtend 64 = va

theorem translate_of_lookup (hl : Radix.Interior pteFormat IsLink ram 2 root)
    (hroot : root < 2 ^ 44)
    (hc : Canonical va) (he : lookup ram root (va.toNat % 2 ^ 39 / 4096) = some e)
    (hleaf : IsLeaf e) : translate ram (makeSatp root) va = some (ppn e, e) := by
  have hw : sv39Walk ram (getPageOffset (va.toNat % 2 ^ 39 / 4096)).1
      (getPageOffset (va.toNat % 2 ^ 39 / 4096)).2 root = some (e, 0) :=
    sv39Walk_of_get hl he hleaf
  rw [translate, if_pos ⟨makeSatp_mode hroot, hc⟩, makeSatp_root hroot, pageSize_eq]
  simp only [hw, pow_zero, Nat.mod_one, if_true, Nat.add_zero]

theorem lookup_of_translate {p : ℕ} (hl : Radix.Interior pteFormat IsLink ram 2 root)
    (hroot : root < 2 ^ 44) (ht : translate ram (makeSatp root) va = some (p, e)) :
    lookup ram root (va.toNat % 2 ^ 39 / 4096) = some e ∧ p = ppn e := by
  rw [translate] at ht
  split_ifs at ht
  rw [makeSatp_root hroot, pageSize_eq] at ht
  simp only at ht
  split at ht
  · cases ht
  · rename_i pte lv hw
    have hl' : Radix.Interior pteFormat IsLink ram
        (getPageOffset (va.toNat % 2 ^ 39 / 4096)).2.length root := hl
    obtain ⟨rfl, hg⟩ := get_of_sv39Walk hl' hw
    simp only [pow_zero, Nat.mod_one, if_true, Nat.add_zero, Option.some.injEq,
      Prod.mk.injEq] at ht
    obtain ⟨rfl, rfl⟩ := ht
    exact ⟨hg, rfl⟩

/-- The hardware translates canonical addresses, and to leaves. -/
theorem isLeaf_of_translate {satp : Word} {p : ℕ} (ht : translate ram satp va = some (p, e)) :
    Canonical va ∧ IsLeaf e := by
  rw [translate] at ht
  split_ifs at ht with hc
  simp only at ht
  split at ht
  · cases ht
  · rename_i pte lv hw
    split_ifs at ht
    obtain ⟨-, rfl⟩ := Prod.mk.inj (Option.some.inj ht)
    exact ⟨hc.2, isLeaf_of_sv39Walk hw⟩

/-- The addresses of the upper half. -/
theorem canonical_of_ge (h : 2 ^ 64 - 2 ^ 38 ≤ va.toNat) : Canonical va := by
  have hmsb : (va.setWidth 39).msb = true := by
    rw [BitVec.msb_eq_decide, BitVec.toNat_setWidth, decide_eq_true_eq]
    have := va.isLt
    omega
  apply BitVec.eq_of_toNat_eq
  rw [BitVec.toNat_signExtend, if_pos hmsb, BitVec.toNat_setWidth, BitVec.toNat_setWidth]
  have := va.isLt
  omega

/-- The addresses of the lower half. -/
theorem canonical_of_lt (h : va.toNat < 2 ^ 38) : Canonical va := by
  have hmsb : (va.setWidth 39).msb = false := by
    rw [BitVec.msb_eq_decide, BitVec.toNat_setWidth, decide_eq_false_iff_not]
    omega
  apply BitVec.eq_of_toNat_eq
  rw [BitVec.toNat_signExtend, hmsb, BitVec.toNat_setWidth, BitVec.toNat_setWidth]
  simp only [Bool.false_eq_true, if_false]
  omega

end Translate

end RiscvOs
