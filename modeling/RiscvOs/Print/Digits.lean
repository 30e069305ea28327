import RiscvOs.Print.Render

/-!
# The digits of a number

The reference for `%d`, `%x` and their long forms, and that the loops of `_vsnprintf` compute it.

* `decimal`: the sign, and the digits from the first one on; `decDigits_of_le` is the loop's way of
  finding them.
* **`decBytes_eq`**: `case 'd'` writes them, for every `long` but the least one.
* **`hexBytes_eq`**: `case 'x'` writes the hexadecimal digits of the two's complement.
-/

set_option autoImplicit false

namespace RiscvOs

open Printer

/-! ## Decimal -/

/-- The decimal digits of a number, the first one first. -/
def decDigits (v : ℕ) : List ℕ := if v = 0 then [0] else (Nat.digits 10 v).reverse

/-- The character of a decimal digit. -/
def digitChar (d : ℕ) : Byte := BitVec.ofNat 8 (48 + d)

/-- A number in decimal. -/
def decimal (v : ℤ) : List Byte :=
  (if v < 0 then [ch '-'] else []) ++ (decDigits v.natAbs).map digitChar

theorem decDigits_of_lt {v : ℕ} (h : v < 10) : decDigits v = [v] := by
  rw [decDigits]
  split_ifs with h₀
  · rw [h₀]
  · rw [Nat.digits_of_lt 10 v h₀ h, List.reverse_singleton]

theorem decDigits_of_le {v : ℕ} (h : 10 ≤ v) : decDigits v = decDigits (v / 10) ++ [v % 10] := by
  rw [decDigits, if_neg (by omega), decDigits, if_neg (by omega),
    Nat.digits_def' (by decide) (by omega), List.reverse_cons]

theorem decDigit_natCast (v : ℕ) : decDigit v = digitChar (v % 10) := by
  have hm : (v : ℤ).tmod 10 = ((v % 10 : ℕ) : ℤ) := by
    rw [Int.tmod_eq_emod_of_nonneg (Int.natCast_nonneg v)]
    rfl
  have hlt : v % 10 < 10 := Nat.mod_lt v (by decide)
  rw [decDigit, hm, digitChar]
  generalize v % 10 = d at hlt
  revert d
  decide

/-- The loops of `case 'd'` find the digits. -/
theorem digitBytes_eq {fuel v : ℕ} (h : v < 10 ^ (fuel + 1)) :
    digitBytes (countDigits fuel v) v = (decDigits v).map digitChar := by
  induction fuel generalizing v with
  | zero =>
    have hv : v < 10 := by simpa using h
    rw [countDigits, digitBytes, digitBytes, decDigit_natCast, decDigits_of_lt hv,
      Nat.mod_eq_of_lt hv]
    rfl
  | succ fuel ih =>
    have hdiv : (v : ℤ).tdiv 10 = ((v / 10 : ℕ) : ℤ) := by
      rw [Int.tdiv_eq_ediv_of_nonneg (Int.natCast_nonneg v)]
      rfl
    rw [countDigits, hdiv]
    split_ifs with h₀
    · have hv : v < 10 := by
        have : v / 10 = 0 := by exact_mod_cast h₀
        omega
      rw [digitBytes, digitBytes, decDigit_natCast, decDigits_of_lt hv, Nat.mod_eq_of_lt hv]
      rfl
    · have hv : 10 ≤ v := by
        by_contra hlt
        exact h₀ (by rw [Nat.div_eq_of_lt (by omega)]; rfl)
      have hlt : v / 10 < 10 ^ (fuel + 1) := by
        rw [pow_succ] at h
        exact Nat.div_lt_of_lt_mul (by rwa [mul_comm])
      rw [digitBytes, hdiv, ih hlt, decDigit_natCast, decDigits_of_le hv, List.map_append]
      rfl

/-- Negation is exact but for the least `long`. -/
theorem negLong_eq {v : ℤ} (h₁ : -2 ^ 63 < v) (h₂ : v ≤ 2 ^ 63) : negLong v = -v := by
  rw [negLong, BitVec.toInt_ofInt]
  exact Int.bmod_eq_of_le (by omega) (by omega)

/-- **`case 'd'` writes the number in decimal.** -/
theorem decBytes_eq {v : ℤ} (h₁ : -2 ^ 63 < v) (h₂ : v < 2 ^ 63) : decBytes v = decimal v := by
  have hlt : v.natAbs < 10 ^ 21 := by omega
  rw [decBytes, decimal]
  split_ifs with h
  · have hneg : negLong v = (v.natAbs : ℤ) := by
      rw [negLong_eq h₁ h₂.le]
      omega
    rw [hneg, digitBytes_eq hlt]
    rfl
  · have hpos : v = (v.natAbs : ℤ) := by omega
    rw [List.nil_append, ← digitBytes_eq hlt, ← hpos]

/-! ## Hexadecimal -/

/-- The character of a hexadecimal digit. -/
def hexChar (d : ℕ) : Byte := BitVec.ofNat 8 (if d < 10 then 48 + d else 97 + (d - 10))

/-- The last `k` hexadecimal digits of a number. -/
def hexadecimal (v k : ℕ) : List Byte :=
  ((List.range k).reverse).map fun i => hexChar (v / 16 ^ i % 16)

/-- Four bits from `4 * i` on, whichever way the word is shifted down. -/
theorem sshiftRight_and (num : Word) {i : ℕ} (hi : i < 16) :
    num.sshiftRight (4 * i) &&& 0xF = num >>> (4 * i) &&& 0xF := by
  have hmask : ∀ j : Fin 64, 4 ≤ j.val → (0xF : Word).getLsbD j = false := by decide
  apply BitVec.eq_of_getLsbD_eq
  intro j hj
  rw [BitVec.getLsbD_and, BitVec.getLsbD_and]
  by_cases h4 : j < 4
  · rw [BitVec.getLsbD_sshiftRight, BitVec.getLsbD_ushiftRight, if_pos (by omega)]
    have hd : (!decide (64 ≤ j)) = true := by
      rw [Bool.not_eq_true', decide_eq_false_iff_not]
      omega
    rw [hd, Bool.true_and]
  · rw [hmask ⟨j, hj⟩ (Nat.le_of_not_lt h4), Bool.and_false, Bool.and_false]

theorem toNat_sshiftRight_and (num : Word) {i : ℕ} (hi : i < 16) :
    (num.sshiftRight (4 * i) &&& 0xF).toNat = num.toNat / 16 ^ i % 16 := by
  have hmask : (0xF : Word).toNat = 2 ^ 4 - 1 := by decide
  have hpow : 2 ^ (4 * i) = 16 ^ i := pow_mul 2 4 i
  rw [sshiftRight_and num hi, BitVec.toNat_and, BitVec.toNat_ushiftRight, hmask,
    Nat.and_two_pow_sub_one_eq_mod, Nat.shiftRight_eq_div_pow, hpow]

theorem hexDigit_eq (num : Word) {i : ℕ} (hi : i < 16) :
    hexDigit num i = hexChar (num.toNat / 16 ^ i % 16) := by
  have key : ∀ d : Word, d.toNat < 16 →
      (if d.toNat < 10 then ch '0' + d.setWidth 8 else ch 'a' + d.setWidth 8 - 10) =
        hexChar d.toNat := by
    intro d hd
    have hcases : ∀ k : Fin 16, (if k.val < 10 then ch '0' + BitVec.ofNat 8 k.val
        else ch 'a' + BitVec.ofNat 8 k.val - 10) = hexChar k.val := by decide
    have hw : d.setWidth 8 = BitVec.ofNat 8 d.toNat := by
      apply BitVec.eq_of_toNat_eq
      rw [BitVec.toNat_setWidth, BitVec.toNat_ofNat]
    rw [hw]
    exact hcases ⟨d.toNat, hd⟩
  have hn := toNat_sshiftRight_and num hi
  rw [hexDigit, ← hn]
  exact key _ (by rw [hn]; exact Nat.mod_lt _ (by decide))

theorem hexadecimal_succ (v k : ℕ) :
    hexadecimal v (k + 1) = hexChar (v / 16 ^ k % 16) :: hexadecimal v k := by
  rw [hexadecimal, List.range_succ, List.reverse_append, List.reverse_singleton,
    List.singleton_append, List.map_cons, hexadecimal]

/-- **`case 'x'` writes the digits of the two's complement.** -/
theorem hexBytes_eq (num : Word) {k : ℕ} (hk : k ≤ 16) :
    hexBytes num k = hexadecimal num.toNat k := by
  induction k with
  | zero => rfl
  | succ k ih => rw [hexBytes, hexadecimal_succ, hexDigit_eq num (by omega), ih (by omega)]

/-- The digits of an `int` are those of its 32 bits. -/
theorem hexadecimal_signExtend (w : BitVec 32) :
    hexadecimal (w.signExtend 64).toNat 8 = hexadecimal w.toNat 8 := by
  have hw := w.isLt
  have hmod : (w.signExtend 64).toNat % 2 ^ 32 = w.toNat := by
    rw [BitVec.toNat_signExtend, BitVec.toNat_setWidth]
    split_ifs <;> omega
  refine List.map_congr_left fun i hi => congrArg hexChar ?_
  rw [List.mem_reverse, List.mem_range] at hi
  rw [← hmod]
  interval_cases i <;> omega

end RiscvOs
