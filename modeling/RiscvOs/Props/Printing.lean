import RiscvOs.Print.Digits

/-!
# Formatted output

* **`vsnprintf_renders`**: `_vsnprintf` writes as much of the reference rendering as fits and
  returns its length.
* **`decimal_exact_iff`**: a number comes out in decimal unless it is the least `long`, whose
  negation is itself.
* **`measuring_agrees_iff`**: the measuring pass of `_vprintf` agrees with the writing pass exactly
  when the format has no `%c`. `%c` fetches its argument only where it has a place to store it.
-/

set_option autoImplicit false

namespace RiscvOs

open Printer

/-! ## The reference -/

/-- What a conversion of the word `w` stands for. -/
def Conv.reference (args : Args) (w : Word) : Conv → List Byte
  | .d => decimal (w.setWidth 32).toInt
  | .ld => decimal w.toInt
  | .x => hexadecimal (w.setWidth 32).toNat 8
  | .lx => hexadecimal w.toNat 16
  | .p => ch '0' :: ch 'x' :: hexadecimal w.toNat 16
  | .s => args.str w
  | .c => [w.setWidth 8]

/-- What a format stands for, from the argument `vl` on. -/
def reference (args : Args) : List Piece → ℕ → List Byte
  | [], _ => []
  | .lit b _ :: ps, vl => b :: reference args ps vl
  | .conv k :: ps, vl => k.reference args (args.word vl) ++ reference args ps (vl + 1)

/-- No argument of `%ld` is the least `long`. -/
def LongsNegatable (args : Args) : List Piece → ℕ → Prop
  | [], _ => True
  | .lit _ _ :: ps, vl => LongsNegatable args ps vl
  | .conv k :: ps, vl =>
    (k = .ld → (args.word vl).toInt ≠ -2 ^ 63) ∧ LongsNegatable args ps (vl + 1)

theorem toInt_bounds (w : Word) : -2 ^ 63 ≤ w.toInt ∧ w.toInt < 2 ^ 63 :=
  ⟨BitVec.le_toInt w, BitVec.toInt_lt⟩

theorem Conv.bytes_eq {args : Args} {w : Word} {k : Conv} (h : k = .ld → w.toInt ≠ -2 ^ 63) :
    k.bytes args w = k.reference args w := by
  cases k with
  | d =>
    have hi : ((w.setWidth 32).signExtend 64 : Word).toInt = (w.setWidth 32).toInt :=
      BitVec.toInt_signExtend_of_le (by decide)
    have h₁ := BitVec.le_toInt (w.setWidth 32)
    have h₂ : (w.setWidth 32).toInt < 2 ^ 31 := BitVec.toInt_lt
    rw [Conv.bytes, Conv.reference, hi]
    exact decBytes_eq (by omega) (by omega)
  | ld =>
    have hb := toInt_bounds w
    have hne := h rfl
    exact decBytes_eq (by omega) hb.2
  | x => rw [Conv.bytes, Conv.reference, hexBytes_eq _ (by decide), hexadecimal_signExtend]
  | lx => rw [Conv.bytes, Conv.reference, hexBytes_eq _ le_rfl]
  | p => rw [Conv.bytes, Conv.reference, hexBytes_eq _ le_rfl]
  | s => rfl
  | c => rfl

/-- The formatter's bytes are the reference's. -/
theorem emitted_eq_reference {args : Args} {fmt : List Piece} {vl : ℕ}
    (h : LongsNegatable args fmt vl) : emitted args fmt vl = reference args fmt vl := by
  induction fmt generalizing vl with
  | nil => rfl
  | cons p ps ih =>
    cases p with
    | lit b hb =>
      rw [emitted, reference, ← ih h]
      rfl
    | conv k =>
      have ht : Piece.takes True (.conv k) = 1 := by
        cases k with
        | c => rfl
        | d | ld | x | lx | p | s => rfl
      rw [emitted, reference, ht, ih h.2]
      exact congrArg (· ++ _) (Conv.bytes_eq h.1)

/-! ## The buffer -/

section Buffer

variable {n : ℕ} {args : Args} {fmt : List Piece} {buf : ℕ → Byte}

/-- The buffer with its closing `NUL`. -/
def closed (n : ℕ) (bs : List Byte) (buf : ℕ → Byte) : ℕ → Byte :=
  if bs.length < n then Function.update (blit n 0 bs buf) bs.length 0
  else if n ≠ 0 then Function.update (blit n 0 bs buf) (n - 1) 0
  else blit n 0 bs buf

theorem finish_write (bs : List Byte) (vl : ℕ) :
    ((((⟨false, false, 0, some buf, 0⟩ : Printer).write n bs).move vl).finish n).out =
      some (closed n bs buf) := by
  simp only [finish, move, write, Option.map_some, closed, zero_add]

/-- What `_vsnprintf` leaves when every character is stored or there is none. -/
theorem vsnprintf_some (h : (emitted args fmt 0).length ≤ n - 1 ∨ ∀ p ∈ fmt, p.isChar = false) :
    (vsnprintf (some buf) n (spell fmt) args).pos = (emitted args fmt 0).length ∧
      (vsnprintf (some buf) n (spell fmt) args).out = some (closed n (emitted args fmt 0) buf) := by
  have hr : (rendering args (fun q => (true : Bool) ∧ q < n) fmt 0 0).1 = emitted args fmt 0 := by
    obtain h | h := h
    · rw [rendering_of_fits fun q hq => ⟨rfl, by omega⟩, rendering_true]
    · rw [rendering_of_no_char (fun _ => True) h, rendering_true]
  rw [vsnprintf_eq (some buf) (b := true) rfl]
  rw [hr]
  exact ⟨zero_add _, finish_write _ _⟩

theorem closed_of_lt {bs : List Byte} {i : ℕ} (hn : 1 ≤ n) (hi : i < min bs.length (n - 1)) :
    closed n bs buf i = bs.getD i 0 := by
  have hb : blit n 0 bs buf i = bs.getD i 0 := if_pos (by omega)
  rw [closed]
  split_ifs with h₁ h₂
  · rw [Function.update_of_ne (by omega), hb]
  · rw [Function.update_of_ne (by omega), hb]
  · exact hb

theorem closed_nul {bs : List Byte} (hn : 1 ≤ n) : closed n bs buf (min bs.length (n - 1)) = 0 := by
  rw [closed]
  split_ifs with h₁ h₂
  · rw [Nat.min_eq_left (by omega), Function.update_self]
  · rw [Nat.min_eq_right (by omega), Function.update_self]
  · omega

theorem closed_of_gt {bs : List Byte} {i : ℕ} (hi : min bs.length (n - 1) < i) :
    closed n bs buf i = buf i := by
  have hb : blit n 0 bs buf i = buf i := if_neg (by omega)
  rw [closed]
  split_ifs with h₁ h₂
  · rw [Function.update_of_ne (by omega), hb]
  · rw [Function.update_of_ne (by omega), hb]
  · exact hb

end Buffer

/-- **`_vsnprintf` renders its format language.** -/
theorem vsnprintf_renders {n : ℕ} {args : Args} {fmt : List Piece} (hn : 1 ≤ n)
    (hld : LongsNegatable args fmt 0) (hlen : (reference args fmt 0).length < 2 ^ 31)
    (hfit : (reference args fmt 0).length ≤ n - 1 ∨ ∀ p ∈ fmt, p.isChar = false)
    (buf : ℕ → Byte) :
    ∃ buf', (vsnprintf (some buf) n (spell fmt) args).out = some buf' ∧
      (∀ i < min (reference args fmt 0).length (n - 1), buf' i = (reference args fmt 0).getD i 0) ∧
      buf' (min (reference args fmt 0).length (n - 1)) = 0 ∧
      (∀ i, min (reference args fmt 0).length (n - 1) < i → buf' i = buf i) ∧
      (vsnprintf (some buf) n (spell fmt) args).ret.toInt = (reference args fmt 0).length := by
  have he := emitted_eq_reference hld
  rw [← he] at hfit hlen ⊢
  have hsome : (vsnprintf (some buf) n (spell fmt) args).pos = (emitted args fmt 0).length ∧ _ :=
    vsnprintf_some hfit
  obtain ⟨hpos, hout⟩ := hsome
  refine ⟨_, hout, fun i hi => closed_of_lt hn hi, closed_nul hn, fun i hi => closed_of_gt hi, ?_⟩
  have htoNat : (BitVec.ofNat 32 (emitted args fmt 0).length).toNat = (emitted args fmt 0).length :=
    Nat.mod_eq_of_lt (by omega)
  rw [ret, hpos, BitVec.toInt_eq_toNat_of_lt (by rw [htoNat]; omega), htoNat]

/-- The words `'A'` and `12345`, and no strings. -/
def sampleArgs : Args where
  word := fun i => if i = 0 then 65 else 12345
  str := fun _ => []
  noNul := fun _ => List.not_mem_nil

/-- `%x%d` in a buffer of five bytes: four characters and the `NUL`. -/
theorem vsnprintf_renders_cut : ∃ buf',
    (vsnprintf (some fun _ => 1) 5 (spell [.conv .x, .conv .d]) sampleArgs).out = some buf' ∧
      buf' 4 = 0 ∧ buf' 5 = 1 ∧
      (vsnprintf (some fun _ => 1) 5 (spell [.conv .x, .conv .d]) sampleArgs).ret.toInt = 13 := by
  have hlen : (reference sampleArgs [.conv .x, .conv .d] 0).length = 13 := by decide +kernel
  have hld : LongsNegatable sampleArgs [.conv .x, .conv .d] 0 :=
    ⟨fun h => (by cases h), fun h => (by cases h), trivial⟩
  obtain ⟨buf', hout, -, hnul, hrest, hret⟩ := vsnprintf_renders (n := 5) (by decide) hld
    (by rw [hlen]; decide) (.inr (by decide)) fun _ => 1
  rw [hlen] at hnul hrest hret
  exact ⟨buf', hout, hnul, hrest 5 (by decide), hret⟩

/-! ## Decimal output -/

/-- The value of decimal digits, the first one first. -/
def decValue (ds : List ℕ) : ℕ := ds.foldl (fun a d => 10 * a + d) 0

/-- The text is the number in decimal: a sign iff it is negative, then digits without a leading
zero, which read back give the number. -/
def IsDecimal (v : ℤ) (text : List Byte) : Prop :=
  ∃ ds : List ℕ, (∀ d ∈ ds, d < 10) ∧ ds ≠ [] ∧ (ds.head? = some 0 → ds = [0]) ∧
    text = (if v < 0 then [ch '-'] else []) ++ ds.map digitChar ∧ v.natAbs = decValue ds

theorem decValue_append (ds : List ℕ) (d : ℕ) : decValue (ds ++ [d]) = 10 * decValue ds + d := by
  rw [decValue, List.foldl_append]
  rfl

theorem decValue_decDigits (v : ℕ) : decValue (decDigits v) = v := by
  induction v using Nat.strong_induction_on with
  | _ v ih =>
    by_cases h : v < 10
    · rw [decDigits_of_lt h]
      exact Nat.zero_add v
    · rw [decDigits_of_le (by omega), decValue_append, ih (v / 10) (by omega)]
      omega

theorem decDigits_lt {v d : ℕ} (h : d ∈ decDigits v) : d < 10 := by
  induction v using Nat.strong_induction_on with
  | _ v ih =>
    by_cases hv : v < 10
    · rw [decDigits_of_lt hv, List.mem_singleton] at h
      omega
    · rw [decDigits_of_le (by omega), List.mem_append, List.mem_singleton] at h
      obtain h | rfl := h
      · exact ih (v / 10) (by omega) h
      · omega

theorem decDigits_ne_nil (v : ℕ) : decDigits v ≠ [] := by
  by_cases hv : v < 10
  · rw [decDigits_of_lt hv]
    exact List.cons_ne_nil _ _
  · rw [decDigits_of_le (by omega)]
    exact List.append_ne_nil_of_right_ne_nil _ (List.cons_ne_nil _ _)

theorem decDigits_head {v : ℕ} (h : (decDigits v).head? = some 0) : decDigits v = [0] := by
  induction v using Nat.strong_induction_on with
  | _ v ih =>
    by_cases hv : v < 10
    · rw [decDigits_of_lt hv] at h ⊢
      exact congrArg (fun d => [d]) (Option.some.inj h)
    · rw [decDigits_of_le (by omega), List.head?_append_of_ne_nil _ (decDigits_ne_nil _)] at h
      have h₀ := congrArg decValue (ih (v / 10) (by omega) h)
      rw [decValue_decDigits] at h₀
      change v / 10 = 0 at h₀
      omega

theorem isDecimal_decimal (v : ℤ) : IsDecimal v (decimal v) :=
  ⟨decDigits v.natAbs, fun _ => decDigits_lt, decDigits_ne_nil _, decDigits_head, rfl,
    (decValue_decDigits _).symm⟩

/-- The text of the least `long` is none: its digits come out negative. -/
theorem not_isDecimal_least : ¬ IsDecimal (-2 ^ 63) (decBytes (-2 ^ 63)) := by
  rintro ⟨ds, hlt, -, -, htext, -⟩
  have hmem : (39 : Byte) ∈ (decBytes (-2 ^ 63)).tail := by decide
  rw [htext, if_pos (by decide), List.singleton_append, List.tail_cons, List.mem_map] at hmem
  obtain ⟨d, hd, he⟩ := hmem
  have hd' := hlt d hd
  revert he
  interval_cases d <;> decide

/-- The text in a buffer with room for it. -/
theorem map_closed {n : ℕ} {bs : List Byte} {buf : ℕ → Byte} (hn : bs.length < n) :
    (List.range bs.length).map (closed n bs buf) = bs := by
  refine List.ext_getElem (by rw [List.length_map, List.length_range]) fun i h₁ h₂ => ?_
  rw [List.getElem_map, List.getElem_range, closed_of_lt (by omega) (by omega),
    List.getD_eq_getElem _ _ h₂]

/-- **Decimal output is exact but for the least `long`.** The buffer is large enough for the text.
-/
theorem decimal_exact_iff {n : ℕ} {args : Args} {buf : ℕ → Byte} {k : Conv} {v : ℤ}
    (hk : k = .d ∧ v = ((args.word 0).setWidth 32).toInt ∨ k = .ld ∧ v = (args.word 0).toInt)
    (hn : (vsnprintf (some buf) n (spell [.conv k]) args).pos < n) :
    (∃ buf', (vsnprintf (some buf) n (spell [.conv k]) args).out = some buf' ∧
      IsDecimal v ((List.range (vsnprintf (some buf) n (spell [.conv k]) args).pos).map buf')) ↔
    ¬ (k = .ld ∧ v = -2 ^ 63) := by
  have hchar : ∀ p ∈ [Piece.conv k], p.isChar = false := by
    intro p hp
    obtain rfl := List.mem_singleton.mp hp
    obtain ⟨rfl, -⟩ | ⟨rfl, -⟩ := hk
    · rfl
    · rfl
  have hsome : (vsnprintf (some buf) n (spell [.conv k]) args).pos =
      (emitted args [.conv k] 0).length ∧ _ := vsnprintf_some (.inr hchar)
  obtain ⟨hpos, hout⟩ := hsome
  have hbytes : emitted args [.conv k] 0 = decBytes v := by
    obtain ⟨rfl, rfl⟩ | ⟨rfl, rfl⟩ := hk
    · have hi : (((args.word 0).setWidth 32).signExtend 64 : Word).toInt =
          ((args.word 0).setWidth 32).toInt := BitVec.toInt_signExtend_of_le (by decide)
      rw [← hi]
      exact List.append_nil _
    · exact List.append_nil _
  rw [hpos] at hn ⊢
  have htext : (∃ buf', (vsnprintf (some buf) n (spell [.conv k]) args).out = some buf' ∧
      IsDecimal v ((List.range (emitted args [.conv k] 0).length).map buf')) ↔
      IsDecimal v (decBytes v) := by
    rw [hout, ← hbytes]
    constructor
    · rintro ⟨buf', hb, hd⟩
      obtain rfl := Option.some.inj hb
      rwa [map_closed hn] at hd
    · exact fun hd => ⟨_, rfl, by rwa [map_closed hn]⟩
  have hgood : ¬ (v = -2 ^ 63) → IsDecimal v (decBytes v) := fun hne => by
    have hb : -2 ^ 63 ≤ v ∧ v < 2 ^ 63 := by
      obtain ⟨-, rfl⟩ | ⟨-, rfl⟩ := hk
      · have h₁ := BitVec.le_toInt ((args.word 0).setWidth 32)
        have h₂ : ((args.word 0).setWidth 32).toInt < 2 ^ 31 := BitVec.toInt_lt
        omega
      · exact toInt_bounds _
    rw [decBytes_eq (by omega) hb.2]
    exact isDecimal_decimal v
  rw [htext]
  constructor
  · rintro hd ⟨-, rfl⟩
    exact not_isDecimal_least hd
  · intro hne
    refine hgood fun hv => ?_
    obtain ⟨-, rfl⟩ | ⟨rfl, -⟩ := hk
    · have h₁ := BitVec.le_toInt ((args.word 0).setWidth 32)
      omega
    · exact hne ⟨rfl, hv⟩

/-- `%ld` of 65. -/
theorem decimal_exact_iff_positive : ∃ buf',
    (vsnprintf (some fun _ => 0) 30 (spell [.conv .ld]) sampleArgs).out = some buf' ∧
      IsDecimal 65 ((List.range 2).map buf') := by
  have hpos : (vsnprintf (some fun _ => 0) 30 (spell [.conv .ld]) sampleArgs).pos = 2 := by
    decide +kernel
  have h := @decimal_exact_iff 30 sampleArgs (fun _ => 0) .ld 65 (.inr ⟨rfl, rfl⟩)
    (by rw [hpos]; decide)
  rw [hpos] at h
  exact h.mpr fun hc => absurd hc.2 (by decide)

/-- The least `long`, and no strings. -/
def leastArgs : Args where
  word := fun _ => 0x8000000000000000
  str := fun _ => []
  noNul := fun _ => List.not_mem_nil

/-- `%ld` of `-2^63` begins with a minus sign and an apostrophe. -/
theorem least_long_garbled :
    (vsnprintf (some fun _ => 0) 30 (spell [.conv .ld]) leastArgs).out.map
      (fun buf => (List.range 20).map buf) = some (decBytes (-2 ^ 63)) ∧
    (decBytes (-2 ^ 63)).take 2 = [ch '-', 0x27] ∧ ¬ IsDecimal (-2 ^ 63) (decBytes (-2 ^ 63)) := by
  refine ⟨by decide +kernel, by decide, not_isDecimal_least⟩

/-! ## The two passes -/

section Passes

variable {n vl : ℕ} {args : Args} {fmt : List Piece} {buf : ℕ → Byte} {bs : List Byte}

/-- The measuring pass. -/
theorem vsnprintf_none : (vsnprintf none n (spell fmt) args).pos =
      (rendering args (fun _ => False) fmt 0 0).1.length ∧
    (vsnprintf none n (spell fmt) args).vl = (rendering args (fun _ => False) fmt 0 0).2 := by
  rw [vsnprintf_eq none (b := false) rfl, rendering_congr (fun _ => False) fun q => by simp]
  exact ⟨zero_add _, rfl⟩

/-- The writing pass. -/
theorem vsnprintf_write : (vsnprintf (some buf) n (spell fmt) args).pos =
      (rendering args (fun q => q < n) fmt 0 0).1.length ∧
    (vsnprintf (some buf) n (spell fmt) args).vl = (rendering args (fun q => q < n) fmt 0 0).2 := by
  rw [vsnprintf_eq (some buf) (b := true) rfl, rendering_congr (fun q => q < n) fun q => by simp]
  exact ⟨zero_add _, rfl⟩

theorem decDigit_ne_zero (num : ℤ) : decDigit num ≠ 0 := by
  have h₁ : -10 < num.tmod 10 := by
    have := Int.lt_tmod_of_pos num (by decide : (0 : ℤ) < 10)
    omega
  have h₂ : num.tmod 10 < 10 := Int.tmod_lt_of_pos num (by decide)
  rw [decDigit]
  generalize num.tmod 10 = t at h₁ h₂
  interval_cases t <;> decide

theorem digitBytes_ne_zero (i : ℕ) (num : ℤ) : (0 : Byte) ∉ digitBytes i num := by
  induction i generalizing num with
  | zero => exact List.not_mem_nil
  | succ i ih =>
    rw [digitBytes, List.mem_append, List.mem_singleton, not_or]
    exact ⟨ih _, (decDigit_ne_zero num).symm⟩

theorem decBytes_ne_zero (num : ℤ) : (0 : Byte) ∉ decBytes num := by
  rw [decBytes]
  split_ifs
  · rw [List.mem_cons, not_or]
    exact ⟨by decide, digitBytes_ne_zero _ _⟩
  · exact digitBytes_ne_zero _ _

theorem hexBytes_ne_zero (num : Word) {k : ℕ} (hk : k ≤ 16) : (0 : Byte) ∉ hexBytes num k := by
  have key : ∀ d : Fin 16, hexChar d ≠ 0 := by decide
  rw [hexBytes_eq num hk, hexadecimal, List.mem_map]
  rintro ⟨i, -, he⟩
  exact key ⟨num.toNat / 16 ^ i % 16, Nat.mod_lt _ (by decide)⟩ he

/-- Only a character can be `NUL`. -/
theorem Piece.bytes_ne_zero {p : Piece} (hp : p.isChar = false) : (0 : Byte) ∉ p.bytes args vl := by
  cases p with
  | lit b h =>
    rw [Piece.bytes, List.mem_singleton]
    exact h.1.symm
  | conv k =>
    cases k with
    | d | ld => exact decBytes_ne_zero _
    | x => exact hexBytes_ne_zero _ (by decide)
    | lx => exact hexBytes_ne_zero _ le_rfl
    | p =>
      rw [Piece.bytes, Conv.bytes, List.mem_cons, List.mem_cons, not_or, not_or]
      exact ⟨by decide, by decide, hexBytes_ne_zero _ le_rfl⟩
    | s => exact args.noNul _
    | c => cases hp

theorem emitted_ne_zero (h : ∀ p ∈ fmt, p.isChar = false) : (0 : Byte) ∉ emitted args fmt vl := by
  induction fmt generalizing vl with
  | nil => exact List.not_mem_nil
  | cons p ps ih =>
    rw [emitted, List.mem_append, not_or]
    exact ⟨Piece.bytes_ne_zero (h p List.mem_cons_self),
      ih fun q hq => h q (List.mem_cons_of_mem p hq)⟩

/-- `uart_puts` sends the text before the `NUL`. -/
theorem upToNul_closed (hlen : bs.length + 1 < outBufSize) (h₀ : (0 : Byte) ∉ bs) :
    upToNul (closed (bs.length + 1) bs buf) = bs := by
  obtain ⟨k, hk⟩ := Nat.exists_eq_add_of_lt (by omega : bs.length < outBufSize)
  have hnul : closed (bs.length + 1) bs buf (min bs.length (bs.length + 1 - 1)) = 0 :=
    closed_nul (by omega)
  rw [Nat.min_eq_left (by omega)] at hnul
  rw [upToNul, hk, add_assoc, List.range_add, List.map_append, map_closed (Nat.lt_succ_self _),
    List.takeWhile_append_of_pos fun b hb => by
      rw [decide_eq_true_eq]
      exact fun he => h₀ (he ▸ hb)]
  rw [List.range_succ_eq_map, List.map_cons, List.map_cons, add_zero, hnul, List.takeWhile_cons,
    if_neg (by decide), List.append_nil]

/-- The size `_vprintf` passes on. -/
theorem size_eq {len : ℕ} (h : len + 1 < outBufSize) :
    ((BitVec.ofNat 32 len + 1).signExtend 64).toNat = len + 1 := by
  have ho : outBufSize = 1000 := rfl
  have hn : (BitVec.ofNat 32 len + 1).toNat = len + 1 := by
    rw [BitVec.toNat_add, BitVec.toNat_ofNat]
    change (len % 2 ^ 32 + 1) % 2 ^ 32 = len + 1
    omega
  have hmsb : (BitVec.ofNat 32 len + 1).msb = false := by
    rw [BitVec.msb_eq_decide, decide_eq_false_iff_not, hn]
    omega
  rw [BitVec.toNat_signExtend, hmsb, BitVec.toNat_setWidth, hn]
  change (len + 1) % 2 ^ 64 + 0 = len + 1
  omega

/-- Without characters the measured length is that of the text. -/
theorem vsnprintf_none_pos (h : ∀ p ∈ fmt, p.isChar = false) :
    (vsnprintf none n (spell fmt) args).pos = (emitted args fmt 0).length := by
  rw [vsnprintf_none.1, rendering_of_no_char (fun _ => True) h, rendering_true]

/-- And all of the text is sent. -/
theorem vprintfTo_eq (h : ∀ p ∈ fmt, p.isChar = false)
    (hlen : (emitted args fmt 0).length + 1 < outBufSize) :
    vprintfTo buf (spell fmt) args =
      .ok (emitted args fmt 0, BitVec.ofNat 32 (emitted args fmt 0).length) := by
  have hsome : (vsnprintf (some buf) ((emitted args fmt 0).length + 1) (spell fmt) args).pos = _ ∧
      _ := vsnprintf_some (.inr h)
  simp only [vprintfTo, ret, vsnprintf_none_pos h, size_eq hlen, hsome.2,
    upToNul_closed hlen (emitted_ne_zero h)]
  exact if_neg (by omega)

end Passes

/-- **The two passes agree iff the format has no `%c`.** -/
theorem measuring_agrees_iff (fmt : List Piece) (args : Args) (out : ℕ → Byte) :
    (let measured := vsnprintf none (2 ^ 64 - 1) (spell fmt) args
      let written := vsnprintf (some out) (measured.pos + 1) (spell fmt) args
      -- the same arguments, the same length
      measured.vl = written.vl ∧ measured.pos = written.pos ∧ measured.ret = written.ret ∧
      -- and all of the text is sent
      (measured.pos + 1 < 1000 → ∀ buf,
        vprintf buf (spell fmt) args = .ok (emitted args fmt 0, measured.ret) ∧
        userVprintf buf (spell fmt) args = .ok (emitted args fmt 0, measured.ret) ∧
        measured.pos = (emitted args fmt 0).length)) ↔
    ∀ p ∈ fmt, p.isChar = false := by
  have hnone : (vsnprintf none (2 ^ 64 - 1) (spell fmt) args).pos = _ ∧ _ := vsnprintf_none
  constructor
  · rintro ⟨hvl, -⟩ p hp
    by_contra hc
    rw [Bool.not_eq_false] at hc
    -- the first character is stored by the writing pass and passed over by the other
    rw [vsnprintf_write.2, hnone.2, hnone.1] at hvl
    refine absurd hvl (ne_of_lt (rendering_cursor_lt ⟨p, hp, hc⟩ fun q hq => ?_))
    omega
  · intro h
    have hpos : (vsnprintf none (2 ^ 64 - 1) (spell fmt) args).pos = (emitted args fmt 0).length :=
      vsnprintf_none_pos h
    have hr : ∀ m, rendering args (fun q => q < m) fmt 0 0 =
        rendering args (fun _ => False) fmt 0 0 := fun m => rendering_of_no_char _ h
    have hsame : (vsnprintf none (2 ^ 64 - 1) (spell fmt) args).pos = (vsnprintf (some out)
        ((vsnprintf none (2 ^ 64 - 1) (spell fmt) args).pos + 1) (spell fmt) args).pos := by
      rw [vsnprintf_write.1, hr, hnone.1]
    refine ⟨?_, hsame, congrArg (BitVec.ofNat 32) hsame, fun hlen buf => ?_⟩
    · rw [vsnprintf_write.2, hr, hnone.2]
    · rw [hpos] at hlen
      have hto : vprintfTo buf (spell fmt) args = _ := vprintfTo_eq h hlen
      rw [ret, hpos]
      exact ⟨hto, hto, rfl⟩

/-- `printf("%c%d", 'A', 12345)` sends `A12`. -/
theorem char_truncates : vprintf (fun _ => 0) (spell [.conv .c, .conv .d]) sampleArgs =
      .ok ([ch 'A', ch '1', ch '2'], 3) ∧
    reference sampleArgs [.conv .c, .conv .d] 0 =
      [ch 'A', ch '1', ch '2', ch '3', ch '4', ch '5'] := by
  refine ⟨by decide +kernel, ?_⟩
  decide +kernel

end RiscvOs
