import RiscvOs.Mem.Frames

/-!
# Bytes of words and frames

The source copies bytes and reads strings; the model's frames hold words.
-/

set_option autoImplicit false

namespace RiscvOs

/-- A byte of a word, the low one first. -/
def wordByte (w : Word) (k : ℕ) : Byte := (w >>> (8 * k)).setWidth 8

/-- Replace a byte of a word. -/
def setWordByte (w : Word) (k : ℕ) (b : Byte) : Word :=
  (w &&& ~~~(0xff#64 <<< (8 * k))) ||| (b.setWidth 64 <<< (8 * k))

/-- The word of a page that holds the byte `o`. -/
def wordIndex (o : ℕ) : Fin 512 := Fin.ofNat 512 (o / 8)

/-- A byte of a page. -/
def frameByte (c : Fin 512 → Word) (o : ℕ) : Byte := wordByte (c (wordIndex o)) (o % 8)

/-- The `n` bytes at `o` as a number, the low one first. -/
def leAt (f : ℕ → Byte) (o : ℕ) : ℕ → ℕ
  | 0 => 0
  | n + 1 => (f o).toNat + 256 * leAt f (o + 1) n

/-- The page of bytes at `o`. -/
def pageAt (f : ℕ → Byte) (o : ℕ) : Fin 512 → Word :=
  fun i => BitVec.ofNat 64 (leAt f (o + 8 * i) 8)

namespace Mem

/-- The byte at a physical address. -/
def byte (m : Mem) (pa : ℕ) : Byte := frameByte (m.ram (pa / pageSize)) (pa % pageSize)

/-- Store a byte at a physical address. -/
def storeByte (m : Mem) (pa : ℕ) (b : Byte) : Mem :=
  let i := wordIndex (pa % pageSize)
  m.store (pa / pageSize) i (setWordByte (m.ram (pa / pageSize) i) (pa % 8) b)

/-- The string at a physical address, up to its `NUL`. The kernel maps `[KERNBASE, PHYSTOP)`;
reading elsewhere traps. -/
def cstringFrom (m : Mem) : ℕ → ℕ → Except Halt (List Byte)
  | 0, _ => .error .fault
  | fuel + 1, pa =>
    if pa < kernbase ∨ phystop ≤ pa then .error .fault
    else if m.byte pa = 0 then .ok []
    else do
      let rest ← cstringFrom m fuel (pa + 1)
      .ok (m.byte pa :: rest)

/-- The string `pa` points to. -/
def cstring (m : Mem) (pa : ℕ) : Except Halt (List Byte) := m.cstringFrom (phystop - pa + 1) pa

/-- The bytes from `pa` on are the string and its `NUL`, where the kernel can read them. -/
def StringAt (m : Mem) (pa : ℕ) : List Byte → Prop
  | [] => kernbase ≤ pa ∧ pa < phystop ∧ m.byte pa = 0
  | c :: text => kernbase ≤ pa ∧ pa < phystop ∧ m.byte pa = c ∧ c ≠ 0 ∧ m.StringAt (pa + 1) text

theorem StringAt.range {m : Mem} {pa : ℕ} {text : List Byte} (h : m.StringAt pa text) :
    kernbase ≤ pa ∧ pa < phystop := by
  cases text with
  | nil => exact ⟨h.1, h.2.1⟩
  | cons c text => exact ⟨h.1, h.2.1⟩

theorem StringAt.lt {m : Mem} {pa : ℕ} {text : List Byte} (h : m.StringAt pa text) :
    pa + text.length < phystop := by
  induction text generalizing pa with
  | nil => exact h.2.1
  | cons c text ih =>
    have := ih h.2.2.2.2
    rw [List.length_cons]
    omega

theorem cstringFrom_eq_ok_iff {m : Mem} {fuel pa : ℕ} {text : List Byte} :
    m.cstringFrom fuel pa = .ok text ↔ text.length < fuel ∧ m.StringAt pa text := by
  induction fuel generalizing pa text with
  | zero =>
    refine iff_of_false (fun h => ?_) fun h => Nat.not_lt_zero _ h.1
    cases h
  | succ fuel ih =>
    rw [cstringFrom]
    split_ifs with hrange hnul
    · refine iff_of_false (fun h => by cases h) ?_
      rintro ⟨-, h⟩
      have := h.range
      omega
    · cases text with
      | nil => exact iff_of_true rfl ⟨Nat.succ_pos fuel, by omega, by omega, hnul⟩
      | cons c text =>
        refine iff_of_false (fun h => by cases h) ?_
        rintro ⟨-, -, -, hc, hne, -⟩
        exact hne (hc ▸ hnul)
    · cases text with
      | nil =>
        refine iff_of_false (fun h => ?_) fun h => hnul h.2.2.2
        obtain ⟨rest, -, hrest⟩ := exists_of_bind_ok h
        cases hrest
      | cons c text =>
        rw [List.length_cons, Nat.add_lt_add_iff_right, StringAt]
        constructor
        · intro h
          obtain ⟨rest, hread, hrest⟩ := exists_of_bind_ok h
          obtain ⟨rfl, rfl⟩ := List.cons.inj (Except.ok.inj hrest)
          obtain ⟨hlt, hat⟩ := ih.mp hread
          exact ⟨hlt, by omega, by omega, rfl, hnul, hat⟩
        · rintro ⟨hlt, -, -, rfl, -, hat⟩
          rw [ih.mpr ⟨hlt, hat⟩, ok_bind]

theorem stringAt_iff {m : Mem} {pa : ℕ} {text : List Byte} :
    m.StringAt pa text ↔ 0 ∉ text ∧ ∀ o ≤ text.length,
      kernbase ≤ pa + o ∧ pa + o < phystop ∧ m.byte (pa + o) = text.getD o 0 := by
  induction text generalizing pa with
  | nil => simp [StringAt]
  | cons c text ih =>
    rw [StringAt, ih, List.mem_cons, not_or]
    constructor
    · rintro ⟨hge, hlt, hc, hne, hnul, hrest⟩
      refine ⟨⟨hne.symm, hnul⟩, fun o ho => ?_⟩
      cases o with
      | zero => exact ⟨hge, hlt, hc⟩
      | succ o =>
        rw [← Nat.succ_add_eq_add_succ]
        exact hrest o (Nat.le_of_succ_le_succ ho)
    · rintro ⟨⟨hne, hnul⟩, hall⟩
      have hfirst := hall 0 (Nat.zero_le _)
      refine ⟨hfirst.1, hfirst.2.1, hfirst.2.2, Ne.symm hne, hnul, fun o ho => ?_⟩
      rw [Nat.succ_add_eq_add_succ]
      exact hall (o + 1) (Nat.succ_le_succ ho)

/-- **What the kernel reads as a string.** -/
theorem cstring_eq_ok_iff {m : Mem} {pa : ℕ} {text : List Byte} :
    m.cstring pa = .ok text ↔ m.StringAt pa text := by
  rw [cstring, cstringFrom_eq_ok_iff, and_iff_right_iff_imp]
  intro h
  have := h.lt
  omega

end Mem

/-! ## Stored bytes -/

theorem getLsbD_wordByte (w : Word) (k i : ℕ) :
    (wordByte w k).getLsbD i = (decide (i < 8) && w.getLsbD (8 * k + i)) := by
  rw [wordByte, BitVec.getLsbD_setWidth, BitVec.getLsbD_ushiftRight]

theorem getLsbD_setWordByte (w : Word) (k : ℕ) (b : Byte) {i : ℕ} (hi : i < 64) :
    (setWordByte w k b).getLsbD i =
      if i / 8 = k then b.getLsbD (i % 8) else w.getLsbD i := by
  have h255 : ∀ n, (0xff#64).getLsbD n = decide (n < 8) := by
    intro n
    by_cases hn : n < 64
    · revert hn n
      decide +kernel
    · rw [BitVec.getLsbD_of_ge _ _ (by omega)]
      exact (decide_eq_false (by omega)).symm
  rw [setWordByte, BitVec.getLsbD_or, BitVec.getLsbD_and, BitVec.getLsbD_not,
    BitVec.getLsbD_shiftLeft, BitVec.getLsbD_shiftLeft, BitVec.getLsbD_setWidth, h255]
  simp only [hi, decide_true, Bool.true_and]
  split_ifs with h
  · have h₁ : ¬ i < 8 * k := by omega
    have h₂ : i % 8 < 8 := by omega
    have h₃ : i % 8 < 64 := by omega
    have h₄ : i - 8 * k = i % 8 := by omega
    simp [h₁, h₂, h₃, h₄]
  · by_cases h₁ : i < 8 * k
    · simp [h₁]
    · have h₂ : ¬ i - 8 * k < 8 := by omega
      rw [BitVec.getLsbD_of_ge b _ (by omega)]
      simp [h₁, h₂]

theorem wordByte_setWordByte (w : Word) {j : ℕ} (hj : j < 8) (k : ℕ) (b : Byte) :
    wordByte (setWordByte w k b) j = if j = k then b else wordByte w j := by
  refine BitVec.eq_of_getLsbD_eq fun i hi => ?_
  rw [getLsbD_wordByte, getLsbD_setWordByte w k b (by omega)]
  have hdiv : (8 * j + i) / 8 = j := by omega
  have hmod : (8 * j + i) % 8 = i := by omega
  rw [hdiv, hmod]
  split_ifs
  · simp [hi]
  · rw [getLsbD_wordByte]

/-- A byte of a frame. -/
theorem Mem.byte_frame (m : Mem) (f : ℕ) {o : ℕ} (ho : o < 4096) :
    m.byte (f * 4096 + o) = frameByte (m.ram f) o := by
  rw [Mem.byte, pageSize_eq, show (f * 4096 + o) / 4096 = f by omega,
    show (f * 4096 + o) % 4096 = o by omega]

/-- A byte that was stored is read back, and no other byte has changed. -/
theorem Mem.byte_storeByte (m : Mem) (pa pa' : ℕ) (b : Byte) :
    (m.storeByte pa b).byte pa' = if pa' = pa then b else m.byte pa' := by
  have hmod : ∀ x : ℕ, x % pageSize % 8 = x % 8 := fun x =>
    Nat.mod_mod_of_dvd x (by decide : 8 ∣ pageSize)
  have hlt : ∀ x : ℕ, x % 8 < 8 := fun x => Nat.mod_lt x (by decide)
  have hix : ∀ x : ℕ, (wordIndex (x % pageSize)).val = x % pageSize / 8 := fun x =>
    Nat.mod_eq_of_lt (by
      have : x % pageSize < pageSize := Nat.mod_lt x (by decide)
      change x % 4096 / 8 < 512
      change x % 4096 < 4096 at this
      omega)
  rw [Mem.byte, frameByte, Mem.byte, frameByte, hmod]
  by_cases hf : pa' / pageSize = pa / pageSize
  · by_cases hw : wordIndex (pa' % pageSize) = wordIndex (pa % pageSize)
    · have hiff : pa' % 8 = pa % 8 ↔ pa' = pa := by
        have hw' := congrArg Fin.val hw
        rw [hix, hix] at hw'
        change pa' / 4096 = pa / 4096 at hf
        change pa' % 4096 / 8 = pa % 4096 / 8 at hw'
        omega
      rw [Mem.storeByte, hf, hw, Mem.store_self, wordByte_setWordByte _ (hlt _)]
      simp only [hiff]
    · have hne : pa' ≠ pa := fun he => hw (by rw [he])
      rw [Mem.storeByte, hf, Mem.store_self_of_ne hw, if_neg hne]
  · have hne : pa' ≠ pa := fun he => hf (by rw [he])
    rw [Mem.storeByte, Mem.store_of_ne hf, if_neg hne]

end RiscvOs
