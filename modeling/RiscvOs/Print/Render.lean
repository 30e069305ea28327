import RiscvOs.Print.Format

/-!
# What `_vsnprintf` writes

The formatter works piece by piece: between two pieces of a format its flags are clear.

* `blit`: the buffer after bytes were written at a position, as far as they are below `n`.
* **`run_piece`**: a piece writes its bytes at `pos` and moves the cursor.
* **`vsnprintf_eq`**: so does a format; `emitted` are the bytes, `consumed` the arguments.
-/

set_option autoImplicit false

namespace RiscvOs

/-! ## Writing bytes -/

/-- The buffer after `bs` was written at `pos`, up to the index `n`. -/
def blit (n pos : ℕ) (bs : List Byte) (buf : ℕ → Byte) : ℕ → Byte := fun i =>
  if pos ≤ i ∧ i < pos + bs.length ∧ i < n then bs.getD (i - pos) 0 else buf i

section Blit

variable {n pos : ℕ} {a b : List Byte} {buf : ℕ → Byte}

theorem blit_nil : blit n pos [] buf = buf := by
  funext i
  rw [blit, if_neg]
  rw [List.length_nil]
  omega

theorem blit_append : blit n (pos + a.length) b (blit n pos a buf) = blit n pos (a ++ b) buf := by
  funext i
  simp only [blit, List.length_append]
  by_cases h₁ : pos ≤ i ∧ i < pos + a.length
  · rw [if_neg (by omega)]
    by_cases hn : i < n
    · rw [if_pos ⟨h₁.1, h₁.2, hn⟩, if_pos ⟨h₁.1, by omega, hn⟩, List.getD_append _ _ _ _ (by omega)]
    · rw [if_neg (by omega), if_neg (by omega)]
  · by_cases h₂ : pos + a.length ≤ i ∧ i < pos + a.length + b.length ∧ i < n
    · rw [if_pos h₂, if_pos (by omega), List.getD_append_right _ _ _ _ (by omega)]
      congr 1
      omega
    · rw [if_neg h₂, if_neg (by omega), if_neg (by omega)]

theorem blit_singleton (c : Byte) :
    blit n pos [c] buf = if pos < n then Function.update buf pos c else buf := by
  funext i
  rw [blit, List.length_singleton]
  by_cases hi : i = pos
  · subst hi
    by_cases hn : i < n
    · rw [if_pos (by omega), if_pos hn, Function.update_self, Nat.sub_self]
      rfl
    · rw [if_neg (by omega), if_neg hn]
  · rw [if_neg (by omega)]
    split_ifs
    · rw [Function.update_of_ne hi]
    · rfl

/-- Bytes written from the last one on. -/
theorem blit_last (c : Byte) : blit n pos a (if pos + a.length < n then
    Function.update buf (pos + a.length) c else buf) = blit n pos (a ++ [c]) buf := by
  rw [← blit_singleton c]
  funext i
  simp only [blit, List.length_append, List.length_singleton]
  by_cases h₁ : pos ≤ i ∧ i < pos + a.length ∧ i < n
  · rw [if_pos h₁, if_pos (by omega), List.getD_append _ _ _ _ (by omega)]
  · rw [if_neg h₁]
    by_cases h₂ : pos + a.length ≤ i ∧ i < pos + a.length + 1 ∧ i < n
    · rw [if_pos h₂, if_pos (by omega), List.getD_append_right _ _ _ _ (by omega)]
      congr 1
      omega
    · rw [if_neg h₂, if_neg (by omega)]

end Blit

namespace Printer

variable (n : ℕ) (args : Args)

/-- Move the cursor. -/
def move (vl : ℕ) (s : Printer) : Printer := { s with vl := vl }

/-- Write bytes at `pos`. -/
def write (bs : List Byte) (s : Printer) : Printer :=
  { s with pos := s.pos + bs.length, out := s.out.map (blit n s.pos bs) }

variable {n args} {s : Printer} {a b bs : List Byte}

theorem write_nil : s.write n [] = s := by
  have h : s.out.map (blit n s.pos []) = s.out := by
    rw [show blit n s.pos [] = id from funext fun _ => blit_nil, Option.map_id, id]
  rw [write, h]
  rfl

theorem write_append : (s.write n a).write n b = s.write n (a ++ b) := by
  have h : (s.out.map (blit n s.pos a)).map (blit n (s.pos + a.length) b) =
      s.out.map (blit n s.pos (a ++ b)) := by
    rw [Option.map_map]
    exact congrArg (Option.map · s.out) (funext fun _ => blit_append)
  simp only [write, h, List.length_append, add_assoc]

theorem emit_eq (c : Byte) : s.emit n c = s.write n [c] := by
  have h : (fun buf : ℕ → Byte => if s.pos < n then Function.update buf s.pos c else buf) =
      blit n s.pos [c] := funext fun _ => (blit_singleton c).symm
  rw [emit, put, write, h]
  rfl

theorem putStr_eq : putStr n bs s = s.write n bs := by
  induction bs generalizing s with
  | nil => exact write_nil.symm
  | cons c bs ih => rw [putStr, ih, emit_eq, write_append, List.singleton_append]

/-- The last `k` hexadecimal digits. -/
def hexBytes (num : Word) : ℕ → List Byte
  | 0 => []
  | k + 1 => hexDigit num k :: hexBytes num k

theorem putHex_eq (num : Word) (k : ℕ) : putHex n num k s = s.write n (hexBytes num k) := by
  induction k generalizing s with
  | zero => exact write_nil.symm
  | succ k ih => rw [putHex, ih, emit_eq, write_append, List.singleton_append, hexBytes]

/-- The last `i` digits the loop of `case 'd'` computes. -/
def digitBytes : ℕ → ℤ → List Byte
  | 0, _ => []
  | i + 1, num => digitBytes i (num.tdiv 10) ++ [decDigit num]

theorem length_digitBytes (i : ℕ) (num : ℤ) : (digitBytes i num).length = i := by
  induction i generalizing num with
  | zero => rfl
  | succ i ih => rw [digitBytes, List.length_append, ih, List.length_singleton]

theorem putDigits_eq (i : ℕ) (num : ℤ) :
    putDigits n i num s = { s with out := s.out.map (blit n s.pos (digitBytes i num)) } := by
  induction i generalizing num s with
  | zero =>
    rw [putDigits, digitBytes, show blit n s.pos [] = id from funext fun _ => blit_nil,
      Option.map_id, id]
  | succ i ih =>
    have h : (s.put n (s.pos + i) (decDigit num)).out.map
      (blit n s.pos (digitBytes i (num.tdiv 10))) =
        s.out.map (blit n s.pos (digitBytes (i + 1) num)) := by
      rw [put, Option.map_map]
      refine congrArg (Option.map · s.out) (funext fun buf => ?_)
      have hlast : blit n s.pos (digitBytes i (num.tdiv 10))
          (if s.pos + (digitBytes i (num.tdiv 10)).length < n then
            Function.update buf (s.pos + (digitBytes i (num.tdiv 10)).length) (decDigit num)
          else buf) = blit n s.pos (digitBytes (i + 1) num) buf := blit_last (decDigit num)
      rw [length_digitBytes] at hlast
      exact hlast
    rw [putDigits, ih]
    exact congrArg (fun o => ({ s with out := o } : Printer)) h

/-- The characters of `case 'd'`. -/
def decBytes (num : ℤ) : List Byte :=
  if num < 0 then ch '-' :: digitBytes (countDigits 20 (negLong num)) (negLong num)
  else digitBytes (countDigits 20 num) num

theorem putDigits_write (i : ℕ) (num : ℤ) :
    { putDigits n i num s with pos := (putDigits n i num s).pos + i } =
      s.write n (digitBytes i num) := by
  rw [putDigits_eq, write, length_digitBytes]

theorem caseD_eq : caseD n args s =
    (s.next.write n (decBytes (s.vaArgNum args).toInt)).done := by
  rw [caseD, decBytes]
  split_ifs with h
  · simp only [putDigits_write]
    rw [emit_eq, write_append, List.singleton_append]
  · simp only [putDigits_write]

theorem caseX_eq : caseX n args s = (s.next.write n (hexBytes (s.vaArgNum args)
    (2 * (if s.longarg then 8 else 4) - 1 + 1))).done := by
  rw [caseX, putHex_eq]

theorem caseS_eq : caseS n args s =
    (s.next.write n (args.str (args.word s.vl))).done := by
  rw [caseS, putStr_eq]

/-- The argument counts only where it is stored. -/
theorem caseC_eq : caseC n args s = (s.write n [(args.word s.vl).setWidth 8]).done.move
    (s.vl + if s.out.isSome ∧ s.pos < n then 1 else 0) := by
  rw [caseC]
  split_ifs with h
  · rw [← emit_eq]
    rfl
  · have hw : s.out.map (blit n s.pos [(args.word s.vl).setWidth 8]) = s.out := by
      cases ho : s.out with
      | none => rfl
      | some buf =>
        have hpos : ¬ s.pos < n := fun hp => h ⟨by rw [ho]; rfl, hp⟩
        rw [Option.map_some, blit_singleton, if_neg hpos]
    rw [done, done, write, hw]
    rfl

end Printer

/-! ## Pieces -/

open Printer

/-- The bytes of a conversion of the word `w`. -/
def Conv.bytes (args : Args) (w : Word) : Conv → List Byte
  | .d => decBytes ((w.setWidth 32).signExtend 64 : Word).toInt
  | .ld => decBytes w.toInt
  | .x => hexBytes ((w.setWidth 32).signExtend 64) 8
  | .lx => hexBytes w 16
  | .p => ch '0' :: ch 'x' :: hexBytes w 16
  | .s => args.str w
  | .c => [w.setWidth 8]

/-- The bytes of a piece, with the cursor at `vl`. -/
def Piece.bytes (args : Args) (vl : ℕ) : Piece → List Byte
  | .lit b _ => [b]
  | .conv k => k.bytes args (args.word vl)

/-- How many arguments a piece takes: a character only if it is stored. -/
def Piece.takes (stored : Prop) [Decidable stored] : Piece → ℕ
  | .lit _ _ => 0
  | .conv .c => if stored then 1 else 0
  | .conv _ => 1

/-- **One piece of a format.** -/
theorem run_piece {n : ℕ} {args : Args} {s : Printer} (hf : s.format = false)
    (hl : s.longarg = false) (p : Piece) : p.spell.foldl (Printer.step n args) s =
      (s.write n (p.bytes args s.vl)).move (s.vl + p.takes (s.out.isSome ∧ s.pos < n)) := by
  obtain ⟨format, longarg, pos, out, vl⟩ := s
  obtain rfl : format = false := hf
  obtain rfl : longarg = false := hl
  cases p with
  | lit b h =>
    rw [Piece.spell, List.foldl_cons, List.foldl_nil, Printer.step, if_neg Bool.false_ne_true,
      if_neg h.2, emit_eq]
    rfl
  | conv k =>
    rw [Piece.spell, List.foldl_cons]
    have h₁ : Printer.step n args ⟨false, false, pos, out, vl⟩ (ch '%') =
      ⟨true, false, pos, out, vl⟩ := rfl
    rw [h₁]
    cases k with
    | d =>
      have h₂ : [ch 'd'].foldl (Printer.step n args) ⟨true, false, pos, out, vl⟩ =
        caseD n args ⟨true, false, pos, out, vl⟩ := rfl
      exact h₂.trans caseD_eq
    | ld =>
      have h₂ : [ch 'l', ch 'd'].foldl (Printer.step n args) ⟨true, false, pos, out, vl⟩ =
        caseD n args ⟨true, true, pos, out, vl⟩ := rfl
      exact h₂.trans caseD_eq
    | x =>
      have h₂ : [ch 'x'].foldl (Printer.step n args) ⟨true, false, pos, out, vl⟩ =
        caseX n args ⟨true, false, pos, out, vl⟩ := rfl
      exact h₂.trans caseX_eq
    | lx =>
      have h₂ : [ch 'l', ch 'x'].foldl (Printer.step n args) ⟨true, false, pos, out, vl⟩ =
        caseX n args ⟨true, true, pos, out, vl⟩ := rfl
      exact h₂.trans caseX_eq
    | p =>
      have h₂ : [ch 'p'].foldl (Printer.step n args) ⟨true, false, pos, out, vl⟩ =
        caseX n args (((⟨true, true, pos, out, vl⟩ : Printer).emit n (ch '0')).emit n (ch 'x')) :=
        rfl
      rw [emit_eq, emit_eq, write_append] at h₂
      refine h₂.trans (caseX_eq.trans ?_)
      change (((⟨true, true, pos, out, vl + 1⟩ : Printer).write n ([ch '0'] ++ [ch 'x'])).write n
        (hexBytes (args.word vl) 16)).done = _
      rw [write_append]
      rfl
    | s =>
      have h₂ : [ch 's'].foldl (Printer.step n args) ⟨true, false, pos, out, vl⟩ =
        caseS n args ⟨true, false, pos, out, vl⟩ := rfl
      exact h₂.trans caseS_eq
    | c =>
      have h₂ : [ch 'c'].foldl (Printer.step n args) ⟨true, false, pos, out, vl⟩ =
        caseC n args ⟨true, false, pos, out, vl⟩ := rfl
      exact h₂.trans caseC_eq

/-! ## Formats -/

/-- The bytes of a format and the cursor behind it, from `pos` and `vl` on. A character at `q` is
stored when `stored q`. -/
def rendering (args : Args) (stored : ℕ → Prop) [DecidablePred stored] :
    List Piece → ℕ → ℕ → List Byte × ℕ
  | [], _, vl => ([], vl)
  | p :: ps, pos, vl =>
    let rest :=
      rendering args stored ps (pos + (p.bytes args vl).length) (vl + p.takes (stored pos))
    (p.bytes args vl ++ rest.1, rest.2)

/-- The bytes of a format when every character is stored. -/
def emitted (args : Args) : List Piece → ℕ → List Byte
  | [], _ => []
  | p :: ps, vl => p.bytes args vl ++ emitted args ps (vl + p.takes True)

/-- A piece that is a character. -/
def Piece.isChar : Piece → Bool
  | .conv .c => true
  | _ => false

section Formats

variable {n : ℕ} {args : Args} {fmt : List Piece}

/-- **A format, piece by piece.** -/
theorem run_spell {b : Bool} {s : Printer} (hf : s.format = false) (hl : s.longarg = false)
    (hb : s.out.isSome = b) : (spell fmt).foldl (Printer.step n args) s =
      (s.write n (rendering args (fun q => b ∧ q < n) fmt s.pos s.vl).1).move
        (rendering args (fun q => b ∧ q < n) fmt s.pos s.vl).2 := by
  induction fmt generalizing s with
  | nil =>
    rw [spell, List.flatMap_nil, List.foldl_nil, rendering, write_nil]
    rfl
  | cons p ps ih =>
    have hspell : spell (p :: ps) = p.spell ++ spell ps := List.flatMap_cons
    rw [hspell, List.foldl_append, run_piece hf hl]
    subst hb
    rw [ih (s := (s.write n (p.bytes args s.vl)).move _) hf hl Option.isSome_map, rendering,
      ← write_append]
    rfl

/-- **What `_vsnprintf` leaves.** -/
theorem vsnprintf_eq (out : Option (ℕ → Byte)) {b : Bool} (hb : out.isSome = b) :
    vsnprintf out n (spell fmt) args =
      (((⟨false, false, 0, out, 0⟩ : Printer).write n
        (rendering args (fun q => b ∧ q < n) fmt 0 0).1).move
          (rendering args (fun q => b ∧ q < n) fmt 0 0).2).finish n := by
  rw [vsnprintf, run_spell rfl rfl hb]

theorem Piece.takes_of_not_isChar {p : Piece} (hp : p.isChar = false) (stored : Prop)
    [Decidable stored] : p.takes stored = p.takes True := by
  cases p with
  | lit b h => rfl
  | conv k =>
    cases k with
    | c => cases hp
    | d | ld | x | lx | p | s => rfl

theorem Piece.eq_char {p : Piece} (hp : p.isChar = true) : p = .conv .c := by
  cases p with
  | lit b h => cases hp
  | conv k =>
    cases k with
    | c => rfl
    | d | ld | x | lx | p | s => cases hp

variable {stored : ℕ → Prop} [DecidablePred stored] {pos vl : ℕ}

/-- Without characters it does not matter what is stored. -/
theorem rendering_of_no_char (stored' : ℕ → Prop) [DecidablePred stored']
    (h : ∀ p ∈ fmt, p.isChar = false) :
    rendering args stored fmt pos vl = rendering args stored' fmt pos vl := by
  induction fmt generalizing pos vl with
  | nil => rfl
  | cons p ps ih =>
    have hp := h p List.mem_cons_self
    rw [rendering, rendering, Piece.takes_of_not_isChar hp (stored pos),
      Piece.takes_of_not_isChar hp (stored' pos), ih fun q hq => h q (List.mem_cons_of_mem p hq)]

theorem rendering_congr (stored' : ℕ → Prop) [DecidablePred stored']
    (h : ∀ q, stored q ↔ stored' q) :
    rendering args stored fmt pos vl = rendering args stored' fmt pos vl := by
  induction fmt generalizing pos vl with
  | nil => rfl
  | cons p ps ih =>
    have ht : p.takes (stored pos) = p.takes (stored' pos) := by
      cases hp : p.isChar with
      | false =>
        rw [Piece.takes_of_not_isChar hp (stored pos), Piece.takes_of_not_isChar hp (stored' pos)]
      | true =>
        obtain rfl := Piece.eq_char hp
        exact if_congr (h pos) rfl rfl
    rw [rendering, rendering, ht, ih]

theorem rendering_true : (rendering args (fun _ => True) fmt pos vl).1 = emitted args fmt vl := by
  induction fmt generalizing pos vl with
  | nil => rfl
  | cons p ps ih => rw [rendering, emitted, ih]

/-- If everything fits, every character is stored. -/
theorem rendering_of_fits (h : ∀ q, q < pos + (emitted args fmt vl).length → stored q) :
    rendering args stored fmt pos vl = rendering args (fun _ => True) fmt pos vl := by
  induction fmt generalizing pos vl with
  | nil => rfl
  | cons p ps ih =>
    rw [emitted, List.length_append] at h
    have ht : p.takes (stored pos) = p.takes True := by
      cases hp : p.isChar with
      | false => exact Piece.takes_of_not_isChar hp _
      | true =>
        obtain rfl := Piece.eq_char hp
        have hlen : (Piece.bytes args vl (.conv .c)).length = 1 := rfl
        exact if_pos (h pos (by omega))
    rw [rendering, rendering, ht, ih fun q hq => h q (by omega)]

/-! ## The cursor -/

/-- The cursor keeps its lead on one that passes over the characters. -/
theorem rendering_cursor_le {d pos' vl' : ℕ} (hv : vl' + d ≤ vl) :
    (rendering args (fun _ => False) fmt pos' vl').2 + d ≤
    (rendering args stored fmt pos vl).2 := by
  induction fmt generalizing pos vl pos' vl' with
  | nil => exact hv
  | cons p ps ih =>
    have ht : p.takes False ≤ p.takes (stored pos) := by
      cases hp : p.isChar with
      | false =>
        rw [Piece.takes_of_not_isChar hp False, Piece.takes_of_not_isChar hp (stored pos)]
      | true =>
        obtain rfl := Piece.eq_char hp
        exact Nat.zero_le _
    rw [rendering, rendering]
    exact ih (by omega)

/-- A stored character puts it ahead. -/
theorem rendering_cursor_lt (hc : ∃ p ∈ fmt, p.isChar = true)
    (h : ∀ q, q < pos + (rendering args (fun _ => False) fmt pos vl).1.length → stored q) :
    (rendering args (fun _ => False) fmt pos vl).2 < (rendering args stored fmt pos vl).2 := by
  induction fmt generalizing pos vl with
  | nil =>
    obtain ⟨p, hp, -⟩ := hc
    cases hp
  | cons p ps ih =>
    rw [rendering, List.length_append] at h
    rw [rendering, rendering]
    cases hp : p.isChar with
    | false =>
      have hc' : ∃ q ∈ ps, q.isChar = true := by
        obtain ⟨q, hq, hqc⟩ := hc
        obtain rfl | hq := List.mem_cons.mp hq
        · cases hp.symm.trans hqc
        · exact ⟨q, hq, hqc⟩
      rw [Piece.takes_of_not_isChar hp False] at h ⊢
      rw [Piece.takes_of_not_isChar hp (stored pos)]
      refine ih hc' fun q hq => h q ?_
      rwa [← add_assoc]
    | true =>
      obtain rfl := Piece.eq_char hp
      have hlen : (Piece.bytes args vl (.conv .c)).length = 1 := rfl
      have ht : Piece.takes (stored pos) (.conv .c) = 1 := if_pos (h pos (by omega))
      have hle : (rendering args (fun _ => False) ps (pos + 1) vl).2 + 1 ≤
          (rendering args stored ps (pos + 1) (vl + 1)).2 := rendering_cursor_le le_rfl
      rw [ht]
      exact hle

end Formats

end RiscvOs
