import Mathlib.Algebra.Ring.Nat
import Mathlib.Data.List.Basic
import Mathlib.Tactic.SplitIfs

/-!
# A data section of an assembler

Labels, words, strings, alignment and included files of one section, assembled in two passes: the
first gives every label its address, the second emits the bytes.

* `Directive`, `Directive.next`, `counter`, `locate`, `assemble`.
* `Placed`: bytes in memory, and `placed_append`.
* **`placed_emitAll_append`**, **`placed_emitAll_getElem`**: what memory holds at a directive's
  address.
-/

set_option autoImplicit false

namespace Assembler

variable {ι : Type}

/-- A directive of the section, with labels from `ι`. -/
inductive Directive (ι : Type) where
  | label (l : ι)
  | quad (v : ℕ)
  | quadOf (l : ι)
  | string (text : List (BitVec 8))
  | align (k : ℕ)
  | incbin (path : List (BitVec 8))
  deriving DecidableEq

/-- The next multiple of `2 ^ k`. -/
def alignUp (k pos : ℕ) : ℕ := (pos + 2 ^ k - 1) / 2 ^ k * 2 ^ k

theorem le_alignUp (k pos : ℕ) : pos ≤ alignUp k pos := by
  have hpos : 0 < 2 ^ k := Nat.two_pow_pos k
  have hlt := Nat.lt_div_mul_add (a := pos + 2 ^ k - 1) hpos
  rw [alignUp]
  omega

section Passes

variable (files : List (BitVec 8) → List (BitVec 8))

/-- The location counter after a directive. -/
def Directive.next (pos : ℕ) : Directive ι → ℕ
  | .label _ => pos
  | .quad _ => pos + 8
  | .quadOf _ => pos + 8
  | .string text => pos + (text.length + 1)
  | .align k => alignUp k pos
  | .incbin path => pos + (files path).length

/-- The location counter after a list of directives. -/
def counter (ds : List (Directive ι)) (pos : ℕ) : ℕ := ds.foldl (Directive.next files) pos

/-- The first pass: the address of a label. -/
def locate [DecidableEq ι] (l : ι) : List (Directive ι) → ℕ → Option ℕ
  | [], _ => none
  | d :: ds, pos => if d = .label l then some pos else locate l ds (d.next files pos)

/-- The bytes of a word. -/
def le64 (v : ℕ) : List (BitVec 8) := (List.range 8).map fun i => BitVec.ofNat 8 (v / 256 ^ i)

/-- The bytes of a directive. -/
def emit (sym : ι → Option ℕ) (pos : ℕ) : Directive ι → List (BitVec 8)
  | .label _ => []
  | .quad v => le64 v
  | .quadOf l => le64 ((sym l).getD 0)
  | .string text => text ++ [0]
  | .align k => List.replicate (alignUp k pos - pos) 0
  | .incbin path => files path

/-- The second pass. -/
def emitAll (sym : ι → Option ℕ) : List (Directive ι) → ℕ → List (BitVec 8)
  | [], _ => []
  | d :: ds, pos => emit files sym pos d ++ emitAll sym ds (d.next files pos)

/-- The section at `base`. -/
def assemble [DecidableEq ι] (ds : List (Directive ι)) (base : ℕ) : List (BitVec 8) :=
  emitAll files (fun l => locate files l ds base) ds base

/-- The address of the `i`-th directive. -/
def address (ds : List (Directive ι)) (pos i : ℕ) : ℕ := counter files (ds.take i) pos

end Passes

section Lemmas

variable {files : List (BitVec 8) → List (BitVec 8)}

theorem length_emit (sym : ι → Option ℕ) (pos : ℕ) (d : Directive ι) :
    pos + (emit files sym pos d).length = d.next files pos := by
  cases d with
  | align k =>
    have := le_alignUp k pos
    simp only [emit, List.length_replicate, Directive.next]
    omega
  | string text => simp [emit, Directive.next]
  | label | quad | quadOf | incbin => simp [emit, Directive.next, le64]

theorem counter_append (ds ds' : List (Directive ι)) (pos : ℕ) :
    counter files (ds ++ ds') pos = counter files ds' (counter files ds pos) :=
  List.foldl_append

theorem locate_append [DecidableEq ι] (l : ι) (ds ds' : List (Directive ι)) (pos : ℕ) :
    locate files l (ds ++ ds') pos =
      (locate files l ds pos).or (locate files l ds' (counter files ds pos)) := by
  induction ds generalizing pos with
  | nil => rfl
  | cons d ds ih =>
    rw [List.cons_append, locate, locate, ih]
    split_ifs
    · rfl
    · rfl

theorem locate_eq_none [DecidableEq ι] {l : ι} {ds : List (Directive ι)} (h : .label l ∉ ds)
    (pos : ℕ) : locate files l ds pos = none := by
  induction ds generalizing pos with
  | nil => rfl
  | cons d ds ih =>
    have hd : d ≠ .label l := fun hd => h (hd ▸ List.mem_cons_self)
    rw [locate, if_neg hd, ih fun hds => h (List.mem_cons_of_mem d hds)]

theorem emitAll_append (sym : ι → Option ℕ) (ds ds' : List (Directive ι)) (pos : ℕ) :
    emitAll files sym (ds ++ ds') pos =
      emitAll files sym ds pos ++ emitAll files sym ds' (counter files ds pos) := by
  induction ds generalizing pos with
  | nil => rfl
  | cons d ds ih =>
    rw [List.cons_append, emitAll, emitAll, ih, List.append_assoc]
    rfl

theorem length_emitAll (sym : ι → Option ℕ) (ds : List (Directive ι)) (pos : ℕ) :
    pos + (emitAll files sym ds pos).length = counter files ds pos := by
  induction ds generalizing pos with
  | nil => rfl
  | cons d ds ih =>
    rw [emitAll, List.length_append, ← Nat.add_assoc, length_emit, ih]
    rfl

theorem le_counter (ds : List (Directive ι)) (pos : ℕ) : pos ≤ counter files ds pos := by
  rw [← length_emitAll (fun _ => none) ds pos]
  exact Nat.le_add_right _ _

theorem address_succ {ds : List (Directive ι)} {i : ℕ} (h : i < ds.length) (pos : ℕ) :
    address files ds pos (i + 1) = ds[i].next files (address files ds pos i) := by
  rw [address, List.take_succ_eq_append_getElem h, counter_append]
  rfl

theorem address_length (ds : List (Directive ι)) (pos : ℕ) :
    address files ds pos ds.length = counter files ds pos := by
  rw [address, List.take_length]

theorem address_le_counter (ds : List (Directive ι)) (pos i : ℕ) :
    address files ds pos i ≤ counter files ds pos := by
  conv_rhs => rw [← List.take_append_drop i ds]
  rw [counter_append]
  exact le_counter _ _

/-- Directives of one size. -/
theorem address_const {ds : List (Directive ι)} {w : ℕ}
    (h : ∀ d ∈ ds, ∀ pos, d.next files pos = pos + w) (pos : ℕ) {i : ℕ} (hi : i ≤ ds.length) :
    address files ds pos i = pos + w * i := by
  induction i with
  | zero => rfl
  | succ i ih =>
    rw [address_succ hi, h _ (List.getElem_mem hi), ih (Nat.le_of_succ_le hi), Nat.mul_succ,
      Nat.add_assoc]

end Lemmas

/-! ## Memory -/

/-- Memory holds the bytes from `pos` on. -/
def Placed (mem : ℕ → BitVec 8) (pos : ℕ) (bytes : List (BitVec 8)) : Prop :=
  ∀ i (h : i < bytes.length), mem (pos + i) = bytes[i]

section Memory

variable {files : List (BitVec 8) → List (BitVec 8)} {mem : ℕ → BitVec 8} {sym : ι → Option ℕ}

theorem placed_append {pos : ℕ} {bytes bytes' : List (BitVec 8)} :
    Placed mem pos (bytes ++ bytes') ↔
      Placed mem pos bytes ∧ Placed mem (pos + bytes.length) bytes' := by
  constructor
  · intro h
    constructor
    · intro i hi
      rw [h i (by rw [List.length_append]; omega), List.getElem_append_left hi]
    · intro i hi
      have hat := h (bytes.length + i) (by rw [List.length_append]; omega)
      rw [Nat.add_assoc, hat, List.getElem_append_right (Nat.le_add_right _ _)]
      simp only [Nat.add_sub_cancel_left]
  · rintro ⟨hl, hr⟩ i hi
    rw [List.length_append] at hi
    by_cases hlt : i < bytes.length
    · rw [hl i hlt, List.getElem_append_left hlt]
    · have hat := hr (i - bytes.length) (by omega)
      rw [show pos + bytes.length + (i - bytes.length) = pos + i by omega] at hat
      rw [hat, List.getElem_append_right (by omega)]

/-- **What memory holds at the second part of a list.** -/
theorem placed_emitAll_append {ds ds' : List (Directive ι)} {pos : ℕ} :
    Placed mem pos (emitAll files sym (ds ++ ds') pos) ↔
      Placed mem pos (emitAll files sym ds pos) ∧
        Placed mem (counter files ds pos) (emitAll files sym ds' (counter files ds pos)) := by
  rw [emitAll_append, placed_append, length_emitAll]

/-- **What memory holds at a directive's address.** -/
theorem placed_emitAll_getElem {ds : List (Directive ι)} {pos i : ℕ} (hi : i < ds.length)
    (h : Placed mem pos (emitAll files sym ds pos)) :
    Placed mem (address files ds pos i) (emit files sym (address files ds pos i) ds[i]) := by
  rw [← List.take_append_drop i ds, List.drop_eq_getElem_cons hi] at h
  exact (placed_append.mp (placed_emitAll_append.mp h).2).1

end Memory

/-! ## Words -/

/-- The word at `pos`. -/
def readQuad (mem : ℕ → BitVec 8) (pos : ℕ) : ℕ :=
  ((List.range 8).map fun i => (mem (pos + i)).toNat * 256 ^ i).sum

theorem sum_digits (v n : ℕ) :
    ((List.range n).map fun i => v / 256 ^ i % 256 * 256 ^ i).sum = v % 256 ^ n := by
  induction n with
  | zero => exact (Nat.mod_one v).symm
  | succ n ih =>
    rw [List.range_succ, List.map_append, List.sum_append, ih, Nat.mod_pow_succ]
    simp [Nat.mul_comm]

theorem readQuad_of_placed {mem : ℕ → BitVec 8} {pos v : ℕ} (h : Placed mem pos (le64 v))
    (hv : v < 2 ^ 64) : readQuad mem pos = v := by
  have hbyte : ∀ i < 8, (mem (pos + i)).toNat = v / 256 ^ i % 256 := by
    intro i hi
    rw [h i (by simpa [le64] using hi)]
    simp [le64]
  have hsum : readQuad mem pos = ((List.range 8).map fun i => v / 256 ^ i % 256 * 256 ^ i).sum :=
    congrArg List.sum (List.map_congr_left fun i hi => by rw [hbyte i (List.mem_range.mp hi)])
  rw [hsum, sum_digits]
  exact Nat.mod_eq_of_lt hv

end Assembler
