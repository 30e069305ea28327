import RiscvOs.Hw.Machine

/-!
# What the trampoline does

`TrapMapped text ram satp cx`: under `satp`, the supervisor fetches the trampoline's code and reads
and writes the frame `cx` at `TRAPFRAME`, whatever `cx` holds.

* **`alltraps_eq`**: `__alltraps` writes the user's registers into `cx` and goes where its kernel
  words say.
* **`restore_eq`**: `__restore` loads them all back.
-/

set_option autoImplicit false

namespace RiscvOs

open PageTableEntry

/-! ## Registers -/

namespace Cpu

variable (c : Cpu) {r s : Fin 32} (w : Word)

theorem reg_of_ne (h : r ≠ 0) : c.reg r = c.x r := if_neg h

theorem setReg_self (h : r ≠ 0) : (c.setReg r w).reg r = w := by
  rw [setReg, if_neg h, reg_of_ne _ h]
  exact Function.update_self _ _ _

theorem setReg_of_ne (h : s ≠ r) : (c.setReg r w).reg s = c.reg s := by
  rw [setReg]
  split_ifs with hr
  · rfl
  · rw [reg, reg]
    split_ifs with hs
    · rfl
    · exact Function.update_of_ne h _ _

@[simp] theorem setReg_pc (r : Fin 32) : (c.setReg r w).pc = c.pc := by
  rw [setReg]; split_ifs <;> rfl

@[simp] theorem setReg_sstatus (r : Fin 32) : (c.setReg r w).sstatus = c.sstatus := by
  rw [setReg]; split_ifs <;> rfl

@[simp] theorem setReg_sepc (r : Fin 32) : (c.setReg r w).sepc = c.sepc := by
  rw [setReg]; split_ifs <;> rfl

@[simp] theorem setReg_scause (r : Fin 32) : (c.setReg r w).scause = c.scause := by
  rw [setReg]; split_ifs <;> rfl

@[simp] theorem setReg_sscratch (r : Fin 32) : (c.setReg r w).sscratch = c.sscratch := by
  rw [setReg]; split_ifs <;> rfl

@[simp] theorem setReg_satp (r : Fin 32) : (c.setReg r w).satp = c.satp := by
  rw [setReg]; split_ifs <;> rfl

@[simp] theorem setReg_stvec (r : Fin 32) : (c.setReg r w).stvec = c.stvec := by
  rw [setReg]; split_ifs <;> rfl

@[simp] theorem setCsr_reg (k : Csr) : (c.setCsr k w).reg r = c.reg r := by
  cases k <;> rfl

end Cpu

theorem cxReg_injective : Function.Injective cxReg := fun r s h =>
  Fin.ext (congrArg Fin.val h : (cxReg r).val = (cxReg s).val)

theorem cxReg_ne_kernelSp (r : Fin 32) : cxReg r ≠ cxKernelSp := by
  revert r
  decide

/-! ## The trap context under the hardware -/

/-- The trampoline runs, and finds the trap context in the frame `cx`. -/
structure TrapMapped (text : Text) (ram : ℕ → Fin 512 → Word) (satp : Word) (cx : ℕ) : Prop where
  fetch : ∀ c, fetches text (Function.update ram cx c) satp = true
  access : ∀ c off, off < 4096 → ∃ pte,
    translate (Function.update ram cx c) satp (BitVec.ofNat 64 trapframeVa + BitVec.ofNat 64 off) =
      some (cx, pte) ∧ has pte pteR = true ∧ has pte pteW = true ∧ has pte pteU = false

theorem wordIndex_trapframe {off : ℕ} (h : off < 4096) :
    wordIndex ((BitVec.ofNat 64 trapframeVa + BitVec.ofNat 64 off).toNat % pageSize) =
      Fin.ofNat 512 (off / 8) := by
  have hv : trapframeVa = 2 ^ 64 - 8192 := by decide
  have hs : (BitVec.ofNat 64 trapframeVa + BitVec.ofNat 64 off).toNat % 4096 = off := by
    rw [BitVec.toNat_add, BitVec.toNat_ofNat, BitVec.toNat_ofNat, hv]
    omega
  rw [wordIndex, pageSize_eq, hs]

section Exec

variable {text : Text} {m : Mem} {cx : ℕ} {c : Cpu} {fr : Fin 512 → Word} {off : ℕ}
  {base : Fin 32}

theorem store_storeFrame (m : Mem) (p : ℕ) (a : Fin 512 → Word) (i : Fin 512) (w : Word) :
    (m.storeFrame p a).store p i w = m.storeFrame p (Function.update a i w) := by
  simp only [Mem.storeFrame, Mem.store, Function.update_self, Function.update_idem]

theorem storeFrame_eq_self (m : Mem) (p : ℕ) : m.storeFrame p (m.ram p) = m := by
  rw [Mem.storeFrame, Function.update_eq_self]

theorem TrapMapped.fetch_frame {satp : Word} (h : TrapMapped text m.ram satp cx)
    (fr : Fin 512 → Word) : fetches text (m.storeFrame cx fr).ram satp = true := h.fetch fr

theorem exec_sd (h : TrapMapped text m.ram c.satp cx)
    (hb : c.reg base = BitVec.ofNat 64 trapframeVa)
    (hoff : off < 4096) (fr : Fin 512 → Word) (rs : Fin 32) :
    execInstr (.sd rs off base) c (m.storeFrame cx fr) =
      .ok (c, m.storeFrame cx (Function.update fr (Fin.ofNat 512 (off / 8)) (c.reg rs))) := by
  obtain ⟨pte, ht, -, hw, hu⟩ := h.access fr off hoff
  rw [execInstr]
  simp only [hb]
  rw [show (m.storeFrame cx fr).ram = Function.update m.ram cx fr from rfl, ht]
  simp only [hw, hu, Bool.not_false, Bool.and_self, if_true, wordIndex_trapframe hoff,
    store_storeFrame]

theorem exec_ld (h : TrapMapped text m.ram c.satp cx)
    (hb : c.reg base = BitVec.ofNat 64 trapframeVa)
    (hoff : off < 4096) (fr : Fin 512 → Word) (rd : Fin 32) :
    execInstr (.ld rd off base) c (m.storeFrame cx fr) =
      .ok (c.setReg rd (fr (Fin.ofNat 512 (off / 8))), m.storeFrame cx fr) := by
  obtain ⟨pte, ht, hr, -, hu⟩ := h.access fr off hoff
  rw [execInstr]
  simp only [hb]
  rw [show (m.storeFrame cx fr).ram = Function.update m.ram cx fr from rfl, ht]
  simp only [hr, hu, Bool.not_false, Bool.and_self, if_true, wordIndex_trapframe hoff,
    Function.update_self]

theorem execInstrs_cons {ins : Instr} {rest : List Instr} {c' : Cpu} {m' : Mem}
    (hf : fetches text m.ram c.satp = true) (he : execInstr ins c m = .ok (c', m')) :
    execInstrs text (ins :: rest) c m = execInstrs text rest c' m' := by
  rw [execInstrs, if_pos hf, he]
  rfl

/-! ## Saving -/

/-- A trap context with the registers `l` saved. -/
def saveFrame (c : Cpu) (l : List (Fin 32)) (fr : Fin 512 → Word) : Fin 512 → Word :=
  l.foldl (fun fr r => Function.update fr (cxReg r) (c.reg r)) fr

theorem saveFrame_of_not_mem {l : List (Fin 32)} {i : Fin 512} (h : ∀ r ∈ l, cxReg r ≠ i) :
    saveFrame c l fr i = fr i := by
  induction l generalizing fr with
  | nil => rfl
  | cons r l ih =>
    rw [saveFrame, List.foldl_cons]
    refine (ih fun s hs => h s (List.mem_cons_of_mem r hs)).trans ?_
    exact Function.update_of_ne (h r List.mem_cons_self).symm _ _

theorem saveFrame_of_mem {l : List (Fin 32)} {r : Fin 32} (h : r ∈ l) :
    saveFrame c l fr (cxReg r) = c.reg r := by
  induction l generalizing fr with
  | nil => cases h
  | cons s l ih =>
    rw [saveFrame, List.foldl_cons]
    by_cases hr : r ∈ l
    · exact ih hr
    · obtain rfl : r = s := (List.mem_cons.mp h).resolve_right hr
      have hne : ∀ t ∈ l, cxReg t ≠ cxReg r := fun t ht he => by
        rw [cxReg_injective he] at ht
        exact hr ht
      refine (saveFrame_of_not_mem hne).trans ?_
      exact Function.update_self _ _ _

theorem exec_saves (h : TrapMapped text m.ram c.satp cx)
    (hb : c.reg 2 = BitVec.ofNat 64 trapframeVa) (fr : Fin 512 → Word) (l : List (Fin 32))
    (rest : List Instr) :
    execInstrs text ((l.map fun r => Instr.sd r (r.val * 8) 2) ++ rest) c (m.storeFrame cx fr) =
      execInstrs text rest c (m.storeFrame cx (saveFrame c l fr)) := by
  induction l generalizing fr with
  | nil => rfl
  | cons r l ih =>
    have hlt := r.isLt
    rw [List.map_cons, List.cons_append,
      execInstrs_cons (h.fetch_frame fr) (exec_sd h hb (by omega : r.val * 8 < 4096) fr r), ih]
    have hidx : (Fin.ofNat 512 (r.val * 8 / 8)) = cxReg r := by
      apply Fin.ext
      rw [Fin.val_ofNat, Nat.mul_div_cancel _ (by decide), Nat.mod_eq_of_lt (by omega)]
      rfl
    rw [hidx]
    rfl

theorem mem_savedRegs (r : Fin 32) : r ∈ savedRegs ↔ r ≠ 0 ∧ r ≠ 2 := by
  revert r
  decide

/-- The trap context `__alltraps` leaves: the registers, `sstatus` and `sepc`. -/
def trapFrame (c : Cpu) (old : Fin 512 → Word) : Fin 512 → Word := fun i =>
  if h : i.val < 32 then if i.val = 0 then old i else c.reg ⟨i.val, h⟩
  else if i = cxSstatus then c.sstatus
  else if i = cxSepc then c.sepc
  else old i

theorem trapFrame_reg (c : Cpu) (old : Fin 512 → Word) {r : Fin 32} (h : r ≠ 0) :
    trapFrame c old (cxReg r) = c.reg r := by
  have hv : (cxReg r).val = r.val := rfl
  have h₀ : r.val ≠ 0 := fun he => h (Fin.ext he)
  rw [trapFrame, dif_pos (by rw [hv]; exact r.isLt), if_neg (by rw [hv]; exact h₀)]
  rfl

theorem trapFrame_sstatus (c : Cpu) (old : Fin 512 → Word) :
    trapFrame c old cxSstatus = c.sstatus := rfl

theorem trapFrame_sepc (c : Cpu) (old : Fin 512 → Word) : trapFrame c old cxSepc = c.sepc := rfl

/-- The kernel words, and what the page holds beyond the trap context, are kept. -/
theorem trapFrame_rest (c : Cpu) (old : Fin 512 → Word) {i : Fin 512} (h : i.val = 0 ∨ 33 < i.val) :
    trapFrame c old i = old i := by
  obtain h | h := h
  · rw [trapFrame, dif_pos (by omega), if_pos h]
  · have h₁ : i ≠ cxSstatus := fun he => by rw [he] at h; exact absurd h (by decide)
    have h₂ : i ≠ cxSepc := fun he => by rw [he] at h; exact absurd h (by decide)
    rw [trapFrame, dif_neg (by omega), if_neg h₁, if_neg h₂]

/-- The stores of `__alltraps`, one after the other. -/
theorem trapFrame_eq {c₁ : Cpu} (h : ∀ r, r ≠ 2 → c₁.reg r = c.reg r) :
    Function.update (Function.update (Function.update (saveFrame c₁ savedRegs fr)
      cxSstatus c.sstatus) cxSepc c.sepc) (cxReg 2) (c.reg 2) = trapFrame c fr := by
  have hne : ∀ {i : Fin 512}, (∀ r : Fin 32, r ≠ 0 → cxReg r ≠ i) →
      saveFrame c₁ savedRegs fr i = fr i := fun hi =>
    saveFrame_of_not_mem fun r hr => hi r ((mem_savedRegs r).mp hr).1
  funext i
  by_cases hlt : i.val < 32
  · obtain ⟨r, rfl⟩ : ∃ r, cxReg r = i := ⟨⟨i.val, hlt⟩, Fin.ext rfl⟩
    have h₁ : cxReg r ≠ cxSstatus := fun he => by rw [he] at hlt; exact absurd hlt (by decide)
    have h₂ : cxReg r ≠ cxSepc := fun he => by rw [he] at hlt; exact absurd hlt (by decide)
    by_cases h2 : r = 2
    · subst h2
      rw [Function.update_self, trapFrame_reg _ _ (by decide)]
    · rw [Function.update_of_ne (fun he => h2 (cxReg_injective he)), Function.update_of_ne h₂,
        Function.update_of_ne h₁]
      by_cases h0 : r = 0
      · subst h0
        rw [hne fun r hr he => hr (cxReg_injective he), trapFrame_rest _ _ (.inl rfl)]
      · rw [saveFrame_of_mem ((mem_savedRegs r).mpr ⟨h0, h2⟩), h r h2, trapFrame_reg _ _ h0]
  · have hreg : ∀ r : Fin 32, cxReg r ≠ i := fun r he => by
      rw [← he] at hlt; exact hlt r.isLt
    rw [Function.update_of_ne (hreg 2).symm]
    by_cases h₂ : i = cxSepc
    · subst h₂
      rw [Function.update_self, trapFrame_sepc]
    rw [Function.update_of_ne h₂]
    by_cases h₁ : i = cxSstatus
    · subst h₁
      rw [Function.update_self, trapFrame_sstatus]
    rw [Function.update_of_ne h₁, hne fun r _ => hreg r, trapFrame, dif_neg hlt, if_neg h₁,
      if_neg h₂]

/-- The registers when `trap_handler` starts. -/
structure Entered (c c' : Cpu) (fr : Fin 512 → Word) : Prop where
  satp : c'.satp = fr cxKernelSatp
  pc : c'.pc = fr cxTrapHandler
  sp : c'.reg 2 = fr cxKernelSp
  scause : c'.scause = c.scause

theorem TrapMapped.setReg (h : TrapMapped text m.ram c.satp cx) (r : Fin 32) (w : Word) :
    TrapMapped text m.ram (c.setReg r w).satp cx := by
  rwa [Cpu.setReg_satp]

/-- The end of `__alltraps`, with the registers saved. -/
theorem saveTail_eq (h : TrapMapped text m.ram c.satp cx)
    (hsp : c.reg 2 = BitVec.ofNat 64 trapframeVa) (fr : Fin 512 → Word) :
    ∃ c', let fr' := Function.update (Function.update (Function.update fr cxSstatus c.sstatus)
        cxSepc c.sepc) (cxReg 2) c.sscratch
      Entered c c' fr' ∧ execInstrs text saveTail c (m.storeFrame cx fr) =
        if fetches text (m.storeFrame cx fr').ram (fr' cxKernelSatp) then
          .ok (c', m.storeFrame cx fr')
        else .error .wild := by
  -- `t0`, `t1` take the control registers
  let c₁ := (c.setReg 5 c.sstatus).setReg 6 c.sepc
  have hm₁ : TrapMapped text m.ram c₁.satp cx := (h.setReg 5 c.sstatus).setReg 6 c.sepc
  have hsp₁ : c₁.reg 2 = BitVec.ofNat 64 trapframeVa :=
    (Cpu.setReg_of_ne _ _ (by decide)).trans ((Cpu.setReg_of_ne _ _ (by decide)).trans hsp)
  have ht₀ : c₁.reg 5 = c.sstatus :=
    (Cpu.setReg_of_ne _ _ (by decide)).trans (Cpu.setReg_self _ _ (by decide))
  have ht₁ : c₁.reg 6 = c.sepc := Cpu.setReg_self _ _ (by decide)
  have hs₁ : c₁.sscratch = c.sscratch := by simp only [c₁, Cpu.setReg_sscratch]
  -- `t2` takes the user's `sp`
  let c₂ := c₁.setReg 7 c.sscratch
  have hm₂ : TrapMapped text m.ram c₂.satp cx := hm₁.setReg 7 c.sscratch
  have hsp₂ : c₂.reg 2 = BitVec.ofNat 64 trapframeVa :=
    (Cpu.setReg_of_ne _ _ (by decide)).trans hsp₁
  have ht₂ : c₂.reg 7 = c.sscratch := Cpu.setReg_self _ _ (by decide)
  set fr' := Function.update (Function.update (Function.update fr cxSstatus c.sstatus)
    cxSepc c.sepc) (cxReg 2) c.sscratch with hfr
  -- the kernel words
  let c₃ := (c₂.setReg 5 (fr' cxKernelSatp)).setReg 6 (fr' cxTrapHandler)
  have hm₃ : TrapMapped text m.ram c₃.satp cx := (hm₂.setReg 5 _).setReg 6 _
  have hsp₃ : c₃.reg 2 = BitVec.ofNat 64 trapframeVa :=
    (Cpu.setReg_of_ne _ _ (by decide)).trans ((Cpu.setReg_of_ne _ _ (by decide)).trans hsp₂)
  let c₄ := c₃.setReg 2 (fr' cxKernelSp)
  have hm₄ : TrapMapped text m.ram c₄.satp cx := hm₃.setReg 2 _
  have ht₄ : c₄.reg 5 = fr' cxKernelSatp := (Cpu.setReg_of_ne _ _ (by decide)).trans
    ((Cpu.setReg_of_ne _ _ (by decide)).trans (Cpu.setReg_self _ _ (by decide)))
  have ht₅ : c₄.reg 6 = fr' cxTrapHandler :=
    (Cpu.setReg_of_ne _ _ (by decide)).trans (Cpu.setReg_self _ _ (by decide))
  let c₅ := c₄.setCsr .satp (fr' cxKernelSatp)
  refine ⟨{ c₅ with pc := fr' cxTrapHandler }, ⟨rfl, rfl, ?_, ?_⟩, ?_⟩
  · exact (Cpu.setReg_self c₃ _ (by decide) : c₄.reg 2 = _)
  · simp only [c₅, c₄, c₃, c₂, c₁, Cpu.setCsr, Cpu.setReg_scause]
  have hstart : execInstrs text saveTail c (m.storeFrame cx fr) =
      execInstrs text [.sd 5 (32 * 8) 2, .sd 6 (33 * 8) 2, .csrr 7 .sscratch, .sd 7 (2 * 8) 2,
        .ld 5 (34 * 8) 2, .ld 6 (36 * 8) 2, .ld 2 (35 * 8) 2, .csrw .satp 5, .sfenceVma, .jr 6]
        c₁ (m.storeFrame cx fr) := by
    refine (execInstrs_cons (h.fetch_frame fr) rfl).trans ?_
    refine (execInstrs_cons ((h.setReg 5 c.sstatus).fetch_frame fr) rfl).trans ?_
    simp only [Cpu.csr, Cpu.setReg_sepc, c₁]
  have hsave : execInstrs text [.sd 5 (32 * 8) 2, .sd 6 (33 * 8) 2, .csrr 7 .sscratch,
        .sd 7 (2 * 8) 2, .ld 5 (34 * 8) 2, .ld 6 (36 * 8) 2, .ld 2 (35 * 8) 2, .csrw .satp 5,
        .sfenceVma, .jr 6] c₁ (m.storeFrame cx fr) =
      execInstrs text [.ld 5 (34 * 8) 2, .ld 6 (36 * 8) 2, .ld 2 (35 * 8) 2, .csrw .satp 5,
        .sfenceVma, .jr 6] c₂ (m.storeFrame cx fr') := by
    refine (execInstrs_cons (hm₁.fetch_frame fr) (exec_sd hm₁ hsp₁ (by decide) fr 5)).trans ?_
    refine (execInstrs_cons (hm₁.fetch_frame _) (exec_sd hm₁ hsp₁ (by decide) _ 6)).trans ?_
    refine (execInstrs_cons (hm₁.fetch_frame _) rfl).trans ?_
    rw [Cpu.csr, hs₁, ht₀, ht₁]
    refine (execInstrs_cons (hm₂.fetch_frame _) (exec_sd hm₂ hsp₂ (by decide) _ 7)).trans ?_
    rw [ht₂]
    rfl
  have hload : execInstrs text [.ld 5 (34 * 8) 2, .ld 6 (36 * 8) 2, .ld 2 (35 * 8) 2, .csrw .satp 5,
        .sfenceVma, .jr 6] c₂ (m.storeFrame cx fr') =
      execInstrs text [.sfenceVma, .jr 6] c₅ (m.storeFrame cx fr') := by
    have hsp' : (c₂.setReg 5 (fr' cxKernelSatp)).reg 2 = BitVec.ofNat 64 trapframeVa :=
      (Cpu.setReg_of_ne _ _ (by decide)).trans hsp₂
    refine (execInstrs_cons (hm₂.fetch_frame _) (exec_ld hm₂ hsp₂ (by decide) _ 5)).trans ?_
    refine (execInstrs_cons ((hm₂.setReg 5 _).fetch_frame _)
      (exec_ld (hm₂.setReg 5 _) hsp' (by decide) _ 6)).trans ?_
    refine (execInstrs_cons (hm₃.fetch_frame _) (exec_ld hm₃ hsp₃ (by decide) _ 2)).trans ?_
    refine (execInstrs_cons (hm₄.fetch_frame _) rfl).trans ?_
    rw [ht₄]
  rw [hstart, hsave, hload, execInstrs]
  have hsatp : c₅.satp = fr' cxKernelSatp := rfl
  rw [hsatp]
  by_cases hf : fetches text (m.storeFrame cx fr').ram (fr' cxKernelSatp) = true
  · rw [if_pos hf, if_pos hf]
    change execInstrs text [.jr 6] c₅ (m.storeFrame cx fr') = _
    rw [execInstrs, hsatp, if_pos hf]
    change Except.ok ({ c₅ with pc := c₅.reg 6 }, m.storeFrame cx fr') = _
    rw [show c₅.reg 6 = fr' cxTrapHandler from ht₅]
    rfl
  · rw [if_neg hf, if_neg hf]

/-- **`__alltraps`.** -/
theorem alltraps_eq (h : TrapMapped text m.ram c.satp cx)
    (hs : c.sscratch = BitVec.ofNat 64 trapframeVa) :
    ∃ c', Entered c c' (m.ram cx) ∧ execInstrs text alltraps c m =
      if fetches text (m.storeFrame cx (trapFrame c (m.ram cx))).ram (m.ram cx cxKernelSatp) then
        .ok (c', m.storeFrame cx (trapFrame c (m.ram cx)))
      else .error .wild := by
  set c₁ : Cpu := (c.setCsr .sscratch (c.reg 2)).setReg 2 (c.csr .sscratch) with hc₁
  have hsp : c₁.reg 2 = BitVec.ofNat 64 trapframeVa := (Cpu.setReg_self _ _ (by decide)).trans hs
  have hregs : ∀ r, r ≠ 2 → c₁.reg r = c.reg r := fun r hr => Cpu.setReg_of_ne _ _ hr
  have hsatp : c₁.satp = c.satp := Cpu.setReg_satp _ _ _
  have hss : c₁.sscratch = c.reg 2 := Cpu.setReg_sscratch _ _ _
  have h₁ : TrapMapped text m.ram c₁.satp cx := hsatp.symm ▸ h
  have hst : c₁.sstatus = c.sstatus := Cpu.setReg_sstatus _ _ _
  have hse : c₁.sepc = c.sepc := Cpu.setReg_sepc _ _ _
  have hsc : c₁.scause = c.scause := Cpu.setReg_scause _ _ _
  obtain ⟨c', he, heq⟩ := saveTail_eq h₁ hsp (saveFrame c₁ savedRegs (m.ram cx))
  rw [hst, hse, hss, trapFrame_eq hregs] at he heq
  have hrest : ∀ i : Fin 512, 33 < i.val → trapFrame c (m.ram cx) i = m.ram cx i :=
    fun i hi => trapFrame_rest _ _ (.inr hi)
  rw [hrest cxKernelSatp (by decide)] at heq
  refine ⟨c', ⟨?_, ?_, ?_, ?_⟩, ?_⟩
  · rw [he.satp, hrest _ (by decide)]
  · rw [he.pc, hrest _ (by decide)]
  · rw [he.sp, hrest _ (by decide)]
  · rw [he.scause, hsc]
  · rw [← heq]
    have hm := storeFrame_eq_self m cx
    have hfetch := h.fetch_frame (m.ram cx)
    rw [hm] at hfetch
    refine (execInstrs_cons hfetch rfl).trans ?_
    have := exec_saves h₁ hsp (m.ram cx) savedRegs saveTail
    rwa [hm] at this

/-! ## Restoring -/

/-- The registers `l` loaded from a trap context. -/
def loadFrame (fr : Fin 512 → Word) (l : List (Fin 32)) (c : Cpu) : Cpu :=
  l.foldl (fun c r => c.setReg r (fr (cxReg r))) c

theorem loadFrame_of_not_mem {l : List (Fin 32)} {r : Fin 32} (h : r ∉ l) :
    (loadFrame fr l c).reg r = c.reg r := by
  induction l generalizing c with
  | nil => rfl
  | cons s l ih =>
    rw [List.mem_cons, not_or] at h
    exact (ih h.2).trans (Cpu.setReg_of_ne _ _ h.1)

theorem loadFrame_of_mem {l : List (Fin 32)} {r : Fin 32} (h : r ∈ l) (h₀ : r ≠ 0) :
    (loadFrame fr l c).reg r = fr (cxReg r) := by
  induction l generalizing c with
  | nil => cases h
  | cons s l ih =>
    by_cases hr : r ∈ l
    · exact ih hr
    · obtain rfl : r = s := (List.mem_cons.mp h).resolve_right hr
      exact (loadFrame_of_not_mem hr).trans (Cpu.setReg_self _ _ h₀)

/-- The control registers two states share. -/
structure SameCsrs (c c' : Cpu) : Prop where
  sstatus : c'.sstatus = c.sstatus
  sepc : c'.sepc = c.sepc
  sscratch : c'.sscratch = c.sscratch
  satp : c'.satp = c.satp
  stvec : c'.stvec = c.stvec

theorem loadFrame_csrs (l : List (Fin 32)) : SameCsrs c (loadFrame fr l c) := by
  induction l generalizing c with
  | nil => exact ⟨rfl, rfl, rfl, rfl, rfl⟩
  | cons s l ih =>
    have := ih (c := c.setReg s (fr (cxReg s)))
    exact ⟨this.sstatus.trans (Cpu.setReg_sstatus _ _ _), this.sepc.trans (Cpu.setReg_sepc _ _ _),
      this.sscratch.trans (Cpu.setReg_sscratch _ _ _), this.satp.trans (Cpu.setReg_satp _ _ _),
      this.stvec.trans (Cpu.setReg_stvec _ _ _)⟩

theorem exec_loads (h : TrapMapped text m.ram c.satp cx)
    (hb : c.reg 2 = BitVec.ofNat 64 trapframeVa) (fr : Fin 512 → Word) {l : List (Fin 32)}
    (h2 : 2 ∉ l) (rest : List Instr) :
    execInstrs text ((l.map fun r => Instr.ld r (r.val * 8) 2) ++ rest) c (m.storeFrame cx fr) =
      execInstrs text rest (loadFrame fr l c) (m.storeFrame cx fr) := by
  induction l generalizing c with
  | nil => rfl
  | cons r l ih =>
    have hlt := r.isLt
    rw [List.mem_cons, not_or] at h2
    have hidx : (Fin.ofNat 512 (r.val * 8 / 8)) = cxReg r := by
      apply Fin.ext
      rw [Fin.val_ofNat, Nat.mul_div_cancel _ (by decide), Nat.mod_eq_of_lt (by omega)]
      rfl
    rw [List.map_cons, List.cons_append,
      execInstrs_cons (h.fetch_frame fr) (exec_ld h hb (by omega : r.val * 8 < 4096) fr r), hidx,
      ih (h.setReg r _) ((Cpu.setReg_of_ne _ _ h2.1).trans hb) h2.2]
    rfl

/-- The registers when the user program goes on. -/
structure Restored (c c' : Cpu) (fr : Fin 512 → Word) (satp : Word) : Prop where
  regs : ∀ r, r ≠ 0 → c'.x r = fr (cxReg r)
  pc : c'.pc = fr cxSepc
  satp : c'.satp = satp
  sscratch : c'.sscratch = BitVec.ofNat 64 trapframeVa
  stvec : c'.stvec = c.stvec

/-- The head of `__restore`. -/
theorem loadHead_eq {satp : Word} (h : TrapMapped text m.ram satp cx) (fr : Fin 512 → Word)
    (hf : fetches text (m.storeFrame cx fr).ram c.satp = true)
    (ha₀ : c.reg 10 = BitVec.ofNat 64 trapframeVa) (ha₁ : c.reg 11 = satp) (rest : List Instr) :
    ∃ c', execInstrs text (loadHead ++ rest) c (m.storeFrame cx fr) =
        execInstrs text rest c' (m.storeFrame cx fr) ∧
      c'.reg 2 = BitVec.ofNat 64 trapframeVa ∧ c'.sstatus = fr cxSstatus ∧ c'.sepc = fr cxSepc ∧
      c'.satp = satp ∧ c'.sscratch = BitVec.ofNat 64 trapframeVa ∧ c'.stvec = c.stvec := by
  let c₁ := (c.setCsr .satp satp).setCsr .sscratch (BitVec.ofNat 64 trapframeVa)
  have ha : c₁.reg 10 = BitVec.ofNat 64 trapframeVa := by
    simp only [c₁, Cpu.setCsr_reg, ha₀]
  let c₂ := c₁.setReg 2 (BitVec.ofNat 64 trapframeVa)
  have hs₂ : c₂.satp = satp := Cpu.setReg_satp _ _ _
  have hm₂ : TrapMapped text m.ram c₂.satp cx := hs₂.symm ▸ h
  have hsp₂ : c₂.reg 2 = BitVec.ofNat 64 trapframeVa := Cpu.setReg_self _ _ (by decide)
  let c₃ := (c₂.setReg 5 (fr cxSstatus)).setReg 6 (fr cxSepc)
  have hs₃ : c₃.satp = satp := by simp only [c₃, Cpu.setReg_satp, hs₂]
  have ht₀ : c₃.reg 5 = fr cxSstatus :=
    (Cpu.setReg_of_ne _ _ (by decide)).trans (Cpu.setReg_self _ _ (by decide))
  have ht₁ : c₃.reg 6 = fr cxSepc := Cpu.setReg_self _ _ (by decide)
  let c₄ := (c₃.setCsr .sstatus (fr cxSstatus)).setCsr .sepc (fr cxSepc)
  refine ⟨c₄, ?_, ?_, rfl, rfl, ?_, ?_, ?_⟩
  · have hfu : fetches text (m.storeFrame cx fr).ram satp = true := h.fetch_frame fr
    have hsp' : (c₂.setReg 5 (fr cxSstatus)).reg 2 = BitVec.ofNat 64 trapframeVa :=
      (Cpu.setReg_of_ne _ _ (by decide)).trans hsp₂
    refine (execInstrs_cons hf rfl).trans ?_
    rw [ha₁]
    refine (execInstrs_cons hfu rfl).trans ?_
    refine (execInstrs_cons hfu rfl).trans ?_
    rw [Cpu.setCsr_reg, ha₀]
    refine (execInstrs_cons hfu rfl).trans ?_
    rw [show Cpu.reg _ 10 = _ from ha]
    refine (execInstrs_cons (hm₂.fetch_frame fr) (exec_ld hm₂ hsp₂ (by decide) fr 5)).trans ?_
    refine (execInstrs_cons ((hm₂.setReg 5 _).fetch_frame fr)
      (exec_ld (hm₂.setReg 5 _) hsp' (by decide) fr 6)).trans ?_
    have hf₃ : fetches text (m.storeFrame cx fr).ram c₃.satp = true := by rw [hs₃]; exact hfu
    refine (execInstrs_cons hf₃ rfl).trans ?_
    rw [show Cpu.reg _ 5 = _ from ht₀]
    have hf₄ :
        fetches text (m.storeFrame cx fr).ram (c₃.setCsr .sstatus (fr cxSstatus)).satp = true :=
      hf₃
    refine (execInstrs_cons hf₄ rfl).trans ?_
    rw [Cpu.setCsr_reg, show Cpu.reg _ 6 = _ from ht₁]
    rfl
  · simp only [c₄, Cpu.setCsr_reg, c₃, Cpu.setReg_of_ne _ _ (by decide : (2 : Fin 32) ≠ 6),
      Cpu.setReg_of_ne _ _ (by decide : (2 : Fin 32) ≠ 5), hsp₂]
  · exact hs₃
  · simp only [c₄, c₃, c₂, c₁, Cpu.setCsr, Cpu.setReg_sscratch]
  · simp only [c₄, c₃, c₂, c₁, Cpu.setCsr, Cpu.setReg_stvec]

/-- **`__restore`.** -/
theorem restore_eq {satp : Word} (h : TrapMapped text m.ram satp cx)
    (hf : fetches text m.ram c.satp = true) (ha₀ : c.reg 10 = BitVec.ofNat 64 trapframeVa)
    (ha₁ : c.reg 11 = satp) :
    ∃ c', Restored c c' (m.ram cx) satp ∧ execInstrs text restore c m =
      if (m.ram cx cxSstatus).getLsbD 8 then .error .wild else .ok (c', m) := by
  have hm := storeFrame_eq_self m cx
  obtain ⟨c₁, heq, hsp, hst, hse, hsa, hss, hsv⟩ :=
    loadHead_eq h (m.ram cx) (by rw [hm]; exact hf) ha₀ ha₁ (loadRegs ++ loadTail)
  have h₁ : TrapMapped text m.ram c₁.satp cx := hsa.symm ▸ h
  have h2 : (2 : Fin 32) ∉ savedRegs := by decide
  have hloads := exec_loads h₁ hsp (m.ram cx) h2 loadTail
  set c₂ := loadFrame (m.ram cx) savedRegs c₁ with hc₂
  have hcs : SameCsrs c₁ c₂ := loadFrame_csrs savedRegs
  have hm₂ : TrapMapped text m.ram c₂.satp cx := (hcs.satp.trans hsa).symm ▸ h
  have hsp₂ : c₂.reg 2 = BitVec.ofNat 64 trapframeVa := (loadFrame_of_not_mem h2).trans hsp
  let c₃ := c₂.setReg 2 (m.ram cx (cxReg 2))
  have hst₃ : c₃.sstatus = m.ram cx cxSstatus :=
    (Cpu.setReg_sstatus _ _ _).trans (hcs.sstatus.trans hst)
  let sie : Word := if (m.ram cx cxSstatus).getLsbD 5 then 2#64 else 0
  refine ⟨{ c₃ with
    pc := c₃.sepc, sstatus := (m.ram cx cxSstatus &&& ~~~2#64) ||| sie ||| 32#64 },
    ⟨?_, ?_, ?_, ?_, ?_⟩, ?_⟩
  · intro r hr
    have key : c₃.reg r = m.ram cx (cxReg r) := by
      by_cases hr2 : r = 2
      · subst hr2
        exact Cpu.setReg_self _ _ hr
      · exact (Cpu.setReg_of_ne _ _ hr2).trans
          (loadFrame_of_mem ((mem_savedRegs r).mpr ⟨hr, hr2⟩) hr)
    rwa [Cpu.reg_of_ne _ hr] at key
  · exact (Cpu.setReg_sepc _ _ _).trans (hcs.sepc.trans hse)
  · exact (Cpu.setReg_satp _ _ _).trans (hcs.satp.trans hsa)
  · exact (Cpu.setReg_sscratch _ _ _).trans (hcs.sscratch.trans hss)
  · exact (Cpu.setReg_stvec _ _ _).trans (hcs.stvec.trans hsv)
  · have htail : execInstrs text loadTail c₂ (m.storeFrame cx (m.ram cx)) =
        execInstrs text [.sret] c₃ (m.storeFrame cx (m.ram cx)) :=
      execInstrs_cons (hm₂.fetch_frame _) (exec_ld hm₂ hsp₂ (by decide) _ 2)
    have hall : execInstrs text restore c m = execInstrs text [.sret] c₃ m := by
      rw [hm] at heq hloads htail
      rw [restore, List.append_assoc]
      exact heq.trans (hloads.trans htail)
    rw [hall]
    have hf₃ : fetches text m.ram c₃.satp = true := by
      have := (hm₂.setReg 2 (m.ram cx (cxReg 2))).fetch_frame (m.ram cx)
      rwa [hm] at this
    rw [execInstrs, if_pos hf₃, execInstr, hst₃]
    by_cases hspp : (m.ram cx cxSstatus).getLsbD 8 = true
    · simp only [if_pos hspp]
      rfl
    · simp only [if_neg hspp]
      rfl

end Exec

end RiscvOs
