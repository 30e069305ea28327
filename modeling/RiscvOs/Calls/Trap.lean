import RiscvOs.Inv.Memory
import RiscvOs.Kernel.Shape

/-!
# Stores, and the way in and out

* `MemInv.storeFrame`: a store into a frame of a task, outside its table.
* `userStore_spec`, `putchar_spec`: where user stores and `__sys_getchar` write.
* `callString`, `callString_eq_ok_iff`: the string `__SYSCALL` reads.
* **`enterTrap_spec`**, **`trapReturn_spec`**: what a trap and the return from it do.
-/

set_option autoImplicit false

namespace RiscvOs

open PageTableEntry

variable {cfg : Config} {k k' : Kernel} {i : Slot}

/-! ## Stores -/

/-- A page with one byte replaced. -/
def setFrameByte (c : Frame) (o : ℕ) (b : Byte) : Frame :=
  Function.update c (wordIndex o) (setWordByte (c (wordIndex o)) (o % 8) b)

theorem storeByte_eq (m : Mem) (p : ℕ) {o : ℕ} (ho : o < 4096) (b : Byte) :
    m.storeByte (p * 4096 + o) b = m.storeFrame p (setFrameByte (m.ram p) o b) := by
  have h₁ : (p * 4096 + o) / pageSize = p := by
    rw [pageSize_eq]
    omega
  have h₂ : (p * 4096 + o) % pageSize = o := by
    rw [pageSize_eq]
    omega
  have h₃ : (p * 4096 + o) % 8 = o % 8 := by omega
  simp only [Mem.storeByte, h₁, h₂, h₃]
  rfl

section Store

variable {f : ℕ} (h : MemInv cfg k) (hi : (k.tasks i).taskState ≠ .unInit)
  (hf : f ∈ (k.tasks i).frames k.mem.ram)

include h hi hf

theorem onlyTask_storeFrame (c : Frame) :
    OnlyTask cfg k { k with mem := k.mem.storeFrame f c } i where
  kernelPagetable := rfl
  task j _ := .refl _
  frame x hx := by
    refine Mem.storeFrame_of_ne (fun he : x = f => ?_) c
    subst he
    refine h.not_mem_rest ?_ hx
    rwa [Kernel.taskFrames_of_init hi]
  text := Mem.storeFrame_of_ne (h.frame_ne (MemInv.frames_mem hi hf)).symm c
  end_eq := rfl

/-- A store into a frame of a task, outside its table. -/
theorem MemInv.storeFrame (hn : f ∉ tableFrames k.mem.ram (k.tasks i).pagetable.rootPpn)
    (c : Frame) : MemInv cfg { k with mem := k.mem.storeFrame f c } := by
  refine h.write (onlyTask_storeFrame h hi hf c) (.refl _) (fun _ x hx => ?_) rfl
  exact Mem.storeFrame_of_ne (fun he : x = f => hn (he ▸ hx)) c

end Store

/-- The frames behind the low half of a task are apart from its table. -/
theorem MemInv.leaf_not_mem_table (h : MemInv cfg k) (hi : (k.tasks i).taskState ≠ .unInit) {f : ℕ}
    (hf : f ∈ leaves (lookup k.mem.ram (k.tasks i).pagetable.rootPpn) 0
      ((k.tasks i).baseSize / 4096)) :
    f ∉ tableFrames k.mem.ram (k.tasks i).pagetable.rootPpn := fun hm => by
  have ho := h.own.mono (MemInv.taskFrames_le k i)
  rw [Kernel.taskFrames_of_init hi, TaskControlBlock.frames, add_assoc] at ho
  exact ho.not_mem_right hm (Multiset.mem_add.mpr (.inr hf))

theorem MemInv.leaf_ne_cx (h : MemInv cfg k) (hi : (k.tasks i).taskState ≠ .unInit) {f : ℕ}
    (hf : f ∈ leaves (lookup k.mem.ram (k.tasks i).pagetable.rootPpn) 0
      ((k.tasks i).baseSize / 4096)) : f ≠ (k.tasks i).cx := fun he => by
  have ho := h.own.mono (MemInv.taskFrames_le k i)
  rw [Kernel.taskFrames_of_init hi, TaskControlBlock.frames] at ho
  exact ho.not_mem_right (Multiset.mem_add.mpr (.inr (Multiset.mem_singleton_self _))) (he ▸ hf)

/-! ## User pages -/

/-- Where the translation of a task leads: a page of its low half, which is the user's, the trap
page, or the trampoline, which are not. -/
theorem MemInv.lookup_cases (h : MemInv cfg k) (hi : (k.tasks i).taskState ≠ .unInit) {v : ℕ}
    {e : Word} (hv : v < 2 ^ 27) (he : lookup k.mem.ram (k.tasks i).pagetable.rootPpn v = some e) :
    (v < (k.tasks i).baseSize / 4096 ∧ has e pteU = true ∧
      ppn e ∈ leaves (lookup k.mem.ram (k.tasks i).pagetable.rootPpn) 0
        ((k.tasks i).baseSize / 4096)) ∨
    (v = trapframeVpn ∧ e = new (k.tasks i).cx (pteV ||| (pteR ||| pteW))) ∨
    (v = trampolineVpn ∧ e = new cfg.trampolinePpn (pteV ||| (pteR ||| pteX))) := by
  have hok := h.task i hi
  have htt : trampolineVpn = trapframeVpn + 1 := by decide
  have htl : trampolineVpn + 1 = 2 ^ 27 := by decide
  obtain hlt | rfl | rfl : v < trapframeVpn ∨ v = trapframeVpn ∨ v = trampolineVpn := by omega
  · have hn : v < (k.tasks i).baseSize / 4096 := by
      by_contra hge
      rw [hok.space.high v (Nat.le_of_not_lt hge) hlt] at he
      cases he
    exact .inl ⟨hn, hok.user v hlt e he, mem_leaves he hn⟩
  · rw [hok.space.trapframe] at he
    exact .inr (.inl ⟨rfl, (Option.some.inj he).symm⟩)
  · rw [hok.space.trampoline] at he
    exact .inr (.inr ⟨rfl, (Option.some.inj he).symm⟩)

theorem has_trapPage {p : ℕ} (hp : p < 2 ^ 44) :
    has (new p (pteV ||| (pteR ||| pteW))) pteU = false := by
  rw [has_new hp]
  decide

theorem has_trampolinePage {p : ℕ} (hp : p < 2 ^ 44) :
    has (new p (pteV ||| (pteR ||| pteX))) pteU = false := by
  rw [has_new hp]
  decide

/-- The page of a user pointer. -/
def pageOf (va : Word) : ℕ := va.toNat % 2 ^ 39 / 4096

theorem pageOf_lt (va : Word) : pageOf va < 2 ^ 27 := by
  rw [pageOf]
  omega

/-- A user store goes to a writable page of the program's low half, or nowhere. -/
theorem userStore_spec (h : MemInv cfg k) (hcur : k.cur.taskState ≠ .unInit)
    (hsatp : k.cpu.satp = makeSatp k.cur.pagetable.rootPpn) (va : Word) (b : Byte) :
    userStore va b k = k ∨
      ∃ f c, f ∈ leaves (lookup k.mem.ram k.cur.pagetable.rootPpn) 0 (k.cur.baseSize / 4096) ∧
        userStore va b k = { k with mem := k.mem.storeFrame f c } := by
  have hlt : va.toNat % 4096 < 4096 := Nat.mod_lt _ (by decide)
  rw [userStore, hsatp]
  cases ht : translate k.mem.ram (makeSatp k.cur.pagetable.rootPpn) va with
  | none => exact .inl rfl
  | some r =>
    obtain ⟨p, e⟩ := r
    simp only
    split_ifs with hw
    · rw [Bool.and_eq_true] at hw
      have hok := h.task _ hcur
      obtain ⟨hl, rfl⟩ := lookup_of_translate hok.space.links (h.root_lt hcur) ht
      obtain ⟨-, -, hf⟩ | ⟨-, rfl⟩ | ⟨-, rfl⟩ := h.lookup_cases hcur (pageOf_lt va) hl
      · exact .inr ⟨ppn e, _, hf, by rw [pageSize_eq, storeByte_eq _ _ hlt]⟩
      · rw [has_trapPage (h.cx_lt hcur)] at hw
        exact absurd hw.2 (by decide)
      · rw [has_trampolinePage cfg.trampolinePpn_lt] at hw
        exact absurd hw.2 (by decide)
    · exact .inl rfl

/-- `uptr_to_kptr` in terms of the translation. -/
theorem uptrToKptr_ok {data : Word} {pa : ℕ} (h : uptrToKptr k data = .ok pa) :
    ∃ e, lookup k.mem.ram k.cur.pagetable.rootPpn (pageOf data) = some e ∧
      pa = ppn e * 4096 + data.toNat % 4096 := by
  rw [uptrToKptr] at h
  split at h
  · cases h
  rename_i pte hpte
  refine ⟨_, (findPte_eq_some hpte).2, (Except.ok.inj h).symm.trans ?_⟩
  rw [ptePa]
  norm_num

theorem uptrToKptr_of_lookup {uptr e : Word}
    (he : lookup k.mem.ram k.cur.pagetable.rootPpn (pageOf uptr) = some e) :
    uptrToKptr k uptr = .ok (ppn e * 4096 + uptr.toNat % 4096) := by
  cases hu : uptrToKptr k uptr with
  | error err =>
    rw [uptrToKptr] at hu
    split at hu
    · next hp =>
      have hnone : lookup k.mem.ram k.cur.pagetable.rootPpn (pageOf uptr) = none :=
        findPte_eq_none hp
      rw [he] at hnone
      cases hnone
    · cases hu
  | ok pa =>
    obtain ⟨e', he', rfl⟩ := uptrToKptr_ok hu
    rw [Option.some.inj (he'.symm.trans he)]

/-- The string that `__SYSCALL` reads through a pointer of the user. -/
def callString (k : Kernel) (uptr : Word) : Except Halt (List Byte) := do
  let str ← uptrToKptr k uptr
  k.mem.cstring str

/-- From the translation of the pointer on, the bytes of the string and its `NUL` follow one another
in physical memory. -/
def Consecutive (k : Kernel) (uptr : Word) (str : List Byte) : Prop :=
  ∃ e, lookup k.mem.ram k.cur.pagetable.rootPpn (pageOf uptr) = some e ∧
    ∀ o ≤ str.length, kernbase ≤ ppn e * 4096 + uptr.toNat % 4096 + o ∧
      ppn e * 4096 + uptr.toNat % 4096 + o < phystop ∧
      k.mem.byte (ppn e * 4096 + uptr.toNat % 4096 + o) = str.getD o 0

theorem callString_eq_ok_iff {uptr : Word} {str : List Byte} :
    callString k uptr = .ok str ↔ 0 ∉ str ∧ Consecutive k uptr str := by
  constructor
  · intro h
    obtain ⟨pa, hpa, h⟩ := exists_of_bind_ok h
    obtain ⟨e, he, rfl⟩ := uptrToKptr_ok hpa
    obtain ⟨hnul, hbytes⟩ := Mem.stringAt_iff.mp (Mem.cstring_eq_ok_iff.mp h)
    exact ⟨hnul, e, he, hbytes⟩
  · rintro ⟨hnul, e, he, hbytes⟩
    rw [callString, uptrToKptr_of_lookup he]
    exact Mem.cstring_eq_ok_iff.mpr (Mem.stringAt_iff.mpr ⟨hnul, hbytes⟩)

/-- `__sys_getchar` stores into a page of the low half, or into the trap page. -/
theorem putchar_spec (h : MemInv cfg k) (hcur : k.cur.taskState ≠ .unInit) {data : Word} {pa : ℕ}
    {b : Byte} (hpa : uptrToKptr k data = .ok pa) (hst : kernelStoreByte cfg pa b k = .ok k') :
    ∃ f c, k' = { k with mem := k.mem.storeFrame f c } ∧
      ((pageOf data < trapframeVpn ∧
        f ∈ leaves (lookup k.mem.ram k.cur.pagetable.rootPpn) 0 (k.cur.baseSize / 4096)) ∨
        (pageOf data = trapframeVpn ∧ f = k.cur.cx ∧
          c = setFrameByte (k.mem.ram k.cur.cx) (data.toNat % 4096) b)) := by
  have hlt : data.toNat % 4096 < 4096 := Nat.mod_lt _ (by decide)
  obtain ⟨e, he, rfl⟩ := uptrToKptr_ok hpa
  obtain ⟨⟨hlo, -⟩, rfl⟩ := kernelStoreByte_shape hst
  refine ⟨ppn e, _, by rw [storeByte_eq _ _ hlt], ?_⟩
  obtain ⟨hv, -, hf⟩ | ⟨hv, rfl⟩ | ⟨-, rfl⟩ := h.lookup_cases hcur (pageOf_lt data) he
  · exact .inl ⟨hv.trans_le (h.task _ hcur).space.bound, hf⟩
  · refine .inr ⟨hv, ?_⟩
    rw [ppn_new (h.cx_lt hcur)]
    exact ⟨rfl, rfl⟩
  · -- the trampoline lies in the text, which the kernel maps read-only
    exfalso
    have hl := cfg.layout
    have ha := cfg.aligned.1
    rw [ppn_new cfg.trampolinePpn_lt, Config.trampolinePpn] at hlo
    rw [pageSize_eq] at hl ha hlo
    omega

/-! ## Entry -/

/-- The words of a trap context that lead into the kernel. -/
structure KernelWords (cfg : Config) (k : Kernel) (i : Slot) (c : Frame) : Prop where
  satp : c cxKernelSatp = makeSatp k.kernelPagetable.rootPpn
  handler : c cxTrapHandler = cfg.trapHandler
  sp : c cxKernelSp = BitVec.ofNat 64 (k.tasks i).kstack

/-- The control registers while a user program runs. -/
structure UserCsrs (k : Kernel) : Prop where
  satp : k.cpu.satp = makeSatp k.cur.pagetable.rootPpn
  sscratch : k.cpu.sscratch = BitVec.ofNat 64 trapframeVa
  stvec : k.cpu.stvec = BitVec.ofNat 64 trampolineVa

/-- The state when `trap_handler` starts. -/
structure TrapEntered (cfg : Config) (scause : Word) (k k' : Kernel) : Prop where
  shape : ∃ c, k' = { k with
    mem := k.mem.storeFrame k.cur.cx (trapFrame (k.cpu.trap scause) (k.mem.ram k.cur.cx))
    cpu := c
    kstacks := Function.update k.kstacks k.current none } ∧ c.scause = scause

/-- **A trap** writes the user's registers into the trap page, and reaches the handler if the
kernel words there are intact. -/
theorem enterTrap_spec (h : MemInv cfg k) (hcur : k.cur.taskState ≠ .unInit) (hc : UserCsrs k)
    (scause : Word) :
    Outcome (enterTrap cfg scause k) (TrapEntered cfg scause k)
      fun e => e = .wild ∧ ¬ KernelWords cfg k k.current (k.mem.ram k.cur.cx) := by
  have hpc : (k.cpu.trap scause).pc = BitVec.ofNat 64 trampolineVa := hc.stvec
  have hmap : TrapMapped cfg.trampolineText k.mem.ram (k.cpu.trap scause).satp k.cur.cx := by
    rw [show (k.cpu.trap scause).satp = makeSatp k.cur.pagetable.rootPpn from hc.satp]
    exact h.trapMapped hcur
  obtain ⟨c, hent, heq⟩ := alltraps_eq hmap hc.sscratch
  simp only [enterTrap, if_pos hpc, heq]
  by_cases hw : KernelWords cfg k k.current (k.mem.ram k.cur.cx)
  · -- the kernel's table is not in the trap page, so the code goes on under it
    have hfetch : fetches cfg.trampolineText (k.mem.storeFrame k.cur.cx
        (trapFrame (k.cpu.trap scause) (k.mem.ram k.cur.cx))).ram
        (k.mem.ram k.cur.cx cxKernelSatp) = true := by
      have ho := onlyTask_storeFrame (c := trapFrame (k.cpu.trap scause) (k.mem.ram k.cur.cx)) h
        hcur (MemInv.cx_mem_frames _ _)
      rw [hw.satp]
      exact h.kernelFetch
        (fun x hx => ho.frame x (Multiset.mem_of_le (k.kernelTable_le_rest _) hx)) ho.text
    have hwords : c.satp = makeSatp k.kernelPagetable.rootPpn ∧ c.pc = cfg.trapHandler ∧
        c.reg 2 = BitVec.ofNat 64 k.cur.kstack :=
      ⟨hent.satp.trans hw.satp, hent.pc.trans hw.handler, hent.sp.trans hw.sp⟩
    rw [if_pos hfetch]
    change Outcome (if c.satp = _ ∧ c.pc = _ ∧ c.reg 2 = _ then _ else _) _ _
    rw [if_pos hwords]
    exact ⟨_, rfl, hent.scause⟩
  · split_ifs
    · change Outcome (if c.satp = _ ∧ c.pc = _ ∧ c.reg 2 = _ then _ else _) _ _
      rw [if_neg fun hwords => hw
        ⟨hent.satp.symm.trans hwords.1, hent.pc.symm.trans hwords.2.1,
          hent.sp.symm.trans hwords.2.2⟩]
      exact ⟨rfl, hw⟩
    · exact ⟨rfl, hw⟩

/-! ## Return -/

/-- The user program goes on with the registers of its trap context. -/
structure Resumed (k k' : Kernel) : Prop where
  shape : ∃ c, k' = { k with cpu := c }
  regs : ∀ r, r ≠ 0 → k'.cpu.x r = k.mem.ram k.cur.cx (cxReg r)
  pc : k'.cpu.pc = k.mem.ram k.cur.cx cxSepc
  csrs : UserCsrs k'

/-- **`trap_return`** loads the user's registers from the trap page. -/
theorem trapReturn_spec (h : MemInv cfg k) (hcur : k.cur.taskState ≠ .unInit)
    (hsatp : k.cpu.satp = makeSatp k.kernelPagetable.rootPpn) :
    Outcome (trapReturn cfg k) (Resumed k)
      fun e => e = .wild ∧ (k.mem.ram k.cur.cx cxSstatus).getLsbD 8 = true := by
  let c := (({ k.cpu with stvec := BitVec.ofNat 64 trampolineVa } : Cpu).setReg 10
    (BitVec.ofNat 64 trapframeVa)).setReg 11 (currentUserToken k)
  have hf : fetches cfg.trampolineText k.mem.ram c.satp = true := by
    have : c.satp = makeSatp k.kernelPagetable.rootPpn := by
      simp only [c, Cpu.setReg_satp, hsatp]
    rw [this]
    exact h.kernelFetch (fun _ _ => rfl) rfl
  have ha₀ : c.reg 10 = BitVec.ofNat 64 trapframeVa :=
    (Cpu.setReg_of_ne _ _ (by decide)).trans (Cpu.setReg_self _ _ (by decide))
  have ha₁ : c.reg 11 = makeSatp k.cur.pagetable.rootPpn := Cpu.setReg_self _ _ (by decide)
  obtain ⟨c', hr, heq⟩ := restore_eq (h.trapMapped hcur) hf ha₀ ha₁
  have hdef : trapReturn cfg k = (execInstrs cfg.trampolineText restore c k.mem >>= fun r =>
      .ok { k with mem := r.2, cpu := r.1 }) := rfl
  rw [hdef, heq]
  split_ifs with hspp
  · exact ⟨rfl, hspp⟩
  · refine ⟨⟨c', rfl⟩, hr.regs, hr.pc, hr.satp, hr.sscratch, ?_⟩
    refine hr.stvec.trans ?_
    simp only [c, Cpu.setReg_stvec]

end RiscvOs
