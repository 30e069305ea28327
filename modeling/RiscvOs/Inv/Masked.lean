import RiscvOs.Inv.Words
import RiscvOs.Kernel.Timer

/-!
# Interrupts in the kernel

A trap clears `SIE`, and the kernel sets it nowhere after boot: not in `sstatus`, and not in the
`sstatus` of a trap context, which `__restore` loads before its `sret`.

* `enterTrap_sstatus`, `sysYield_sstatus`, `Served.sstatus`: `sstatus` itself.
* `Stepped.statusMasked`: the `sstatus` of a trap context is an old one or that of a trap.
* `Masked`, **`Masked.step`**, **`masked_run`**: no step of a run can be interrupted in the kernel.
-/

set_option autoImplicit false

namespace RiscvOs

variable {cfg : Config} {env : Env cfg} {mode mode' : Mode} {k k' : Kernel} {kont : Kont}

/-! ## `sstatus` -/

/-- The instruction leaves `sstatus` alone. -/
def Instr.keepsStatus : Instr → Bool
  | .csrrw _ r _ => r ≠ .sstatus
  | .csrw r _ => r ≠ .sstatus
  | .sret => false
  | _ => true

theorem Cpu.setCsr_sstatus (c : Cpu) {r : Csr} (h : r ≠ .sstatus) (w : Word) :
    (c.setCsr r w).sstatus = c.sstatus := by
  cases r with
  | sstatus => exact absurd rfl h
  | _ => rfl

theorem execInstr_sstatus {ins : Instr} (h : ins.keepsStatus = true) {c c' : Cpu} {m m' : Mem}
    (he : execInstr ins c m = .ok (c', m')) : c'.sstatus = c.sstatus := by
  cases ins with
  | sd rs off base =>
    simp only [execInstr] at he
    split at he
    · cases he
    · split_ifs at he
      cases he
      rfl
  | ld rd off base =>
    simp only [execInstr] at he
    split at he
    · cases he
    · split_ifs at he
      cases he
      exact Cpu.setReg_sstatus _ _ _
  | csrrw rd r rs =>
    cases he
    rw [Cpu.setReg_sstatus, Cpu.setCsr_sstatus _ (of_decide_eq_true h)]
  | csrr rd r =>
    cases he
    exact Cpu.setReg_sstatus _ _ _
  | csrw r rs =>
    cases he
    exact Cpu.setCsr_sstatus _ (of_decide_eq_true h) _
  | mv rd rs =>
    cases he
    exact Cpu.setReg_sstatus _ _ _
  | sfenceVma =>
    cases he
    rfl
  | jr rs =>
    cases he
    rfl
  | sret => cases h

theorem execInstrs_sstatus {text : Text} {l : List Instr} (h : ∀ ins ∈ l, ins.keepsStatus = true)
    {c c' : Cpu} {m m' : Mem} (he : execInstrs text l c m = .ok (c', m')) :
    c'.sstatus = c.sstatus := by
  induction l generalizing c m with
  | nil =>
    cases he
    rfl
  | cons ins l ih =>
    rw [execInstrs] at he
    split_ifs at he
    obtain ⟨⟨c₁, m₁⟩, h₁, he⟩ := exists_of_bind_ok he
    rw [ih (fun i hi => h i (List.mem_cons_of_mem _ hi)) he,
      execInstr_sstatus (h ins List.mem_cons_self) h₁]

theorem enterTrap_sstatus {scause : Word} (h : enterTrap cfg scause k = .ok k') :
    k'.cpu.sstatus = (k.cpu.trap scause).sstatus := by
  simp only [enterTrap] at h
  split_ifs at h
  obtain ⟨⟨c, m⟩, hex, h⟩ := exists_of_bind_ok h
  split_ifs at h
  cases h
  have hall : ∀ ins ∈ alltraps, ins.keepsStatus = true := by decide
  have hstatus := execInstrs_sstatus hall hex
  exact hstatus

/-- A trap clears `SIE`. -/
theorem Cpu.trap_sie (c : Cpu) (scause : Word) :
    (c.trap scause).sstatus.getLsbD 1 = false := by
  simp only [Cpu.trap]
  split_ifs <;> simp

theorem enterTrap_sie {scause : Word} (h : enterTrap cfg scause k = .ok k') :
    k'.cpu.sstatus.getLsbD 1 = false := by
  rw [enterTrap_sstatus h]
  exact Cpu.trap_sie _ _

theorem foldl_setReg_sstatus {α : Type} (l : List α) (r : α → Fin 32) (w : α → Word) (c : Cpu) :
    (l.foldl (fun c a => c.setReg (r a) (w a)) c).sstatus = c.sstatus := by
  induction l generalizing c with
  | nil => rfl
  | cons a l ih => exact (ih _).trans (Cpu.setReg_sstatus _ _ _)

theorem sysYield_sstatus {self : Kont} (h : sysYield cfg env self k = .ok (kont, k')) :
    k'.cpu.sstatus = k.cpu.sstatus := by
  obtain ⟨rfl, -, -⟩ | ⟨n, -, -, hs⟩ := sysYield_cases h
  · rfl
  · obtain ⟨stack, ctx, -, -, -, rfl⟩ := switch_cases hs
    have hcpu : (switching k n).cpu = k.cpu := by
      rw [switching]
      split_ifs <;> rfl
    refine (foldl_setReg_sstatus _ _ _ _).trans ((foldl_setReg_sstatus _ _ _ _).trans ?_)
    rw [Cpu.setReg_sstatus, Cpu.setReg_sstatus, hcpu]

theorem Served.sstatus {cx : ℕ} {father : Slot} {data : Option Word} {call : SyscallId} {op : Op}
    (hc : k.sched.Live k.current) (hs : Served cfg env cx father data k call op kont k') :
    k'.cpu.sstatus = k.cpu.sstatus := by
  cases hs with
  | quiet => rfl
  | putchar _ _ hst =>
    obtain ⟨-, rfl⟩ := kernelStoreByte_shape hst
    rfl
  | fork hk =>
    obtain ⟨-, -, rfl⟩ | ⟨p, f, root, m, hp, -, he⟩ := sysFork_shape hk
    · rfl
    · have hne : k.current ≠ p := fun hcp =>
        live_init hc (hcp ▸ unInit_of_freeSlot hp)
      rw [he hne]
      rfl
  | exec hk =>
    obtain ⟨m, root, u, rfl⟩ := sysExec_shape hk
    rfl
  | reap out hz hk =>
    obtain ⟨m, rfl⟩ := freeChild_shape hk
    rfl
  | @exit code _ _ _ hy =>
    have hz : k'.cpu.sstatus = (becomeZombie code k).cpu.sstatus := sysYield_sstatus hy
    exact hz
  | yield _ hy => exact sysYield_sstatus hy

/-! ## Trap contexts -/

theorem execTrap_sstatus (f : ℕ → Byte) (c : Frame) : execTrap f c cxSstatus = c cxSstatus := by
  rw [execTrap, Function.update_of_ne (by decide), Function.update_of_ne (by decide)]

/-- The `sstatus` of a trap context is one that a live task had. -/
def Inherits (k k' : Kernel) : Prop :=
  ∀ i, k'.sched.Live i → ∃ j, k.sched.Live j ∧ k'.trap i cxSstatus = k.trap j cxSstatus

theorem Served.inherits {cx : ℕ} {father : Slot} {data : Option Word} {call : SyscallId} {op : Op}
    (hwf : cfg.WellFormed) (h : MemInv cfg k) (hon : OnStack cfg k) (hc : k.sched.Live k.current)
    (hcx : cx = k.cur.cx) (hf : father = k.current)
    (hs : Served cfg env cx father data k call op kont k')
    (hdata : ∀ d, data = some d → pageOf d ≠ trapframeVpn) : Inherits k k' := by
  obtain ⟨hsched, hen⟩ := hs.sched hc
  intro i hl
  by_cases hi : i = k.current
  · subst hi
    refine ⟨_, hc, ?_⟩
    by_cases hexit : call = .exit
    · subst hexit
      cases hs with
      | quiet => rfl
      | exit =>
        rw [hsched] at hl
        exact absurd rfl (Tree.live_zombify.mp (((Sched.sameProcs_yield _).live _).mp hl)).2
      | yield hw => cases hw
    by_cases hexec : call = .exec
    · subst hexec
      cases hs with
      | quiet => rfl
      | @exec _ out _ hk =>
        have h₀ : MemInv cfg { k with mem.console := out } := ((Keeps.refl h).withConsole out).mem
        obtain ⟨f, he⟩ := sysExec_trap hwf h₀ hc hk
        have he' : k'.trap k.current = execTrap f (k.trap k.current) := he
        rw [he', execTrap_sstatus]
      | yield hw => cases hw
    rw [hs.trap_of_clean h hon hc hcx hf hexec hexit fun _ => hdata]
  by_cases hli : k.sched.Live i
  · rw [((hs.keeps hwf h hon hc hcx hf).others i hi hli).trap_eq]
    exact ⟨i, hli, rfl⟩
  -- the child of a fork
  rw [hsched] at hl
  obtain hl | ⟨rfl, hp⟩ := Op.live_of_apply hen hl
  · exact absurd hl hli
  cases hs with
  | fork hk =>
    obtain ⟨hfull, -⟩ | ⟨p, f, root, m, hfk, hr⟩ := (sysFork_spec h (live_init hc)).of_ok hk
    · rw [freeSlot_sched, hfull] at hp
      cases hp
    · rw [freeSlot_sched, hfk.slot] at hp
      obtain rfl := Option.some.inj hp
      rw [(Prod.mk.inj hr).2, hfk.trap_child,
        forkedTrap_of_ne _ _ (by decide) (by decide)]
      exact ⟨_, hc, rfl⟩

/-- Trap contexts whose `SIE` is clear. -/
def StatusMasked (k : Kernel) : Prop :=
  ∀ i, k.sched.Live i → (k.trap i cxSstatus).getLsbD 1 = false

theorem Inherits.masked (h : Inherits k k') (hm : StatusMasked k) : StatusMasked k' := by
  intro i hl
  obtain ⟨j, hj, he⟩ := h i hl
  rw [he]
  exact hm j hj

theorem Handling.masked {scause : Word} {k₁ : Kernel} (hh : Handling cfg scause k k₁)
    (hm : StatusMasked k) : StatusMasked k₁ := by
  intro i hl
  rw [hh.sched] at hl
  by_cases hi : i = k.current
  · subst hi
    rw [hh.entered.trap, savedFrame, trapFrame_sstatus]
    exact Cpu.trap_sie _ _
  · rw [(hh.keeps.others i hi hl).trap_eq]
    exact hm i hl

/-- A store into a register or `sepc` of a trap context. -/
theorem StatusMasked.storeCx (hm : StatusMasked k) (h : MemInv cfg k)
    (hc : k.sched.Live k.current) {j : Fin 512} (hj : j.val < 32 ∨ j = cxSepc) (w : Word) :
    StatusMasked { k with mem := k.mem.store k.cur.cx j w } := by
  have hk : Keeps cfg k { k with mem := k.mem.store k.cur.cx j w } := .storeCx h hc _
  intro i hl
  by_cases hi : i = k.current
  · subst hi
    have htrap : ({ k with mem := k.mem.store k.cur.cx j w } : Kernel).trap k.current =
        Function.update (k.trap k.current) j w := Function.update_self _ _ _
    have hne : cxSstatus ≠ j := by
      rintro rfl
      exact absurd hj (by decide)
    rw [htrap, Function.update_of_ne hne]
    exact hm _ hl
  · rw [(hk.others i hi hl).trap_eq]
    exact hm i hl

/-- **A clean step keeps `SIE` clear in all trap contexts.** -/
theorem Stepped.statusMasked {e : Event cfg} {op : Op} (hwf : cfg.WellFormed) (h : Inv cfg mode k)
    (hm : StatusMasked k) (hclean : CleanStep e mode k) (hs : Stepped mode k e op mode' k') :
    StatusMasked k' := by
  have hc := h.live
  have hkeep := (hs.keeps hwf h).1
  cases hs with
  | idle => exact hm
  | compute => exact hm
  | store _ va b =>
    obtain he | ⟨f, c, hf, he⟩ := userStore_spec h.mem h.init (h.csrs rfl).satp va b
    · rwa [he]
    · rw [he] at hkeep ⊢
      intro i hl
      by_cases hi : i = k.current
      · subst hi
        have htrap : ({ k with mem := k.mem.storeFrame f c } : Kernel).trap k.current =
            k.trap k.current := Mem.storeFrame_of_ne (h.mem.leaf_ne_cx h.init hf).symm _
        rw [htrap]
        exact hm _ hc
      · rw [(hkeep.others i hi hl).trap_eq]
        exact hm i hl
  | @timer _ k₁ _ _ env _ he _ hy =>
    have hh := h.enter he
    have hok : KontOk k₁ k₁.current .timer := trivial
    obtain ⟨hmem, -, ht⟩ := sysYield_sameSpace hh.onStack (fun _ => hok) hy
    intro i hl
    rw [sysYield_sched hy, (Sched.sameProcs_yield _).live] at hl
    rw [Kernel.trap, (ht i).cx, hmem]
    exact hh.masked hm i hl
  | interrupt out he _ => exact (h.enter he).masked hm
  | @ecall _ k₁ _ _ env _ _ _ he hi _ hsv =>
    have hh := h.enter he
    refine (hsv.inherits hwf (hh.call_keeps h.mem).mem hh.call_onStack hh.live rfl rfl
      (fun d hd => hclean d ?_)).masked ((hh.masked hm).storeCx hh.keeps.mem hh.live (.inr rfl) _)
    rw [hh.arg (by decide), hh.arg (by decide)] at hd
    rw [hh.scause_eq] at hi
    rw [storePointer, if_pos hi]
    exact hd
  | leave _ ht =>
    obtain ⟨c, rfl⟩ := ((trapReturn_spec h.mem h.init h.stack.onStack.satp).of_ok ht).shape
    exact hm
  | yielded => exact hm
  | getchar hsv =>
    exact (hsv.inherits hwf h.mem h.stack.onStack hc h.stack.kontOk rfl hclean).masked hm
  | recycle hsv =>
    refine (hsv.inherits hwf h.mem h.stack.onStack hc h.stack.kontOk.1 h.stack.kontOk.2.1
      fun d hd => ?_).masked hm
    cases hd
  | @sysReturn _ _ _ cx v ht =>
    have hcx : cx = k.cur.cx := h.stack.kontOk
    subst hcx
    have hst := Keeps.storeCx h.mem hc (Function.update (k.mem.ram k.cur.cx) (cxReg 10) v)
    obtain ⟨c, rfl⟩ := ((trapReturn_spec hst.mem h.init h.stack.onStack.satp).of_ok ht).shape
    exact hm.storeCx h.mem hc (.inl (by decide)) v

/-! ## Runs -/

/-- `sstatus` after a step into the kernel or inside it. -/
theorem Stepped.sie {e : Event cfg} {op : Op} (h : Inv cfg mode k)
    (hs : Stepped mode k e op (.kernel kont) k') : k'.cpu.sstatus.getLsbD 1 = false ∨
      ∃ κ, mode = .kernel κ ∧ k'.cpu.sstatus = k.cpu.sstatus := by
  cases hs with
  | idle => exact .inr ⟨_, rfl, rfl⟩
  | timer he _ hy =>
    rw [sysYield_sstatus hy]
    exact .inl (enterTrap_sie he)
  | interrupt out he _ =>
    have hsie := enterTrap_sie he
    exact .inl hsie
  | @ecall _ k₁ _ _ _ _ _ _ he _ _ hsv =>
    have hstatus : k'.cpu.sstatus = (moveSepc k₁).cpu.sstatus := hsv.sstatus (h.enter he).live
    have hsie := enterTrap_sie he
    rw [hstatus]
    exact .inl hsie
  | yielded => exact .inr ⟨_, rfl, rfl⟩
  | getchar hsv => exact .inr ⟨_, rfl, hsv.sstatus h.live⟩
  | recycle hsv => exact .inr ⟨_, rfl, hsv.sstatus h.live⟩

/-- In the kernel `SIE` is clear, except on the way from `timer_init` to the first program, when the
comparator has not been written yet. -/
structure Masked (mode : Mode) (k : Kernel) (c : Clock) : Prop where
  status : StatusMasked k
  closed : ∀ kont, mode = .kernel kont → k.cpu.sstatus.getLsbD 1 = false ∨
    (kont = .trapReturn ∧ c.mtimecmp = 2 ^ 64 - 1)
  mtime : c.mtime < 2 ^ 64 - 1

namespace Masked

variable {c : Clock}

theorem boot {b : Start cfg} (hwf : cfg.WellFormed) (hb : boot cfg b = .ok (.trapReturn, k))
    (hsie : b.cpu.sstatus.getLsbD 1 = false) (hcmp : c.mtimecmp = 2 ^ 64 - 1)
    (hlt : c.mtime < 2 ^ 64 - 1) : Masked (.kernel .trapReturn) k c := by
  refine ⟨?_, fun kont hk => .inr ⟨(Mode.kernel.inj hk).symm, hcmp⟩, hlt⟩
  obtain ⟨app, kroot, cx, root, N, D, m₀, m, -, hl, -, hr, -⟩ := (boot_spec hwf b).of_ok hb
  obtain rfl := (Prod.mk.inj hr).2
  intro i hi
  rw [booted_live] at hi
  subst hi
  rw [Kernel.trap, booted_cx hl, booted_mem hl, Mem.storeFrame_self]
  simp only [initTrap]
  rw [Function.update_of_ne (by decide), Function.update_of_ne (by decide),
    Function.update_of_ne (by decide), Function.update_of_ne (by decide), Function.update_self,
    BitVec.getLsbD_and, hsie, Bool.false_and]

theorem step {e : Event cfg} {op : Op} (hwf : cfg.WellFormed) (hi : Inv cfg mode k)
    (h : Masked mode k c) (hclean : CleanStep e mode k) (hs : Stepped mode k e op mode' k') :
    Masked mode' k' (c.after cfg e mode k) := by
  refine ⟨hs.statusMasked hwf hi h.status hclean, fun kont hk => ?_, ?_⟩
  swap
  · rw [Clock.after_mtime]
    exact h.mtime
  subst hk
  obtain hsie | ⟨κ, rfl, hsame⟩ := hs.sie hi
  · exact .inl hsie
  rw [hsame]
  obtain hsie | ⟨rfl, hcmp⟩ := h.closed κ rfl
  · exact .inl hsie
  -- from `trap_return` a step leads to user mode, or is none
  cases hs with
  | idle =>
    have hset : setsTrigger cfg e (.kernel .trapReturn) k = false := by cases e <;> rfl
    rw [Clock.after, hset]
    exact .inr ⟨rfl, hcmp⟩

end Masked

end RiscvOs
