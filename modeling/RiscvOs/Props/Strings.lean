import RiscvOs.Inv.FirstBoot
import RiscvOs.Load.Contents
import RiscvOs.Props.Transparency

/-!
# Strings of the user

`__SYS_PRINTF` and `__SYS_EXEC` translate the pointer to a string once and read on from there in
physical memory.

* **`user_strings_iff`**: that gives the string of the user exactly when its bytes follow one
  another in physical memory too.
* `string_across_pages`: in the first program they do not, from its page 0 to its page 1.
-/

set_option autoImplicit false

namespace RiscvOs

open PageTableEntry

variable {cfg : Config} {k k₁ : Kernel} {uptr : Word} {str : List Byte}

/-! ## What the user reads -/

/-- A load of the user program: through the translation of `satp`, from a readable user page. -/
def userLoad (va : Word) (k : Kernel) : Option Byte :=
  match translate k.mem.ram k.cpu.satp va with
  | none => none
  | some (ppn, pte) =>
    if has pte pteR && has pte pteU then
      some (k.mem.byte (ppn * pageSize + va.toNat % pageSize))
    else none

/-- The user program finds the string, and the `NUL` after it, at the address. -/
structure UserString (k : Kernel) (uptr : Word) (str : List Byte) : Prop where
  noNul : 0 ∉ str
  byte : ∀ o ≤ str.length, userLoad (uptr + BitVec.ofNat 64 o) k = some (str.getD o 0)

/-- A byte the user reads is in a page of the low half. -/
theorem Inv.userLoad_spec (h : Inv cfg .user k) {va : Word} {c : Byte}
    (hl : userLoad va k = some c) :
    ∃ e, translate k.mem.ram k.cpu.satp va = some (ppn e, e) ∧
      lookup k.mem.ram k.cur.pagetable.rootPpn (pageOf va) = some e ∧
      k.mem.byte (ppn e * 4096 + va.toNat % 4096) = c ∧
      ppn e ∈ leaves (lookup k.mem.ram k.cur.pagetable.rootPpn) 0 (k.cur.baseSize / 4096) := by
  have hok := h.mem.task _ h.init
  rw [userLoad] at hl
  cases ht : translate k.mem.ram k.cpu.satp va with
  | none =>
    rw [ht] at hl
    cases hl
  | some r =>
    obtain ⟨p, e⟩ := r
    rw [ht] at hl
    simp only at hl
    split_ifs at hl with hu
    rw [Bool.and_eq_true] at hu
    rw [(h.csrs rfl).satp] at ht
    obtain ⟨he, rfl⟩ := lookup_of_translate hok.space.links (h.mem.root_lt h.init) ht
    refine ⟨e, rfl, he, Option.some.inj hl, ?_⟩
    obtain ⟨-, -, hf⟩ | ⟨-, rfl⟩ | ⟨-, rfl⟩ := h.mem.lookup_cases h.init (pageOf_lt va) he
    · exact hf
    · rw [has_trapPage (h.mem.cx_lt h.init)] at hu
      exact absurd hu.2 (by decide)
    · rw [has_trampolinePage cfg.trampolinePpn_lt] at hu
      exact absurd hu.2 (by decide)

/-! ## What the kernel reads -/

/-- The kernel's output after a printf is what it has read. -/
theorem printf_emits_iff {env : Env cfg} (he : enterTrap cfg ecallCause k = .ok k₁)
    (hh : Handling cfg ecallCause k k₁)
    (hid : SyscallId.ofWord (k.cpu.reg 17) = some .printf) :
    (∃ mode k', step cfg (.trap ecallCause env) (.running .user k) = .running mode k' ∧
      k'.mem.console = .uart str :: k.mem.console) ↔
      callString (moveSepc k₁) (k.cpu.reg 10) = .ok str := by
  have hconsole : (moveSepc k₁).mem.console = k.mem.console := by
    obtain ⟨c, rfl, -⟩ := hh.entered.shape
    rfl
  rw [step_ecall he hh, syscall, hid, callString]
  cases hu : uptrToKptr (moveSepc k₁) (k.cpu.reg 10) with
  | error err =>
    refine iff_of_false ?_ fun h => by cases h
    rintro ⟨mode, k', h, -⟩
    cases h
  | ok pa =>
    change (∃ mode k', Sys.ofExcept (((moveSepc k₁).mem.cstring pa >>= _) >>= _) = _ ∧ _) ↔
      (moveSepc k₁).mem.cstring pa = _
    cases hs : (moveSepc k₁).mem.cstring pa with
    | error err =>
      refine iff_of_false ?_ fun h => by cases h
      rintro ⟨mode, k', h, -⟩
      cases h
    | ok bytes =>
      constructor
      · rintro ⟨mode, k', h, hout⟩
        obtain ⟨-, rfl⟩ := Sys.running.inj h
        rw [Output.uart.inj (List.cons.inj hout).1]
      · intro h
        obtain rfl := Except.ok.inj h
        exact ⟨_, _, rfl, by rw [← hconsole]⟩

/-- The name that an exec looks for: it goes on with the program of that name, and without one it
stops. -/
structure LooksFor (cfg : Config) (env : Env cfg) (path : List Byte) (k : Kernel) (s : Sys) :
    Prop where
  found : ∀ mode k', s = .running mode k' → ∃ a, cfg.find path = some a ∧
    k'.cur = execTask k.cur (a.view env).file k'.cur.pagetable.rootPpn
  missing : cfg.find path = none → ∃ h, s = .halted h

theorem exec_looksFor {env : Env cfg} (hwf : cfg.WellFormed) (h : Inv cfg .user k)
    (he : enterTrap cfg ecallCause k = .ok k₁)
    (hid : SyscallId.ofWord (k.cpu.reg 17) = some .exec) {path : List Byte}
    (hpath : callString (moveSepc k₁) (k.cpu.reg 11) = .ok path) :
    LooksFor cfg env path k (step cfg (.trap ecallCause env) (.running .user k)) := by
  have hh := h.enter he
  have hmem := hh.call_keeps h.mem
  obtain ⟨name, hname, hread⟩ := exists_of_bind_ok hpath
  rw [step_ecall he hh, syscall, hid]
  simp only [hname, hread, ok_bind]
  cases hp : printfLen (moveSepc k₁).mem "exec app_name:%s\n" [.str path]
      (14 + path.length + 1) with
  | error err => exact ⟨fun _ _ hr => (by cases hr), fun _ => ⟨err, rfl⟩⟩
  | ok m =>
    -- the message is all that the memory has got
    have hm : m = (moveSepc k₁).mem.printf "exec app_name:%s\n" [.str path] := by
      rw [printfLen] at hp
      split_ifs at hp
      exact (Except.ok.inj hp).symm
    have hmem' : MemInv cfg { moveSepc k₁ with mem := m } :=
      hm ▸ (hmem.withConsole (.printf "exec app_name:%s\n" [.str path] ::
        (moveSepc k₁).mem.console)).mem
    have hread' : m.cstring name = .ok path := by
      rw [hm]
      have hbytes := Mem.stringAt_iff.mp (Mem.cstring_eq_ok_iff.mp hread)
      exact Mem.cstring_eq_ok_iff.mpr (Mem.stringAt_iff.mpr hbytes)
    simp only [ok_bind]
    cases hs : sysExec cfg env name { moveSepc k₁ with mem := m } with
    | error err => exact ⟨fun _ _ hr => (by cases hr), fun _ => ⟨err, rfl⟩⟩
    | ok k₂ =>
      obtain ⟨path', a, root, N, D, m₁, m₂, hex, rfl⟩ :=
        (sysExec_spec hmem' (live_init hh.live) hwf).of_ok hs
      obtain rfl : path' = path := Except.ok.inj (hex.name.symm.trans hread')
      refine ⟨fun mode k' hr => ⟨a, hex.app, ?_⟩, fun hnone => ?_⟩
      · obtain ⟨-, rfl⟩ := Sys.running.inj hr
        have hcur : (moveSepc k₁).cur = k.cur := hh.call_cur
        have htask : (afterExec { moveSepc k₁ with mem := m } (a.view env).file root m₂).cur =
            execTask (moveSepc k₁).cur (a.view env).file root := setTask_self _ _ _
        rw [htask, hcur]
        rfl
      · have hsome := hex.app
        rw [hnone] at hsome
        cases hsome

/-! ## Strings in place -/

/-- The pages of the string are in frames that follow one another. -/
def Adjacent (k : Kernel) (uptr : Word) (str : List Byte) : Prop :=
  ∃ pa, ∀ o ≤ str.length, ∀ ppn pte,
    translate k.mem.ram k.cpu.satp (uptr + BitVec.ofNat 64 o) = some (ppn, pte) →
      ppn * 4096 + (uptr + BitVec.ofNat 64 o).toNat % 4096 = pa + o

theorem Adjacent.consecutive (h : Inv cfg .user k) (hh : Handling cfg ecallCause k k₁)
    (hstr : UserString k uptr str) (ha : Adjacent k uptr str) :
    Consecutive (moveSepc k₁) uptr str := by
  obtain ⟨pa, hpa⟩ := ha
  have hfirst := hstr.byte 0 (Nat.zero_le _)
  have hzero : uptr + BitVec.ofNat 64 0 = uptr := by simp
  obtain ⟨e, ht, he, -, -⟩ := h.userLoad_spec hfirst
  have hpa₀ := hpa 0 (Nat.zero_le _) _ _ ht
  rw [hzero] at he hpa₀
  refine ⟨e, ?_, fun o ho => ?_⟩
  · rw [hh.call_cur, hh.call_lookup h.mem h.init (pageOf_lt uptr)]
    exact he
  · obtain ⟨e', ht', -, hbyte, hleaf⟩ := h.userLoad_spec (hstr.byte o ho)
    have heq := hpa o ho _ _ ht'
    have hlt : (uptr + BitVec.ofNat 64 o).toNat % 4096 < 4096 := Nat.mod_lt _ (by decide)
    have hown := MemInv.frames_mem h.init (Multiset.mem_add.mpr (.inr hleaf))
    obtain ⟨hge, hltp⟩ := h.mem.frame_mapped hown hlt
    have hbase := cfg.layout
    -- the trap page, which the trap has written, is not one of the user's pages
    have hne : ppn e' ≠ k.cur.cx := by
      intro hcx
      refine h.mem.cx_not_mem_own h.init ?_
      rw [show (k.tasks k.current).cx = ppn e' from hcx.symm]
      exact Multiset.mem_add.mpr (.inl hleaf)
    rw [hpa₀, add_zero, ← heq]
    refine ⟨by omega, hltp, ?_⟩
    rw [← hbyte, Mem.byte_frame _ _ hlt, Mem.byte_frame _ _ hlt, hh.call_ram hne]

/-- **Strings of the user** are read as the user sees them exactly when they are in place in
physical memory as well; they are if their pages are in frames that follow one another. -/
theorem user_strings_iff (hwf : cfg.WellFormed) (hreach : Reachable cfg (.running .user k))
    (he : enterTrap cfg ecallCause k = .ok k₁) (hstr : UserString k uptr str) (env : Env cfg) :
    (SyscallId.ofWord (k.cpu.reg 17) = some .printf → k.cpu.reg 10 = uptr →
      ((∃ mode k', step cfg (.trap ecallCause env) (.running .user k) = .running mode k' ∧
        k'.mem.console = .uart str :: k.mem.console) ↔ Consecutive (moveSepc k₁) uptr str)) ∧
    (SyscallId.ofWord (k.cpu.reg 17) = some .exec → k.cpu.reg 11 = uptr →
      (∀ path, callString (moveSepc k₁) uptr = .ok path →
        LooksFor cfg env path k (step cfg (.trap ecallCause env) (.running .user k))) ∧
      (callString (moveSepc k₁) uptr = .ok str ↔ Consecutive (moveSepc k₁) uptr str)) ∧
    (Adjacent k uptr str → Consecutive (moveSepc k₁) uptr str) := by
  have h := hreach.inv hwf
  have hh := h.enter he
  have hread : callString (moveSepc k₁) uptr = .ok str ↔ Consecutive (moveSepc k₁) uptr str := by
    rw [callString_eq_ok_iff, and_iff_right hstr.noNul]
  refine ⟨fun hid harg => ?_, fun hid harg => ⟨fun path hpath => ?_, hread⟩,
    fun ha => ha.consecutive h hh hstr⟩
  · rw [printf_emits_iff he hh hid, harg, hread]
  · exact exec_looksFor hwf h he hid (harg ▸ hpath)

/-! ## Pages of the first program -/

theorem Inv.userLoad_of_lookup (h : Inv cfg .user k) {va e : Word} (hva : Canonical va)
    (he : lookup k.mem.ram k.cur.pagetable.rootPpn (pageOf va) = some e)
    (hr : has e pteR = true) (hu : has e pteU = true) :
    translate k.mem.ram k.cpu.satp va = some (ppn e, e) ∧
      userLoad va k = some (k.mem.byte (ppn e * 4096 + va.toNat % 4096)) := by
  have ht : translate k.mem.ram k.cpu.satp va = some (ppn e, e) := by
    rw [(h.csrs rfl).satp]
    exact translate_of_lookup (h.mem.task _ h.init).space.links (h.mem.root_lt h.init) hva he
      ⟨.inl hr, .inl hr⟩
  refine ⟨ht, ?_⟩
  rw [userLoad, ht]
  simp only [hr, hu, Bool.and_self, if_true]
  rfl

/-- A page of the segment of the small program. -/
theorem tiny_page {fill : Byte} {k : Kernel} {v : ℕ} (hs : k.sched = initSched)
    (hpages : ∀ v < trapframeVpn,
      k.pages 0 v = imagePages (tinyApp.view (tinyStart fill).toEnv).file v) (hv : v < 2) :
    ∃ e, lookup k.mem.ram k.cur.pagetable.rootPpn v = some e ∧
      flags e = pteV ||| (pteR ||| pteW ||| pteX ||| pteU) ∧
      k.mem.ram (ppn e) = pageAt (tinyApp.view (tinyStart fill).toEnv).file (120 + v * 4096) := by
  have htop : 2 ≤ trapframeVpn := by decide
  have hpage := (hpages v (by omega)).trans (tiny_imagePages _ hv)
  obtain ⟨e, he, hp⟩ := Option.map_eq_some_iff.mp hpage
  have hcur : k.current = 0 := congrArg Sched.current hs
  refine ⟨e, ?_, (Prod.mk.inj hp).1, (Prod.mk.inj hp).2⟩
  rw [Kernel.cur, hcur]
  exact he

/-- Addresses in one page of the lower half. -/
theorem address_inPage {va : Word} {o : ℕ} (hva : va.toNat < 2 ^ 38)
    (hin : va.toNat % 4096 + o < 4096) :
    Canonical (va + BitVec.ofNat 64 o) ∧ pageOf (va + BitVec.ofNat 64 o) = pageOf va ∧
      (va + BitVec.ofNat 64 o).toNat % 4096 = va.toNat % 4096 + o := by
  have hadd : (va + BitVec.ofNat 64 o).toNat = va.toNat + o := by
    rw [BitVec.toNat_add, BitVec.toNat_ofNat]
    omega
  refine ⟨canonical_of_lt (by omega), ?_, by omega⟩
  rw [pageOf, pageOf, hadd]
  omega

/-- A string in one page of the lower half is in place. -/
theorem Inv.string_inPage (h : Inv cfg .user k) {e : Word} (hva : uptr.toNat < 2 ^ 38)
    (hin : uptr.toNat % 4096 + str.length < 4096)
    (he : lookup k.mem.ram k.cur.pagetable.rootPpn (pageOf uptr) = some e)
    (hr : has e pteR = true) (hu : has e pteU = true) (hnul : 0 ∉ str)
    (hbyte : ∀ o ≤ str.length,
      k.mem.byte (ppn e * 4096 + (uptr.toNat % 4096 + o)) = str.getD o 0) :
    UserString k uptr str ∧ Adjacent k uptr str := by
  have hload : ∀ o ≤ str.length,
      translate k.mem.ram k.cpu.satp (uptr + BitVec.ofNat 64 o) = some (ppn e, e) ∧
      userLoad (uptr + BitVec.ofNat 64 o) k =
        some (k.mem.byte (ppn e * 4096 + (uptr.toNat % 4096 + o))) := by
    intro o ho
    obtain ⟨hcan, hpage, hoff⟩ := address_inPage hva (show uptr.toNat % 4096 + o < 4096 by omega)
    rw [← hoff]
    exact h.userLoad_of_lookup hcan (by rw [hpage]; exact he) hr hu
  refine ⟨⟨hnul, fun o ho => ?_⟩, ppn e * 4096 + uptr.toNat % 4096, fun o ho ppn' pte ht => ?_⟩
  · rw [(hload o ho).2, hbyte o ho]
  · obtain ⟨rfl, -⟩ := Prod.mk.inj (Option.some.inj ((hload o ho).1.symm.trans ht))
    rw [(address_inPage hva (show uptr.toNat % 4096 + o < 4096 by omega)).2.2, add_assoc]

/-- The first program finds its name at address 0. -/
theorem tiny_name {fill : Byte} {k : Kernel} (hs : k.sched = initSched)
    (hpages : ∀ v < trapframeVpn,
      k.pages 0 v = imagePages (tinyApp.view (tinyStart fill).toEnv).file v) :
    ∃ e, lookup k.mem.ram k.cur.pagetable.rootPpn 0 = some e ∧ has e pteR = true ∧
      has e pteU = true ∧ ∀ o ≤ 4, k.mem.byte (ppn e * 4096 + o) = tinyApp.name.getD o 0 := by
  obtain ⟨e, he, hfl, hram⟩ := tiny_page (v := 0) hs hpages (by decide)
  have hname : ∀ o ≤ 4, tinyApp.file (120 + o) = tinyApp.name.getD o 0 := by decide
  have hhas : has e pteR = true ∧ has e pteU = true := by
    simp only [has, hfl]
    decide
  refine ⟨e, he, hhas.1, hhas.2, fun o ho => ?_⟩
  rw [Mem.byte_frame _ _ (by omega), hram, frameByte_pageAt _ (by omega), ← hname o ho]
  exact App.view_file tinyApp_mem _ (by rw [tinyApp_length]; omega)

/-- The rest of that name is a string of its own. -/
theorem name_inPlace (h : Inv cfg .user k) {e : Word}
    (he : lookup k.mem.ram k.cur.pagetable.rootPpn 0 = some e) (hr : has e pteR = true)
    (hu : has e pteU = true)
    (hbyte : ∀ o ≤ 4, k.mem.byte (ppn e * 4096 + o) = tinyApp.name.getD o 0) :
    UserString k 1 [0x6e, 0x69, 0x74] ∧ Adjacent k 1 [0x6e, 0x69, 0x74] := by
  refine h.string_inPage (by decide) (by decide) he hr hu (by decide) fun o ho => ?_
  have hoff : (1 : Word).toNat % 4096 + o = o + 1 := Nat.add_comm 1 o
  rw [hoff, hbyte (o + 1) (Nat.succ_le_succ ho)]
  rfl

/-- The rest of its name, which the first program finds at address 1. -/
theorem user_strings_iff_name : ∃ k k' : Kernel, ∃ mode, Reachable tiny (.running .user k) ∧
    UserString k 1 [0x6e, 0x69, 0x74] ∧
    step tiny (.trap ecallCause (tinyEnv (-1) 0)) (.running .user k) = .running mode k' ∧
    k'.mem.console = .uart [0x6e, 0x69, 0x74] :: k.mem.console := by
  obtain ⟨es, k, hrun, h, hs, hpages⟩ := tiny_first 0
  have hreach : Reachable tiny (.running .user
      { k with cpu := { k.cpu with x := callRegs 1, pc := 0 } }) := by
    refine ⟨tinyStart 0, es ++ [.compute (callRegs 1) 0], ?_⟩
    rw [run_append, hrun]
    rfl
  have hk := h.compute tiny_wf (callRegs 1) 0
  obtain ⟨k₁, he₁, -⟩ := enterTrap_of_ready hk.toInv hk.ready ecallCause
  obtain ⟨e, he, hr, hu, hbyte⟩ := tiny_name hs hpages
  obtain ⟨hstr, hadj⟩ := name_inPlace hk.toInv he hr hu hbyte
  obtain ⟨hprintf, -, hin⟩ := user_strings_iff tiny_wf hreach he₁ hstr (tinyEnv (-1) 0)
  obtain ⟨mode, k', hstep, hout⟩ := (hprintf rfl rfl).mpr (hin hadj)
  exact ⟨_, k', mode, hreach, hstr, hstep, hout⟩

/-! ## A string across two pages -/

theorem Health.store {n s : ℕ} (hwf : cfg.WellFormed) (h : Health cfg .user k n s) (va : Word)
    (b : Byte) : Health cfg .user (userStore va b k) n s := by
  have hstep : step cfg (.store va b) (.running .user k) = .running .user (userStore va b k) := rfl
  obtain he | ⟨f, c, -, he⟩ := userStore_spec h.mem h.init (h.csrs rfl).satp va b
  · rw [he]
    exact h
  · rw [he] at hstep ⊢
    have hclean : CleanStep (.store va b : Event cfg) .user k := fun d hd => by cases hd
    exact h.stepped hwf hclean hstep (fun _ hi => absurd rfl (hi rfl))
      (fun _ hl hn => absurd hl hn) h.free h.size

/-- A store of the user to one of its pages: a byte has changed, and no table. -/
theorem Inv.userStore_of_lookup (h : Inv cfg .user k) {va e : Word} (hva : Canonical va)
    (he : lookup k.mem.ram k.cur.pagetable.rootPpn (pageOf va) = some e)
    (hr : has e pteR = true) (hw : has e pteW = true) (hu : has e pteU = true) (b : Byte) :
    userStore va b k = { k with mem := k.mem.storeByte (ppn e * 4096 + va.toNat % 4096) b } ∧
      Extends k.mem (userStore va b k).mem k.cur.pagetable.rootPpn := by
  have ht := (h.userLoad_of_lookup hva he hr hu).1
  refine ⟨?_, ?_⟩
  · rw [userStore, ht]
    simp only [hw, hu, Bool.and_self, if_true]
    rfl
  · obtain hsame | ⟨f, c, hf, hstore⟩ := userStore_spec h.mem h.init (h.csrs rfl).satp va b
    · rw [hsame]
      exact .of_agree fun _ _ => rfl
    · rw [hstore]
      refine .of_agree fun g hg => Mem.storeFrame_of_ne (fun hgf => ?_) c
      exact h.mem.leaf_not_mem_table h.init hf (hgf ▸ hg)

/-- What the kernel reads after the last byte of a page with its table behind it. -/
theorem Behind.byte_ne_zero {m : Mem} {root : ℕ} {e : Word} (h : Behind m.ram root 0)
    (he : lookup m.ram root 0 = some e) : m.byte (ppn e * 4096 + 4096) ≠ 0 := by
  obtain ⟨e', he', hlt, hroot⟩ := h
  obtain rfl := Option.some.inj (he'.symm.trans he)
  have hvalid : isValid (m.ram root (getPageOffset 0).1) = true := by
    rw [hroot]
    exact valid_new hlt
  -- the walk of page 0 goes through entry 0 of that table
  obtain ⟨q, hw, -, -⟩ := Radix.get_eq_some_iff.mp he
  rw [show (getPageOffset 0).2 = [0, 0] from rfl, Radix.walk_cons_of_valid hvalid, hroot,
    show pteFormat.child (new (ppn e' + 1) pteV) = ppn e' + 1 from ppn_new hlt _, Radix.walk] at hw
  split_ifs at hw with hv
  have hbyte : m.byte (ppn e' * 4096 + 4096) = flags (m.ram (ppn e' + 1) 0) := by
    rw [← Nat.succ_mul, ← Nat.add_zero (Nat.succ (ppn e') * 4096), Mem.byte_frame _ _ (by decide)]
    rfl
  rw [hbyte]
  intro hzero
  have hbit : isValid (m.ram (ppn e' + 1) 0) = true := hv
  rw [isValid, hzero] at hbit
  exact absurd hbit (by decide)

/-- The first program prints a string of one byte, the last of its page 0; the `NUL` is the first
byte of its page 1. -/
theorem string_across_pages : ∃ k k₁ : Kernel, Reachable tiny (.running .user k) ∧
    enterTrap tiny ecallCause k = .ok k₁ ∧ UserString k 4095 [0x58] ∧
    SyscallId.ofWord (k.cpu.reg 17) = some .printf ∧ k.cpu.reg 10 = 4095 ∧
    ¬∃ mode k', step tiny (.trap ecallCause (tinyEnv (-1) 0)) (.running .user k) =
      .running mode k' ∧ k'.mem.console = .uart [0x58] :: k.mem.console := by
  obtain ⟨es, k, hrun, h, hs, hpages, hbehind⟩ := tiny_first_behind 0
  have hcur : k.current = 0 := congrArg Sched.current hs
  obtain ⟨e₀, he₀, hfl₀, -⟩ := tiny_page (v := 0) hs hpages (by decide)
  obtain ⟨e₁, he₁, hfl₁, -⟩ := tiny_page (v := 1) hs hpages (by decide)
  have hhas : ∀ e : Word, flags e = pteV ||| (pteR ||| pteW ||| pteX ||| pteU) →
      has e pteR = true ∧ has e pteW = true ∧ has e pteU = true := by
    intro e he
    simp only [has, he]
    decide
  obtain ⟨hr₀, hw₀, hu₀⟩ := hhas e₀ hfl₀
  obtain ⟨hr₁, hw₁, hu₁⟩ := hhas e₁ hfl₁
  have hcan : Canonical 4095 ∧ Canonical 4096 := by
    unfold Canonical
    decide
  -- the two stores
  obtain ⟨hst₁, hext₁⟩ := h.toInv.userStore_of_lookup hcan.1 he₀ hr₀ hw₀ hu₀ 0x58
  have h₁ := h.store tiny_wf 4095 0x58
  generalize hk₁ : userStore 4095 0x58 k = k₁ at hst₁ hext₁ h₁
  have hcur₁ : k₁.cur = k.cur := by
    rw [hst₁]
    rfl
  have he₁' : lookup k₁.mem.ram k₁.cur.pagetable.rootPpn (pageOf 4096) = some e₁ := by
    rw [hcur₁]
    exact hext₁.lookup he₁
  obtain ⟨hst₂, hext₂⟩ := h₁.toInv.userStore_of_lookup hcan.2 he₁' hr₁ hw₁ hu₁ 0
  have h₂ := h₁.store tiny_wf 4096 0
  generalize hk₂ : userStore 4096 0 k₁ = k₂ at hst₂ hext₂ h₂
  have hcur₂ : k₂.cur = k.cur := by
    rw [hst₂]
    exact hcur₁
  rw [hcur₁] at hext₂
  have hext := hext₁.trans hext₂
  -- the call
  let regs : Fin 32 → Word := fun r => if r = 17 then 1 else 4095
  have h₃ := h₂.compute tiny_wf regs 0
  have hreach : Reachable tiny (.running .user
      { k₂ with cpu := { k₂.cpu with x := regs, pc := 0 } }) := by
    refine ⟨tinyStart 0, es ++ [.store 4095 0x58, .store 4096 0, .compute regs 0], ?_⟩
    rw [run_append, hrun, ← hk₂, ← hk₁]
    rfl
  obtain ⟨k₃, he₃, hh⟩ := enterTrap_of_ready h₃.toInv h₃.ready ecallCause
  have hl₀ : lookup k₂.mem.ram k₂.cur.pagetable.rootPpn 0 = some e₀ := by
    rw [hcur₂]
    exact hext.lookup he₀
  have hl₁ : lookup k₂.mem.ram k₂.cur.pagetable.rootPpn 1 = some e₁ := by
    rw [hcur₂]
    exact hext.lookup he₁
  have hbehind₂ : Behind k₂.mem.ram k.cur.pagetable.rootPpn 0 := by
    refine hext.behind ?_
    rw [Kernel.cur, hcur]
    exact hbehind
  refine ⟨_, k₃, hreach, he₃, ⟨by decide, fun o ho => ?_⟩, rfl, rfl, ?_⟩
  · -- the bytes the user has stored
    have hne : ppn e₀ * 4096 + 4095 ≠ ppn e₁ * 4096 + 0 := by omega
    have hmem : k₂.mem = (k.mem.storeByte (ppn e₀ * 4096 + 4095) 0x58).storeByte
        (ppn e₁ * 4096 + 0) 0 := by
      rw [hst₂, hst₁]
      rfl
    have ho' : o = 0 ∨ o = 1 := by
      have : o ≤ 1 := ho
      omega
    obtain rfl | rfl := ho'
    · have hload := (h₃.toInv.userLoad_of_lookup hcan.1 hl₀ hr₀ hu₀).2
      refine hload.trans (congrArg some ?_)
      change k₂.mem.byte (ppn e₀ * 4096 + 4095) = 0x58
      rw [hmem, Mem.byte_storeByte, if_neg hne, Mem.byte_storeByte, if_pos rfl]
    · have hload := (h₃.toInv.userLoad_of_lookup hcan.2 hl₁ hr₁ hu₁).2
      refine hload.trans (congrArg some ?_)
      change k₂.mem.byte (ppn e₁ * 4096 + 0) = 0
      rw [hmem, Mem.byte_storeByte, if_pos rfl]
  · rw [printf_emits_iff he₃ hh rfl]
    change ¬callString (moveSepc k₃) 4095 = .ok [0x58]
    rw [callString_eq_ok_iff]
    rintro ⟨-, e, he, hbytes⟩
    have hpage : pageOf 4095 = 0 := by decide
    rw [hh.call_cur, hpage] at he
    have hcall := hh.call_lookup h₃.mem h₃.init (v := 0) (by decide)
    obtain rfl : e₀ = e := Option.some.inj ((hcall.trans hl₀).symm.trans he)
    -- the table is as it was before the trap
    have hbehind₃ : Behind (moveSepc k₃).mem.ram k₂.cur.pagetable.rootPpn 0 := by
      rw [hcur₂]
      refine (Extends.of_agree fun g hg => hh.call_ram fun hcx => ?_).behind hbehind₂
      have hmem : g ∈ tableFrames k₂.mem.ram k₂.cur.pagetable.rootPpn := by
        rw [hcur₂]
        exact hg
      exact h₃.mem.cx_not_mem_table h₃.init (hcx ▸ hmem)
    exact hbehind₃.byte_ne_zero he (hbytes 1 le_rfl).2.2

end RiscvOs
