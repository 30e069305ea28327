import RiscvOs.Kernel.Access
import RiscvOs.Props.Strings

/-!
# User pointers

The kernel translates the pointers of `__SYS_PRINTF`, `__SYS_GET_CHAR__` and `__SYS_EXEC` through
the table of the caller, without a look at the permissions or at the bits above the page number, and
reads on from there in physical memory.

* `UserByte`, `Access.Allowed`: the bytes the user could access.
* **`user_pointers_iff`**: the accesses of a step are to such bytes exactly when the pointer is to
  one, and the string it is to lies in such bytes, its `NUL` included, in frames that follow one
  another.
* `overwrites_kernel_sp`: a program may have its own kernel stack pointer overwritten.
-/

set_option autoImplicit false

namespace RiscvOs

open PageTableEntry

variable {cfg : Config} {mode : Mode} {k k₁ : Kernel} {uptr : Word}

/-! ## Permissions -/

/-- The byte at `pa` is the one the user has at the canonical address `va`: the table of the caller
maps the page for the user, writable if it is to be stored to, to that frame. -/
def UserByte (k : Kernel) (store : Bool) (va : Word) (pa : ℕ) : Prop :=
  Canonical va ∧ ∃ e, lookup k.mem.ram k.cur.pagetable.rootPpn (pageOf va) = some e ∧
    has e pteU = true ∧ (store = true → has e pteW = true) ∧
    pa = ppn e * 4096 + va.toNat % 4096

/-- An access the user could make. -/
def Access.Allowed (k : Kernel) : Access → Prop
  | .null _ => False
  | .load va pa => UserByte k false va pa
  | .store va pa => UserByte k true va pa

/-- What the kernel does with a pointer stays in bytes of the user: a store is to one byte, a string
goes up to its `NUL`. -/
def StaysInside (k : Kernel) (uptr : Word) : Bool → Prop
  | true => ∃ pa, UserByte k true uptr pa
  | false => ∃ pa n, k.mem.byte (pa + n) = 0 ∧
      ∀ i ≤ n, UserByte k false (uptr + BitVec.ofNat 64 i) (pa + i)

/-- The bytes of the user are in frames that the kernel maps and the trap does not write. -/
theorem Inv.userByte_spec (h : Inv cfg mode k) {store : Bool} {va : Word} {pa : ℕ}
    (hb : UserByte k store va pa) : kernbase ≤ pa ∧ pa < phystop ∧ pa / 4096 ≠ k.cur.cx := by
  obtain ⟨-, e, he, hu, -, rfl⟩ := hb
  have hlt : va.toNat % 4096 < 4096 := Nat.mod_lt _ (by decide)
  have hleaf : ppn e ∈ leaves (lookup k.mem.ram k.cur.pagetable.rootPpn) 0
      (k.cur.baseSize / 4096) := by
    obtain ⟨-, -, hf⟩ | ⟨-, rfl⟩ | ⟨-, rfl⟩ := h.mem.lookup_cases h.init (pageOf_lt va) he
    · exact hf
    · rw [has_trapPage (h.mem.cx_lt h.init)] at hu
      cases hu
    · rw [has_trampolinePage cfg.trampolinePpn_lt] at hu
      cases hu
  have hown := MemInv.frames_mem h.init (Multiset.mem_add.mpr (.inr hleaf))
  obtain ⟨hge, hltp⟩ := h.mem.frame_mapped hown hlt
  have hbase := cfg.layout
  refine ⟨by omega, hltp, fun hcx => h.mem.cx_not_mem_own h.init ?_⟩
  rw [show (ppn e * 4096 + va.toNat % 4096) / 4096 = ppn e by omega] at hcx
  rw [show (k.tasks k.current).cx = ppn e from hcx.symm]
  exact Multiset.mem_add.mpr (.inl hleaf)

/-- The pointer that a system call translates, and whether it stores there. -/
def callPointer (env : Env cfg) (call : Option SyscallId) (arg1 arg2 : Word) :
    Option (Word × Bool) :=
  match call with
  | some .printf => some (arg1, false)
  | some .getChar => if arg1 = stdin ∧ env.console ≠ -1 then some (arg2, true) else none
  | some .exec => some (arg2, false)
  | _ => none

/-- The pointer that a step translates: in a system call, or in a turn of the loop of
`__sys_getchar`. -/
def userPointer (e : Event cfg) (mode : Mode) (k : Kernel) : Option (Word × Bool) :=
  match mode, e with
  | .user, .trap scause env =>
    callPointer env (callOf cfg scause k) (k.cpu.reg 10) (k.cpu.reg 11)
  | .kernel (.sysGetchar _ data), .resume env =>
    if env.console ≠ -1 then some (data, true) else none
  | _, _ => none

/-! ## The accesses of a call -/

theorem uptrToKptr_cases (k : Kernel) (uptr : Word) :
    (lookup k.mem.ram k.cur.pagetable.rootPpn (pageOf uptr) = none ∧
      Logged.uptrToKptr k uptr = ⟨[.null uptr], .error .fault⟩) ∨
    ∃ e, lookup k.mem.ram k.cur.pagetable.rootPpn (pageOf uptr) = some e ∧
      Logged.uptrToKptr k uptr = ⟨[], .ok (ppn e * 4096 + uptr.toNat % 4096)⟩ := by
  unfold Logged.uptrToKptr
  cases hp : findPte k.mem.ram k.cur.pagetable
      (virtPageNumFromVirtAddr (virtAddrFromSizeT uptr.toNat)) with
  | none => exact .inl ⟨findPte_eq_none hp, rfl⟩
  | some pte =>
    refine .inr ⟨_, (findPte_eq_some hp).2, ?_⟩
    simp only [ptePa]
    norm_num
    rfl

/-- `uptr_to_kptr` in a system call. -/
theorem Handling.call_uptr {scause : Word} (hh : Handling cfg scause k k₁) (h : MemInv cfg k)
    (hi : k.cur.taskState ≠ .unInit) {e : Word}
    (he : lookup k.mem.ram k.cur.pagetable.rootPpn (pageOf uptr) = some e) :
    Logged.uptrToKptr (moveSepc k₁) uptr = ⟨[], .ok (ppn e * 4096 + uptr.toNat % 4096)⟩ := by
  have hl := hh.call_lookup h hi (pageOf_lt uptr)
  obtain ⟨hn, -⟩ | ⟨e', he', hu⟩ := uptrToKptr_cases (moveSepc k₁) uptr
  · rw [hh.call_cur, hl, he] at hn
    cases hn
  · rw [hh.call_cur, hl, he] at he'
    rw [hu, Option.some.inj he']

theorem cstringFrom_log (m : Mem) (fuel : ℕ) (va : Word) (pa : ℕ) :
    (Logged.cstringFrom m (fuel + 1) va pa).log = .load va pa ::
      if (pa < kernbase ∨ phystop ≤ pa) ∨ m.byte pa = 0 then []
      else (Logged.cstringFrom m fuel (va + 1) (pa + 1)).log := by
  rw [Logged.cstringFrom, Traced.log_bind, Traced.log_tell, Traced.result_tell]
  refine congrArg (Access.load va pa :: ·) ?_
  by_cases hout : pa < kernbase ∨ phystop ≤ pa
  · rw [if_pos hout, if_pos (.inl hout)]
    rfl
  · by_cases hb : m.byte pa = 0
    · rw [if_neg hout, if_pos hb, if_pos (.inr hb)]
      rfl
    · rw [if_neg hout, if_neg hb, if_neg (not_or.mpr ⟨hout, hb⟩), Traced.log_bind_lift]
      rfl

/-- **The accesses of a string** all meet a condition exactly if those up to a `NUL` do, for a
condition that no access outside the memory meets. -/
theorem cstringFrom_log_iff {P : Access → Prop}
    (hP : ∀ va pa, P (.load va pa) → kernbase ≤ pa ∧ pa < phystop) (m : Mem) (fuel : ℕ) (va : Word)
    (pa : ℕ) (hfuel : phystop ≤ pa + fuel) :
    (∀ a ∈ (Logged.cstringFrom m (fuel + 1) va pa).log, P a) ↔
      ∃ n, m.byte (pa + n) = 0 ∧ ∀ i ≤ n, P (.load (va + BitVec.ofNat 64 i) (pa + i)) := by
  induction fuel generalizing va pa with
  | zero =>
    rw [cstringFrom_log, if_pos (.inl (.inr hfuel)), List.forall_mem_singleton]
    refine iff_of_false (fun hp => ?_) ?_
    · exact absurd (hP va pa hp).2 (Nat.not_lt.mpr hfuel)
    · rintro ⟨n, -, hall⟩
      exact absurd (hP _ _ (hall 0 (Nat.zero_le n))).2 (Nat.not_lt.mpr hfuel)
  | succ fuel ih =>
    have hzero : P (.load (va + BitVec.ofNat 64 0) (pa + 0)) ↔ P (.load va pa) := by
      rw [show va + BitVec.ofNat 64 0 = va from BitVec.add_zero va, Nat.add_zero]
    rw [cstringFrom_log]
    by_cases hend : (pa < kernbase ∨ phystop ≤ pa) ∨ m.byte pa = 0
    · rw [if_pos hend, List.forall_mem_singleton]
      constructor
      · intro hp
        have hrange := hP va pa hp
        have hb : m.byte pa = 0 := hend.resolve_left (by omega)
        refine ⟨0, hb, fun i hi => ?_⟩
        obtain rfl := Nat.le_zero.mp hi
        exact hzero.mpr hp
      · rintro ⟨n, -, hall⟩
        exact hzero.mp (hall 0 (Nat.zero_le n))
    · -- the next byte is read
      have hnext : ∀ i, va + 1 + BitVec.ofNat 64 i = va + BitVec.ofNat 64 (i + 1) := fun i => by
        rw [BitVec.add_assoc, BitVec.add_comm 1, ← BitVec.ofNat_add_ofNat]
        rfl
      rw [if_neg hend, List.forall_mem_cons, ih (va + 1) (pa + 1) (by omega)]
      constructor
      · rintro ⟨hp, n, hb, hall⟩
        refine ⟨n + 1, by rwa [Nat.add_comm n, ← Nat.add_assoc], fun i hi => ?_⟩
        cases i with
        | zero => exact hzero.mpr hp
        | succ i =>
          rw [← hnext, Nat.add_comm i, ← Nat.add_assoc]
          exact hall i (Nat.le_of_succ_le_succ hi)
      · rintro ⟨n, hb, hall⟩
        refine ⟨hzero.mp (hall 0 (Nat.zero_le n)), ?_⟩
        cases n with
        | zero => exact absurd (.inr hb) hend
        | succ n =>
          refine ⟨n, by rwa [Nat.add_assoc, Nat.add_comm 1], fun i hi => ?_⟩
          rw [hnext, Nat.add_assoc, Nat.add_comm 1]
          exact hall (i + 1) (Nat.succ_le_succ hi)

/-- The caller is in the state `k₀`, the call in the state `k`: the table and the bytes of the user
are the same. -/
structure Serves (k₀ k : Kernel) : Prop where
  lookup : ∀ uptr, lookup k.mem.ram k.cur.pagetable.rootPpn (pageOf uptr) =
    RiscvOs.lookup k₀.mem.ram k₀.cur.pagetable.rootPpn (pageOf uptr)
  range : ∀ va pa, UserByte k₀ false va pa → kernbase ≤ pa ∧ pa < phystop
  byte : ∀ va pa, UserByte k₀ false va pa → k.mem.byte pa = k₀.mem.byte pa

section Translate

variable {α : Type} {k₀ : Kernel} (hs : Serves k₀ k)

include hs

/-- The accesses of a call that reads a string. -/
theorem read_allowed_iff (g : ℕ → List Byte → Except Halt α) :
    (∀ a ∈ (Logged.uptrToKptr k uptr >>= fun str =>
      Logged.cstring uptr k.mem str >>= fun bytes => Traced.lift (g str bytes)).log,
        a.Allowed k₀) ↔ StaysInside k₀ uptr false := by
  have hzero : uptr + BitVec.ofNat 64 0 = uptr := BitVec.add_zero uptr
  obtain ⟨hn, hu⟩ | ⟨e, he, hu⟩ := uptrToKptr_cases k uptr
  · rw [Traced.log_bind, hu]
    refine iff_of_false (fun h => h _ (List.mem_singleton_self _)) ?_
    rintro ⟨pa, n, -, hall⟩
    obtain ⟨-, e, he, -⟩ := hall 0 (Nat.zero_le n)
    rw [hzero, ← hs.lookup, hn] at he
    cases he
  · rw [Traced.log_bind, hu]
    simp only [List.nil_append, Traced.log_bind_lift]
    rw [Logged.cstring, cstringFrom_log_iff (P := Access.Allowed k₀) hs.range _ _ _ _ (by omega)]
    constructor
    · rintro ⟨n, hb, hall⟩
      exact ⟨_, n, (hs.byte _ _ (hall n le_rfl)).symm.trans hb, hall⟩
    · rintro ⟨pa, n, hb, hall⟩
      obtain ⟨-, e', he', -, -, hpa⟩ := hall 0 (Nat.zero_le n)
      rw [hzero, ← hs.lookup, he] at he'
      obtain rfl := Option.some.inj he'
      rw [hzero, Nat.add_zero] at hpa
      subst hpa
      exact ⟨n, (hs.byte _ _ (hall n le_rfl)).trans hb, hall⟩

/-- The accesses of `__sys_getchar` once a character is there. -/
theorem getchar_allowed_iff {env : Env cfg} {cx : ℕ} (hc : env.console ≠ -1) :
    (∀ a ∈ (Logged.sysGetcharLoop cfg env cx uptr k).log, a.Allowed k₀) ↔
      StaysInside k₀ uptr true := by
  rw [Logged.sysGetcharLoop, if_neg hc]
  obtain ⟨hn, hu⟩ | ⟨e, he, hu⟩ := uptrToKptr_cases k uptr
  · rw [Traced.log_bind, hu]
    refine iff_of_false (fun h => h _ (List.mem_singleton_self _)) ?_
    rintro ⟨pa, -, e, he, -⟩
    rw [← hs.lookup, hn] at he
    cases he
  · have hlog : (Logged.kernelStoreByte cfg uptr (ppn e * 4096 + uptr.toNat % 4096)
        (env.console.setWidth 8) k).log = [.store uptr (ppn e * 4096 + uptr.toNat % 4096)] := rfl
    rw [Traced.log_bind, hu]
    simp only [List.nil_append, Traced.log_bind_lift, hlog, List.forall_mem_singleton]
    refine ⟨fun h => ⟨_, h⟩, ?_⟩
    rintro ⟨pa, hcan, e', he', hu', hw', rfl⟩
    rw [← hs.lookup, he] at he'
    obtain rfl := Option.some.inj he'
    exact ⟨hcan, e, (hs.lookup uptr).symm.trans he, hu', hw', rfl⟩

end Translate

theorem Serves.refl (h : Inv cfg mode k) : Serves k k :=
  ⟨fun _ => rfl, fun _ _ hb => ⟨(h.userByte_spec hb).1, (h.userByte_spec hb).2.1⟩,
    fun _ _ _ => rfl⟩

/-- The state in which `__SYSCALL` is called. -/
theorem Handling.serves {scause : Word} (hh : Handling cfg scause k k₁) (h : Inv cfg .user k) :
    Serves k (moveSepc k₁) := by
  refine ⟨fun uptr => ?_, (Serves.refl h).range, fun va pa hb => ?_⟩
  · rw [hh.call_cur]
    exact hh.call_lookup h.mem h.init (pageOf_lt uptr)
  · rw [Mem.byte, Mem.byte, pageSize_eq, hh.call_ram (h.userByte_spec hb).2.2]

theorem forall_pointer_iff {u : Word} {b : Bool} {P : Word → Bool → Prop} :
    (∀ uptr store, (some (u, b) : Option (Word × Bool)) = some (uptr, store) → P uptr store) ↔
      P u b := by
  constructor
  · exact fun h => h u b rfl
  · rintro h _ _ ⟨⟩
    exact h

/-- The accesses of a system call. -/
theorem syscall_allowed_iff {k₀ : Kernel} {env : Env cfg} {cx : ℕ} {id arg1 arg2 : Word}
    (hs : Serves k₀ k) :
    (∀ a ∈ (Logged.syscall cfg env cx id arg1 arg2 k).log, a.Allowed k₀) ↔
      ∀ uptr store, callPointer env (SyscallId.ofWord id) arg1 arg2 = some (uptr, store) →
        StaysInside k₀ uptr store := by
  unfold Logged.syscall
  split
  · next hid =>
    rw [hid, callPointer, forall_pointer_iff]
    exact read_allowed_iff hs _
  · next hid =>
    rw [hid, callPointer, Logged.sysGetchar]
    by_cases hfd : arg1 = stdin
    · by_cases hc : env.console = -1
      · rw [if_pos hfd, Logged.sysGetcharLoop, if_pos hc, if_neg fun h => h.2 hc]
        exact iff_of_true (fun a ha => absurd ha List.not_mem_nil) fun _ _ h => by cases h
      · rw [if_pos hfd, if_pos ⟨hfd, hc⟩, forall_pointer_iff]
        exact getchar_allowed_iff hs hc
    · rw [if_neg hfd, if_neg fun h => hfd h.1]
      exact iff_of_true (fun a ha => absurd ha List.not_mem_nil) fun _ _ h => by cases h
  · next hid =>
    rw [hid, callPointer, forall_pointer_iff]
    exact read_allowed_iff hs _
  · next hp hg hx =>
    have hnone : callPointer env (SyscallId.ofWord id) arg1 arg2 = none := by
      unfold callPointer
      split <;> simp_all
    rw [hnone]
    exact iff_of_true (fun a ha => absurd ha List.not_mem_nil) fun _ _ h => by cases h

/-! ## The accesses of a step -/

theorem takeTrap_log {scause : Word} {env : Env cfg} (he : enterTrap cfg scause k = .ok k₁) :
    (Logged.takeTrap cfg scause env k).log = (Logged.trapHandler cfg env k₁).log := by
  rw [Logged.takeTrap, Traced.log_lift_bind, he]
  exact Traced.log_bind_lift _ _

/-- **The kernel follows a user pointer** to bytes that the user could access itself, if and only if
the pointer is canonical, to a page mapped for the user, for `getchar` a writable one, and a string
stays in such pages, in frames that follow one another, up to its `NUL`. -/
theorem user_pointers_iff (hwf : cfg.WellFormed) (hreach : Reachable cfg (.running mode k))
    (e : Event cfg) :
    (∀ a ∈ (Logged.step cfg e (.running mode k)).1, a.Allowed k) ↔
      ∀ uptr store, userPointer e mode k = some (uptr, store) → StaysInside k uptr store := by
  have h := hreach.inv hwf
  have hnil : (∀ a ∈ ([] : List Access), a.Allowed k) := fun a ha => absurd ha List.not_mem_nil
  unfold Logged.step userPointer
  split
  · next k' scause env heq =>
    obtain ⟨rfl, rfl⟩ := Sys.running.inj heq
    change _ ↔ ∀ uptr store, callPointer env (callOf cfg scause k) _ _ = some (uptr, store) → _
    cases he : enterTrap cfg scause k with
    | error err =>
      rw [Logged.takeTrap, Traced.log_lift_bind, callOf, he]
      exact iff_of_true hnil fun _ _ h => by cases h
    | ok k₁ =>
      have hh := h.enter he
      rw [takeTrap_log he, Logged.trapHandler, callOf, he]
      simp only
      split_ifs with hc
      · rw [hh.arg (by decide), hh.arg (by decide), hh.arg (by decide)]
        exact syscall_allowed_iff (hh.serves h)
      · exact iff_of_true hnil fun _ _ h => by cases h
  · next kont k' env heq =>
    obtain ⟨rfl, rfl⟩ := Sys.running.inj heq
    unfold Logged.runKont
    split
    · next cx data =>
      rw [Traced.log_bind_lift]
      simp only
      by_cases hc : env.console = -1
      · rw [Logged.sysGetcharLoop, if_pos hc, if_neg fun h => h hc]
        exact iff_of_true hnil fun _ _ h => by cases h
      · rw [if_pos hc, forall_pointer_iff]
        exact getchar_allowed_iff (.refl h) hc
    · next hk =>
      refine iff_of_true hnil fun _ _ hp => ?_
      split at hp
      · next heq' => cases heq'
      · next cx data _ heq' _ => exact absurd (Mode.kernel.inj heq') (hk cx data)
      · cases hp
  · next hu hk =>
    refine iff_of_true hnil fun _ _ hp => ?_
    split at hp
    · next scause env => exact (hu k scause env rfl rfl).elim
    · next cx data env => exact (hk (.sysGetchar cx data) k env rfl rfl).elim
    · cases hp

/-- The first program prints the string of three bytes at address 1, which is in its own first
page. -/
theorem user_pointers_iff_printf : ∃ k : Kernel, Reachable tiny (.running .user k) ∧
    SyscallId.ofWord (k.cpu.reg 17) = some .printf ∧ k.cpu.reg 10 = 1 ∧
    UserString k 1 [0x6e, 0x69, 0x74] ∧
    ∀ a ∈ (Logged.step tiny (.trap ecallCause (tinyEnv (-1) 0)) (.running .user k)).1,
      a.Allowed k := by
  obtain ⟨es, k, hrun, h, hs, hpages⟩ := tiny_first 0
  have hreach : Reachable tiny (.running .user
      { k with cpu := { k.cpu with x := callRegs 1, pc := 0 } }) := by
    refine ⟨tinyStart 0, es ++ [.compute (callRegs 1) 0], ?_⟩
    rw [run_append, hrun]
    rfl
  obtain ⟨e, he, hr, hu, hbyte⟩ := tiny_name hs hpages
  have hone : (1 : Word).toNat % 4096 = 1 := rfl
  have hinside : StaysInside { k with cpu := { k.cpu with x := callRegs 1, pc := 0 } } 1 false := by
    refine ⟨ppn e * 4096 + 1, 3, by rw [Nat.add_assoc]; exact hbyte 4 le_rfl, fun i hi => ?_⟩
    obtain ⟨hcan, hpage, hoff⟩ := address_inPage (show (1 : Word).toNat < 2 ^ 38 by decide)
      (show (1 : Word).toNat % 4096 + i < 4096 by rw [hone]; omega)
    exact ⟨hcan, e, by rw [hpage]; exact he, hu, fun h => Bool.noConfusion h, by
      rw [hoff, hone, Nat.add_assoc]⟩
  have hstr := (name_inPlace (h.compute tiny_wf (callRegs 1) 0).toInv he hr hu hbyte).1
  refine ⟨_, hreach, rfl, rfl, hstr,
    (user_pointers_iff tiny_wf hreach _).mpr fun uptr store hp => ?_⟩
  change callPointer (tinyEnv (-1) 0) (callOf tiny ecallCause _) 1 1 = _ at hp
  generalize callOf tiny ecallCause _ = call at hp
  unfold callPointer at hp
  split at hp
  · obtain ⟨rfl, rfl⟩ := Prod.mk.inj (Option.some.inj hp)
    exact hinside
  · rw [if_neg fun hc => absurd hc.2 (by decide)] at hp
    cases hp
  · obtain ⟨rfl, rfl⟩ := Prod.mk.inj (Option.some.inj hp)
    exact hinside
  · cases hp

/-! ## A program that overwrites its kernel stack pointer -/

/-- `getchar` stores into the trap page like into any other. -/
theorem Health.getchar_trapPage {n s : ℕ} (hwf : cfg.WellFormed) (h : Health cfg .user k n s)
    (env : Env cfg) (hc : env.console ≠ -1) (hid : SyscallId.ofWord (k.cpu.reg 17) = some .getChar)
    (hfd : k.cpu.reg 10 = stdin) (hptr : k.cpu.reg 11 = uptr) (hp : pageOf uptr = trapframeVpn) :
    (∃ mode k', step cfg (.trap ecallCause env) (.running .user k) = .running mode k') ∧
      .store uptr (k.cur.cx * 4096 + uptr.toNat % 4096) ∈
        (Logged.step cfg (.trap ecallCause env) (.running .user k)).1 ∧
      ¬ ∃ pa, UserByte k true uptr pa := by
  obtain ⟨k₁, he, hh⟩ := enterTrap_of_ready h.toInv h.ready ecallCause
  have hlk : lookup k.mem.ram k.cur.pagetable.rootPpn (pageOf uptr) =
      some (new k.cur.cx (pteV ||| (pteR ||| pteW))) :=
    hp ▸ (h.mem.task _ h.init).space.trapframe
  have hcx : k.cur.cx < 2 ^ 44 := h.mem.cx_lt h.init
  have hk := hh.call_uptr h.mem h.init hlk
  rw [ppn_new hcx] at hk
  refine ⟨?_, ?_, ?_⟩
  · obtain ⟨_, k', -, -, hstep, -⟩ := h.getchar env hwf hid hfd hc hptr hlk
      (by rw [ppn_new hcx]; exact MemInv.frames_mem h.init (MemInv.cx_mem_frames _ _))
    exact ⟨_, k', hstep⟩
  · change _ ∈ (Logged.takeTrap cfg ecallCause env k).log
    rw [takeTrap_log he, Logged.trapHandler, if_pos (by rw [hh.scause_eq]; decide),
      hh.arg (by decide), hh.arg (by decide), hh.arg (by decide), Logged.syscall, hid, hptr, hfd]
    simp only [Logged.sysGetchar, Logged.sysGetcharLoop, if_neg hc, if_true]
    rw [Traced.log_bind, hk]
    simp only [Traced.log_bind_lift]
    exact List.mem_singleton_self _
  · rintro ⟨pa, -, e, he', hu, -⟩
    rw [hlk] at he'
    rw [← Option.some.inj he', has_trapPage hcx] at hu
    cases hu

/-- A program that has the character it reads stored over its kernel stack pointer. -/
theorem overwrites_kernel_sp : ∃ (k k' : Kernel) (mode : Mode) (p : Word),
    Reachable tiny (.running .user k) ∧
    step tiny (.trap ecallCause (tinyEnv 0x41 0)) (.running .user k) = .running mode k' ∧
    .store p (k.cur.cx * 4096 + 8 * cxKernelSp) ∈
      (Logged.step tiny (.trap ecallCause (tinyEnv 0x41 0)) (.running .user k)).1 ∧
    ¬ (Access.store p (k.cur.cx * 4096 + 8 * cxKernelSp)).Allowed k := by
  obtain ⟨es, k, hrun, h, -⟩ := tiny_first 0
  let p : Word := BitVec.ofNat 64 (trapframeVa + 8 * cxKernelSp)
  have hoff : p.toNat % 4096 = 8 * cxKernelSp := by decide
  have hreg : ({ k with cpu := { k.cpu with x := getcharRegs p, pc := 0 } } : Kernel).cpu.reg 11 =
    p := rfl
  obtain ⟨⟨mode, k', hstep⟩, hmem, hno⟩ :=
    (h.compute tiny_wf (getcharRegs p) 0).getchar_trapPage tiny_wf (tinyEnv 0x41 0) (by decide) rfl
      rfl hreg (by decide)
  rw [hoff] at hmem
  refine ⟨_, k', mode, p, ⟨tinyStart 0, es ++ [.compute (getcharRegs p) 0], ?_⟩, hstep, hmem,
    fun hallowed => hno ⟨_, hallowed⟩⟩
  rw [run_append, hrun]
  rfl

end RiscvOs
