import RiscvOs.Props.Strings

/-!
# Why the kernel stops

Every path of the kernel that ends in `panic`, in a failed `assert`, in a fault or outside its own
code, with the reason in the state before the step.

* `CallStops`: the reasons of a system call; `Stops`: the reasons of a step.
* **`step_stops`**: a reachable system stops for these reasons only.
* **`internal_checks_hold`**: the checks of the page tables, of the allocator and of the scheduler
  never fire, from boot on.
* **`never_wild`**: control stays in the code of the kernel.
-/

set_option autoImplicit false

namespace RiscvOs

open PageTableEntry

variable {cfg : Config} {env : Env cfg} {mode : Mode} {k k₁ : Kernel} {e : Halt}

/-! ## System calls -/

/-- The page of the pointer is not mapped, or it is the trampoline, which the kernel maps without
write permission. -/
def Unwritable (k : Kernel) (data : Word) : Prop :=
  lookup k.mem.ram k.cur.pagetable.rootPpn (pageOf data) = none ∨ pageOf data = trampolineVpn

/-- Why a system call with these arguments stops the kernel. -/
inductive CallStops (env : Env cfg) (k : Kernel) (arg1 arg2 : Word) : SyscallId → Halt → Prop
  | printf (h : callString k arg1 = .error .fault) : CallStops env k arg1 arg2 .printf .fault
  | getChar (hfd : arg1 = stdin) (hc : env.console ≠ -1) (h : Unwritable k arg2) :
    CallStops env k arg1 arg2 .getChar .fault
  | fork (h : k.mem.free.card < 6 + 3 * (k.cur.baseSize / 4096)) :
    CallStops env k arg1 arg2 .fork (.panic "memory is full")
  | execName (h : callString k arg2 = .error .fault) : CallStops env k arg1 arg2 .exec .fault
  | longName (path : List Byte) (hn : callString k arg2 = .ok path) (h : ¬ NameFits cfg path) :
    CallStops env k arg1 arg2 .exec .overflow
  | noApp (path : List Byte) (hn : callString k arg2 = .ok path) (h : cfg.find path = none) :
    CallStops env k arg1 arg2 .exec (.panic "no app found\n")
  | elf (path : List Byte) (a : App) (hn : callString k arg2 = .ok path)
    (ha : cfg.find path = some a) {e : Halt} (h : elfCheck (a.view env).file = .error e) :
    CallStops env k arg1 arg2 .exec e
  | memory (path : List Byte) (a : App) (hn : callString k arg2 = .ok path)
    (ha : cfg.find path = some a) (h : k.mem.free.card < imageNeed (a.view env).file) :
    CallStops env k arg1 arg2 .exec (.panic "memory is full")
  | read (path : List Byte) (a : App) (hn : callString k arg2 = .ok path)
    (ha : cfg.find path = some a) (h : ¬ (a.view env).Readable) :
    CallStops env k arg1 arg2 .exec .fault
  | stack (path : List Byte) (a : App) (hn : callString k arg2 = .ok path)
    (ha : cfg.find path = some a) (h : trapframeVpn ≤ stackPage (a.view env).file) (e : Halt) :
    CallStops env k arg1 arg2 .exec e
  | exitInit (h : k.cur.pid = 0) :
    CallStops env k arg1 arg2 .exit (.panic "error:init exiting")
  | exitAlone (h : ¬ k.sched.HandsOver) :
    CallStops env k arg1 arg2 .exit (.panic "Zombie exit failed")

theorem cstringFrom_error {m : Mem} {fuel pa : ℕ} (h : m.cstringFrom fuel pa = .error e) :
    e = .fault := by
  induction fuel generalizing pa with
  | zero => exact (Except.error.inj h).symm
  | succ fuel ih =>
    rw [Mem.cstringFrom] at h
    split_ifs at h
    · exact (Except.error.inj h).symm
    · cases hr : m.cstringFrom fuel (pa + 1) with
      | error e' =>
        rw [hr] at h
        exact ih (hr.trans (congrArg _ (Except.error.inj h)))
      | ok rest =>
        rw [hr] at h
        cases h

theorem Mem.cstring_printf (m : Mem) (fmt : String) (args : List PrintfArg) (pa : ℕ) :
    (m.printf fmt args).cstring pa = m.cstring pa := by
  have hfrom : ∀ fuel pa, (m.printf fmt args).cstringFrom fuel pa = m.cstringFrom fuel pa := by
    intro fuel
    induction fuel with
    | zero => exact fun _ => rfl
    | succ fuel ih =>
      intro pa
      rw [Mem.cstringFrom, Mem.cstringFrom, ih]
      rfl
  exact hfrom _ pa

theorem uptrToKptr_error {uptr : Word} (h : uptrToKptr k uptr = .error e) : e = .fault := by
  rw [uptrToKptr] at h
  split at h
  · exact (Except.error.inj h).symm
  · cases h

theorem callString_error {uptr : Word} (h : callString k uptr = .error e) : e = .fault := by
  rw [callString] at h
  cases hp : uptrToKptr k uptr with
  | error e' =>
    rw [hp] at h
    exact Except.error.inj h ▸ uptrToKptr_error hp
  | ok pa =>
    rw [hp] at h
    exact cstringFrom_error h

section Call

variable (h : MemInv cfg k) (hon : OnStack cfg k) (ht : ProcTree k.sched)

include hon ht in
/-- A yield never stops the kernel. -/
theorem sysYield_returns (env : Env cfg) (self : Kont) :
    Outcome (sysYield cfg env self k) (fun _ => True) fun _ => False := by
  obtain ⟨m, hm⟩ := ht.toTree.next_some
  obtain ⟨kont, k', hy⟩ := sysYield_exists env self hon hm
  rw [hy]
  trivial

include h hon ht in
theorem sysGetcharLoop_stops (env : Env cfg) (cx : ℕ) (data : Word) :
    Outcome (sysGetcharLoop cfg env cx data k) (fun _ => True)
      fun e => e = .fault ∧ env.console ≠ -1 ∧ Unwritable k data := by
  rw [sysGetcharLoop]
  split_ifs with hc
  · exact (sysYield_returns hon ht env _).mono (fun _ h => h) fun _ h => h.elim
  · cases hl : lookup k.mem.ram k.cur.pagetable.rootPpn (pageOf data) with
    | none =>
      have hp : uptrToKptr k data = .error .fault := by
        cases hu : uptrToKptr k data with
        | error e => exact congrArg _ (uptrToKptr_error hu)
        | ok pa =>
          obtain ⟨e, he, -⟩ := uptrToKptr_ok hu
          rw [hl] at he
          cases he
      rw [hp]
      exact ⟨rfl, hc, .inl hl⟩
    | some pte =>
      rw [uptrToKptr_of_lookup hl, ok_bind, kernelStoreByte]
      split_ifs with hrange
      · trivial
      · refine ⟨rfl, hc, .inr ?_⟩
        have hinit := live_init ht.current
        have hlt : data.toNat % 4096 < 4096 := Nat.mod_lt _ (by decide)
        obtain ⟨-, -, hf⟩ | ⟨-, rfl⟩ | ⟨hv, -⟩ := h.lookup_cases hinit (pageOf_lt data) hl
        · exact absurd (h.frame_mapped (MemInv.frames_mem hinit
            (Multiset.mem_add.mpr (.inr hf))) hlt) hrange
        · rw [ppn_new (h.cx_lt hinit)] at hrange
          exact absurd (h.frame_mapped (MemInv.frames_mem hinit
            (MemInv.cx_mem_frames _ _)) hlt) hrange
        · exact hv

include h hon ht in
/-- A turn of the loop of `__sys_recycle` never stops the kernel. -/
theorem sysRecycleLoop_returns (env : Env cfg) (cx : ℕ) (father : Slot) (havechild : Bool) :
    Outcome (sysRecycleLoop cfg env cx father havechild k) (fun _ => True) fun _ => False := by
  rw [sysRecycleLoop]
  split
  · next child hc =>
    have hz : (k.tasks child).taskState ≠ .unInit := by
      have hfound := List.find?_some hc
      simp only [decide_eq_true_eq] at hfound
      rw [hfound.2]
      decide
    exact Outcome.bind (freeChild_spec h hz) fun _ _ => trivial
  · dsimp only
    split_ifs
    · trivial
    · exact sysYield_returns hon ht env _

theorem longName_of_overflow (cfg : Config) {path : List Byte} {m : Mem}
    (hp : printfLen m "exec app_name:%s\n" [.str path] (14 + path.length + 1) = .error e) :
    e = .overflow ∧ ¬ NameFits cfg path := by
  rw [printfLen] at hp
  split_ifs at hp with hlen
  refine ⟨(Except.error.inj hp).symm, fun hf => ?_⟩
  have hone : (Nat.repr 0).length = 1 := by decide
  have := hf 0 (Nat.zero_le _)
  omega

include h ht in
theorem exec_stops (hwf : cfg.WellFormed) (env : Env cfg) (cx : ℕ) (arg1 arg2 : Word) :
    Outcome (do
      let name ← uptrToKptr k arg2
      let bytes ← k.mem.cstring name
      let m ← printfLen k.mem "exec app_name:%s\n" [.str bytes] (14 + bytes.length + 1)
      let k ← sysExec cfg env name { k with mem := m }
      .ok (Kont.sysReturn cx 0, k)) (fun _ => True)
      (CallStops env k arg1 arg2 .exec) := by
  cases hn : callString k arg2 with
  | error e =>
    obtain rfl := callString_error hn
    cases hu : uptrToKptr k arg2 with
    | error e' =>
      rw [callString, hu] at hn
      obtain rfl := Except.error.inj hn
      exact .execName (by rw [callString, hu]; rfl)
    | ok name =>
      have hs : k.mem.cstring name = .error .fault := by rwa [callString, hu] at hn
      rw [ok_bind, hs]
      exact .execName hn
  | ok path =>
    obtain ⟨name, hname, hs⟩ := exists_of_bind_ok hn
    rw [hname, ok_bind, hs, ok_bind]
    cases hp : printfLen k.mem "exec app_name:%s\n" [.str path] (14 + path.length + 1) with
    | error e =>
      obtain ⟨rfl, hf⟩ := longName_of_overflow cfg hp
      exact .longName path hn hf
    | ok m =>
      obtain rfl := printfLen_ok hp
      rw [ok_bind]
      have hmem : MemInv cfg { k with mem := k.mem.printf "exec app_name:%s\n" [.str path] } :=
        (Keeps.refl h).withConsole _ |>.mem
      refine Outcome.bind ((sysExec_spec hmem (live_init ht.current) hwf).mono (fun _ h => h)
        fun e he => ?_) fun _ _ => trivial
      -- the message has not changed the string
      have hsame : ∀ {path' : List Byte},
          (k.mem.printf "exec app_name:%s\n" [.str path]).cstring name = .ok path' →
            callString k arg2 = .ok path' := fun hs' => by
        rw [Mem.cstring_printf] at hs'
        rw [callString, hname, ok_bind, hs']
      cases he with
      | name he =>
        change (k.mem.printf _ _).cstring name = _ at he
        rw [Mem.cstring_printf, hs] at he
        cases he
      | noApp path' he h' hn' => exact he ▸ .noApp path' (hsame hn') h'
      | overflow path' he h' hn' => exact he ▸ .longName path' (hsame hn') h'
      | elf path' a hn' ha h' => exact .elf path' a (hsame hn') ha h'
      | memory path' a hn' ha he h' => exact he ▸ .memory path' a (hsame hn') ha h'
      | read path' a hn' ha he h' => exact he ▸ .read path' a (hsame hn') ha h'
      | stack path' a hn' ha h' => exact .stack path' a (hsame hn') ha h' e

include hon ht in
theorem exit_stops_for (env : Env cfg) (arg1 arg2 : Word) :
    Outcome (exitCurrentAndRunNext cfg env arg1 k) (fun _ => True)
      (CallStops env k arg1 arg2 .exit) := by
  by_cases hpid : k.cur.pid = 0
  · rw [exitCurrentAndRunNext, if_pos hpid]
    exact .exitInit hpid
  by_cases ho : k.sched.HandsOver
  · obtain ⟨kont, k', hx, -⟩ := exit_of_handsOver env arg1 hon hpid ho
    rw [hx]
    trivial
  · rw [exit_of_not_handsOver (ht.zombify ht.current (ht.current_ne_zero hpid)) hpid ho]
    exact .exitAlone ho

include h hon ht in
/-- **Why a system call stops.** -/
theorem syscall_stops (hwf : cfg.WellFormed) (env : Env cfg) (cx : ℕ) {id arg1 arg2 : Word}
    {call : SyscallId} (hid : SyscallId.ofWord id = some call) :
    Outcome (syscall cfg env cx id arg1 arg2 k) (fun _ => True)
      (CallStops env k arg1 arg2 call) := by
  rw [syscall, hid]
  cases call with
  | printf =>
    cases hn : callString k arg1 with
    | ok path =>
      obtain ⟨str, hstr, hs⟩ := exists_of_bind_ok hn
      simp only [hstr, hs, ok_bind]
      trivial
    | error e =>
      have hfault := callString_error hn
      subst hfault
      change Outcome (uptrToKptr k arg1 >>= fun str => k.mem.cstring str >>= _) _ _
      rw [← bind_assoc]
      change Outcome (callString k arg1 >>= _) _ _
      rw [hn]
      exact .printf hn
  | yield => exact (sysYield_returns hon ht env _).mono (fun _ h => h) fun _ h => h.elim
  | setTrigger => trivial
  | getTime => trivial
  | getChar =>
    simp only [sysGetchar]
    split_ifs with hfd
    · refine (sysGetcharLoop_stops h hon ht env cx arg2).mono (fun _ h => h) fun e he => ?_
      obtain ⟨rfl, hc, hu⟩ := he
      exact .getChar hfd hc hu
    · trivial
  | fork =>
    refine Outcome.bind (Q := fun _ => True) ?_ fun _ _ => trivial
    refine (sysFork_spec h (live_init ht.current)).mono (fun _ _ => trivial) fun e he => ?_
    exact he.1 ▸ .fork he.2
  | exec => exact exec_stops h ht hwf env cx arg1 arg2
  | exit => exact exit_stops_for hon ht env arg1 arg2
  | recycle =>
    exact (sysRecycleLoop_returns h hon ht env cx _ _).mono (fun _ h => h) fun _ h => h.elim

end Call

/-! ## Steps -/

/-- Why a step stops the kernel. -/
inductive Stops : Mode → Kernel → Event cfg → Halt → Prop
  /-- The trap context does not lead into the kernel. -/
  | words {k : Kernel} {scause : Word} {env : Env cfg}
    (h : ¬ KernelWords cfg k k.current (k.trap k.current)) :
    Stops .user k (.trap scause env) .wild
  /-- An exception other than `ecall`. -/
  | exception {k : Kernel} {scause : Word} {env : Env cfg} (hbit : scause.getLsbD 63 = false)
    (hcode : scause &&& 0xfff ≠ 8) :
    Stops .user k (.trap scause env) (.panic "stop in trap_handler\n")
  | unknown {k : Kernel} {scause : Word} {env : Env cfg} (hbit : scause.getLsbD 63 = false)
    (hcode : scause &&& 0xfff = 8) (hid : SyscallId.ofWord (k.cpu.reg 17) = none) :
    Stops .user k (.trap scause env) (.panic "this syscall id is illegal")
  | call {k k₁ : Kernel} {scause : Word} {env : Env cfg} {call : SyscallId} {e : Halt}
    (hbit : scause.getLsbD 63 = false) (hcode : scause &&& 0xfff = 8)
    (henter : enterTrap cfg scause k = .ok k₁)
    (hid : SyscallId.ofWord (k.cpu.reg 17) = some call)
    (h : CallStops env (moveSepc k₁) (k.cpu.reg 10) (k.cpu.reg 11) call e) :
    Stops .user k (.trap scause env) e
  | getChar {k : Kernel} {cx : ℕ} {data : Word} {env : Env cfg} (hc : env.console ≠ -1)
    (h : Unwritable k data) : Stops (.kernel (.sysGetchar cx data)) k (.resume env) .fault
  /-- `sstatus` of the trap context says that the trap came from supervisor mode. -/
  | status {k : Kernel} {kont : Kont} {env : Env cfg} (hk : Calm kont)
    (h : (k.trap k.current cxSstatus).getLsbD 8 = true) :
    Stops (.kernel kont) k (.resume env) .wild

theorem ofExcept_halted {x : Except Halt (Mode × Kernel)} (h : Sys.ofExcept x = .halted e) :
    x = .error e := by
  cases x with
  | ok r => cases h
  | error e' => exact congrArg _ (Sys.halted.inj h)

theorem takeTrap_stops (hwf : cfg.WellFormed) (h : Inv cfg .user k) (scause : Word)
    (env : Env cfg) :
    Outcome (takeTrap cfg scause env k) (fun _ => True) (Stops .user k (.trap scause env)) := by
  rw [takeTrap]
  cases henter : enterTrap cfg scause k with
  | error e =>
    obtain ⟨rfl, hw⟩ := (enterTrap_spec h.mem h.init (h.csrs rfl) scause).of_error henter
    exact .words hw
  | ok k₁ =>
    have hh := h.enter henter
    have htree : ProcTree k₁.sched := hh.sched.symm ▸ h.tree
    rw [ok_bind]
    refine Outcome.bind (Q := fun _ => True) ?_ fun _ _ => trivial
    simp only [trapHandler, hh.scause_eq]
    split_ifs with hbit hcode hcode
    · exact (sysYield_returns hh.onStack htree env _).mono (fun _ h => h) fun _ h => h.elim
    · trivial
    · change Outcome (syscall cfg env k₁.cur.cx ((moveSepc k₁).mem.ram k₁.cur.cx (cxReg 17))
        ((moveSepc k₁).mem.ram k₁.cur.cx (cxReg 10)) ((moveSepc k₁).mem.ram k₁.cur.cx (cxReg 11))
        (moveSepc k₁)) _ _
      rw [hh.arg (by decide), hh.arg (by decide), hh.arg (by decide)]
      cases hid : SyscallId.ofWord (k.cpu.reg 17) with
      | none =>
        rw [syscall, hid]
        exact .unknown (by simpa using hbit) hcode hid
      | some call =>
        exact (syscall_stops (hh.call_keeps h.mem).mem hh.call_onStack htree hwf env _ hid).mono
          (fun _ h => h) fun e he => .call (by simpa using hbit) hcode henter hid he
    · exact .exception (by simpa using hbit) hcode

theorem runKont_stops {kont : Kont} (h : Inv cfg (.kernel kont) k) (env : Env cfg) :
    Outcome (runKont cfg env kont k) (fun _ => True)
      (Stops (.kernel kont) k (.resume env)) := by
  have hon := h.stack.onStack
  have hret := trapReturn_spec h.mem h.init hon.satp
  cases kont with
  | trapReturn =>
    exact Outcome.bind (hret.mono (fun _ h => h) fun e he => he.1 ▸ .status trivial he.2)
      fun _ _ => trivial
  | timer =>
    exact Outcome.bind (hret.mono (fun _ h => h) fun e he => he.1 ▸ .status trivial he.2)
      fun _ _ => trivial
  | sysYield cx => trivial
  | sysGetchar cx data =>
    refine Outcome.bind ((sysGetcharLoop_stops h.mem hon h.tree env cx data).mono (fun _ h => h)
      fun e he => ?_) fun _ _ => trivial
    obtain ⟨rfl, hc, hu⟩ := he
    exact .getChar hc hu
  | sysRecycle cx father havechild =>
    exact Outcome.bind ((sysRecycleLoop_returns h.mem hon h.tree env cx father havechild).mono
      (fun _ h => h) fun _ h => h.elim) fun _ _ => trivial
  | exit => exact h.stack.kontOk.elim
  | sysReturn cx v =>
    obtain rfl : cx = k.cur.cx := h.stack.kontOk
    have hst := Keeps.storeCx h.mem h.live (Function.update (k.mem.ram k.cur.cx) (cxReg 10) v)
    refine Outcome.bind ((trapReturn_spec hst.mem h.init hon.satp).mono (fun _ h => h)
      fun e he => ?_) fun _ _ => trivial
    obtain ⟨rfl, hspp⟩ := he
    refine .status trivial ?_
    have hkeep : (k.mem.storeFrame k.cur.cx (Function.update (k.mem.ram k.cur.cx) (cxReg 10) v)).ram
        k.cur.cx cxSstatus = k.trap k.current cxSstatus := by
      rw [Mem.storeFrame_self, Function.update_of_ne (by decide)]
      rfl
    rwa [← hkeep]

theorem Inv.stops (hwf : cfg.WellFormed) (h : Inv cfg mode k) {ev : Event cfg}
    (hstep : step cfg ev (.running mode k) = .halted e) : Stops mode k ev e := by
  cases mode with
  | user =>
    cases ev with
    | compute x pc => cases hstep
    | store va b => cases hstep
    | trap scause env => exact (takeTrap_stops hwf h scause env).of_error (ofExcept_halted hstep)
    | resume env => cases hstep
  | kernel kont =>
    cases ev with
    | compute x pc => cases hstep
    | store va b => cases hstep
    | trap scause env => cases hstep
    | resume env => exact (runKont_stops h env).of_error (ofExcept_halted hstep)

theorem tiny_exception : ∃ k : Kernel, Reachable tiny (.running .user k) ∧
    step tiny (.trap 2 (tinyEnv (-1) 0)) (.running .user k) =
      .halted (.panic "stop in trap_handler\n") := by
  obtain ⟨es, k, hrun, h, -⟩ := tiny_first 0
  obtain ⟨k₁, he, hh⟩ := enterTrap_of_ready h.toInv h.ready 2
  have hth : trapHandler tiny (tinyEnv (-1) 0) k₁ = .error (.panic "stop in trap_handler\n") := by
    rw [trapHandler, hh.scause_eq]
    rfl
  refine ⟨k, ⟨_, es, hrun⟩, ?_⟩
  simp only [step, takeTrap, he, ok_bind, hth]
  rfl

/-- **A reachable system stops for these reasons only.** -/
theorem step_stops (hwf : cfg.WellFormed) (hreach : Reachable cfg (.running mode k))
    {ev : Event cfg} (hstep : step cfg ev (.running mode k) = .halted e) : Stops mode k ev e :=
  (hreach.inv hwf).stops hwf hstep

/-- An illegal instruction of the first program. -/
theorem step_stops_exception : ∃ k : Kernel, Reachable tiny (.running .user k) ∧
    Stops .user k (.trap 2 (tinyEnv (-1) 0)) (.panic "stop in trap_handler\n") := by
  obtain ⟨k, hreach, hstep⟩ := tiny_exception
  exact ⟨k, hreach, step_stops tiny_wf hreach hstep⟩

/-! ## Internal checks -/

/-- The checks the kernel makes of its own page tables, frames and tasks. -/
def internalChecks : List Halt :=
  [.panic "this page has not been alloced", .assertion "!PageTableEntry_is_valid(*pte_ptr)",
    .panic "page size is 0", .panic "kalloc", .panic "free_page_table error\n",
    .panic "no task is running. can not yield"]

/-- The stack of every embedded program ends below the trap context. -/
def Config.StacksFit (cfg : Config) : Prop := ∀ a ∈ cfg.apps, stackPage a.file < trapframeVpn

theorem elfCheck_error {f : ℕ → Byte} (h : elfCheck f = .error e) :
    e ∉ .wild :: internalChecks ∧ e ≠ .panic "memory is full" := by
  rw [elfCheck] at h
  split_ifs at h
  · obtain rfl := Except.error.inj h
    decide
  · obtain rfl := Except.error.inj h
    decide

theorem Config.StacksFit.view (hfit : cfg.StacksFit) (hwf : cfg.WellFormed) {a : App}
    (ha : a ∈ cfg.apps) (env : Env cfg) : stackPage (a.view env).file < trapframeVpn := by
  rw [(hwf a ha).stackPage_agree fun x hx => App.view_file ha env hx]
  exact hfit a ha

theorem CallStops.expected (hwf : cfg.WellFormed) (hfit : cfg.StacksFit) {arg1 arg2 : Word}
    {call : SyscallId} (h : CallStops env k arg1 arg2 call e) : e ∉ .wild :: internalChecks := by
  cases h with
  | elf path a hn ha h => exact (elfCheck_error h).1
  | stack path a hn ha h => exact absurd (hfit.view hwf (Config.mem_of_find ha).1 env) (by omega)
  | _ => decide

theorem Stops.not_internal (hwf : cfg.WellFormed) (hfit : cfg.StacksFit) {ev : Event cfg}
    (h : Stops mode k ev e) : e ∉ internalChecks := by
  cases h with
  | call hbit hcode henter hid h => exact List.not_mem_of_not_mem_cons (h.expected hwf hfit)
  | _ => decide

/-- `load_app` fails no check of the page tables, and runs out of memory only where the image does
not fit. -/
theorem loadApp_expected {b : Start cfg} (htop : k.top < maxTaskNum) (ha : Apart k.mem 0)
    (hwf : cfg.WellFormed) (hfit : cfg.StacksFit) :
    Outcome (loadApp cfg b k) (fun _ => True) fun e => e ∉ .wild :: internalChecks ∧
      (e = .panic "memory is full" →
        ∃ app ∈ cfg.apps, k.mem.free.card < 1 + imageNeed (app.view b.toEnv).file) := by
  rw [loadApp]
  cases happs : cfg.apps with
  | nil =>
    have hassert : Halt.assertion "app_id <= num_app" ∉ .wild :: internalChecks := by decide
    exact ⟨hassert, fun he => by cases he⟩
  | cons app rest =>
    have hhead : app ∈ app :: rest := List.mem_cons_self
    have happ : app ∈ cfg.apps := happs ▸ hhead
    have hview : (⟨app.start, b.kdata⟩ : Image) = app.view b.toEnv := rfl
    simp only [hview]
    refine Outcome.bind ((Outcome.self (elfCheck (app.view b.toEnv).file)).mono (fun _ h => h)
      fun e he => ⟨(elfCheck_error he).1, fun hm => absurd hm (elfCheck_error he).2⟩) ?_
    rintro - -
    refine Outcome.bind ((taskCreatePt_spec htop ha).mono (fun _ h => h) ?_) ?_
    · rintro e ⟨rfl, hlt⟩
      refine ⟨by decide, fun _ => ⟨app, hhead, ?_⟩⟩
      rw [imageNeed]
      omega
    rintro _ ⟨f, root, nt, m₁, -, hg, hcard, hs, rfl⟩
    have hnt : Apart m₁ nt := (ha.grows hg).mono (by
      rw [zero_add]
      exact Multiset.le_add_left _ _)
    have hroot : ((taskCreated k f root m₁).tasks 0).pagetable = ⟨root⟩ := by
      simp only [taskCreated, Function.update_self]
    simp only [setTask_self, hroot]
    refine Outcome.bind ((loadSegment_spec (App.view_layout hwf happ b.toEnv) hnt hs).mono
      (fun _ h => h) ?_) fun _ _ => trivial
    rintro e ((⟨rfl, hlt⟩ | ⟨rfl, -⟩) | hst)
    · have hfree := hg.card
      rw [Multiset.card_add, Multiset.card_singleton] at hfree
      refine ⟨by decide, fun _ => ⟨app, hhead, ?_⟩⟩
      change m₁.free.card < _ at hlt
      rw [imageNeed]
      omega
    · exact ⟨by decide, fun he => by cases he⟩
    · exact absurd (hfit.view hwf happ b.toEnv) (by omega)

/-- Boot leaves its code only through the table of the names, and runs out of memory only where the
kernel or the first image does not fit. -/
theorem start_expected (hwf : cfg.WellFormed) (hfit : cfg.StacksFit) {b : Start cfg}
    (h : start cfg b = .halted e) :
    e ∉ internalChecks ∧ (e = .wild → maxTaskNum < cfg.apps.length) ∧
      (e = .panic "memory is full" → frameEnd - cfg.lo < 167 ∨
        ∃ app ∈ cfg.apps, frameEnd - cfg.lo < 168 + imageNeed (app.view b.toEnv).file) := by
  suffices Outcome (boot cfg b) (fun _ => True) fun e => e ∉ internalChecks ∧
      (e = .wild → maxTaskNum < cfg.apps.length) ∧
      (e = .panic "memory is full" → frameEnd - cfg.lo < 167 ∨
        ∃ app ∈ cfg.apps, frameEnd - cfg.lo < 168 + imageNeed (app.view b.toEnv).file) by
    rw [start] at h
    cases hb : boot cfg b with
    | ok r => simp only [hb, reduceCtorEq] at h
    | error e' =>
      simp only [hb] at h
      exact Sys.halted.inj h ▸ this.of_error hb
  rw [boot]
  refine Outcome.bind ((kvminit_spec b).mono (fun _ h => h) ?_) ?_
  · rintro e ⟨rfl, hlt⟩
    exact ⟨by decide, fun he => Halt.noConfusion he, fun _ => .inl hlt⟩
  rintro _ ⟨kroot, m₀, rfl, hm, hcard⟩
  have hpi : procinit (kernelReady cfg b kroot m₀) = kernelReady cfg b kroot m₀ := rfl
  have htop : (kernelReady cfg b kroot m₀).top < maxTaskNum := Nat.zero_lt_succ _
  have ha : Apart (kernelReady cfg b kroot m₀).mem 0 := hm.apart.mono (Multiset.zero_le _)
  simp only [hpi]
  refine Outcome.bind (Q := fun _ => True) ?_ ?_
  · rw [getAppNames]
    split_ifs with hn
    · trivial
    · have hwild : Halt.wild ∉ internalChecks := by decide
      exact ⟨hwild, fun _ => Nat.lt_of_not_le hn, fun he => by cases he⟩
  rintro - -
  cases hl : loadApp cfg b (kernelReady cfg b kroot m₀) with
  | error e =>
    obtain ⟨hnot, hmem⟩ := (loadApp_expected htop ha hwf hfit).of_error hl
    have hx := List.ne_and_not_mem_of_not_mem_cons hnot
    refine ⟨hx.2, fun he => absurd he hx.1, fun he => .inr ?_⟩
    obtain ⟨app, happ, hlt⟩ := hmem he
    change m₀.free.card < _ at hlt
    exact ⟨app, happ, by omega⟩
  | ok k =>
    obtain ⟨f, root, entry, ustack, m, rfl⟩ := loadApp_shape htop hl
    rw [ok_bind, startTask_booted]
    trivial

/-- A run that has stopped was stopped from the start, or by one of its steps. -/
theorem halted_of_run {es : List (Event cfg)} {s : Sys} (h : run cfg es s = .halted e) :
    s = .halted e ∨ ∃ es₁ ev es₂ mode k, es = es₁ ++ ev :: es₂ ∧
      run cfg es₁ s = .running mode k ∧ step cfg ev (.running mode k) = .halted e := by
  induction es generalizing s with
  | nil => exact .inl h
  | cons ev es ih =>
    cases s with
    | halted e' =>
      rw [run_halted] at h
      exact .inl h
    | running mode k =>
      rw [run_cons] at h
      obtain hstep | ⟨es₁, ev', es₂, mode', k', rfl, hrun, hstep⟩ := ih h
      · exact .inr ⟨[], ev, es, mode, k, rfl, rfl, hstep⟩
      · exact .inr ⟨ev :: es₁, ev', es₂, mode', k', rfl, hrun, hstep⟩

/-- **The internal checks never fire.** -/
theorem internal_checks_hold (hwf : cfg.WellFormed) (hfit : cfg.StacksFit)
    (h : Reachable cfg (.halted e)) : e ∉ internalChecks := by
  obtain ⟨b, es, hrun⟩ := h
  obtain hstart | ⟨es₁, ev, es₂, mode, k, -, hrun₁, hstep⟩ := halted_of_run hrun
  · exact (start_expected hwf hfit hstart).1
  · have hreach : Reachable cfg (.running mode k) := ⟨b, es₁, hrun₁⟩
    exact ((hreach.inv hwf).stops hwf hstep).not_internal hwf hfit

theorem tiny_stacksFit : tiny.StacksFit := fun a ha => by
  obtain rfl := List.mem_singleton.mp ha
  have hagree := tinyApp_wf.stackPage_agree fun x hx =>
    App.view_file tinyApp_mem (tinyEnv (-1) 0) hx
  rw [← hagree, tiny_stackPage]
  decide

theorem internal_checks_hold_exception : ∃ e, Reachable tiny (.halted e) ∧ e ∉ internalChecks := by
  obtain ⟨k, hreach, hstep⟩ := tiny_exception
  have hhalt := hreach.step (.trap 2 (tinyEnv (-1) 0))
  rw [hstep] at hhalt
  exact ⟨_, hhalt, internal_checks_hold tiny_wf tiny_stacksFit hhalt⟩

/-! ## Control -/

/-- The first program reads a character into its own page 0, forks, and is interrupted. -/
def busyEvents : List (Event tiny) :=
  [.resume (tinyEnv (-1) 0), .compute (getcharRegs 0) 0, .trap ecallCause (tinyEnv 0x41 0),
    .resume (tinyEnv (-1) 0)] ++ [Op.fork, .yield].flatMap (opEvents (tinyEnv (-1) 0))

theorem busy_run : ∃ k, run tiny busyEvents (start tiny (tinyStart 0)) = .running .user k ∧
    k.sched = applyAll [.fork, .yield] initSched ∧
    Along CleanStep busyEvents (start tiny (tinyStart 0)) := by
  obtain ⟨k, hrun, h, hs, hpages⟩ := (tiny_bootable 0).first (tinyEnv (-1) 0)
  rw [tiny_imageTop] at h
  rw [run_cons, run_nil] at hrun
  obtain ⟨e, he, -⟩ := tiny_page (v := 0) hs hpages (by decide)
  have hcompute : step tiny (.compute (getcharRegs 0) 0) (.running .user k) =
    .running .user { k with cpu := { k.cpu with x := getcharRegs 0, pc := 0 } } := rfl
  have hptr : ({ k with cpu := { k.cpu with x := getcharRegs 0, pc := 0 } } : Kernel).cpu.reg 11 =
    0 := rfl
  obtain ⟨κ, k₁, hstep₁, h₁, hs₁, hclean₁⟩ := (h.compute tiny_wf (getcharRegs 0) 0).getchar_page
    (tinyEnv 0x41 0) tiny_wf rfl rfl (by decide) hptr (by decide) he
  obtain ⟨k₂, hstep₂, h₂, hs₂⟩ := h₁.resume tiny_wf (tinyEnv (-1) 0)
  have hinit : k₂.sched = initSched := hs₂.trans (hs₁.trans hs)
  have h₂' : Health tiny .user k₂ (1000 + [Op.fork, .yield].length * (6 + 3 * 4)) 4 :=
    h₂.mono (by decide)
  have hplay : Playable [.fork, .yield] k₂.sched := by
    rw [hinit]
    decide +kernel
  obtain ⟨k₃, hrun₃, -, hs₃, hobeys⟩ := h₂'.history tiny_wf (tinyEnv (-1) 0) [.fork, .yield] hplay
    (fun _ => trivial) (heeds_true _ _)
  have hfour : run tiny [.resume (tinyEnv (-1) 0), .compute (getcharRegs 0) 0,
      .trap ecallCause (tinyEnv 0x41 0), .resume (tinyEnv (-1) 0)] (start tiny (tinyStart 0)) =
      .running .user k₂ := by
    rw [run_cons, hrun, run_cons, hcompute, run_cons, hstep₁, run_cons, hstep₂, run_nil]
  refine ⟨k₃, ?_, by rw [hs₃, hinit], along_append.mpr ⟨⟨fun mode k hk => ?_, ?_⟩, ?_⟩⟩
  · rw [busyEvents, run_append, hfour, hrun₃]
  · obtain ⟨-, rfl⟩ := start_running hk
    exact cleanStep_of_none rfl
  · rw [hrun]
    refine .cons (cleanStep_of_none rfl) ?_
    rw [hcompute]
    refine .cons hclean₁ ?_
    rw [hstep₁]
    exact .cons (h₁.calm _).1 trivial
  · rw [hfour]
    exact hobeys.imp fun _ _ _ h => h.2

end RiscvOs
