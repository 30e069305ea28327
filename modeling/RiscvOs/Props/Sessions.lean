import RiscvOs.Props.Processes
import RiscvOs.User.Programs

/-!
# Sessions

Runs in which the processes keep to the programs of `user/`. The scheduler can starve a task, and an
exit can find no successor; with these programs neither happens.

* `UserSession`: the states of such runs, with the places of the processes in their programs.
* **`session_line`**: the processes form a line, all but the last wait for their child, and every
  live one has its turn.
* **`session_exit`**: every exit hands over, and the father is waiting for it.
-/

set_option autoImplicit false

namespace RiscvOs

open Sched

variable {cfg : Config} {p₀ : Place} {mode mode' : Mode} {k k' : Kernel} {pl pl' : Slot → Place}
  {e : Event cfg}

/-- The states of the runs in which the processes keep to their programs. The first program is
`p₀`. -/
inductive UserSession (cfg : Config) (p₀ : Place) : Mode → Kernel → (Slot → Place) → Prop
  | start {b : Start cfg} {mode : Mode} {k : Kernel} (h : start cfg b = .running mode k) :
    UserSession cfg p₀ mode k fun _ => p₀
  | step {mode mode' : Mode} {k k' : Kernel} {pl pl' : Slot → Place} {e : Event cfg}
    (h : UserSession cfg p₀ mode k pl)
    (hpl : Plays k.sched pl (madeCall e mode k) (stepOp cfg e (.running mode k)) pl')
    (hstep : step cfg e (.running mode k) = .running mode' k') : UserSession cfg p₀ mode' k' pl'

namespace UserSession

theorem order (h : UserSession cfg p₀ mode k pl) : Order cfg mode k := by
  induction h with
  | start h =>
    obtain ⟨hb, rfl⟩ := start_running h
    exact .boot hb
  | step _ _ hstep ih => exact ih.stepped (step_stepped hstep)

end UserSession

/-- One process is a line. -/
theorem line_initSched (hp₀ : p₀.starts = true) : Line p₀ initSched (fun _ => p₀) 1 := by
  have hused : ∀ i, ¬ initSched.UnInit i ↔ i.val < 1 := by decide +kernel
  have hrec : p₀.recycle = none := by
    revert hp₀
    cases p₀ <;> decide
  refine ⟨⟨hused, fun i hi => absurd hi (by omega), fun i h₀ hi => absurd (Fin.ext ?_) h₀⟩,
    fun i hi => absurd hi (by omega), fun _ _ _ => hrec, id⟩
  exact Nat.lt_one_iff.mp hi

/-- The id of the next process is positive as an `int`. -/
theorem nextPid_pos {s : Sched} (ht : Tree s) (hn : s.nextPid < 2 ^ 31) :
    (BitVec.ofNat 32 s.nextPid).toInt > 0 := by
  obtain ⟨number, -, hpid, -⟩ := ht.number
  have hpos := (hpid 0 ht.init.not_unInit).2
  have hnat : (BitVec.ofNat 32 s.nextPid).toNat = s.nextPid := by
    rw [BitVec.toNat_ofNat]
    exact Nat.mod_eq_of_lt (by omega)
  rw [BitVec.toInt_eq_toNat_of_lt (by omega), hnat]
  omega

theorem UserSession.line (hp₀ : p₀.starts = true) (h : UserSession cfg p₀ mode k pl)
    (hn : k.nextPid < 2 ^ 31) : Compact k.sched ∧ ∃ n, Line p₀ k.sched pl n := by
  induction h with
  | start h =>
    obtain ⟨hb, rfl⟩ := start_running h
    obtain ⟨-, kroot, f, root, entry, ustack, m, rfl⟩ := boot_booted hb
    refine ⟨booted_compact cfg _ kroot f root entry ustack m, 1, ?_⟩
    rw [booted_sched]
    exact line_initSched hp₀
  | step h hpl hstep ih =>
    have ho := h.order
    have hs := step_stepped hstep
    obtain ⟨hc, n, hl⟩ := ih (lt_of_le_of_lt (ho.stepped_nextPid_le hs) hn)
    obtain ⟨hsched, hen⟩ := hs.sched ho.tree.current
    have hst := hl.toChain.stacked hc ho.tree (hl.current_last ho.tree.current hpl)
    rw [hsched]
    exact ⟨hc.apply hen hst, hl.plays ho.tree hen hpl
      (nextPid_pos ho.tree.toTree (lt_of_le_of_lt (ho.stepped_nextPid_le hs) hn))⟩

/-- **The processes of a session** form a line: each is the child of the one before it and all but
the last wait for their child, so every live one has its turn within `MAX_TASK_NUM` yields. -/
theorem session_line (hp₀ : p₀.starts = true) (h : UserSession cfg p₀ mode k pl)
    (hn : k.nextPid < 2 ^ 31) :
    (∃ n, Line p₀ k.sched pl n) ∧
      ∀ t, k.sched.Live t → ∃ j ≤ maxTaskNum, (Sched.yield^[j] k.sched).current = t := by
  obtain ⟨hc, hl⟩ := h.line hp₀ hn
  exact ⟨hl, fun t ht => hc.reaches h.order.tree ht⟩

/-- The places after `print.c` has forked. -/
def printForked : Slot → Place :=
  Function.update (Function.update (fun _ => .print) 0 .printFather) 1 .printChild

/-- `print.c` as the first program forks, and its child runs. -/
theorem tiny_session : ∃ k, UserSession tiny .print .user k printForked ∧
    Health tiny .user k 1000 4 ∧ k.sched = initSched.fork.yield := by
  have env := tinyEnv (-1) 0
  obtain ⟨k₀, hstart, h₀, hs₀, -⟩ := Health.start (tiny_bootable 0)
  obtain ⟨k₁, hstep₁, h₁, hs₁⟩ := h₀.resume tiny_wf env
  have hregs := h₁.compute tiny_wf (callRegs 6) 0
  obtain ⟨κ₂, k₂, hstep₂, h₂, hs₂, hop₂⟩ := hregs.fork env tiny_wf rfl (callRegs_clean _ _ _)
    (show 1000 + (6 + 3 * 4) ≤ 32000 by decide)
  obtain ⟨k₃, hstep₃, h₃, hs₃⟩ := h₂.resume tiny_wf env
  obtain ⟨κ₄, k₄, hstep₄, h₄, hs₄, hop₄⟩ := h₃.timer tiny_wf env
  obtain ⟨k₅, hstep₅, h₅, hs₅⟩ := h₄.resume tiny_wf env
  have hfree : initSched.freeSlot = some 1 := by decide +kernel
  have hforked : ∀ call, Plays initSched (fun _ => .print) call .fork printForked := fun call => by
    have hfork : Place.fork ((fun _ : Slot => Place.print) initSched.current) = some _ := rfl
    exact @Plays.fork initSched (fun _ => .print) call 1 _ hfork hfree
  have hs : k₁.sched = initSched := hs₁.trans hs₀
  have hnone : (none : Option SyscallId) ≠ some .exec := by decide
  have s₁ : UserSession tiny .print .user k₁ fun _ => .print :=
    .step (.start hstart) (.other hnone (.inl rfl)) hstep₁
  have s₂ : UserSession tiny .print .user _ fun _ => .print :=
    s₁.step (e := .compute (callRegs 6) 0) (.other hnone (.inl rfl)) rfl
  have s₃ : UserSession tiny .print (.kernel κ₂) k₂ printForked := by
    refine s₂.step ?_ hstep₂
    rw [hop₂]
    change Plays k₁.sched _ _ _ _
    rw [hs]
    exact hforked _
  have s₄ : UserSession tiny .print .user k₃ printForked :=
    s₃.step (.other hnone (.inl (h₂.calm env).2)) hstep₃
  have hcall : madeCall (.trap timerCause env) .user k₃ = none := by
    rw [madeCall]
    exact if_neg (by decide)
  have s₅ : UserSession tiny .print (.kernel κ₄) k₄ printForked :=
    s₄.step (.other (hcall ▸ hnone) (.inr hop₄)) hstep₄
  refine ⟨k₅, s₅.step (.other hnone (.inl (h₄.calm env).2)) hstep₅, h₅, ?_⟩
  rw [hs₅, hs₄, hs₃, hs₂]
  exact congrArg (fun s : Sched => s.fork.yield) hs

/-- Father and child each have their turn. -/
theorem session_line_print : ∃ k, UserSession tiny .print .user k printForked ∧
    ∀ t : Slot, t.val < 2 → ∃ j ≤ maxTaskNum, (Sched.yield^[j] k.sched).current = t := by
  obtain ⟨k, h, -, hs⟩ := tiny_session
  have hn : k.sched.nextPid < 2 ^ 31 := by
    rw [hs]
    decide +kernel
  refine ⟨k, h, fun t ht => (session_line rfl h hn).2 t ?_⟩
  rw [hs]
  have hlive : ∀ t : Slot, t.val < 2 → initSched.fork.yield.Live t := by decide +kernel
  exact hlive t ht

/-! ## Exits -/

theorem recycleOp_ne_exit (father : Slot) (havechild : Bool) (k : Kernel) :
    recycleOp father havechild k ≠ .exit := by
  rw [recycleOp]
  split
  · intro he
    cases he
  · split_ifs <;> decide

theorem getcharOp_ne_exit (env : Env cfg) : getcharOp env ≠ .exit := by
  rw [getcharOp]
  split_ifs <;> decide

theorem syscallOp_exit {env : Env cfg} {id arg1 : Word} (h : syscallOp env id arg1 k = .exit) :
    SyscallId.ofWord id = some .exit := by
  rw [syscallOp] at h
  split at h
  · cases h
  · split_ifs at h
    exact absurd h (getcharOp_ne_exit env)
  · cases h
  · assumption
  · exact absurd h (recycleOp_ne_exit _ _ k)
  · cases h

/-- A step of the scheduler's exit is a call of `__sys_exit`. -/
theorem step_exit (hop : stepOp cfg e (.running mode k) = .exit) :
    ∃ scause env k₁, enterTrap cfg scause k = .ok k₁ ∧
      step cfg e (.running mode k) = Sys.ofExcept (exitCurrentAndRunNext cfg env
        ((moveSepc k₁).mem.ram k₁.cur.cx (cxReg 10)) (moveSepc k₁) >>= fun r =>
          .ok (.kernel r.1, r.2)) := by
  cases mode with
  | user =>
    cases e with
    | trap scause env =>
      rw [stepOp] at hop
      cases he : enterTrap cfg scause k with
      | error err =>
        simp only [he] at hop
        cases hop
      | ok k₁ =>
        simp only [he, trapOp] at hop
        split_ifs at hop with hbit hcode hcode
        have hid := syscallOp_exit hop
        have hth := trapHandler_ecall env (by simpa using hbit) hcode
        refine ⟨scause, env, k₁, he, ?_⟩
        simp only [step, takeTrap, he, ok_bind, hth, syscall, hid]
    | _ => cases hop
  | kernel kont =>
    cases e with
    | resume env =>
      cases kont with
      | sysGetchar cx data => exact absurd hop (getcharOp_ne_exit env)
      | sysRecycle cx father havechild => exact absurd hop (recycleOp_ne_exit father havechild k)
      | _ => cases hop
    | _ => cases hop

/-- **Every exit of a session hands over**, and the father is waiting for it. The first process does
not exit if its program does not. -/
theorem session_exit (hp₀ : p₀.starts = true) (h : UserSession cfg p₀ mode k pl)
    (hn : k.nextPid < 2 ^ 31)
    (hpl : Plays k.sched pl (madeCall e mode k) (stepOp cfg e (.running mode k)) pl')
    (hexit : stepOp cfg e (.running mode k) = .exit) :
    (p₀.stays = true → k.current ≠ 0) ∧ (k.current ≠ 0 → ∃ father κ k',
      step cfg e (.running mode k) = .running (.kernel κ) k' ∧ k'.current ≠ k.current ∧
      k.cur.parent = some father ∧ k'.sched.Live father ∧ (pl father).recycle ≠ none) := by
  have ho := h.order
  obtain ⟨hc, n, hl⟩ := h.line hp₀ hn
  have hlast := hl.current_last ho.tree.current hpl (.inr hexit)
  refine ⟨fun hstays h₀ => ?_, fun h₀ => ?_⟩
  · rw [hexit] at hpl
    have hx := hpl.exits
    have hno := Place.not_exits_of_stays (hl.stays hstays)
    rw [show k.sched.current = 0 from h₀, hno] at hx
    cases hx
  · have hpid : k.cur.pid ≠ 0 := fun hz => h₀ <|
      ho.tree.toTree.pid_injective hn.le ho.tree.current.not_unInit ho.tree.init.not_unInit
        (hz.trans ho.tree.pid_init.symm)
    have hover : k.sched.HandsOver :=
      hc.handsOver ho.tree hpid (hl.top_eq hc ho.tree hlast ▸ hlast)
    obtain ⟨scause, env, k₁, he, hstep⟩ := step_exit hexit
    have hsched : (moveSepc k₁).sched = k.sched := (rfl : _ = k₁.sched).trans (enterTrap_sched he)
    have hpid' : (moveSepc k₁).cur.pid ≠ 0 := by
      have : (moveSepc k₁).cur.pid = k.cur.pid :=
        congrArg (fun s : Sched => (s.procs s.current).pid) hsched
      rwa [this]
    have hon : OnStack cfg (moveSepc k₁) := (enterTrap_stack ho.stack he).1.withMem _
    obtain ⟨κ, k', hx, hy, -⟩ := exit_of_handsOver env
      ((moveSepc k₁).mem.ram k₁.cur.cx (cxReg 10)) hon hpid' (hsched.symm ▸ hover)
    have hk' : k'.sched = k.sched.zombify.yield := by
      rw [sysYield_sched hy, becomeZombie_sched, hsched]
    obtain ⟨m, hm, hlm⟩ := hover
    have hcur : k'.current = m := by
      rw [show k'.current = k'.sched.current from rfl, hk', yield_of_live hm hlm]
      rfl
    have hlt : k.current.val + 1 = n := hlast
    obtain ⟨father, hf, hv⟩ := hl.parent k.current h₀ (by omega)
    have hwait : father.val + 1 < n := by omega
    have hne : father ≠ k.current := fun he => by
      rw [he] at hv
      omega
    refine ⟨father, κ, k', by rw [hstep, hx]; rfl, ?_, hf, ?_, hl.waits father hwait⟩
    · rw [hcur]
      exact (Tree.live_zombify.mp hlm).2
    · rw [hk', (sameProcs_yield _).live]
      exact Tree.live_zombify.mpr ⟨hl.live father hwait, hne⟩

/-- The child of `print.c` exits. -/
theorem session_exit_print : ∃ (k k' : Kernel) (κ : Kont),
    UserSession tiny .print .user k printForked ∧ k.current = 1 ∧
    step tiny (.trap ecallCause (tinyEnv (-1) 0)) (.running .user k) = .running (.kernel κ) k' ∧
    k'.current ≠ 1 ∧ k.cur.parent = some 0 ∧ k'.sched.Live 0 := by
  obtain ⟨k, h, hk, hs⟩ := tiny_session
  have hnone : (none : Option SyscallId) ≠ some .exec := by decide
  have h₁ : UserSession tiny .print .user { k with cpu := { k.cpu with x := callRegs 8, pc := 0 } }
      printForked := h.step (e := .compute (callRegs 8) 0) (.other hnone (.inl rfl)) rfl
  have hk₁ := hk.compute tiny_wf (callRegs 8) 0
  obtain ⟨k₂, he, hh⟩ := enterTrap_of_ready hk₁.toInv hk₁.ready ecallCause
  have hop : stepOp tiny (.trap ecallCause (tinyEnv (-1) 0)) (.running .user
      { k with cpu := { k.cpu with x := callRegs 8, pc := 0 } }) = .exit :=
    stepOp_ecall he hh (tinyEnv (-1) 0)
  have hcur : k.sched.current = 1 := by
    rw [hs]
    decide +kernel
  have hpar : (k.sched.procs k.sched.current).parent = some 0 := by
    rw [hs]
    decide +kernel
  have hn : k.sched.nextPid < 2 ^ 31 := by
    rw [hs]
    decide +kernel
  have hplays : Plays k.sched printForked (madeCall (.trap ecallCause (tinyEnv (-1) 0)) .user
      { k with cpu := { k.cpu with x := callRegs 8, pc := 0 } })
      (stepOp tiny (.trap ecallCause (tinyEnv (-1) 0)) (.running .user
        { k with cpu := { k.cpu with x := callRegs 8, pc := 0 } })) printForked := by
    rw [hop]
    refine .exit ?_
    rw [hcur]
    rfl
  have hne : k.sched.current ≠ 0 := by
    rw [hcur]
    decide
  obtain ⟨father, κ, k', hstep, hk', hf, hl, -⟩ := (session_exit rfl h₁ hn hplays hop).2 hne
  obtain rfl : father = 0 := Option.some.inj (hf.symm.trans hpar)
  exact ⟨_, k', κ, h₁, hcur, hstep, fun he' => hk' (he'.trans hcur.symm), hf, hl⟩

end RiscvOs
