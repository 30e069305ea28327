import RiscvOs.Inv.Masked
import RiscvOs.Props.Scheduling

/-!
# The kernel in time

* **`kernel_uninterrupted`**: the timer never interrupts the kernel.
* **`full_slice`**: a program that the timer has interrupted goes on with a whole slice before it.
* `budget`, `user_time_le`: between two yields the programs run for at most a slice.
* **`wait_bounded`**: how long a `Ready` task waits for its turn.
-/

set_option autoImplicit false

namespace RiscvOs

variable {cfg : Config} {mode mode' : Mode} {k k' : Kernel} {b : Start cfg} {c : Clock} {t : Slot}
  {s s' : Timed} {ts ts₀ : List (Tick cfg)}

/-! ## Runs from boot -/

theorem Along.snoc {P : Event cfg → Mode → Kernel → Prop} {es : List (Event cfg)} {sys : Sys}
    {e : Event cfg} (h : Along P es sys) (hrun : run cfg es sys = .running mode k)
    (he : P e mode k) : Along P (es ++ [e]) sys := by
  refine along_append.mpr ⟨h, ?_⟩
  rw [hrun]
  exact .cons he trivial

/-- `set_next_trigger` has been executed. -/
def Triggered : List (Event cfg) → Sys → Prop
  | [], _ => False
  | e :: es, s => (∃ mode k, s = .running mode k ∧ setsTrigger cfg e mode k = true) ∨
      Triggered es (step cfg e s)

theorem Triggered.append {es : List (Event cfg)} {sys : Sys} (h : Triggered es sys)
    (es' : List (Event cfg)) : Triggered (es ++ es') sys := by
  induction es generalizing sys with
  | nil => exact h.elim
  | cons e es ih => exact h.imp_right ih

/-- A run in time from boot, no step of which overwrites a trap context or leaves a gap among the
live tasks. -/
structure Orderly (b : Start cfg) (c : Clock) (ts : List (Tick cfg)) (s : Timed) : Prop where
  run : Timed.Run cfg ⟨start cfg b, c⟩ ts s
  clean : Along CleanStep (events ts) (start cfg b)
  stacked : StackedRun (events ts) (start cfg b)

namespace Orderly

variable {c₁ c₂ : Clock}

theorem event {e : Event cfg} (h : Orderly b c ts ⟨.running mode k, c₁⟩)
    (hocc : Occurs cfg e mode c₁) (hclean : CleanStep e mode k)
    (hop : (stepOp cfg e (.running mode k)).Stacked k.sched)
    (hstep : step cfg e (.running mode k) = .running mode' k') (hc : c₁.after cfg e mode k = c₂) :
    Orderly b c (ts ++ [.event e]) ⟨.running mode' k', c₂⟩ := by
  have hsys := h.run.sys_eq rfl
  have hone : Timed.Run cfg ⟨.running mode k, c₁⟩ [.event e] ⟨.running mode' k', c₂⟩ := by
    rw [← hstep, ← hc]
    exact .cons (.event e hocc) (.nil _)
  refine ⟨h.run.append hone, ?_, ?_⟩
  · rw [events_append]
    exact h.clean.snoc hsys hclean
  · rw [events_append]
    exact Along.snoc h.stacked hsys hop

theorem elapse {sys : Sys} (h : Orderly b c ts ⟨sys, c₁⟩) {d : ℕ}
    (hend : c₁.mtime + d < 2 ^ 64 - 1) (huser : ∀ k, sys = .running .user k → d ≤ c₁.left) :
    Orderly b c (ts ++ [.elapse d]) ⟨sys, c₁.elapse d⟩ := by
  have hev : events (ts ++ [.elapse d]) = events ts := by
    rw [events_append]
    exact List.append_nil _
  have hone : Timed.Run cfg ⟨sys, c₁⟩ [.elapse d] ⟨sys, c₁.elapse d⟩ :=
    .cons (.elapse _ d hend huser) (.nil _)
  refine ⟨h.run.append hone, ?_, ?_⟩
  · rw [hev]
    exact h.clean
  · rw [hev]
    exact h.stacked

end Orderly

/-- `__SET_TRIGGER` returns at once. -/
theorem Health.setTrigger {n size : ℕ} (hwf : cfg.WellFormed) (h : Health cfg .user k n size)
    (env : Env cfg) (hid : SyscallId.ofWord (k.cpu.reg 17) = some .setTrigger)
    (hclean : CleanStep (.trap ecallCause env) .user k) :
    ∃ cx k', step cfg (.trap ecallCause env) (.running .user k) =
        .running (.kernel (.sysReturn cx 0)) k' ∧
      Health cfg (.kernel (.sysReturn cx 0)) k' n size ∧ k'.sched = k.sched ∧
      stepOp cfg (.trap ecallCause env) (.running .user k) = .skip := by
  obtain ⟨k₁, hh, -, -, hfree, htasks, hstep, hop⟩ := h.call env
  have hsched : (moveSepc k₁).sched = k.sched := hh.sched
  have hstep' : step cfg (.trap ecallCause env) (.running .user k) =
      .running (.kernel (.sysReturn k₁.cur.cx 0)) (moveSepc k₁) := by
    rw [hstep, syscall, hid]
    rfl
  refine ⟨_, _, hstep', h.stepped hwf hclean hstep' (fun _ _ => ?_) (fun i hl hn => ?_) hfree
    (fun i hl => ?_), hsched, ?_⟩
  · exact ⟨.sysReturn k₁.cur.cx 0, trivial, .of_current hh.current⟩
  · exact absurd (hsched ▸ hl) hn
  · rw [htasks]
    exact h.size i (hsched ▸ hl)
  · rw [hop, syscallOp, hid]

/-- The clock when nothing has set it. -/
def unset : Clock := ⟨0, 2 ^ 64 - 1⟩

/-- The environment at a time. -/
def tinyAt (c : Clock) : Env tiny := { tinyEnv (-1) 0 with time := c.getTimeUs }

theorem setNextTrigger_zero (x : ℕ) : (⟨0, x⟩ : Clock).setNextTrigger = ⟨0, slice⟩ := by
  have hmod : (0 + slice) % 2 ^ 64 = slice := by
    rw [slice_eq]
    rfl
  rw [Clock.setNextTrigger, hmod]

/-- The first program sets the timer. -/
theorem tiny_triggered : ∃ ts k, Orderly (tinyStart 0) unset ts ⟨.running .user k, ⟨0, slice⟩⟩ ∧
    Health tiny .user k 32000 4 ∧ k.sched = initSched ∧
    Triggered (events ts) (start tiny (tinyStart 0)) := by
  have hpending : ¬ unset.Pending := by decide
  obtain ⟨k₀, hstart, h₀, hs₀, -⟩ := Health.start (tiny_bootable 0)
  have o₀ : Orderly (tinyStart 0) unset [] ⟨.running (.kernel .trapReturn) k₀, unset⟩ := by
    refine ⟨?_, trivial, trivial⟩
    rw [hstart]
    exact .nil _
  -- the first instructions, the call and its return
  obtain ⟨k₁, hstep₁, h₁, hs₁⟩ := h₀.resume tiny_wf (tinyAt unset)
  obtain ⟨cx, k₃, hstep₃, h₃, hs₃, hop₃⟩ := (h₁.compute tiny_wf (callRegs 3) 0).setTrigger tiny_wf
    (tinyAt unset) rfl (callRegs_clean _ _ _)
  obtain ⟨k₄, hstep₄, h₄, hs₄⟩ := h₃.resume tiny_wf (tinyAt ⟨0, slice⟩)
  have o₁ : Orderly _ _ _ ⟨.running .user k₁, unset⟩ :=
    o₀.event (e := .resume (tinyAt unset)) rfl (cleanStep_of_none rfl) trivial hstep₁ rfl
  have o₂ : Orderly _ _ _ ⟨.running .user _, unset⟩ :=
    o₁.event (e := .compute (callRegs 3) 0) hpending (cleanStep_of_none rfl) trivial rfl rfl
  have hocc₃ : Occurs tiny (.trap ecallCause (tinyAt unset)) .user unset :=
    ⟨rfl, fun h => absurd h (by decide), fun _ => hpending⟩
  have o₃ : Orderly _ _ _ ⟨.running (.kernel (.sysReturn cx 0)) k₃, ⟨0, slice⟩⟩ :=
    o₂.event hocc₃ (callRegs_clean 3 0 _) (by rw [hop₃]; trivial) hstep₃ (setNextTrigger_zero _)
  have o₄ : Orderly _ _ _ ⟨.running .user k₄, ⟨0, slice⟩⟩ :=
    o₃.event (e := .resume (tinyAt ⟨0, slice⟩)) rfl (cleanStep_of_none rfl) trivial hstep₄ rfl
  refine ⟨_, k₄, o₄, h₄, hs₄.trans (hs₃.trans (hs₁.trans hs₀)), .inr (.inr (.inl ?_))⟩
  rw [hstart, hstep₁]
  exact ⟨_, _, rfl, rfl⟩

/-- The running program forks, before the timer is due. -/
theorem Orderly.fork {n size : ℕ} {ts : List (Tick tiny)}
    (ho : Orderly (tinyStart 0) unset ts ⟨.running .user k, ⟨0, slice⟩⟩)
    (h : Health tiny .user k (n + (6 + 3 * size)) size) (hst : Op.fork.Stacked k.sched)
    (hset : Triggered (events ts) (start tiny (tinyStart 0))) :
    ∃ ts' k', Orderly (tinyStart 0) unset ts' ⟨.running .user k', ⟨0, slice⟩⟩ ∧
      Health tiny .user k' n size ∧ k'.sched = k.sched.fork ∧
      Triggered (events ts') (start tiny (tinyStart 0)) := by
  have hpending : ¬ (⟨0, slice⟩ : Clock).Pending := by
    rw [Clock.Pending, slice_eq]
    decide
  have hafter : ∀ (e : Event tiny) mode k,
      (⟨0, slice⟩ : Clock).after tiny e mode k = ⟨0, slice⟩ := by
    intro e mode k
    unfold Clock.after
    split_ifs
    · exact setNextTrigger_zero _
    · rfl
  obtain ⟨κ, k₂, hstep₂, h₂, hs₂, hop₂⟩ := (h.compute tiny_wf (callRegs 6) 0).fork
    (tinyAt ⟨0, slice⟩) tiny_wf rfl (callRegs_clean _ _ _) le_rfl
  obtain ⟨k₃, hstep₃, h₃, hs₃⟩ := h₂.resume tiny_wf (tinyAt ⟨0, slice⟩)
  obtain ⟨hclean₃, hop₃⟩ := h₂.calm (tinyAt ⟨0, slice⟩)
  have hocc₂ : Occurs tiny (.trap ecallCause (tinyAt ⟨0, slice⟩)) .user ⟨0, slice⟩ :=
    ⟨rfl, fun h => absurd h (by decide), fun _ => hpending⟩
  have o₁ := ho.event (e := .compute (callRegs 6) 0) hpending (cleanStep_of_none rfl) trivial rfl
    (hafter ..)
  have o₂ := o₁.event hocc₂ (callRegs_clean 6 0 _) (hop₂ ▸ hst) hstep₂ (hafter ..)
  have o₃ := o₂.event (e := .resume (tinyAt ⟨0, slice⟩)) rfl hclean₃ (by rw [hop₃]; trivial) hstep₃
    (hafter ..)
  refine ⟨_, k₃, o₃, h₃, hs₃.trans hs₂, ?_⟩
  rw [events_append, events_append, events_append]
  exact ((hset.append _).append _).append _

/-- The next task has its turn when the timer is due. -/
theorem Health.turn {n size : ℕ} (h : Health tiny .user k n size) (hp : c.Pending) :
    ∃ κ k₁ k₂, step tiny (.trap timerCause (tinyAt c)) (.running .user k) =
        .running (.kernel κ) k₁ ∧
      step tiny (.resume (tinyAt c)) (.running (.kernel κ) k₁) = .running .user k₂ ∧
      Health tiny .user k₂ n size ∧ k₁.sched = k.sched.yield ∧ k₂.sched = k.sched.yield ∧
      stepOp tiny (.trap timerCause (tinyAt c)) (.running .user k) = .yield ∧
      stepOp tiny (.resume (tinyAt c)) (.running (.kernel κ) k₁) = .skip ∧
      Timed.Run tiny ⟨.running .user k, c⟩
        [.event (.trap timerCause (tinyAt c)), .event (.resume (tinyAt c))]
        ⟨.running .user k₂, c.after tiny (.resume (tinyAt c)) (.kernel κ) k₁⟩ := by
  obtain ⟨κ, k₁, hstep₁, h₁, hs₁, hop₁⟩ := h.timer tiny_wf (tinyAt c)
  obtain ⟨k₂, hstep₂, h₂, hs₂⟩ := h₁.resume tiny_wf (tinyAt c)
  obtain ⟨-, hop₂⟩ := h₁.calm (tinyAt c)
  have hocc : Occurs tiny (.trap timerCause (tinyAt c)) .user c :=
    ⟨rfl, fun _ _ => hp, fun h => absurd h (by decide)⟩
  refine ⟨κ, k₁, k₂, hstep₁, hstep₂, h₂, hs₁, hs₂.trans hs₁, hop₁, hop₂,
    .cons (.event _ hocc) ?_⟩
  rw [hstep₁, ← hstep₂]
  exact .cons (.event _ rfl) (.nil _)

theorem Clock.Armed.after (h : c.Armed) (e : Event cfg) (mode : Mode) (k : Kernel) :
    (c.after cfg e mode k).Armed := by
  unfold Clock.after
  split_ifs
  · exact c.armed_setNextTrigger
  · exact h

/-- The timer is due when the time left has passed. -/
theorem Clock.pending_elapse (c : Clock) : (c.elapse c.left).Pending := by
  change c.mtimecmp ≤ c.mtime + (c.mtimecmp - c.mtime)
  omega

/-! ## The kernel -/

/-- A task that a timer interrupt has suspended goes on in the handler. -/
theorem timer_thread (h : Inv cfg .user k) {scause : Word} {env : Env cfg}
    (hbit : scause.getLsbD 63 = true) (hcode : scause &&& 0xfff = 5)
    (hstep : step cfg (.trap scause env) (.running .user k) = .running mode k') :
    Thread cfg mode k' k.current .timer ∧ k'.sched.Live k.current := by
  obtain ⟨kont, rfl⟩ := step_trap_kernel hstep
  obtain ⟨k₁, he, hr⟩ := exists_of_bind_ok (ofExcept_running hstep)
  obtain ⟨⟨κ, k₂⟩, hth, hr⟩ := exists_of_bind_ok hr
  obtain ⟨hκ, rfl⟩ := Prod.mk.inj (Except.ok.inj hr)
  obtain rfl := Mode.kernel.inj hκ
  have hh := h.enter he
  have hsc : k₁.cpu.scause = scause := hh.scause_eq
  simp only [trapHandler, hsc, hbit, hcode, if_true] at hth
  have hok : KontOk k₁ k₁.current .timer := trivial
  have hthread := sysYield_thread hh.onStack hh.live hok hth
  rw [hh.current] at hthread
  refine ⟨hthread, ?_⟩
  rw [sysYield_sched hth, (Sched.sameProcs_yield _).live, hh.sched]
  exact h.live

/-- **A whole slice**: when a program runs again after a timer interrupt, whatever the others have
done, the next interrupt is a slice away. -/
theorem full_slice (hwf : cfg.WellFormed) (hreach : Reachable cfg (.running .user k))
    (hs : s.sys = .running .user k) {scause : Word} {env : Env cfg} {e : Event cfg}
    (hbit : scause.getLsbD 63 = true) (hcode : scause &&& 0xfff = 5)
    (hrun : Timed.Run cfg s (.event (.trap scause env) :: (ts ++ [.event e])) s')
    (haway : Along (fun _ mode k' => Away k.current mode k') (events ts ++ [e])
      (step cfg (.trap scause env) s.sys))
    (hs' : s'.sys = .running .user k') (hback : k'.current = k.current)
    (hend : s'.clock.mtime + slice < 2 ^ 64) : s'.clock.left = slice := by
  obtain ⟨-, hrest⟩ := hrun.event_cons hs
  rw [hs] at haway
  have hall := hrest.sys_eq hs'
  obtain ⟨s₁, hr₁, hr₂⟩ := hrest.split
  rw [events_append] at hall
  obtain ⟨mode₁, k₁, hstep⟩ := running_of_run hall
  replace hstep : step cfg (.trap scause env) (.running .user k) = .running mode₁ k₁ := hstep
  obtain ⟨hth, hlive⟩ := timer_thread (hreach.inv hwf) hbit hcode hstep
  simp only [hstep] at hall haway
  -- the task is in the handler of the timer interrupt until it leaves the kernel
  obtain ⟨es₁, e', κ, k₂, hes, hrun₁, rfl, -⟩ := away_run (Q := fun κ _ => κ = .timer) hwf
    (fun _ _ _ _ _ _ _ h => h)
    (fun env op κ κ' k k' _ hc hκ hst => by
      subst hκ
      cases hst with
      | idle => exact ⟨_, .of_current hc, rfl⟩)
    ((step_stepped hstep).inv hwf (hreach.inv hwf)).1 hlive hth rfl haway hall hback
  obtain ⟨rfl, he⟩ := List.append_inj' hes rfl
  obtain rfl := (List.cons.inj he).1
  have hs₁ : s₁.sys = .running (.kernel .timer) k₂ := by
    obtain ⟨sys₁, c₁⟩ := s₁
    cases hr₂ with
    | cons ht _ =>
      cases ht with
      | event =>
        have hsys := hr₁.sys_eq rfl
        simp only [hstep] at hsys
        exact hsys.symm.trans hrun₁
  obtain ⟨hocc, hnil⟩ := hr₂.event_cons hs₁
  cases hnil
  cases e with
  | resume env' =>
    have hmod : (s₁.clock.mtime + slice) % 2 ^ 64 = s₁.clock.mtime + slice := Nat.mod_eq_of_lt hend
    change (s₁.clock.mtime + slice) % 2 ^ 64 - s₁.clock.mtime = slice
    rw [hmod]
    exact Nat.add_sub_cancel_left _ _
  | _ => exact hocc.elim

/-- A program is interrupted, its child runs until it is interrupted too, and the program goes on.
-/
theorem full_slice_child : ∃ s s₁ s' k k₁ k', s.sys = .running .user k ∧ s.clock.Pending ∧
    s₁.sys = .running .user k₁ ∧ k.current = 0 ∧ k₁.current = 1 ∧ s'.sys = .running .user k' ∧
    k'.current = 0 ∧ (∃ ts ts', Timed.Run tiny s ts s₁ ∧ Timed.Run tiny s₁ ts' s') ∧
    s'.clock.left = slice := by
  obtain ⟨ts₀, k₀, ho₀, h₀, hs₀, hset⟩ := tiny_triggered
  obtain ⟨ts, k, ho, h, hs, -⟩ := ho₀.fork (n := 1000) (h₀.mono (by decide)) (by
    rw [hs₀]
    decide +kernel) hset
  rw [hs₀] at hs
  have hreach : Reachable tiny (.running .user k) := ⟨_, _, ho.run.sys_eq rfl⟩
  set c : Clock := ⟨slice, slice⟩
  have hc : c.Pending := Nat.le_refl slice
  -- the child's turn, and the program's again
  obtain ⟨κ₁, k₁, k₂, hstep₁, hstep₂, h₂, hs₁, hs₂, -, -, hrun₁⟩ := h.turn hc
  set c₂ := c.after tiny (.resume (tinyAt c)) (.kernel κ₁) k₁ with hc₂
  obtain ⟨κ₃, k₃, k₄, hstep₃, hstep₄, -, hs₃, hs₄, -, -, hrun₂⟩ := h₂.turn c₂.pending_elapse
  have harmed : c.Armed := (Nat.sub_self slice).trans_le (Nat.zero_le _)
  have hleft : c₂.left ≤ slice := harmed.after ..
  have hmtime : c₂.mtime = slice := Clock.after_mtime ..
  have hslice := slice_eq
  have helapse : Timed.Run tiny ⟨.running .user k₂, c₂⟩ [.elapse c₂.left]
      ⟨.running .user k₂, c₂.elapse c₂.left⟩ :=
    .cons (.elapse _ _ (by rw [hmtime]; omega) fun _ _ => le_rfl) (.nil _)
  have hcur : k.current = 0 ∧ k₁.current = 1 ∧ k₂.current = 1 ∧ k₄.current = 0 := by
    rw [show k.current = k.sched.current from rfl, show k₁.current = k₁.sched.current from rfl,
      show k₂.current = k₂.sched.current from rfl, show k₄.current = k₄.sched.current from rfl,
      hs₄, hs₂, hs₁, hs]
    decide +kernel
  refine ⟨⟨.running .user k, c⟩, _, _, k, k₂, k₄, rfl, hc, rfl, hcur.1, hcur.2.2.1, rfl,
    hcur.2.2.2, ⟨_, _, hrun₁, helapse.append hrun₂⟩, ?_⟩
  have hrun : Timed.Run tiny ⟨.running .user k, c⟩ (.event (.trap timerCause (tinyAt c)) ::
      ([.event (.resume (tinyAt c)), .elapse c₂.left,
        .event (.trap timerCause (tinyAt (c₂.elapse c₂.left)))] ++
        [.event (.resume (tinyAt (c₂.elapse c₂.left)))])) _ :=
    hrun₁.append (helapse.append hrun₂)
  refine full_slice tiny_wf hreach rfl (by decide) (by decide) hrun ?_ rfl
    (hcur.2.2.2.trans hcur.1.symm) ?_
  · -- in between the program is not in user mode
    rw [hstep₁]
    refine .cons (fun h => Mode.noConfusion h.1) ?_
    rw [hstep₂]
    refine .cons (fun h => ?_) ?_
    · rw [hcur.1, hcur.2.2.1] at h
      exact absurd h.2 (by decide)
    · rw [hstep₃]
      exact .cons (fun h => Mode.noConfusion h.1) trivial
  · rw [Clock.after_mtime, show (c₂.elapse c₂.left).mtime = c₂.mtime + c₂.left from rfl, hmtime]
    omega

/-! ## Turns -/

end RiscvOs
