import RiscvOs.Inv.Reach

/-!
# The thread of one task

A task that has entered the kernel is at some point of the kernel's code until it leaves it again:
running there, or suspended there while others run.

* `Thread`: where the task is; `Thread.others`: the steps of other tasks do not move it.
* `sysYield_thread`, `Served.thread`: its own steps do.
* **`away_induction`**, `away_run`: the rule of the runs between a trap of a task and its next
  return to user mode.
-/

set_option autoImplicit false

namespace RiscvOs

variable {cfg : Config} {env : Env cfg} {mode mode' : Mode} {k k' : Kernel} {kont self : Kont}
  {t : Slot}

/-! ## Where a task is -/

/-- The task `t` is in the kernel and goes on at `kont`. -/
def Thread (cfg : Config) (mode : Mode) (k : Kernel) (t : Slot) (kont : Kont) : Prop :=
  if k.current = t then mode = .kernel kont else Suspended cfg k t kont

theorem Thread.of_current (h : k.current = t) : Thread cfg (.kernel kont) k t kont := by
  rw [Thread, if_pos h]

theorem Thread.of_suspended (h : k.current ≠ t) (hs : Suspended cfg k t kont) :
    Thread cfg mode k t kont := by
  rw [Thread, if_neg h]
  exact hs

theorem Thread.suspended (ht : Thread cfg mode k t kont) (h : k.current ≠ t) :
    Suspended cfg k t kont := by rwa [Thread, if_neg h] at ht

theorem Thread.mode_eq (ht : Thread cfg mode k t kont) (h : k.current = t) :
    mode = .kernel kont := by rwa [Thread, if_pos h] at ht

/-- A task is suspended at one place. -/
theorem Suspended.unique {kont' : Kont} (h : Suspended cfg k t kont)
    (h' : Suspended cfg k t kont') : kont = kont' :=
  Except.ok.inj (h.resumeAt.symm.trans h'.resumeAt)

/-- **Others do not move it.** -/
theorem Thread.others (ht : Thread cfg mode k t kont) (hne : k.current ≠ t)
    (hb : Bystander cfg k k' mode' t) : Thread cfg mode' k' t kont := by
  have hs := ht.suspended hne
  by_cases he : k'.current = t
  · obtain ⟨κ, rfl, hκ⟩ := hb.2 he
    rw [hs.unique hκ]
    exact .of_current he
  · exact .of_suspended he (hs.congr hb.1)

/-! ## Its own steps -/

/-- A yield leaves the task where the yield returns to. -/
theorem sysYield_thread (h : OnStack cfg k) (hc : k.sched.Live k.current)
    (hself : KontOk k k.current self) (hy : sysYield cfg env self k = .ok (kont, k')) :
    Thread cfg (.kernel kont) k' k.current self := by
  obtain ⟨rfl, rfl⟩ | ⟨-, -, -, hsame, hsusp⟩ := sysYield_stack h (fun _ => hself) hy
  · exact .of_current rfl
  · by_cases he : k'.current = k.current
    · rw [hsame he]
      exact .of_current he
    · exact .of_suspended he (hsusp hc he)

/-- A system call other than `exit` waits or returns. -/
theorem Served.thread {cx : ℕ} {father : Slot} {data : Option Word} {call : SyscallId} {op : Op}
    (h : OnStack cfg k) (hc : k.sched.Live k.current) (hcx : cx = k.cur.cx)
    (hf : father = k.current)
    (hs : Served cfg env cx father data k call op kont k') (hcall : call ≠ .exit) :
    ∃ κ, Thread cfg (.kernel kont) k' k.current κ ∧
      ((∃ v, κ = .sysReturn cx v) ∧ (call = .getChar → data = none ∨ env.console ≠ -1) ∨
        Waits cx father data call κ ∧ (call = .getChar → env.console = -1)) := by
  cases hs with
  | quiet call v out hd =>
    exact ⟨_, .of_current rfl, .inl ⟨⟨v, rfl⟩, fun hg => .inl (hd hg)⟩⟩
  | putchar _ hpa hst hcon =>
    obtain ⟨-, rfl⟩ := kernelStoreByte_shape hst
    exact ⟨_, .of_current rfl, .inl ⟨⟨0, rfl⟩, fun _ => .inr hcon⟩⟩
  | fork hk =>
    exact ⟨_, .of_current (sysFork_stack h hc hk).current, .inl ⟨⟨_, rfl⟩, fun hg => by cases hg⟩⟩
  | exec hk =>
    exact ⟨_, .of_current (sysExec_stack (h.withMem _) hk).current,
      .inl ⟨⟨_, rfl⟩, fun hg => by cases hg⟩⟩
  | reap out hz hk =>
    exact ⟨_, .of_current (freeChild_stack h hc (zombie_of_zombieChild hz).2 hk).current,
      .inl ⟨⟨_, rfl⟩, fun hg => by cases hg⟩⟩
  | exit => exact absurd rfl hcall
  | yield hw hy hcon => exact ⟨_, sysYield_thread h hc (hw.kontOk hcx hf) hy, .inr ⟨hw, hcon⟩⟩

/-! ## Live tasks -/

/-- Only an exit of the running task ends a task. -/
theorem Op.live_apply {s : Sched} {op : Op} (hop : op.Enabled s)
    (hexit : op = .exit → t ≠ s.current) (h : s.Live t) : (op.apply s).Live t := by
  cases op with
  | skip => exact h
  | yield => exact ((Sched.sameProcs_yield s).live t).mpr h
  | fork =>
    cases hf : s.freeSlot with
    | none => rwa [Op.apply, Tree.fork_of_full hf]
    | some p => exact (Tree.live_fork hf).mpr (.inr h)
  | exit =>
    exact ((Sched.sameProcs_yield _).live t).mpr (Tree.live_zombify.mpr ⟨h, hexit rfl⟩)
  | reap child =>
    have hne : t ≠ child := fun he => by
      rw [Sched.Live, he, show (s.procs child).taskState = .zombie from hop] at h
      exact absurd h (by decide)
    rw [Sched.Live, Op.apply, Sched.reap]
    simp only [Function.update_of_ne hne]
    exact h

theorem Served.op_ne_exit {cx : ℕ} {father : Slot} {data : Option Word} {call : SyscallId} {op : Op}
    (hs : Served cfg env cx father data k call op kont k') (hcall : call ≠ .exit) :
    op ≠ .exit := by
  cases hs with
  | exit => exact absurd rfl hcall
  | _ => exact nofun

section Stepped

variable {e : Event cfg} {op : Op} {κ : Kont}

theorem Stepped.op_ne_exit (h : Stepped (.kernel κ) k e op mode' k') : op ≠ .exit := by
  cases h with
  | idle => exact nofun
  | leave => exact nofun
  | yielded => exact nofun
  | getchar hs => exact hs.op_ne_exit nofun
  | recycle hs => exact hs.op_ne_exit nofun
  | sysReturn => exact nofun

/-- In the kernel only `resume` does anything. -/
theorem Stepped.kernel_cases (h : Stepped (.kernel κ) k e op mode' k') :
    (∃ env, e = .resume env) ∨ ((∀ env, e ≠ .resume env) ∧ mode' = .kernel κ ∧ k' = k) := by
  cases h with
  | idle _ _ _ he => exact .inr ⟨he, rfl, rfl⟩
  | leave => exact .inl ⟨_, rfl⟩
  | yielded => exact .inl ⟨_, rfl⟩
  | getchar => exact .inl ⟨_, rfl⟩
  | recycle => exact .inl ⟨_, rfl⟩
  | sysReturn => exact .inl ⟨_, rfl⟩

/-- A task leaves the kernel by itself. -/
theorem Stepped.current_of_user (h : Stepped (.kernel κ) k e op .user k') :
    k'.current = k.current := by
  cases h with
  | leave _ ht =>
    obtain ⟨m, c, rfl⟩ := trapReturn_shape ht
    rfl
  | sysReturn ht =>
    obtain ⟨m, c, rfl⟩ := trapReturn_shape ht
    rfl

end Stepped

/-! ## Away -/

/-- The task `t` is not running its program. -/
def Away (t : Slot) (mode : Mode) (k : Kernel) : Prop := ¬ (mode = .user ∧ k.current = t)

instance (t : Slot) (mode : Mode) (k : Kernel) : Decidable (Away t mode k) :=
  inferInstanceAs (Decidable (¬ _))

/-- The task `t` comes back to its program from the place `κ` of the kernel, in the state `k`. -/
structure Back (cfg : Config) (t : Slot) (κ : Kont) (k k' : Kernel) : Prop where
  inv : Inv cfg (.kernel κ) k
  current : k.current = t
  stepped : ∃ env, Stepped (.kernel κ) k (.resume env)
    (stepOp cfg (.resume env) (.running (.kernel κ) k)) .user k'

/-- **The rule of the runs of a task through the kernel.** `Q` is what the task relies on at a
place of the kernel, of the events to come and of the state: the steps of others, which leave the
task untouched, must keep it, and so must its own steps. Then it comes back to its program from a
place with `Q`. -/
theorem away_induction {Q : List (Event cfg) → Mode → Kont → Kernel → Prop} (hwf : cfg.WellFormed)
    (hother : ∀ e es mode mode' κ k k', Inv cfg mode k → k.sched.Live t → k.current ≠ t →
      step cfg e (.running mode k) = .running mode' k' → Untouched k k' t →
      Q (e :: es) mode κ k → Q es mode' κ k')
    (hidle : ∀ e es κ k, (∀ env, e ≠ .resume env) → Q (e :: es) (.kernel κ) κ k →
      Q es (.kernel κ) κ k)
    (hself : ∀ (env : Env cfg) es op κ κ' k k', Inv cfg (.kernel κ) k → k.current = t →
      Q (.resume env :: es) (.kernel κ) κ k →
      step cfg (.resume env) (.running (.kernel κ) k) = .running (.kernel κ') k' →
      Stepped (.kernel κ) k (.resume env) op (.kernel κ') k' →
      ∃ κ₁, Thread cfg (.kernel κ') k' t κ₁ ∧ Q es (.kernel κ') κ₁ k')
    {κ : Kont} (hi : Inv cfg mode k) (hl : k.sched.Live t) (ht : Thread cfg mode k t κ)
    {es : List (Event cfg)} (hq : Q es mode κ k)
    (haway : Along (fun _ mode k => Away t mode k) es (.running mode k))
    (hrun : run cfg es (.running mode k) = .running .user k') (hback : k'.current = t) :
    ∃ es₁ e κ₁ k₁, es = es₁ ++ [e] ∧
      run cfg es₁ (.running mode k) = .running (.kernel κ₁) k₁ ∧ Q [e] (.kernel κ₁) κ₁ k₁ ∧
      Back cfg t κ₁ k₁ k' := by
  induction es generalizing mode k κ with
  | nil =>
    obtain ⟨rfl, rfl⟩ := Sys.running.inj hrun
    cases ht.mode_eq hback
  | cons e es ih =>
    rw [run_cons] at hrun
    obtain ⟨mode₁, k₁, hstep⟩ := running_of_run hrun
    have haway₁ := haway.2
    rw [hstep] at hrun haway₁
    have hs := step_stepped hstep
    obtain ⟨hi₁, hun⟩ := hs.inv hwf hi
    obtain ⟨hsched, hen⟩ := hs.sched hi.live
    -- the rest of the run, from a place with `Q`
    have hrest : ∀ κ₁, Thread cfg mode₁ k₁ t κ₁ → Q es mode₁ κ₁ k₁ → k₁.sched.Live t →
        ∃ es₁ e' κ₂ k₂, e :: es = es₁ ++ [e'] ∧
          run cfg es₁ (.running mode k) = .running (.kernel κ₂) k₂ ∧ Q [e'] (.kernel κ₂) κ₂ k₂ ∧
          Back cfg t κ₂ k₂ k' := fun κ₁ ht₁ hq₁ hl₁ => by
      obtain ⟨es₁, e', κ₂, k₂, rfl, hr, h⟩ := ih hi₁ hl₁ ht₁ hq₁ haway₁ hrun
      exact ⟨e :: es₁, e', κ₂, k₂, rfl, by rw [run_cons, hstep]; exact hr, h⟩
    by_cases hc : k.current = t
    · obtain rfl := ht.mode_eq hc
      have hl₁ : k₁.sched.Live t := by
        rw [hsched]
        exact Op.live_apply hen (fun he => absurd he hs.op_ne_exit) hl
      obtain ⟨env, rfl⟩ | ⟨hne, rfl, rfl⟩ := hs.kernel_cases
      · cases mode₁ with
        | kernel κ' =>
          obtain ⟨κ₁, ht₁, hq₁⟩ := hself env es _ κ κ' k k₁ hi hc hq hstep hs
          exact hrest κ₁ ht₁ hq₁ hl₁
        | user =>
          have hc₁ : k₁.current = t := hs.current_of_user.trans hc
          cases es with
          | nil =>
            obtain ⟨-, rfl⟩ := Sys.running.inj hrun
            exact ⟨[], _, κ, k, rfl, rfl, hq, hi, hc, env, hs⟩
          | cons e' es => exact absurd ⟨rfl, hc₁⟩ (haway₁.1 _ _ rfl)
      · exact hrest κ ht (hidle e es κ _ hne hq) hl₁
    · have hb := (hs.stack hi.stack hi.live).2 t (Ne.symm hc) hl
      have hl₁ : k₁.sched.Live t := by
        rw [hsched]
        exact Op.live_apply hen (fun _ => Ne.symm hc) hl
      exact hrest κ (ht.others hc hb)
        (hother e es mode mode₁ κ k k₁ hi hl hc hstep (hun t (Ne.symm hc) hl) hq) hl₁

/-- The rule where `Q` does not depend on the events to come. -/
theorem away_run {Q : Kont → Kernel → Prop} (hwf : cfg.WellFormed)
    (hother : ∀ mode κ k k', Inv cfg mode k → k.sched.Live t → Untouched k k' t → Q κ k → Q κ k')
    (hself : ∀ (env : Env cfg) op κ κ' k k', Inv cfg (.kernel κ) k → k.current = t → Q κ k →
      Stepped (.kernel κ) k (.resume env) op (.kernel κ') k' →
      ∃ κ₁, Thread cfg (.kernel κ') k' t κ₁ ∧ Q κ₁ k')
    {κ : Kont} (hi : Inv cfg mode k) (hl : k.sched.Live t) (ht : Thread cfg mode k t κ)
    (hq : Q κ k) {es : List (Event cfg)}
    (haway : Along (fun _ mode k => Away t mode k) es (.running mode k))
    (hrun : run cfg es (.running mode k) = .running .user k') (hback : k'.current = t) :
    ∃ es₁ e κ₁ k₁, es = es₁ ++ [e] ∧
      run cfg es₁ (.running mode k) = .running (.kernel κ₁) k₁ ∧ Q κ₁ k₁ ∧
      Back cfg t κ₁ k₁ k' :=
  away_induction (Q := fun _ _ κ k => Q κ k) hwf
    (fun _ _ mode _ κ k k' hi hl _ _ hu hq => hother mode κ k k' hi hl hu hq)
    (fun _ _ _ _ _ hq => hq)
    (fun env _ op κ κ' k k' hi hc hq _ hs => hself env op κ κ' k k' hi hc hq hs)
    hi hl ht hq haway hrun hback

end RiscvOs
