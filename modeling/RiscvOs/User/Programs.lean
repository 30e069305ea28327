import RiscvOs.Kernel.Steps
import RiscvOs.Sched.Chain

/-!
# The programs of the system

`atest.c`, `user_shell.c`, `print.c` and `time.c`, as far as their calls of `user_fork`, `sys_exec`,
`sys_exit` and `user_recycle` go. The other calls, and what happens between calls, do not move a
process from one place of its program to another.

* `Place`, `Plays`: where the processes are in their programs, and how a step moves them.
* `Line`: every process but the last one waits for its child.
* **`Line.plays`**: the programs keep it so.
-/

set_option autoImplicit false

namespace RiscvOs

open Sched

/-! ## Programs -/

/-- Where a process is in its program. -/
inductive Place where
  /-- `atest.c`. -/
  | atest
  /-- The loop of `user_shell.c`, and after its `user_fork` the branches of the child and of the
  father, up to `sys_exec` and `user_recycle`. -/
  | shell | shellChild | shellFather
  /-- `print.c` up to its `user_fork`, the three branches of its loop, and what follows the loop. -/
  | print | printFather | printChild | printFailed | printEnd
  /-- `time.c`. -/
  | time
  deriving DecidableEq

namespace Place

/-- Where a program starts. -/
def starts : Place → Bool
  | .atest | .shell | .print | .time => true
  | _ => false

/-- `user_fork`, if it comes next: where its result leads. -/
def fork : Place → Option (ℤ → Place)
  | .shell => some fun pid =>
    if pid = 0 then .shellChild else if pid > 0 then .shellFather else .shell
  | .print => some fun pid =>
      if pid > 0 then .printFather else if pid = 0 then .printChild else .printFailed
  | _ => none

/-- `sys_exec`, if it comes next, with the program it may start: `atest.c` names `user_shell`, and
the shell what was typed. -/
def exec : Place → Place → Bool
  | .atest, q => q = .shell
  | .shellChild, q => q.starts
  | _, _ => false

/-- Whether `sys_exit` may come next. -/
def exits : Place → Bool
  | .printChild | .printEnd | .time => true
  | _ => false

/-- `user_recycle`, if it comes next. -/
def recycle : Place → Option Place
  | .shellFather => some .shell
  | .printFather => some .printEnd
  | _ => none

/-- A program that does not exit. -/
def stays : Place → Bool
  | .atest | .shell | .shellFather => true
  | _ => false

end Place

/-- How the processes move in their programs when one of them makes the call `call`, if any, and
the kernel does `op`: only as their programs say. `user_fork` returns the id of the child to the
father, `0` to the child, and `-1` if there is no slot. -/
inductive Plays (s : Sched) (pl : Slot → Place) : Option SyscallId → Op → (Slot → Place) → Prop
  | other {call : Option SyscallId} {op : Op} (hcall : call ≠ some .exec)
    (hop : op = .skip ∨ op = .yield) : Plays s pl call op pl
  | exec {q : Place} (h : (pl s.current).exec q = true) :
    Plays s pl (some .exec) .skip (Function.update pl s.current q)
  | fork {call : Option SyscallId} {p : Slot} {next : ℤ → Place}
    (h : (pl s.current).fork = some next) (hp : s.freeSlot = some p) :
    Plays s pl call .fork (Function.update (Function.update pl s.current
      (next (BitVec.ofNat 32 s.nextPid).toInt)) p (next 0))
  | forkFails {call : Option SyscallId} {next : ℤ → Place} (h : (pl s.current).fork = some next)
    (hp : s.freeSlot = none) :
    Plays s pl call .fork (Function.update pl s.current (next (-1)))
  | exit {call : Option SyscallId} (h : (pl s.current).exits = true) : Plays s pl call .exit pl
  | recycle {call : Option SyscallId} {child father : Slot} {q : Place}
    (hf : (s.procs child).parent = some father) (h : (pl father).recycle = some q) :
    Plays s pl call (.reap child) (Function.update pl father q)

theorem Plays.exits {s : Sched} {pl pl' : Slot → Place} {call : Option SyscallId}
    (h : Plays s pl call .exit pl') : (pl s.current).exits = true := by
  cases h with
  | other _ hop => obtain hop | hop := hop <;> cases hop
  | exit hx => exact hx

/-! ## The line of the processes -/

/-- The processes form a line in which every one but the last waits for its child. If the first
program `p₀` does not exit, the first process does not. -/
structure Line (p₀ : Place) (s : Sched) (pl : Slot → Place) (n : ℕ) : Prop extends Chain s n where
  waits : ∀ i, i.val + 1 < n → (pl i).recycle ≠ none
  last : ∀ i, i.val + 1 = n → s.Live i → (pl i).recycle = none
  stays : p₀.stays = true → (pl 0).stays = true

namespace Place

variable {p q : Place} {next : ℤ → Place} {pid : ℤ}

theorem recycle_of_exec (h : p.exec q = true) : p.recycle = none ∧ q.recycle = none := by
  revert h
  cases p <;> cases q <;> decide

theorem stays_of_exec (h : p.exec q = true) (hp : p.stays = true) : q.stays = true := by
  revert h hp
  cases p <;> cases q <;> decide

theorem recycle_of_exits (h : p.exits = true) : p.recycle = none := by
  revert h
  cases p <;> decide

theorem not_exits_of_stays (h : p.stays = true) : p.exits = false := by
  revert h
  cases p <;> decide

/-- Who has recycled its child waits for none. -/
theorem recycle_of_recycle (h : p.recycle = some q) : q.recycle = none := by
  revert h
  cases p <;> cases q <;> decide

theorem stays_of_recycle (h : p.recycle = some q) (hp : p.stays = true) : q.stays = true := by
  revert h hp
  cases p <;> cases q <;> decide

/-- What a fork does: the father will wait for the child, the child for nobody. -/
theorem fork_spec (h : p.fork = some next) : p.recycle = none ∧ (next 0).recycle = none ∧
    (next (-1)).recycle = none ∧ (∀ pid > 0, (next pid).recycle ≠ none) ∧
    (p.stays = true → (next (-1)).stays = true ∧ ∀ pid > 0, (next pid).stays = true) := by
  cases p with
  | shell =>
    obtain rfl := Option.some.inj h
    refine ⟨rfl, rfl, rfl, fun pid hpid => ?_, fun _ => ⟨rfl, fun pid hpid => ?_⟩⟩
    · simp only [hpid.ne', hpid, if_false, if_true]
      decide
    · simp only [hpid.ne', hpid, if_false, if_true]
      rfl
  | print =>
    obtain rfl := Option.some.inj h
    refine ⟨rfl, rfl, rfl, fun pid hpid => ?_, fun hs => absurd hs (by decide)⟩
    simp only [hpid, if_true]
    decide
  | _ => cases h

end Place

namespace Line

variable {p₀ : Place} {s s' : Sched} {pl pl' : Slot → Place} {call : Option SyscallId} {op : Op}
  {n : ℕ}

theorem of_sameProcs (h : Line p₀ s pl n) (hs : SameProcs s s') : Line p₀ s' pl n :=
  ⟨h.toChain.of_sameProcs hs, h.waits, fun i hi hl => h.last i hi ((hs.live i).mp hl), h.stays⟩

/-- A process that does not wait is the last one. -/
theorem last_of_recycle (h : Line p₀ s pl n) (hc : s.Live s.current)
    (hp : (pl s.current).recycle = none) : s.current.val + 1 = n := by
  have hlt := h.lt_of_live hc
  by_contra hne
  exact h.waits s.current (by omega) hp

/-- Only the last process forks and exits. -/
theorem current_last (h : Line p₀ s pl n) (hc : s.Live s.current) (hpl : Plays s pl call op pl')
    (hop : op = .fork ∨ op = .exit) : s.current.val + 1 = n := by
  cases hpl with
  | other _ hop' => obtain rfl | rfl := hop' <;> obtain h | h := hop <;> cases h
  | exec _ => obtain h | h := hop <;> cases h
  | fork hf _ => exact h.last_of_recycle hc (Place.fork_spec hf).1
  | forkFails hf _ => exact h.last_of_recycle hc (Place.fork_spec hf).1
  | exit hx => exact h.last_of_recycle hc (Place.recycle_of_exits hx)
  | recycle _ _ => obtain h | h := hop <;> cases h

/-- The place of the last process changes. -/
theorem move (h : Line p₀ s pl n) {i : Slot} (hi : i.val + 1 = n) {q : Place}
    (hq : q.recycle = none) (hs : (pl i).stays = true → q.stays = true) :
    Line p₀ s (Function.update pl i q) n := by
  refine ⟨h.toChain, fun j hj => ?_, fun j hj _ => ?_, ?_⟩
  · have hji : j ≠ i := fun he => by
      rw [he] at hj
      omega
    rw [Function.update_of_ne hji]
    exact h.waits j hj
  · obtain rfl : j = i := Fin.ext (by omega)
    rw [Function.update_self]
    exact hq
  · by_cases h₀ : (0 : Slot) = i
    · subst h₀
      rw [Function.update_self]
      exact fun hp₀ => hs (h.stays hp₀)
    · rw [Function.update_of_ne h₀]
      exact h.stays

theorem fork (h : Line p₀ s pl n) (hc : s.Live s.current) {p : Slot} {next : ℤ → Place} {pid : ℤ}
    (hf : (pl s.current).fork = some next) (hp : s.freeSlot = some p) (hpid : pid > 0) :
    Line p₀ s.fork (Function.update (Function.update pl s.current (next pid)) p (next 0))
      (n + 1) := by
  obtain ⟨hr, hchild, -, hfather, hstays⟩ := Place.fork_spec hf
  have hlast := h.last_of_recycle hc hr
  have hpn := h.freeSlot_val hp
  have hne : ∀ {i : Slot}, i.val < n → i ≠ p := fun hi he => by
    rw [he, hpn] at hi
    exact lt_irrefl n hi
  refine ⟨h.toChain.fork hc hlast hp, fun i hi => ?_, fun i hi _ => ?_, ?_⟩
  · rw [Function.update_of_ne (hne (by omega))]
    by_cases hic : i = s.current
    · rw [hic, Function.update_self]
      exact hfather pid hpid
    · have hval : i.val ≠ s.current.val := fun he => hic (Fin.ext he)
      rw [Function.update_of_ne hic]
      exact h.waits i (by omega)
  · obtain rfl : i = p := Fin.ext (by omega)
    rw [Function.update_self]
    exact hchild
  · rw [Function.update_of_ne (hne (i := 0) (by change 0 < n; omega))]
    by_cases hic : (0 : Slot) = s.current
    · rw [hic, Function.update_self]
      exact fun hp₀ => (hstays (hic ▸ h.stays hp₀)).2 pid hpid
    · rw [Function.update_of_ne hic]
      exact h.stays

theorem recycle (h : Line p₀ s pl n) (ht : Tree s) {child father : Slot} {q : Place}
    (hz : (s.procs child).taskState = .zombie) (hf : (s.procs child).parent = some father)
    (hq : (pl father).recycle = some q) :
    ∃ m, Line p₀ (s.reap child) (Function.update pl father q) m := by
  have hlast := h.last_of_zombie hz
  have h₀ : child ≠ 0 := fun he => by
    have hl := ht.init
    rw [Live, ← he, hz] at hl
    exact absurd hl (by decide)
  obtain ⟨j, hj, hv⟩ := h.parent child h₀ (by omega)
  obtain rfl : j = father := Option.some.inj (hj.symm.trans hf)
  obtain rfl : n = child.val + 1 := hlast.symm
  refine ⟨child.val, ?_⟩
  have hline : ∀ i, i ≠ j → Function.update pl j q i = pl i := fun i hi =>
    Function.update_of_ne hi _ _
  refine ⟨h.toChain.reap hz, fun i hi => ?_, fun i hi _ => ?_, ?_⟩
  · rw [hline i fun he => by rw [he] at hi; omega]
    exact h.waits i (by omega)
  · obtain rfl : i = j := Fin.ext (by omega)
    rw [Function.update_self]
    exact Place.recycle_of_recycle hq
  · by_cases hj₀ : (0 : Slot) = j
    · rw [hj₀, Function.update_self]
      exact fun hp₀ => Place.stays_of_recycle hq (hj₀ ▸ h.stays hp₀)
    · rw [hline 0 hj₀]
      exact h.stays

/-- **The programs keep the line.** -/
theorem plays (h : Line p₀ s pl n) (ht : ProcTree s) (hop : op.Enabled s)
    (hpl : Plays s pl call op pl') (hpid : (BitVec.ofNat 32 s.nextPid).toInt > 0) :
    ∃ m, Line p₀ (op.apply s) pl' m := by
  have hlast := h.current_last ht.current hpl
  cases hpl with
  | other _ hop' =>
    obtain rfl | rfl := hop'
    · exact ⟨n, h⟩
    · exact ⟨n, h.of_sameProcs (sameProcs_yield s)⟩
  | exec hx =>
    obtain ⟨hr, hq⟩ := Place.recycle_of_exec hx
    exact ⟨n, h.move (h.last_of_recycle ht.current hr) hq (Place.stays_of_exec hx)⟩
  | fork hf hp => exact ⟨n + 1, h.fork ht.current hf hp hpid⟩
  | forkFails hf hp =>
    obtain ⟨-, -, hq, -, hs⟩ := Place.fork_spec hf
    rw [Op.apply, Tree.fork_of_full hp]
    exact ⟨n, h.move (hlast (.inl rfl)) hq fun hst => (hs hst).1⟩
  | exit hx =>
    have hcur := hlast (.inr rfl)
    refine ⟨n, h.toChain.exit ht.current hcur, h.waits, fun i hi hl => ?_, h.stays⟩
    rw [Op.apply, (sameProcs_yield _).live] at hl
    exact h.last i hi (Tree.live_zombify.mp hl).1
  | recycle hf hq => exact h.recycle ht.toTree hop hf hq

end Line

end RiscvOs
