import RiscvOs.Sched.Model

/-!
# Who is `Running`

`__sys_yield` marks the next slot `Running` and then the old one `Ready`. When the two are the same
the slot ends up `Ready`.

* `OnlyCurrentRuns.apply`: no other slot than the current one is ever `Running`.
* **`CurrentRuns.apply`**: the current slot stays `Running` unless it yields to itself.
-/

set_option autoImplicit false

namespace RiscvOs

namespace Sched

variable {s : Sched} {i n : Slot} {op : Op}

/-- No slot but the current one is `Running`. -/
def OnlyCurrentRuns (s : Sched) : Prop := ∀ i, (s.procs i).taskState = .running → i = s.current

/-- The current slot is `Running`. -/
def CurrentRuns (s : Sched) : Prop := (s.procs s.current).taskState = .running

/-- The states `__sys_yield` leaves. -/
theorem switchTo_taskState (s : Sched) (n i : Slot) : ((s.switchTo n).procs i).taskState =
    if i = s.current ∧ (i = n ∨ (s.procs i).taskState = .running) then .ready
    else if i = n then .running else (s.procs i).taskState := by
  have hset : ∀ j, ((s.setState n .running).procs j).taskState =
      if j = n then .running else (s.procs j).taskState := fun j => by
    by_cases hj : j = n
    · subst hj
      simp only [setState, Function.update_self, if_true]
    · simp only [setState, Function.update_of_ne hj, if_neg hj]
  have hcond : ((s.setState n .running).procs s.current).taskState = .running ↔
      s.current = n ∨ (s.procs s.current).taskState = .running := by
    rw [hset]
    by_cases hc : s.current = n <;> simp [hc]
  by_cases hc : ((s.setState n .running).procs s.current).taskState = .running
  · simp only [switchTo, if_pos hc]
    by_cases hi : i = s.current
    · subst hi
      rw [if_pos ⟨rfl, hcond.mp hc⟩]
      simp only [setState, Function.update_self]
    · rw [if_neg fun h => hi h.1, ← hset]
      exact congrArg Proc.taskState (Function.update_of_ne hi _ _)
  · have hne : ¬ (i = s.current ∧ (i = n ∨ (s.procs i).taskState = .running)) := by
      rintro ⟨rfl, h⟩
      exact hc (hcond.mpr h)
    simp only [switchTo, if_neg hc]
    rw [if_neg hne, ← hset]

theorem OnlyCurrentRuns.switchTo (h : OnlyCurrentRuns s) (n : Slot) :
    OnlyCurrentRuns (s.switchTo n) := fun i hi => by
  rw [switchTo_taskState] at hi
  split_ifs at hi with h₁ h₂
  · exact h₂
  · exact absurd ⟨h i hi, .inr hi⟩ h₁

theorem OnlyCurrentRuns.yield (h : OnlyCurrentRuns s) : OnlyCurrentRuns s.yield := by
  rw [Sched.yield]
  split
  · split_ifs
    · exact h.switchTo _
    · exact h
  · exact h

theorem OnlyCurrentRuns.zombify (h : OnlyCurrentRuns s) :
    OnlyCurrentRuns s.zombify := fun i hi => by
  by_cases hc : i = s.current
  · exact hc
  · rw [Tree.zombify_procs, if_neg hc] at hi
    exact h i hi

/-- **Only the current slot** is ever `Running`. -/
theorem OnlyCurrentRuns.apply (h : OnlyCurrentRuns s) : OnlyCurrentRuns (op.apply s) := by
  cases op with
  | skip => exact h
  | yield => exact h.yield
  | exit => exact h.zombify.yield
  | fork =>
    cases hf : s.freeSlot with
    | none =>
      rw [Op.apply, Tree.fork_of_full hf]
      exact h
    | some p =>
      intro i hi
      by_cases hip : i = p
      · rw [hip, Op.apply, Tree.fork_self hf] at hi
        cases hi
      · rw [Op.apply, Tree.fork_of_ne hf hip] at hi
        rw [Op.apply, Tree.fork_of_free hf]
        exact h i hi
  | reap child =>
    intro i hi
    by_cases hic : i = child
    · subst hic
      simp only [Op.apply, Sched.reap, Function.update_self] at hi
      cases hi
    · simp only [Op.apply, Sched.reap, Function.update_of_ne hic] at hi
      exact h i hi

/-- A live slot that is not the current one is `Ready`. -/
theorem OnlyCurrentRuns.ready (h : OnlyCurrentRuns s) (hl : s.Live i) (hi : i ≠ s.current) :
    (s.procs i).taskState = .ready := by
  rw [Live] at hl
  cases hst : (s.procs i).taskState with
  | ready => rfl
  | running => exact absurd (h i hst) hi
  | unInit => rw [hst] at hl; cases hl
  | zombie => rw [hst] at hl; cases hl

theorem CurrentRuns.switchTo (hn : n ≠ s.current) : CurrentRuns (s.switchTo n) := by
  have hcur : (s.switchTo n).current = n := rfl
  rw [CurrentRuns, hcur, switchTo_taskState, if_neg fun h => hn h.1, if_pos rfl]

/-- **The current slot stays `Running`**, unless it yields to itself. -/
theorem CurrentRuns.apply (h : CurrentRuns s) (hop : op.Enabled s)
    (hself : op = .yield → s.next ≠ some s.current) : CurrentRuns (op.apply s) := by
  cases op with
  | skip => exact h
  | yield =>
    rw [Op.apply, Sched.yield]
    split
    · rename_i n hn
      split_ifs
      · exact .switchTo fun he => hself rfl (he ▸ hn)
      · exact h
    · exact h
  | exit =>
    obtain ⟨n, hn, hl⟩ := hop.2
    rw [Op.apply, yield_of_live hn hl]
    exact .switchTo (Tree.live_zombify.mp hl).2
  | fork =>
    cases hf : s.freeSlot with
    | none =>
      rw [Op.apply, Tree.fork_of_full hf]
      exact h
    | some p =>
      have hne : s.current ≠ p := fun he => by
        have hu : (s.procs p).taskState = .unInit := Tree.unInit_of_freeSlot hf
        rw [CurrentRuns, he, hu] at h
        cases h
      have hcur : s.fork.current = s.current := by rw [Tree.fork_of_free hf]
      rw [Op.apply, CurrentRuns, hcur, Tree.fork_of_ne hf hne]
      exact h
  | reap child =>
    have hne : s.current ≠ child := fun he => by
      rw [CurrentRuns, he, show (s.procs child).taskState = .zombie from hop] at h
      cases h
    rw [Op.apply, CurrentRuns, Sched.reap]
    simp only [Function.update_of_ne hne]
    exact h

/-- A slot is its own successor only if it is alone. -/
theorem alone_of_next (hn : s.next = some s.current) : s.top = 1 ∧ s.current = 0 := by
  have hv := next_val hn
  have hpos : 0 < s.top := by
    rw [Sched.next] at hn
    split_ifs at hn with hp
    exact hp.1
  have hlt := Nat.mod_lt (s.current.val + 1) hpos
  rw [← hv] at hlt
  obtain hlast | hlast : s.current.val + 1 < s.top ∨ s.current.val + 1 = s.top := by omega
  · rw [Nat.mod_eq_of_lt hlast] at hv
    omega
  · rw [hlast, Nat.mod_self] at hv
    exact ⟨by omega, Fin.ext hv⟩

end Sched

end RiscvOs
