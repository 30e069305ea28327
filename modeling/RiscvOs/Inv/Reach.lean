import RiscvOs.Inv.Boot
import RiscvOs.Inv.Run

/-!
# Invariants of reachable states

* `Along`: every step of a run meets a condition; `Along.induction`, `Reachable.invariant`: the
  rules of runs.
* **`Reachable.order`**: in every reachable state the processes are a tree and every task is on its
  own stack, whatever the programs are.
* **`Reachable.inv`**: with well-formed programs the memory is in order too.
-/

set_option autoImplicit false

namespace RiscvOs

variable {cfg : Config} {mode mode' : Mode} {k k' : Kernel}

/-! ## Runs -/

theorem run_halted (es : List (Event cfg)) (h : Halt) : run cfg es (.halted h) = .halted h := by
  induction es with
  | nil => rfl
  | cons e es ih => rw [run_cons, step_halted, ih]

/-- A run that is still going was going after each step. -/
theorem running_of_run {es : List (Event cfg)} {s : Sys} (h : run cfg es s = .running mode k) :
    ∃ mode₀ k₀, s = .running mode₀ k₀ := by
  cases s with
  | running mode₀ k₀ => exact ⟨mode₀, k₀, rfl⟩
  | halted e =>
    rw [run_halted] at h
    cases h

/-- Every step of a run meets a condition. -/
def Along (P : Event cfg → Mode → Kernel → Prop) : List (Event cfg) → Sys → Prop
  | [], _ => True
  | e :: es, s => (∀ mode k, s = .running mode k → P e mode k) ∧ Along P es (step cfg e s)

theorem along_true (es : List (Event cfg)) (s : Sys) : Along (fun _ _ _ => True) es s := by
  induction es generalizing s with
  | nil => trivial
  | cons e es ih => exact ⟨fun _ _ _ => trivial, ih _⟩

theorem along_append {P : Event cfg → Mode → Kernel → Prop} {es es' : List (Event cfg)} {s : Sys} :
    Along P (es ++ es') s ↔ Along P es s ∧ Along P es' (run cfg es s) := by
  induction es generalizing s with
  | nil => exact ⟨fun h => ⟨trivial, h⟩, And.right⟩
  | cons e es ih => exact (and_congr_right fun _ => ih).trans and_assoc.symm

theorem Along.imp {P Q : Event cfg → Mode → Kernel → Prop}
    (hPQ : ∀ e mode k, P e mode k → Q e mode k) {es : List (Event cfg)} {s : Sys}
    (h : Along P es s) : Along Q es s := by
  induction es generalizing s with
  | nil => trivial
  | cons e es ih => exact ⟨fun mode k hs => hPQ e mode k (h.1 mode k hs), ih h.2⟩

/-- The first step of a run, and the rest. -/
theorem Along.cons {P : Event cfg → Mode → Kernel → Prop} {e : Event cfg} {es : List (Event cfg)}
    (h : P e mode k) (hes : Along P es (step cfg e (.running mode k))) :
    Along P (e :: es) (.running mode k) := by
  refine ⟨fun mode' k' hs => ?_, hes⟩
  obtain ⟨rfl, rfl⟩ := Sys.running.inj hs
  exact h

/-- **The rule of runs.** -/
theorem Along.induction {P : Event cfg → Mode → Kernel → Prop} {I : Mode → Kernel → Prop}
    (hstep : ∀ e mode k mode' k', P e mode k → I mode k →
      Stepped mode k e (stepOp cfg e (.running mode k)) mode' k' → I mode' k')
    {es : List (Event cfg)} (hP : Along P es (.running mode k))
    (hrun : run cfg es (.running mode k) = .running mode' k') (h₀ : I mode k) : I mode' k' := by
  induction es generalizing mode k with
  | nil =>
    obtain ⟨rfl, rfl⟩ := Sys.running.inj hrun
    exact h₀
  | cons e es ih =>
    rw [run_cons] at hrun
    obtain ⟨mode₁, k₁, h₁⟩ := running_of_run hrun
    have hP' := hP.2
    rw [h₁] at hrun hP'
    exact ih hP' hrun (hstep e mode k mode₁ k₁ (hP.1 mode k rfl) h₀ (step_stepped h₁))

theorem start_running {b : Start cfg} (h : start cfg b = .running mode k) :
    boot cfg b = .ok (.trapReturn, k) ∧ mode = .kernel .trapReturn := by
  rw [start] at h
  cases hb : boot cfg b with
  | error e =>
    rw [hb] at h
    cases h
  | ok r =>
    obtain ⟨kont, k₁⟩ := r
    simp only [hb] at h
    obtain ⟨rfl, rfl⟩ := Sys.running.inj h
    obtain ⟨rfl, -⟩ := boot_booted hb
    exact ⟨rfl, rfl⟩

/-- **What boot establishes and steps keep holds in a run.** -/
theorem Along.invariant {P : Event cfg → Mode → Kernel → Prop} {I : Mode → Kernel → Prop}
    (h₀ : ∀ b k, boot cfg b = .ok (.trapReturn, k) → I (.kernel .trapReturn) k)
    (hstep : ∀ e mode k mode' k', P e mode k → I mode k →
      Stepped mode k e (stepOp cfg e (.running mode k)) mode' k' → I mode' k')
    {b : Start cfg} {es : List (Event cfg)} (hP : Along P es (start cfg b))
    (hrun : run cfg es (start cfg b) = .running mode k) : I mode k := by
  obtain ⟨mode₀, k₀, hs⟩ := running_of_run hrun
  obtain ⟨hb, rfl⟩ := start_running hs
  rw [hs] at hP hrun
  exact hP.induction hstep hrun (h₀ b k₀ hb)

theorem Reachable.invariant {I : Mode → Kernel → Prop}
    (h₀ : ∀ b k, boot cfg b = .ok (.trapReturn, k) → I (.kernel .trapReturn) k)
    (hstep : ∀ e mode k mode' k', I mode k →
      Stepped mode k e (stepOp cfg e (.running mode k)) mode' k' → I mode' k')
    (h : Reachable cfg (.running mode k)) : I mode k := by
  obtain ⟨b, es, hrun⟩ := h
  exact (along_true es _).invariant h₀ (fun e mode k mode' k' _ => hstep e mode k mode' k') hrun

/-! ## Processes and stacks -/

/-- The processes are a tree, and every task is on its own stack. -/
structure Order (cfg : Config) (mode : Mode) (k : Kernel) : Prop where
  tree : ProcTree k.sched
  stack : StackInv cfg mode k

theorem Order.boot {b : Start cfg} (h : boot cfg b = .ok (.trapReturn, k)) :
    Order cfg (.kernel .trapReturn) k := by
  obtain ⟨-, kroot, f, root, entry, ustack, m, rfl⟩ := boot_booted h
  exact ⟨booted_tree .., booted_stack ..⟩

theorem Order.stepped {e : Event cfg} {op : Op} (h : Order cfg mode k)
    (hs : Stepped mode k e op mode' k') : Order cfg mode' k' := by
  obtain ⟨hsched, hen⟩ := hs.sched h.tree.current
  exact ⟨hsched ▸ h.tree.apply hen, (hs.stack h.stack h.tree.current).1⟩

/-- **Processes and stacks are in order in every reachable state.** -/
theorem Reachable.order (h : Reachable cfg (.running mode k)) : Order cfg mode k :=
  h.invariant (fun _ _ => .boot) fun _ _ _ _ _ => .stepped

/-! ## Compact runs -/

/-- Every exit of a run is from the last live slot, every fork into the slot after it. -/
def StackedRun (es : List (Event cfg)) (s : Sys) : Prop :=
  Along (fun e mode k => (stepOp cfg e (.running mode k)).Stacked k.sched) es s

/-- **In a stacked run the live slots stay the first ones.** -/
theorem StackedRun.compact {b : Start cfg} {es : List (Event cfg)}
    (h : StackedRun es (start cfg b)) (hrun : run cfg es (start cfg b) = .running mode k) :
    Compact k.sched := by
  refine (Along.invariant (I := fun mode k => Order cfg mode k ∧ Compact k.sched) ?_ ?_ h hrun).2
  · intro b k hb
    refine ⟨.boot hb, ?_⟩
    obtain ⟨-, kroot, f, root, entry, ustack, m, rfl⟩ := boot_booted hb
    exact booted_compact cfg b kroot f root entry ustack m
  · rintro e mode k mode' k' hst ⟨ho, hc⟩ hs
    obtain ⟨hsched, hen⟩ := hs.sched ho.tree.current
    exact ⟨ho.stepped hs, hsched ▸ hc.apply hen hst⟩

/-! ## Memory -/

theorem Inv.boot {b : Start cfg} (hwf : cfg.WellFormed) (h : boot cfg b = .ok (.trapReturn, k)) :
    Inv cfg (.kernel .trapReturn) k := by
  obtain ⟨app, kroot, cx, root, N, D, m₀, m, -, -, -, -, hm, -⟩ := (boot_spec hwf b).of_ok h
  exact ⟨(Order.boot h).tree, (Order.boot h).stack, hm, fun he => nomatch he⟩

/-- **The memory is in order in every reachable state**, if the programs are well-formed. -/
theorem Reachable.inv (hwf : cfg.WellFormed) (h : Reachable cfg (.running mode k)) :
    Inv cfg mode k :=
  h.invariant (fun _ _ => .boot hwf) fun _ _ _ _ _ hi hs => (hs.inv hwf hi).1

end RiscvOs
