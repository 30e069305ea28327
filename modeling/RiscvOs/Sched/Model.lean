import RiscvOs.Kernel.State

/-!
# The scheduler by itself

What the kernel does with its processes, without their memory: the states, pids and parents of the
slots, `_current`, `_top` and `next_pid`, and the four things that happen to them.

* `Sched`, `Op`, `Op.apply`: the abstract system.
* **`ProcTree.apply`**: the process tree stays one.
* **`Compact.apply`**: if tasks exit from the last slot and forks fill the next one, the live slots
  stay the first `_top` ones.
-/

set_option autoImplicit false

namespace RiscvOs

/-- What the scheduler knows of a slot. -/
structure Proc where
  taskState : TaskState
  pid : BitVec 32
  parent : Option Slot

/-- The slots and the counters of `task.c`. -/
structure Sched where
  procs : Slot → Proc
  current : Slot
  top : ℕ
  nextPid : ℕ

namespace Sched

def Live (s : Sched) (i : Slot) : Prop := (s.procs i).taskState.live = true

instance (s : Sched) (i : Slot) : Decidable (s.Live i) := inferInstanceAs (Decidable (_ = _))

def UnInit (s : Sched) (i : Slot) : Prop := (s.procs i).taskState = .unInit

instance (s : Sched) (i : Slot) : Decidable (s.UnInit i) := inferInstanceAs (Decidable (_ = _))

/-- The live slots. -/
def liveSlots (s : Sched) : Finset Slot := Finset.univ.filter s.Live

/-- The slot the scheduler looks at. -/
def next (s : Sched) : Option Slot :=
  if h : 0 < s.top ∧ (s.current.val + 1) % s.top < maxTaskNum then
    some ⟨(s.current.val + 1) % s.top, h.2⟩
  else none

def setState (s : Sched) (i : Slot) (st : TaskState) : Sched :=
  { s with procs := Function.update s.procs i { s.procs i with taskState := st } }

/-- Hand the processor to a slot. -/
def switchTo (s : Sched) (n : Slot) : Sched :=
  let r := s.setState n .running
  let r := if (r.procs s.current).taskState = .running then r.setState s.current .ready else r
  { r with current := n }

/-- To the next slot, if it is live. -/
def yield (s : Sched) : Sched :=
  match s.next with
  | some n => if s.Live n then s.switchTo n else s
  | none => s

/-- The first free slot. -/
def freeSlot (s : Sched) : Option Slot := (List.finRange maxTaskNum).find? s.UnInit

/-- A child of the running process, in the first free slot. -/
def fork (s : Sched) : Sched :=
  match s.freeSlot with
  | none => s
  | some p =>
    { s with
      procs := Function.update s.procs p ⟨.ready, BitVec.ofNat 32 s.nextPid, some s.current⟩
      top := s.top + 1
      nextPid := s.nextPid + 1 }

/-- The running process stops, and its children go to slot 0. -/
def zombify (s : Sched) : Sched :=
  let procs := Function.update s.procs s.current { s.procs s.current with taskState := .zombie }
  { s with
    procs := fun i =>
      if (procs i).parent = some s.current then { procs i with parent := some 0 } else procs i
    top := s.top - 1 }

/-- A stopped process is given back. -/
def reap (s : Sched) (child : Slot) : Sched :=
  { s with
    procs := Function.update s.procs child
      { s.procs child with taskState := .unInit, parent := none } }

end Sched

/-- What a step of the kernel does to the processes. -/
inductive Op where
  | skip | yield | fork | exit
  | reap (child : Slot)
  deriving DecidableEq

def Op.apply : Op → Sched → Sched
  | .skip, s => s
  | .yield, s => s.yield
  | .fork, s => s.fork
  | .exit, s => s.zombify.yield
  | .reap child, s => s.reap child

/-- After the running process has stopped, the scheduler finds another one. -/
def Sched.HandsOver (s : Sched) : Prop := ∃ n, s.zombify.next = some n ∧ s.zombify.Live n

instance (s : Sched) : Decidable s.HandsOver := by
  unfold Sched.HandsOver
  infer_instance

/-- When an operation goes through. -/
def Op.Enabled : Op → Sched → Prop
  | .exit, s => (s.procs s.current).pid ≠ 0 ∧ s.HandsOver
  | .reap child, s => (s.procs child).taskState = .zombie
  | _, _ => True

/-! ## Scheduling -/

namespace Sched

variable {s s' : Sched} {i n p : Slot}

theorem Live.not_unInit (h : s.Live i) : ¬ s.UnInit i := fun hu => by
  rw [Live, show (s.procs i).taskState = .unInit from hu] at h
  exact absurd h (by decide)

theorem mem_liveSlots : i ∈ s.liveSlots ↔ s.Live i := by
  rw [liveSlots, Finset.mem_filter, and_iff_right (Finset.mem_univ i)]

/-- The same processes, with perhaps another one running. -/
structure SameProcs (s s' : Sched) : Prop where
  live : ∀ i, s'.Live i ↔ s.Live i
  unInit : ∀ i, s'.UnInit i ↔ s.UnInit i
  pid : ∀ i, (s'.procs i).pid = (s.procs i).pid
  parent : ∀ i, (s'.procs i).parent = (s.procs i).parent
  top : s'.top = s.top
  nextPid : s'.nextPid = s.nextPid

theorem SameProcs.refl (s : Sched) : SameProcs s s :=
  ⟨fun _ => Iff.rfl, fun _ => Iff.rfl, fun _ => rfl, fun _ => rfl, rfl, rfl⟩

theorem SameProcs.trans {s₁ s₂ : Sched} (h : SameProcs s s₁) (h' : SameProcs s₁ s₂) :
    SameProcs s s₂ where
  live i := (h'.live i).trans (h.live i)
  unInit i := (h'.unInit i).trans (h.unInit i)
  pid i := (h'.pid i).trans (h.pid i)
  parent i := (h'.parent i).trans (h.parent i)
  top := h'.top.trans h.top
  nextPid := h'.nextPid.trans h.nextPid

/-- A live slot may change to another live state. -/
theorem SameProcs.setState (hn : s.Live n) {st : TaskState} (hst : st.live = true) :
    SameProcs s (s.setState n st) := by
  have hu : st ≠ .unInit := fun he => by rw [he] at hst; exact absurd hst (by decide)
  have key : ∀ i, (((s.setState n st).procs i).taskState.live = (s.procs i).taskState.live) ∧
      ((s.setState n st).UnInit i ↔ s.UnInit i) ∧
      ((s.setState n st).procs i).pid = (s.procs i).pid ∧
      ((s.setState n st).procs i).parent = (s.procs i).parent := fun i => by
    by_cases hi : i = n
    · subst hi
      have h := hn
      rw [Live] at h
      simp only [Sched.setState, UnInit, Function.update_self, hst, h, hu, true_and, and_true,
        false_iff]
      exact hn.not_unInit
    · simp only [Sched.setState, UnInit, Function.update_of_ne hi, and_self]
  refine ⟨fun i => ?_, fun i => (key i).2.1, fun i => (key i).2.2.1, fun i => (key i).2.2.2, rfl,
    rfl⟩
  rw [Live, Live, (key i).1]

theorem SameProcs.setCurrent (h : SameProcs s s') (n : Slot) :
    SameProcs s { s' with current := n } :=
  ⟨h.live, h.unInit, h.pid, h.parent, h.top, h.nextPid⟩

theorem sameProcs_switchTo (hn : s.Live n) : SameProcs s (s.switchTo n) := by
  have h₁ : SameProcs s (s.setState n .running) := .setState hn rfl
  rw [switchTo]
  refine SameProcs.setCurrent ?_ n
  split_ifs with hc
  · have hl : (s.setState n .running).Live s.current := by
      rw [Live, hc]
      rfl
    exact h₁.trans (.setState hl rfl)
  · exact h₁

theorem sameProcs_yield (s : Sched) : SameProcs s s.yield := by
  rw [yield]
  split
  · split_ifs with hl
    · exact sameProcs_switchTo hl
    · exact .refl s
  · exact .refl s

theorem yield_of_live (hn : s.next = some n) (hl : s.Live n) : s.yield = s.switchTo n := by
  rw [yield, hn]
  exact if_pos hl

/-- A yield goes to a live slot, or nowhere. -/
theorem yield_current (s : Sched) : s.yield.current = s.current ∨ s.Live s.yield.current := by
  rw [yield]
  split
  · rename_i n _
    split_ifs with hl
    · exact .inr hl
    · exact .inl rfl
  · exact .inl rfl

theorem next_val (hn : s.next = some n) : n.val = (s.current.val + 1) % s.top := by
  rw [next] at hn
  split_ifs at hn
  rw [← Option.some.inj hn]

end Sched

/-! ## The process tree -/

/-- The processes form a tree under slot 0. `number` counts the creations: a child has a higher
number than its parent. -/
structure Tree (s : Sched) : Prop where
  top : s.top = s.liveSlots.card
  init : s.Live 0
  unInit : ∀ i, s.UnInit i → (s.procs i).parent = none
  number : ∃ number : Slot → ℕ, number 0 = 0 ∧
    (∀ i, ¬ s.UnInit i → (s.procs i).pid = BitVec.ofNat 32 (number i) ∧ number i < s.nextPid) ∧
    (∀ i j, ¬ s.UnInit i → ¬ s.UnInit j → number i = number j → i = j) ∧
    ∀ i, i ≠ 0 → ¬ s.UnInit i → ∃ j, (s.procs i).parent = some j ∧ s.Live j ∧ number j < number i

/-- And the running process is one of them. -/
structure ProcTree (s : Sched) : Prop extends Tree s where
  current : s.Live s.current

namespace Tree

open Sched

variable {s s' : Sched} {child p : Slot}

theorem of_sameProcs (h : Tree s) (hs : SameProcs s s') : Tree s' where
  top := by
    rw [hs.top, h.top, liveSlots, liveSlots]
    exact congrArg _ (Finset.filter_congr fun i _ => (hs.live i).symm)
  init := (hs.live 0).mpr h.init
  unInit i hi := by rw [hs.parent]; exact h.unInit i ((hs.unInit i).mp hi)
  number := by
    obtain ⟨number, h₀, hpid, hinj, hpar⟩ := h.number
    refine ⟨number, h₀, fun i hi => ?_, fun i j hi hj => ?_, fun i hi hu => ?_⟩
    · rw [hs.pid, hs.nextPid]
      exact hpid i (mt (hs.unInit i).mpr hi)
    · exact hinj i j (mt (hs.unInit i).mpr hi) (mt (hs.unInit j).mpr hj)
    · obtain ⟨j, hp, hl, hlt⟩ := hpar i hi (mt (hs.unInit i).mpr hu)
      exact ⟨j, by rw [hs.parent, hp], (hs.live j).mpr hl, hlt⟩

theorem zombify_procs (s : Sched) (i : Slot) : s.zombify.procs i =
    { s.procs i with
      taskState := if i = s.current then .zombie else (s.procs i).taskState
      parent := if (s.procs i).parent = some s.current then some 0 else (s.procs i).parent } := by
  by_cases hi : i = s.current
  · subst hi
    simp only [zombify, Function.update_self, if_true]
    split_ifs <;> rfl
  · simp only [zombify, Function.update_of_ne hi, if_neg hi]
    split_ifs <;> rfl

theorem live_zombify {i : Slot} : s.zombify.Live i ↔ s.Live i ∧ i ≠ s.current := by
  rw [Live, zombify_procs]
  by_cases hi : i = s.current
  · simp [hi, TaskState.live]
  · simp [hi, Live]

theorem liveSlots_zombify (s : Sched) : s.zombify.liveSlots = s.liveSlots.erase s.current := by
  ext i
  rw [Finset.mem_erase, mem_liveSlots, mem_liveSlots, live_zombify, and_comm]

theorem unInit_zombify (hc : s.Live s.current) {i : Slot} : s.zombify.UnInit i ↔ s.UnInit i := by
  rw [UnInit, zombify_procs]
  by_cases hi : i = s.current
  · rw [hi]
    simp only [if_true, reduceCtorEq, false_iff]
    exact hc.not_unInit
  · simp [hi, UnInit]

/-- The children of a process that stops go to slot 0. -/
theorem zombify (h : Tree s) (hc : s.Live s.current) (h₀ : s.current ≠ 0) : Tree s.zombify := by
  obtain ⟨number, hz, hp, hinj, hpar⟩ := h.number
  have hu : ∀ i, ¬ s.zombify.UnInit i → ¬ s.UnInit i := fun i => mt (unInit_zombify hc).mpr
  refine ⟨?_, live_zombify.mpr ⟨h.init, h₀.symm⟩, fun i hi => ?_, number, hz, fun i hi => ?_,
    fun i j hi hj => hinj i j (hu i hi) (hu j hj), fun i hi hui => ?_⟩
  · rw [liveSlots_zombify, Finset.card_erase_of_mem (mem_liveSlots.mpr hc), ← h.top]
    rfl
  · have hnone := h.unInit i ((unInit_zombify hc).mp hi)
    simp only [zombify_procs, hnone, reduceCtorEq, if_false]
  · rw [zombify_procs]
    exact hp i (hu i hi)
  · obtain ⟨j, hj, hl, hlt⟩ := hpar i hi (hu i hui)
    by_cases hjc : j = s.current
    · -- an orphan
      subst hjc
      refine ⟨0, ?_, live_zombify.mpr ⟨h.init, h₀.symm⟩, ?_⟩
      · simp only [zombify_procs, hj, if_true]
      · rw [hz]
        exact Nat.zero_lt_of_lt hlt
    · refine ⟨j, ?_, live_zombify.mpr ⟨hl, hjc⟩, hlt⟩
      simp only [zombify_procs, hj, Option.some.injEq, hjc, if_false]

theorem reap (h : Tree s) (hc : (s.procs child).taskState = .zombie) : Tree (s.reap child) := by
  have hcl : ¬ s.Live child := by
    rw [Live, hc]
    decide
  have hcu : ¬ s.UnInit child := by
    rw [UnInit, hc]
    decide
  have hself : (s.reap child).procs child =
      { s.procs child with taskState := .unInit, parent := none } := Function.update_self _ _ _
  have hne : ∀ {i}, i ≠ child → (s.reap child).procs i = s.procs i := fun hi =>
    Function.update_of_ne hi _ _
  have hlive : ∀ i, (s.reap child).Live i ↔ s.Live i := fun i => by
    by_cases hi : i = child
    · subst hi
      rw [Live, hself]
      simp only [hcl, iff_false]
      decide
    · rw [Live, Live, hne hi]
  have hu : ∀ i, ¬ (s.reap child).UnInit i → i ≠ child ∧ ¬ s.UnInit i := fun i hi => by
    have hic : i ≠ child := fun he => hi (by rw [he, UnInit, hself])
    exact ⟨hic, by rwa [UnInit, hne hic] at hi⟩
  obtain ⟨number, hz, hp, hinj, hpar⟩ := h.number
  refine ⟨?_, (hlive 0).mpr h.init, fun i hi => ?_, number, hz, fun i hi => ?_,
    fun i j hi hj => hinj i j (hu i hi).2 (hu j hj).2, fun i hi hui => ?_⟩
  · rw [liveSlots, Finset.filter_congr fun i _ => hlive i]
    exact h.top
  · by_cases hic : i = child
    · rw [hic, hself]
    · rw [UnInit, hne hic] at hi
      rw [hne hic]
      exact h.unInit i hi
  · rw [hne (hu i hi).1]
    exact hp i (hu i hi).2
  · obtain ⟨j, hj, hl, hlt⟩ := hpar i hi (hu i hui).2
    exact ⟨j, by rw [hne (hu i hui).1, hj], (hlive j).mpr hl, hlt⟩

theorem unInit_of_freeSlot (h : s.freeSlot = some p) : s.UnInit p := by
  have := List.find?_some h
  simpa using this

theorem fork_of_free (hp : s.freeSlot = some p) : s.fork =
    { s with
      procs := Function.update s.procs p ⟨.ready, BitVec.ofNat 32 s.nextPid, some s.current⟩
      top := s.top + 1
      nextPid := s.nextPid + 1 } := by
  rw [Sched.fork, hp]

theorem fork_of_full (h : s.freeSlot = none) : s.fork = s := by
  rw [Sched.fork, h]

section Fork

variable (hp : s.freeSlot = some p)

include hp in
theorem fork_self : s.fork.procs p = ⟨.ready, BitVec.ofNat 32 s.nextPid, some s.current⟩ := by
  rw [fork_of_free hp]
  exact Function.update_self _ _ _

include hp in
theorem fork_of_ne {i : Slot} (hi : i ≠ p) : s.fork.procs i = s.procs i := by
  rw [fork_of_free hp]
  exact Function.update_of_ne hi _ _

include hp in
theorem live_fork {i : Slot} : s.fork.Live i ↔ i = p ∨ s.Live i := by
  by_cases hi : i = p
  · subst hi
    rw [Live, fork_self hp]
    simp only [true_or, iff_true]
    rfl
  · rw [Live, fork_of_ne hp hi]
    simp only [hi, false_or, Live]

include hp in
theorem liveSlots_fork : s.fork.liveSlots = insert p s.liveSlots := by
  ext i
  rw [Finset.mem_insert, mem_liveSlots, mem_liveSlots, live_fork hp]

end Fork

theorem fork (h : Tree s) (hc : s.Live s.current) : Tree s.fork := by
  cases hp : s.freeSlot with
  | none => rwa [fork_of_full hp]
  | some p =>
    have hpu : s.UnInit p := unInit_of_freeSlot hp
    have hpl : ¬ s.Live p := fun hl => hl.not_unInit hpu
    have hp₀ : p ≠ 0 := fun he => hpl (he ▸ h.init)
    obtain ⟨number, h₀, hpid, hinj, hpar⟩ := h.number
    have htop : s.fork.top = s.top + 1 := by rw [fork_of_free hp]
    have hnext : s.fork.nextPid = s.nextPid + 1 := by rw [fork_of_free hp]
    have hu : ∀ {i}, i ≠ p → (s.fork.UnInit i ↔ s.UnInit i) := fun hi => by
      rw [UnInit, UnInit, fork_of_ne hp hi]
    have hlt : ∀ {i}, i ≠ p → ¬ s.fork.UnInit i → number i < s.nextPid := fun hi hui =>
      (hpid _ (mt (hu hi).mpr hui)).2
    refine ⟨?_, (live_fork hp).mpr (.inr h.init), fun i hi => ?_,
      Function.update number p s.nextPid, ?_, fun i hi => ?_, fun i j hi hj he => ?_,
      fun i hi hui => ?_⟩
    · rw [htop, liveSlots_fork hp, Finset.card_insert_of_notMem (mem_liveSlots.not.mpr hpl), h.top]
    · have hip : i ≠ p := fun he => by
        rw [he, UnInit, fork_self hp] at hi
        cases hi
      rw [fork_of_ne hp hip]
      exact h.unInit i ((hu hip).mp hi)
    · rw [Function.update_of_ne hp₀.symm, h₀]
    · rw [hnext]
      by_cases hip : i = p
      · subst hip
        rw [fork_self hp, Function.update_self]
        exact ⟨rfl, Nat.lt_succ_self _⟩
      · rw [fork_of_ne hp hip, Function.update_of_ne hip]
        exact ⟨(hpid i (mt (hu hip).mpr hi)).1, Nat.lt_succ_of_lt (hlt hip hi)⟩
    · -- the new number is above all others
      by_cases hip : i = p <;> by_cases hjp : j = p
      · rw [hip, hjp]
      · rw [hip, Function.update_self, Function.update_of_ne hjp] at he
        have := hlt hjp hj
        omega
      · rw [hjp, Function.update_self, Function.update_of_ne hip] at he
        have := hlt hip hi
        omega
      · rw [Function.update_of_ne hip, Function.update_of_ne hjp] at he
        exact hinj i j (mt (hu hip).mpr hi) (mt (hu hjp).mpr hj) he
    · by_cases hip : i = p
      · subst hip
        have hne : s.current ≠ i := fun he => hpl (he ▸ hc)
        refine ⟨s.current, by rw [fork_self hp], (live_fork hp).mpr (.inr hc), ?_⟩
        rw [Function.update_self, Function.update_of_ne hne]
        exact (hpid _ hc.not_unInit).2
      · obtain ⟨j, hj, hl, hlt'⟩ := hpar i hi (mt (hu hip).mpr hui)
        have hjp : j ≠ p := fun he => hpl (he ▸ hl)
        refine ⟨j, by rw [fork_of_ne hp hip, hj], (live_fork hp).mpr (.inr hl), ?_⟩
        rwa [Function.update_of_ne hip, Function.update_of_ne hjp]

theorem pid_init (h : Tree s) : (s.procs 0).pid = 0 := by
  obtain ⟨number, h₀, hn, -⟩ := h.number
  rw [(hn 0 h.init.not_unInit).1, h₀]
  rfl

/-- From every process the parents lead to slot 0. -/
theorem ancestor (h : Tree s) {i : Slot} (hi : ¬ s.UnInit i) :
    Relation.ReflTransGen (fun a b => (s.procs a).parent = some b) i 0 := by
  obtain ⟨number, -, -, -, hpar⟩ := h.number
  induction hn : number i using Nat.strong_induction_on generalizing i with
  | _ n ih =>
    by_cases h₀ : i = 0
    · rw [h₀]
    · obtain ⟨j, hj, hl, hlt⟩ := hpar i h₀ hi
      exact .head hj (ih (number j) (hn ▸ hlt) hl.not_unInit rfl)

end Tree

namespace ProcTree

open Sched

variable {s : Sched} {op : Op}

theorem current_ne_zero (h : ProcTree s) (hpid : (s.procs s.current).pid ≠ 0) : s.current ≠ 0 :=
  fun he => hpid (by rw [he]; exact h.pid_init)

theorem yield (h : ProcTree s) : ProcTree s.yield := by
  have hs := sameProcs_yield s
  refine ⟨h.toTree.of_sameProcs hs, (hs.live _).mpr ?_⟩
  obtain hc | hl := yield_current s
  · rw [hc]
    exact h.current
  · exact hl

theorem exit (h : ProcTree s) (hpid : (s.procs s.current).pid ≠ 0) (hn : s.HandsOver) :
    ProcTree s.zombify.yield := by
  obtain ⟨n, hnext, hlive⟩ := hn
  have hs := sameProcs_switchTo hlive
  rw [yield_of_live hnext hlive]
  exact ⟨(h.toTree.zombify h.current (h.current_ne_zero hpid)).of_sameProcs hs,
    (hs.live _).mpr hlive⟩

/-- **The processes stay a tree.** -/
theorem apply (h : ProcTree s) (hop : op.Enabled s) : ProcTree (op.apply s) := by
  cases op with
  | skip => exact h
  | yield => exact h.yield
  | fork =>
    refine ⟨h.toTree.fork h.current, ?_⟩
    cases hp : s.freeSlot with
    | none => rw [Op.apply, Tree.fork_of_full hp]; exact h.current
    | some p =>
      have hcur : s.fork.current = s.current := by rw [Tree.fork_of_free hp]
      rw [Op.apply, hcur]
      exact (Tree.live_fork hp).mpr (.inr h.current)
  | exit => exact h.exit hop.1 hop.2
  | reap child =>
    refine ⟨h.toTree.reap hop, ?_⟩
    have hne : s.current ≠ child := fun he => by
      have hl := h.current
      rw [Live, he, show (s.procs child).taskState = .zombie from hop] at hl
      exact absurd hl (by decide)
    rw [Live, Op.apply, Sched.reap]
    simp only [Function.update_of_ne hne]
    exact h.current

end ProcTree

/-! ## Live slots without gaps -/

/-- The live slots are the first `_top` ones. -/
def Compact (s : Sched) : Prop := ∀ i, s.Live i ↔ i.val < s.top

/-- Exits from the last slot only, and forks into the slot after it only. -/
def Op.Stacked : Op → Sched → Prop
  | .exit, s => s.current.val + 1 = s.top
  | .fork, s => ∀ p, s.freeSlot = some p → p.val = s.top
  | _, _ => True

namespace Compact

open Sched

variable {s s' : Sched} {op : Op}

theorem of_sameProcs (h : Compact s) (hs : SameProcs s s') : Compact s' := fun i => by
  rw [hs.live i, hs.top]
  exact h i

theorem current_lt (h : Compact s) (hp : ProcTree s) : s.current.val < s.top :=
  (h _).mp hp.current

theorem top_le (hp : ProcTree s) : s.top ≤ maxTaskNum := by
  rw [hp.top]
  exact (Finset.card_le_univ _).trans (by rw [Fintype.card_fin])

/-- The scheduler finds a live slot. -/
theorem next (h : Compact s) (hp : ProcTree s) :
    ∃ n, s.next = some n ∧ s.Live n ∧ n.val = (s.current.val + 1) % s.top := by
  have hlt := h.current_lt hp
  have hmod : (s.current.val + 1) % s.top < s.top := Nat.mod_lt _ (by omega)
  have hle := top_le hp
  refine ⟨⟨(s.current.val + 1) % s.top, by omega⟩, ?_, (h _).mpr hmod, rfl⟩
  rw [Sched.next, dif_pos ⟨by omega, by omega⟩]

/-- A yield goes round. -/
theorem yield_current (h : Compact s) (hp : ProcTree s) :
    s.yield.current.val = (s.current.val + 1) % s.top := by
  obtain ⟨n, hn, hl, hv⟩ := h.next hp
  rw [yield_of_live hn hl]
  exact hv

/-- The slot after `j` yields. -/
theorem iterate_yield (h : Compact s) (hp : ProcTree s) (j : ℕ) :
    SameProcs s (Sched.yield^[j] s) ∧
      (Sched.yield^[j] s).current.val = (s.current.val + j) % s.top := by
  induction j with
  | zero => exact ⟨.refl s, (Nat.mod_eq_of_lt (h.current_lt hp)).symm⟩
  | succ j ih =>
    obtain ⟨hs, hcur⟩ := ih
    have hp' : ProcTree (Sched.yield^[j] s) := by
      refine ⟨hp.toTree.of_sameProcs hs, (hs.live _).mpr ((h _).mpr ?_)⟩
      rw [hcur]
      exact Nat.mod_lt _ (Nat.zero_lt_of_lt (h.current_lt hp))
    rw [Function.iterate_succ_apply']
    refine ⟨hs.trans (sameProcs_yield _), ?_⟩
    rw [(h.of_sameProcs hs).yield_current hp', hcur, hs.top, Nat.mod_add_mod, Nat.add_assoc]

/-- **Round robin**: every live slot has its turn within `MAX_TASK_NUM` yields. -/
theorem reaches (h : Compact s) (hp : ProcTree s) {t : Slot} (ht : s.Live t) :
    ∃ j ≤ maxTaskNum, (Sched.yield^[j] s).current = t := by
  have hc := h.current_lt hp
  have hlt := (h t).mp ht
  have hle := top_le hp
  have hmod : (t.val + (s.top - s.current.val)) % s.top < s.top := Nat.mod_lt _ (by omega)
  refine ⟨(t.val + (s.top - s.current.val)) % s.top, by omega, Fin.ext ?_⟩
  rw [(h.iterate_yield hp _).2, Nat.add_mod_mod,
    show s.current.val + (t.val + (s.top - s.current.val)) = t.val + s.top by omega,
    Nat.add_mod_right, Nat.mod_eq_of_lt hlt]

/-- Compactness is kept up to the switch of an exit. -/
theorem zombify (h : Compact s) (hlast : s.current.val + 1 = s.top) :
    Compact s.zombify := fun i => by
  have htop : s.zombify.top = s.top - 1 := rfl
  rw [Tree.live_zombify, h i, htop, ne_eq, Fin.ext_iff]
  omega

/-- From the last slot an exit always finds a successor. -/
theorem handsOver (h : Compact s) (hp : ProcTree s) (hpid : (s.procs s.current).pid ≠ 0)
    (hlast : s.current.val + 1 = s.top) : s.HandsOver := by
  have h₀ := hp.current_ne_zero hpid
  have hpos : s.current.val ≠ 0 := fun he => h₀ (Fin.ext he)
  have htop : s.zombify.top = s.top - 1 := rfl
  have hcur : s.zombify.current = s.current := rfl
  have hle := top_le hp
  have hmod : (s.current.val + 1) % (s.top - 1) < s.top - 1 := Nat.mod_lt _ (by omega)
  refine ⟨⟨(s.current.val + 1) % (s.top - 1), by omega⟩, ?_, (h.zombify hlast _).mpr hmod⟩
  simp only [Sched.next, htop, hcur]
  rw [dif_pos ⟨by omega, by omega⟩]

/-- **Compactness is kept.** -/
theorem apply (h : Compact s) (hop : op.Enabled s) (hst : op.Stacked s) :
    Compact (op.apply s) := by
  cases op with
  | skip => exact h
  | yield => exact h.of_sameProcs (sameProcs_yield s)
  | fork =>
    cases hf : s.freeSlot with
    | none => rw [Op.apply, Tree.fork_of_full hf]; exact h
    | some p =>
      have hpt : p.val = s.top := hst p hf
      have htop : s.fork.top = s.top + 1 := by rw [Tree.fork_of_free hf]
      intro i
      rw [Op.apply, Tree.live_fork hf, h i, htop, Fin.ext_iff]
      omega
  | exit => exact (h.zombify hst).of_sameProcs (sameProcs_yield _)
  | reap child =>
    have hcl : ¬ s.Live child := by
      rw [Live, show (s.procs child).taskState = .zombie from hop]
      decide
    intro i
    rw [show (Op.apply (.reap child) s).top = s.top from rfl, ← h i]
    by_cases hi : i = child
    · subst hi
      simp only [Op.apply, Sched.reap, Live, Function.update_self]
      rw [Live] at hcl
      simp only [hcl]
      decide
    · simp only [Op.apply, Sched.reap, Live, Function.update_of_ne hi]

end Compact

end RiscvOs
