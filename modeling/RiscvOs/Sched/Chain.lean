import RiscvOs.Sched.Model

/-!
# Processes in a line

Where only the last process forks and exits, the processes are in a line: slot 0, its child in slot
1, the child of that one in slot 2 and so on.

* `Chain`: the line, with its length.
* **`Chain.stacked`**: the forks and exits of the last process are those of a stack.
* `Chain.fork`, `Chain.exit`, `Chain.reap`: the line stays one.
-/

set_option autoImplicit false

namespace RiscvOs

open Sched

/-- The first `n` slots are in use, each of them by a child of the one before it, and only the last
one may be a zombie. -/
structure Chain (s : Sched) (n : ℕ) : Prop where
  used : ∀ i, ¬ s.UnInit i ↔ i.val < n
  live : ∀ i, i.val + 1 < n → s.Live i
  parent : ∀ i, i ≠ 0 → i.val < n → ∃ j, (s.procs i).parent = some j ∧ j.val + 1 = i.val

/-- The first free slot is the first one. -/
theorem Sched.not_unInit_of_lt {s : Sched} {i p : Slot} (hp : s.freeSlot = some p) (hi : i < p) :
    ¬ s.UnInit i := by
  obtain ⟨-, m, _, hget, hbefore⟩ := List.find?_eq_some_iff_getElem.mp hp
  have hpm : p.val = m := by
    rw [← hget, List.getElem_finRange]
    rfl
  have hlt : i.val < m := hpm ▸ hi
  have := hbefore i.val hlt
  simpa using this

namespace Chain

variable {s s' : Sched} {op : Op} {n : ℕ} {i child p : Slot}

theorem of_sameProcs (h : Chain s n) (hs : SameProcs s s') : Chain s' n where
  used i := by rw [hs.unInit]; exact h.used i
  live i hi := (hs.live i).mpr (h.live i hi)
  parent i hi hn := by rw [hs.parent]; exact h.parent i hi hn

theorem lt_of_live (h : Chain s n) (hi : s.Live i) : i.val < n := (h.used i).mp hi.not_unInit

/-- A zombie is the last process. -/
theorem last_of_zombie (h : Chain s n) (hz : (s.procs child).taskState = .zombie) :
    child.val + 1 = n := by
  have hu : ¬ s.UnInit child := fun hu => by
    rw [UnInit, hz] at hu
    cases hu
  have hlt := (h.used child).mp hu
  by_contra hne
  have hl := h.live child (by omega)
  rw [Live, hz] at hl
  exact absurd hl (by decide)

/-- The slot a fork fills is the one after the last. -/
theorem freeSlot_val (h : Chain s n) (hp : s.freeSlot = some p) : p.val = n := by
  have hle : ¬ p.val < n := fun hlt => (h.used p).mpr hlt (Tree.unInit_of_freeSlot hp)
  by_contra hne
  have hlt : n < p.val := by omega
  have hfree : ¬ s.UnInit ⟨n, hlt.trans p.isLt⟩ := not_unInit_of_lt hp hlt
  exact absurd ((h.used _).mp hfree) (lt_irrefl n)

/-- If the last process runs, the live slots are those in use. -/
theorem top_eq (h : Chain s n) (hc : Compact s) (ht : ProcTree s)
    (hlast : s.current.val + 1 = n) : s.top = n := by
  have hcur := hc.current_lt ht
  have hle := Compact.top_le ht
  by_contra hne
  have hlt : n < s.top := by omega
  exact absurd (h.lt_of_live ((hc ⟨n, by omega⟩).mpr hlt)) (lt_irrefl n)

/-- **What the last process does** is what a stack allows. -/
theorem stacked (h : Chain s n) (hc : Compact s) (ht : ProcTree s)
    (hlast : op = .fork ∨ op = .exit → s.current.val + 1 = n) : op.Stacked s := by
  cases op with
  | fork =>
    intro p hp
    rw [h.freeSlot_val hp, h.top_eq hc ht (hlast (.inl rfl))]
  | exit =>
    have hcur := hlast (.inr rfl)
    rw [Op.Stacked, h.top_eq hc ht hcur, hcur]
  | _ => trivial

/-! ## Operations -/

/-- A fork of the last process makes the line longer. -/
theorem fork (h : Chain s n) (hc : s.Live s.current) (hlast : s.current.val + 1 = n)
    (hp : s.freeSlot = some p) : Chain s.fork (n + 1) := by
  have hpn := h.freeSlot_val hp
  refine ⟨fun i => ?_, fun i hi => (Tree.live_fork hp).mpr (.inr ?_), fun i h₀ hi => ?_⟩
  · by_cases hip : i = p
    · subst hip
      rw [UnInit, Tree.fork_self hp]
      simp [hpn]
    · have hval : i.val ≠ n := fun he => hip (Fin.ext (he.trans hpn.symm))
      rw [UnInit, Tree.fork_of_ne hp hip]
      refine (h.used i).trans ?_
      omega
  · by_cases hin : i.val + 1 < n
    · exact h.live i hin
    · obtain rfl : i = s.current := Fin.ext (by omega)
      exact hc
  · by_cases hip : i = p
    · subst hip
      exact ⟨s.current, by rw [Tree.fork_self hp], by omega⟩
    · have hval : i.val ≠ n := fun he => hip (Fin.ext (he.trans hpn.symm))
      obtain ⟨j, hj, hv⟩ := h.parent i h₀ (by omega)
      exact ⟨j, by rw [Tree.fork_of_ne hp hip, hj], hv⟩

/-- The last process stops. -/
theorem exit (h : Chain s n) (hc : s.Live s.current) (hlast : s.current.val + 1 = n) :
    Chain s.zombify.yield n := by
  refine Chain.of_sameProcs ⟨fun i => ?_, fun i hi => ?_, fun i h₀ hi => ?_⟩ (sameProcs_yield _)
  · rw [Tree.unInit_zombify hc]
    exact h.used i
  · refine Tree.live_zombify.mpr ⟨h.live i hi, fun he => ?_⟩
    rw [he] at hi
    omega
  · obtain ⟨j, hj, hv⟩ := h.parent i h₀ hi
    refine ⟨j, ?_, hv⟩
    have hjc : j ≠ s.current := fun he => by
      rw [he] at hv
      omega
    simp only [Tree.zombify_procs, hj, Option.some.injEq, hjc, if_false]

/-- The last process is recycled. -/
theorem reap (h : Chain s (n + 1)) (hz : (s.procs child).taskState = .zombie) :
    Chain (s.reap child) n := by
  have hlast := h.last_of_zombie hz
  have hne : ∀ {i : Slot}, i ≠ child → (s.reap child).procs i = s.procs i := fun hi =>
    Function.update_of_ne hi _ _
  have hlt : ∀ {i : Slot}, i.val < n → i ≠ child := fun hi he => by
    rw [he] at hi
    omega
  refine ⟨fun i => ?_, fun i hi => ?_, fun i h₀ hi => ?_⟩
  · by_cases hic : i = child
    · subst hic
      simp only [UnInit, Sched.reap, Function.update_self, not_true, false_iff]
      omega
    · have hval : i.val ≠ child.val := fun he => hic (Fin.ext he)
      rw [UnInit, hne hic]
      refine (h.used i).trans ?_
      omega
  · rw [Live, hne (hlt (by omega))]
    exact h.live i (by omega)
  · rw [hne (hlt hi)]
    exact h.parent i h₀ (by omega)

end Chain

end RiscvOs
