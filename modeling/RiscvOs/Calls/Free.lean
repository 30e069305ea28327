import RiscvOs.Calls.Exec

/-!
# What `free_child` does

* **`freeChild_spec`**: every frame of the child is given back, once.
* `Freed.memInv`: the slot owns nothing any more.
-/

set_option autoImplicit false

namespace RiscvOs

variable {cfg : Config} {k k' : Kernel} {c : Slot}

/-- The frames of the slot `c` have been given back. -/
structure Freed (k : Kernel) (c : Slot) (m : Mem) : Prop where
  frees : ∃ d, Frees k.mem m (tableFrames k.mem.ram (k.tasks c).pagetable.rootPpn)
    ((k.tasks c).frames k.mem.ram) d

/-- The state `free_child` leaves. -/
def afterFree (k : Kernel) (c : Slot) (m : Mem) : Kernel :=
  { k with mem := m }.setTask c (k.tasks c).freed

@[simp] theorem afterFree_self (k : Kernel) (c : Slot) (m : Mem) :
    (afterFree k c m).tasks c = (k.tasks c).freed := setTask_self _ _ _

/-- **`free_child`.** -/
theorem freeChild_spec (h : MemInv cfg k) (hc : (k.tasks c).taskState ≠ .unInit) :
    Outcome (freeChild k c) (fun k' => ∃ m, Freed k c m ∧ k' = afterFree k c m)
      fun _ => False := by
  have ho := h.own.mono (MemInv.taskFrames_le k c)
  rw [Kernel.taskFrames_of_init hc] at ho
  have hfree := (h.task c hc).space.free_space true (h.cx_lt hc) ho
  rw [freeChild]
  refine Outcome.bind hfree ?_
  rintro m ⟨d, hf⟩
  refine ⟨m, ⟨d, ?_⟩, rfl⟩
  have hsum : {(k.tasks c).cx} +
      leaves (lookup k.mem.ram (k.tasks c).pagetable.rootPpn) 0 ((k.tasks c).baseSize / 4096) +
      tableFrames k.mem.ram (k.tasks c).pagetable.rootPpn = (k.tasks c).frames k.mem.ram := by
    rw [TaskControlBlock.frames]
    abel
  rw [← hsum]
  exact hf

section After

variable {m : Mem} (h : MemInv cfg k) (hc : (k.tasks c).taskState ≠ .unInit) (hf : Freed k c m)

include h hc hf

/-- Only the child's slot has changed. -/
theorem Freed.onlyTask : OnlyTask cfg k (afterFree k c m) c where
  kernelPagetable := rfl
  task i hi := by
    rw [afterFree, setTask_of_ne _ hi]
    exact .refl _
  frame x hx := by
    obtain ⟨d, hf⟩ := hf.frees
    refine hf.frame x fun hm => h.not_mem_rest ?_ hx
    rw [Kernel.taskFrames_of_init hc, TaskControlBlock.frames, add_assoc]
    exact Multiset.mem_add.mpr (.inl hm)
  text := by
    obtain ⟨d, hf⟩ := hf.frees
    refine hf.frame _ fun hm => h.frame_ne (MemInv.frames_mem hc ?_) rfl
    rw [TaskControlBlock.frames, add_assoc]
    exact Multiset.mem_add.mpr (.inl hm)
  end_eq := by
    obtain ⟨d, hf⟩ := hf.frees
    exact hf.end_eq

/-- **The memory invariant after `free_child`.** -/
theorem Freed.memInv : MemInv cfg (afterFree k c m) := by
  have hu : ((afterFree k c m).tasks c).taskState = .unInit := by rw [afterFree_self]; rfl
  refine h.replace (hf.onlyTask h hc) ?_ fun hi => absurd hu hi
  rw [Kernel.taskFrames_of_unInit hu, add_zero]
  obtain ⟨d, hf⟩ := hf.frees
  have ho := h.own
  rw [k.owned_eq c, Kernel.taskFrames_of_init hc] at ho
  exact ho.frees hf

end After

end RiscvOs
