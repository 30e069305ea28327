import RiscvOs.Inv.Histories

/-!
# Who owns a frame

* `Own.recycled_lt`: a recycled frame has been handed out before.
* `MemInv.mapped_cases`: what a user table maps is the task's own, or the trampoline.
* **`frames_disjoint`**: every frame has one owner, and user tables share the trampoline only.
-/

set_option autoImplicit false

namespace RiscvOs

open PageTableEntry

variable {cfg : Config} {mode : Mode} {k : Kernel}

theorem Own.recycled_lt {lo : ℕ} {m : Mem} {X : Multiset ℕ} (h : Own lo m X) {f : ℕ}
    (hf : f ∈ m.recycled) : lo ≤ f ∧ f < m.memoryAllocator.current := by
  have hmem : f ∈ X + m.free :=
    Multiset.mem_add.mpr (.inr (Multiset.mem_add.mpr (.inl hf)))
  have hlt := Finset.mem_Ico.mp (Multiset.mem_of_le h hmem)
  refine ⟨hlt.1, ?_⟩
  by_contra hge
  -- it would be free twice
  have hnd := (Multiset.nodup_add.mp h.nodup_add).2.1
  exact Multiset.disjoint_left.mp (Multiset.nodup_add.mp hnd).2.2 hf
    (Finset.mem_Ico.mpr ⟨Nat.le_of_not_lt hge, hlt.2⟩)

/-- What a user table maps belongs to the task, or is the trampoline, which is not for the user. -/
theorem MemInv.mapped_cases (h : MemInv cfg k) {i : Slot} (hi : (k.tasks i).taskState ≠ .unInit)
    {v : ℕ} {e : Word} (hv : v < 2 ^ 27)
    (he : lookup k.mem.ram (k.tasks i).pagetable.rootPpn v = some e) :
    ppn e ∈ k.taskFrames i ∨ (ppn e = cfg.trampolinePpn ∧ has e pteU = false) := by
  rw [Kernel.taskFrames_of_init hi]
  obtain ⟨-, -, hl⟩ | ⟨-, rfl⟩ | ⟨-, rfl⟩ := h.lookup_cases hi hv he
  · exact .inl (Multiset.mem_add.mpr (.inr hl))
  · left
    rw [ppn_new (h.cx_lt hi)]
    exact cx_mem_frames _ _
  · exact .inr ⟨ppn_new cfg.trampolinePpn_lt _, has_trampolinePage cfg.trampolinePpn_lt⟩

theorem MemInv.taskFrames_disjoint (h : MemInv cfg k) {i j : Slot} (hij : i ≠ j) {f : ℕ}
    (hi : f ∈ k.taskFrames i) : f ∉ k.taskFrames j := fun hj =>
  h.not_mem_rest hj (Multiset.mem_of_le (k.taskFrames_le_rest hij) hi)

/-- **Every frame has one owner**: the tables, trap page and pages of a task, the tables and stacks
of the kernel and the recycled frames do not overlap, and have all been handed out. Two user tables
share the trampoline page only, which neither of them maps for the user. -/
theorem frames_disjoint (hwf : cfg.WellFormed) (hreach : Reachable cfg (.running mode k)) :
    (k.kernelTableFrames + k.kernelStackFrames + ∑ i, k.taskFrames i + k.mem.recycled).Nodup ∧
    (∀ f ∈ k.kernelTableFrames + k.kernelStackFrames + ∑ i, k.taskFrames i + k.mem.recycled,
      cfg.lo ≤ f ∧ f < k.mem.memoryAllocator.current) ∧
    ∀ i j, i ≠ j → (k.tasks i).taskState ≠ .unInit → (k.tasks j).taskState ≠ .unInit →
      ∀ v < 2 ^ 27, ∀ v' < 2 ^ 27, ∀ e e',
        lookup k.mem.ram (k.tasks i).pagetable.rootPpn v = some e →
        lookup k.mem.ram (k.tasks j).pagetable.rootPpn v' = some e' → ppn e = ppn e' →
        ppn e = cfg.trampolinePpn ∧ has e pteU = false ∧ has e' pteU = false := by
  have h := (hreach.inv hwf).mem
  have hle : k.owned + k.mem.recycled ≤ k.owned + k.mem.free :=
    add_le_add_right (Multiset.le_add_right _ _) _
  refine ⟨Multiset.nodup_of_le hle h.own.nodup_add, fun f hf => ?_, ?_⟩
  · obtain hf | hf := Multiset.mem_add.mp hf
    · exact h.own.mem_Ico hf
    · exact h.own.recycled_lt hf
  · intro i j hij hi hj v hv v' hv' e e' he he' heq
    have hown : ∀ {a f}, f ∈ k.taskFrames a → f ≠ cfg.trampolinePpn := fun hf =>
      h.frame_ne (Multiset.mem_of_le (MemInv.taskFrames_le k _) hf)
    obtain hf | ⟨ht, hu⟩ := h.mapped_cases hi hv he <;>
      obtain hf' | ⟨ht', hu'⟩ := h.mapped_cases hj hv' he'
    · exact absurd (heq ▸ hf') (h.taskFrames_disjoint hij hf)
    · exact absurd (heq.trans ht') (hown hf)
    · exact absurd (heq.symm.trans ht) (hown hf')
    · exact ⟨ht, hu, hu'⟩

/-- A parent and its child. -/
theorem frames_disjoint_fork : ∃ k : Kernel, Reachable tiny (.running .user k) ∧
    (k.tasks 1).taskState = .ready ∧
    (k.kernelTableFrames + k.kernelStackFrames + ∑ i, k.taskFrames i + k.mem.recycled).Nodup := by
  obtain ⟨es, k, hrun, -, hs⟩ := tiny_history 0
    (show [Op.fork].length ≤ 1000 by decide) (by decide +kernel)
  have h₁ : (k.sched.procs 1).taskState = .ready := by
    rw [hs]
    decide +kernel
  exact ⟨k, ⟨_, es, hrun⟩, h₁, (frames_disjoint tiny_wf ⟨_, es, hrun⟩).1⟩

end RiscvOs
