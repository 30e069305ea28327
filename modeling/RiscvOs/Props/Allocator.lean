import RiscvOs.Inv.Histories
import RiscvOs.Mem.Allocator

/-!
# The frame allocator

* **`allocator_refines_lifo`**: over any sequence of calls the allocator is a LIFO free list, as
  long as frees are of held frames and find room on the recycled stack.
* **`frames_kept_iff`**: no frame is missing exactly when no free found the recycled stack full.
* **`freeing_checks_iff`**: which frames that are not held `StackFrameAllocator_dealloc` turns away.
  It compares with `current` and searches the recycled stack, but never looks at the start of the
  range.
-/

set_option autoImplicit false

namespace RiscvOs

/-! ## Refinement -/

/-- **The allocator refines a LIFO free list.** -/
theorem allocator_refines_lifo {start end_ : ℕ} {h : start ≤ end_} {m : Mem}
    {s : FreeList (Finset.Ico start end_)} (hr : LifoRun h m s) :
    -- an allocation: the frame returned last, else the lowest one never used
    (∀ f s', s.alloc = some (f, s') → ∃ m', stackFrameAllocatorAlloc m = .ok (f, m') ∧
      LifoRun h m' s' ∧ (∀ g rest, s.returned = g :: rest → f = g) ∧
      (s.returned = [] → IsLeast (s.unused : Set ℕ) f) ∧
      start ≤ f ∧ f < end_ ∧ f ∉ s.held ∧ (m'.ram f = fun _ => 0) ∧
      ∀ g, g ≠ f → m'.ram g = m.ram g) ∧
    -- it stops when all frames are held, and only then
    (s.alloc = none ↔ s.held = Finset.Ico start end_) ∧
    (stackFrameAllocatorAlloc m = .error (.panic "memory is full") ↔
      s.held = Finset.Ico start end_) ∧
    -- a free is silent
    ∀ f (hf : f ∈ s.held), s.returned.length < maxSize → ∃ m',
      stackFrameAllocatorDealloc m f = .ok m' ∧ LifoRun h m' (s.dealloc f hf) ∧
      m'.ram = m.ram ∧ m'.console = m.console := by
  have hre := hr.refines
  refine ⟨fun f s' hs => ?_, FreeList.alloc_eq_none_iff, ⟨fun he => ?_, fun he => ?_⟩,
    fun f hf hroom => ?_⟩
  · obtain ⟨m', hok, ho, -⟩ := hre.alloc hs
    have ht := FreeList.alloc_spec hs
    have hI := Finset.mem_Ico.mp ht.mem
    exact ⟨m', hok, .alloc hr hok hs, ht.last, ht.least, hI.1, hI.2, ht.not_held, ho.zero, ho.other⟩
  · cases hs : s.alloc with
    | none => exact FreeList.alloc_eq_none_iff.mp hs
    | some r =>
      obtain ⟨m', hok, -⟩ := hre.alloc hs
      cases hok.symm.trans he
  · exact hre.alloc_none (FreeList.alloc_eq_none_iff.mpr he)
  · obtain ⟨m', hok, hram, hcon, -⟩ := hre.dealloc hf hroom
    exact ⟨m', hok, .dealloc hr hf hroom hok, hram, hcon⟩

/-- Two frames handed out, the first one given back: it is the next one handed out. -/
theorem allocator_refines_lifo_reuse : ∃ m₁ m₂ m₃ m₄,
    stackFrameAllocatorAlloc ⟨fun _ _ => 1, stackFrameAllocatorNew 5 10 (by decide), []⟩ =
      .ok (5, m₁) ∧ stackFrameAllocatorAlloc m₁ = .ok (6, m₂) ∧
    stackFrameAllocatorDealloc m₂ 5 = .ok m₃ ∧ m₃.console = m₂.console ∧
    stackFrameAllocatorAlloc m₃ = .ok (5, m₄) ∧ m₄.ram 6 = m₃.ram 6 := by
  have hm : ∃ m₁ m₂,
      stackFrameAllocatorAlloc ⟨fun _ _ => 1, stackFrameAllocatorNew 5 10 (by decide), []⟩ =
        .ok (5, m₁) ∧ stackFrameAllocatorAlloc m₁ = .ok (6, m₂) := ⟨_, _, rfl, rfl⟩
  have hs : ∃ s₁ s₂, (FreeList.new : FreeList (Finset.Ico 5 10)).alloc = some (5, s₁) ∧
      s₁.alloc = some (6, s₂) ∧ 5 ∈ s₂.held ∧ s₂.returned = [] := ⟨_, _, rfl, rfl, by decide, rfl⟩
  obtain ⟨m₁, m₂, hm₁, hm₂⟩ := hm
  obtain ⟨s₁, s₂, hs₁, hs₂, hheld, hret⟩ := hs
  have hr₂ : @LifoRun 5 10 (by decide) m₂ s₂ := .alloc (.alloc (.new _ _) hm₁ hs₁) hm₂ hs₂
  obtain ⟨m₃, hm₃, hr₃, -, hcon⟩ := (allocator_refines_lifo hr₂).2.2.2 5 hheld
    (by rw [hret]; decide)
  -- the list is not empty, so the allocation takes its head
  have hspec := allocator_refines_lifo hr₃
  have hsome : (s₂.dealloc 5 hheld).alloc ≠ none := by
    rw [ne_eq, hspec.2.1]
    intro hall
    have hmem : 5 ∈ (s₂.dealloc 5 hheld).held := by
      rw [hall]
      decide
    exact absurd hmem (Finset.notMem_erase _ _)
  obtain ⟨⟨f, s'⟩, hf⟩ := Option.ne_none_iff_exists'.mp hsome
  obtain ⟨m₄, hm₄, -, hlast, -, -, -, -, -, hother⟩ := hspec.1 f s' hf
  obtain rfl : f = 5 := hlast 5 _ rfl
  exact ⟨m₁, m₂, m₃, m₄, hm₁, hm₂, hm₃, hcon, hm₄, hother 6 (by decide)⟩

/-! ## Frames that get lost -/

section Lost

variable {cfg : Config} {m : Mem} {l : Ledger}

/-- The frames `frame_alloctor_init` manages, each free being of a held one. -/
abbrev HeldFrees (cfg : Config) : Mem → Ledger → Prop :=
  Session (fun _ l ppn => ppn ∈ l.held) cfg.lo_le

/-- Allocating from the start of the range. -/
theorem exists_allocs {P : Mem → Ledger → ℕ → Prop} {start end_ : ℕ} (h : start ≤ end_) {n : ℕ}
    (hn : start + n ≤ end_) : ∃ m, Session P h m ⟨Finset.Ico start (start + n), 0⟩ ∧
      m.memoryAllocator.recycled.data = [] ∧ m.memoryAllocator.current = start + n ∧
      m.memoryAllocator.end_ = end_ := by
  induction n with
  | zero =>
    refine ⟨⟨fun _ _ => 0, stackFrameAllocatorNew start end_ h, []⟩, ?_, rfl, rfl, rfl⟩
    rw [add_zero, Finset.Ico_self]
    exact .new _ _
  | succ n ih =>
    obtain ⟨m, hs, hr, hc, he⟩ := ih (by omega)
    obtain ⟨m', hm, ho, hr', hc'⟩ := alloc_of_unused hr (by omega)
    refine ⟨m', ?_, hr', by omega, ho.end_eq.trans he⟩
    have hins : Finset.Ico start (start + (n + 1)) =
        insert m.memoryAllocator.current (Finset.Ico start (start + n)) := by
      ext x
      rw [Finset.mem_insert, Finset.mem_Ico, Finset.mem_Ico]
      omega
    rw [hins]
    exact hs.alloc hm

/-- A frame given back on a full stack. -/
theorem dealloc_of_stackFull {m : Mem} {f : ℕ} (hlt : f < m.memoryAllocator.current)
    (hr : f ∉ m.memoryAllocator.recycled.data) (hfull : m.memoryAllocator.recycled.isFull = true) :
    stackFrameAllocatorDealloc m f = .ok (m.printf "Stack overflow\n" []) := by
  rw [stackFrameAllocatorDealloc, if_neg (by omega), if_neg hr, pushRecycled,
    dif_neg (by rw [hfull]; decide)]

/-- Allocating `n` frames and giving the last `k` of them back, the highest first. -/
theorem exists_deallocs {start end_ : ℕ} (h : start ≤ end_) {n k : ℕ} (hn : start + n ≤ end_)
    (hk : k ≤ n) : ∃ m, Session (fun _ l ppn => ppn ∈ l.held) h m
      ⟨Finset.Ico start (start + (n - k)), k - maxSize⟩ ∧
      m.memoryAllocator.recycled.data.length = min k maxSize ∧
      (∀ f ∈ m.memoryAllocator.recycled.data, start + (n - k) ≤ f) ∧
      m.memoryAllocator.current = start + n := by
  induction k with
  | zero =>
    obtain ⟨m, hs, hr, hc, -⟩ := exists_allocs (P := fun _ l ppn => ppn ∈ l.held) h hn
    refine ⟨m, ?_, ?_, fun f hf => ?_, hc⟩
    · rw [Nat.zero_sub]
      exact hs
    · rw [hr, List.length_nil, Nat.zero_min]
    · rw [hr] at hf
      cases hf
  | succ k ih =>
    obtain ⟨m, hs, hlen, hrec, hc⟩ := ih (by omega)
    have hf : start + (n - (k + 1)) ∈ Finset.Ico start (start + (n - k)) := by
      rw [Finset.mem_Ico]
      omega
    have hlt : start + (n - (k + 1)) < m.memoryAllocator.current := by omega
    have hnr : start + (n - (k + 1)) ∉ m.memoryAllocator.recycled.data := fun hr => by
      have := hrec _ hr
      omega
    have herase : (Finset.Ico start (start + (n - k))).erase (start + (n - (k + 1))) =
        Finset.Ico start (start + (n - (k + 1))) := by
      ext x
      rw [Finset.mem_erase, Finset.mem_Ico, Finset.mem_Ico]
      omega
    by_cases hroom : k < maxSize
    · have hfull : m.memoryAllocator.recycled.isFull = false := by
        rw [Stack.isFull, beq_eq_false_iff_ne]
        omega
      obtain ⟨m', hm, -, -, hr', hc', -⟩ := dealloc_of_room hlt hnr (by omega)
      have hs' := hs.dealloc hf hm
      have hd : k + 1 - maxSize = k - maxSize := by omega
      rw [Ledger.dealloc, if_pos hf, herase, hfull, if_neg Bool.false_ne_true, ← hd] at hs'
      refine ⟨m', hs', ?_, fun f hf => ?_, hc'.trans hc⟩
      · rw [hr', List.length_cons, hlen, Nat.min_eq_left hroom.le, Nat.min_eq_left hroom]
      · rw [hr', List.mem_cons] at hf
        obtain rfl | hf := hf
        · exact le_rfl
        · have := hrec f hf
          omega
    · have hfull : m.memoryAllocator.recycled.isFull = true := by
        rw [Stack.isFull, beq_iff_eq]
        omega
      have hs' := hs.dealloc hf (dealloc_of_stackFull hlt hnr hfull)
      have hd : k + 1 - maxSize = k - maxSize + 1 := by omega
      rw [Ledger.dealloc, if_pos hf, herase, hfull, if_pos rfl, ← hd] at hs'
      refine ⟨m.printf "Stack overflow\n" [], hs', ?_, fun f hf => ?_, hc⟩
      · rw [Nat.min_eq_right (Nat.le_of_not_lt hroom)] at hlen
        rw [Nat.min_eq_right (by omega)]
        exact hlen
      · have := hrec f hf
        omega

/-- **No frame is missing iff no free found the recycled stack full.** -/
theorem frames_kept_iff (hs : HeldFrees cfg m l) :
    (∃ m', kallocs (frameEnd - cfg.lo - l.held.card) m = .ok m' ∧
      kalloc m' = .error (.panic "memory is full")) ↔ l.dropped = 0 := by
  obtain ⟨lost, ha⟩ := hs.accounted fun _ _ _ _ hp => .inl hp
  have hcard := congrArg Multiset.card ha.total
  rw [Multiset.card_add, Multiset.card_add, Finset.card_val, Finset.card_val, Nat.card_Ico,
    ha.card] at hcard
  rw [kallocs_iff]
  unfold frameEnd
  omega

/-- A frame handed out and given back: all of them can be had again. -/
theorem frames_kept_iff_one : ∃ m l, HeldFrees tiny m l ∧ l.held = ∅ ∧
    ∃ m', kallocs (frameEnd - tiny.lo - l.held.card) m = .ok m' ∧
      kalloc m' = .error (.panic "memory is full") := by
  obtain ⟨m, hs, -⟩ := exists_deallocs tiny.lo_le (n := 1) (k := 1) (by decide) le_rfl
  exact ⟨m, _, hs, Finset.Ico_self _, (frames_kept_iff hs).mpr (by decide)⟩

/-- 10001 frames handed out and given back: one of them is gone. -/
theorem frame_lost : ∃ m l, HeldFrees tiny m l ∧ l.held = ∅ ∧
    ¬ ∃ m', kallocs (frameEnd - tiny.lo) m = .ok m' ∧
      kalloc m' = .error (.panic "memory is full") := by
  obtain ⟨m, hs, -⟩ := exists_deallocs tiny.lo_le (n := 10001) (k := 10001) (by decide) le_rfl
  refine ⟨m, _, hs, Finset.Ico_self _, ?_⟩
  obtain ⟨lost, ha⟩ := hs.accounted fun _ _ _ _ hp => .inl hp
  have hcard := congrArg Multiset.card ha.total
  have hd : 10001 - maxSize = 1 := by decide
  have hlt : tiny.lo < frameEnd := by decide
  rw [Multiset.card_add, Multiset.card_add, Finset.card_val, Finset.card_val, ha.card] at hcard
  simp only [hd, Nat.card_Ico] at hcard
  rw [kallocs_iff]
  unfold frameEnd at hlt ⊢
  omega

end Lost

/-! ## Frames that are not held -/

/-- The free set stays as it is. -/
def LeavesFree (m : Mem) (ppn : ℕ) : Prop :=
  ∀ m', stackFrameAllocatorDealloc m ppn = .ok m' → m'.free = m.free

/-- The frees allowed so far: of frames from `start` on, and not of a held frame on a full stack. -/
def InRange (start : ℕ) (m : Mem) (l : Ledger) (ppn : ℕ) : Prop :=
  start ≤ ppn ∧ (ppn ∈ l.held → m.memoryAllocator.recycled.isFull = false)

/-- **A frame that is not held is turned away iff it is of the range or above**, or the stack is
full, as long as no earlier free was of a frame below the range, or of a held one on a full stack.
Then every frame handed out is of the range. -/
theorem freeing_checks_iff {start end_ : ℕ} {h : start ≤ end_} {m : Mem} {l : Ledger}
    (hs : Session (InRange start) h m l) :
    (∀ ppn, ppn ∉ l.held →
      (LeavesFree m ppn ↔ start ≤ ppn ∨ m.memoryAllocator.recycled.isFull = true)) ∧
    ∀ f m', stackFrameAllocatorAlloc m = .ok (f, m') →
      start ≤ f ∧ f < end_ ∧ f ∉ l.held ∧ ∀ g, g ≠ f → m'.ram g = m.ram g := by
  have hd : ∀ {m l}, Session (InRange start) h m l → l.dropped = 0 := fun hs =>
    hs.dropped_eq_zero fun _ _ _ hp => hp.2
  obtain ⟨lost, ha⟩ := hs.accounted fun m l ppn hs hp => .inr ⟨hp.1, hd hs⟩
  have hlost : lost = 0 := Multiset.card_eq_zero.mp (ha.card.trans (hd hs))
  have hrange : ∀ f ∈ m.free, start ≤ f ∧ f < end_ := fun f hf => by
    have hI : f ∈ (Finset.Ico start end_).val := by
      rw [← ha.total]
      exact Multiset.mem_add.mpr (.inl (Multiset.mem_add.mpr (.inr hf)))
    exact Finset.mem_Ico.mp hI
  refine ⟨fun ppn hp => ⟨fun hl => ?_, fun hcond m' hm => ?_⟩, fun f m' hm => ?_⟩
  · -- a frame below the range is taken for one that was handed out
    by_contra hcond
    rw [not_or, not_le, Bool.not_eq_true] at hcond
    obtain ⟨hlow, hfull⟩ := hcond
    have hcur : start ≤ m.memoryAllocator.current := ha.start_le
    have hnr : ppn ∉ m.memoryAllocator.recycled.data := fun hr => by
      have := hrange ppn (Multiset.mem_add.mpr (.inl (Multiset.mem_coe.mpr hr)))
      omega
    have hroom : m.memoryAllocator.recycled.data.length < maxSize := by
      rw [Stack.isFull, beq_eq_false_iff_ne] at hfull
      exact lt_of_le_of_ne m.memoryAllocator.recycled.bound hfull
    obtain ⟨m', hm, -, -, hr', hc', he'⟩ := dealloc_of_room (hlow.trans_le hcur) hnr hroom
    have hcard := congrArg Multiset.card (hl m' hm)
    rw [Mem.card_free, Mem.card_free, hr', hc', he', List.length_cons] at hcard
    omega
  · by_cases hst : start ≤ ppn
    · exact (dealloc_of_free (ha.not_held hlost hp hst) hm).1
    · exact dealloc_of_isFull (hcond.resolve_left hst) hm
  · obtain ⟨hf, hh, -⟩ := ha.of_alloc hm
    obtain ⟨hg, -⟩ := (kalloc_spec m).of_ok hm
    refine ⟨(hrange f hf).1, (hrange f hf).2, hh, fun g hgf => ?_⟩
    exact hg.frame g (Multiset.notMem_zero g) (by simpa using hgf)

/-- A frame given back twice: the second time is turned away. -/
theorem freeing_checks_iff_twice : ∃ m l, @Session (InRange 5) 5 10 (by decide) m l ∧
    5 ∉ l.held ∧ LeavesFree m 5 := by
  have hm : ∃ m₁ m₂,
      stackFrameAllocatorAlloc ⟨fun _ _ => 1, stackFrameAllocatorNew 5 10 (by decide), []⟩ =
        .ok (5, m₁) ∧ stackFrameAllocatorDealloc m₁ 5 = .ok m₂ ∧
      m₁.memoryAllocator.recycled.isFull = false := ⟨_, _, rfl, rfl, rfl⟩
  obtain ⟨m₁, m₂, h₁, h₂, hroom⟩ := hm
  have h₀ : @Session (InRange 5) 5 10 (by decide)
      ⟨fun _ _ => 1, stackFrameAllocatorNew 5 10 (by decide), []⟩ ⟨∅, 0⟩ := .new _ _
  have hs := (h₀.alloc h₁).dealloc ⟨le_rfl, fun _ => hroom⟩ h₂
  have hnot : 5 ∉ (Ledger.dealloc ⟨insert 5 ∅, 0⟩ m₁ 5).held := by
    rw [Ledger.dealloc, if_pos (Finset.mem_insert_self 5 ∅)]
    exact Finset.notMem_erase _ _
  exact ⟨m₂, _, hs, hnot, ((freeing_checks_iff hs).1 5 hnot).mpr (.inl le_rfl)⟩

/-- A frame below the range is taken back, handed out and cleared. -/
theorem foreign_frame_freed : ∃ m₁ m₂ m₃,
    stackFrameAllocatorAlloc ⟨fun _ _ => 1, stackFrameAllocatorNew 5 10 (by decide), []⟩ =
      .ok (5, m₁) ∧
    stackFrameAllocatorDealloc m₁ 0 = .ok m₂ ∧ m₂.free ≠ m₁.free ∧
    stackFrameAllocatorAlloc m₂ = .ok (0, m₃) ∧ m₂.ram 0 0 = 1 ∧ m₃.ram 0 0 = 0 := by
  refine ⟨_, _, _, rfl, rfl, fun he => ?_, rfl, rfl, rfl⟩
  have hcard := congrArg Multiset.card he
  rw [Mem.card_free, Mem.card_free] at hcard
  revert hcard
  decide

end RiscvOs
