import RiscvOs.Base.FreeList
import RiscvOs.Mem.Frames

/-!
# Histories of the frame allocator

Sequences of `StackFrameAllocator_alloc` and `StackFrameAllocator_dealloc` from
`StackFrameAllocator_new(start, end)` on.

* `LifoRun`: the allocator and a LIFO free list take the same steps, each frame given back being a
  held one and the recycled stack not overflowing. **`LifoRun.refines`**: they stay in step.
* `Session`: any sequence whose frees satisfy a condition, with the frames handed out recorded.
  **`Session.accounted`**: every frame is held, free, or was dropped on a full stack.
* `kallocs_iff`: how many allocations succeed.
-/

set_option autoImplicit false

namespace RiscvOs

/-! ## One allocation -/

section Alloc

variable {m : Mem} {f : ℕ} {rest : List ℕ}

/-- The memory after a frame was handed out and cleared. -/
structure HandedOut (m m' : Mem) (f : ℕ) : Prop where
  zero : m'.ram f = fun _ => 0
  other : ∀ g, g ≠ f → m'.ram g = m.ram g
  end_eq : m'.memoryAllocator.end_ = m.memoryAllocator.end_
  console : m'.console = m.console

theorem alloc_of_recycled (h : m.memoryAllocator.recycled.data = f :: rest) :
    ∃ m', stackFrameAllocatorAlloc m = .ok (f, m') ∧ HandedOut m m' f ∧
      m'.memoryAllocator.recycled.data = rest ∧
      m'.memoryAllocator.current = m.memoryAllocator.current := by
  rw [stackFrameAllocatorAlloc]
  split
  · rename_i g rest' h'
    obtain ⟨rfl, rfl⟩ := List.cons.inj (h'.symm.trans h)
    exact ⟨_, rfl,
      ⟨Function.update_self _ _ _, fun _ hne => Function.update_of_ne hne _ _, rfl, rfl⟩,
      rfl, rfl⟩
  · rename_i h'
    cases h'.symm.trans h

theorem alloc_of_unused (h : m.memoryAllocator.recycled.data = [])
    (hlt : m.memoryAllocator.current < m.memoryAllocator.end_) :
    ∃ m', stackFrameAllocatorAlloc m = .ok (m.memoryAllocator.current, m') ∧
      HandedOut m m' m.memoryAllocator.current ∧ m'.memoryAllocator.recycled.data = [] ∧
      m'.memoryAllocator.current = m.memoryAllocator.current + 1 := by
  rw [stackFrameAllocatorAlloc]
  split
  · rename_i g rest' h'
    cases h'.symm.trans h
  · rw [dif_neg (ne_of_lt hlt)]
    exact ⟨_, rfl,
      ⟨Function.update_self _ _ _, fun _ hne => Function.update_of_ne hne _ _, rfl, rfl⟩,
      h, rfl⟩

theorem alloc_of_full (h : m.memoryAllocator.recycled.data = [])
    (he : m.memoryAllocator.current = m.memoryAllocator.end_) :
    stackFrameAllocatorAlloc m = .error (.panic "memory is full") := by
  rw [stackFrameAllocatorAlloc]
  split
  · rename_i g rest' h'
    cases h'.symm.trans h
  · rw [dif_pos he]

theorem alloc_current_le {m' : Mem} (hm : stackFrameAllocatorAlloc m = .ok (f, m')) :
    m.memoryAllocator.current ≤ m'.memoryAllocator.current := by
  cases hr : m.memoryAllocator.recycled.data with
  | cons g rest =>
    obtain ⟨m₁, hok, -, -, hc⟩ := alloc_of_recycled hr
    obtain ⟨-, rfl⟩ := Prod.mk.inj (Except.ok.inj (hok.symm.trans hm))
    exact hc.ge
  | nil =>
    by_cases he : m.memoryAllocator.current = m.memoryAllocator.end_
    · cases (alloc_of_full hr he).symm.trans hm
    · obtain ⟨m₁, hok, -, -, hc⟩ := alloc_of_unused hr (lt_of_le_of_ne m.memoryAllocator.le he)
      obtain ⟨-, rfl⟩ := Prod.mk.inj (Except.ok.inj (hok.symm.trans hm))
      omega

/-- A frame below `current` that is not on the stack, which has room. -/
theorem dealloc_of_room (hlt : f < m.memoryAllocator.current)
    (hr : f ∉ m.memoryAllocator.recycled.data)
    (hroom : m.memoryAllocator.recycled.data.length < maxSize) :
    ∃ m', stackFrameAllocatorDealloc m f = .ok m' ∧ m'.ram = m.ram ∧ m'.console = m.console ∧
      m'.memoryAllocator.recycled.data = f :: m.memoryAllocator.recycled.data ∧
      m'.memoryAllocator.current = m.memoryAllocator.current ∧
      m'.memoryAllocator.end_ = m.memoryAllocator.end_ := by
  have hfull : m.memoryAllocator.recycled.isFull = false := by
    rw [Stack.isFull, beq_eq_false_iff_ne]
    omega
  rw [stackFrameAllocatorDealloc, if_neg (by omega), if_neg hr, pushRecycled, dif_pos hfull]
  exact ⟨_, rfl, rfl, rfl, rfl, rfl, rfl⟩

end Alloc

/-! ## Refinement -/

section Refinement

variable {start end_ : ℕ} {m m' : Mem} {f : ℕ}

/-- The allocator represents the free list. -/
structure Refines (m : Mem) (s : FreeList (Finset.Ico start end_)) : Prop where
  end_eq : m.memoryAllocator.end_ = end_
  recycled : m.memoryAllocator.recycled.data = s.returned
  used : ∀ f, f ∈ s.held ∨ f ∈ s.returned ↔ start ≤ f ∧ f < m.memoryAllocator.current
  start_le : start ≤ m.memoryAllocator.current

variable {s s' : FreeList (Finset.Ico start end_)}

theorem Refines.mem_unused (h : Refines m s) :
    f ∈ s.unused ↔ m.memoryAllocator.current ≤ f ∧ f < end_ := by
  have hs := h.start_le
  have hu := h.used f
  rw [s.mem_unused, Finset.mem_Ico, ← not_or, hu]
  omega

/-- Allocation takes the frame the free list takes. -/
theorem Refines.alloc (h : Refines m s) (hs : s.alloc = some (f, s')) :
    ∃ m', stackFrameAllocatorAlloc m = .ok (f, m') ∧ HandedOut m m' f ∧ Refines m' s' := by
  have ht := FreeList.alloc_spec hs
  cases hr : s.returned with
  | cons g rest =>
    obtain rfl := ht.last g rest hr
    obtain ⟨m', hok, ho, hrec, hcur⟩ := alloc_of_recycled (h.recycled.trans hr)
    have hret : s'.returned = rest := ht.returned.trans (congrArg List.tail hr)
    refine ⟨m', hok, ho, ho.end_eq.trans h.end_eq, hrec.trans hret.symm, fun x => ?_, ?_⟩
    · rw [ht.held, Finset.mem_insert, hret, hcur, ← h.used x, hr, List.mem_cons]
      tauto
    · rw [hcur]
      exact h.start_le
  | nil =>
    have hl := ht.least hr
    have hmem := h.mem_unused.mp hl.1
    have hcurrent : f = m.memoryAllocator.current := by
      refine le_antisymm (hl.2 (h.mem_unused.mpr ⟨le_rfl, ?_⟩)) hmem.1
      omega
    have hlt : m.memoryAllocator.current < m.memoryAllocator.end_ := by
      have := h.end_eq
      omega
    subst hcurrent
    obtain ⟨m', hok, ho, hrec, hcur⟩ := alloc_of_unused (h.recycled.trans hr) hlt
    have hret : s'.returned = [] := ht.returned.trans (congrArg List.tail hr)
    refine ⟨m', hok, ho, ho.end_eq.trans h.end_eq, hrec.trans hret.symm, fun x => ?_, ?_⟩
    · have hx := h.used x
      have hs := h.start_le
      rw [hr] at hx
      rw [ht.held, Finset.mem_insert, hret, hcur, or_assoc, hx]
      omega
    · have := h.start_le
      omega

/-- And stops when everything is held. -/
theorem Refines.alloc_none (h : Refines m s) (hs : s.alloc = none) :
    stackFrameAllocatorAlloc m = .error (.panic "memory is full") := by
  have hheld := FreeList.alloc_eq_none_iff.mp hs
  have hret := FreeList.returned_eq_nil hheld
  refine alloc_of_full (h.recycled.trans hret) ?_
  by_contra hne
  have hle := m.memoryAllocator.le
  have hmem : m.memoryAllocator.current ∈ s.unused := by
    refine h.mem_unused.mpr ⟨le_rfl, ?_⟩
    have := h.end_eq
    omega
  have hm := s.mem_unused.mp hmem
  rw [hheld] at hm
  exact hm.2.1 hm.1

theorem Refines.dealloc (h : Refines m s) (hf : f ∈ s.held) (hroom : s.returned.length < maxSize) :
    ∃ m', stackFrameAllocatorDealloc m f = .ok m' ∧ m'.ram = m.ram ∧ m'.console = m.console ∧
      Refines m' (s.dealloc f hf) := by
  have hu := (h.used f).mp (.inl hf)
  have hr : f ∉ m.memoryAllocator.recycled.data := by
    rw [h.recycled]
    exact fun hr => (s.returned_subset f hr).2 hf
  obtain ⟨m', hok, hram, hcon, hrec, hcur, hend⟩ := dealloc_of_room hu.2 hr
    (by rw [h.recycled]; exact hroom)
  refine ⟨m', hok, hram, hcon, hend.trans h.end_eq, ?_, fun x => ?_, ?_⟩
  · rw [hrec, h.recycled]
    rfl
  · rw [hcur, ← h.used x]
    change x ∈ s.held.erase f ∨ x ∈ f :: s.returned ↔ _
    rw [Finset.mem_erase, List.mem_cons]
    by_cases hx : x = f
    · subst hx
      tauto
    · tauto
  · rw [hcur]
    exact h.start_le

/-- The allocator and a free list side by side: each free is of a held frame, and finds room on the
recycled stack. -/
inductive LifoRun (h : start ≤ end_) : Mem → FreeList (Finset.Ico start end_) → Prop where
  | new (ram : ℕ → Fin 512 → Word) (console : List Output) :
    LifoRun h ⟨ram, stackFrameAllocatorNew start end_ h, console⟩ .new
  | alloc {m m' : Mem} {s s' : FreeList (Finset.Ico start end_)} {f g : ℕ} (hr : LifoRun h m s)
    (hm : stackFrameAllocatorAlloc m = .ok (f, m')) (hs : s.alloc = some (g, s')) : LifoRun h m' s'
  | dealloc {m m' : Mem} {s : FreeList (Finset.Ico start end_)} {f : ℕ} (hr : LifoRun h m s)
    (hf : f ∈ s.held) (hroom : s.returned.length < maxSize)
    (hm : stackFrameAllocatorDealloc m f = .ok m') : LifoRun h m' (s.dealloc f hf)

/-- **They stay in step.** -/
theorem LifoRun.refines {h : start ≤ end_} (hr : LifoRun h m s) : Refines m s := by
  induction hr with
  | new ram console =>
    refine ⟨rfl, rfl, fun f => ?_, le_rfl⟩
    simp only [FreeList.new, stackFrameAllocatorNew, Finset.notMem_empty, List.not_mem_nil, or_self,
      false_iff]
    omega
  | alloc _ hm hs ih =>
    obtain ⟨m₁, hok, -, hr⟩ := ih.alloc hs
    obtain ⟨-, rfl⟩ := Prod.mk.inj (Except.ok.inj (hok.symm.trans hm))
    exact hr
  | dealloc _ hf hroom hm ih =>
    obtain ⟨m₁, hok, -, -, hr⟩ := ih.dealloc hf hroom
    obtain rfl := Except.ok.inj (hok.symm.trans hm)
    exact hr

end Refinement

/-! ## Sessions -/

/-- The frames handed out, and how many of them were dropped on a full stack. -/
structure Ledger where
  held : Finset ℕ
  dropped : ℕ

/-- The ledger after a free. -/
def Ledger.dealloc (l : Ledger) (m : Mem) (ppn : ℕ) : Ledger :=
  if ppn ∈ l.held then
    ⟨l.held.erase ppn, if m.memoryAllocator.recycled.isFull then l.dropped + 1 else l.dropped⟩
  else l

/-- The calls from `StackFrameAllocator_new(start, end)` on, where every free satisfies `P`. -/
inductive Session (P : Mem → Ledger → ℕ → Prop) {start end_ : ℕ} (h : start ≤ end_) :
    Mem → Ledger → Prop where
  | new (ram : ℕ → Fin 512 → Word) (console : List Output) :
    Session P h ⟨ram, stackFrameAllocatorNew start end_ h, console⟩ ⟨∅, 0⟩
  | alloc {m m' : Mem} {l : Ledger} {f : ℕ} (hr : Session P h m l)
    (hm : stackFrameAllocatorAlloc m = .ok (f, m')) : Session P h m' ⟨insert f l.held, l.dropped⟩
  | dealloc {m m' : Mem} {l : Ledger} {ppn : ℕ} (hr : Session P h m l) (hp : P m l ppn)
    (hm : stackFrameAllocatorDealloc m ppn = .ok m') : Session P h m' (l.dealloc m ppn)

section Session

variable {start end_ : ℕ} {m m' : Mem} {l : Ledger} {lost : Multiset ℕ} {f ppn : ℕ}

/-- Every frame is held, free or lost. -/
structure Accounted (start end_ : ℕ) (m : Mem) (l : Ledger) (lost : Multiset ℕ) : Prop where
  total : l.held.val + m.free + lost = (Finset.Ico start end_).val
  card : lost.card = l.dropped
  start_le : start ≤ m.memoryAllocator.current
  end_eq : m.memoryAllocator.end_ = end_

namespace Accounted

variable (h : Accounted start end_ m l lost)

include h

theorem own : Own start m l.held.val := by
  rw [Own, h.end_eq, ← h.total]
  exact Multiset.le_add_right _ _

/-- The frame of an allocation. -/
theorem of_alloc (hm : stackFrameAllocatorAlloc m = .ok (f, m')) :
    f ∈ m.free ∧ f ∉ l.held ∧ Accounted start end_ m' ⟨insert f l.held, l.dropped⟩ lost := by
  obtain ⟨hg, -⟩ := (kalloc_spec m).of_ok hm
  have hf : f ∈ m.free := Own.new_free hg (Multiset.mem_singleton_self f)
  have hh : f ∉ l.held := fun hh => h.own.not_mem_free hh hf
  refine ⟨hf, hh, ?_, h.card, h.start_le.trans (alloc_current_le hm), hg.end_eq.trans h.end_eq⟩
  rw [← h.total, hg.free, Finset.insert_val_of_notMem hh, ← Multiset.singleton_add]
  abel

/-- Giving a held frame back. -/
theorem of_dealloc (hf : ppn ∈ l.held) (hm : stackFrameAllocatorDealloc m ppn = .ok m') :
    ∃ lost', Accounted start end_ m' (l.dealloc m ppn) lost' := by
  have hlt := (h.own.mem_Ico hf).2
  have hr := h.own.not_mem_recycled hf
  have hheld : l.held.val = ppn ::ₘ (l.held.erase ppn).val := by
    rw [Finset.erase_val]
    exact (Multiset.cons_erase hf).symm
  rw [stackFrameAllocatorDealloc, if_neg (by omega), if_neg hr, pushRecycled] at hm
  rw [Ledger.dealloc, if_pos hf]
  split_ifs at hm with hfull
  · obtain rfl := Except.ok.inj hm
    refine ⟨lost, ?_, ?_, h.start_le, h.end_eq⟩
    · have hfree : ∀ M : Multiset ℕ, M + (ppn ::ₘ m.free) = ppn ::ₘ M + m.free := fun M => by
        rw [Multiset.add_cons, Multiset.cons_add]
      have htotal := h.total
      rw [hheld, ← hfree] at htotal
      exact htotal
    · rw [hfull]
      exact h.card
  · obtain rfl := Except.ok.inj hm
    refine ⟨ppn ::ₘ lost, ?_, ?_, h.start_le, h.end_eq⟩
    · rw [Mem.free_printf, ← h.total, hheld, Multiset.add_cons, Multiset.cons_add,
        Multiset.cons_add]
    · rw [Multiset.card_cons, h.card, if_pos (by simpa using hfull)]

/-- A frame of the range that is not held is seen to be free. -/
theorem not_held (hl : lost = 0) (hf : ppn ∉ l.held) (hs : start ≤ ppn) :
    m.memoryAllocator.current ≤ ppn ∨ ppn ∈ m.memoryAllocator.recycled.data := by
  by_cases hend : ppn < end_
  · have hmem : ppn ∈ l.held.val + m.free + lost := by
      rw [h.total]
      exact Finset.mem_Ico.mpr ⟨hs, hend⟩
    rw [hl, add_zero, Multiset.mem_add, Mem.free, Multiset.mem_add, Finset.mem_val, Finset.mem_val,
      Finset.mem_Ico] at hmem
    obtain hh | hr | hI := hmem
    · exact absurd hh hf
    · exact .inr hr
    · exact .inl hI.1
  · have hle := m.memoryAllocator.le
    have he := h.end_eq
    exact .inl (by omega)

end Accounted

/-- A frame that is seen to be free changes nothing. -/
theorem dealloc_of_free (hf : m.memoryAllocator.current ≤ ppn ∨
    ppn ∈ m.memoryAllocator.recycled.data) (hm : stackFrameAllocatorDealloc m ppn = .ok m') :
    m'.free = m.free ∧ m'.memoryAllocator = m.memoryAllocator := by
  rw [stackFrameAllocatorDealloc] at hm
  split_ifs at hm with h₁ h₂
  · obtain rfl := Except.ok.inj hm
    exact ⟨rfl, rfl⟩
  · exact absurd hf (not_or.mpr ⟨h₁, h₂⟩)

/-- Nor does any frame on a full stack. -/
theorem dealloc_of_isFull (hfull : m.memoryAllocator.recycled.isFull = true)
    (hm : stackFrameAllocatorDealloc m ppn = .ok m') : m'.free = m.free := by
  rw [stackFrameAllocatorDealloc, pushRecycled, dif_neg (by rw [hfull]; decide)] at hm
  split_ifs at hm
  · obtain rfl := Except.ok.inj hm
    rfl
  · obtain rfl := Except.ok.inj hm
    rfl

/-- Nothing is dropped while no held frame is given back on a full stack. -/
theorem Session.dropped_eq_zero {P : Mem → Ledger → ℕ → Prop} {h : start ≤ end_}
    (hP : ∀ m l ppn, P m l ppn → ppn ∈ l.held → m.memoryAllocator.recycled.isFull = false)
    (hs : Session P h m l) : l.dropped = 0 := by
  induction hs with
  | new ram console => rfl
  | alloc _ _ ih => exact ih
  | @dealloc m m' l ppn _ hp _ ih =>
    rw [Ledger.dealloc]
    split_ifs with hf hfull
    · rw [hP m l ppn hp hf] at hfull
      cases hfull
    · exact ih
    · exact ih

/-- **Every frame is held, free or was dropped on a full stack**, as long as a free is of a held
frame, or of some frame of the range or above before anything was dropped. -/
theorem Session.accounted {P : Mem → Ledger → ℕ → Prop} {h : start ≤ end_}
    (hP : ∀ m l ppn, Session P h m l → P m l ppn → ppn ∈ l.held ∨ start ≤ ppn ∧ l.dropped = 0)
    (hs : Session P h m l) : ∃ lost, Accounted start end_ m l lost := by
  induction hs with
  | new ram console =>
    refine ⟨0, ?_, rfl, le_rfl, rfl⟩
    change (0 : Multiset ℕ) + (0 + (Finset.Ico start end_).val) + 0 = _
    rw [zero_add, zero_add, add_zero]
  | alloc _ hm ih =>
    obtain ⟨lost, ha⟩ := ih
    exact ⟨lost, (ha.of_alloc hm).2.2⟩
  | @dealloc m m' l ppn hs hp hm ih =>
    obtain ⟨lost, ha⟩ := ih
    by_cases hf : ppn ∈ l.held
    · exact ha.of_dealloc hf hm
    · obtain hh | ⟨hst, hd⟩ := hP m l ppn hs hp
      · exact absurd hh hf
      · have hl : lost = 0 := Multiset.card_eq_zero.mp (ha.card.trans hd)
        obtain ⟨hfree, halloc⟩ := dealloc_of_free (ha.not_held hl hf hst) hm
        rw [Ledger.dealloc, if_neg hf]
        refine ⟨lost, ?_, ha.card, ?_, ?_⟩
        · rw [hfree]
          exact ha.total
        · rw [halloc]
          exact ha.start_le
        · rw [halloc]
          exact ha.end_eq

end Session

/-! ## How many allocations succeed -/

/-- `n` calls of `kalloc`. -/
def kallocs : ℕ → Mem → Except Halt Mem
  | 0, m => .ok m
  | n + 1, m => do
    let (_, m) ← kalloc m
    kallocs n m

/-- **The frames still free are the allocations that succeed.** -/
theorem kallocs_iff {n : ℕ} {m : Mem} :
    (∃ m', kallocs n m = .ok m' ∧ kalloc m' = .error (.panic "memory is full")) ↔
      n = m.free.card := by
  induction n generalizing m with
  | zero =>
    cases hk : kalloc m with
    | error e =>
      obtain ⟨rfl, hc⟩ := (kalloc_spec m).of_error hk
      exact ⟨fun _ => hc.symm, fun _ => ⟨m, rfl, hk⟩⟩
    | ok r =>
      have hc : m.free.card = 1 + r.2.free.card := ((kalloc_spec m).of_ok hk).1.card
      refine ⟨?_, fun h => by omega⟩
      rintro ⟨m', hm', he⟩
      obtain rfl := Except.ok.inj hm'
      cases hk.symm.trans he
  | succ n ih =>
    rw [kallocs]
    cases hk : kalloc m with
    | error e =>
      obtain ⟨-, hc⟩ := (kalloc_spec m).of_error hk
      refine ⟨?_, fun h => by omega⟩
      rintro ⟨m', hm', -⟩
      cases hm'
    | ok r =>
      have hc : m.free.card = 1 + r.2.free.card := ((kalloc_spec m).of_ok hk).1.card
      refine (ih (m := r.2)).trans ?_
      omega

end RiscvOs
