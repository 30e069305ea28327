import RiscvOs.Base.Outcome
import RiscvOs.Mem.Address

/-!
# The frame allocator

Physical memory is a map from page numbers to frames of 512 words. `kalloc` hands out the most
recently recycled frame, else the lowest never-used one, zeroed; `kfree` pushes a frame on the
recycled stack. The stack holds at most `maxSize` frames: a frame freed on a full stack is dropped
with a message.

`Mem.free` is the multiset of frames the allocator can still hand out. The other modules see the
allocator only through

* `Own lo m X`: the frames `X` are handed out (distinct, and apart from the free ones);
* `Grows m m' N new`: `new` was taken from the free frames, only `N` and `new` were written;
* `Frees m m' N freed dropped`: `freed` was given back, only `N` was written.
-/

set_option autoImplicit false

namespace RiscvOs

/-- Why the kernel stops for good. -/
inductive Halt where
  /-- `panic(msg)`: prints and spins. -/
  | panic (msg : String)
  /-- A failed `assert(exp)`: prints and spins. -/
  | assertion (exp : String)
  /-- `_vprintf` on a rendering longer than its buffer: spins. -/
  | overflow
  /-- A kernel access that traps: `trap_from_kernel` panics. -/
  | fault
  /-- Control leaves the code of the kernel. -/
  | wild
  deriving DecidableEq, Repr

/-- An argument of `printf`. -/
inductive PrintfArg where
  | num (v : ℕ)
  | str (bytes : List Byte)
  deriving DecidableEq

/-- What the kernel sends to the console. -/
inductive Output where
  | printf (fmt : String) (args : List PrintfArg)
  | uart (bytes : List Byte)
  deriving DecidableEq

/-- `MAX_SIZE` of `stack.h`. -/
def maxSize : ℕ := 10000

/-- `Stack`: the entries, the top one first. -/
structure Stack where
  data : List ℕ
  bound : data.length ≤ maxSize

/-- `initStack`. -/
def Stack.init : Stack := ⟨[], Nat.zero_le _⟩

def Stack.isFull (s : Stack) : Bool := s.data.length == maxSize

/-- `push` on a stack that is not full. -/
def Stack.push (s : Stack) (v : ℕ) (h : s.isFull = false) : Stack :=
  ⟨v :: s.data, by
    have h₁ : s.data.length ≠ maxSize := by simpa [isFull] using h
    have h₂ := s.bound
    rw [List.length_cons]; omega⟩

/-- `StackFrameAllocator`: the never-used frames are `[current, end)`. -/
structure StackFrameAllocator where
  current : ℕ
  end_ : ℕ
  recycled : Stack
  le : current ≤ end_

/-- Physical memory, the allocator and the console. -/
structure Mem where
  ram : ℕ → Fin 512 → Word
  memoryAllocator : StackFrameAllocator
  console : List Output

namespace Mem

/-- `printf`, on a message that fits the buffer. -/
def printf (m : Mem) (fmt : String) (args : List PrintfArg) : Mem :=
  { m with console := .printf fmt args :: m.console }

/-- `memset(frame, 0, PAGE_SIZE)`. -/
def zeroFrame (m : Mem) (ppn : ℕ) : Mem :=
  { m with ram := Function.update m.ram ppn fun _ => 0 }

/-- Store one word of a frame. -/
def store (m : Mem) (ppn : ℕ) (i : Fin 512) (w : Word) : Mem :=
  { m with ram := Function.update m.ram ppn (Function.update (m.ram ppn) i w) }

/-- Overwrite a whole frame: `memcpy` of `PAGE_SIZE` bytes. -/
def storeFrame (m : Mem) (ppn : ℕ) (c : Fin 512 → Word) : Mem :=
  { m with ram := Function.update m.ram ppn c }

end Mem

/-- `StackFrameAllocator_new`. -/
def stackFrameAllocatorNew (start end_ : ℕ) (h : start ≤ end_) : StackFrameAllocator where
  current := start
  end_ := end_
  recycled := .init
  le := h

/-- `StackFrameAllocator_alloc`. -/
def stackFrameAllocatorAlloc (m : Mem) : Except Halt (ℕ × Mem) :=
  match h : m.memoryAllocator.recycled.data with
  | ppn :: rest =>
    let recycled : Stack := ⟨rest, by
      have := m.memoryAllocator.recycled.bound
      rw [h, List.length_cons] at this; omega⟩
    .ok (ppn, { m with memoryAllocator.recycled := recycled }.zeroFrame ppn)
  | [] =>
    if he : m.memoryAllocator.current = m.memoryAllocator.end_ then
      .error (.panic "memory is full")
    else
      let a : StackFrameAllocator :=
        { m.memoryAllocator with
          current := m.memoryAllocator.current + 1
          le := Nat.succ_le_of_lt (lt_of_le_of_ne m.memoryAllocator.le he) }
      .ok (m.memoryAllocator.current,
        { m with memoryAllocator := a }.zeroFrame m.memoryAllocator.current)

/-- `push(&allocator->recycled, ppn)`: a full stack keeps what it has and says so. -/
def pushRecycled (m : Mem) (ppn : ℕ) : Mem :=
  if h : m.memoryAllocator.recycled.isFull = false then
    { m with memoryAllocator.recycled := m.memoryAllocator.recycled.push ppn h }
  else
    m.printf "Stack overflow\n" []

/-- `StackFrameAllocator_dealloc`. -/
def stackFrameAllocatorDealloc (m : Mem) (ppn : ℕ) : Except Halt Mem :=
  if m.memoryAllocator.current ≤ ppn then
    .ok (m.printf "Frame ppn=%lx has not been allocated!\n" [.num ppn])
  else if ppn ∈ m.memoryAllocator.recycled.data then
    .error (.panic "this page has not been alloced")
  else
    .ok (pushRecycled m ppn)

def kalloc (m : Mem) : Except Halt (ℕ × Mem) := stackFrameAllocatorAlloc m

def kfree (m : Mem) (ppn : ℕ) : Except Halt Mem := stackFrameAllocatorDealloc m ppn

/-! ## The frames the allocator can hand out -/

namespace Mem

variable {m m' m₁ m₂ : Mem}

/-- The recycled frames. -/
def recycled (m : Mem) : Multiset ℕ := m.memoryAllocator.recycled.data

/-- The recycled frames and the never-used ones. -/
def free (m : Mem) : Multiset ℕ :=
  m.recycled + (Finset.Ico m.memoryAllocator.current m.memoryAllocator.end_).val

/-- The number of frames dropped on a full stack so far. -/
def lost (m : Mem) : ℕ := m.console.count (.printf "Stack overflow\n" [])

@[simp] theorem storeFrame_self (p : ℕ) (c : Fin 512 → Word) : (m.storeFrame p c).ram p = c :=
  Function.update_self _ _ _

theorem storeFrame_of_ne {p q : ℕ} (h : q ≠ p) (c : Fin 512 → Word) :
    (m.storeFrame p c).ram q = m.ram q := Function.update_of_ne h _ _

theorem store_of_ne {p q : ℕ} (h : q ≠ p) (i : Fin 512) (w : Word) :
    (m.store p i w).ram q = m.ram q := Function.update_of_ne h _ _

@[simp] theorem store_self (p : ℕ) (i : Fin 512) (w : Word) : (m.store p i w).ram p i = w := by
  simp only [store, Function.update_self]

theorem store_self_of_ne {p : ℕ} {i j : Fin 512} (h : j ≠ i) (w : Word) :
    (m.store p i w).ram p j = m.ram p j := by
  simp only [store, Function.update_self, Function.update_of_ne h]

@[simp] theorem free_printf (fmt : String) (args : List PrintfArg) :
    (m.printf fmt args).free = m.free := rfl

@[simp] theorem free_store (p : ℕ) (i : Fin 512) (w : Word) : (m.store p i w).free = m.free := rfl

@[simp] theorem free_storeFrame (p : ℕ) (c : Fin 512 → Word) :
    (m.storeFrame p c).free = m.free := rfl

theorem card_free (m : Mem) : m.free.card = m.memoryAllocator.recycled.data.length +
    (m.memoryAllocator.end_ - m.memoryAllocator.current) := by
  simp [free, recycled]

end Mem

/-- `new` was taken from the free frames, and nothing given back; only the frames `N` and `new` were
written. -/
structure Grows (m m' : Mem) (N new : Multiset ℕ) : Prop where
  free : m.free = new + m'.free
  recycled : m'.recycled ≤ m.recycled
  frame : ∀ f, f ∉ N → f ∉ new → m'.ram f = m.ram f
  end_eq : m'.memoryAllocator.end_ = m.memoryAllocator.end_
  console : m'.console = m.console

/-- `freed` was given back, all of it except `dropped`; only the frames `N` were written. -/
structure Frees (m m' : Mem) (N freed dropped : Multiset ℕ) : Prop where
  free : m'.recycled + dropped = m.recycled + freed
  frame : ∀ f, f ∉ N → m'.ram f = m.ram f
  current_eq : m'.memoryAllocator.current = m.memoryAllocator.current
  end_eq : m'.memoryAllocator.end_ = m.memoryAllocator.end_
  lost : m'.lost = m.lost + dropped.card
  exact : m.recycled.card + freed.card ≤ maxSize → dropped = 0 ∧ m'.console = m.console
  full : dropped ≠ 0 → m'.recycled.card = maxSize

/-- The frames `X` are handed out: distinct, apart from the free ones, and in `[lo, end)`. -/
def Own (lo : ℕ) (m : Mem) (X : Multiset ℕ) : Prop :=
  X + m.free ≤ (Finset.Ico lo m.memoryAllocator.end_).val

namespace Own

variable {lo : ℕ} {m m' : Mem} {X Y N new freed dropped : Multiset ℕ}

theorem mono (h : Own lo m X) (hY : Y ≤ X) : Own lo m Y :=
  (add_le_add_left hY _).trans h

theorem nodup_add (h : Own lo m X) : (X + m.free).Nodup :=
  Multiset.nodup_of_le h (Finset.nodup _)

theorem nodup (h : Own lo m X) : X.Nodup := (Multiset.nodup_add.mp h.nodup_add).1

theorem not_mem_free (h : Own lo m X) {f : ℕ} (hf : f ∈ X) : f ∉ m.free :=
  Multiset.disjoint_left.mp (Multiset.nodup_add.mp h.nodup_add).2.2 hf

theorem not_mem_right (h : Own lo m (X + Y)) {f : ℕ} (hf : f ∈ X) : f ∉ Y :=
  Multiset.disjoint_left.mp (Multiset.nodup_add.mp h.nodup).2.2 hf

theorem mem_Ico (h : Own lo m X) {f : ℕ} (hf : f ∈ X) :
    lo ≤ f ∧ f < m.memoryAllocator.current := by
  have h₁ : f ∈ Finset.Ico lo m.memoryAllocator.end_ :=
    Multiset.mem_of_le h (Multiset.mem_add.mpr (.inl hf))
  have h₂ := h.not_mem_free hf
  rw [Mem.free, Multiset.mem_add, not_or, Finset.mem_val, Finset.mem_Ico] at h₂
  rw [Finset.mem_Ico] at h₁
  omega

theorem not_mem_recycled (h : Own lo m X) {f : ℕ} (hf : f ∈ X) :
    f ∉ m.memoryAllocator.recycled.data := fun hr =>
  h.not_mem_free hf (Multiset.mem_add.mpr (.inl (Multiset.mem_coe.mpr hr)))

theorem grows (h : Own lo m X) (hg : Grows m m' N new) : Own lo m' (X + new) := by
  rw [Own, hg.end_eq, add_assoc, ← hg.free]
  exact h

theorem new_free (hg : Grows m m' N new) {f : ℕ} (hf : f ∈ new) : f ∈ m.free := by
  rw [hg.free]
  exact Multiset.mem_add.mpr (.inl hf)

theorem frees (h : Own lo m (X + freed)) (hf : Frees m m' N freed dropped) : Own lo m' X := by
  rw [Own, hf.end_eq]
  refine le_trans ?_ h
  rw [add_assoc]
  refine add_le_add_right ?_ X
  rw [Mem.free, Mem.free, hf.current_eq, hf.end_eq, ← add_assoc, add_comm freed, ← hf.free]
  exact add_le_add_left (Multiset.le_add_right _ _) _

end Own

namespace Grows

variable {m m₁ m₂ : Mem} {N N' n₁ n₂ : Multiset ℕ}

theorem refl (m : Mem) (N : Multiset ℕ) : Grows m m N 0 :=
  ⟨(zero_add _).symm, le_rfl, fun _ _ _ => rfl, rfl, rfl⟩

theorem trans (h₁ : Grows m m₁ N n₁) (h₂ : Grows m₁ m₂ (N + n₁) n₂) : Grows m m₂ N (n₁ + n₂) where
  free := by rw [h₁.free, h₂.free, add_assoc]
  recycled := h₂.recycled.trans h₁.recycled
  frame f hN hn := by
    rw [Multiset.mem_add, not_or] at hn
    rw [h₂.frame f (by rw [Multiset.mem_add, not_or]; exact ⟨hN, hn.1⟩) hn.2, h₁.frame f hN hn.1]
  end_eq := h₂.end_eq.trans h₁.end_eq
  console := h₂.console.trans h₁.console

theorem mono (h : Grows m m₁ N n₁) (hN : N ≤ N') : Grows m m₁ N' n₁ :=
  { h with frame := fun f hf => h.frame f fun hm => hf (Multiset.mem_of_le hN hm) }

/-- Filling a new frame. -/
theorem storeFrame (h : Grows m m₁ N n₁) {f : ℕ} (hf : f ∈ n₁) (c : Fin 512 → Word) :
    Grows m (m₁.storeFrame f c) N n₁ :=
  { h with
    frame := fun g hN hg =>
      (Function.update_of_ne (fun he : g = f => hg (he ▸ hf)) _ _).trans (h.frame g hN hg) }

theorem card (h : Grows m m₁ N n₁) : m.free.card = n₁.card + m₁.free.card := by
  rw [h.free, Multiset.card_add]

end Grows

namespace Frees

variable {m m₁ m₂ : Mem} {N N' f₁ f₂ d₁ d₂ : Multiset ℕ}

theorem refl (m : Mem) (N : Multiset ℕ) : Frees m m N 0 0 :=
  ⟨rfl, fun _ _ => rfl, rfl, rfl, rfl, fun _ => ⟨rfl, rfl⟩, fun h => absurd rfl h⟩

theorem recycled_card (h : Frees m m₁ N f₁ d₁) :
    m₁.recycled.card + d₁.card = m.recycled.card + f₁.card := by
  have := congrArg Multiset.card h.free
  simpa using this

theorem trans (h₁ : Frees m m₁ N f₁ d₁) (h₂ : Frees m₁ m₂ N f₂ d₂) :
    Frees m m₂ N (f₁ + f₂) (d₁ + d₂) where
  free := by
    rw [add_comm d₁, ← add_assoc, h₂.free, add_right_comm, h₁.free, add_assoc]
  frame f hf := (h₂.frame f hf).trans (h₁.frame f hf)
  current_eq := h₂.current_eq.trans h₁.current_eq
  end_eq := h₂.end_eq.trans h₁.end_eq
  lost := by rw [h₂.lost, h₁.lost, Multiset.card_add, add_assoc]
  exact hc := by
    rw [Multiset.card_add] at hc
    obtain ⟨rfl, hc₁⟩ := h₁.exact (by omega)
    have := h₁.recycled_card
    rw [Multiset.card_zero] at this
    obtain ⟨rfl, hc₂⟩ := h₂.exact (by omega)
    exact ⟨rfl, hc₂.trans hc₁⟩
  full hne := by
    by_cases hd : d₂ = 0
    · -- full before, and nothing more was dropped
      subst hd
      have hfull := h₁.full (by rwa [add_zero] at hne)
      have hcard := h₂.recycled_card
      have hle : m₂.recycled.card ≤ maxSize := m₂.memoryAllocator.recycled.bound
      rw [Multiset.card_zero] at hcard
      omega
    · exact h₂.full hd

theorem mono (h : Frees m m₁ N f₁ d₁) (hN : N ≤ N') : Frees m m₁ N' f₁ d₁ :=
  { h with frame := fun f hf => h.frame f fun hm => hf (Multiset.mem_of_le hN hm) }

end Frees

/-! ## What the two operations do -/

/-- **Allocation.** -/
theorem kalloc_spec (m : Mem) : Outcome (kalloc m)
    (fun r => Grows m r.2 0 {r.1} ∧ r.2.ram r.1 = fun _ => 0)
    (fun e => e = .panic "memory is full" ∧ m.free.card = 0) := by
  rw [kalloc, stackFrameAllocatorAlloc]
  split
  · rename_i ppn rest h
    refine ⟨⟨?_, ?_, fun f _ hf => ?_, rfl, rfl⟩, ?_⟩
    · simp only [Mem.free, Mem.recycled, Mem.zeroFrame, h]
      rw [← Multiset.cons_coe, Multiset.cons_add, Multiset.singleton_add]
    · simp only [Mem.recycled, Mem.zeroFrame, h]
      exact Multiset.le_cons_self _ _
    · exact Function.update_of_ne (by simpa using hf) _ _
    · exact Function.update_self _ _ _
  · rename_i h
    have hle := m.memoryAllocator.le
    split_ifs with he
    · refine ⟨rfl, ?_⟩
      rw [Mem.card_free, h, he, List.length_nil, Nat.sub_self]
    · refine ⟨⟨?_, le_rfl, fun f _ hf => ?_, rfl, rfl⟩, ?_⟩
      · have hI := Finset.insert_Ico_add_one_left_eq_Ico (lt_of_le_of_ne hle he)
        simp only [Mem.free, Mem.recycled, Mem.zeroFrame, h, Multiset.coe_nil, zero_add]
        rw [← hI, Finset.insert_val_of_notMem (by simp), Multiset.singleton_add]
      · exact Function.update_of_ne (by simpa using hf) _ _
      · exact Function.update_self _ _ _

/-- **Deallocation** of a frame that is handed out. -/
theorem kfree_spec {lo : ℕ} {m : Mem} {ppn : ℕ} (h : Own lo m {ppn}) :
    Outcome (kfree m ppn) (fun m' => m'.ram = m.ram ∧ ∃ d, Frees m m' 0 {ppn} d)
      fun _ => False := by
  have hI := h.mem_Ico (Multiset.mem_singleton_self ppn)
  have hr := h.not_mem_recycled (Multiset.mem_singleton_self ppn)
  rw [kfree, stackFrameAllocatorDealloc, if_neg (by omega), if_neg hr, pushRecycled]
  split_ifs with hfull
  · refine ⟨rfl, 0, ?_, fun _ _ => rfl, rfl, rfl, rfl, fun _ => ⟨rfl, rfl⟩, fun h => absurd rfl h⟩
    rw [add_zero, add_comm, Multiset.singleton_add]
    rfl
  · have hmax : m.recycled.card = maxSize := by simpa [Stack.isFull, Mem.recycled] using hfull
    refine ⟨rfl, {ppn}, rfl, fun _ _ => rfl, rfl, rfl, ?_, fun hc => ?_, fun _ => hmax⟩
    · rw [Mem.lost, Mem.printf, List.count_cons_self, Multiset.card_singleton]
      rfl
    · -- a full stack has no room for the frame
      rw [Multiset.card_singleton] at hc
      omega

end RiscvOs
