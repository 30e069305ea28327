import RiscvOs.Inv.Partition

/-!
# How much memory is enough

A task never has more frames than a fork or an exec of one of the programs takes. While a program is
loaded by `__sys_exec`, the old one still has its frames.

* `Config.Share`: memory and the recycled stack hold ten tasks and one more image.
* `Roomy`: no frame has been lost, and no task has more than its share.
* **`Moves.roomy`**: a step keeps it so.
* **`Reachable.roomy`**: it holds in every reachable state.
-/

set_option autoImplicit false

namespace RiscvOs

open PageTableEntry

variable {cfg : Config} {k k' : Kernel} {n : ℕ}

/-! ## Shares -/

/-- `n` frames are enough for a task, whatever program it runs, and there is room for the kernel,
ten tasks and one more image, in memory and on the recycled stack. -/
structure Config.Share (cfg : Config) (n : ℕ) : Prop where
  fork : ∀ a ∈ cfg.apps, 6 + 3 * (imageTop a.file / 4096) ≤ n
  exec : ∀ a ∈ cfg.apps, 1 + imageNeed a.file ≤ n
  memory : 167 + 11 * n ≤ frameEnd - cfg.lo
  recycled : 167 + 11 * n ≤ maxSize

namespace Config.Share

variable {a : App}

theorem fork_view (h : cfg.Share n) (hwf : cfg.WellFormed) (ha : a ∈ cfg.apps) (env : Env cfg) :
    6 + 3 * (imageTop (a.view env).file / 4096) ≤ n := by
  rw [(hwf a ha).imageTop_agree fun x hx => App.view_file ha env hx]
  exact h.fork a ha

theorem exec_view (h : cfg.Share n) (hwf : cfg.WellFormed) (ha : a ∈ cfg.apps) (env : Env cfg) :
    1 + imageNeed (a.view env).file ≤ n := by
  rw [(hwf a ha).imageNeed_agree fun x hx => App.view_file ha env hx]
  exact h.exec a ha

end Config.Share

/-! ## How far the allocator has gone -/

section Allocator

variable {m m' : Mem} {X N new : Multiset ℕ}

theorem current_eq_of_total (h : X + m.free = cfg.allFrames)
    (hend : m.memoryAllocator.end_ = frameEnd) :
    m.memoryAllocator.current = cfg.lo + X.card + m.recycled.card := by
  have hc := congrArg Multiset.card h
  have hrec : m.recycled.card = m.memoryAllocator.recycled.data.length := rfl
  have hlo : cfg.lo ≤ frameEnd := cfg.lo_le
  have hle := m.memoryAllocator.le
  rw [Multiset.card_add, Mem.card_free, Config.allFrames, Finset.card_val, Nat.card_Ico, hend] at hc
  omega

/-- Frames are taken beyond the furthest point so far only when there are no recycled ones. -/
theorem Takes.current_le {c : ℕ} (ht : Takes m m') (h : X + m.free = cfg.allFrames)
    (hend : m.memoryAllocator.end_ = frameEnd) (hg : Grows m m' N new)
    (hle : m.memoryAllocator.current ≤ cfg.lo + c) (hc : X.card + new.card ≤ c) :
    m'.memoryAllocator.current ≤ cfg.lo + c := by
  obtain hcur | hz := ht.fresh
  · rw [hcur]
    exact hle
  · have h' : X + new + m'.free = cfg.allFrames := by rw [add_assoc, ← hg.free, h]
    rw [current_eq_of_total h' (hg.end_eq.trans hend), hz, Multiset.card_zero, Multiset.card_add]
    omega

end Allocator

/-! ## The invariant -/

/-- No frame has been lost, no task has more than its share, and the allocator has not gone beyond
what ten tasks and one more image take. -/
structure Roomy (cfg : Config) (n : ℕ) (k : Kernel) : Prop where
  total : k.owned + k.mem.free = cfg.allFrames
  kernel : k.kernelFrames.card ≤ 167
  task : ∀ i, (k.taskFrames i).card ≤ n
  size : ∀ i, (k.tasks i).taskState ≠ .unInit → 6 + 3 * ((k.tasks i).baseSize / 4096) ≤ n
  current : k.mem.memoryAllocator.current ≤ cfg.lo + (167 + 11 * n)

theorem Kernel.card_owned_le (hk : k.kernelFrames.card ≤ 167)
    (ht : ∀ i, (k.taskFrames i).card ≤ n) : k.owned.card ≤ 167 + 10 * n := by
  have hsum : ∑ i, (k.taskFrames i).card ≤ 10 * n := by
    have := Finset.sum_le_card_nsmul Finset.univ (fun i => (k.taskFrames i).card) n fun i _ => ht i
    rwa [Finset.card_univ, Fintype.card_fin, smul_eq_mul] at this
  rw [Kernel.owned_eq_sum, Multiset.card_add, Multiset.card_sum]
  omega

namespace Roomy

theorem card_owned (h : Roomy cfg n k) : k.owned.card ≤ 167 + 10 * n :=
  Kernel.card_owned_le h.kernel h.task

/-- **There is room for one more image.** -/
theorem le_free (h : Roomy cfg n k) (hs : cfg.Share n) : n ≤ k.mem.free.card := by
  have hc := congrArg Multiset.card h.total
  have ho := h.card_owned
  have hm := hs.memory
  rw [Multiset.card_add, Config.allFrames, Finset.card_val, Nat.card_Ico] at hc
  omega

/-- **The recycled stack has room** for all that is owned. -/
theorem recycled_le (h : Roomy cfg n k) (hm : MemInv cfg k) :
    k.mem.recycled.card + k.owned.card ≤ 167 + 11 * n := by
  have hcur := current_eq_of_total h.total hm.end_eq
  have hle := h.current
  omega

theorem level (h : Roomy cfg n k) (hl : Level k k') : Roomy cfg n k' where
  total := by rw [hl.owned, hl.free, h.total]
  kernel := hl.kernel ▸ h.kernel
  task i := hl.task i ▸ h.task i
  size i hi := by
    rw [(hl.same i).baseSize]
    exact h.size i fun hu => hi ((hl.same i).unInit.mpr hu)
  current := by
    rw [hl.allocator]
    exact h.current

/-- A frame is lost only on a full recycled stack, and the allocator has not handed out that
many. -/
theorem total_of_balanced (h : Roomy cfg n k) (hs : cfg.Share n) (hb : Balanced k k')
    (hend : k'.mem.memoryAllocator.end_ = frameEnd)
    (hc : k'.mem.memoryAllocator.current ≤ cfg.lo + (167 + 11 * n)) :
    k'.owned + k'.mem.free = cfg.allFrames := by
  obtain ⟨lost, htotal, hfull⟩ := hb.total
  rw [h.total] at htotal
  have hlost : lost = 0 := by
    by_contra hne
    have hpos := Multiset.card_pos.mpr hne
    have hrec := hfull hne
    have hcur := current_eq_of_total (X := k'.owned + lost) (by rw [add_right_comm, htotal]) hend
    have hmax := hs.recycled
    rw [Multiset.card_add] at hcur
    omega
  rwa [hlost, add_zero] at htotal

/-- A step that changes one task. -/
theorem of_onlyTask {c : Slot} (h : Roomy cfg n k) (hs : cfg.Share n) (hm : MemInv cfg k)
    (ho : OnlyTask cfg k k' c) (hb : Balanced k k')
    (hcur : k'.mem.memoryAllocator.current ≤ cfg.lo + (167 + 11 * n))
    (htask : (k'.taskFrames c).card ≤ n)
    (hsize : (k'.tasks c).taskState ≠ .unInit → 6 + 3 * ((k'.tasks c).baseSize / 4096) ≤ n) :
    Roomy cfg n k' where
  total := h.total_of_balanced hs hb (ho.end_eq.trans hm.end_eq) hcur
  kernel := hb.kernel ▸ h.kernel
  task i := by
    by_cases hic : i = c
    · exact hic ▸ htask
    · rw [ho.taskFrames hm hic]
      exact h.task i
  size i hi := by
    by_cases hic : i = c
    · subst hic
      exact hsize hi
    · rw [(ho.task i hic).baseSize]
      exact h.size i fun hu => hi ((ho.task i hic).unInit.mpr hu)
  current := hcur

/-! ## Steps -/

/-- The child has no more than its parent's pages and its tables. -/
theorem fork {p : Slot} {f root : ℕ} {m : Mem} (h : Roomy cfg n k) (hs : cfg.Share n)
    (hm : MemInv cfg k) (hcur : k.cur.taskState ≠ .unInit) (hf : Forked cfg k p f root m)
    (ht : Takes k.mem m) : Roomy cfg n (afterFork cfg k p f root m) := by
  have hi : ((afterFork cfg k p f root m).tasks p).taskState ≠ .unInit := by
    rw [afterFork_self]
    exact TaskState.noConfusion
  have hsize : 6 + 3 * (k.cur.baseSize / 4096) ≤ n := h.size k.current hcur
  have hcard := hf.card.trans hsize
  refine h.of_onlyTask hs hm (hf.onlyTask hm) (hf.balanced hm) ?_ ?_ fun _ => ?_
  · have ho := h.card_owned
    exact ht.current_le h.total hm.end_eq hf.grows h.current (by omega)
  · rw [Kernel.taskFrames_of_init hi, afterFork_self]
    exact hcard
  · rw [afterFork_self]
    exact hsize

/-- The new image is loaded beside the old one, which is then given back. -/
theorem exec {env : Env cfg} {name root : ℕ} {path : List Byte} {a : App} {N D : Multiset ℕ}
    {m m' : Mem} (h : Roomy cfg n k) (hs : cfg.Share n) (hwf : cfg.WellFormed)
    (hm : MemInv cfg k) (hcur : k.cur.taskState ≠ .unInit)
    (he : Execed cfg env name k path a root N D m m') (ht : Takes k.mem m) :
    Roomy cfg n (afterExec k (a.view env).file root m') := by
  have ha := (Config.mem_of_find he.app).1
  have hneed := hs.exec_view hwf ha env
  have hcard := he.image.card
  obtain ⟨lost, hfrees⟩ := he.frees
  refine h.of_onlyTask hs hm (he.onlyTask hm hcur) (he.balanced hm hcur) ?_ ?_ fun _ => ?_
  · have ho := h.card_owned
    have ht' : Takes { k.mem with console := m.console } m := ⟨ht.recycled, ht.fresh⟩
    have hload := ht'.current_le (c := 167 + 11 * n) h.total hm.end_eq he.image.grows h.current
      (by omega)
    exact hfrees.current_eq.le.trans hload
  · rw [he.frames hm hcur, add_right_comm, Multiset.card_add, Multiset.card_singleton]
    omega
  · rw [afterExec_self]
    exact hs.fork_view hwf ha env

theorem reap {c : Slot} {m : Mem} (h : Roomy cfg n k) (hs : cfg.Share n) (hm : MemInv cfg k)
    (hc : (k.tasks c).taskState ≠ .unInit) (hf : Freed k c m) : Roomy cfg n (afterFree k c m) := by
  have hu : ((afterFree k c m).tasks c).taskState = .unInit := by
    rw [afterFree_self]
    rfl
  obtain ⟨lost, hfrees⟩ := hf.frees
  refine h.of_onlyTask hs hm (hf.onlyTask hm hc) (hf.balanced hm hc) ?_ ?_ fun hi => absurd hu hi
  · exact hfrees.current_eq.le.trans h.current
  · rw [Kernel.taskFrames_of_unInit hu, Multiset.card_zero]
    exact Nat.zero_le n

theorem boot {b : Start cfg} (hwf : cfg.WellFormed) (hs : cfg.Share n)
    (hr : RiscvOs.boot cfg b = .ok (.trapReturn, k)) : Roomy cfg n k := by
  obtain ⟨app, happ, hb⟩ := boot_frames hwf hr
  have htask : ∀ i, (k.taskFrames i).card ≤ n := fun i => by
    by_cases hi : i = 0
    · exact hi ▸ hb.task.trans (hs.exec_view hwf happ b.toEnv)
    · rw [Kernel.taskFrames_of_unInit (hb.unInit i hi), Multiset.card_zero]
      exact Nat.zero_le n
  refine ⟨hb.total, hb.kernel, htask, fun i hi => ?_, ?_⟩
  · obtain rfl : i = 0 := by
      by_contra hne
      exact hi (hb.unInit i hne)
    rw [hb.baseSize]
    exact hs.fork_view hwf happ b.toEnv
  · have hcur := current_eq_of_total hb.total (Inv.boot hwf hr).mem.end_eq
    have ho := Kernel.card_owned_le hb.kernel htask
    rw [boot_recycled hr, Multiset.card_zero] at hcur
    omega

end Roomy

/-- **A step leaves every task its share and loses no frame.** -/
theorem Moves.roomy (hs : cfg.Share n) (hwf : cfg.WellFormed) (h : Roomy cfg n k)
    (hm : Moves cfg k k') : Roomy cfg n k' := by
  cases hm with
  | level hl => exact h.level hl
  | fork hl hm hcur hf ht hb => exact (h.level hl).fork hs hm hcur hf ht
  | exec hl hm hcur he ht hb => exact (h.level hl).exec hs hwf hm hcur he ht
  | reap out hl hm hz hf =>
    have hr := (h.level hl).reap hs hm (zombie_init hz) hf
    exact ⟨hr.total, hr.kernel, hr.task, hr.size, hr.current⟩

/-- **In every reachable state** there is room. -/
theorem Reachable.roomy {mode : Mode} (hs : cfg.Share n) (hwf : cfg.WellFormed)
    (h : Reachable cfg (.running mode k)) : Roomy cfg n k := by
  suffices Inv cfg mode k ∧ Roomy cfg n k from this.2
  refine h.invariant (I := fun mode k => Inv cfg mode k ∧ Roomy cfg n k)
    (fun b k hb => ⟨.boot hwf hb, .boot hwf hs hb⟩) fun e mode k mode' k' hi hst => ?_
  exact ⟨(hst.inv hwf hi.1).1, (hst.moves hwf hi.1).roomy hs hwf hi.2⟩

/-! ## The small system -/

theorem tiny_share : tiny.Share 18 where
  fork a ha := by
    obtain rfl := List.mem_singleton.mp ha
    have hagree := tinyApp_wf.imageTop_agree fun x hx =>
      App.view_file tinyApp_mem (tinyEnv (-1) 0) hx
    rw [← hagree, tiny_imageTop]
  exec a ha := by
    obtain rfl := List.mem_singleton.mp ha
    have hagree := tinyApp_wf.imageNeed_agree fun x hx =>
      App.view_file tinyApp_mem (tinyEnv (-1) 0) hx
    rw [← hagree, tiny_imageNeed]
    decide
  memory := by decide
  recycled := by decide

end RiscvOs
