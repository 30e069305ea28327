import RiscvOs.Inv.Capacity
import RiscvOs.Props.Halting

/-!
# The frames of the machine

Where memory and the recycled stack are large enough for ten tasks and one more image, the allocator
serves every request, and a frame that is given back can be taken again.

* **`frames_partitioned`**: every frame is the kernel's, a task's or free, and no task has more than
  its share.
* **`memory_suffices`**: the kernel never stops with `memory is full`.
-/

set_option autoImplicit false

namespace RiscvOs

variable {cfg : Config} {mode : Mode} {k : Kernel} {n : ℕ} {e : Halt}

/-- **Every frame is the kernel's, a task's or free**, in every reachable state, and no task has
more than its share. -/
theorem frames_partitioned (hwf : cfg.WellFormed) (hs : cfg.Share n)
    (hreach : Reachable cfg (.running mode k)) :
    k.owned + k.mem.free = cfg.allFrames ∧ ∀ i, (k.taskFrames i).card ≤ n :=
  have hr := hreach.roomy hs hwf
  ⟨hr.total, hr.task⟩

/-- A parent, a child and a zombie. -/
theorem frames_partitioned_zombie : ∃ k : Kernel, Reachable tiny (.running .user k) ∧
    (k.tasks 0).taskState = .running ∧ (k.tasks 1).taskState = .zombie ∧
    (k.tasks 2).taskState = .ready ∧
    k.owned + k.mem.free = tiny.allFrames ∧ ∀ i, (k.taskFrames i).card ≤ 18 := by
  obtain ⟨es, k, hrun, -, hs⟩ := tiny_history 0
    (show [Op.fork, .fork, .yield, .exit].length ≤ 1000 by decide) (by decide +kernel)
  have hstate : ∀ i, (k.tasks i).taskState =
      ((applyAll [.fork, .fork, .yield, .exit] initSched).procs i).taskState := fun i =>
    congrArg (fun s : Sched => (s.procs i).taskState) hs
  have hreach : Reachable tiny (.running .user k) := ⟨_, es, hrun⟩
  exact ⟨k, hreach, (hstate 0).trans (by decide +kernel), (hstate 1).trans (by decide +kernel),
    (hstate 2).trans (by decide +kernel), frames_partitioned tiny_wf tiny_share hreach⟩

/-! ## Out of memory -/

/-- A stack that is part of a share is far below the trap context. -/
theorem Config.Share.stacksFit (h : cfg.Share n) : cfg.StacksFit := fun a ha => by
  have hf := h.fork a ha
  have hr := h.recycled
  have hmax : maxSize < trapframeVpn := by decide
  rw [imageTop, Nat.mul_div_cancel _ (by decide)] at hf
  omega

/-- There is a share left for a fork and for an exec. -/
theorem Roomy.not_callStops {env : Env cfg} {arg1 arg2 : Word} {call : SyscallId}
    (h : Roomy cfg n k) (hwf : cfg.WellFormed) (hs : cfg.Share n)
    (hcur : k.cur.taskState ≠ .unInit) (hst : CallStops env k arg1 arg2 call e) :
    e ≠ .panic "memory is full" := by
  have hfree := h.le_free hs
  cases hst with
  | fork hlt =>
    have hsize : 6 + 3 * (k.cur.baseSize / 4096) ≤ n := h.size k.current hcur
    exact absurd hlt (by omega)
  | memory path a hn ha hlt =>
    have hneed := hs.exec_view hwf (Config.mem_of_find ha).1 env
    exact absurd hlt (by omega)
  | elf path a hn ha hc => exact (elfCheck_error hc).2
  | stack path a hn ha hst =>
    exact absurd (hs.stacksFit.view hwf (Config.mem_of_find ha).1 env) (by omega)
  | _ => decide

theorem Roomy.not_stops {ev : Event cfg} (h : Roomy cfg n k) (hwf : cfg.WellFormed)
    (hs : cfg.Share n) (hinv : Inv cfg mode k) (hst : Stops mode k ev e) :
    e ≠ .panic "memory is full" := by
  cases hst with
  | call hbit hcode henter hid hc =>
    exact (h.level (hinv.call_level henter)).not_callStops hwf hs
      (live_init (hinv.enter henter).live) hc
  | _ => decide

/-- **The kernel never runs out of memory.** -/
theorem memory_suffices (hwf : cfg.WellFormed) (hs : cfg.Share n)
    (h : Reachable cfg (.halted e)) : e ≠ .panic "memory is full" := by
  obtain ⟨b, es, hrun⟩ := h
  obtain hstart | ⟨es₁, ev, es₂, mode, k, -, hrun₁, hstep⟩ := halted_of_run hrun
  · intro he
    have hm := hs.memory
    obtain hlt | ⟨app, happ, hlt⟩ := (start_expected hwf hs.stacksFit hstart).2.2 he
    · omega
    · have hneed := hs.exec_view hwf happ b.toEnv
      omega
  · have hreach : Reachable cfg (.running mode k) := ⟨b, es₁, hrun₁⟩
    have hinv := hreach.inv hwf
    exact (hreach.roomy hs hwf).not_stops hwf hs hinv (hinv.stops hwf hstep)

/-- The small system has stopped, for another reason. -/
theorem memory_suffices_exception : ∃ e, Reachable tiny (.halted e) ∧
    e ≠ .panic "memory is full" := by
  obtain ⟨k, hreach, hstep⟩ := tiny_exception
  have hhalt := hreach.step (.trap 2 (tinyEnv (-1) 0))
  rw [hstep] at hhalt
  exact ⟨_, hhalt, memory_suffices tiny_wf tiny_share hhalt⟩

end RiscvOs
