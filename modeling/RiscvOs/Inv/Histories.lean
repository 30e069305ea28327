import RiscvOs.Inv.Progress

/-!
# Histories that happen

The abstract scheduler is not only an upper bound: with enough frames, the kernel can be made to run
through any sequence of enabled yields, forks and exits, by timer interrupts and system calls.

* `Health.start`: what `os_main` needs to reach the first program.
* **`Health.history`**: every such sequence is a run.
* `Obeys`: what the steps of such a run do.
* `tiny`: a system with one program of two pages, on which the runs of the development take place.
-/

set_option autoImplicit false

namespace RiscvOs

variable {cfg : Config} {k : Kernel}

/-! ## One operation -/

/-- Registers for a system call; `a0` is no file descriptor of the console. -/
def callRegs (id : Word) : Fin 32 → Word := fun r => if r = 17 then id else 1

theorem callRegs_clean (id pc : Word) (env : Env cfg) :
    CleanStep (.trap ecallCause env) .user
      { k with cpu := { k.cpu with x := callRegs id, pc := pc } } := by
  intro d hd
  rw [storePointer, if_pos (by decide)] at hd
  cases hd

/-- Registers for a `getchar` into `p`. -/
def getcharRegs (p : Word) : Fin 32 → Word :=
  fun r => if r = 17 then 5 else if r = 11 then p else stdin

/-- How the running program brings an operation about. -/
def opEvents (env : Env cfg) : Op → List (Event cfg)
  | .yield => [.trap timerCause env, .resume env]
  | .fork => [.compute (callRegs 6) 0, .trap ecallCause env, .resume env]
  | .exit => [.compute (callRegs 8) 0, .trap ecallCause env, .resume env]
  | .skip | .reap _ => []

/-- A history: enabled yields, forks and exits. -/
def Playable : List Op → Sched → Prop
  | [], _ => True
  | op :: ops, s => op.Enabled s ∧ (∀ c, op ≠ .reap c) ∧ Playable ops (op.apply s)

instance (op : Op) (s : Sched) : Decidable (op.Enabled s) := by
  cases op <;> unfold Op.Enabled <;> infer_instance

instance (op : Op) (s : Sched) : Decidable (op.Stacked s) := by
  cases op <;> unfold Op.Stacked <;> infer_instance

instance decidablePlayable : (ops : List Op) → (s : Sched) → Decidable (Playable ops s)
  | [], _ => isTrue trivial
  | op :: ops, s =>
    have := decidablePlayable ops (op.apply s)
    inferInstanceAs (Decidable (_ ∧ _ ∧ _))

/-- The processes after a history. -/
def applyAll (ops : List Op) (s : Sched) : Sched := ops.foldl (fun s op => op.apply s) s

/-- Every operation of a history meets a condition. -/
def Heeds (P : Op → Sched → Prop) : List Op → Sched → Prop
  | [], _ => True
  | op :: ops, s => P op s ∧ Heeds P ops (op.apply s)

instance decidableHeeds (P : Op → Sched → Prop) [∀ op s, Decidable (P op s)] :
    (ops : List Op) → (s : Sched) → Decidable (Heeds P ops s)
  | [], _ => isTrue trivial
  | op :: ops, s =>
    have := decidableHeeds P ops (op.apply s)
    inferInstanceAs (Decidable (_ ∧ _))

/-- What every step of a run does to the processes meets a condition, and no step stores into a
trap context. -/
def Obeys (P : Op → Sched → Prop) (es : List (Event cfg)) (s : Sys) : Prop :=
  Along (fun e mode k => P (stepOp cfg e (.running mode k)) k.sched ∧ CleanStep e mode k) es s

namespace Health

variable {n s : ℕ}

/-- Back in user mode after a step into the kernel. -/
theorem step_resume (hwf : cfg.WellFormed) {P : Op → Sched → Prop} (hskip : ∀ s, P .skip s)
    {k₁ : Kernel} {κ : Kont} {scause : Word} (env : Env cfg)
    (hstep : step cfg (.trap scause env) (.running .user k) = .running (.kernel κ) k₁)
    (h : Health cfg (.kernel κ) k₁ n s)
    (hP : P (stepOp cfg (.trap scause env) (.running .user k)) k.sched)
    (hclean : CleanStep (.trap scause env) .user k) :
    ∃ k', run cfg [.trap scause env, .resume env] (.running .user k) = .running .user k' ∧
      Health cfg .user k' n s ∧ k'.sched = k₁.sched ∧
      Obeys P [.trap scause env, .resume env] (.running .user k) := by
  obtain ⟨k', hr, h', hs⟩ := h.resume hwf env
  obtain ⟨hclean', hop⟩ := h.calm env
  refine ⟨k', by rw [run_cons, hstep, run_cons, hr, run_nil], h', hs, .cons ⟨hP, hclean⟩ ?_⟩
  rw [hstep]
  exact .cons ⟨hop ▸ hskip _, hclean'⟩ trivial

/-- **An operation**, by the running program. -/
theorem op (hwf : cfg.WellFormed) (env : Env cfg) {op : Op}
    (h : Health cfg .user k (n + (6 + 3 * s)) s) (hop : op.Enabled k.sched)
    (hreap : ∀ c, op ≠ .reap c) {P : Op → Sched → Prop} (hskip : ∀ s, P .skip s)
    (hP : P op k.sched) :
    ∃ k', run cfg (opEvents env op) (.running .user k) = .running .user k' ∧
      Health cfg .user k' n s ∧ k'.sched = op.apply k.sched ∧
      Obeys P (opEvents env op) (.running .user k) := by
  have hcompute : ∀ x pc, CleanStep (.compute x pc : Event cfg) .user k := fun _ _ =>
    cleanStep_of_none rfl
  cases op with
  | skip => exact ⟨k, rfl, h.mono (Nat.le_add_right _ _), rfl, trivial⟩
  | yield =>
    obtain ⟨κ, k₁, hstep, h₁, hs, hop⟩ := h.timer hwf env
    obtain ⟨k', hr, h', hs', hobeys⟩ := step_resume hwf hskip env hstep h₁ (hop ▸ hP)
      (cleanStep_of_none rfl)
    exact ⟨k', hr, h'.mono (Nat.le_add_right _ _), hs'.trans hs, hobeys⟩
  | fork =>
    obtain ⟨κ, k₁, hstep, h₁, hs, hop⟩ := (h.compute hwf (callRegs 6) 0).fork env hwf rfl
      (callRegs_clean _ _ _) le_rfl
    obtain ⟨k', hr, h', hs', hobeys⟩ := step_resume hwf hskip env hstep h₁ (hop ▸ hP)
      (callRegs_clean _ _ _)
    exact ⟨k', hr, h', hs'.trans hs, .cons ⟨hskip _, hcompute _ _⟩ hobeys⟩
  | exit =>
    obtain ⟨κ, k₁, hstep, h₁, hs, hop'⟩ := (h.compute hwf (callRegs 8) 0).exit env hwf rfl
      (callRegs_clean _ _ _) hop.1 hop.2
    obtain ⟨k', hr, h', hs', hobeys⟩ := step_resume hwf hskip env hstep h₁ (hop' ▸ hP)
      (callRegs_clean _ _ _)
    exact ⟨k', hr, h'.mono (Nat.le_add_right _ _), hs'.trans hs,
      .cons ⟨hskip _, hcompute _ _⟩ hobeys⟩
  | reap c => exact absurd rfl (hreap c)

/-- **Every history** of enabled yields, forks and exits is a run. -/
theorem history (hwf : cfg.WellFormed) (env : Env cfg) (ops : List Op)
    (h : Health cfg .user k (n + ops.length * (6 + 3 * s)) s) (hops : Playable ops k.sched)
    {P : Op → Sched → Prop} (hskip : ∀ s, P .skip s) (hP : Heeds P ops k.sched) :
    ∃ k', run cfg (ops.flatMap (opEvents env)) (.running .user k) = .running .user k' ∧
      Health cfg .user k' n s ∧ k'.sched = applyAll ops k.sched ∧
      Obeys P (ops.flatMap (opEvents env)) (.running .user k) := by
  induction ops generalizing k with
  | nil => exact ⟨k, rfl, h.mono (Nat.le_add_right _ _), rfl, trivial⟩
  | cons op ops ih =>
    obtain ⟨hop, hreap, hops⟩ := hops
    rw [List.length_cons, Nat.succ_mul, ← Nat.add_assoc] at h
    obtain ⟨k₁, hr, h₁, hs, ho⟩ := h.op hwf env hop hreap hskip hP.1
    obtain ⟨k', hr', h', hs', ho'⟩ := ih h₁ (hs ▸ hops) (hs ▸ hP.2)
    refine ⟨k', ?_, h', ?_, along_append.mpr ⟨ho, by rw [hr]; exact ho'⟩⟩
    · rw [List.flatMap_cons, run_append, hr, hr']
    · rw [hs', hs]
      rfl

end Health

/-! ## From boot -/

/-- The processes after `os_main`. -/
def initSched : Sched :=
  ⟨Function.update (fun _ => ⟨.unInit, 0, none⟩) 0 ⟨.running, 0, none⟩, 0, 1, 1⟩

/-- `os_main` has what it needs for its first program, and `n` frames are left. -/
structure Bootable (cfg : Config) (b : Start cfg) (app : App) (n : ℕ) : Prop where
  wf : cfg.WellFormed
  head : cfg.apps.head? = some app
  names : cfg.apps.length ≤ maxTaskNum
  elf : elfCheck (app.view b.toEnv).file = .ok ()
  readable : (app.view b.toEnv).Readable
  stack : stackPage (app.view b.toEnv).file < trapframeVpn
  memory : 168 + imageNeed (app.view b.toEnv).file + n ≤ frameEnd - cfg.lo

section Boot

variable {b : Start cfg} {app : App} {n : ℕ}

/-- **`os_main` reaches its first program.** -/
theorem Health.start (hb : Bootable cfg b app n) :
    ∃ k, RiscvOs.start cfg b = .running (.kernel .trapReturn) k ∧
      Health cfg (.kernel .trapReturn) k n (imageTop (app.view b.toEnv).file / 4096) ∧
      k.sched = initSched ∧
      ∀ v < trapframeVpn, k.pages 0 v = imagePages (app.view b.toEnv).file v := by
  obtain ⟨⟨κ, k⟩, hok, app', kroot, cx, root, N, D, m₀, m, happ, hl, hcard, hr, -, hsp⟩ :=
    (boot_spec hb.wf b).exists_ok fun _ hstop => by
      have hm := hb.memory
      cases hstop with
      | memory h => omega
      | names h => exact absurd hb.names (Nat.not_le.mpr h)
      | app m hm' h =>
        cases h with
        | noApp h =>
          have := hb.head
          rw [h] at this
          cases this
        | elf a ha e he =>
          obtain rfl := Option.some.inj (hb.head.symm.trans ha)
          rw [hb.elf] at he
          cases he
        | memory a ha hc =>
          obtain rfl := Option.some.inj (hb.head.symm.trans ha)
          omega
        | read a ha hr =>
          obtain rfl := Option.some.inj (hb.head.symm.trans ha)
          exact hr hb.readable
        | stack a ha hs =>
          obtain rfl := Option.some.inj (hb.head.symm.trans ha)
          exact absurd hb.stack (Nat.not_lt.mpr hs)
  obtain rfl := Option.some.inj (hb.head.symm.trans happ)
  obtain ⟨rfl, rfl⟩ := Prod.mk.inj hr
  have hzero : ∀ i, (booted cfg b kroot cx root (ehdrOf (app.view b.toEnv).file).eEntry
      (imageTop (app.view b.toEnv).file) m).sched.Live i → i = 0 := fun i => (booted_live ..).mp
  refine ⟨_, by rw [RiscvOs.start, hok],
    ⟨.boot hb.wf hok, .boot hb.wf hok, fun i hi _ => ?_, ?_, fun i hi => ?_⟩, booted_sched ..,
    fun v hv => ?_⟩
  · obtain rfl := hzero i hi
    exact ⟨.trapReturn, trivial, .of_current rfl⟩
  · have hm := hb.memory
    have hg := hl.grows.card
    have hc := hl.card
    rw [Multiset.card_add, Multiset.card_singleton] at hg
    rw [booted_mem hl]
    change n ≤ m.free.card
    omega
  · obtain rfl := hzero i hi
    simp only [booted, Function.update_self]
    exact le_rfl
  · rw [← hsp.pages v hv]
    simp only [Kernel.pages, booted, Function.update_self]
    rfl

theorem Bootable.mono {n' : ℕ} (hb : Bootable cfg b app n) (hn : n' ≤ n) : Bootable cfg b app n' :=
  { hb with memory := by have := hb.memory; omega }

/-- **The first program** starts with the pages of its image. -/
theorem Bootable.first (hb : Bootable cfg b app n) (env : Env cfg) :
    ∃ k, run cfg [.resume env] (RiscvOs.start cfg b) = .running .user k ∧
      Health cfg .user k n (imageTop (app.view b.toEnv).file / 4096) ∧ k.sched = initSched ∧
      ∀ v < trapframeVpn, k.pages 0 v = imagePages (app.view b.toEnv).file v := by
  obtain ⟨k, hstart, h, hs, hpages⟩ := Health.start hb
  obtain ⟨k', hstep, h', hs'⟩ := h.resume hb.wf env
  refine ⟨k', by rw [hstart]; exact hstep, h', hs'.trans hs, fun v hv => ?_⟩
  obtain ⟨k₁, hret, hr⟩ := exists_of_bind_ok (ofExcept_running hstep)
  obtain ⟨-, rfl⟩ := Prod.mk.inj (Except.ok.inj hr)
  obtain ⟨c, rfl⟩ := ((trapReturn_spec h.mem h.init h.stack.onStack.satp).of_ok hret).shape
  exact hpages v hv

/-- **Every history from boot** is a run. -/
theorem Bootable.history {ops : List Op}
    (hb : Bootable cfg b app (n + ops.length * (6 + 3 * (imageTop (app.view b.toEnv).file / 4096))))
    (env : Env cfg) (hops : Playable ops initSched) {P : Op → Sched → Prop}
    (hskip : ∀ s, P .skip s) (hP : Heeds P ops initSched) :
    ∃ es k, run cfg es (RiscvOs.start cfg b) = .running .user k ∧
      Health cfg .user k n (imageTop (app.view b.toEnv).file / 4096) ∧
      k.sched = applyAll ops initSched ∧ Obeys P es (RiscvOs.start cfg b) := by
  obtain ⟨k₀, hstart, h₀, hs₀, -⟩ := Health.start hb
  obtain ⟨k₁, hstep, h₁, hs₁⟩ := h₀.resume hb.wf env
  have hinit : k₁.sched = initSched := hs₁.trans hs₀
  obtain ⟨k, hr, h, hs, ho⟩ := h₁.history hb.wf env ops (hinit ▸ hops) hskip (hinit ▸ hP)
  refine ⟨.resume env :: ops.flatMap (opEvents env), k, ?_, h, by rw [hs, hinit], ?_⟩
  · rw [hstart, run_cons, hstep, hr]
  · rw [hstart]
    exact .cons ⟨hskip _, cleanStep_of_none rfl⟩ (hstep ▸ ho)

end Boot

/-! ## A small system -/

/-- An ELF file with one segment of two pages at address 0, whose eight file bytes spell its
name. -/
def tinyImage : List Byte :=
  [0x7f, 0x45, 0x4c, 0x46, 2, 1, 1] ++ List.replicate 9 0 ++ [2, 0, 0xf3, 0, 1, 0, 0, 0] ++
  List.replicate 8 0 ++ [0x40] ++ List.replicate 19 0 ++ [0x40, 0, 0x38, 0, 1, 0] ++
  List.replicate 6 0 ++
  [1, 0, 0, 0, 7, 0, 0, 0] ++ [0x78] ++ List.replicate 23 0 ++ [8] ++ List.replicate 8 0 ++
  [0x20] ++ List.replicate 7 0 ++ [0x10] ++ List.replicate 6 0 ++
  [0x69, 0x6e, 0x69, 0x74, 0, 0, 0, 0]

def tinyApp : App where
  name := [0x69, 0x6e, 0x69, 0x74]
  start := kernbase + 0x2000
  image := tinyImage
  noNul := by decide

theorem tinyApp_ehdr : ehdrOf tinyApp.file = ⟨elfmag, elfclass64, emRiscv, 0, 64, 56, 1⟩ := by
  decide

theorem tinyApp_phdr : phdrOf tinyApp.file 0 = ⟨ptLoad, 7, 120, 0, 8, 8192⟩ := by decide

theorem tinyApp_length : tinyApp.image.length = 128 := by decide +kernel

theorem tinyApp_wf : tinyApp.Wf where
  header := by
    rw [tinyApp_length]
    decide
  headers i hi := by
    rw [tinyApp_ehdr] at hi
    obtain rfl := Nat.lt_one_iff.mp hi
    rw [phdrOffset, tinyApp_ehdr, tinyApp_length]
    decide
  layout := by
    have hone : ∀ i < (ehdrOf tinyApp.file).ePhnum, i = 0 := fun i hi => by
      rw [tinyApp_ehdr] at hi
      exact Nat.lt_one_iff.mp hi
    refine ⟨⟨?_, ?_⟩, ⟨0, by rw [tinyApp_ehdr]; decide, by rw [IsLoad, tinyApp_phdr]⟩, ?_⟩
    · intro i j hij hj
      rw [hone j hj] at hij
      exact absurd hij (Nat.not_lt_zero i)
    · intro i hi _
      rw [hone i hi, tinyApp_phdr]
      decide
    · intro i hi _
      rw [hone i hi, tinyApp_phdr]
      rfl

/-- The system with `tinyApp` as its only program. -/
def tiny : Config where
  trampoline := kernbase
  etext := kernbase + 0x1000
  kernelend := kernbase + 0x3000
  trapReturn := 0x80201100
  yieldRet := 0x80201200
  trapHandler := 0x80201300
  trapFromKernel := 0x80201400
  text := fun _ => 0
  apps := [tinyApp]
  aligned := by decide
  layout := by decide
  yieldRet_ne := by decide
  apps_in a ha := by
    obtain rfl := List.mem_singleton.mp ha
    rw [tinyApp_length]
    decide

theorem tiny_wf : tiny.WellFormed := fun a ha => by
  obtain rfl := List.mem_singleton.mp ha
  exact tinyApp_wf

/-- A kernel whose data holds `fill` around the program, and a console that answers `console`. -/
def tinyEnv (console : BitVec 32) (fill : Byte) : Env tiny where
  console := console
  time := 0
  sregs := fun _ => 0
  depth := 16
  depth_lt := by decide
  kdata x := if tinyApp.start ≤ x ∧ x < tinyApp.start + 128 then tinyApp.file (x - tinyApp.start)
    else fill
  kdata_app a ha o ho := by
    obtain rfl := List.mem_singleton.mp ha
    have hlen : o < 128 := ho
    rw [if_pos ⟨Nat.le_add_right _ _, by omega⟩, Nat.add_sub_cancel_left]

def tinyStart (fill : Byte) : Start tiny where
  toEnv := tinyEnv (-1) fill
  cpu := ⟨fun _ => 0, 0, 0, 0, 0, 0, 0, 0⟩
  ram := fun _ _ => 0
  ram_text := rfl

section Tiny

variable (env : Env tiny)

theorem tinyApp_mem : tinyApp ∈ tiny.apps := List.mem_singleton.mpr rfl

theorem tiny_ehdr : ehdrOf (tinyApp.view env).file = ⟨elfmag, elfclass64, emRiscv, 0, 64, 56, 1⟩ :=
  (tinyApp_wf.ehdr_eq fun _ => App.view_file tinyApp_mem env).trans tinyApp_ehdr

theorem tiny_phdr : phdrOf (tinyApp.view env).file 0 = ⟨ptLoad, 7, 120, 0, 8, 8192⟩ := by
  rw [← tinyApp_phdr]
  exact tinyApp_wf.phdr_eq (fun _ => App.view_file tinyApp_mem env) (by rw [tiny_ehdr]; decide)

theorem tiny_stackPage : stackPage (tinyApp.view env).file = 3 := by
  rw [stackPage, tiny_ehdr, imageEnd_of_load (by rw [IsLoad, tiny_phdr]), tiny_phdr]
  decide

theorem tiny_imageTop : imageTop (tinyApp.view env).file / 4096 = 4 := by
  rw [imageTop, tiny_stackPage]

theorem tiny_imageNeed : imageNeed (tinyApp.view env).file = 14 := by
  rw [imageNeed, tiny_ehdr]
  simp only [imageSize]
  rw [if_pos (by rw [IsLoad, tiny_phdr]), tiny_phdr]
  decide

theorem tiny_bootable (fill : Byte) : Bootable tiny (tinyStart fill) tinyApp 32000 where
  wf := tiny_wf
  head := rfl
  names := by decide
  elf := by
    rw [elfCheck, tiny_ehdr]
    rfl
  readable := by
    have hone : ∀ i < (ehdrOf (tinyApp.view (tinyStart fill).toEnv).file).ePhnum, i = 0 :=
      fun i hi => by
        rw [tiny_ehdr] at hi
        exact Nat.lt_one_iff.mp hi
    refine ⟨fun i hi => ⟨Nat.le_add_right _ _, ?_⟩, fun i hi _ => ⟨Nat.le_add_right _ _, ?_⟩⟩
    · rw [hone i hi, phdrOffset, tiny_ehdr]
      change kernbase + 0x2000 + (64 + 56 * 0 + 56) ≤ phystop
      decide
    · rw [hone i hi, tiny_phdr]
      change kernbase + 0x2000 + (120 + pgroundup 8192 / 4096 * 4096) ≤ phystop
      decide
  stack := by
    rw [tiny_stackPage]
    decide
  memory := by
    rw [tiny_imageNeed]
    decide

theorem tiny_imagePages {v : ℕ} (hv : v < 2) : imagePages (tinyApp.view env).file v =
    some (pteV ||| (pteR ||| pteW ||| pteX ||| pteU),
      pageAt (tinyApp.view env).file (120 + v * 4096)) := by
  have hpage : segmentPage (tinyApp.view env).file 0 v =
      some (pteV ||| (pteR ||| pteW ||| pteX ||| pteU),
        pageAt (tinyApp.view env).file (120 + v * 4096)) := by
    rw [segmentPage, if_pos, tiny_phdr]
    · rfl
    · rw [IsLoad, tiny_phdr]
      exact ⟨rfl, Nat.zero_le v, hv⟩
  rw [imagePages, tiny_stackPage, Function.update_of_ne (by omega), tiny_ehdr]
  exact hpage ▸ Option.some_or

/-- The first program of the small system, when it starts. -/
theorem tiny_first (fill : Byte) :
    ∃ es k, run tiny es (start tiny (tinyStart fill)) = .running .user k ∧
      Health tiny .user k 32000 4 ∧ k.sched = initSched ∧
      ∀ v < trapframeVpn, k.pages 0 v =
      imagePages (tinyApp.view (tinyStart fill).toEnv).file v := by
  obtain ⟨k, hrun, h, hs, hpages⟩ := (tiny_bootable fill).first (tinyStart fill).toEnv
  rw [tiny_imageTop] at h
  exact ⟨_, k, hrun, h, hs, hpages⟩

/-- **The histories of the small system**, and conditions they meet. -/
theorem tiny_obeys (fill : Byte) {ops : List Op} (hlen : ops.length ≤ 1000)
    (hops : Playable ops initSched) {P : Op → Sched → Prop} (hskip : ∀ s, P .skip s)
    (hP : Heeds P ops initSched) :
    ∃ es k, run tiny es (start tiny (tinyStart fill)) = .running .user k ∧
      Health tiny .user k 1000 4 ∧ k.sched = applyAll ops initSched ∧
      Obeys P es (start tiny (tinyStart fill)) := by
  have hb : Bootable tiny (tinyStart fill) tinyApp (1000 + ops.length * (6 + 3 *
      (imageTop (tinyApp.view (tinyStart fill).toEnv).file / 4096))) := by
    refine (tiny_bootable fill).mono ?_
    rw [tiny_imageTop]
    omega
  obtain ⟨es, k, hr, h, hs, ho⟩ := hb.history (tinyStart fill).toEnv hops hskip hP
  rw [tiny_imageTop] at h
  exact ⟨es, k, hr, h, hs, ho⟩

theorem heeds_true (ops : List Op) (s : Sched) : Heeds (fun _ _ => True) ops s := by
  induction ops generalizing s with
  | nil => trivial
  | cons op ops ih => exact ⟨trivial, ih _⟩

/-- **The histories of the small system.** -/
theorem tiny_history (fill : Byte) {ops : List Op} (hlen : ops.length ≤ 1000)
    (hops : Playable ops initSched) :
    ∃ es k, run tiny es (start tiny (tinyStart fill)) = .running .user k ∧
      Health tiny .user k 1000 4 ∧ k.sched = applyAll ops initSched := by
  obtain ⟨es, k, hr, h, hs, -⟩ := tiny_obeys fill hlen hops (fun _ => trivial) (heeds_true ops _)
  exact ⟨es, k, hr, h, hs⟩

end Tiny

example : Playable [.fork, .fork, .yield, .exit] initSched := by decide +kernel

end RiscvOs
