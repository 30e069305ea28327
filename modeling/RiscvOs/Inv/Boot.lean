import RiscvOs.Calls.Exec
import RiscvOs.Inv.KernelMap
import RiscvOs.Inv.Stack

/-!
# Boot

`os_main` leaves one process, in slot 0, about to run for the first time.

* `boot_booted`: which records it leaves, whatever the first program is.
* **`boot_spec`**: the memory it leaves, for well-formed programs.
* `booted_tree`, `booted_compact`, `booted_stack`: the scheduler and the stacks start in order.
-/

set_option autoImplicit false

namespace RiscvOs

open PageTableEntry

variable {cfg : Config} {b : Start cfg}

/-! ## `kvminit` -/

/-- The state after `kvminit` and `procinit`. -/
def kernelReady (cfg : Config) (b : Start cfg) (root : ℕ) (m : Mem) : Kernel :=
  { kernelMade cfg b root m with cpu := b.cpu.setCsr .satp (makeSatp root) }

theorem kvminit_spec (b : Start cfg) :
    Outcome (kvminit cfg (frameAlloctorInit cfg b))
      (fun k => ∃ root m, k = kernelReady cfg b root m ∧ MemInv cfg k ∧
        frameEnd - cfg.lo ≤ m.free.card + 167)
      (fun e => e = .panic "memory is full" ∧ frameEnd - cfg.lo < 167) := by
  rw [kvminit]
  refine Outcome.bind (kvmMake_spec b) ?_
  rintro _ ⟨root, m, rfl, hm, -, hcard⟩
  have hvpn : virtPageNumFromVirtAddr (virtAddrFromSizeT 0xffffffffffffd000) = kstackVpn 0 := by
    decide
  rw [hvpn]
  obtain ⟨f, -, hf⟩ := hm.kernel.stack 0
  cases hp : findPte (kernelMade cfg b root m).mem.ram (kernelMade cfg b root m).kernelPagetable
      (kstackVpn 0) with
  | none =>
    rw [findPte_eq_none hp] at hf
    cases hf
  | some p => exact ⟨root, m, rfl, hm.of_same rfl rfl rfl rfl fun _ => .refl _, hcard⟩

/-! ## `load_app` -/

/-- The state `task_create_pt(0)` leaves: a trap page `f` and a table at `root`. -/
def taskCreated (k : Kernel) (f root : ℕ) (m : Mem) : Kernel :=
  { k with
    mem := m
    top := k.top + 1
    tasks := Function.update k.tasks 0
      { k.tasks 0 with
        trapCxPpn := physAddrFromPhysPageNum f
        taskContext := fun _ => 0
        pagetable := ⟨root⟩ } }

theorem taskCreatePt_shape {k k' : Kernel} (htop : k.top < maxTaskNum)
    (h : taskCreatePt cfg k 0 = .ok k') : ∃ f root m, k' = taskCreated k f root m := by
  rw [taskCreatePt, if_pos htop] at h
  obtain ⟨k₁, h₁, h⟩ := exists_of_bind_ok h
  obtain ⟨k₂, h₂, h⟩ := exists_of_bind_ok h
  obtain ⟨f, m₁, rfl⟩ := procTrap_shape h₁
  obtain ⟨root, m, rfl⟩ := procPagetable_shape h₂
  refine ⟨f, root, m, (Except.ok.inj h).symm.trans ?_⟩
  simp only [taskCreated, Kernel.setTask, Function.update_self, Function.update_idem]

/-- **`task_create_pt`** builds an address space with the two high pages only. -/
theorem taskCreatePt_spec {k : Kernel} (htop : k.top < maxTaskNum) (ha : Apart k.mem 0) :
    Outcome (taskCreatePt cfg k 0)
      (fun k' => ∃ f root nt m, f < 2 ^ 44 ∧ Grows k.mem m 0 ({f} + nt) ∧ nt.card ≤ 5 ∧
        Space m.ram root f cfg.trampolinePpn 0 nt 0 (fun _ => none) ∧ k' = taskCreated k f root m)
      fun e => e = .panic "memory is full" ∧ k.mem.free.card < 6 := by
  rw [taskCreatePt, if_pos htop]
  refine Outcome.bind ((procTrap_spec k 0).mono (fun _ h => h)
    fun e he => ⟨he.1, by have := he.2; omega⟩) ?_
  rintro _ ⟨f, m₁, hg₁, rfl⟩
  have hf : f < 2 ^ 44 := ha.new_lt hg₁ (Multiset.mem_singleton_self f)
  have hpa : physAddrFromPhysPageNum f = f * 4096 := physAddrFromPhysPageNum_eq hf
  have hcard : k.mem.free.card = 1 + m₁.free.card := hg₁.card
  have ha₁ : Apart m₁ 0 := (ha.grows hg₁).mono (Multiset.zero_le _)
  refine Outcome.bind ((procPagetable_spec ha₁ ?_).mono (fun _ h => h) fun e he => ⟨he.1, ?_⟩) ?_
  · rw [setTask_self]
    change physAddrFromPhysPageNum f < _
    omega
  · have : m₁.free.card < 5 := he.2
    omega
  rintro _ ⟨root, nt, m, hg, hnt, hs, rfl⟩
  have hcx : TaskControlBlock.cx { k.tasks 0 with trapCxPpn := physAddrFromPhysPageNum f } = f := by
    rw [TaskControlBlock.cx, pageSize_eq]
    exact physAddrFromPhysPageNum_div hf
  refine ⟨f, root, nt, m, hf, hg₁.trans (hg.mono (Multiset.zero_le _)), hnt, ?_, ?_⟩
  · rw [setTask_self] at hs
    exact hcx ▸ hs
  · simp only [taskCreated, Kernel.setTask, Function.update_self, Function.update_idem]

/-- The control block `load_app` leaves: trap page `f`, table `root`, entry and stack. -/
def loadedTask (t : TaskControlBlock) (f root entry ustack : ℕ) : TaskControlBlock :=
  { t with
    trapCxPpn := physAddrFromPhysPageNum f
    taskContext := fun _ => 0
    pagetable := ⟨root⟩
    entry := entry
    ustack := ustack
    baseSize := ustack }

/-- The state `load_app(0)` leaves. -/
def appLoaded (k : Kernel) (f root entry ustack : ℕ) (m : Mem) : Kernel :=
  { k with
    mem := m
    top := k.top + 1
    tasks := Function.update k.tasks 0 (loadedTask (k.tasks 0) f root entry ustack) }

theorem loadApp_shape {k k' : Kernel} (htop : k.top < maxTaskNum) (h : loadApp cfg b k = .ok k') :
    ∃ f root entry ustack m, k' = appLoaded k f root entry ustack m := by
  rw [loadApp] at h
  cases happs : cfg.apps with
  | nil =>
    simp only [happs] at h
    cases h
  | cons app rest =>
    simp only [happs] at h
    obtain ⟨-, -, h⟩ := exists_of_bind_ok h
    obtain ⟨k₁, h₁, h⟩ := exists_of_bind_ok h
    obtain ⟨⟨u, m⟩, -, h⟩ := exists_of_bind_ok h
    obtain ⟨f, root, m₁, rfl⟩ := taskCreatePt_shape htop h₁
    refine ⟨f, root, (ehdrOf (app.view b.toEnv).file).eEntry, u, m, ?_⟩
    rw [← Except.ok.inj h]
    simp only [appLoaded, loadedTask, taskCreated, Kernel.setTask, Function.update_self,
      Function.update_idem, App.view]

/-- Why `load_app` stops, with `n` frames left. -/
inductive LoadAppStops (cfg : Config) (b : Start cfg) (n : ℕ) : Prop
  | noApp (h : cfg.apps = [])
  | elf (app : App) (h : app ∈ cfg.apps.head?) (e : Halt)
    (he : elfCheck (app.view b.toEnv).file = .error e)
  | memory (app : App) (h : app ∈ cfg.apps.head?)
    (hc : n < 1 + imageNeed (app.view b.toEnv).file)
  | read (app : App) (h : app ∈ cfg.apps.head?) (hr : ¬ (app.view b.toEnv).Readable)
  | stack (app : App) (h : app ∈ cfg.apps.head?)
    (hs : trapframeVpn ≤ stackPage (app.view b.toEnv).file)

/-- What `load_app` has put into memory: the program `f` in new frames, with trap page `cx`. -/
structure AppLoaded (cfg : Config) (m₀ : Mem) (f : ℕ → Byte) (cx root : ℕ) (N D : Multiset ℕ)
    (m : Mem) : Prop where
  lt : cx < 2 ^ 44
  grows : Grows m₀ m 0 ({cx} + (N + D))
  space : Space m.ram root cx cfg.trampolinePpn (imageTop f / 4096) N D (imagePages f)
  card : (N + D).card ≤ imageNeed f

theorem loadApp_spec {k : Kernel} (htop : k.top < maxTaskNum) (ha : Apart k.mem 0)
    (hwf : cfg.WellFormed) :
    Outcome (loadApp cfg b k)
      (fun k' => ∃ app cx root N D m, app ∈ cfg.apps.head? ∧
        AppLoaded cfg k.mem (app.view b.toEnv).file cx root N D m ∧
        k' = appLoaded k cx root (ehdrOf (app.view b.toEnv).file).eEntry
          (imageTop (app.view b.toEnv).file) m)
      fun _ => LoadAppStops cfg b k.mem.free.card := by
  rw [loadApp]
  cases happs : cfg.apps with
  | nil => exact .noApp happs
  | cons app rest =>
    have hhead : app ∈ cfg.apps.head? := by
      rw [happs]
      rfl
    have hlay := App.view_layout hwf (a := app) (by rw [happs]; exact List.mem_cons_self) b.toEnv
    have hview : (⟨app.start, b.kdata⟩ : Image) = app.view b.toEnv := rfl
    simp only [hview]
    refine Outcome.bind ((Outcome.self (elfCheck (app.view b.toEnv).file)).mono (fun _ h => h)
      fun e he => .elf app hhead e he) ?_
    rintro - -
    refine Outcome.bind ((taskCreatePt_spec htop ha).mono (fun _ h => h) fun e he => ?_) ?_
    · refine .memory app hhead ?_
      have := he.2
      rw [imageNeed]
      omega
    rintro _ ⟨f, root, nt, m₁, hf, hg₁, hnt, hs₁, rfl⟩
    have hcard₁ : k.mem.free.card = 1 + nt.card + m₁.free.card := by
      rw [hg₁.card, Multiset.card_add, Multiset.card_singleton]
    have hnt₁ : Apart m₁ nt := (ha.grows hg₁).mono (by
      rw [zero_add]
      exact Multiset.le_add_left _ _)
    have hroot : ((taskCreated k f root m₁).tasks 0).pagetable = ⟨root⟩ := by
      simp only [taskCreated, Function.update_self]
    simp only [setTask_self, hroot]
    refine Outcome.bind ((loadSegment_spec hlay hnt₁ hs₁).mono (fun _ h => h) fun e he => ?_) ?_
    · obtain (⟨-, hlt⟩ | ⟨-, hr⟩) | hst := he
      · refine .memory app hhead ?_
        rw [imageNeed]
        change m₁.free.card < _ at hlt
        omega
      · exact .read app hhead hr
      · exact .stack app hhead hst
    rintro ⟨u, m⟩ ⟨rfl, hgr⟩
    obtain ⟨nt', nd, hg, hs, hc⟩ := hgr
    rw [zero_add] at hs
    refine ⟨app, f, root, nt + nt', nd, m, by rw [← happs]; exact hhead, ⟨hf, ?_, hs, ?_⟩, ?_⟩
    · have h := hg₁.trans (hg.mono (by rw [zero_add]; exact Multiset.le_add_left _ _))
      have hsum : {f} + nt + (nd + nt') = {f} + (nt + nt' + nd) := by abel
      rwa [hsum] at h
    · rw [Multiset.card_add] at hc
      rw [imageNeed, Multiset.card_add, Multiset.card_add]
      omega
    · simp only [appLoaded, loadedTask, taskCreated, Kernel.setTask, Function.update_self,
        Function.update_idem]

/-! ## The first process -/

/-- The control block of the first process when it starts. -/
def initTask (cfg : Config) (f root entry ustack : ℕ) : TaskControlBlock :=
  { loadedTask { TaskControlBlock.zero with kstack := kstackVa 0 + pageSize } f root entry
      ustack with
    taskState := .running
    taskContext := taskContextInit (BitVec.ofNat 64 (kstackVa 0 + pageSize)) cfg.trapReturn }

/-- The registers when the first process starts. -/
def initCpu (cfg : Config) (b : Start cfg) (kroot : ℕ) : Cpu :=
  loadContext
    { (b.cpu.setCsr .satp (makeSatp kroot)).setCsr .sstatus (b.cpu.sstatus &&& 0xfffffeff) with
      stvec := cfg.trapFromKernel
      sstatus := b.cpu.sstatus &&& 0xfffffeff ||| 2 }
    (taskContextInit (BitVec.ofNat 64 (kstackVa 0 + pageSize)) cfg.trapReturn)

/-- The state in which the first process starts. -/
def booted (cfg : Config) (b : Start cfg) (kroot f root entry ustack : ℕ) (m : Mem) : Kernel where
  mem := appTrap cfg m (physAddrFromPhysPageNum f / pageSize) kroot entry ustack
    (kstackVa 0 + pageSize) (b.cpu.sstatus &&& 0xfffffeff)
  kernelPagetable := ⟨kroot⟩
  tasks := Function.update
    (fun i => { TaskControlBlock.zero with kstack := kstackVa i + pageSize }) 0
    (initTask cfg f root entry ustack)
  current := 0
  top := 1
  nextPid := 1
  cpu := initCpu cfg b kroot
  kstacks := fun _ => none

theorem resumeAt_init (k : Kernel) (cptr : Word) :
    resumeAt cfg k (taskContextInit cptr cfg.trapReturn) = .ok .trapReturn := if_pos rfl

/-- `app_init`, `timer_init` and `start_task`. -/
theorem startTask_booted (kroot f root entry ustack : ℕ) (m₀ m : Mem) :
    startTask cfg (timerInit cfg (appInit cfg
      (appLoaded (kernelReady cfg b kroot m₀) f root entry ustack m))) =
      .ok (.trapReturn, booted cfg b kroot f root entry ustack m) := by
  simp only [startTask, timerInit, appInit, allocPid, appLoaded, loadedTask, kernelReady,
    kernelMade,
    frameAlloctorInit, Kernel.setTask, Function.update_self, Function.update_idem, resumeAt_init]
  rfl

/-- **Which records `os_main` leaves.** -/
theorem boot_booted {kont : Kont} {k : Kernel} (h : boot cfg b = .ok (kont, k)) :
    kont = .trapReturn ∧
      ∃ kroot f root entry ustack m, k = booted cfg b kroot f root entry ustack m := by
  rw [boot] at h
  obtain ⟨k₁, h₁, h⟩ := exists_of_bind_ok h
  obtain ⟨kroot, m₀, rfl, -, -⟩ := (kvminit_spec b).of_ok h₁
  obtain ⟨-, -, h⟩ := exists_of_bind_ok h
  obtain ⟨k₂, h₂, h⟩ := exists_of_bind_ok h
  have hpi : procinit (kernelReady cfg b kroot m₀) = kernelReady cfg b kroot m₀ := rfl
  rw [hpi] at h₂
  have htop : (kernelReady cfg b kroot m₀).top < maxTaskNum := Nat.zero_lt_succ _
  obtain ⟨f, root, entry, ustack, m, rfl⟩ := loadApp_shape htop h₂
  rw [startTask_booted] at h
  obtain ⟨rfl, rfl⟩ := Prod.mk.inj (Except.ok.inj h)
  exact ⟨rfl, kroot, f, root, entry, ustack, m, rfl⟩

section Booted

variable (cfg b) (kroot f root entry ustack : ℕ) (m : Mem)

theorem booted_sched : (booted cfg b kroot f root entry ustack m).sched =
    ⟨Function.update (fun _ => ⟨.unInit, 0, none⟩) 0 ⟨.running, 0, none⟩, 0, 1, 1⟩ := by
  rw [Kernel.sched]
  refine congrArg (fun p => Sched.mk p 0 1 1) (funext fun i => ?_)
  by_cases hi : i = 0
  · subst hi
    rw [Function.update_self]
    simp only [booted, Function.update_self]
    rfl
  · rw [Function.update_of_ne hi]
    simp only [booted, Function.update_of_ne hi]
    rfl

theorem booted_live (i : Slot) :
    (booted cfg b kroot f root entry ustack m).sched.Live i ↔ i = 0 := by
  rw [booted_sched, Sched.Live]
  by_cases hi : i = 0
  · subst hi
    simp [TaskState.live]
  · simp [hi, TaskState.live]

theorem booted_unInit (i : Slot) :
    (booted cfg b kroot f root entry ustack m).sched.UnInit i ↔ i ≠ 0 := by
  rw [booted_sched, Sched.UnInit]
  by_cases hi : i = 0
  · subst hi
    simp
  · simp [hi]

theorem booted_compact : Compact (booted cfg b kroot f root entry ustack m).sched := fun i => by
  have htop : (booted cfg b kroot f root entry ustack m).sched.top = 1 := rfl
  rw [booted_live, htop, Nat.lt_one_iff, ← Fin.val_eq_zero_iff]

/-- One process is a tree. -/
theorem booted_tree : ProcTree (booted cfg b kroot f root entry ustack m).sched where
  top := by
    have : (booted cfg b kroot f root entry ustack m).sched.liveSlots = {0} := by
      ext i
      rw [Sched.mem_liveSlots, booted_live, Finset.mem_singleton]
    rw [this]
    rfl
  init := (booted_live cfg b kroot f root entry ustack m 0).mpr rfl
  unInit i hi := by
    rw [booted_unInit] at hi
    rw [booted_sched]
    simp only [Function.update_of_ne hi]
  number := by
    have h₀ : ∀ i, ¬ (booted cfg b kroot f root entry ustack m).sched.UnInit i → i = 0 :=
      fun i hi => by rwa [booted_unInit, not_not] at hi
    refine ⟨fun _ => 0, rfl, fun i hi => ?_, fun i j hi hj _ => (h₀ i hi).trans (h₀ j hj).symm,
      fun i hi hu => absurd (h₀ i hu) hi⟩
    rw [h₀ i hi, booted_sched]
    exact ⟨rfl, Nat.zero_lt_one⟩
  current := (booted_live cfg b kroot f root entry ustack m 0).mpr rfl

/-- It is on its own stack. -/
theorem booted_stack :
    StackInv cfg (.kernel .trapReturn) (booted cfg b kroot f root entry ustack m) where
  kstack i := by
    by_cases hi : i = 0
    · subst hi
      simp only [booted, Function.update_self]
      rfl
    · simp only [booted, Function.update_of_ne hi]
  suspended i hi hl := absurd ((booted_live cfg b kroot f root entry ustack m i).mp hl) hi
  current kont he := by
    obtain rfl := Mode.kernel.inj he
    refine ⟨?_, ?_, trivial⟩
    · have : (booted cfg b kroot f root entry ustack m).cpu.reg 2 =
          BitVec.ofNat 64 (kstackVa 0 + pageSize) := loadContext_sp _ _
      rw [this]
      exact kernelStackOf_kstack 0
    · exact loadContext_satp _ _

end Booted

/-! ## Its memory -/

/-- The trap context `app_init` leaves. -/
def initTrap (cfg : Config) (old : Frame) (kroot entry ustack : ℕ) (sstatus : Word) : Frame :=
  let c := Function.update old cxSepc (BitVec.ofNat 64 entry)
  let c := Function.update c cxSstatus sstatus
  let c := Function.update c (cxReg 2) (BitVec.ofNat 64 ustack)
  let c := Function.update c cxKernelSatp (makeSatp kroot)
  let c := Function.update c cxKernelSp (BitVec.ofNat 64 (kstackVa 0 + pageSize))
  Function.update c cxTrapHandler cfg.trapHandler

theorem appTrap_eq (m : Mem) (cx kroot entry ustack : ℕ) (sstatus : Word) :
    appTrap cfg m cx kroot entry ustack (kstackVa 0 + pageSize) sstatus =
      m.storeFrame cx (initTrap cfg (m.ram cx) kroot entry ustack sstatus) := by
  have h := storeFrame_eq_self m cx
  rw [← h]
  simp only [appTrap, store_storeFrame]
  rw [h]
  rfl

section Memory

variable {kroot : ℕ} {m₀ m : Mem} {file : ℕ → Byte} {cx root : ℕ} {N D : Multiset ℕ} {entry : ℕ}

theorem booted_mem (hl : AppLoaded cfg m₀ file cx root N D m) :
    (booted cfg b kroot cx root entry (imageTop file) m).mem = m.storeFrame cx
      (initTrap cfg (m.ram cx) kroot entry (imageTop file) (b.cpu.sstatus &&& 0xfffffeff)) := by
  have hcx : physAddrFromPhysPageNum cx / pageSize = cx := by
    rw [pageSize_eq]
    exact physAddrFromPhysPageNum_div hl.lt
  change appTrap _ _ _ _ _ _ _ _ = _
  rw [hcx, appTrap_eq]

theorem booted_cx (hl : AppLoaded cfg m₀ file cx root N D m) :
    ((booted cfg b kroot cx root entry (imageTop file) m).tasks 0).cx = cx := by
  simp only [booted, Function.update_self, TaskControlBlock.cx, pageSize_eq]
  exact physAddrFromPhysPageNum_div hl.lt

variable (h : MemInv cfg (kernelReady cfg b kroot m₀))
  (hl : AppLoaded cfg m₀ file cx root N D m)

include h hl

theorem booted_onlyTask : OnlyTask cfg (kernelReady cfg b kroot m₀)
    (booted cfg b kroot cx root entry (imageTop file) m) 0 where
  kernelPagetable := rfl
  task i hi := by
    simp only [booted, Function.update_of_ne hi]
    exact .refl _
  frame x hx := by
    have hown := MemInv.rest_le _ 0 |> Multiset.mem_of_le <| hx
    have hnew : x ∉ ({cx} : Multiset ℕ) + (N + D) := fun hn =>
      h.apart.new_not_mem hl.grows hn hown
    have hcx : x ≠ cx := fun he =>
      hnew (Multiset.mem_add.mpr (.inl (Multiset.mem_singleton.mpr he)))
    rw [booted_mem hl, Mem.storeFrame_of_ne hcx]
    exact h.owned_agree hl.grows hown
  text := by
    have hne : cfg.trampolinePpn ≠ cx := fun he => h.trampoline_not_mem hl.grows
      (Multiset.mem_add.mpr (.inl (Multiset.mem_singleton.mpr he)))
    rw [booted_mem hl, Mem.storeFrame_of_ne hne]
    exact h.text_agree hl.grows
  end_eq := by
    rw [booted_mem hl]
    exact hl.grows.end_eq

theorem booted_space : Space (booted cfg b kroot cx root entry (imageTop file) m).mem.ram root cx
    cfg.trampolinePpn (imageTop file / 4096) N D (imagePages file) := by
  have hnd := (Multiset.nodup_add.mp (h.own.grows hl.grows).nodup).2.1
  have hcx : cx ∉ N + D := Multiset.disjoint_left.mp (Multiset.nodup_add.mp hnd).2.2
    (Multiset.mem_singleton_self cx)
  have hkeep : ∀ x ∈ N + D, (booted cfg b kroot cx root entry (imageTop file) m).mem.ram x =
      m.ram x := fun x hx => by
    rw [booted_mem hl]
    exact Mem.storeFrame_of_ne (fun he : x = cx => hcx (he ▸ hx)) _
  exact hl.space.congr (fun x hx => hkeep x (Multiset.mem_add.mpr (.inl hx)))
    fun x hx => hkeep x (Multiset.mem_add.mpr (.inr hx))

/-- **The memory of the first process.** -/
theorem booted_memInv : MemInv cfg (booted cfg b kroot cx root entry (imageTop file) m) := by
  have htask : (booted cfg b kroot cx root entry (imageTop file) m).tasks 0 =
      initTask cfg cx root entry (imageTop file) := by simp only [booted, Function.update_self]
  have hcx : ((booted cfg b kroot cx root entry (imageTop file) m).tasks 0).cx = cx := booted_cx hl
  have hinit : ((booted cfg b kroot cx root entry (imageTop file) m).tasks 0).taskState ≠
      .unInit := by
    rw [htask]
    exact nofun
  have hs' : Space (booted cfg b kroot cx root entry (imageTop file) m).mem.ram
      (initTask cfg cx root entry (imageTop file)).pagetable.rootPpn
      (initTask cfg cx root entry (imageTop file)).cx cfg.trampolinePpn
      ((initTask cfg cx root entry (imageTop file)).baseSize / 4096) N D (imagePages file) := by
    rw [← htask, hcx, htask]
    exact booted_space h hl
  refine h.replace (booted_onlyTask h hl) ?_ fun _ => ?_
  · have hframes : (booted cfg b kroot cx root entry (imageTop file) m).taskFrames 0 =
        {cx} + (N + D) := by
      rw [Kernel.taskFrames_of_init hinit, htask, TaskControlBlock.frames_eq hs', ← htask, hcx]
      abel
    have hrest : (kernelReady cfg b kroot m₀).rest 0 = (kernelReady cfg b kroot m₀).owned := by
      rw [(kernelReady cfg b kroot m₀).owned_eq 0, Kernel.taskFrames_of_unInit rfl, add_zero]
    have ho := h.own.grows hl.grows
    rw [hframes, hrest, booted_mem hl]
    exact ho
  · rw [htask]
    refine .of_space hs' ?_ ?_ fun v _ q hq => imagePages_user hq
    · exact Nat.mul_mod_left _ _
    · change physAddrFromPhysPageNum cx % 4096 = 0
      rw [physAddrFromPhysPageNum_eq hl.lt]
      exact Nat.mul_mod_left _ _

end Memory

/-- Why `os_main` stops. -/
inductive BootStops (cfg : Config) (b : Start cfg) : Prop
  | memory (h : frameEnd - cfg.lo < 167)
  | names (h : maxTaskNum < cfg.apps.length)
  | app (n : ℕ) (hn : frameEnd - cfg.lo ≤ n + 167) (h : LoadAppStops cfg b n)

/-- **`os_main` starts the first program.** -/
theorem boot_spec (hwf : cfg.WellFormed) (b : Start cfg) :
    Outcome (boot cfg b)
      (fun r => ∃ app kroot cx root N D m₀ m, app ∈ cfg.apps.head? ∧
        AppLoaded cfg m₀ (app.view b.toEnv).file cx root N D m ∧
        frameEnd - cfg.lo ≤ m₀.free.card + 167 ∧
        r = (.trapReturn, booted cfg b kroot cx root (ehdrOf (app.view b.toEnv).file).eEntry
          (imageTop (app.view b.toEnv).file) m) ∧ MemInv cfg r.2 ∧
        Space r.2.mem.ram root cx cfg.trampolinePpn (imageTop (app.view b.toEnv).file / 4096) N D
          (imagePages (app.view b.toEnv).file))
      fun _ => BootStops cfg b := by
  rw [boot]
  refine Outcome.bind ((kvminit_spec b).mono (fun _ h => h) fun e he => .memory he.2) ?_
  rintro _ ⟨kroot, m₀, rfl, hm, hcard⟩
  have hpi : procinit (kernelReady cfg b kroot m₀) = kernelReady cfg b kroot m₀ := rfl
  have htop : (kernelReady cfg b kroot m₀).top < maxTaskNum := Nat.zero_lt_succ _
  simp only [hpi]
  refine Outcome.bind (Q := fun _ => True) ?_ ?_
  · rw [getAppNames]
    split_ifs with hn
    · trivial
    · exact .names (Nat.lt_of_not_le hn)
  rintro - -
  refine Outcome.bind ((loadApp_spec htop (hm.apart.mono (Multiset.zero_le _)) hwf).mono
    (fun _ h => h) fun e he => .app m₀.free.card hcard he) ?_
  rintro _ ⟨app, cx, root, N, D, m, happ, hl, rfl⟩
  rw [startTask_booted]
  exact ⟨app, kroot, cx, root, N, D, m₀, m, happ, hl, hcard, rfl, booted_memInv hm hl,
    booted_space hm hl⟩

end RiscvOs
