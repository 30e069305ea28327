import RiscvOs.Calls.Fork
import RiscvOs.Load.Segment

/-!
# What `__sys_exec` does

* `execLoad_spec`: the new address space is built beside the old one, in new frames.
* `freeOld_spec`: the old one is given back, except for the trap page.
* **`sysExec_spec`**: both together.
-/

set_option autoImplicit false

namespace RiscvOs

open PageTableEntry

variable {cfg : Config} {env : Env cfg} {k k' : Kernel}

/-! ## The embedded programs -/

/-- Every embedded program is well-formed. -/
def Config.WellFormed (cfg : Config) : Prop := ∀ a ∈ cfg.apps, a.Wf

/-- The program of a name. -/
def Config.find (cfg : Config) (path : List Byte) : Option App :=
  cfg.apps.find? fun a => a.name = path

/-- The program as the kernel sees it. -/
def App.view (a : App) (env : Env cfg) : Image := ⟨a.start, env.kdata⟩

theorem App.view_file {a : App} (ha : a ∈ cfg.apps) (env : Env cfg) {x : ℕ}
    (hx : x < a.image.length) : (a.view env).file x = a.file x := by
  have hin := cfg.apps_in a ha
  have hl := cfg.layout
  have hp : phystop < 2 ^ 64 := by decide
  rw [← env.kdata_app a ha x hx]
  change env.kdata ((a.start + x) % 2 ^ 64) = _
  rw [Nat.mod_eq_of_lt (by omega)]

theorem App.view_layout (hwf : cfg.WellFormed) {a : App} (ha : a ∈ cfg.apps) (env : Env cfg) :
    WfLayout (a.view env).file :=
  (hwf a ha).layout_of_agree fun _ hx => App.view_file ha env hx

/-- The message of `get_app_data_by_name` fits its buffer. -/
def NameFits (cfg : Config) (path : List Byte) : Prop :=
  ∀ id ≤ cfg.apps.length, path.length + (Nat.repr id).length < 985

theorem getAppDataByName_spec (path : List Byte) (m : Mem) :
    Outcome (getAppDataByName cfg path m)
      (fun r => ∃ a id, cfg.find path = some a ∧
        r = (a.start, m.printf "find app:%s id:%d\n" [.str path, .num id]))
      (fun e => (e = .panic "no app found\n" ∧ cfg.find path = none) ∨
        (e = .overflow ∧ ¬ NameFits cfg path)) := by
  rw [getAppDataByName]
  cases hi : cfg.apps.findIdx? fun a => a.name = path with
  | none =>
    refine .inl ⟨rfl, ?_⟩
    rw [List.findIdx?_eq_none_iff] at hi
    rw [Config.find, List.find?_eq_none]
    exact fun a ha => by simpa using hi a ha
  | some i =>
    obtain ⟨hlt, hp, hmin⟩ := List.findIdx?_eq_some_iff_getElem.mp hi
    have hfind : cfg.find path = some cfg.apps[i] := by
      rw [Config.find, List.find?_eq_some_iff_getElem]
      exact ⟨hp, i, hlt, rfl, fun j hj => by simpa using hmin j hj⟩
    simp only [printfLen]
    split_ifs with hlen
    · refine .inr ⟨rfl, fun hf => ?_⟩
      have := hf (i + 1) hlt
      omega
    · refine ⟨cfg.apps[i], i + 1, hfind, ?_⟩
      rw [List.getElem?_eq_getElem hlt]
      rfl

theorem Config.mem_of_find {path : List Byte} {a : App} (h : cfg.find path = some a) :
    a ∈ cfg.apps ∧ a.name = path := by
  have h₁ := List.mem_of_find?_eq_some h
  have h₂ := List.find?_some h
  exact ⟨h₁, by simpa using h₂⟩

/-! ## A new image -/

/-- Table and pages of a new image, as frames taken from the allocator. -/
theorem Grown.image {m m₁ m₂ : Mem} {root trap tramp n c : ℕ} {nt : Multiset ℕ}
    {V : ℕ → Option (Byte × Frame)} (hg : Grows m m₁ 0 nt)
    (h : Grown m₁ m₂ root trap tramp nt 0 n V c) :
    ∃ N D, Grows m m₂ 0 (N + D) ∧ Space m₂.ram root trap tramp n N D V ∧
      (N + D).card ≤ nt.card + c := by
  obtain ⟨nt', nd, hg', hs, hc⟩ := h
  rw [zero_add] at hs
  refine ⟨nt + nt', nd, ?_, hs, ?_⟩
  · have := hg.trans (by rwa [zero_add] : Grows m₁ m₂ (0 + nt) (nd + nt'))
    have hsum : nt + (nd + nt') = nt + nt' + nd := by abel
    rwa [hsum] at this
  · rw [Multiset.card_add] at hc ⊢
    rw [Multiset.card_add]
    omega

/-- The frames an image needs at most. -/
def imageNeed (f : ℕ → Byte) : ℕ := 5 + 3 * (imageSize f (ehdrOf f).ePhnum + 1)

theorem App.Wf.imageNeed_agree {a : App} {f : ℕ → Byte} (hwf : a.Wf)
    (h : ∀ x < a.image.length, f x = a.file x) : imageNeed f = imageNeed a.file := by
  rw [imageNeed, imageNeed, hwf.imageSize_agree h le_rfl, hwf.ehdr_eq h]

/-- The trap context of a process that has just been given a new image. -/
def execTrap (f : ℕ → Byte) (old : Frame) : Frame :=
  Function.update (Function.update old cxSepc (BitVec.ofNat 64 (ehdrOf f).eEntry)) (cxReg 2)
    (BitVec.ofNat 64 (imageTop f))

/-- The control block of a process that has just been given a new image. -/
def execTask (t : TaskControlBlock) (f : ℕ → Byte) (root : ℕ) : TaskControlBlock :=
  { t with pagetable := ⟨root⟩, ustack := imageTop f, baseSize := imageTop f }

/-- The running process has the image `f` at the table `root`, in the new frames `N` and `D`. -/
structure NewImage (cfg : Config) (k : Kernel) (f : ℕ → Byte) (root : ℕ) (N D : Multiset ℕ)
    (m : Mem) : Prop where
  grows : Grows { k.mem with console := m.console } m {k.cur.cx} (N + D)
  space : Space m.ram root k.cur.cx cfg.trampolinePpn (imageTop f / 4096) N D (imagePages f)
  trap : m.ram k.cur.cx = execTrap f (k.mem.ram k.cur.cx)
  card : (N + D).card ≤ imageNeed f

/-- Why `__sys_exec` stops. -/
inductive ExecStops (cfg : Config) (env : Env cfg) (name : ℕ) (k : Kernel) (e : Halt) : Prop
  | name (h : k.mem.cstring name = .error e)
  | noApp (path : List Byte) (he : e = .panic "no app found\n") (h : cfg.find path = none)
    (hn : k.mem.cstring name = .ok path)
  | overflow (path : List Byte) (he : e = .overflow) (h : ¬ NameFits cfg path)
    (hn : k.mem.cstring name = .ok path)
  | elf (path : List Byte) (a : App) (hn : k.mem.cstring name = .ok path)
    (ha : cfg.find path = some a) (h : elfCheck (a.view env).file = .error e)
  | memory (path : List Byte) (a : App) (hn : k.mem.cstring name = .ok path)
    (ha : cfg.find path = some a) (he : e = .panic "memory is full")
    (h : k.mem.free.card < imageNeed (a.view env).file)
  | read (path : List Byte) (a : App) (hn : k.mem.cstring name = .ok path)
    (ha : cfg.find path = some a) (he : e = .fault) (h : ¬ (a.view env).Readable)
  | stack (path : List Byte) (a : App) (hn : k.mem.cstring name = .ok path)
    (ha : cfg.find path = some a) (h : trapframeVpn ≤ stackPage (a.view env).file)

/-- What `__sys_exec` has done when it starts to free the old memory. -/
structure ExecLoaded (cfg : Config) (env : Env cfg) (name : ℕ) (k : Kernel) (path : List Byte)
    (a : App) (root : ℕ) (N D : Multiset ℕ) (m : Mem) : Prop where
  name : k.mem.cstring name = .ok path
  app : cfg.find path = some a
  image : NewImage cfg k (a.view env).file root N D m
  console : ∃ id, m.console = .printf "find app:%s id:%d\n" [.str path, .num id] :: k.mem.console

/-- The two stores of `__sys_exec` into the trap context. -/
theorem NewImage.of_grows {f : ℕ → Byte} {root : ℕ} {N D : Multiset ℕ} {m₀ m : Mem}
    (hm₀ : m₀.ram = k.mem.ram ∧ m₀.memoryAllocator = k.mem.memoryAllocator)
    (hcx : k.cur.cx ∉ N + D) (hg : Grows m₀ m 0 (N + D))
    (hs : Space m.ram root k.cur.cx cfg.trampolinePpn (imageTop f / 4096) N D (imagePages f))
    (hc : (N + D).card ≤ imageNeed f) :
    NewImage cfg k f root N D ((m.store k.cur.cx cxSepc (BitVec.ofNat 64 (ehdrOf f).eEntry)).store
      k.cur.cx (cxReg 2) (BitVec.ofNat 64 (imageTop f))) := by
  have hcx₀ : m.ram k.cur.cx = k.mem.ram k.cur.cx := by
    rw [hg.frame _ (Multiset.notMem_zero _) hcx, hm₀.1]
  have heq : (m.store k.cur.cx cxSepc (BitVec.ofNat 64 (ehdrOf f).eEntry)).store
      k.cur.cx (cxReg 2) (BitVec.ofNat 64 (imageTop f)) =
      m.storeFrame k.cur.cx (execTrap f (k.mem.ram k.cur.cx)) := by
    have := storeFrame_eq_self m k.cur.cx
    rw [← this, store_storeFrame, store_storeFrame, this, hcx₀]
    rfl
  have hne : ∀ x ∈ N + D, (m.storeFrame k.cur.cx (execTrap f (k.mem.ram k.cur.cx))).ram x =
      m.ram x := fun x hx =>
    Mem.storeFrame_of_ne (fun he : x = k.cur.cx => hcx (he ▸ hx)) _
  rw [heq]
  refine ⟨⟨?_, ?_, fun x hx hxn => ?_, ?_, rfl⟩, ?_, Mem.storeFrame_self _ _, hc⟩
  · have hfree : ({ k.mem with console := m.console } : Mem).free = m₀.free := by
      rw [Mem.free, Mem.free, Mem.recycled, Mem.recycled, hm₀.2]
    exact hfree.trans hg.free
  · have hrec : ({ k.mem with console := m.console } : Mem).recycled = m₀.recycled := by
      rw [Mem.recycled, Mem.recycled, hm₀.2]
    exact hg.recycled.trans hrec.ge
  · rw [Multiset.mem_singleton] at hx
    rw [Mem.storeFrame_of_ne hx, hg.frame x (Multiset.notMem_zero x) hxn, hm₀.1]
  · exact hg.end_eq.trans (by rw [hm₀.2])
  · exact hs.congr (fun x hx => hne x (Multiset.mem_add.mpr (.inl hx)))
      fun x hx => hne x (Multiset.mem_add.mpr (.inr hx))

/-- **The new image beside the old one.** -/
theorem execLoad_spec (h : MemInv cfg k) (hcur : k.cur.taskState ≠ .unInit)
    (hwf : cfg.WellFormed) {name : ℕ} :
    Outcome (execLoad cfg env name k)
      (fun k₁ => ∃ path a root N D m, ExecLoaded cfg env name k path a root N D m ∧
        k₁ = { k with mem := m }.setTask k.current (execTask k.cur (a.view env).file root))
      (ExecStops cfg env name k) := by
  rw [execLoad]
  refine Outcome.bind ((Outcome.self (k.mem.cstring name)).mono (fun _ h => h)
    fun e he => .name he) ?_
  intro path hname
  refine Outcome.bind ((getAppDataByName_spec path k.mem).mono (fun _ h => h) fun e he => ?_) ?_
  · obtain ⟨he, hn⟩ | ⟨he, hn⟩ := he
    · exact .noApp path he hn hname
    · exact .overflow path he hn hname
  rintro ⟨start, m₀⟩ ⟨a, id, ha, hr⟩
  obtain ⟨rfl, rfl⟩ := Prod.mk.inj hr
  have ham := (Config.mem_of_find ha).1
  have hlay := App.view_layout hwf ham env
  refine Outcome.bind ((Outcome.self (elfCheck (a.view env).file)).mono (fun _ h => h)
    fun e he => .elf path a hname ha he) ?_
  rintro - -
  -- the table
  let k₀ : Kernel := { k with mem := k.mem.printf "find app:%s id:%d\n" [.str path, .num id] }
  have ha₀ : Apart k₀.mem k.owned := ⟨h.apart.nodup, h.apart.lt⟩
  have hcxlt : (k₀.tasks k.current).trapCxPpn < 2 ^ 56 := by
    have := h.cx_lt hcur
    rw [TaskControlBlock.cx, pageSize_eq] at this
    change (k.tasks k.current).trapCxPpn < _
    omega
  refine Outcome.bind ((procPagetable_spec (k := k₀) (p := k.current)
    (ha₀.mono (Multiset.zero_le _)) hcxlt).mono (fun _ h => h) fun e he =>
      ExecStops.memory path a hname ha he.1 ?_) ?_
  · have h₁ : k.mem.free.card < 5 := he.2
    rw [imageNeed]
    omega
  rintro _ ⟨root, nt, m₁, hg₁, hnt, hs₁, rfl⟩
  have hcard₁ : k.mem.free.card = nt.card + m₁.free.card := hg₁.card
  have hs₁' : Space m₁.ram root k.cur.cx cfg.trampolinePpn 0 nt 0 fun _ => none := hs₁
  have hself : ∀ t : TaskControlBlock,
      (({ k₀ with mem := m₁ } : Kernel).setTask k.current t).cur = t := fun t =>
    setTask_self _ k.current t
  have hnt₁ : Apart m₁ nt := by
    have := (ha₀.mono (Multiset.zero_le _)).grows hg₁
    rwa [zero_add] at this
  simp only [hself]
  refine Outcome.bind ((loadSegment_spec hlay hnt₁ hs₁').mono (fun _ h => h) fun e he => ?_) ?_
  · obtain (⟨he, hlt⟩ | ⟨he, hr⟩) | hst := he
    · refine .memory path a hname ha he ?_
      rw [imageNeed]
      omega
    · exact .read path a hname ha he hr
    · exact .stack path a hname ha hst
  rintro ⟨u, m₂⟩ ⟨rfl, hgr⟩
  obtain ⟨N, D, hg, hs, hc⟩ := hgr.image hg₁
  have hcx : k.cur.cx ∉ N + D := fun hm =>
    ha₀.new_not_mem hg hm (MemInv.frames_mem hcur (MemInv.cx_mem_frames _ _))
  have hm₀ : k₀.mem.ram = k.mem.ram ∧ k₀.mem.memoryAllocator = k.mem.memoryAllocator := ⟨rfl, rfl⟩
  have himage := NewImage.of_grows hm₀ hcx hg hs (by rw [imageNeed]; omega)
  refine ⟨path, a, root, N, D, _, ⟨hname, ha, himage, id, hg.console⟩, ?_⟩
  simp only [k₀, Kernel.setTask, Kernel.cur, execTask, App.view, Function.update_self,
    Function.update_idem]
  rfl

/-! ## The old memory -/

/-- The frames of a process without its trap page. -/
def TaskControlBlock.ownFrames (ram : ℕ → Frame) (t : TaskControlBlock) : Multiset ℕ :=
  leaves (lookup ram t.pagetable.rootPpn) 0 (t.baseSize / 4096) +
    tableFrames ram t.pagetable.rootPpn

theorem TaskControlBlock.frames_split (ram : ℕ → Frame) (t : TaskControlBlock) :
    t.frames ram = t.ownFrames ram + {t.cx} := by
  rw [frames, ownFrames]
  abel

section Old

variable {name : ℕ} {path : List Byte} {a : App} {root : ℕ} {N D : Multiset ℕ} {m : Mem}
  {f : ℕ → Byte}

/-- The frames of all owners are still theirs, beside the new ones. -/
theorem NewImage.own (h : MemInv cfg k) (hn : NewImage cfg k f root N D m) :
    Own cfg.lo m (k.owned + (N + D)) := by
  have h₀ : Own cfg.lo { k.mem with console := m.console } k.owned := h.own
  exact h₀.grows hn.grows

/-- An owned frame is no new one. -/
theorem NewImage.not_new (h : MemInv cfg k) (hn : NewImage cfg k f root N D m) {x : ℕ}
    (hx : x ∈ k.owned) : x ∉ N + D := (hn.own h).not_mem_right hx

theorem NewImage.agree (h : MemInv cfg k) (hn : NewImage cfg k f root N D m) {x : ℕ}
    (hx : x ∈ k.owned) (hcx : x ≠ k.cur.cx) : m.ram x = k.mem.ram x :=
  hn.grows.frame x (by rwa [Multiset.mem_singleton]) (hn.not_new h hx)

/-- The trap page is apart from the rest of the process. -/
theorem MemInv.cx_not_mem_own (h : MemInv cfg k) {i : Slot} (hi : (k.tasks i).taskState ≠ .unInit) :
    (k.tasks i).cx ∉ (k.tasks i).ownFrames k.mem.ram := fun hm => by
  have ho := h.own.mono (MemInv.taskFrames_le k i)
  rw [Kernel.taskFrames_of_init hi, TaskControlBlock.frames_split] at ho
  exact ho.not_mem_right hm (Multiset.mem_singleton_self _)

/-- **The old memory is given back**, and the trap page is not. -/
theorem freeOld_spec (h : MemInv cfg k) (hcur : k.cur.taskState ≠ .unInit)
    (hn : NewImage cfg k f root N D m) :
    Outcome (freeProcMemory m k.cur.pagetable k.cur.baseSize)
      (fun m' => ∃ d, Frees m m' (tableFrames k.mem.ram k.cur.pagetable.rootPpn)
        (k.cur.ownFrames k.mem.ram) d) fun _ => False := by
  have hown : k.cur.ownFrames k.mem.ram ≤ k.owned := by
    refine le_trans ?_ (MemInv.taskFrames_le k k.current)
    rw [Kernel.taskFrames_of_init hcur]
    exact (k.cur.frames_split k.mem.ram).symm ▸ Multiset.le_add_right _ _
  have hagree : ∀ x ∈ k.cur.ownFrames k.mem.ram, m.ram x = k.mem.ram x := fun x hx =>
    hn.agree h (Multiset.mem_of_le hown hx) fun he => h.cx_not_mem_own hcur (he ▸ hx)
  have hs : Space m.ram k.cur.pagetable.rootPpn k.cur.cx _ (k.cur.baseSize / 4096) _ _ _ :=
    (h.task _ hcur).space.congr (fun x hx => hagree x (Multiset.mem_add.mpr (.inr hx)))
      fun x hx => hagree x (Multiset.mem_add.mpr (.inl hx))
  have ho : Own cfg.lo m (k.cur.ownFrames k.mem.ram) :=
    (hn.own h).mono (hown.trans (Multiset.le_add_right _ _))
  have hfree : Outcome (freeProcMemory m k.cur.pagetable k.cur.baseSize) _ _ :=
    hs.free_space false (h.cx_lt hcur) (by
      simp only [Bool.false_eq_true, if_false, add_zero]
      rwa [TaskControlBlock.ownFrames, add_comm] at ho)
  simp only [Bool.false_eq_true, if_false, zero_add] at hfree
  exact hfree

/-! ## The state after `__sys_exec` -/

/-- `__sys_exec` has loaded the program and given back the old memory. -/
structure Execed (cfg : Config) (env : Env cfg) (name : ℕ) (k : Kernel) (path : List Byte)
    (a : App) (root : ℕ) (N D : Multiset ℕ) (m m' : Mem) : Prop
    extends ExecLoaded cfg env name k path a root N D m where
  frees : ∃ d, Frees m m' (tableFrames k.mem.ram k.cur.pagetable.rootPpn)
    (k.cur.ownFrames k.mem.ram) d

/-- The state `__sys_exec` leaves. -/
def afterExec (k : Kernel) (f : ℕ → Byte) (root : ℕ) (m : Mem) : Kernel :=
  { k with mem := m }.setTask k.current (execTask k.cur f root)

@[simp] theorem afterExec_self (k : Kernel) (f : ℕ → Byte) (root : ℕ) (m : Mem) :
    (afterExec k f root m).tasks k.current = execTask k.cur f root := setTask_self _ _ _

/-- **`__sys_exec`.** -/
theorem sysExec_spec (h : MemInv cfg k) (hcur : k.cur.taskState ≠ .unInit)
    (hwf : cfg.WellFormed) :
    Outcome (sysExec cfg env name k)
      (fun k' => ∃ path a root N D m m', Execed cfg env name k path a root N D m m' ∧
        k' = afterExec k (a.view env).file root m')
      (ExecStops cfg env name k) := by
  rw [sysExec]
  refine Outcome.bind (execLoad_spec h hcur hwf) ?_
  rintro _ ⟨path, a, root, N, D, m, hl, rfl⟩
  refine Outcome.bind ((freeOld_spec h hcur hl.image).mono (fun _ h => h) fun _ he => he.elim) ?_
  intro m' hf
  exact ⟨path, a, root, N, D, m, m', ⟨hl, hf⟩, rfl⟩

theorem imagePages_user {v : ℕ} {q : Byte × Frame} (hq : imagePages f v = some q) :
    (q.1 &&& pteU != 0) = true := by
  have hflags : ∀ x : Byte, ((pteV ||| (pteU ||| x)) &&& pteU != 0) = true := by decide
  have hseg : ∀ n, segmentPages f n v = some q → (q.1 &&& pteU != 0) = true := fun n => by
    induction n with
    | zero => exact fun hq => nomatch hq
    | succ n ih =>
      intro hq
      rw [segmentPages, Option.or_eq_some_iff] at hq
      obtain hq | ⟨-, hq⟩ := hq
      · rw [segmentPage] at hq
        split_ifs at hq
        rw [← Option.some.inj hq]
        exact hflags _
      · exact ih hq
  rw [imagePages] at hq
  by_cases hv : v = stackPage f
  · rw [hv, Function.update_self] at hq
    rw [← Option.some.inj hq]
    decide
  · rw [Function.update_of_ne hv] at hq
    exact hseg _ hq

section After

variable {m' : Mem} (h : MemInv cfg k) (hcur : k.cur.taskState ≠ .unInit)
  (he : Execed cfg env name k path a root N D m m')

include h hcur he

theorem Execed.space : Space m'.ram root k.cur.cx cfg.trampolinePpn
    (imageTop (a.view env).file / 4096) N D (imagePages (a.view env).file) := by
  obtain ⟨d, hf⟩ := he.frees
  have hkeep : ∀ x ∈ N + D, m'.ram x = m.ram x := fun x hx => hf.frame x fun hold =>
    he.image.not_new h (MemInv.frames_mem hcur (by
      rw [TaskControlBlock.frames, add_assoc]
      exact Multiset.mem_add.mpr (.inl hold))) hx
  exact he.image.space.congr (fun x hx => hkeep x (Multiset.mem_add.mpr (.inl hx)))
    fun x hx => hkeep x (Multiset.mem_add.mpr (.inr hx))

omit h hcur in
/-- Frames of others, and the trap page, are not written while the old memory is given back. -/
theorem Execed.keep {x : ℕ} (hx : x ∉ tableFrames k.mem.ram k.cur.pagetable.rootPpn) :
    m'.ram x = m.ram x := by
  obtain ⟨d, hf⟩ := he.frees
  exact hf.frame x hx

theorem Execed.trap : m'.ram k.cur.cx = execTrap (a.view env).file (k.mem.ram k.cur.cx) :=
  (he.keep (h.cx_not_mem_table hcur)).trans he.image.trap

/-- Only the running process has changed. -/
theorem Execed.onlyTask :
    OnlyTask cfg k (afterExec k (a.view env).file root m') k.current where
  kernelPagetable := rfl
  task i hi := by
    rw [afterExec, setTask_of_ne _ hi]
    exact .refl _
  frame x hx := by
    have hnot : x ∉ k.taskFrames k.current := fun hm => h.not_mem_rest hm hx
    rw [Kernel.taskFrames_of_init hcur] at hnot
    have hcx : x ≠ k.cur.cx := fun he => hnot (he ▸ MemInv.cx_mem_frames _ _)
    have hold : x ∉ tableFrames k.mem.ram k.cur.pagetable.rootPpn := fun hm => hnot (by
      rw [TaskControlBlock.frames, add_assoc]
      exact Multiset.mem_add.mpr (.inl hm))
    exact (he.keep hold).trans
      (he.image.agree h (Multiset.mem_of_le (MemInv.rest_le k _) hx) hcx)
  text := by
    have hlo : ∀ x ∈ k.owned, x ≠ cfg.trampolinePpn := fun x hx => h.frame_ne hx
    have hcx := hlo _ (MemInv.frames_mem hcur (MemInv.cx_mem_frames _ _))
    have hold : cfg.trampolinePpn ∉ tableFrames k.mem.ram k.cur.pagetable.rootPpn := fun hm =>
      hlo _ (MemInv.frames_mem hcur (by
        rw [TaskControlBlock.frames, add_assoc]
        exact Multiset.mem_add.mpr (.inl hm))) rfl
    have hnew : cfg.trampolinePpn ∉ N + D := fun hm => by
      have hI := (he.image.own h).mem_Ico (Multiset.mem_add.mpr (.inr hm))
      have := cfg.trampolinePpn_lt_lo
      omega
    exact (he.keep hold).trans (he.image.grows.frame _
      (by rw [Multiset.mem_singleton]; exact hcx.symm) hnew)
  end_eq := by
    obtain ⟨d, hf⟩ := he.frees
    exact hf.end_eq.trans he.image.grows.end_eq

theorem Execed.frames :
    (afterExec k (a.view env).file root m').taskFrames k.current = N + {k.cur.cx} + D := by
  have hi : ((afterExec k (a.view env).file root m').tasks k.current).taskState ≠ .unInit := by
    rw [afterExec_self]
    exact hcur
  rw [Kernel.taskFrames_of_init hi, afterExec_self]
  exact TaskControlBlock.frames_eq (t := execTask k.cur (a.view env).file root) (he.space h hcur)

/-- **The memory invariant after `__sys_exec`.** -/
theorem Execed.memInv : MemInv cfg (afterExec k (a.view env).file root m') := by
  refine h.replace (he.onlyTask h hcur) ?_ fun _ => ?_
  · rw [he.frames h hcur]
    obtain ⟨d, hf⟩ := he.frees
    have ho := he.image.own h
    rw [k.owned_eq k.current, Kernel.taskFrames_of_init hcur,
      TaskControlBlock.frames_split] at ho
    have hsum : k.rest k.current + (k.cur.ownFrames k.mem.ram + {k.cur.cx}) + (N + D) =
        k.rest k.current + (N + {k.cur.cx} + D) + k.cur.ownFrames k.mem.ram := by abel
    have ho' : Own cfg.lo m (k.rest k.current + (N + {k.cur.cx} + D) + k.cur.ownFrames k.mem.ram) :=
      hsum ▸ ho
    exact ho'.frees hf
  · rw [afterExec_self]
    refine .of_space (t := execTask k.cur (a.view env).file root) (he.space h hcur) ?_
      (h.task _ hcur).cxAligned fun v _ q hq => imagePages_user hq
    exact Nat.mul_mod_left _ _

end After

end Old

end RiscvOs
