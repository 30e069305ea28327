import RiscvOs.Inv.Balance
import RiscvOs.Inv.FirstBoot

/-!
# The tables of the running system

`Built` takes the kernel's operations in any order and with any arguments. Here it meets the runs of
the system: the tables that exist in a reachable state are of that kind.

* `Built.keep`: a table stays one while its frames are not written.
* `OnlyTask.built`, `Level.built`: what a change leaves of the tables.
* **`Moves.built`**: a step, with the tables that `__sys_fork` and `__sys_exec` make.
* **`Reachable.built`**: every table of a reachable state is built.
-/

set_option autoImplicit false

namespace RiscvOs

open PageTableEntry

variable {cfg : Config} {k k' : Kernel} {pt : PageTable}

/-! ## Tables that are kept -/

/-- All tables of a state are built. -/
def TablesBuilt (cfg : Config) (k : Kernel) : Prop := ∀ pt, k.HasTable pt → Built cfg k.mem pt

/-- A table of `k'` that was built before, and whose frames are as they were. -/
theorem Built.keep {m : Mem} (hb : Built cfg m pt) (h : MemInv cfg k') (ht : k'.HasTable pt)
    (hag : ∀ f ∈ tableFrames k'.mem.ram pt.rootPpn, m.ram f = k'.mem.ram f) :
    Built cfg k'.mem pt := by
  have hframes : tableFrames m.ram pt.rootPpn = tableFrames k'.mem.ram pt.rootPpn :=
    Radix.nodes_congr hag
  refine .other hb (fun f hf => (hag f (hframes ▸ hf)).symm) ?_ h.end_eq
  rw [hframes]
  exact h.own.mono (Kernel.table_le_owned ht)

/-- The same, seen from the state before. -/
theorem TablesBuilt.keep (hb : TablesBuilt cfg k) (h : MemInv cfg k') (ht : k.HasTable pt)
    (ht' : k'.HasTable pt)
    (hag : ∀ f ∈ tableFrames k.mem.ram pt.rootPpn, k'.mem.ram f = k.mem.ram f) :
    Built cfg k'.mem pt := by
  have hframes : tableFrames k'.mem.ram pt.rootPpn = tableFrames k.mem.ram pt.rootPpn :=
    Radix.nodes_congr hag
  exact (hb pt ht).keep h ht' fun f hf => (hag f (hframes ▸ hf)).symm

/-- A table that was built before the trap context of its task was written. -/
theorem BuiltBut.built {i : Slot} (h : MemInv cfg k) (hi : (k.tasks i).taskState ≠ .unInit)
    (hb : BuiltBut cfg k.mem (k.tasks i).pagetable (k.tasks i).cx) :
    Built cfg k.mem (k.tasks i).pagetable := by
  obtain ⟨m, hm, hag⟩ := hb
  refine hm.keep h (.inr ⟨i, hi, rfl⟩) fun f hf => (hag f fun he => ?_).symm
  exact h.cx_not_mem_table hi (he ▸ hf)

/-- A change of one task, whose new table is built. -/
theorem OnlyTask.built {c : Slot} (ho : OnlyTask cfg k k' c) (h : MemInv cfg k')
    (hb : TablesBuilt cfg k)
    (hc : (k'.tasks c).taskState ≠ .unInit → Built cfg k'.mem (k'.tasks c).pagetable) :
    TablesBuilt cfg k' := by
  rintro pt (rfl | ⟨i, hi, rfl⟩)
  · refine hb.keep h (.inl ho.kernelPagetable) (.inl rfl) fun f hf => ?_
    rw [ho.kernelPagetable] at hf
    exact ho.frame f (Multiset.mem_of_le (k.kernelTable_le_rest c) hf)
  · by_cases hic : i = c
    · subst hic
      exact hc hi
    · have hsame := ho.task i hic
      have hi₀ : (k.tasks i).taskState ≠ .unInit := fun he => hi (hsame.unInit.mpr he)
      refine hb.keep h (.inr ⟨i, hi₀, hsame.pagetable⟩) (.inr ⟨i, hi, rfl⟩) fun f hf => ?_
      rw [hsame.pagetable] at hf
      refine ho.frames_agree hic hi₀ ?_
      rw [TaskControlBlock.frames, add_assoc]
      exact Multiset.mem_add.mpr (.inl hf)

theorem Level.built (hl : Level k k') (h : MemInv cfg k') (hb : TablesBuilt cfg k) :
    TablesBuilt cfg k' := fun pt ht =>
  hb.keep h (hl.hasTable_iff.mp ht) ht (hl.tables pt (hl.hasTable_iff.mp ht))

/-! ## Steps -/

/-- The table of a new image. Its frames are new, so neither the trap context nor the old memory
that is given back is among them. -/
theorem Execed.built {env : Env cfg} {name root : ℕ} {path : List Byte} {a : App}
    {N D : Multiset ℕ} {m m' : Mem} (h : MemInv cfg k) (hcur : k.cur.taskState ≠ .unInit)
    (he : Execed cfg env name k path a root N D m m') (hb : BuiltBut cfg m ⟨root⟩ k.cur.cx)
    (h' : MemInv cfg (afterExec k (a.view env).file root m')) : Built cfg m' ⟨root⟩ := by
  obtain ⟨m₀, hm₀, hag⟩ := hb
  have ht : (afterExec k (a.view env).file root m').HasTable ⟨root⟩ := by
    refine .inr ⟨k.current, ?_, ?_⟩
    · rw [afterExec_self]
      exact hcur
    · rw [afterExec_self]
      rfl
  refine hm₀.keep h' ht fun f hf => ?_
  have hnew : f ∉ k.owned := fun ho => he.image.not_new h ho (by
    rw [← (he.space h hcur).nodes]
    exact Multiset.mem_add.mpr (.inl hf))
  have hold : f ∉ tableFrames k.mem.ram k.cur.pagetable.rootPpn := fun hm =>
    hnew (Multiset.mem_of_le (Kernel.table_le_owned (.inr ⟨k.current, hcur, rfl⟩)) hm)
  have hcx : f ≠ k.cur.cx := fun heq =>
    hnew (heq ▸ MemInv.frames_mem hcur (MemInv.cx_mem_frames _ _))
  exact ((he.keep hold).trans (hag f hcx)).symm

/-- **A step leaves every table built.** -/
theorem Moves.built (hm : Moves cfg k k') (h : MemInv cfg k') (hb : TablesBuilt cfg k) :
    TablesBuilt cfg k' := by
  cases hm with
  | level hl => exact hl.built h hb
  | fork hl hm hcur hf ht hnew =>
    refine (hf.onlyTask hm).built h (hl.built hm hb) fun hi => BuiltBut.built h hi ?_
    rw [afterFork_self, forkedTask_cx _ _ _ _ hf.lt]
    exact hnew
  | exec hl hm hcur he ht hnew =>
    refine (he.onlyTask hm hcur).built h (hl.built hm hb) fun _ => ?_
    rw [afterExec_self]
    exact he.built hm hcur hnew h
  | @reap k₁ c m out hl hm hz hf =>
    have hu : ((afterFree k₁ c m).tasks c).taskState = .unInit := by
      rw [afterFree_self]
      rfl
    have ho : OnlyTask cfg k₁ { afterFree k₁ c m with mem.console := out } c := by
      have ho := hf.onlyTask hm (zombie_init hz)
      exact ⟨ho.kernelPagetable, ho.task, ho.frame, ho.text, ho.end_eq⟩
    exact ho.built h (hl.built hm hb) fun hi => absurd hu hi

/-! ## Boot -/

section Boot

variable {b : Start cfg}

/-- `load_app`, from what it runs through. -/
theorem appLoaded_of_trace {m₀ m₁ m₂ m : Mem} {im : Image} {cx root u u' : ℕ}
    (ha : Apart m₀ 0) (hlay : WfLayout im.file) (hk : kalloc m₀ = .ok (cx, m₁))
    (ht : procTable cfg m₁ (physAddrFromPhysPageNum cx) = .ok (⟨root⟩, m₂))
    (hl : loadSegment im ⟨root⟩ u m₂ = .ok (u', m)) :
    u' = imageTop im.file ∧ ∃ N D, AppLoaded cfg m₀ im.file cx root N D m := by
  obtain ⟨hg, -⟩ := (kalloc_spec m₀).of_ok hk
  have hlt : cx < 2 ^ 44 := ha.new_lt hg (Multiset.mem_singleton_self cx)
  have hpa := physAddrFromPhysPageNum_eq hlt
  have ha₁ : Apart m₁ 0 := (ha.grows hg).mono (Multiset.zero_le _)
  obtain ⟨nt, hg₁, hnt, hs⟩ := (procTable_spec ha₁ (by omega)).of_ok ht
  rw [physAddrFromPhysPageNum_div hlt] at hs
  have ha₂ : Apart m₂ nt := (ha₁.grows hg₁).mono (Multiset.le_add_left _ _)
  obtain ⟨hu, nt', nd, hg₂, hs₂, hc⟩ := (loadSegment_spec hlay ha₂ hs).of_ok hl
  rw [zero_add] at hs₂
  refine ⟨hu, nt + nt', nd, hlt, ?_, hs₂, ?_⟩
  · have hall := (hg.trans (hg₁.mono (Multiset.zero_le _))).trans
      (hg₂.mono (by rw [zero_add]; exact Multiset.le_add_left _ _))
    have hsum : {cx} + nt + (nd + nt') = {cx} + (nt + nt' + nd) := by abel
    rwa [hsum] at hall
  · rw [Multiset.card_add] at hc
    rw [imageNeed, Multiset.card_add, Multiset.card_add]
    omega

/-- `kvm_make` has built the only table there is. -/
theorem kvminit_built {kroot : ℕ} {m : Mem}
    (hr : kvminit cfg (frameAlloctorInit cfg b) = .ok (kernelReady cfg b kroot m)) :
    TablesBuilt cfg (kernelReady cfg b kroot m) := by
  obtain ⟨k₁, h₁, hr⟩ := exists_of_bind_ok hr
  have hb := Built.kvmMake h₁
  rintro pt (rfl | ⟨i, hi, -⟩)
  · split at hr
    · cases hr
    · rw [← Except.ok.inj hr]
      exact hb
  · exact absurd rfl hi

theorem boot_built (hwf : cfg.WellFormed) (hr : boot cfg b = .ok (.trapReturn, k)) :
    TablesBuilt cfg k := by
  have h := (Inv.boot hwf hr).mem
  obtain ⟨kroot, m₀, app, cx, m₁, root, m₂, u, u', entry, m, h₁, happ, hk, ht, hl, rfl⟩ :=
    boot_trace hr
  obtain ⟨-, -, -, hm, -⟩ := (kvminit_spec b).of_ok h₁
  have hlay := App.view_layout hwf (List.mem_of_mem_head? happ) b.toEnv
  obtain ⟨rfl, N, D, hload⟩ :=
    appLoaded_of_trace (hm.apart.mono (Multiset.zero_le _)) hlay hk ht hl
  obtain ⟨hg, -⟩ := (kalloc_spec m₀).of_ok hk
  have ho : Own cfg.lo m₁ 0 := (hm.own.grows hg).mono (Multiset.zero_le _)
  have hend : m₁.memoryAllocator.end_ = frameEnd := hg.end_eq.trans hm.end_eq
  refine (booted_onlyTask hm hload).built h (kvminit_built h₁) fun hi => BuiltBut.built h hi ?_
  rw [booted_cx hload]
  refine ⟨m, ?_, fun f hf => ?_⟩
  · simp only [booted, Function.update_self]
    exact .loadSegment (.procPagetable ho hend ht) hl
  · rw [booted_mem hload]
    exact Mem.storeFrame_of_ne hf _

end Boot

/-- **The tables of every reachable state are built** by the kernel's operations. -/
theorem Reachable.built {mode : Mode} (hwf : cfg.WellFormed)
    (h : Reachable cfg (.running mode k)) (ht : k.HasTable pt) : Built cfg k.mem pt := by
  suffices Inv cfg mode k ∧ TablesBuilt cfg k from this.2 pt ht
  refine h.invariant (I := fun mode k => Inv cfg mode k ∧ TablesBuilt cfg k)
    (fun b k hb => ⟨.boot hwf hb, boot_built hwf hb⟩) fun e mode k mode' k' hi hst => ?_
  have hinv := (hst.inv hwf hi.1).1
  exact ⟨hinv, (hst.moves hwf hi.1).built hinv.mem hi.2⟩

end RiscvOs
