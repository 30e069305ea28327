import RiscvOs.Sched.Model

/-!
# What has happened

A log of forks, exits and reaps by process id, and what it says about the processes of a state. The
ids are 32 bits of a counter, so all this holds up to the `2 ^ 31`st process.

* `Tree.pid_injective`: no two processes have the same id.
* **`History.apply`**: every process has been forked once; a zombie is one that has exited, and is
  reaped once, by its forker or, if that one has exited since, by slot 0.
-/

set_option autoImplicit false

namespace RiscvOs

open Sched

/-- A log entry. Processes are named by their ids. -/
inductive Entry where
  | fork (parent child : BitVec 32)
  | exit (pid : BitVec 32)
  | reap (father child : BitVec 32)
  deriving DecidableEq

/-- The id of the running process. -/
def Sched.curPid (s : Sched) : BitVec 32 := (s.procs s.current).pid

/-- What an operation adds to the log. -/
def Op.entries (op : Op) (s : Sched) : List Entry :=
  match op with
  | .fork =>
    match s.freeSlot with
    | some _ => [.fork s.curPid (BitVec.ofNat 32 s.nextPid)]
    | none => []
  | .exit => [.exit s.curPid]
  | .reap child => [.reap s.curPid (s.procs child).pid]
  | .skip | .yield => []

variable {s s' : Sched} {op : Op} {log : List Entry}

/-! ## Ids -/

/-- An id that has been given out. -/
def Given (s : Sched) (pid : BitVec 32) : Prop := ∃ n < s.nextPid, pid = BitVec.ofNat 32 n

theorem ofNat_injective {m n : ℕ} (hm : m < 2 ^ 31) (hn : n < 2 ^ 31)
    (h : BitVec.ofNat 32 m = BitVec.ofNat 32 n) : m = n := by
  have := congrArg BitVec.toNat h
  rwa [BitVec.toNat_ofNat, BitVec.toNat_ofNat, Nat.mod_eq_of_lt (by omega),
    Nat.mod_eq_of_lt (by omega)] at this

namespace Tree

theorem given (h : Tree s) {i : Slot} (hi : ¬ s.UnInit i) : Given s (s.procs i).pid := by
  obtain ⟨number, -, hpid, -⟩ := h.number
  exact ⟨number i, (hpid i hi).2, (hpid i hi).1⟩

/-- **No two processes have the same id.** -/
theorem pid_injective (h : Tree s) (hn : s.nextPid ≤ 2 ^ 31) {i j : Slot} (hi : ¬ s.UnInit i)
    (hj : ¬ s.UnInit j) (he : (s.procs i).pid = (s.procs j).pid) : i = j := by
  obtain ⟨number, -, hpid, hinj, -⟩ := h.number
  have h₁ := hpid i hi
  have h₂ := hpid j hj
  rw [h₁.1, h₂.1] at he
  exact hinj i j hi hj (ofNat_injective (by omega) (by omega) he)

end Tree

theorem Given.ne_next {pid : BitVec 32} (h : Given s pid) (hn : s.nextPid < 2 ^ 31) :
    pid ≠ BitVec.ofNat 32 s.nextPid := fun he => by
  obtain ⟨n, hlt, rfl⟩ := h
  exact absurd (ofNat_injective (by omega) hn he) (Nat.ne_of_lt hlt)

theorem Given.mono {pid : BitVec 32} (h : Given s pid) (hn : s.nextPid ≤ s'.nextPid) :
    Given s' pid := by
  obtain ⟨n, hlt, rfl⟩ := h
  exact ⟨n, by omega, rfl⟩

/-! ## The log and the processes -/

/-- The process of slot `i` was forked by its parent, or its forker has exited since and its parent
is slot 0. -/
def ForkedBy (s : Sched) (log : List Entry) (i : Slot) : Prop :=
  ∃ l₁ l₂ q j, log = l₁ ++ .fork q (s.procs i).pid :: l₂ ∧ (s.procs i).parent = some j ∧
    ((s.procs j).pid = q ∨ (.exit q ∈ l₂ ∧ j = 0))

/-- What the log says about the processes of a state. -/
structure History (s : Sched) (log : List Entry) : Prop where
  exited : ∀ pid, .exit pid ∈ log → Given s pid
  reaped : ∀ father pid, .reap father pid ∈ log → Given s pid
  zombie : ∀ i, (s.procs i).taskState = .zombie → .exit (s.procs i).pid ∈ log
  live : ∀ i, s.Live i → .exit (s.procs i).pid ∉ log
  unreaped : ∀ i, ¬ s.UnInit i → ∀ father, .reap father (s.procs i).pid ∉ log
  forked : ∀ i, i ≠ 0 → ¬ s.UnInit i → ForkedBy s log i

namespace History

theorem zombie_iff {i : Slot} : (s.procs i).taskState = .zombie ↔ ¬ s.Live i ∧ ¬ s.UnInit i := by
  rw [Live, UnInit]
  cases (s.procs i).taskState <;> decide

theorem of_sameProcs (h : History s log) (hs : SameProcs s s') : History s' log where
  exited pid hp := (h.exited pid hp).mono hs.nextPid.ge
  reaped father pid hp := (h.reaped father pid hp).mono hs.nextPid.ge
  zombie i hi := by
    rw [zombie_iff, hs.live, hs.unInit, ← zombie_iff] at hi
    rw [hs.pid]
    exact h.zombie i hi
  live i hi := by
    rw [hs.pid]
    exact h.live i ((hs.live i).mp hi)
  unreaped i hi := by
    rw [hs.pid]
    exact h.unreaped i (mt (hs.unInit i).mpr hi)
  forked i hi hu := by
    obtain ⟨l₁, l₂, q, j, hl, hp, hq⟩ := h.forked i hi (mt (hs.unInit i).mpr hu)
    exact ⟨l₁, l₂, q, j, by rw [hs.pid, hl], by rw [hs.parent, hp], by rwa [hs.pid]⟩

/-- An entry after a fork leaves it forked. -/
theorem ForkedBy.append {i : Slot} (h : ForkedBy s log i) (e : Entry)
    (hself : s'.procs i = s.procs i)
    (hparent : ∀ j, (s.procs i).parent = some j → (s'.procs j).pid = (s.procs j).pid) :
    ForkedBy s' (log ++ [e]) i := by
  obtain ⟨l₁, l₂, q, j, rfl, hp, hq⟩ := h
  refine ⟨l₁, l₂ ++ [e], q, j, ?_, by rw [hself, hp], ?_⟩
  · rw [hself, List.append_assoc, List.cons_append]
  · rw [hparent j hp]
    exact hq.imp_right fun hx => ⟨List.mem_append_left _ hx.1, hx.2⟩

theorem fork (h : History s log) (ht : ProcTree s) {p : Slot} (hp : s.freeSlot = some p)
    (hn : s.nextPid < 2 ^ 31) :
    History s.fork (log ++ [.fork s.curPid (BitVec.ofNat 32 s.nextPid)]) := by
  have hpu : s.UnInit p := Tree.unInit_of_freeSlot hp
  have hnext : s.fork.nextPid = s.nextPid + 1 := by rw [Tree.fork_of_free hp]
  have hself := Tree.fork_self hp
  have hne : ∀ {i}, i ≠ p → s.fork.procs i = s.procs i := fun hi => Tree.fork_of_ne hp hi
  have hu : ∀ {i}, i ≠ p → ¬ s.fork.UnInit i → ¬ s.UnInit i := fun hi h => by
    rwa [UnInit, hne hi] at h
  have hexit : ∀ {q}, Entry.exit q ∈ log ++ [.fork s.curPid (BitVec.ofNat 32 s.nextPid)] →
      .exit q ∈ log := fun hq => by simpa using hq
  have hreap : ∀ {f q}, Entry.reap f q ∈ log ++ [.fork s.curPid (BitVec.ofNat 32 s.nextPid)] →
      .reap f q ∈ log := fun hq => by simpa using hq
  refine ⟨fun q hq => (h.exited q (hexit hq)).mono (by omega),
    fun f q hq => (h.reaped f q (hreap hq)).mono (by omega), fun i hi => ?_, fun i hi hx => ?_,
    fun i hi f hx => ?_, fun i hi hui => ?_⟩
  · have hip : i ≠ p := fun he => by
      rw [he, hself] at hi
      cases hi
    rw [hne hip] at hi ⊢
    exact List.mem_append_left _ (h.zombie i hi)
  · by_cases hip : i = p
    · subst hip
      rw [hself] at hx
      exact (h.exited _ (hexit hx)).ne_next hn rfl
    · rw [hne hip] at hx
      exact h.live i (((Tree.live_fork hp).mp hi).resolve_left hip) (hexit hx)
  · by_cases hip : i = p
    · subst hip
      rw [hself] at hx
      exact (h.reaped _ _ (hreap hx)).ne_next hn rfl
    · rw [hne hip] at hx
      exact h.unreaped i (hu hip hi) f (hreap hx)
  · by_cases hip : i = p
    · -- the new process
      subst hip
      have hcur : s.current ≠ i := fun he => ht.current.not_unInit (he ▸ hpu)
      refine ⟨log, [], s.curPid, s.current, by rw [hself], by rw [hself], .inl ?_⟩
      rw [hne hcur]
      rfl
    · refine ForkedBy.append (h.forked i hi (hu hip hui)) _ (hne hip) fun j hj => ?_
      obtain ⟨number, -, -, -, hpar⟩ := ht.number
      obtain ⟨j', hj', hl, -⟩ := hpar i hi (hu hip hui)
      obtain rfl := Option.some.inj (hj.symm.trans hj')
      have hjp : j ≠ p := fun he => hl.not_unInit (he ▸ hpu)
      rw [hne hjp]

theorem zombify (h : History s log) (ht : ProcTree s) (h₀ : s.current ≠ 0)
    (hn : s.nextPid ≤ 2 ^ 31) : History s.zombify (log ++ [.exit s.curPid]) := by
  have hpid : ∀ i, (s.zombify.procs i).pid = (s.procs i).pid := fun i => by
    rw [Tree.zombify_procs]
  have hu : ∀ {i}, ¬ s.zombify.UnInit i → ¬ s.UnInit i := fun h =>
    mt (Tree.unInit_zombify ht.current).mpr h
  refine ⟨fun q hq => ?_, fun f q hq => h.reaped f q (by simpa using hq), fun i hi => ?_,
    fun i hi hx => ?_, fun i hi f hx => ?_, fun i hi hui => ?_⟩
  · obtain hq | hq := List.mem_append.mp hq
    · exact h.exited q hq
    · obtain rfl := Entry.exit.inj (List.mem_singleton.mp hq)
      exact ht.given ht.current.not_unInit
  · rw [hpid]
    by_cases hic : i = s.current
    · subst hic
      exact List.mem_append_right _ (List.mem_singleton.mpr rfl)
    · rw [Tree.zombify_procs, if_neg hic] at hi
      exact List.mem_append_left _ (h.zombie i hi)
  · obtain ⟨hl, hic⟩ := Tree.live_zombify.mp hi
    rw [hpid] at hx
    obtain hx | hx := List.mem_append.mp hx
    · exact h.live i hl hx
    · have he := Entry.exit.inj (List.mem_singleton.mp hx)
      exact hic (ht.pid_injective hn hl.not_unInit ht.current.not_unInit he)
  · rw [hpid] at hx
    exact h.unreaped i (hu hi) f (by simpa using hx)
  · obtain ⟨l₁, l₂, q, j, rfl, hp, hq⟩ := h.forked i hi (hu hui)
    have hpar : (s.zombify.procs i).parent = if j = s.current then some 0 else some j := by
      rw [Tree.zombify_procs, hp]
      simp only [Option.some.injEq]
    refine ⟨l₁, l₂ ++ [.exit s.curPid], q, if j = s.current then 0 else j, ?_, ?_, ?_⟩
    · rw [hpid, List.append_assoc, List.cons_append]
    · rw [hpar]
      split_ifs <;> rfl
    · by_cases hjc : j = s.current
      · -- an orphan goes to slot 0
        rw [if_pos hjc]
        obtain rfl | ⟨-, rfl⟩ := hq
        · exact .inr ⟨List.mem_append_right _ (by rw [hjc]; exact List.mem_singleton.mpr rfl), rfl⟩
        · exact absurd hjc.symm h₀
      · rw [if_neg hjc, hpid]
        exact hq.imp_right fun hx => ⟨List.mem_append_left _ hx.1, hx.2⟩

theorem reap (h : History s log) (ht : ProcTree s) {c : Slot}
    (hc : (s.procs c).taskState = .zombie) (hn : s.nextPid ≤ 2 ^ 31) :
    History (s.reap c) (log ++ [.reap s.curPid (s.procs c).pid]) := by
  have hcu : ¬ s.UnInit c ∧ ¬ s.Live c := (zombie_iff.mp hc).symm
  have hself : (s.reap c).procs c = { s.procs c with taskState := .unInit, parent := none } :=
    Function.update_self _ _ _
  have hne : ∀ {i}, i ≠ c → (s.reap c).procs i = s.procs i := fun hi =>
    Function.update_of_ne hi _ _
  have hic : ∀ {i}, ¬ (s.reap c).UnInit i → i ≠ c := fun hi he => hi (by rw [he, UnInit, hself])
  have hu : ∀ {i}, ¬ (s.reap c).UnInit i → ¬ s.UnInit i := fun hi => by
    have := hi
    rwa [UnInit, hne (hic hi)] at this
  refine ⟨fun q hq => h.exited q (by simpa using hq), fun f q hq => ?_, fun i hi => ?_,
    fun i hi hx => ?_, fun i hi f hx => ?_, fun i hi hui => ?_⟩
  · obtain hq | hq := List.mem_append.mp hq
    · exact h.reaped f q hq
    · obtain ⟨-, rfl⟩ := Entry.reap.inj (List.mem_singleton.mp hq)
      exact ht.given hcu.1
  · have hi' : i ≠ c := fun he => by
      rw [he, hself] at hi
      cases hi
    rw [hne hi'] at hi ⊢
    exact List.mem_append_left _ (h.zombie i hi)
  · have hi' := hic hi.not_unInit
    rw [Live, hne hi'] at hi
    rw [hne hi'] at hx
    exact h.live i hi (by simpa using hx)
  · rw [hne (hic hi)] at hx
    obtain hx | hx := List.mem_append.mp hx
    · exact h.unreaped i (hu hi) f hx
    · obtain ⟨-, he⟩ := Entry.reap.inj (List.mem_singleton.mp hx)
      exact hic hi (ht.pid_injective hn (hu hi) hcu.1 he)
  · refine ForkedBy.append (h.forked i hi (hu hui)) _ (hne (hic hui)) fun j hj => ?_
    obtain ⟨number, -, -, -, hpar⟩ := ht.number
    obtain ⟨j', hj', hl, -⟩ := hpar i hi (hu hui)
    obtain rfl := Option.some.inj (hj.symm.trans hj')
    have hjc : j ≠ c := fun he => hcu.2 (he ▸ hl)
    rw [hne hjc]

/-- **The log stays true.** -/
theorem apply (h : History s log) (ht : ProcTree s) (hop : op.Enabled s)
    (hn : (op.apply s).nextPid ≤ 2 ^ 31) : History (op.apply s) (log ++ op.entries s) := by
  cases op with
  | skip =>
    rw [Op.entries, List.append_nil]
    exact h
  | yield =>
    rw [Op.entries, List.append_nil]
    exact h.of_sameProcs (sameProcs_yield s)
  | fork =>
    cases hp : s.freeSlot with
    | none =>
      simp only [Op.entries, hp, List.append_nil]
      rw [Op.apply, Tree.fork_of_full hp]
      exact h
    | some p =>
      rw [Op.apply, Tree.fork_of_free hp] at hn
      simp only [Op.entries, hp]
      exact h.fork ht hp hn
  | exit =>
    have hz := h.zombify ht (ht.current_ne_zero hop.1)
      ((sameProcs_yield s.zombify).nextPid ▸ hn)
    exact hz.of_sameProcs (sameProcs_yield _)
  | reap c => exact h.reap ht hop hn

end History

end RiscvOs
