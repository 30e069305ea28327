import RiscvOs.Load.Link
import RiscvOs.Kernel.State

/-!
# The table of programs, as the loader reads it

`get_app_names`, `get_app_data` and `get_app_data_by_name` of `loader.c`, with `strlen` and `strcmp`
of `printf.c`, on the bytes of the kernel image. An index outside an array ends the model.

* `Loader.getAppNames`, `Loader.getAppDataByName`.
* **`Linked.getAppNames`**, **`Linked.getAppNames_full`**: up to `MAX_TASK_NUM` names are found, and
  one more is written outside `app_names`.
* **`Linked.getAppDataByName`**: the metadata of a name.
-/

set_option autoImplicit false

namespace RiscvOs

open Assembler

/-! ## Strings -/

/-- The bytes before the `NUL`. -/
def readStrFrom (mem : ℕ → Byte) : ℕ → ℕ → Except Halt (List Byte)
  | 0, _ => .error .fault
  | fuel + 1, p =>
    if mem p = 0 then .ok []
    else do
      let rest ← readStrFrom mem fuel (p + 1)
      .ok (mem p :: rest)

/-- The string at `p`, in an address space of 64 bits. -/
def readStr (mem : ℕ → Byte) (p : ℕ) : Except Halt (List Byte) := readStrFrom mem (2 ^ 64 - p) p

/-- `strlen`. -/
def strlen (mem : ℕ → Byte) (p : ℕ) : Except Halt ℕ := do
  let text ← readStr mem p
  .ok text.length

def strcmpFrom (mem : ℕ → Byte) : ℕ → ℕ → ℕ → Except Halt ℤ
  | 0, _, _ => .error .fault
  | fuel + 1, l, r =>
    if mem l = mem r ∧ mem l ≠ 0 ∧ mem r ≠ 0 then strcmpFrom mem fuel (l + 1) (r + 1)
    else if mem l < mem r then .ok (-1)
    else if mem r < mem l then .ok 1
    else .ok 0

/-- `strcmp`. -/
def strcmp (mem : ℕ → Byte) (l r : ℕ) : Except Halt ℤ := strcmpFrom mem (2 ^ 64 - max l r) l r

/-! ## `loader.c` -/

/-- What the loader is linked with: memory, `_num_app` and the number of its words, and
`_app_names`. -/
structure AppSyms where
  mem : ℕ → Byte
  numApp : ℕ
  words : ℕ
  appNames : ℕ

/-- `AppMetadata`. -/
structure AppMetadata where
  start : ℕ
  size : ℕ
  id : ℕ
  deriving DecidableEq

/-- `app_names`, and what was printed. -/
structure Loader where
  appNames : Slot → ℕ
  printed : List Output

/-- `_num_app[i]`. -/
def AppSyms.word (t : AppSyms) (i : ℕ) : Except Halt ℕ :=
  if i < t.words then .ok (readQuad t.mem (t.numApp + 8 * i)) else .error .wild

/-- `get_app_data`. -/
def AppSyms.getAppData (t : AppSyms) (appId : ℕ) : Except Halt AppMetadata := do
  let numApp ← t.word 0
  let start ← t.word appId
  let stop ← t.word (appId + 1)
  if appId ≤ numApp then .ok ⟨start, (stop + 2 ^ 64 - start) % 2 ^ 64, appId⟩
  else .error (.assertion "app_id <= num_app")

namespace Loader

/-- `printf` of a rendering of `len` characters. -/
def printf (fmt : String) (args : List PrintfArg) (len : ℕ) (s : Loader) : Except Halt Loader :=
  if 1000 ≤ len + 1 then .error .overflow
  else .ok { s with printed := .printf fmt args :: s.printed }

/-- `app_names[i]`. -/
def name (s : Loader) (i : ℕ) : Except Halt ℕ :=
  if h : i < maxTaskNum then .ok (s.appNames ⟨i, h⟩) else .error .wild

/-- `app_names[i] = p`. -/
def setName (s : Loader) (i p : ℕ) : Except Halt Loader :=
  if h : i < maxTaskNum then .ok { s with appNames := Function.update s.appNames ⟨i, h⟩ p }
  else .error .wild

/-- Where the next name starts. -/
def nextName (t : AppSyms) (s : Loader) : ℕ → Except Halt ℕ
  | 0 => .ok t.appNames
  | i + 1 => do
    let prev ← s.name i
    let len ← strlen t.mem prev
    .ok (prev + len + 1)

/-- One turn of the loop of `get_app_names`. -/
def addName (t : AppSyms) (s : Loader) (i : ℕ) : Except Halt Loader := do
  let p ← s.nextName t i
  let s ← s.setName i p
  let text ← readStr t.mem p
  s.printf "%s\n" [.str text] (text.length + 1)

/-- `get_app_names`. -/
def getAppNames (t : AppSyms) (s : Loader) : Except Halt Loader := do
  let appNum ← t.word 0
  let s ← s.printf "<<<<<  Apps  >>>>>\n" [] 19
  let s ← s.printf "num app:%d\n" [.num appNum] (9 + (Nat.repr appNum).length)
  (List.range appNum).foldlM (addName t) s

/-- The loop of `get_app_data_by_name`, with the number of names left. -/
def findApp (t : AppSyms) (path : ℕ) (s : Loader) : ℕ → ℕ → Except Halt (AppMetadata × Loader)
  | 0, _ => .error (.panic "no app found\n")
  | left + 1, i => do
    let p ← s.name i
    let c ← strcmp t.mem path p
    if c = 0 then do
      let metadata ← t.getAppData (i + 1)
      let text ← readStr t.mem path
      let s ← s.printf "find app:%s id:%d\n" [.str text, .num metadata.id]
        (9 + text.length + 4 + (Nat.repr metadata.id).length + 1)
      .ok (metadata, s)
    else findApp t path s left (i + 1)

/-- `get_app_data_by_name`. -/
def getAppDataByName (t : AppSyms) (path : ℕ) (s : Loader) :
    Except Halt (AppMetadata × Loader) := do
  let appNum ← t.word 0
  s.findApp t path appNum 0

end Loader

/-! ## Strings of memory -/

namespace CStr

variable {mem : ℕ → Byte} {p : ℕ} {text : List Byte}

theorem head (h : CStr mem p []) : mem p = 0 := by
  have hat := h.placed 0 (by simp)
  simpa using hat

theorem cons {c : Byte} (h : CStr mem p (c :: text)) :
    mem p = c ∧ c ≠ 0 ∧ CStr mem (p + 1) text := by
  have hat := h.placed 0 (by simp)
  obtain ⟨-, hrest⟩ := placed_append.mp (show Placed mem p ([c] ++ (text ++ [0])) from h.placed)
  have hfits := h.fits
  rw [List.length_cons] at hfits
  have hc : c ≠ 0 := fun hc => h.noNul (hc ▸ List.mem_cons_self)
  exact ⟨by simpa using hat, hc, hrest, fun hmem => h.noNul (List.mem_cons_of_mem c hmem), by omega⟩

theorem readStrFrom (h : CStr mem p text) {fuel : ℕ} (hfuel : text.length < fuel) :
    readStrFrom mem fuel p = .ok text := by
  induction text generalizing p fuel with
  | nil =>
    obtain ⟨fuel, rfl⟩ : ∃ f, fuel = f + 1 := ⟨fuel - 1, by simp at hfuel; omega⟩
    rw [RiscvOs.readStrFrom, if_pos h.head]
  | cons c text ih =>
    obtain ⟨hc, hne, hrest⟩ := h.cons
    rw [List.length_cons] at hfuel
    obtain ⟨fuel, rfl⟩ : ∃ f, fuel = f + 1 := ⟨fuel - 1, by omega⟩
    rw [RiscvOs.readStrFrom, hc, if_neg hne, ih hrest (by omega), ok_bind]

theorem readStr (h : CStr mem p text) : readStr mem p = .ok text :=
  h.readStrFrom (by have := h.fits; omega)

theorem strlen (h : CStr mem p text) : strlen mem p = .ok text.length := by
  rw [RiscvOs.strlen, h.readStr, ok_bind]

/-- The bytes at which `strcmp` stops. -/
theorem strcmpFrom_stop {l r : ℕ} (h : ¬(mem l = mem r ∧ mem l ≠ 0 ∧ mem r ≠ 0)) (fuel : ℕ) :
    ∃ c, strcmpFrom mem (fuel + 1) l r = .ok c ∧ (c = 0 ↔ mem l = mem r) := by
  rw [RiscvOs.strcmpFrom, if_neg h]
  split_ifs with hlt hgt
  · exact ⟨-1, rfl, by simpa using fun heq : mem l = mem r => BitVec.lt_irrefl _ (heq ▸ hlt)⟩
  · exact ⟨1, rfl, by simpa using fun heq : mem l = mem r => BitVec.lt_irrefl _ (heq ▸ hgt)⟩
  · refine ⟨0, rfl, iff_of_true rfl (BitVec.eq_of_toNat_eq ?_)⟩
    rw [BitVec.lt_def] at hlt hgt
    omega

theorem strcmpFrom {l r : ℕ} {s s' : List Byte} (hl : CStr mem l s) (hr : CStr mem r s')
    {fuel : ℕ} (hfuel : min s.length s'.length < fuel) :
    ∃ c, strcmpFrom mem fuel l r = .ok c ∧ (c = 0 ↔ s = s') := by
  obtain ⟨fuel, rfl⟩ : ∃ f, fuel = f + 1 := ⟨fuel - 1, by omega⟩
  induction s generalizing l r s' fuel with
  | nil =>
    obtain ⟨c, hc, hiff⟩ := strcmpFrom_stop (r := r) (fun h => h.2.1 hl.head) fuel
    refine ⟨c, hc, hiff.trans ?_⟩
    cases s' with
    | nil => exact iff_of_true (hl.head.trans hr.head.symm) rfl
    | cons b s' =>
      obtain ⟨hb, hne, -⟩ := hr.cons
      rw [hl.head, hb]
      exact iff_of_false hne.symm (List.cons_ne_nil b s').symm
  | cons a s ih =>
    obtain ⟨ha, hane, hs⟩ := hl.cons
    cases s' with
    | nil =>
      obtain ⟨c, hc, hiff⟩ := strcmpFrom_stop (l := l) (fun h => h.2.2 hr.head) fuel
      refine ⟨c, hc, hiff.trans ?_⟩
      rw [hr.head, ha]
      exact iff_of_false hane (List.cons_ne_nil a s)
    | cons b s' =>
      obtain ⟨hb, hbne, hs'⟩ := hr.cons
      by_cases hab : a = b
      · rw [List.length_cons, List.length_cons] at hfuel
        obtain ⟨f, rfl⟩ : ∃ f, fuel = f + 1 := ⟨fuel - 1, by omega⟩
        obtain ⟨c, hc, hiff⟩ := ih hs hs' f (by omega)
        refine ⟨c, ?_, hiff.trans ?_⟩
        · rw [RiscvOs.strcmpFrom, if_pos ⟨by rw [ha, hb, hab], ha ▸ hane, hb ▸ hbne⟩]
          exact hc
        · rw [hab, List.cons_inj_right]
      · obtain ⟨c, hc, hiff⟩ := strcmpFrom_stop (fun h => hab (ha ▸ hb ▸ h.1)) fuel
        refine ⟨c, hc, hiff.trans ?_⟩
        rw [ha, hb]
        exact iff_of_false hab fun heq => hab (List.cons.inj heq).1

/-- `strcmp` tells whether two strings are the same. -/
theorem strcmp {l r : ℕ} {s s' : List Byte} (hl : CStr mem l s) (hr : CStr mem r s') :
    ∃ c, strcmp mem l r = .ok c ∧ (c = 0 ↔ s = s') := by
  have hs := hl.fits
  have hs' := hr.fits
  exact hl.strcmpFrom hr (by omega)

end CStr

/-! ## The loader on a table of `build.c` -/

theorem Loader.printf_ok (fmt : String) (args : List PrintfArg) {len : ℕ} (h : len + 1 < 1000)
    (s : Loader) : ∃ s', s.printf fmt args len = .ok s' ∧ s'.appNames = s.appNames := by
  rw [Loader.printf, if_neg (by omega)]
  exact ⟨_, rfl, rfl⟩

theorem Loader.name_of_lt (s : Loader) {i : ℕ} (h : i < maxTaskNum) :
    s.name i = .ok (s.appNames ⟨i, h⟩) :=
  dif_pos h

theorem exists_range_eq_append {m n : ℕ} (h : m < n) :
    ∃ rest, List.range n = List.range m ++ m :: rest := by
  obtain ⟨left, rfl⟩ := Nat.exists_eq_add_of_lt h
  rw [Nat.add_assoc, List.range_add, List.range_succ_eq_map, List.map_cons, Nat.add_zero]
  exact ⟨_, rfl⟩

/-- The symbols of a kernel linked with the table. -/
def linkedSyms (files : List Byte → List Byte) (apps : List (List Byte)) (base : ℕ)
    (mem : ℕ → Byte) : AppSyms where
  mem := mem
  numApp := (locate files .numApp (linkApp apps) base).getD 0
  words := apps.length + 2
  appNames := (locate files .appNames (linkApp apps) base).getD 0

namespace Linked

variable {files : List Byte → List Byte} {apps : List (List Byte)} {base : ℕ} {mem : ℕ → Byte}

theorem word {i : ℕ} (hi : i < apps.length + 2) :
    (linkedSyms files apps base mem).word i = .ok (readQuad mem (base + 8 * i)) := by
  rw [AppSyms.word, linkedSyms, locate_numApp]
  exact if_pos hi

theorem word_zero (h : Linked files apps base mem) :
    (linkedSyms files apps base mem).word 0 = .ok apps.length := by
  rw [word (Nat.succ_pos _), Nat.mul_zero, Nat.add_zero, h.readQuad_count]

theorem appNames : (linkedSyms files apps base mem).appNames = namesPos apps base := by
  rw [linkedSyms, locate_appNames]
  rfl

/-- The names `get_app_names` has found after `n` turns. -/
def Named (files : List Byte → List Byte) (apps : List (List Byte)) (base n : ℕ) (s : Loader) :
    Prop :=
  ∀ i < n, s.name i = .ok (nameAt files apps base i)

section Names

variable (h : Linked files apps base mem) (ha : AppNames apps)

include h ha

theorem nextName {n : ℕ} {s : Loader} (hs : Named files apps base n s) (hn : n ≤ apps.length) :
    s.nextName (linkedSyms files apps base mem) n = .ok (nameAt files apps base n) := by
  cases n with
  | zero =>
    rw [Loader.nextName, appNames]
    rfl
  | succ n =>
    have hstr : strlen (linkedSyms files apps base mem).mem (nameAt files apps base n) =
        .ok (apps.get ⟨n, hn⟩).length := (h.name ha hn).strlen
    rw [Loader.nextName, hs n (Nat.lt_succ_self n), ok_bind, hstr, ok_bind, nameAt_succ hn]
    rfl

/-- `get_app_names` up to its loop. -/
theorem getAppNames_eq (s : Loader) :
    ∃ s', s.getAppNames (linkedSyms files apps base mem) =
      (List.range apps.length).foldlM (Loader.addName (linkedSyms files apps base mem)) s' := by
  have hrepr : (Nat.repr apps.length).length ≤ 3 :=
    Nat.repr_length apps.length 3 (by decide) (Nat.lt_of_le_of_lt ha.room (by decide))
  obtain ⟨s₁, hs₁, -⟩ := Loader.printf_ok "<<<<<  Apps  >>>>>\n" [] (show 19 + 1 < 1000 by omega) s
  obtain ⟨s₂, hs₂, -⟩ := Loader.printf_ok "num app:%d\n" [.num apps.length]
    (show 9 + (Nat.repr apps.length).length + 1 < 1000 by omega) s₁
  refine ⟨s₂, ?_⟩
  rw [Loader.getAppNames, h.word_zero, ok_bind, hs₁, ok_bind, hs₂, ok_bind]

/-- A turn of `get_app_names` that has room. -/
theorem addName {n : ℕ} {s : Loader} (hs : Named files apps base n s) (hn : n < apps.length)
    (hroom : n < maxTaskNum) :
    ∃ s', s.addName (linkedSyms files apps base mem) n = .ok s' ∧
      Named files apps base (n + 1) s' := by
  have hstr : readStr (linkedSyms files apps base mem).mem (nameAt files apps base n) =
      .ok apps[n] := (h.name ha hn).readStr
  have hlen := ha.short _ (List.getElem_mem hn)
  obtain ⟨s', hs', hnames⟩ := Loader.printf_ok "%s\n" [.str apps[n]]
    (show apps[n].length + 1 + 1 < 1000 by omega)
    { s with appNames := Function.update s.appNames ⟨n, hroom⟩ (nameAt files apps base n) }
  refine ⟨s', ?_, fun i hi => ?_⟩
  · rw [Loader.addName, h.nextName ha hs hn.le, ok_bind, Loader.setName, dif_pos hroom, ok_bind,
      hstr, ok_bind, hs']
  · have hi' : i < maxTaskNum := by omega
    have hupdate : s'.appNames =
        Function.update s.appNames ⟨n, hroom⟩ (nameAt files apps base n) := hnames
    rw [Loader.name_of_lt s' hi', hupdate]
    by_cases heq : i = n
    · subst heq
      rw [Function.update_self]
    · have hold := hs i (by omega)
      rw [Loader.name_of_lt s hi'] at hold
      rw [Function.update_of_ne fun hfin => heq (congrArg Fin.val hfin)]
      exact hold

/-- The turns of `get_app_names` that have room. -/
theorem foldlM_addName (s : Loader) {n : ℕ} (hn : n ≤ apps.length) (hroom : n ≤ maxTaskNum) :
    ∃ s', (List.range n).foldlM (Loader.addName (linkedSyms files apps base mem)) s = .ok s' ∧
      Named files apps base n s' := by
  induction n with
  | zero => exact ⟨s, rfl, fun i hi => absurd hi (Nat.not_lt_zero i)⟩
  | succ n ih =>
    obtain ⟨s₁, hfold, hs₁⟩ := ih (Nat.le_of_succ_le hn) (Nat.le_of_succ_le hroom)
    obtain ⟨s₂, hadd, hs₂⟩ := h.addName ha hs₁ hn hroom
    refine ⟨s₂, ?_, hs₂⟩
    rw [List.range_succ, List.foldlM_append, hfold, ok_bind, List.foldlM_cons, hadd, ok_bind]
    rfl

/-- **Up to `MAX_TASK_NUM` names are found.** -/
theorem getAppNames (hroom : apps.length ≤ maxTaskNum) (s : Loader) :
    ∃ s', s.getAppNames (linkedSyms files apps base mem) = .ok s' ∧
      Named files apps base apps.length s' := by
  obtain ⟨s₁, hs₁⟩ := h.getAppNames_eq ha s
  rw [hs₁]
  exact h.foldlM_addName ha s₁ le_rfl hroom

/-- **One name more** is written outside `app_names`. -/
theorem getAppNames_full (hfull : maxTaskNum < apps.length)
    (s : Loader) : s.getAppNames (linkedSyms files apps base mem) = .error .wild := by
  obtain ⟨s₁, hs₁⟩ := h.getAppNames_eq ha s
  obtain ⟨s₂, hfold, hs₂⟩ := h.foldlM_addName ha s₁ hfull.le le_rfl
  obtain ⟨rest, hrest⟩ := exists_range_eq_append hfull
  rw [hs₁, hrest, List.foldlM_append, hfold, ok_bind, List.foldlM_cons, Loader.addName,
    h.nextName ha hs₂ hfull.le, ok_bind, Loader.setName, dif_neg (Nat.lt_irrefl _)]
  rfl

end Names

section Lookup

variable (h : Linked files apps base mem)

include h

omit h in
theorem length_images (files : List Byte → List Byte) (apps : List (List Byte)) (base : ℕ) :
    (images files apps base).length = apps.length :=
  length_placings apps _

omit h in
theorem stop_le_start {j k : ℕ} (hjk : j < k) (hk : k < (images files apps base).length) :
    ((images files apps base).get ⟨j, hjk.trans hk⟩).stop ≤ (images files apps base)[k].start :=
  List.pairwise_iff_getElem.mp (pairwise_placings apps _) j k (hjk.trans hk) hk hjk

/-- The word after the one of an image: the next image's, or the end of the last. -/
theorem readQuad_next {j : ℕ} (hj : j < (images files apps base).length) :
    (images files apps base)[j].stop ≤ readQuad mem (base + 8 * (j + 2)) ∧
      readQuad mem (base + 8 * (j + 2)) < 2 ^ 64 ∧
      ∀ k (hk : k < (images files apps base).length), j < k →
        readQuad mem (base + 8 * (j + 2)) ≤ (images files apps base)[k].start := by
  have hlen := length_images files apps base
  by_cases hlast : j + 1 < (images files apps base).length
  · rw [h.readQuad_start hlast]
    refine ⟨stop_le_start (Nat.lt_succ_self j) hlast, ?_, fun k hk hjk => ?_⟩
    · exact (Nat.le_add_right _ _).trans_lt (h.placed_images _ (List.getElem_mem hlast)).2
    · rcases Nat.eq_or_lt_of_le (Nat.succ_le_of_lt hjk) with heq | hlt
      · subst heq
        exact le_rfl
      · exact (Nat.le_add_right _ _).trans (stop_le_start hlt hk)
  · rw [h.readQuad_end hj (by omega)]
    exact ⟨le_rfl, (h.placed_images _ (List.getElem_mem hj)).2, fun k hk hjk => by omega⟩

/-- `get_app_data`: the image starts at its address, and ends where the next one starts. -/
theorem getAppData {j : ℕ} (hj : j < (images files apps base).length) :
    ∃ data, (linkedSyms files apps base mem).getAppData (j + 1) = .ok data ∧
      data.start = (images files apps base)[j].start ∧ data.id = j + 1 ∧
      (images files apps base)[j].stop ≤ data.start + data.size ∧
      ∀ k (hk : k < (images files apps base).length), j < k →
        data.start + data.size ≤ (images files apps base)[k].start := by
  have hlen := length_images files apps base
  obtain ⟨hstop, hlt, hnext⟩ := h.readQuad_next hj
  have hle : (images files apps base)[j].start ≤ (images files apps base)[j].stop :=
    Nat.le_add_right _ _
  have hsize (start next : ℕ) (hle : start ≤ next) (hlt : next < 2 ^ 64) :
      start + (next + 2 ^ 64 - start) % 2 ^ 64 = next := by omega
  have hend := hsize _ _ (hle.trans hstop) hlt
  refine ⟨⟨_, _, j + 1⟩, ?_, rfl, rfl, hstop.trans_eq hend.symm, fun k hk hjk => ?_⟩
  · rw [AppSyms.getAppData, h.word_zero, ok_bind, word (by omega), ok_bind, word (by omega),
      ok_bind,
      if_pos (by omega), h.readQuad_start hj]
  · exact hend.trans_le (hnext k hk hjk)

/-- `strcmp` of a path and a name of the table. -/
theorem strcmp_name (ha : AppNames apps) {path i : ℕ} {text : List Byte}
    (hpath : CStr mem path text) (hi : i < apps.length) :
    ∃ c, strcmp (linkedSyms files apps base mem).mem path (nameAt files apps base i) = .ok c ∧
      (c = 0 ↔ text = apps[i]) :=
  hpath.strcmp (h.name ha hi)

/-- The loop of `get_app_data_by_name`, from a name before the one it looks for. -/
theorem findApp (ha : AppNames apps) {s : Loader} (hs : Named files apps base apps.length s)
    {j path : ℕ} (hj : j < apps.length)
    (hpath : CStr mem path apps[j]) {data : AppMetadata}
    (hdata : (linkedSyms files apps base mem).getAppData (j + 1) = .ok data) (hid : data.id = j + 1)
    {i : ℕ} (hi : i ≤ j) :
    ∃ s', s.findApp (linkedSyms files apps base mem) path (apps.length - i) i = .ok (data, s') := by
  -- The names still to pass before the one that is looked for.
  induction hd : j - i generalizing i with
  | zero =>
    obtain rfl : i = j := by omega
    obtain ⟨left, hleft⟩ : ∃ left, apps.length - i = left + 1 := ⟨apps.length - i - 1, by omega⟩
    obtain ⟨c, hc, hiff⟩ := h.strcmp_name ha hpath hj
    have hstr : readStr (linkedSyms files apps base mem).mem path = .ok apps[i] := hpath.readStr
    have hlen := ha.short _ (List.getElem_mem hj)
    have hcard := ha.room
    have hrepr : (Nat.repr data.id).length ≤ 3 := Nat.repr_length data.id 3 (by decide) (by omega)
    obtain ⟨s', hs', -⟩ := Loader.printf_ok "find app:%s id:%d\n" [.str apps[i], .num data.id]
      (show 9 + apps[i].length + 4 + (Nat.repr data.id).length + 1 + 1 < 1000 by omega) s
    refine ⟨s', ?_⟩
    rw [hleft, Loader.findApp, hs i hj, ok_bind, hc, ok_bind, if_pos (hiff.mpr rfl), hdata, ok_bind,
      hstr, ok_bind, hs', ok_bind]
  | succ d ih =>
    obtain ⟨left, hleft⟩ : ∃ left, apps.length - i = left + 1 := ⟨apps.length - i - 1, by omega⟩
    have hi' : i < apps.length := by omega
    obtain ⟨c, hc, hiff⟩ := h.strcmp_name ha hpath hi'
    have hne : c ≠ 0 := fun hc0 => by
      have := (List.Nodup.getElem_inj_iff ha.nodup).mp (hiff.mp hc0)
      omega
    obtain ⟨s', hs'⟩ := ih (i := i + 1) (by omega) (by omega)
    rw [show apps.length - (i + 1) = left by omega] at hs'
    refine ⟨s', ?_⟩
    rw [hleft, Loader.findApp, hs i hi', ok_bind, hc, ok_bind, if_neg hne, hs']

/-- **`get_app_data_by_name`** returns the metadata of the name it is given. -/
theorem getAppDataByName (ha : AppNames apps) {s : Loader}
    (hs : Named files apps base apps.length s) {j path : ℕ} (hj : j < apps.length)
    (hpath : CStr mem path apps[j]) {data : AppMetadata}
    (hdata : (linkedSyms files apps base mem).getAppData (j + 1) = .ok data)
    (hid : data.id = j + 1) :
    ∃ s', s.getAppDataByName (linkedSyms files apps base mem) path = .ok (data, s') := by
  rw [Loader.getAppDataByName, h.word_zero, ok_bind]
  exact h.findApp ha hs hj hpath hdata hid (Nat.zero_le j)

end Lookup

end Linked

end RiscvOs
