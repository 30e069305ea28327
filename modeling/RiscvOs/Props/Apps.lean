import RiscvOs.Load.AppTable
import RiscvOs.Kernel.Trap

/-!
# The table of programs is read back

* **`app_table_iff`**: the loader finds every program of a table `build.c` has written, with the
  address, number and extent it was given, exactly if there are no more than `MAX_TASK_NUM` of them.
  `build.c` admits 100; `eleven_apps` has one more than `MAX_TASK_NUM`.
* `getAppDataByName_linked`: the lookup of the kernel's model is the loader's.
-/

set_option autoImplicit false

namespace RiscvOs

open Assembler

/-- The metadata of the `j`-th program: its address and number, an extent that holds its image, and
no byte of another image in it. -/
structure Describes (files : List Byte → List Byte) (apps : List (List Byte)) (base : ℕ)
    (mem : ℕ → Byte) (j : ℕ) (data : AppMetadata) : Prop where
  start : locate files (.appStart j) (linkApp apps) base = some data.start
  id : data.id = j + 1
  image : ∀ name, apps[j]? = some name → Placed mem data.start (files (targetPath name)) ∧
    (files (targetPath name)).length ≤ data.size
  apart : ∀ k name start, k ≠ j → apps[k]? = some name →
    locate files (.appStart k) (linkApp apps) base = some start →
    ∀ a, start ≤ a → a < start + (files (targetPath name)).length →
      ¬(data.start ≤ a ∧ a < data.start + data.size)

/-- `get_app_names` and then `get_app_data_by_name` return the metadata of every name. -/
def ReadsBack (files : List Byte → List Byte) (apps : List (List Byte)) (base : ℕ)
    (mem : ℕ → Byte) : Prop :=
  ∀ s : Loader, ∃ s', s.getAppNames (linkedSyms files apps base mem) = .ok s' ∧
    ∀ j (hj : j < apps.length) path, CStr mem path apps[j] →
      ∃ data s'', s'.getAppDataByName (linkedSyms files apps base mem) path = .ok (data, s'') ∧
        Describes files apps base mem j data

section Table

variable {files : List Byte → List Byte} {apps : List (List Byte)} {base : ℕ} {mem : ℕ → Byte}

theorem image_images (files : List Byte → List Byte) (apps : List (List Byte)) (base j : ℕ) :
    (images files apps base)[j]?.map Placing.image =
      apps[j]?.map fun name => files (targetPath name) := by
  rw [← List.getElem?_map, ← List.getElem?_map, images, map_image_placings]

/-- The image of a program in the table. -/
theorem exists_image (files : List Byte → List Byte) (base : ℕ) {j : ℕ} {name : List Byte}
    (hname : apps[j]? = some name) :
    ∃ hj : j < (images files apps base).length,
      (images files apps base)[j].image = files (targetPath name) := by
  have himage := image_images files apps base j
  rw [hname, Option.map_some, Option.map_eq_some_iff] at himage
  obtain ⟨p, hp, himage⟩ := himage
  obtain ⟨hj, rfl⟩ := List.getElem?_eq_some_iff.mp hp
  exact ⟨hj, himage⟩

theorem Linked.describes (h : Linked files apps base mem) {j : ℕ} (hj : j < apps.length) :
    ∃ data, (linkedSyms files apps base mem).getAppData (j + 1) = .ok data ∧
      Describes files apps base mem j data := by
  have hj' : j < (images files apps base).length := by rwa [Linked.length_images]
  obtain ⟨data, hdata, hstart, hid, hstop, hnext⟩ := h.getAppData hj'
  refine ⟨data, hdata, ?_, hid, fun name hname => ?_, fun k name start hkj hname hk => ?_⟩
  · rw [locate_start, List.getElem?_eq_getElem hj', hstart, Option.map_some]
  · obtain ⟨_, himage⟩ := exists_image files base hname
    have hplaced := (h.placed_images _ (List.getElem_mem hj')).1
    rw [Placing.stop, himage, hstart] at hstop
    rw [himage] at hplaced
    exact ⟨hstart ▸ hplaced, by omega⟩
  · obtain ⟨hk', himage⟩ := exists_image files base hname
    rw [locate_start, List.getElem?_eq_getElem hk', Option.map_some, Option.some.injEq] at hk
    subst hk
    rw [← himage]
    rintro a hle hlt ⟨hge, hlt'⟩
    rcases Nat.lt_or_gt_of_ne hkj with hlt'' | hgt
    · have hbefore := Linked.stop_le_start hlt'' hj'
      rw [Placing.stop] at hbefore
      rw [hstart] at hge
      exact absurd (hlt.trans_le hbefore) (Nat.not_lt.mpr hge)
    · have hafter := hnext k hk' hgt
      omega

theorem Linked.readsBack_iff (h : Linked files apps base mem) (ha : AppNames apps) :
    ReadsBack files apps base mem ↔ apps.length ≤ maxTaskNum := by
  constructor
  · intro hread
    by_contra hfull
    obtain ⟨s', hs', -⟩ := hread ⟨fun _ => 0, []⟩
    rw [h.getAppNames_full ha (Nat.lt_of_not_le hfull)] at hs'
    cases hs'
  · intro hroom s
    obtain ⟨s', hs', hnamed⟩ := h.getAppNames ha hroom s
    refine ⟨s', hs', fun j hj path hpath => ?_⟩
    obtain ⟨data, hdata, hdesc⟩ := h.describes hj
    obtain ⟨s'', hfind⟩ := h.getAppDataByName ha hnamed hj hpath hdata hdesc.id
    exact ⟨data, s'', hfind, hdesc⟩

/-- The lookup of the kernel's model is the loader's, on a configuration with the table's names and
addresses. -/
theorem getAppDataByName_linked (ha : AppNames apps) {cfg : Config}
    (hnames : cfg.apps.map App.name = apps)
    (hstarts : cfg.apps.map App.start = (images files apps base).map Placing.start) {j : ℕ}
    (hj : j < apps.length) {data : AppMetadata} (hdata : Describes files apps base mem j data)
    (m : Mem) : ∃ m', getAppDataByName cfg apps[j] m = .ok (data.start, m') := by
  have hname : ∀ i (hi : i < cfg.apps.length), apps[i]? = some cfg.apps[i].name := by
    intro i hi
    rw [← hnames, List.getElem?_map, List.getElem?_eq_getElem hi, Option.map_some]
  have hlen : cfg.apps.length = apps.length := by rw [← hnames, List.length_map]
  have hfind : cfg.apps.findIdx? (fun a => a.name = apps[j]) = some j := by
    rw [List.findIdx?_eq_some_iff_getElem]
    refine ⟨hlen ▸ hj, decide_eq_true ?_, fun i hij => ?_⟩
    · have hat := hname j (hlen ▸ hj)
      rw [List.getElem?_eq_getElem hj, Option.some.injEq] at hat
      exact hat.symm
    · have hi : i < apps.length := hij.trans hj
      have hat := hname i (hlen ▸ hi)
      rw [List.getElem?_eq_getElem hi, Option.some.injEq] at hat
      rw [decide_eq_true_eq, ← hat, ha.nodup.getElem_inj_iff]
      exact hij.ne
  have hstart : (cfg.apps[j]?).map App.start = some data.start := by
    rw [← List.getElem?_map, hstarts, List.getElem?_map, ← locate_start, hdata.start]
  have hshort := ha.short _ (List.getElem_mem hj)
  have hroom := ha.room
  have hrepr : (Nat.repr (j + 1)).length ≤ 3 := Nat.repr_length (j + 1) 3 (by decide) (by omega)
  rw [getAppDataByName, hfind]
  simp only [printfLen, hstart, if_neg (show ¬1000 ≤ 9 + apps[j].length + 4 +
    (Nat.repr (j + 1)).length + 1 + 1 by omega)]
  exact ⟨_, rfl⟩

end Table

/-! ## A directory of letters -/

/-- The memory that holds just the section, from address 0 on. -/
def sectionOnly (files : List Byte → List Byte) (apps : List (List Byte)) (a : ℕ) : Byte :=
  (assemble files (linkApp apps) 0).getD a 0

theorem linked_sectionOnly {files : List Byte → List Byte} {apps : List (List Byte)}
    (h : counter files (linkApp apps) 0 < 2 ^ 64) :
    Linked files apps 0 (sectionOnly files apps) := by
  refine ⟨rfl, h, fun i hi => ?_⟩
  rw [Nat.zero_add, sectionOnly, List.getD_eq_getElem _ _ hi]

/-- The letters `a` to `k`. -/
def letterName (i : Fin 11) : List Byte := [BitVec.ofNat 8 (97 + i.val)]

theorem letter_noNul (i : Fin 11) : 0 ∉ letterName i := by
  revert i
  decide

/-- A file whose name is a letter. -/
def letterEntry (i : Fin 11) : DirEntry :=
  ⟨letterName i, letter_noNul i, Nat.le_of_ble_eq_true rfl⟩

/-- The first `n` letters. -/
def letterNames (n : ℕ) : List (List Byte) := ((List.finRange 11).take n).map letterName

/-- The directory of these files, which lists the last one first. -/
def letters (n : ℕ) : List DirEntry := (((List.finRange 11).take n).map letterEntry).reverse

theorem fileNames_letters (n : ℕ) : fileNames (letters n) = (letterNames n).reverse := by
  have hletter : ∀ i, ¬skipped (letterName i) := by decide
  have hskip : ∀ e ∈ letters n, decide (¬skipped e.name) = true := by
    intro e he
    obtain ⟨i, -, rfl⟩ := List.mem_map.mp (List.mem_reverse.mp he)
    exact decide_eq_true (hletter i)
  rw [fileNames, List.filter_eq_self.mpr hskip, letters, List.map_reverse, List.map_map]
  rfl

theorem appDir_letters {n : ℕ} (hpos : 1 ≤ n) : AppDir (letters n) := by
  have hletter : ∀ i, Plain (letterName i) := by
    unfold Plain
    decide
  have hinj : Function.Injective letterName := by decide
  refine ⟨?_, ?_, ?_, ?_⟩ <;> rw [fileNames_letters, letterNames]
  · intro name hname
    obtain ⟨i, -, rfl⟩ := List.mem_map.mp (List.mem_reverse.mp hname)
    exact hletter i
  · exact List.nodup_reverse.mpr
      (((List.nodup_finRange 11).sublist (List.take_sublist n _)).map hinj)
  · rw [List.length_reverse, List.length_map, List.length_take, List.length_finRange]
    omega
  · rw [List.length_reverse, List.length_map, List.length_take, List.length_finRange]
    omega

/-- `qsort` puts them in order. -/
theorem qsortApps_letters (n : ℕ) : qsortApps (fileNames (letters n)) = letterNames n := by
  have hsorted : (letterNames 11).Pairwise fun a b => compareStrings a b ≤ 0 := by decide
  have hanti : ∀ i j, compareStrings (letterName i) (letterName j) ≤ 0 →
      compareStrings (letterName j) (letterName i) ≤ 0 → letterName i = letterName j := by decide
  have hsub : (letterNames n).Sublist (letterNames 11) :=
    (List.take_sublist n (List.finRange 11)).map letterName
  have hperm : (qsortApps (fileNames (letters n))).Perm (letterNames n) := by
    refine (qsortApps_perm _).trans ?_
    rw [fileNames_letters]
    exact List.reverse_perm _
  refine hperm.eq_of_pairwise (fun a b ha hb => ?_) (pairwise_qsortApps _) (hsorted.sublist hsub)
  obtain ⟨i, -, rfl⟩ := List.mem_map.mp (hperm.subset ha)
  obtain ⟨j, -, rfl⟩ := List.mem_map.mp hb
  exact hanti i j

/-- A kernel linked with the table of up to eleven files, each of which holds its path. -/
theorem linked_letters (n : Fin 12) : Linked id (qsortApps (fileNames (letters n))) 0
    (sectionOnly id (letterNames n)) := by
  rw [qsortApps_letters]
  refine linked_sectionOnly ?_
  revert n
  decide

/-! ## Reading the table back -/

/-- **The table of programs is read back** exactly if it has no more than `MAX_TASK_NUM` names. What
`build.c` writes for a directory are its file names, sorted. -/
theorem app_table_iff (entries : List DirEntry) (hdir : AppDir entries)
    (files : List Byte → List Byte) (base : ℕ) (mem : ℕ → Byte)
    (h : Linked files (qsortApps (fileNames entries)) base mem) :
    insertAppData entries = .ok (linkApp (qsortApps (fileNames entries))) ∧
      (qsortApps (fileNames entries)).Perm (fileNames entries) ∧
      (qsortApps (fileNames entries)).Pairwise (fun a b => compareStrings a b ≤ 0) ∧
      (ReadsBack files (qsortApps (fileNames entries)) base mem ↔
        (fileNames entries).length ≤ maxTaskNum) := by
  have hperm := qsortApps_perm (fileNames entries)
  refine ⟨insertAppData_eq hdir, hperm, pairwise_qsortApps _, ?_⟩
  rw [h.readsBack_iff hdir.appNames, hperm.length_eq]

/-- Ten programs, in a directory that lists the last one first. -/
theorem app_table_iff_ten : qsortApps (fileNames (letters 10)) = letterNames 10 ∧
    fileNames (letters 10) = (letterNames 10).reverse ∧
    ReadsBack id (qsortApps (fileNames (letters 10))) 0 (sectionOnly id (letterNames 10)) := by
  refine ⟨qsortApps_letters 10, fileNames_letters 10, (app_table_iff (letters 10)
    (appDir_letters (by decide)) id 0 _ (linked_letters 10)).2.2.2.mpr ?_⟩
  rw [fileNames_letters]
  decide

/-- Eleven programs, which `build.c` admits: their eleventh name is written after `app_names`. -/
theorem eleven_apps : AppDir (letters 11) ∧
    (∀ s : Loader, s.getAppNames (linkedSyms id (qsortApps (fileNames (letters 11))) 0
      (sectionOnly id (letterNames 11))) = .error .wild) ∧
    ¬ReadsBack id (qsortApps (fileNames (letters 11))) 0 (sectionOnly id (letterNames 11)) := by
  have hdir : AppDir (letters 11) := appDir_letters (by decide)
  have hlinked := linked_letters 11
  have hfull : maxTaskNum < (qsortApps (fileNames (letters 11))).length := by
    rw [qsortApps_letters]
    decide
  refine ⟨hdir, fun s => hlinked.getAppNames_full hdir.appNames hfull s, fun hread => ?_⟩
  exact absurd ((hlinked.readsBack_iff hdir.appNames).mp hread) (Nat.not_le.mpr hfull)

end RiscvOs
