import RiscvOs.Base.Assembler
import RiscvOs.Print.Format

/-!
# The table of programs, as `build.c` writes it

`insert_app_data` lists the files of `user/bin`, sorts their names and writes `link_app.S`. Its
directives are those of one data section; `.section` and `.global` leave no bytes, and its first
`.align` stands before the section.

* `insertAppData`, `linkApp`.
* `placings`, `images`: where the images lie.
* **`insertAppData_eq`**: what is written for a directory of plain names.
* `Linked`, with `Linked.quad`, `Linked.name`, `Linked.placed_images`: what memory holds then.
-/

set_option autoImplicit false

namespace RiscvOs

open Assembler

/-! ## `build.c` -/

/-- What `readdir` returns: a name of at most 255 bytes. -/
structure DirEntry where
  name : List Byte
  noNul : 0 ∉ name
  short : name.length ≤ 255

/-- The entries `.` and `..` are skipped. -/
def skipped (name : List Byte) : Prop :=
  name.getD 0 0 = ch '.' ∧
    (name.getD 1 0 = 0 ∨ name.getD 1 0 = ch '.' ∧ name.getD 2 0 = 0)

instance (name : List Byte) : Decidable (skipped name) := by unfold skipped; infer_instance

/-- A name up to its first dot. -/
def removeExt (name : List Byte) : List Byte := name.takeWhile fun c => c ≠ ch '.'

/-- The loop over the directory. `apps` has room for 100 names. -/
def collectApp (apps : List (List Byte)) (e : DirEntry) : Except Halt (List (List Byte)) :=
  if skipped e.name then .ok apps
  else if apps.length < 100 then .ok (apps ++ [removeExt e.name])
  else .error .wild

/-- `compare_strings`. -/
def compareStrings : List Byte → List Byte → ℤ
  | [], [] => 0
  | [], _ :: _ => -1
  | _ :: _, [] => 1
  | a :: as, b :: bs => if a = b then compareStrings as bs else if a < b then -1 else 1

/-- `qsort` with `compare_strings`. -/
def qsortApps (apps : List (List Byte)) : List (List Byte) :=
  apps.mergeSort fun a b => compareStrings a b ≤ 0

/-- The labels of `link_app.S`. -/
inductive AppLabel where
  | numApp
  | appNames
  | appStart (i : ℕ)
  | appEnd (i : ℕ)
  deriving DecidableEq

/-- `TARGET_PATH` and a name. -/
def targetPath (name : List Byte) : List Byte := "../user/bin/".toList.map ch ++ name

/-- The words from `_num_app` on. -/
def quadDirectives (n : ℕ) : List (Directive AppLabel) :=
  .quad n :: (List.range n).map (fun i => .quadOf (.appStart i)) ++ [.quadOf (.appEnd (n - 1))]

/-- The images, numbered from `i` on. -/
def imageDirectives : ℕ → List (List Byte) → List (Directive AppLabel)
  | _, [] => []
  | i, name :: apps =>
    .align 3 :: .label (.appStart i) :: .incbin (targetPath name) :: .label (.appEnd i) ::
      imageDirectives (i + 1) apps

/-- `link_app.S` for a list of names. -/
def linkApp (apps : List (List Byte)) : List (Directive AppLabel) :=
  .label .numApp :: quadDirectives apps.length ++
    (.label .appNames :: apps.map .string ++ imageDirectives 0 apps)

/-- `insert_app_data`. -/
def insertAppData (entries : List DirEntry) : Except Halt (List (Directive AppLabel)) := do
  let apps ← entries.foldlM collectApp []
  .ok (linkApp (qsortApps apps))

/-! ## Directories of plain names -/

/-- No dot, and nothing that a string of the assembler gives a meaning. -/
def Plain (name : List Byte) : Prop := ch '.' ∉ name ∧ ch '\\' ∉ name ∧ ch '"' ∉ name

/-- The names of the files in a directory. -/
def fileNames (entries : List DirEntry) : List (List Byte) :=
  (entries.filter fun e => ¬skipped e.name).map DirEntry.name

/-- A directory of 1 to 100 files with distinct plain names. -/
structure AppDir (entries : List DirEntry) : Prop where
  plain : ∀ name ∈ fileNames entries, Plain name
  nodup : (fileNames entries).Nodup
  pos : 1 ≤ (fileNames entries).length
  room : (fileNames entries).length ≤ 100

/-- The names of a table. -/
structure AppNames (apps : List (List Byte)) : Prop where
  noNul : ∀ name ∈ apps, 0 ∉ name
  short : ∀ name ∈ apps, name.length ≤ 255
  nodup : apps.Nodup
  room : apps.length ≤ 100

theorem removeExt_of_plain {name : List Byte} (h : Plain name) : removeExt name = name :=
  List.takeWhile_eq_self_iff.mpr fun c hc =>
    decide_eq_true fun hdot : c = ch '.' => h.1 (hdot ▸ hc)

theorem collect_append {entries : List DirEntry} (hplain : ∀ name ∈ fileNames entries, Plain name)
    {apps : List (List Byte)} (hroom : apps.length + (fileNames entries).length ≤ 100) :
    entries.foldlM collectApp apps = .ok (apps ++ fileNames entries) := by
  induction entries generalizing apps with
  | nil => exact congrArg Except.ok (List.append_nil apps).symm
  | cons e entries ih =>
    rw [List.foldlM_cons, collectApp]
    by_cases hskip : skipped e.name
    · have hnames : fileNames (e :: entries) = fileNames entries := by
        simp [fileNames, hskip]
      rw [hnames] at hplain hroom ⊢
      rw [if_pos hskip, ok_bind]
      exact ih hplain hroom
    · have hnames : fileNames (e :: entries) = e.name :: fileNames entries := by
        simp [fileNames, hskip]
      rw [hnames] at hplain hroom ⊢
      rw [List.length_cons] at hroom
      rw [if_neg hskip, if_pos (by omega), ok_bind,
        removeExt_of_plain (hplain e.name List.mem_cons_self),
        ih (fun name hname => hplain name (List.mem_cons_of_mem _ hname)), List.append_assoc]
      · rfl
      · rw [List.length_append, List.length_singleton]
        omega

/-- **What is written for a directory of plain names.** -/
theorem insertAppData_eq {entries : List DirEntry} (h : AppDir entries) :
    insertAppData entries = .ok (linkApp (qsortApps (fileNames entries))) := by
  rw [insertAppData, collect_append h.plain (by simpa using h.room)]
  rfl

/-! ## The order of the names -/

theorem compareStrings_cons {x y : Byte} {a b : List Byte} :
    compareStrings (x :: a) (y :: b) ≤ 0 ↔ x = y ∧ compareStrings a b ≤ 0 ∨ x < y := by
  rw [compareStrings]
  split_ifs with heq hlt
  · simp [heq]
  · simp [heq, hlt]
  · simp [heq, hlt]

theorem compareStrings_total (a b : List Byte) :
    compareStrings a b ≤ 0 ∨ compareStrings b a ≤ 0 := by
  induction a generalizing b with
  | nil => cases b <;> simp [compareStrings]
  | cons x a ih =>
    cases b with
    | nil => simp [compareStrings]
    | cons y b =>
      rcases lt_trichotomy x.toNat y.toNat with hlt | heq | hlt
      · exact .inl (compareStrings_cons.mpr (.inr hlt))
      · obtain rfl := BitVec.eq_of_toNat_eq heq
        exact (ih b).imp (fun h => compareStrings_cons.mpr (.inl ⟨rfl, h⟩))
          fun h => compareStrings_cons.mpr (.inl ⟨rfl, h⟩)
      · exact .inr (compareStrings_cons.mpr (.inr hlt))

theorem compareStrings_trans (a b c : List Byte) (hab : compareStrings a b ≤ 0)
    (hbc : compareStrings b c ≤ 0) : compareStrings a c ≤ 0 := by
  induction a generalizing b c with
  | nil => cases c <;> simp [compareStrings]
  | cons x a ih =>
    rcases b with - | ⟨y, b⟩
    · simp [compareStrings] at hab
    rcases c with - | ⟨z, c⟩
    · simp [compareStrings] at hbc
    rw [compareStrings_cons] at hab hbc ⊢
    rcases hab with ⟨rfl, hab⟩ | hxy
    · exact hbc.imp (fun hbc => ⟨hbc.1, ih b c hab hbc.2⟩) id
    · rcases hbc with ⟨rfl, -⟩ | hyz
      · exact .inr hxy
      · exact .inr (BitVec.lt_trans hxy hyz)

theorem pairwise_qsortApps (apps : List (List Byte)) :
    (qsortApps apps).Pairwise fun a b => compareStrings a b ≤ 0 := by
  have hsorted : (qsortApps apps).Pairwise fun a b => decide (compareStrings a b ≤ 0) = true :=
    List.pairwise_mergeSort
      (fun a b c hab hbc => decide_eq_true
        (compareStrings_trans a b c (of_decide_eq_true hab) (of_decide_eq_true hbc)))
      (fun a b => by simpa using compareStrings_total a b) apps
  exact hsorted.imp of_decide_eq_true

theorem qsortApps_perm (apps : List (List Byte)) : (qsortApps apps).Perm apps :=
  List.mergeSort_perm apps _

/-- The names of a table of `build.c`. -/
theorem AppDir.appNames {entries : List DirEntry} (h : AppDir entries) :
    AppNames (qsortApps (fileNames entries)) := by
  have hperm := qsortApps_perm (fileNames entries)
  have hentry : ∀ name ∈ qsortApps (fileNames entries), ∃ e : DirEntry, e.name = name := by
    intro name hname
    obtain ⟨e, -, he⟩ := List.mem_map.mp (hperm.mem_iff.mp hname)
    exact ⟨e, he⟩
  refine ⟨fun name hname => ?_, fun name hname => ?_, hperm.nodup_iff.mpr h.nodup,
    hperm.length_eq.trans_le h.room⟩
  · obtain ⟨e, rfl⟩ := hentry name hname
    exact e.noNul
  · obtain ⟨e, rfl⟩ := hentry name hname
    exact e.short

/-! ## The addresses -/

/-- An image and its address. -/
structure Placing where
  start : ℕ
  image : List Byte

/-- The address after an image. -/
def Placing.stop (p : Placing) : ℕ := p.start + p.image.length

/-- Where the images lie, from a location counter on. -/
def placings (files : List Byte → List Byte) : List (List Byte) → ℕ → List Placing
  | [], _ => []
  | name :: apps, pos =>
    let p : Placing := ⟨alignUp 3 pos, files (targetPath name)⟩
    p :: placings files apps p.stop

section Layout

variable {files : List Byte → List Byte} {mem : ℕ → Byte} {sym : AppLabel → Option ℕ}

theorem map_image_placings (apps : List (List Byte)) (pos : ℕ) :
    (placings files apps pos).map Placing.image = apps.map fun name => files (targetPath name) := by
  induction apps generalizing pos with
  | nil => rfl
  | cons name apps ih => rw [placings, List.map_cons, List.map_cons, ih]

theorem length_placings (apps : List (List Byte)) (pos : ℕ) :
    (placings files apps pos).length = apps.length := by
  rw [← List.length_map Placing.image, map_image_placings, List.length_map]

theorem locate_appStart (apps : List (List Byte)) (pos i j : ℕ) :
    locate files (.appStart (i + j)) (imageDirectives i apps) pos =
      (placings files apps pos)[j]?.map Placing.start := by
  induction apps generalizing pos i j with
  | nil => rfl
  | cons name apps ih =>
    cases j with
    | zero => simp [imageDirectives, locate, placings, Directive.next]
    | succ j =>
      have hrest := ih (alignUp 3 pos + (files (targetPath name)).length) (i + 1) j
      rw [Nat.add_right_comm, Nat.add_assoc] at hrest
      simpa [imageDirectives, locate, placings, Directive.next, Placing.stop] using hrest

theorem locate_appEnd (apps : List (List Byte)) (pos i j : ℕ) :
    locate files (.appEnd (i + j)) (imageDirectives i apps) pos =
      (placings files apps pos)[j]?.map Placing.stop := by
  induction apps generalizing pos i j with
  | nil => rfl
  | cons name apps ih =>
    cases j with
    | zero => simp [imageDirectives, locate, placings, Directive.next, Placing.stop]
    | succ j =>
      have hrest := ih (alignUp 3 pos + (files (targetPath name)).length) (i + 1) j
      rw [Nat.add_right_comm, Nat.add_assoc] at hrest
      simpa [imageDirectives, locate, placings, Directive.next, Placing.stop] using hrest

/-- Every image lies at its address. -/
theorem placed_placings {apps : List (List Byte)} {pos i : ℕ}
    (h : Placed mem pos (emitAll files sym (imageDirectives i apps) pos)) :
    ∀ p ∈ placings files apps pos, Placed mem p.start p.image := by
  induction apps generalizing pos i with
  | nil => exact fun p hp => absurd hp List.not_mem_nil
  | cons name apps ih =>
    have h₁ := (placed_append.mp h).2
    rw [length_emit] at h₁
    have h₂ := placed_append.mp (placed_append.mp h₁).2
    rw [placings, List.forall_mem_cons]
    refine ⟨h₂.1, ih (placed_append.mp h₂.2).2⟩

/-- The images lie inside the section. -/
theorem placings_bounds (apps : List (List Byte)) (pos i : ℕ) :
    ∀ p ∈ placings files apps pos,
      pos ≤ p.start ∧ p.stop ≤ counter files (imageDirectives i apps) pos := by
  induction apps generalizing pos i with
  | nil => exact fun p hp => absurd hp List.not_mem_nil
  | cons name apps ih =>
    have hle := le_alignUp 3 pos
    have hrest := ih (alignUp 3 pos + (files (targetPath name)).length) (i + 1)
    rw [placings, List.forall_mem_cons]
    refine ⟨⟨hle, ?_⟩, fun p hp => ⟨?_, (hrest p hp).2⟩⟩
    · exact le_counter (imageDirectives (i + 1) apps) _
    · exact hle.trans ((Nat.le_add_right _ _).trans (hrest p hp).1)

/-- The images follow one another. -/
theorem pairwise_placings (apps : List (List Byte)) (pos : ℕ) :
    (placings files apps pos).Pairwise fun p q => p.stop ≤ q.start := by
  induction apps generalizing pos with
  | nil => exact List.Pairwise.nil
  | cons name apps ih =>
    exact List.pairwise_cons.mpr ⟨fun q hq => (placings_bounds apps _ 0 q hq).1, ih _⟩

end Layout

/-! ## The table in memory -/

/-- A string of memory with its `NUL`. -/
structure CStr (mem : ℕ → Byte) (p : ℕ) (text : List Byte) : Prop where
  placed : Placed mem p (text ++ [0])
  noNul : 0 ∉ text
  fits : p + text.length < 2 ^ 64

section Table

variable (files : List Byte → List Byte) (apps : List (List Byte)) (base : ℕ)

/-- The address of `_app_names`. -/
def namesPos : ℕ := base + 8 * (apps.length + 2)

/-- The address of a name. -/
def nameAt (i : ℕ) : ℕ :=
  address files (apps.map Directive.string : List (Directive AppLabel)) (namesPos apps base) i

/-- The images of the table. -/
def images : List Placing := placings files apps (nameAt files apps base apps.length)

/-- The kernel is linked with the table at `base`, which the alignment of the section makes a
multiple of 8. -/
structure Linked (mem : ℕ → Byte) : Prop where
  aligned : base % 8 = 0
  fits : counter files (linkApp apps) base < 2 ^ 64
  placed : Placed mem base (assemble files (linkApp apps) base)

variable {files apps base}

theorem length_quadDirectives (n : ℕ) : (quadDirectives n).length = n + 2 := by
  simp [quadDirectives]

theorem quadDirectives_next {n : ℕ} {d : Directive AppLabel} (hd : d ∈ quadDirectives n) (pos : ℕ) :
    d.next files pos = pos + 8 := by
  simp only [quadDirectives, List.cons_append, List.mem_cons, List.mem_append, List.mem_map,
    List.not_mem_nil, or_false] at hd
  rcases hd with rfl | ⟨j, -, rfl⟩ | rfl <;> rfl

theorem counter_quadDirectives (n : ℕ) :
    counter files (quadDirectives n) base = base + 8 * (n + 2) := by
  have hlen := length_quadDirectives n
  rw [← address_length, hlen, address_const (fun d hd => quadDirectives_next hd) base hlen.ge]

theorem nameAt_zero : nameAt files apps base 0 = namesPos apps base := rfl

theorem nameAt_succ {i : ℕ} (hi : i < apps.length) :
    nameAt files apps base (i + 1) = nameAt files apps base i + (apps[i].length + 1) := by
  rw [nameAt, address_succ (by rw [List.length_map]; exact hi), List.getElem_map]
  rfl

theorem nameAt_length : nameAt files apps base apps.length =
    counter files (apps.map Directive.string : List (Directive AppLabel)) (namesPos apps base) := by
  rw [← address_length, List.length_map, nameAt]

/-! ### The symbols -/

theorem label_not_mem_quads (l : AppLabel) (n : ℕ) : .label l ∉ quadDirectives n := by
  simp [quadDirectives]

theorem locate_numApp : locate files .numApp (linkApp apps) base = some base := if_pos rfl

/-- The symbols after the words. -/
theorem locate_linkApp {l : AppLabel} (hl : l ≠ .numApp) :
    locate files l (linkApp apps) base =
      locate files l (.label .appNames :: apps.map .string ++ imageDirectives 0 apps)
        (namesPos apps base) := by
  have hmem : .label l ∉ .label .numApp :: quadDirectives apps.length := by
    simp [hl, label_not_mem_quads]
  rw [linkApp, locate_append, locate_eq_none hmem, Option.none_or]
  exact congrArg _ (counter_quadDirectives apps.length)

theorem locate_appNames : locate files .appNames (linkApp apps) base = some (namesPos apps base) :=
  (locate_linkApp (by decide)).trans (if_pos rfl)

/-- The symbols of the images. -/
theorem locate_images {l : AppLabel} (hl : l ≠ .numApp) (hl' : l ≠ .appNames) :
    locate files l (linkApp apps) base =
      locate files l (imageDirectives 0 apps) (nameAt files apps base apps.length) := by
  have hmem : .label l ∉ .label .appNames :: apps.map Directive.string := by
    simp [hl']
  rw [locate_linkApp hl, locate_append, locate_eq_none hmem, Option.none_or, nameAt_length]
  rfl

theorem locate_start (j : ℕ) : locate files (.appStart j) (linkApp apps) base =
    (images files apps base)[j]?.map Placing.start := by
  rw [locate_images (by simp) (by simp), images, ← locate_appStart apps _ 0 j, Nat.zero_add]

theorem locate_end (j : ℕ) : locate files (.appEnd j) (linkApp apps) base =
    (images files apps base)[j]?.map Placing.stop := by
  rw [locate_images (by simp) (by simp), images, ← locate_appEnd apps _ 0 j, Nat.zero_add]

/-! ### The bytes -/

namespace Linked

variable {mem : ℕ → Byte} (h : Linked files apps base mem)

include h

/-- The three parts of the section. -/
theorem parts : ∃ sym : AppLabel → Option ℕ,
    (∀ l, sym l = locate files l (linkApp apps) base) ∧
    Placed mem base (emitAll files sym (quadDirectives apps.length) base) ∧
    Placed mem (namesPos apps base)
      (emitAll files sym (apps.map Directive.string) (namesPos apps base)) ∧
    Placed mem (nameAt files apps base apps.length)
      (emitAll files sym (imageDirectives 0 apps) (nameAt files apps base apps.length)) := by
  refine ⟨fun l => locate files l (linkApp apps) base, fun _ => rfl, ?_⟩
  have hplaced := h.placed
  rw [assemble] at hplaced
  generalize (fun l => locate files l (linkApp apps) base) = sym at hplaced ⊢
  obtain ⟨hquads, hrest⟩ := placed_emitAll_append.mp hplaced
  have hpos : counter files (.label .numApp :: quadDirectives apps.length) base =
      namesPos apps base := counter_quadDirectives apps.length
  rw [hpos] at hrest
  obtain ⟨hnames, himages⟩ := placed_emitAll_append.mp hrest
  refine ⟨hquads, hnames, ?_⟩
  rw [nameAt_length]
  exact himages

theorem counter_images :
    counter files (imageDirectives 0 apps) (nameAt files apps base apps.length) < 2 ^ 64 := by
  have hfits := h.fits
  have hpos : counter files (.label .numApp :: quadDirectives apps.length) base =
      namesPos apps base := counter_quadDirectives apps.length
  rw [linkApp, counter_append, hpos, counter_append] at hfits
  rw [nameAt_length]
  exact hfits

/-- Every image lies at its address, in the section. -/
theorem placed_images : ∀ p ∈ images files apps base,
    Placed mem p.start p.image ∧ p.stop < 2 ^ 64 := by
  intro p hp
  obtain ⟨sym, -, -, -, himages⟩ := h.parts
  exact ⟨placed_placings himages p hp, (placings_bounds apps _ 0 p hp).2.trans_lt h.counter_images⟩

/-- The addresses before the images. -/
theorem nameAt_lt (i : ℕ) : nameAt files apps base i < 2 ^ 64 := by
  have hle : nameAt files apps base i ≤ nameAt files apps base apps.length := by
    rw [nameAt_length]
    exact address_le_counter _ _ i
  exact hle.trans_lt ((le_counter (imageDirectives 0 apps) _).trans_lt h.counter_images)

/-- The names. -/
theorem name (ha : AppNames apps) {i : ℕ} (hi : i < apps.length) :
    CStr mem (nameAt files apps base i) apps[i] := by
  obtain ⟨sym, -, -, hnames, -⟩ := h.parts
  have hi' : i < (apps.map (Directive.string : _ → Directive AppLabel)).length := by
    rw [List.length_map]
    exact hi
  have hplaced := placed_emitAll_getElem hi' hnames
  rw [List.getElem_map] at hplaced
  refine ⟨hplaced, ha.noNul _ (List.getElem_mem hi), (Nat.lt_succ_self _).trans ?_⟩
  exact (nameAt_succ hi).symm.trans_lt (h.nameAt_lt (i + 1))

/-- The words. -/
theorem quad {i : ℕ} {d : Directive AppLabel} (hd : (quadDirectives apps.length)[i]? = some d) :
    Placed mem (base + 8 * i)
      (emit files (fun l => locate files l (linkApp apps) base) (base + 8 * i) d) := by
  obtain ⟨sym, hsym, hquads, -, -⟩ := h.parts
  obtain ⟨hi, rfl⟩ := List.getElem?_eq_some_iff.mp hd
  have hplaced := placed_emitAll_getElem hi hquads
  rw [address_const (fun d hd => quadDirectives_next hd) base hi.le, funext hsym] at hplaced
  exact hplaced

theorem readQuad_count : readQuad mem base = apps.length := by
  have hlt := h.nameAt_lt 0
  rw [nameAt_zero, namesPos] at hlt
  exact readQuad_of_placed (h.quad (i := 0) rfl) (by omega)

theorem readQuad_start {j : ℕ} (hj : j < (images files apps base).length) :
    readQuad mem (base + 8 * (j + 1)) = (images files apps base)[j].start := by
  have hj' : j < apps.length := by rwa [images, length_placings] at hj
  have hget : (quadDirectives apps.length)[j + 1]? = some (.quadOf (.appStart j)) := by
    rw [quadDirectives, List.cons_append, List.getElem?_cons_succ,
      List.getElem?_append_left (by simpa using hj')]
    simp [hj']
  have hplaced := h.quad hget
  rw [emit, locate_start, List.getElem?_eq_getElem hj] at hplaced
  have hstop := (h.placed_images _ (List.getElem_mem hj)).2
  exact readQuad_of_placed hplaced ((Nat.le_add_right _ _).trans_lt hstop)

theorem readQuad_end {j : ℕ} (hj : j < (images files apps base).length)
    (hlast : j + 1 = apps.length) :
    readQuad mem (base + 8 * (j + 2)) = (images files apps base)[j].stop := by
  have hget : (quadDirectives apps.length)[j + 2]? = some (.quadOf (.appEnd j)) := by
    rw [← hlast]
    simp [quadDirectives]
  have hplaced := h.quad hget
  rw [emit, locate_end, List.getElem?_eq_getElem hj] at hplaced
  exact readQuad_of_placed hplaced (h.placed_images _ (List.getElem_mem hj)).2

end Linked

end Table

end RiscvOs
