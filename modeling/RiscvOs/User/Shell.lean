import RiscvOs.Print.Format

/-!
# The shell

The loop of `user_shell.c`, and `strncat` and `user_strlen` of `user_print.c`. `line` is given by
the bytes from its first one on; an access outside its 1024 bytes is one to the rest of the stack,
and ends the model.

* `Shell.key`: one turn of the loop.
* `Editor`: the reference line editor.
* **`Shell.key_spec`**, **`Shell.keys_spec`**: a turn, and a run, does what the editor does, as long
  as the line and its `NUL` fit.
* **`Shell.key_full`**: a turn that makes the line too long writes outside the buffer.
-/

set_option autoImplicit false

namespace RiscvOs

/-- `BUFFER_SIZE`. -/
def bufferSize : ℕ := 1024

/-- `CR`. -/
def keyCR : Byte := 0x0d

/-- `BS`. -/
def keyBS : Byte := 0x08

/-- `user_strlen(line)`. -/
def userStrlen (line : ℕ → Byte) : Except Halt ℕ :=
  match (List.range bufferSize).find? fun i => line i = 0 with
  | some i => .ok i
  | none => .error .wild

/-- `line[i] = b`. -/
def storeLine (line : ℕ → Byte) (i : ℕ) (b : Byte) : Except Halt (ℕ → Byte) :=
  if i < bufferSize then .ok (Function.update line i b) else .error .wild

/-- The second loop of `strncat`: up to `n` characters of `src` to `dest` on. -/
def strncatCopy : ℕ → List Byte → ℕ → (ℕ → Byte) → Except Halt (ℕ × (ℕ → Byte))
  | n + 1, b :: src, dest, line =>
    if b = 0 then .ok (dest, line)
    else do
      let line ← storeLine line dest b
      strncatCopy n src (dest + 1) line
  | _, _, dest, line => .ok (dest, line)

/-- `strncat(line, src, n)`. -/
def strncat (line : ℕ → Byte) (src : List Byte) (n : ℕ) : Except Halt (ℕ → Byte) := do
  let dest ← userStrlen line
  let (dest, line) ← strncatCopy n src dest line
  storeLine line dest 0

/-- The string of `len` characters in the line. -/
def lineText (line : ℕ → Byte) (len : ℕ) : List Byte := (List.range len).map line

/-- What a turn of the loop meets: the character, and what `fork` and `recycle` return. -/
structure Key where
  c : Byte
  pid : BitVec 32
  status : BitVec 32

/-- The shell: its line, what it has printed, and the strings its children gave to `sys_exec`. -/
structure Shell where
  line : ℕ → Byte
  printed : List Output
  execs : List (List Byte)

namespace Shell

def userPrintf (fmt : String) (args : List PrintfArg) (s : Shell) : Shell :=
  { s with printed := .printf fmt args :: s.printed }

def setLine (line : ℕ → Byte) (s : Shell) : Shell := { s with line := line }

/-- `fork`, and then `exec` in the child and `recycle` in the parent. -/
def launch (k : Key) (s : Shell) : Except Halt Shell := do
  let len ← userStrlen s.line
  let line ← storeLine s.line len 0
  let s := (s.setLine line).userPrintf "pid:%d\n" [.num k.pid.toNat]
  if 0 < k.pid.toInt then
    .ok ({ s with execs := lineText s.line len :: s.execs }.userPrintf "child proc exit:%d\n"
      [.num k.status.toNat])
  else .ok s

/-- `line[0] = '\0'` and a new prompt. -/
def prompt (s : Shell) : Except Halt Shell := do
  let line ← storeLine s.line 0 0
  .ok ((s.setLine line).userPrintf ">> " [])

/-- The case of `CR`. -/
def enter (k : Key) (s : Shell) : Except Halt Shell := do
  let len ← userStrlen s.line
  if 0 < len then do
    let s ← (s.userPrintf "\n" []).launch k
    s.prompt
  else (s.userPrintf "\n" []).prompt

/-- The case of `BS`. -/
def backspace (s : Shell) : Except Halt Shell := do
  let len ← userStrlen s.line
  if 0 < len then do
    let line ← storeLine s.line (len - 1) 0
    .ok ((s.userPrintf "\u0008 \u0008" []).setLine line)
  else .ok s

/-- The default case. -/
def insert (c : Byte) (s : Shell) : Except Halt Shell := do
  let line ← strncat s.line [c] 1
  .ok ((s.userPrintf "%c" [.num c.toNat]).setLine line)

/-- One turn of the loop. -/
def key (s : Shell) (k : Key) : Except Halt Shell :=
  if k.c = keyCR then s.enter k
  else if k.c = keyBS then s.backspace
  else s.insert k.c

/-- The shell as the loop is entered with `line` on its stack. -/
def main (line : ℕ → Byte) : Shell :=
  let s : Shell := { line := line, printed := [], execs := [] }
  (s.userPrintf "User shell\n" []).userPrintf ">> " []

/-- The turns for a sequence of keys. -/
def keys (ks : List Key) (s : Shell) : Except Halt Shell := ks.foldlM key s

end Shell

/-! ## The reference editor -/

/-- A line of text, and the lines submitted to a new process. -/
structure Editor where
  line : List Byte
  submitted : List (List Byte)

namespace Editor

/-- `CR` submits the line and empties it, `BS` removes the last character, `NUL` is ignored, and any
other byte is appended. -/
def key (e : Editor) (k : Key) : Editor :=
  if k.c = keyCR then
    { line := []
      submitted := if e.line ≠ [] ∧ 0 < k.pid.toInt then e.line :: e.submitted else e.submitted }
  else if k.c = keyBS then { e with line := e.line.dropLast }
  else if k.c = 0 then e
  else { e with line := e.line ++ [k.c] }

theorem key_line (e : Editor) (k : Key) : (e.key k).line =
    if k.c = keyCR then []
    else if k.c = keyBS then e.line.dropLast
    else if k.c = 0 then e.line
    else e.line ++ [k.c] := by
  unfold key
  split_ifs <;> rfl

/-- The editor after a sequence of keys. -/
def keys (ks : List Key) (e : Editor) : Editor := ks.foldl key e

theorem length_key_le (e : Editor) (k : Key) : (e.key k).line.length ≤ e.line.length + 1 := by
  rw [key_line]
  split_ifs
  · exact Nat.zero_le _
  · rw [List.length_dropLast]
    omega
  · exact Nat.le_succ _
  · rw [List.length_append, List.length_singleton]

/-- A line is no longer than the keys that were pressed. -/
theorem length_keys_le (e : Editor) (ks : List Key) :
    (e.keys ks).line.length ≤ e.line.length + ks.length := by
  induction ks generalizing e with
  | nil => exact le_rfl
  | cons k ks ih =>
    have hrest : (e.keys (k :: ks)).line.length ≤ (e.key k).line.length + ks.length := ih (e.key k)
    have hkey := e.length_key_le k
    rw [List.length_cons]
    omega

end Editor

/-! ## One turn -/

/-- The buffer holds a line and its `NUL`. -/
structure HoldsLine (line : ℕ → Byte) (text : List Byte) : Prop where
  fits : text.length < bufferSize
  bytes : lineText line text.length = text
  nul : line text.length = 0
  noNul : 0 ∉ text

theorem lineText_succ (line : ℕ → Byte) (n : ℕ) :
    lineText line (n + 1) = lineText line n ++ [line n] := by
  rw [lineText, List.range_succ, List.map_append]
  rfl

theorem lineText_update {line : ℕ → Byte} {n i : ℕ} (h : n ≤ i) (b : Byte) :
    lineText (Function.update line i b) n = lineText line n := by
  refine List.map_congr_left fun j hj => ?_
  have hne : j ≠ i := by
    have := List.mem_range.mp hj
    omega
  rw [Function.update_of_ne hne]

theorem storeLine_of_lt {i : ℕ} (h : i < bufferSize) (line : ℕ → Byte) (b : Byte) :
    storeLine line i b = .ok (Function.update line i b) :=
  if_pos h

/-- The first `NUL` among the first `n` bytes. -/
theorem find?_range_nul {line : ℕ → Byte} {n len : ℕ} (hnul : line len = 0) (hlen : len < n)
    (hne : ∀ i < len, line i ≠ 0) :
    (List.range n).find? (fun i => line i = 0) = some len := by
  refine List.find?_range_eq_some.mpr
    ⟨decide_eq_true hnul, List.mem_range.mpr hlen, fun i hi => ?_⟩
  rw [decide_eq_false (hne i hi), Bool.not_false]

namespace HoldsLine

variable {line : ℕ → Byte} {text : List Byte}

theorem empty (h : line 0 = 0) : HoldsLine line [] :=
  ⟨by decide, rfl, h, List.not_mem_nil⟩

theorem ne_zero (h : HoldsLine line text) {i : ℕ} (hi : i < text.length) : line i ≠ 0 := by
  intro h0
  have hmem : line i ∈ text := by
    rw [← h.bytes]
    exact List.mem_map_of_mem (List.mem_range.mpr hi)
  exact h.noNul (h0 ▸ hmem)

theorem userStrlen (h : HoldsLine line text) : userStrlen line = .ok text.length := by
  have hfind := find?_range_nul h.nul h.fits fun i hi => h.ne_zero hi
  unfold RiscvOs.userStrlen
  rw [hfind]

/-- A `NUL` at or before the end cuts the line there. -/
theorem cut (h : HoldsLine line text) {n : ℕ} (hn : n ≤ text.length) :
    HoldsLine (Function.update line n 0) (text.take n) := by
  have hlen : (text.take n).length = n := List.length_take_of_le hn
  refine ⟨by have := h.fits; omega, ?_, ?_, fun hmem => h.noNul (List.mem_of_mem_take hmem)⟩
  · rw [hlen, lineText_update le_rfl]
    conv_rhs => rw [← h.bytes]
    rw [lineText, lineText, ← List.map_take, List.take_range, Nat.min_eq_left hn]
  · rw [hlen, Function.update_self]

/-- A character over the `NUL`, and a `NUL` after it. -/
theorem append (h : HoldsLine line text) {c : Byte} (hc : c ≠ 0)
    (hfits : text.length + 1 < bufferSize) :
    HoldsLine (Function.update (Function.update line text.length c) (text.length + 1) 0)
      (text ++ [c]) := by
  have hlen : (text ++ [c]).length = text.length + 1 := List.length_append
  refine ⟨hlen ▸ hfits, ?_, ?_, ?_⟩
  · rw [hlen, lineText_update le_rfl, lineText_succ, lineText_update le_rfl, h.bytes,
      Function.update_self]
  · rw [hlen, Function.update_self]
  · rw [List.mem_append, List.mem_singleton]
    exact not_or.mpr ⟨h.noNul, hc.symm⟩

/-- `strncat` of a character that fits. -/
theorem strncat (h : HoldsLine line text) {c : Byte} (hc : c ≠ 0)
    (hfits : text.length + 1 < bufferSize) :
    ∃ line', RiscvOs.strncat line [c] 1 = .ok line' ∧ HoldsLine line' (text ++ [c]) := by
  refine ⟨_, ?_, h.append hc hfits⟩
  rw [RiscvOs.strncat, h.userStrlen]
  simp only [ok_bind, strncatCopy, if_neg hc, storeLine_of_lt h.fits,
    storeLine_of_lt hfits]

/-- `strncat` of `NUL` copies nothing. -/
theorem strncat_nul (h : HoldsLine line text) :
    ∃ line', RiscvOs.strncat line [0] 1 = .ok line' ∧ HoldsLine line' text := by
  have hcut := h.cut le_rfl
  rw [List.take_length] at hcut
  refine ⟨_, ?_, hcut⟩
  rw [RiscvOs.strncat, h.userStrlen]
  simp only [ok_bind, strncatCopy, if_pos, storeLine_of_lt h.fits]

/-- `strncat` to a full line writes its `NUL` outside the buffer. -/
theorem strncat_full (h : HoldsLine line text) {c : Byte} (hc : c ≠ 0)
    (hfull : text.length + 1 = bufferSize) :
    RiscvOs.strncat line [c] 1 = .error .wild := by
  have hout : ∀ line' b, storeLine line' (text.length + 1) b = .error .wild :=
    fun line' b => if_neg (by omega)
  rw [RiscvOs.strncat, h.userStrlen]
  simp only [ok_bind, strncatCopy, if_neg hc, storeLine_of_lt h.fits, hout]

end HoldsLine

/-- The shell's buffer holds the editor's line, and its children were given the submitted lines. -/
structure Shell.Shows (s : Shell) (e : Editor) : Prop where
  line : HoldsLine s.line e.line
  execs : s.execs = e.submitted

namespace Shell

variable {s : Shell} {e : Editor}

/-- The child of a successful `fork` is given the line. -/
theorem launch_spec (h : s.Shows e) (k : Key) :
    ∃ s', s.launch k = .ok s' ∧ s'.execs =
      if 0 < k.pid.toInt then e.line :: e.submitted else e.submitted := by
  have hcut := h.line.cut le_rfl
  rw [List.take_length] at hcut
  rw [launch, h.line.userStrlen, ok_bind, storeLine_of_lt h.line.fits, ok_bind]
  split_ifs with hpid
  · exact ⟨_, rfl, congrArg₂ List.cons hcut.bytes h.execs⟩
  · exact ⟨_, rfl, h.execs⟩

theorem prompt_spec (s : Shell) :
    ∃ s', s.prompt = .ok s' ∧ HoldsLine s'.line [] ∧ s'.execs = s.execs := by
  rw [prompt, storeLine_of_lt (by decide), ok_bind]
  exact ⟨_, rfl, .empty (Function.update_self 0 0 s.line), rfl⟩

/-- `CR` gives a non-empty line to a child, and empties it. -/
theorem enter_spec (h : s.Shows e) {k : Key} (hk : k.c = keyCR) :
    ∃ s', s.enter k = .ok s' ∧ s'.Shows (e.key k) := by
  have hshows : (s.userPrintf "\n" []).Shows e := ⟨h.line, h.execs⟩
  rw [enter, h.line.userStrlen, Editor.key, if_pos hk, ok_bind]
  split_ifs with hlen hsub hsub
  · obtain ⟨s₁, hlaunch, hexecs⟩ := launch_spec hshows k
    obtain ⟨s₂, hprompt, hline, hkept⟩ := prompt_spec s₁
    rw [hlaunch, ok_bind]
    exact ⟨s₂, hprompt, hline, hkept.trans (hexecs.trans (if_pos hsub.2))⟩
  · obtain ⟨s₁, hlaunch, hexecs⟩ := launch_spec hshows k
    obtain ⟨s₂, hprompt, hline, hkept⟩ := prompt_spec s₁
    have hpid : ¬0 < k.pid.toInt := fun hpid => hsub ⟨List.ne_nil_of_length_pos hlen, hpid⟩
    rw [hlaunch, ok_bind]
    exact ⟨s₂, hprompt, hline, hkept.trans (hexecs.trans (if_neg hpid))⟩
  · exact absurd (List.length_pos_iff.mpr hsub.1) hlen
  · obtain ⟨s₂, hprompt, hline, hkept⟩ := prompt_spec (s.userPrintf "\n" [])
    exact ⟨s₂, hprompt, hline, hkept.trans h.execs⟩

/-- `BS` removes the last character, if there is one. -/
theorem backspace_spec (h : s.Shows e) :
    ∃ s', s.backspace = .ok s' ∧ s'.Shows { e with line := e.line.dropLast } := by
  have hfits := h.line.fits
  rw [backspace, h.line.userStrlen, ok_bind]
  split_ifs with hlen
  · rw [storeLine_of_lt (by omega), ok_bind, List.dropLast_eq_take]
    exact ⟨_, rfl, h.line.cut (Nat.sub_le _ _), h.execs⟩
  · have hnil : e.line = [] := List.eq_nil_of_length_eq_zero (by omega)
    refine ⟨s, rfl, ?_, h.execs⟩
    have hline := h.line
    rw [hnil] at hline ⊢
    exact hline

/-- **A turn does what the editor does**, as long as the line and its `NUL` fit. -/
theorem key_spec (h : s.Shows e) (k : Key) (hfits : (e.key k).line.length < bufferSize) :
    ∃ s', s.key k = .ok s' ∧ s'.Shows (e.key k) := by
  by_cases hcr : k.c = keyCR
  · rw [key, if_pos hcr]
    exact enter_spec h hcr
  by_cases hbs : k.c = keyBS
  · rw [key, if_neg hcr, if_pos hbs, Editor.key, if_neg hcr, if_pos hbs]
    exact backspace_spec h
  rw [key, if_neg hcr, if_neg hbs, insert]
  rw [Editor.key, if_neg hcr, if_neg hbs] at hfits ⊢
  split_ifs at hfits ⊢ with hnul
  · obtain ⟨line', hcat, hline⟩ := h.line.strncat_nul
    rw [hnul, hcat, ok_bind]
    exact ⟨_, rfl, hline, h.execs⟩
  · rw [List.length_append, List.length_singleton] at hfits
    obtain ⟨line', hcat, hline⟩ := h.line.strncat hnul hfits
    rw [hcat, ok_bind]
    exact ⟨_, rfl, hline, h.execs⟩

/-- **A turn that makes the line 1024 characters long** writes outside the buffer. -/
theorem key_full (h : s.Shows e) (k : Key) (hfull : bufferSize ≤ (e.key k).line.length) :
    s.key k = .error .wild := by
  have hfits := h.line.fits
  rw [Editor.key_line] at hfull
  split_ifs at hfull with hcr hbs hnul
  · exact absurd hfull (by decide)
  · rw [List.length_dropLast] at hfull
    omega
  · omega
  · rw [List.length_append, List.length_singleton] at hfull
    rw [key, if_neg hcr, if_neg hbs, insert, h.line.strncat_full hnul (by omega), error_bind]

/-- **A run does what the editor does**, as long as its lines fit. -/
theorem keys_spec (h : s.Shows e) {ks : List Key}
    (hfits : ∀ pre, pre <+: ks → (e.keys pre).line.length < bufferSize) :
    ∃ s', s.keys ks = .ok s' ∧ s'.Shows (e.keys ks) := by
  induction ks generalizing s e with
  | nil => exact ⟨s, rfl, h⟩
  | cons k ks ih =>
    obtain ⟨s₁, hkey, h₁⟩ := key_spec h k (hfits [k] ⟨ks, rfl⟩)
    obtain ⟨s₂, hkeys, h₂⟩ := ih h₁ fun pre hpre =>
      hfits (k :: pre) (List.cons_prefix_cons.mpr ⟨rfl, hpre⟩)
    refine ⟨s₂, ?_, h₂⟩
    rw [keys, List.foldlM_cons, hkey, ok_bind]
    exact hkeys

/-- **A run whose last key makes the line too long** writes outside the buffer. -/
theorem keys_full (h : s.Shows e) {ks : List Key} {k : Key}
    (hfits : ∀ pre, pre <+: ks → (e.keys pre).line.length < bufferSize)
    (hfull : bufferSize ≤ ((e.keys ks).key k).line.length) :
    s.keys (ks ++ [k]) = .error .wild := by
  obtain ⟨s₁, hkeys, h₁⟩ := keys_spec h hfits
  rw [keys] at hkeys
  rw [keys, List.foldlM_append, hkeys, ok_bind, List.foldlM_cons, key_full h₁ k hfull, error_bind]

end Shell

end RiscvOs
