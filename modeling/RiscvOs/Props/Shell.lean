import RiscvOs.User.Shell

/-!
# The line editor of the shell

* **`line_edited_iff`**: the shell's buffer follows the reference editor, without a write outside
  it, exactly as long as no line is longer than 1023 characters. `line_overrun` has 1024 characters
  in a line.
-/

set_option autoImplicit false

namespace RiscvOs

/-- The reference editor with an empty line. -/
def Editor.blank : Editor := ⟨[], []⟩

theorem main_shows {line : ℕ → Byte} (h : line 0 = 0) : (Shell.main line).Shows Editor.blank :=
  ⟨.empty h, rfl⟩

/-- After each key the run is still inside the buffer, which holds the editor's line and its `NUL`,
and the strings given to `sys_exec` are the lines submitted. -/
def LineEdited (line : ℕ → Byte) (ks : List Key) : Prop :=
  ∀ pre, pre <+: ks → ∃ s, (Shell.main line).keys pre = .ok s ∧ s.Shows (Editor.blank.keys pre)

/-- **The shell's line editor**: from an empty line the buffer follows the reference editor exactly
as long as the reference's line is never longer than 1023 characters. -/
theorem line_edited_iff (line : ℕ → Byte) (h : line 0 = 0) (ks : List Key) :
    LineEdited line ks ↔ ∀ pre, pre <+: ks → (Editor.blank.keys pre).line.length ≤ 1023 := by
  constructor
  · intro hedit pre hpre
    obtain ⟨s, -, hs⟩ := hedit pre hpre
    exact Nat.le_of_lt_succ hs.line.fits
  · intro hfits pre hpre
    refine Shell.keys_spec (main_shows h) fun pre' hpre' => ?_
    exact Nat.lt_succ_of_le (hfits pre' (hpre'.trans hpre))

/-- Two keys, on a stack of zeros. -/
theorem line_edited_iff_two : LineEdited (fun _ => 0) [⟨0x61, 2, 0⟩, ⟨keyCR, 2, 0⟩] :=
  (line_edited_iff (fun _ => 0) rfl _).mpr fun pre hpre =>
    (Editor.blank.length_keys_le pre).trans
      ((Nat.add_le_add_left hpre.length_le 0).trans (by decide))

/-- The key `a`. -/
def keyA : Key := ⟨0x61, 0, 0⟩

theorem key_keyA (e : Editor) : (e.key keyA).line = e.line ++ [0x61] := e.key_line keyA

theorem keys_replicate (n : ℕ) (e : Editor) :
    (e.keys (List.replicate n keyA)).line = e.line ++ List.replicate n 0x61 := by
  induction n generalizing e with
  | zero => exact (List.append_nil _).symm
  | succ n ih =>
    rw [List.replicate_succ, Editor.keys, List.foldl_cons]
    refine (ih (e.key keyA)).trans ?_
    rw [key_keyA, List.append_assoc, List.replicate_succ, List.singleton_append]

/-- The 1024th character of a line has its `NUL` written after the end of the buffer. -/
theorem line_overrun :
    (Shell.main fun _ => 0).keys (List.replicate 1024 keyA) = .error .wild ∧
      ¬LineEdited (fun _ => 0) (List.replicate 1024 keyA) := by
  have hrun : (Shell.main fun _ => 0).keys (List.replicate 1024 keyA) = .error .wild := by
    rw [List.replicate_succ']
    refine Shell.keys_full (main_shows rfl) (fun pre hpre => ?_) ?_
    · have hlen := hpre.length_le
      have hkeys := Editor.blank.length_keys_le pre
      rw [List.length_replicate] at hlen
      exact Nat.lt_succ_of_le (hkeys.trans (Nat.add_le_add_left hlen 0))
    · rw [key_keyA, keys_replicate, List.length_append, List.length_append, List.length_replicate]
      exact le_rfl
  refine ⟨hrun, fun hedit => ?_⟩
  obtain ⟨s, hs, -⟩ := hedit _ List.prefix_rfl
  rw [hrun] at hs
  cases hs

end RiscvOs
