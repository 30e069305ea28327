import Mathlib.Data.Nat.Notation

/-!
# Outcomes of computations that may stop

`Outcome x Q E` says what `x : Except ε α` guarantees: `Q` of the value it returns, or `E` of the
error it stops with. One statement covers both directions of use: `Outcome.of_ok` reads off what a
successful run did, `Outcome.exists_ok` that the run succeeds when `E` is impossible.

`Traced ι ε α` is such a computation with a log of what it did on the way, which an error does not
take back. `Traced.result_bind` and `Traced.log_bind` take a sequence apart.
-/

set_option autoImplicit false

namespace RiscvOs

variable {ε α β : Type}

/-- `x` returns a value with `Q`, or stops with an error with `E`. -/
def Outcome (x : Except ε α) (Q : α → Prop) (E : ε → Prop) : Prop :=
  match x with
  | .ok a => Q a
  | .error e => E e

namespace Outcome

variable {x : Except ε α} {f : α → Except ε β} {Q Q' : α → Prop} {R : β → Prop} {E E' : ε → Prop}

@[simp] theorem ok_iff {a : α} : Outcome (.ok a : Except ε α) Q E ↔ Q a := Iff.rfl

@[simp] theorem pure_iff {a : α} : Outcome (pure a : Except ε α) Q E ↔ Q a := Iff.rfl

@[simp] theorem error_iff {e : ε} : Outcome (.error e : Except ε α) Q E ↔ E e := Iff.rfl

/-- **The rule of sequencing.** -/
theorem bind (hx : Outcome x Q E) (hf : ∀ a, Q a → Outcome (f a) R E) : Outcome (x >>= f) R E := by
  cases x with
  | ok a => exact hf a hx
  | error e => exact hx

/-- The rule of consequence. -/
theorem mono (hx : Outcome x Q E) (hQ : ∀ a, Q a → Q' a) (hE : ∀ e, E e → E' e) :
    Outcome x Q' E' := by
  cases x with
  | ok a => exact hQ a hx
  | error e => exact hE e hx

theorem imp (hx : Outcome x Q E) (hQ : ∀ a, Q a → Q' a) : Outcome x Q' E :=
  hx.mono hQ fun _ h => h

theorem of_ok {a : α} (hx : Outcome x Q E) (h : x = .ok a) : Q a := by
  subst h; exact hx

theorem of_error {e : ε} (hx : Outcome x Q E) (h : x = .error e) : E e := by
  subst h; exact hx

/-- A computation that cannot stop returns. -/
theorem exists_ok (hx : Outcome x Q E) (hE : ∀ e, ¬ E e) : ∃ a, x = .ok a ∧ Q a := by
  cases x with
  | ok a => exact ⟨a, rfl, hx⟩
  | error e => exact absurd hx (hE e)

/-- Every computation has the outcome its own results describe. -/
theorem self (x : Except ε α) : Outcome x (fun a => x = .ok a) (fun e => x = .error e) := by
  cases x with
  | ok a => rfl
  | error e => rfl

/-- **The rule of a loop over a list.** The invariant sees what was done and what is to do. -/
theorem foldlM {γ : Type} {g : α → γ → Except ε α} {I : List γ → List γ → α → Prop} {l : List γ}
    {a : α} (h₀ : I [] l a)
    (hstep : ∀ done c todo b, done ++ c :: todo = l → I done (c :: todo) b →
      Outcome (g b c) (I (done ++ [c]) todo) E) : Outcome (l.foldlM g a) (I l []) E := by
  suffices ∀ todo done b, done ++ todo = l → I done todo b →
      Outcome (todo.foldlM g b) (I l []) E from this l [] a rfl h₀
  intro todo
  induction todo with
  | nil =>
    intro done b hl hb
    rw [List.append_nil] at hl
    subst hl
    exact hb
  | cons c todo ih =>
    intro done b hl hb
    rw [List.foldlM_cons]
    exact bind (hstep done c todo b hl hb) fun b' hb' => ih _ b' (by simpa using hl) hb'

/-- The rule of a counting loop. -/
theorem foldlM_range {g : α → ℕ → Except ε α} {I : ℕ → α → Prop} {n : ℕ} {a : α} (h₀ : I 0 a)
    (hstep : ∀ i < n, ∀ b, I i b → Outcome (g b i) (I (i + 1)) E) :
    Outcome ((List.range n).foldlM g a) (I n) E := by
  induction n with
  | zero => exact h₀
  | succ n ih =>
    rw [List.range_succ, List.foldlM_append]
    refine bind (ih fun i hi => hstep i (Nat.lt_succ_of_lt hi)) fun b hb => ?_
    rw [List.foldlM_cons]
    exact bind (hstep n (Nat.lt_succ_self n) b hb) fun b' hb' => hb'

end Outcome

theorem ok_bind (a : α) (f : α → Except ε β) : (Except.ok a >>= f) = f a := rfl

theorem error_bind (e : ε) (f : α → Except ε β) : (Except.error e >>= f) = .error e := rfl

/-- Peel a successful sequence apart. -/
theorem exists_of_bind_ok {x : Except ε α} {f : α → Except ε β} {b : β}
    (h : (x >>= f) = .ok b) : ∃ a, x = .ok a ∧ f a = .ok b := by
  cases x with
  | ok a => exact ⟨a, rfl, h⟩
  | error e => cases h

/-! ## Logs -/

/-- A computation that may stop, and the log it leaves in either case. -/
structure Traced (ι ε α : Type) where
  log : List ι
  result : Except ε α

namespace Traced

variable {ι : Type}

/-- A computation that leaves no log. -/
def lift (x : Except ε α) : Traced ι ε α := ⟨[], x⟩

/-- An entry of the log. -/
def tell (i : ι) : Traced ι ε Unit := ⟨[i], .ok ()⟩

instance : Monad (Traced ι ε) where
  pure a := lift (.ok a)
  bind x f :=
    match x.result with
    | .ok a => ⟨x.log ++ (f a).log, (f a).result⟩
    | .error e => ⟨x.log, .error e⟩

@[simp] theorem result_lift (x : Except ε α) : (lift x : Traced ι ε α).result = x := rfl

@[simp] theorem log_lift (x : Except ε α) : (lift x : Traced ι ε α).log = [] := rfl

@[simp] theorem result_tell (i : ι) : (tell i : Traced ι ε Unit).result = .ok () := rfl

@[simp] theorem log_tell (i : ι) : (tell i : Traced ι ε Unit).log = [i] := rfl

/-- The result of a sequence does not depend on the logs. -/
@[simp] theorem result_bind (x : Traced ι ε α) (f : α → Traced ι ε β) :
    (x >>= f).result = x.result >>= fun a => (f a).result := by
  change (match x.result with
    | .ok a => (⟨x.log ++ (f a).log, (f a).result⟩ : Traced ι ε β)
    | .error e => ⟨x.log, .error e⟩).result = _
  cases x.result <;> rfl

theorem log_bind (x : Traced ι ε α) (f : α → Traced ι ε β) :
    (x >>= f).log = x.log ++ (match x.result with
      | .ok a => (f a).log
      | .error _ => []) := by
  change (match x.result with
    | .ok a => (⟨x.log ++ (f a).log, (f a).result⟩ : Traced ι ε β)
    | .error e => ⟨x.log, .error e⟩).log = _
  cases x.result with
  | ok a => rfl
  | error e => exact (List.append_nil _).symm

@[simp] theorem log_bind_lift (x : Traced ι ε α) (f : α → Except ε β) :
    (x >>= fun a => lift (f a)).log = x.log := by
  rw [log_bind]
  cases x.result <;> exact List.append_nil _

@[simp] theorem log_lift_bind (x : Except ε α) (f : α → Traced ι ε β) :
    (lift x >>= f).log = match x with
      | .ok a => (f a).log
      | .error _ => [] := log_bind _ _

end Traced

end RiscvOs
