import Mathlib

/-!
# Radix trees stored in a heap

A heap maps a node and an index to a word. A `Format` says which words are links and where they
lead. A tree of height `k` below a node `n` is read off the heap: `nodes` is the multiset of nodes
it occupies, `walk` the place of the last-level word on a path, `get` that word when it is valid.

* `nodes_congr`, `walk_congr`, `get_congr`: a tree depends only on the nodes it occupies.
* `walk_keep`: a path survives as long as the valid words stay.
* `nodes_replace`, `get_replace`: what a change inside one subtree does to the whole tree.
* `nodes_setAt`, `get_setAt_self`, `get_setAt_of_ne`: writing the last-level word of a path.
* `nodes_link`, `get_link`: linking an empty node below an invalid word.
-/

set_option autoImplicit false

namespace RiscvOs

/-- Which words link to a node, and to which. -/
structure Format (W ν : Type) where
  valid : W → Bool
  child : W → ν

namespace Radix

variable {ν ι W : Type} [Fintype ι] (F : Format W ν)

/-- The nodes of the tree of height `k` below `n`. -/
def nodes (h : ν → ι → W) : ℕ → ν → Multiset ν
  | 0, n => {n}
  | k + 1, n => n ::ₘ ∑ i, if F.valid (h n i) then nodes h k (F.child (h n i)) else 0

omit [Fintype ι] in
/-- The place of the last-level word on the path `i :: is`. -/
def walk (h : ν → ι → W) : ι → List ι → ν → Option (ν × ι)
  | i, [], n => some (n, i)
  | i, j :: js, n => if F.valid (h n i) then walk h j js (F.child (h n i)) else none

omit [Fintype ι] in
/-- The valid last-level word on the path `i :: is`. -/
def get (h : ν → ι → W) (i : ι) (is : List ι) (n : ν) : Option W :=
  (walk F h i is n).bind fun p => if F.valid (h p.1 p.2) then some (h p.1 p.2) else none

omit [Fintype ι] in
/-- Every link of the tree satisfies `P`. -/
def Interior (P : W → Prop) (h : ν → ι → W) : ℕ → ν → Prop
  | 0, _ => True
  | k + 1, n => ∀ i, F.valid (h n i) → P (h n i) ∧ Interior P h k (F.child (h n i))

omit [Fintype ι] in
/-- The number of nodes missing on the path `i :: is`. -/
def missing (h : ν → ι → W) : ι → List ι → ν → ℕ
  | _, [], _ => 0
  | i, j :: js, n => if F.valid (h n i) then missing h j js (F.child (h n i)) else js.length + 1

/-- Write one word. -/
def setAt [DecidableEq ν] [DecidableEq ι] (h : ν → ι → W) (n : ν) (i : ι) (w : W) : ν → ι → W :=
  Function.update h n (Function.update (h n) i w)

variable {F} {P : W → Prop} {h h' : ν → ι → W} {k : ℕ} {n m : ν} {i j : ι} {is : List ι}

/-! ## A tree and its subtrees -/

theorem nodes_zero : nodes F h 0 n = {n} := rfl

theorem nodes_succ_sum : nodes F h (k + 1) n =
    n ::ₘ ∑ i, if F.valid (h n i) then nodes F h k (F.child (h n i)) else 0 := rfl

theorem root_mem_nodes : n ∈ nodes F h k n := by
  cases k <;> simp [nodes]

omit [Fintype ι] in
theorem walk_cons_of_valid {js : List ι} (hv : F.valid (h n i)) :
    walk F h i (j :: js) n = walk F h j js (F.child (h n i)) := by
  simp [walk, hv]

omit [Fintype ι] in
theorem get_cons_of_valid {js : List ι} (hv : F.valid (h n i)) :
    get F h i (j :: js) n = get F h j js (F.child (h n i)) := by
  rw [get, walk_cons_of_valid hv, get]

omit [Fintype ι] in
theorem get_cons_of_not_valid {js : List ι} (hv : F.valid (h n i) = false) :
    get F h i (j :: js) n = none := by
  simp [get, walk, hv]

omit [Fintype ι] in
theorem get_eq_some_iff {w : W} : get F h i is n = some w ↔
    ∃ p, walk F h i is n = some p ∧ F.valid w ∧ h p.1 p.2 = w := by
  rw [get, Option.bind_eq_some_iff]
  refine exists_congr fun p => and_congr_right fun _ => ?_
  constructor
  · intro hw
    split_ifs at hw with hv
    obtain rfl := Option.some.inj hw
    exact ⟨hv, rfl⟩
  · rintro ⟨hv, rfl⟩
    exact if_pos hv

variable [DecidableEq ι]

/-- Single out the subtree at `i`. -/
theorem nodes_succ (i : ι) : nodes F h (k + 1) n =
    n ::ₘ ((if F.valid (h n i) then nodes F h k (F.child (h n i)) else 0) +
      ∑ x ∈ Finset.univ.erase i, if F.valid (h n x) then nodes F h k (F.child (h n x)) else 0) := by
  rw [nodes, ← Finset.add_sum_erase Finset.univ _ (Finset.mem_univ i)]

theorem child_le (hv : F.valid (h n i)) : nodes F h k (F.child (h n i)) ≤ nodes F h (k + 1) n := by
  rw [nodes_succ i, if_pos hv]
  exact (Multiset.le_add_right _ _).trans (Multiset.le_cons_self _ _)

theorem child_nodup (hn : (nodes F h (k + 1) n).Nodup) (hv : F.valid (h n i)) :
    (nodes F h k (F.child (h n i))).Nodup := Multiset.nodup_of_le (child_le hv) hn

theorem root_not_mem_child (hn : (nodes F h (k + 1) n).Nodup) (hv : F.valid (h n i)) :
    n ∉ nodes F h k (F.child (h n i)) := by
  rw [nodes_succ i, if_pos hv, Multiset.nodup_cons] at hn
  exact fun hm => hn.1 (Multiset.mem_add.mpr (.inl hm))

theorem not_mem_sibling (hn : (nodes F h (k + 1) n).Nodup) (hv : F.valid (h n i)) {x : ι}
    (hx : F.valid (h n x)) (hne : x ≠ i) (hm : m ∈ nodes F h k (F.child (h n i))) :
    m ∉ nodes F h k (F.child (h n x)) := by
  intro hmx
  rw [nodes_succ i, if_pos hv, Multiset.nodup_cons, Multiset.nodup_add] at hn
  refine Multiset.disjoint_left.mp hn.2.2.2 hm ?_
  refine Multiset.mem_sum.mpr ⟨x, Finset.mem_erase.mpr ⟨hne, Finset.mem_univ x⟩, ?_⟩
  rwa [if_pos hx]

omit [DecidableEq ι] in
theorem walk_mem {p : ν × ι} (hw : walk F h i is n = some p) : p.1 ∈ nodes F h is.length n := by
  classical
  induction is generalizing i n with
  | nil =>
    simp only [walk, Option.some.injEq] at hw
    subst hw
    exact root_mem_nodes
  | cons j js ih =>
    simp only [walk] at hw
    split_ifs at hw with hv
    exact Multiset.mem_of_le (child_le hv) (ih hw)

/-! ## Locality -/

omit [DecidableEq ι] in
theorem nodes_congr (hag : ∀ m ∈ nodes F h k n, h' m = h m) :
    nodes F h' k n = nodes F h k n := by
  classical
  induction k generalizing n with
  | zero => rfl
  | succ k ih =>
    rw [nodes, nodes, hag n root_mem_nodes]
    congr 1
    refine Finset.sum_congr rfl fun i _ => ?_
    split_ifs with hv
    · exact ih fun m hm => hag m (Multiset.mem_of_le (child_le hv) hm)
    · rfl

omit [DecidableEq ι] in
theorem walk_congr (hk : is.length = k) (hag : ∀ m ∈ nodes F h k n, h' m = h m) :
    walk F h' i is n = walk F h i is n := by
  classical
  subst hk
  induction is generalizing i n with
  | nil => rfl
  | cons j js ih =>
    rw [walk, walk, hag n root_mem_nodes]
    split_ifs with hv
    · exact ih fun m hm => hag m (Multiset.mem_of_le (child_le hv) hm)
    · rfl

omit [DecidableEq ι] in
/-- A path survives as long as the valid words stay. -/
theorem walk_keep {p : ν × ι} (hk : ∀ m ∈ nodes F h is.length n, ∀ j, F.valid (h m j) →
    h' m j = h m j) (hw : walk F h i is n = some p) : walk F h' i is n = some p := by
  classical
  induction is generalizing i n with
  | nil => exact hw
  | cons j js ih =>
    rw [walk] at hw
    split_ifs at hw with hv
    have he : h' n i = h n i := hk n root_mem_nodes i hv
    rw [walk, he, if_pos hv]
    exact ih (fun m hm => hk m (Multiset.mem_of_le (child_le hv) hm)) hw

omit [DecidableEq ι] in
theorem get_congr (hk : is.length = k) (hag : ∀ m ∈ nodes F h k n, h' m = h m) :
    get F h' i is n = get F h i is n := by
  rw [get, get, walk_congr hk hag]
  cases hw : walk F h i is n with
  | none => rfl
  | some p =>
    subst hk
    simp only [Option.bind_some]
    rw [hag p.1 (walk_mem hw)]

omit [DecidableEq ι] in
theorem Interior.congr (hi : Interior F P h k n) (hag : ∀ m ∈ nodes F h k n, h' m = h m) :
    Interior F P h' k n := by
  classical
  induction k generalizing n with
  | zero => trivial
  | succ k ih =>
    intro i hv
    rw [hag n root_mem_nodes] at hv ⊢
    refine ⟨(hi i hv).1, ih (hi i hv).2 fun m hm => hag m (Multiset.mem_of_le (child_le hv) hm)⟩

/-! ## A change inside one subtree -/

section Replace

variable (hn : (nodes F h (k + 1) n).Nodup) (hv : F.valid (h n i))
  (hag : ∀ m ∈ nodes F h (k + 1) n, m ∉ nodes F h k (F.child (h n i)) → h' m = h m)

include hn hv hag

theorem root_eq_of_replace : h' n = h n := hag n root_mem_nodes (root_not_mem_child hn hv)

theorem sibling_eq_of_replace {x : ι} (hx : F.valid (h n x)) (hne : x ≠ i) :
    ∀ m ∈ nodes F h k (F.child (h n x)), h' m = h m := fun m hm =>
  hag m (Multiset.mem_of_le (child_le hx) hm) fun hmi =>
    not_mem_sibling hn hv hx hne hmi hm

/-- Nodes added to one subtree are added to the tree. -/
theorem nodes_replace {N : Multiset ν}
    (hN : nodes F h' k (F.child (h n i)) = N + nodes F h k (F.child (h n i))) :
    nodes F h' (k + 1) n = N + nodes F h (k + 1) n := by
  rw [nodes_succ i, nodes_succ (h := h) i, root_eq_of_replace hn hv hag, if_pos hv, if_pos hv, hN]
  have hs : ∑ x ∈ Finset.univ.erase i,
        (if F.valid (h n x) then nodes F h' k (F.child (h n x)) else 0) =
      ∑ x ∈ Finset.univ.erase i,
        if F.valid (h n x) then nodes F h k (F.child (h n x)) else 0 := by
    refine Finset.sum_congr rfl fun x hx => ?_
    split_ifs with hvx
    · exact nodes_congr (sibling_eq_of_replace hn hv hag hvx (Finset.ne_of_mem_erase hx))
    · rfl
  rw [hs, Multiset.add_cons, add_assoc]

/-- Paths outside the changed subtree read what they read before. -/
theorem get_replace {x : ι} (hj : is.length = k) : get F h' x (j :: is) n =
    if x = i then get F h' j is (F.child (h n i)) else get F h x (j :: is) n := by
  have hroot := root_eq_of_replace hn hv hag
  split_ifs with hx
  · subst hx
    rw [get_cons_of_valid (by rw [hroot]; exact hv), hroot]
  · cases hvx : F.valid (h n x) with
    | false =>
      rw [get_cons_of_not_valid hvx, get_cons_of_not_valid (by rw [hroot]; exact hvx)]
    | true =>
      rw [get_cons_of_valid hvx, get_cons_of_valid (by rw [hroot]; exact hvx), hroot]
      exact get_congr hj (sibling_eq_of_replace hn hv hag hvx hx)

theorem Interior.replace (hi : Interior F P h (k + 1) n)
    (hi' : Interior F P h' k (F.child (h n i))) : Interior F P h' (k + 1) n := by
  intro x hvx
  rw [root_eq_of_replace hn hv hag] at hvx ⊢
  refine ⟨(hi x hvx).1, ?_⟩
  by_cases hx : x = i
  · subst hx; exact hi'
  · exact (hi x hvx).2.congr (sibling_eq_of_replace hn hv hag hvx hx)

end Replace

/-! ## Writing a last-level word -/

variable [DecidableEq ν]

omit [Fintype ι] in
theorem setAt_of_ne {w : W} (hm : m ≠ n) : setAt h n i w m = h m := by
  simp [setAt, hm]

omit [Fintype ι] in
@[simp] theorem setAt_self (w : W) : setAt h n i w n i = w := by
  simp [setAt]

omit [Fintype ι] in
theorem setAt_self_of_ne {w : W} (hj : j ≠ i) : setAt h n i w n j = h n j := by
  simp [setAt, hj]

theorem setAt_agree {p : ν × ι} {w : W} (hw : walk F h j is (F.child (h n i)) = some p) :
    ∀ m ∈ nodes F h (is.length + 1) n, m ∉ nodes F h is.length (F.child (h n i)) →
      setAt h p.1 p.2 w m = h m := by
  intro m _ hm
  exact setAt_of_ne fun he => hm (he ▸ walk_mem hw)

theorem nodes_setAt {p : ν × ι} {w : W} (hn : (nodes F h is.length n).Nodup)
    (hw : walk F h i is n = some p) :
    nodes F (setAt h p.1 p.2 w) is.length n = nodes F h is.length n := by
  induction is generalizing i n with
  | nil => rfl
  | cons j js ih =>
    simp only [walk] at hw
    split_ifs at hw with hv
    have := nodes_replace (N := 0) hn hv (setAt_agree hw (w := w))
      (by rw [zero_add]; exact ih (child_nodup hn hv) hw)
    rwa [zero_add] at this

theorem Interior.setAt {p : ν × ι} {w : W} (hn : (nodes F h is.length n).Nodup)
    (hw : walk F h i is n = some p) (hi : Interior F P h is.length n) :
    Interior F P (setAt h p.1 p.2 w) is.length n := by
  induction is generalizing i n with
  | nil => trivial
  | cons j js ih =>
    simp only [walk] at hw
    split_ifs at hw with hv
    exact Interior.replace hn hv (setAt_agree hw) hi (ih (child_nodup hn hv) hw (hi i hv).2)

theorem get_setAt_self {p : ν × ι} {w : W} (hn : (nodes F h is.length n).Nodup)
    (hw : walk F h i is n = some p) :
    get F (setAt h p.1 p.2 w) i is n = if F.valid w then some w else none := by
  induction is generalizing i n with
  | nil =>
    simp only [walk, Option.some.injEq] at hw
    subst hw
    simp [get, walk]
  | cons j js ih =>
    simp only [walk] at hw
    split_ifs at hw with hv
    rw [get_replace hn hv (setAt_agree hw) rfl, if_pos rfl]
    exact ih (child_nodup hn hv) hw

theorem get_setAt_of_ne {p : ν × ι} {w : W} (hn : (nodes F h is.length n).Nodup)
    (hw : walk F h i is n = some p) {i' : ι} {is' : List ι} (hl : is'.length = is.length)
    (hne : i' :: is' ≠ i :: is) : get F (setAt h p.1 p.2 w) i' is' n = get F h i' is' n := by
  induction is generalizing i n i' is' with
  | nil =>
    obtain rfl : is' = [] := List.length_eq_zero_iff.mp hl
    have hi : i' ≠ i := fun he => hne (by rw [he])
    simp only [walk, Option.some.injEq] at hw
    subst hw
    simp [get, walk, setAt_self_of_ne hi]
  | cons j js ih =>
    cases is' with
    | nil => simp at hl
    | cons j' js' =>
      have hl' : js'.length = js.length := by simpa using hl
      simp only [walk] at hw
      split_ifs at hw with hv
      rw [get_replace hn hv (setAt_agree hw) hl']
      split_ifs with hi
      · subst hi
        rw [get_cons_of_valid hv]
        exact ih (child_nodup hn hv) hw hl' fun he => hne (by rw [he])
      · rfl

omit [DecidableEq ν] in
/-- Two different paths never end at the same place. -/
theorem walk_injective {p : ν × ι} (hn : (nodes F h is.length n).Nodup)
    (hw : walk F h i is n = some p) {i' : ι} {is' : List ι} (hl : is'.length = is.length)
    (hw' : walk F h i' is' n = some p) : i' :: is' = i :: is := by
  induction is generalizing i n i' is' with
  | nil =>
    obtain rfl : is' = [] := List.length_eq_zero_iff.mp hl
    simp only [walk, Option.some.injEq] at hw hw'
    obtain ⟨-, hi⟩ := Prod.mk.inj (hw'.trans hw.symm)
    rw [hi]
  | cons j js ih =>
    cases is' with
    | nil => simp at hl
    | cons j' js' =>
      have hl' : js'.length = js.length := by simpa using hl
      simp only [walk] at hw hw'
      split_ifs at hw with hv
      split_ifs at hw' with hv'
      have hi : i' = i := by
        by_contra hne
        have hm := walk_mem hw'
        rw [hl'] at hm
        exact not_mem_sibling hn hv hv' hne (walk_mem hw) hm
      subst hi
      rw [ih (child_nodup hn hv) hw hl' hw']

/-! ## Linking an empty node -/

section Link

variable {f : ν} {w : W} (hv : F.valid (h n i) = false) (hw : F.valid w) (hc : F.child w = f)
  (hz : ∀ j, F.valid (h' f j) = false) (hroot : h' n = Function.update (h n) i w)
  (hag : ∀ m ∈ nodes F h (k + 1) n, m ≠ n → h' m = h m)

include hz in
omit [DecidableEq ι] [DecidableEq ν] in
theorem nodes_of_empty : nodes F h' k f = {f} := by
  cases k with
  | zero => rfl
  | succ k => simp [nodes, hz]

include hz in
omit [Fintype ι] [DecidableEq ι] [DecidableEq ν] in
theorem get_of_empty : get F h' i is f = none := by
  cases is with
  | nil => simp [get, walk, hz]
  | cons j js => exact get_cons_of_not_valid (hz i)

include hz in
omit [Fintype ι] [DecidableEq ι] [DecidableEq ν] in
theorem interior_of_empty : Interior F P h' k f := by
  cases k with
  | zero => trivial
  | succ k => exact fun j hj => absurd hj (by simp [hz])

variable (hn : (nodes F h (k + 1) n).Nodup)

include hag hn in
omit [DecidableEq ν] in
theorem child_agree_of_link {x : ι} (hx : F.valid (h n x)) :
    ∀ m ∈ nodes F h k (F.child (h n x)), h' m = h m := fun m hm =>
  hag m (Multiset.mem_of_le (child_le hx) hm) fun he =>
    root_not_mem_child hn hx (he ▸ hm)

include hv hw hc hz hroot hag hn in
omit [DecidableEq ν] in
/-- The linked node joins the tree. -/
theorem nodes_link : nodes F h' (k + 1) n = f ::ₘ nodes F h (k + 1) n := by
  rw [nodes_succ i, nodes_succ (h := h) i, hroot, Function.update_self, if_pos hw, hc,
    nodes_of_empty hz, if_neg (by rw [hv]; decide), zero_add, Multiset.singleton_add,
    Multiset.cons_swap]
  congr 2
  refine Finset.sum_congr rfl fun x hx => ?_
  rw [Function.update_of_ne (Finset.ne_of_mem_erase hx)]
  split_ifs with hvx
  · exact nodes_congr (child_agree_of_link hag hn hvx)
  · rfl

include hv hw hc hz hroot hag hn in
omit [DecidableEq ν] in
/-- Linking an empty node changes no lookup. -/
theorem get_link {x : ι} (hj : is.length = k) : get F h' x (j :: is) n = get F h x (j :: is) n := by
  by_cases hx : x = i
  · subst hx
    rw [get_cons_of_not_valid hv, get_cons_of_valid (by rw [hroot, Function.update_self]; exact hw),
      hroot, Function.update_self, hc]
    exact get_of_empty hz
  · have he : h' n x = h n x := by rw [hroot, Function.update_of_ne hx]
    cases hvx : F.valid (h n x) with
    | false => rw [get_cons_of_not_valid hvx, get_cons_of_not_valid (by rw [he]; exact hvx)]
    | true =>
      rw [get_cons_of_valid hvx, get_cons_of_valid (by rw [he]; exact hvx), he]
      exact get_congr hj (child_agree_of_link hag hn hvx)

include hc hz hroot hag hn in
omit [DecidableEq ν] in
theorem Interior.link (hi : Interior F P h (k + 1) n) (hP : P w) : Interior F P h' (k + 1) n := by
  intro x hvx
  by_cases hx : x = i
  · subst hx
    rw [hroot, Function.update_self, hc]
    exact ⟨hP, interior_of_empty hz⟩
  · rw [hroot, Function.update_of_ne hx] at hvx ⊢
    exact ⟨(hi x hvx).1, (hi x hvx).2.congr (child_agree_of_link hag hn hvx)⟩

end Link

-- from here on a tree is used through its lemmas only
attribute [irreducible] nodes

end Radix

end RiscvOs
