import RiscvOs.Mem.Map

/-!
# What `page_unmap_free` and `free_page_table` do

* `pageUnmapFree_spec`: the pages of the range are unmapped, the frames behind them are given back
  (or kept, by the flag), and the table keeps its frames.
* `freePageTable_spec`: a table without a mapping left is given back frame by frame, once each.
* **`execFreeLowhalf_spec`**, **`freeSpace_spec`**: both together.

None of them can stop: every frame they free is handed out, and no leaf is left behind.
-/

set_option autoImplicit false

namespace RiscvOs

open PageTableEntry

/-- The frame a translation leads to. -/
def leaf (L : ℕ → Option Word) (v : ℕ) : Multiset ℕ := (L v).elim 0 fun e => {ppn e}

/-- The frames behind the pages `[v, v + n)`. -/
def leaves (L : ℕ → Option Word) (v n : ℕ) : Multiset ℕ := ∑ x ∈ Finset.Ico v (v + n), leaf L x

/-- The translation without the pages `[v, v + n)`. -/
def unmapped (L : ℕ → Option Word) (v n : ℕ) : ℕ → Option Word := fun x =>
  if v ≤ x ∧ x < v + n then none else L x

theorem leaves_zero (L : ℕ → Option Word) (v : ℕ) : leaves L v 0 = 0 := by
  rw [leaves, add_zero, Finset.Ico_self, Finset.sum_empty]

theorem leaves_congr {L L' : ℕ → Option Word} {v n : ℕ} (h : ∀ x, v ≤ x → x < v + n → L' x = L x) :
    leaves L' v n = leaves L v n :=
  Finset.sum_congr rfl fun x hx => by
    rw [Finset.mem_Ico] at hx
    rw [leaf, leaf, h x hx.1 hx.2]

theorem leaves_succ (L : ℕ → Option Word) (v n : ℕ) :
    leaves L v (n + 1) = leaf L v + leaves L (v + 1) n := by
  rw [leaves, Finset.sum_eq_sum_Ico_succ_bot (by omega), leaves,
    show v + (n + 1) = v + 1 + n by omega]

theorem unmapped_zero (L : ℕ → Option Word) (v : ℕ) : unmapped L v 0 = L := by
  funext x
  exact if_neg (by omega)

theorem unmapped_succ (L : ℕ → Option Word) (v n : ℕ) :
    unmapped (Function.update L v none) (v + 1) n = unmapped L v (n + 1) := by
  funext x
  by_cases hx : x = v
  · subst hx
    rw [unmapped, unmapped, Function.update_self, ite_self, if_pos (by omega)]
  · rw [unmapped, unmapped, Function.update_of_ne hx]
    by_cases hr : v + 1 ≤ x ∧ x < v + 1 + n
    · rw [if_pos hr, if_pos (by omega)]
    · rw [if_neg hr, if_neg (by omega)]

theorem floorPhys_ptePa (e : Word) : floorPhys (physAddrFromSizeT (ptePa e)) = ppn e := by
  have := ppn_lt e
  rw [floorPhys, physAddrFromSizeT, ptePa, pageSize_eq, Nat.mod_eq_of_lt (by omega)]
  omega

/-- Storing into a frame of `N` frees nothing. -/
theorem Frees.store (m : Mem) {N : Multiset ℕ} {p : ℕ} (hp : p ∈ N) (i : Fin 512) (w : Word) :
    Frees m (m.store p i w) N 0 0 :=
  ⟨rfl, fun f hf => Function.update_of_ne (fun he : f = p => hf (he ▸ hp)) _ _, rfl, rfl, rfl,
    fun _ => ⟨rfl, rfl⟩, fun h => absurd rfl h⟩

/-! ## Unmapping a range -/

section Unmap

variable {lo : ℕ} {m : Mem} {pt : PageTable} {N : Multiset ℕ} {L : ℕ → Option Word} {v n : ℕ}
  {free : Bool}

/-- Emptying the entry of a mapped page. -/
theorem Table.clear {ram : ℕ → Fin 512 → Word} {root : ℕ} {p : PtePtr} (h : Table ram root N L)
    (hN : N.Nodup) (hv : v < 2 ^ 27)
    (hw : Radix.walk pteFormat ram (getPageOffset v).1 (getPageOffset v).2 root = some p) :
    Table (Radix.setAt ram p.1 p.2 empty) root N (Function.update L v none) := by
  have hn : (Radix.nodes pteFormat ram 2 root).Nodup := by
    rw [show Radix.nodes pteFormat ram 2 root = N from h.nodes]
    exact hN
  refine ⟨⟨(Radix.nodes_setAt hn hw).trans h.nodes, fun x hx => ?_⟩,
    Radix.Interior.setAt hn hw h.links⟩
  rw [RiscvOs.lookup]
  by_cases hxv : x = v
  · subst hxv
    rw [Function.update_self]
    exact (Radix.get_setAt_self hn hw).trans
      (if_neg (by rw [show pteFormat.valid empty = false from isValid_zero]; decide))
  · rw [Function.update_of_ne hxv, ← h.lookup x hx]
    refine Radix.get_setAt_of_ne hn hw rfl fun he => hxv ?_
    exact getPageOffset_injective hx hv (Prod.ext (List.cons.inj he).1 (List.cons.inj he).2)

theorem pageUnmapFreeOne_spec (h : Table m.ram pt.rootPpn N L) (hv : v < 2 ^ 27)
    (ho : Own lo m (N + if free then leaf L v else 0)) :
    Outcome (pageUnmapFreeOne pt free v m)
      (fun m' => ∃ d, Frees m m' N (if free then leaf L v else 0) d ∧
        Table m'.ram pt.rootPpn N (Function.update L v none)) fun _ => False := by
  have hN : N.Nodup := (ho.mono (Multiset.le_add_right _ _)).nodup
  rw [pageUnmapFreeOne, virtPageNumFromSizeT, Nat.mod_eq_of_lt hv]
  cases hf : findPte m.ram pt v with
  | none =>
    have hL : L v = none := (h.lookup v hv).symm.trans (findPte_eq_none hf)
    refine ⟨0, ?_, ?_⟩
    · rw [leaf, hL, Option.elim_none, ite_self]
      exact Frees.refl m N
    · rwa [← hL, Function.update_eq_self]
  | some p =>
    obtain ⟨hw, hl⟩ := findPte_eq_some hf
    have hL : L v = some (m.ram p.1 p.2) := (h.lookup v hv).symm.trans hl
    have hp : p.1 ∈ N := h.nodes ▸ Radix.walk_mem hw
    simp only [floorPhys_ptePa]
    cases free with
    | false =>
      refine ⟨0, Frees.store m hp p.2 empty, ?_⟩
      rw [store_ram]
      exact h.clear hN hv hw
    | true =>
      simp only [if_true, leaf, hL, Option.elim_some] at ho ⊢
      refine Outcome.bind (kfree_spec (ho.mono (Multiset.le_add_left _ _))) ?_
      rintro m₁ ⟨hram, d, hfr⟩
      refine ⟨d, ?_, ?_⟩
      · have := (hfr.mono (Multiset.zero_le N)).trans (Frees.store m₁ hp p.2 empty)
        rwa [add_zero, add_zero] at this
      · rw [store_ram, hram]
        exact h.clear hN hv hw

/-- **`page_unmap_free` unmaps the range.** -/
theorem pageUnmapFree_spec (h : Table m.ram pt.rootPpn N L) (hv : v + n ≤ 2 ^ 27)
    (ho : Own lo m (N + if free then leaves L v n else 0)) :
    Outcome (pageUnmapFree pt free v n m)
      (fun m' => ∃ d, Frees m m' N (if free then leaves L v n else 0) d ∧
        Table m'.ram pt.rootPpn N (unmapped L v n)) fun _ => False := by
  induction n generalizing m v L with
  | zero =>
    rw [pageUnmapFree, unmapped_zero, leaves_zero, ite_self]
    exact ⟨0, Frees.refl m N, h⟩
  | succ n ih =>
    have hsum : (if free then leaves L v (n + 1) else 0) = (if free then leaf L v else 0) +
        if free then leaves (Function.update L v none) (v + 1) n else 0 := by
      have hrest : leaves (Function.update L v none) (v + 1) n = leaves L (v + 1) n :=
        leaves_congr fun x hx _ => Function.update_of_ne (by omega) _ _
      rw [leaves_succ, hrest]
      split_ifs
      · rfl
      · rfl
    rw [hsum] at ho ⊢
    rw [pageUnmapFree]
    refine Outcome.bind (pageUnmapFreeOne_spec h (by omega)
      (ho.mono (add_le_add_right (Multiset.le_add_right _ _) _))) ?_
    rintro m₁ ⟨d₁, hf₁, ht₁⟩
    rw [add_comm (if free then leaf L v else 0), ← add_assoc] at ho
    refine (ih ht₁ (by omega) (ho.frees hf₁)).imp ?_
    rintro m' ⟨d₂, hf₂, ht₂⟩
    exact ⟨d₁ + d₂, hf₁.trans hf₂, unmapped_succ L v n ▸ ht₂⟩

end Unmap

/-! ## Freeing the frames of a table -/

section FreeTable

variable {lo : ℕ} {m : Mem} {n k d : ℕ}

/-- The frames below the entry `i` of `n`. -/
def subFrames (ram : ℕ → Fin 512 → Word) (k n : ℕ) (i : Fin 512) : Multiset ℕ :=
  if isValid (ram n i) then Radix.nodes pteFormat ram k (ppn (ram n i)) else 0

theorem nodes_eq_sum (ram : ℕ → Fin 512 → Word) (k n : ℕ) :
    Radix.nodes pteFormat ram (k + 1) n =
      {n} + ((List.finRange 512).map (subFrames ram k n)).sum := by
  rw [Radix.nodes_succ_sum, Multiset.singleton_add, ← Fin.sum_univ_def]
  exact congrArg _ (Finset.sum_congr rfl fun _ _ => rfl)

/-- The invariant of the loop over the entries of `n`: the subtrees `done` are given back, those
`todo` are as they were. -/
structure Freeing (m m' : Mem) (k n : ℕ) (done todo : List (Fin 512)) (dr : Multiset ℕ) : Prop where
  frees : Frees m m' (Radix.nodes pteFormat m.ram (k + 1) n)
    (done.map (subFrames m.ram k n)).sum dr
  entry : ∀ i ∈ todo, m'.ram n i = m.ram n i
  below : ∀ i ∈ todo, ∀ f ∈ subFrames m.ram k n i, m'.ram f = m.ram f

theorem subFrames_of_valid {ram : ℕ → Fin 512 → Word} {i : Fin 512} (hv : isValid (ram n i)) :
    subFrames ram k n i = Radix.nodes pteFormat ram k (ppn (ram n i)) := if_pos hv

/-- One turn of the loop on an interior entry. -/
theorem Freeing.step_link {m' m'' : Mem} {i : Fin 512} {done todo : List (Fin 512)}
    {dr dr' : Multiset ℕ} (h : Freeing m m' k n done (i :: todo) dr) (hi : i ∉ todo)
    (hn : (Radix.nodes pteFormat m.ram (k + 1) n).Nodup) (hv : isValid (m.ram n i))
    (hf : Frees m' m'' (subFrames m.ram k n i) (subFrames m.ram k n i) dr') :
    Freeing m (m''.store n i empty) k n (done ++ [i]) todo (dr + dr') := by
  rw [subFrames_of_valid hv] at hf
  have hle : Radix.nodes pteFormat m.ram k (ppn (m.ram n i)) ≤
      Radix.nodes pteFormat m.ram (k + 1) n := Radix.child_le (F := pteFormat) hv
  have hroot : n ∉ Radix.nodes pteFormat m.ram k (ppn (m.ram n i)) :=
    Radix.root_not_mem_child (F := pteFormat) hn hv
  refine ⟨?_, fun x hx => ?_, fun x hx f hfx => ?_⟩
  · have := (h.frees.trans (hf.mono hle)).trans
      (Frees.store m'' (Radix.root_mem_nodes (F := pteFormat)) i empty)
    rw [add_zero, add_zero] at this
    rwa [List.map_append, List.sum_append, List.map_singleton, List.sum_singleton,
      subFrames_of_valid hv]
  · have hxi : x ≠ i := fun he => hi (he ▸ hx)
    rw [store_ram, Radix.setAt_self_of_ne hxi, hf.frame n hroot]
    exact h.entry x (List.mem_cons_of_mem _ hx)
  · have hxi : x ≠ i := fun he => hi (he ▸ hx)
    have hvx : isValid (m.ram n x) := by
      by_contra hvx
      rw [subFrames, if_neg hvx] at hfx
      exact Multiset.notMem_zero f hfx
    have hfx' := hfx
    rw [subFrames_of_valid hvx] at hfx'
    have hfn : f ≠ n := fun he =>
      Radix.root_not_mem_child (F := pteFormat) hn hvx (he ▸ hfx')
    rw [store_ram, Radix.setAt_of_ne hfn, hf.frame f fun hfi =>
      Radix.not_mem_sibling (F := pteFormat) hn hv hvx hxi hfi hfx']
    exact h.below x (List.mem_cons_of_mem _ hx) f hfx

/-- One turn of the loop on an empty entry. -/
theorem Freeing.step_empty {m' : Mem} {i : Fin 512} {done todo : List (Fin 512)}
    {dr : Multiset ℕ} (h : Freeing m m' k n done (i :: todo) dr)
    (hv : isValid (m.ram n i) = false) : Freeing m m' k n (done ++ [i]) todo dr := by
  have h₀ : subFrames m.ram k n i = 0 := if_neg (by rw [hv]; decide)
  refine ⟨?_, fun x hx => h.entry x (List.mem_cons_of_mem _ hx),
    fun x hx => h.below x (List.mem_cons_of_mem _ hx)⟩
  rw [List.map_append, List.sum_append, List.map_singleton, List.sum_singleton, h₀, add_zero]
  exact h.frees

theorem freeLoop_empty (recurse : ℕ → Mem → Except Halt Mem) (hv : ∀ i, isValid (m.ram n i) = false)
    (l : List (Fin 512)) : l.foldlM (freePageTableEntry recurse n) m = .ok m := by
  induction l with
  | nil => rfl
  | cons i l ih =>
    have hi : has (m.ram n i) pteV = false := hv i
    have h₁ : freePageTableEntry recurse n m i = .ok m := by
      simp only [freePageTableEntry, hi, Bool.false_and, Bool.false_eq_true, if_false]
    rw [List.foldlM_cons, h₁]
    exact ih

/-- The loop of `free_page_table` over entries `l`, when the recursive call frees each subtree. -/
theorem freeLoop_spec {recurse : ℕ → Mem → Except Halt Mem} {l : List (Fin 512)} (hl : l.Nodup)
    (hn : (Radix.nodes pteFormat m.ram (k + 1) n).Nodup)
    (ho : Own lo m ({n} + (l.map (subFrames m.ram k n)).sum))
    (hlink : ∀ i, isValid (m.ram n i) → IsLink (m.ram n i))
    (hrec : ∀ i b, isValid (m.ram n i) → Own lo b (subFrames m.ram k n i) →
      (∀ f ∈ subFrames m.ram k n i, b.ram f = m.ram f) →
      Outcome (recurse (ppn (m.ram n i)) b)
        (fun b' => ∃ dr, Frees b b' (subFrames m.ram k n i) (subFrames m.ram k n i) dr)
        fun _ => False) :
    Outcome (l.foldlM (freePageTableEntry recurse n) m)
      (fun b => ∃ dr, Freeing m b k n l [] dr) fun _ => False := by
  refine Outcome.foldlM (I := fun done todo b => ∃ dr, Freeing m b k n done todo dr) ?_ ?_
  · exact ⟨0, Frees.refl m _, fun _ _ => rfl, fun _ _ _ _ => rfl⟩
  · rintro done i todo b hsplit ⟨dr, h⟩
    have hi : i ∉ todo := by
      rw [← hsplit, List.nodup_append] at hl
      exact (List.nodup_cons.mp hl.2.1).1
    have he : b.ram n i = m.ram n i := h.entry i List.mem_cons_self
    cases hv : isValid (m.ram n i) with
    | false =>
      have hv' : has (b.ram n i) pteV = false := by rw [he]; exact hv
      simp only [freePageTableEntry, hv', Bool.false_and, Bool.false_eq_true, if_false]
      exact ⟨dr, h.step_empty hv⟩
    | true =>
      have hv' : has (b.ram n i) pteV = true := by rw [he]; exact hv
      have hlk : has (b.ram n i) (pteR ||| pteW ||| pteX) = false := by
        rw [he]; exact hlink i hv
      simp only [freePageTableEntry, hv', hlk, Bool.not_false, Bool.and_self, if_true]
      have hob : Own lo b (subFrames m.ram k n i) := by
        have hs := hsplit ▸ ho
        rw [List.map_append, List.sum_append, List.map_cons, List.sum_cons,
          add_comm (List.map _ done).sum, ← add_assoc] at hs
        refine (hs.frees h.frees).mono ?_
        rw [add_left_comm]
        exact Multiset.le_add_right _ _
      refine Outcome.bind (he ▸ hrec i b hv hob (h.below i List.mem_cons_self)) ?_
      rintro b' ⟨dr', hf⟩
      exact ⟨dr + dr', h.step_link hi hn hv hf⟩

/-- **`free_page_table` gives back every frame of an empty table, once.** -/
theorem freePageTable_spec (hd : k < d) (ho : Own lo m (Radix.nodes pteFormat m.ram k n))
    (hl : Radix.Interior pteFormat IsLink m.ram k n)
    (hbare : ∀ i is, is.length = k → Radix.get pteFormat m.ram i is n = none) :
    Outcome (freePageTable d n m)
      (fun m' => ∃ dr, Frees m m' (Radix.nodes pteFormat m.ram k n)
        (Radix.nodes pteFormat m.ram k n) dr) fun _ => False := by
  induction k generalizing m n d with
  | zero =>
    obtain ⟨d, rfl⟩ : ∃ d', d = d' + 1 := ⟨d - 1, by omega⟩
    have hv : ∀ i, isValid (m.ram n i) = false := by
      intro i
      have := hbare i [] rfl
      by_contra hv
      rw [Radix.get, Radix.walk, Option.bind_some] at this
      rw [if_pos (show pteFormat.valid (m.ram n i) = true from Bool.not_eq_false _ ▸ hv)] at this
      cases this
    rw [Radix.nodes_zero] at ho ⊢
    rw [freePageTable_succ, freeLoop_empty _ hv]
    refine (kfree_spec ho).imp ?_
    rintro m' ⟨-, dr, hf⟩
    exact ⟨dr, hf.mono (Multiset.zero_le _)⟩
  | succ k ih =>
    obtain ⟨d, rfl⟩ : ∃ d', d = d' + 1 := ⟨d - 1, by omega⟩
    have hsum := nodes_eq_sum m.ram k n
    have hnd := List.nodup_finRange 512
    rw [freePageTable_succ]
    generalize List.finRange 512 = l at hsum hnd ⊢
    have ho' := hsum ▸ ho
    refine Outcome.bind (freeLoop_spec hnd ho.nodup ho' (fun i hv => (hl i hv).1)
      fun i b hv hob hag => ?_) ?_
    · -- the subtree below entry `i` is as it was, so the induction hypothesis frees it
      rw [subFrames_of_valid hv] at hob hag ⊢
      have hnb := Radix.nodes_congr hag
      rw [← hnb] at hob ⊢
      exact ih (by omega) hob ((hl i hv).2.congr hag) fun j js hjs => by
        rw [Radix.get_congr hjs hag, ← hbare i (j :: js) (by rw [List.length_cons, hjs])]
        exact (Radix.get_cons_of_valid (F := pteFormat) hv).symm
    · rintro b ⟨dr, h⟩
      refine (kfree_spec (ho'.frees h.frees)).imp ?_
      rintro m' ⟨-, dr', hf⟩
      refine ⟨dr + dr', ?_⟩
      have := h.frees.trans (hf.mono (Multiset.zero_le _))
      rwa [add_comm (List.map _ _).sum, ← hsum] at this

end FreeTable

/-! ## Freeing an address space -/

section FreeSpace

variable {lo : ℕ} {m : Mem} {pt : PageTable} {N : Multiset ℕ} {L : ℕ → Option Word} {sz : ℕ}

/-- **The low half and the table.** All mappings left are below `sz`. -/
theorem execFreeLowhalf_spec (h : Table m.ram pt.rootPpn N L) (hsz : sz / 4096 ≤ 2 ^ 27)
    (hL : ∀ v < 2 ^ 27, sz / 4096 ≤ v → L v = none) (ho : Own lo m (N + leaves L 0 (sz / 4096))) :
    Outcome (execFreeLowhalf m pt sz)
      (fun m' => ∃ d, Frees m m' N (leaves L 0 (sz / 4096) + N) d) fun _ => False := by
  rw [execFreeLowhalf, pageSize_eq]
  have hun : Outcome (if 0 < sz then
      pageUnmapFree pt true (virtPageNumFromSizeT 0) (sz / 4096) m else .ok m)
      (fun m' => ∃ d, Frees m m' N (leaves L 0 (sz / 4096)) d ∧
        Table m'.ram pt.rootPpn N (unmapped L 0 (sz / 4096))) fun _ => False := by
    split_ifs with hpos
    · exact pageUnmapFree_spec h (by rw [virtPageNumFromSizeT]; omega) ho
    · obtain rfl : sz = 0 := by omega
      rw [Nat.zero_div, leaves_zero, unmapped_zero]
      exact ⟨0, Frees.refl m N, h⟩
  refine Outcome.bind hun ?_
  rintro m₁ ⟨d₁, hf₁, ht₁⟩
  have hN : Radix.nodes pteFormat m₁.ram 2 pt.rootPpn = N := ht₁.nodes
  refine (freePageTable_spec (k := 2) (by decide) (by rw [hN]; exact ho.frees hf₁) ht₁.links
    fun i is his => ?_).imp ?_
  · obtain ⟨j, l, rfl⟩ := List.length_eq_two.mp his
    obtain ⟨v, hv, hoff⟩ := exists_getPageOffset i j l
    have := ht₁.lookup v hv
    rw [lookup, hoff] at this
    rw [this, unmapped]
    split_ifs with hr
    · rfl
    · exact hL v hv (by omega)
  · rintro m' ⟨d₂, hf₂⟩
    rw [hN] at hf₂
    exact ⟨d₁ + d₂, hf₁.trans hf₂⟩

/-- Unmapping one high page. -/
theorem unmapPage_spec (free : Bool) {v : ℕ} (h : Table m.ram pt.rootPpn N L) (hv : v < 2 ^ 27)
    (ho : Own lo m (N + if free then leaf L v else 0)) :
    Outcome (pageUnmapFree pt free v 1 m)
      (fun m' => ∃ d, Frees m m' N (if free then leaf L v else 0) d ∧
        Table m'.ram pt.rootPpn N (Function.update L v none)) fun _ => False := by
  rw [pageUnmapFree]
  refine Outcome.bind (pageUnmapFreeOne_spec h hv ho) ?_
  rintro m₁ h₁
  rw [pageUnmapFree]
  exact h₁

/-- **Freeing an address space**: its low half, its table and, by the flag, its trap page. -/
theorem freeSpace_spec {freeTrap : Bool} (h : Table m.ram pt.rootPpn N L)
    (hsz : sz / 4096 ≤ trapframeVpn)
    (hL : ∀ v < trapframeVpn, sz / 4096 ≤ v → L v = none)
    (ho : Own lo m (N + (if freeTrap then leaf L trapframeVpn else 0) + leaves L 0 (sz / 4096))) :
    Outcome (freeSpace freeTrap m pt sz)
      (fun m' => ∃ d, Frees m m' N ((if freeTrap then leaf L trapframeVpn else 0) +
        leaves L 0 (sz / 4096) + N) d) fun _ => False := by
  have hv₁ : trampolineVpn < 2 ^ 27 := by decide
  have hv₂ : trapframeVpn < 2 ^ 27 := by decide
  have hne : trapframeVpn ≠ trampolineVpn := by decide
  rw [freeSpace, floorVirts_trampoline, floorVirts_trapframe]
  have hle : N + (if false then leaf L trampolineVpn else 0) ≤
      N + (if freeTrap then leaf L trapframeVpn else 0) + leaves L 0 (sz / 4096) := by
    rw [if_neg (by decide), add_zero, add_assoc]
    exact Multiset.le_add_right _ _
  refine Outcome.bind (unmapPage_spec false h hv₁ (ho.mono hle)) ?_
  rintro m₁ ⟨d₁, hf₁, ht₁⟩
  rw [if_neg (by decide)] at hf₁
  have hleaf : leaf (Function.update L trampolineVpn none) trapframeVpn = leaf L trapframeVpn := by
    rw [leaf, leaf, Function.update_of_ne hne]
  have ho₁ := (by rw [add_zero]; exact ho : Own lo m (_ + 0)).frees hf₁
  refine Outcome.bind (unmapPage_spec freeTrap ht₁ hv₂
    (by rw [hleaf]; exact ho₁.mono (Multiset.le_add_right _ _))) ?_
  rintro m₂ ⟨d₂, hf₂, ht₂⟩
  rw [hleaf] at hf₂
  rw [add_right_comm] at ho₁
  have hlow : ∀ v < trapframeVpn, Function.update (Function.update L trampolineVpn none)
      trapframeVpn none v = L v := by
    intro v hv
    have : trapframeVpn < trampolineVpn := by decide
    rw [Function.update_of_ne (by omega), Function.update_of_ne (by omega)]
  have hls : leaves (Function.update (Function.update L trampolineVpn none) trapframeVpn none) 0
      (sz / 4096) = leaves L 0 (sz / 4096) :=
    leaves_congr fun v _ hv => hlow v (by omega)
  refine (execFreeLowhalf_spec ht₂ (by omega) (fun v hv hsv => ?_)
    (by rw [hls]; exact ho₁.frees hf₂)).imp ?_
  · by_cases h₁ : v = trapframeVpn
    · rw [h₁, Function.update_self]
    rw [Function.update_of_ne h₁]
    by_cases h₂ : v = trampolineVpn
    · rw [h₂, Function.update_self]
    rw [Function.update_of_ne h₂]
    refine hL v ?_ hsv
    unfold trampolineVpn trapframeVpn at *
    omega
  · rintro m' ⟨d₃, hf₃⟩
    rw [hls] at hf₃
    refine ⟨d₁ + d₂ + d₃, ?_⟩
    have := (hf₁.trans hf₂).trans hf₃
    rwa [zero_add, ← add_assoc] at this

end FreeSpace

end RiscvOs
