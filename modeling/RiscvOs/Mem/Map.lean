import RiscvOs.Mem.PageTable

/-!
# What the page-table walk and `PageTable_map` do

`PageTree ram root N L` represents a page table: its root is the frame `root`, it occupies exactly
the frames `N`, and it translates page numbers by `L`. It depends on the frames `N` alone
(`Table.congr`), so two tables on different frames do not interfere. A `Table` is also one for the
hardware: its interior entries have none of `R`, `W`, `X`.

* `findPte_eq_some`, `findPte_eq_none`: `find_pte` computes `L`.
* `findPteCreate_spec`: `find_pte_create` adds the missing levels and changes no translation.
* `mapPerPage_tree`, `mapLoop_tree`, **`map_tree`**, `map_spec`: the requested pages, and no others,
  are mapped.
-/

set_option autoImplicit false

namespace RiscvOs

open PageTableEntry

/-- Page tables are radix trees whose links are the valid entries. -/
def pteFormat : Format Word ℕ := ⟨isValid, ppn⟩

/-- The root and interior frames of a table. -/
def tableFrames (ram : ℕ → Fin 512 → Word) (root : ℕ) : Multiset ℕ :=
  Radix.nodes pteFormat ram 2 root

/-- The entry that translates a page number. -/
def lookup (ram : ℕ → Fin 512 → Word) (root vpn : ℕ) : Option Word :=
  Radix.get pteFormat ram (getPageOffset vpn).1 (getPageOffset vpn).2 root

/-- An interior entry has none of `R`, `W`, `X`. -/
def IsLink (e : Word) : Prop := has e (pteR ||| pteW ||| pteX) = false

/-- The table at `root` occupies the frames `N` and translates by `L`. -/
structure PageTree (ram : ℕ → Fin 512 → Word) (root : ℕ) (N : Multiset ℕ) (L : ℕ → Option Word) :
    Prop where
  nodes : tableFrames ram root = N
  lookup : ∀ v < 2 ^ 27, RiscvOs.lookup ram root v = L v

/-- Every interior entry is a link. -/
def Links (ram : ℕ → Fin 512 → Word) (root : ℕ) : Prop :=
  Radix.Interior pteFormat IsLink ram 2 root

/-- The table at `root` is one for the hardware as well. -/
structure Table (ram : ℕ → Fin 512 → Word) (root : ℕ) (N : Multiset ℕ) (L : ℕ → Option Word) :
    Prop extends PageTree ram root N L where
  links : Links ram root

namespace Table

variable {ram ram' : ℕ → Fin 512 → Word} {root : ℕ} {N : Multiset ℕ} {L : ℕ → Option Word}

/-- **Locality.** -/
theorem congr (h : Table ram root N L) (hag : ∀ f ∈ N, ram' f = ram f) : Table ram' root N L where
  nodes := (Radix.nodes_congr fun f hf => hag f (h.nodes ▸ hf)).trans h.nodes
  lookup v hv :=
    (Radix.get_congr (k := 2) rfl fun f hf => hag f (h.nodes ▸ hf)).trans (h.lookup v hv)
  links := h.links.congr fun f hf => hag f (h.nodes ▸ hf)

theorem root_mem (h : Table ram root N L) : root ∈ N := h.nodes ▸ Radix.root_mem_nodes

end Table

/-! ## `find_pte` -/

theorem findPteFrom_eq (ram : ℕ → Fin 512 → Word) (i : Fin 512) (is : List (Fin 512)) (n : ℕ) :
    findPteFrom ram i is n = (Radix.walk pteFormat ram i is n).filter
      fun p => isValid (ram p.1 p.2) := by
  induction is generalizing i n with
  | nil =>
    rw [findPteFrom, Radix.walk, Option.filter_some]
  | cons j js ih =>
    rw [findPteFrom, Radix.walk]
    change _ = (if isValid (ram n i) then _ else _ : Option PtePtr).filter _
    split_ifs
    · exact ih _ _
    · rfl

theorem findPte_eq_some {ram : ℕ → Fin 512 → Word} {pt : PageTable} {v : ℕ} {p : PtePtr}
    (h : findPte ram pt v = some p) :
    Radix.walk pteFormat ram (getPageOffset v).1 (getPageOffset v).2 pt.rootPpn = some p ∧
      lookup ram pt.rootPpn v = some (ram p.1 p.2) := by
  rw [findPte, findPteFrom_eq, Option.filter_eq_some_iff] at h
  refine ⟨h.1, ?_⟩
  rw [lookup, Radix.get, h.1, Option.bind_some]
  exact if_pos h.2

theorem findPte_eq_none {ram : ℕ → Fin 512 → Word} {pt : PageTable} {v : ℕ}
    (h : findPte ram pt v = none) : lookup ram pt.rootPpn v = none := by
  rw [findPte, findPteFrom_eq] at h
  rw [lookup, Radix.get]
  cases hw : Radix.walk pteFormat ram (getPageOffset v).1 (getPageOffset v).2 pt.rootPpn with
  | none => rfl
  | some p =>
    rw [hw, Option.filter_some] at h
    rw [Option.bind_some]
    refine if_neg fun hv => ?_
    rw [if_pos (show isValid (ram p.1 p.2) = true from hv)] at h
    cases h

theorem isValid_of_lookup {ram : ℕ → Fin 512 → Word} {root v : ℕ} {e : Word}
    (h : lookup ram root v = some e) : isValid e = true :=
  (Radix.get_eq_some_iff.mp h).elim fun _ hp => hp.2.1

/-! ## Frames that may join a table -/

/-- The frames `N` are distinct and apart from the free ones, which are physical page numbers. -/
structure Apart (m : Mem) (N : Multiset ℕ) : Prop where
  nodup : (N + m.free).Nodup
  lt : ∀ f ∈ m.free, f < 2 ^ 44

namespace Apart

variable {m m' : Mem} {N N' M new : Multiset ℕ}

theorem mono (h : Apart m N) (hN : N' ≤ N) : Apart m N' :=
  ⟨Multiset.nodup_of_le (add_le_add_left hN _) h.nodup, h.lt⟩

theorem nodup_left (h : Apart m N) : N.Nodup := (Multiset.nodup_add.mp h.nodup).1

theorem not_mem_free (h : Apart m N) {f : ℕ} (hf : f ∈ N) : f ∉ m.free :=
  Multiset.disjoint_left.mp (Multiset.nodup_add.mp h.nodup).2.2 hf

theorem grows (h : Apart m N) (hg : Grows m m' M new) : Apart m' (N + new) where
  nodup := by rw [add_assoc, ← hg.free]; exact h.nodup
  lt f hf := h.lt f (by rw [hg.free]; exact Multiset.mem_add.mpr (.inr hf))

theorem new_lt (h : Apart m N) (hg : Grows m m' M new) {f : ℕ} (hf : f ∈ new) : f < 2 ^ 44 :=
  h.lt f (by rw [hg.free]; exact Multiset.mem_add.mpr (.inl hf))

theorem new_not_mem (h : Apart m N) (hg : Grows m m' M new) {f : ℕ} (hf : f ∈ new) : f ∉ N :=
  fun hN => h.not_mem_free hN (by rw [hg.free]; exact Multiset.mem_add.mpr (.inl hf))

end Apart

theorem Own.apart {lo : ℕ} {m : Mem} {X : Multiset ℕ} (h : Own lo m X)
    (hend : m.memoryAllocator.end_ ≤ 2 ^ 44) : Apart m X where
  nodup := h.nodup_add
  lt f hf := by
    have : f ∈ Finset.Ico lo m.memoryAllocator.end_ :=
      Multiset.mem_of_le h (Multiset.mem_add.mpr (.inr hf))
    rw [Finset.mem_Ico] at this
    omega

/-- Storing into a frame of `N` is a step that takes nothing. -/
theorem Grows.store (m : Mem) {N : Multiset ℕ} {p : ℕ} (hp : p ∈ N) (i : Fin 512) (w : Word) :
    Grows m (m.store p i w) N 0 :=
  ⟨(zero_add _).symm, le_rfl,
    fun f hf _ => Function.update_of_ne (fun he : f = p => hf (he ▸ hp)) _ _, rfl, rfl⟩

/-! ## `find_pte_create` -/

theorem store_ram (m : Mem) (p : ℕ) (i : Fin 512) (w : Word) :
    (m.store p i w).ram = Radix.setAt m.ram p i w := rfl

theorem isLink_new {f : ℕ} (hf : f < 2 ^ 44) : IsLink (new f pteV) := by
  rw [IsLink, has_new hf]
  decide

theorem valid_new {f : ℕ} (hf : f < 2 ^ 44) : isValid (new f pteV) = true := by
  rw [isValid_eq_has, has_new hf]
  decide

section Create

variable (m m' : Mem) (i : Fin 512) (is : List (Fin 512)) (n : ℕ)

/-- What `find_pte_create` leaves behind: `new` frames for the missing levels of the path, and no
changed translation. -/
structure Created (p : PtePtr) (new : Multiset ℕ) : Prop where
  grows : Grows m m' (Radix.nodes pteFormat m.ram is.length n) new
  nodes : Radix.nodes pteFormat m'.ram is.length n = new + Radix.nodes pteFormat m.ram is.length n
  walk : Radix.walk pteFormat m'.ram i is n = some p
  get : ∀ x xs, xs.length = is.length →
    Radix.get pteFormat m'.ram x xs n = Radix.get pteFormat m.ram x xs n
  links : Radix.Interior pteFormat IsLink m.ram is.length n →
    Radix.Interior pteFormat IsLink m'.ram is.length n
  card : new.card = Radix.missing pteFormat m.ram i is n

end Create

section Create

variable {m m' : Mem} {i j : Fin 512} {is js : List (Fin 512)} {n : ℕ} {p : PtePtr}
  {new : Multiset ℕ}

/-- A walk below a valid entry is a walk from the root. -/
theorem Created.lift (ha : Apart m (Radix.nodes pteFormat m.ram (js.length + 1) n))
    (hv : isValid (m.ram n i)) (h : Created m m' j js (ppn (m.ram n i)) p new) :
    Created m m' i (j :: js) n p new := by
  have hn := ha.nodup_left
  have hle : Radix.nodes pteFormat m.ram js.length (ppn (m.ram n i)) ≤
      Radix.nodes pteFormat m.ram (js.length + 1) n := Radix.child_le (F := pteFormat) hv
  have hag : ∀ f ∈ Radix.nodes pteFormat m.ram (js.length + 1) n,
      f ∉ Radix.nodes pteFormat m.ram js.length (pteFormat.child (m.ram n i)) →
      m'.ram f = m.ram f :=
    fun f hf hf' => h.grows.frame f hf' fun hfn => ha.new_not_mem h.grows hfn hf
  have hroot : m'.ram n = m.ram n := Radix.root_eq_of_replace hn hv hag
  refine ⟨h.grows.mono hle, Radix.nodes_replace hn hv hag h.nodes, ?_, fun x xs hxs => ?_,
    fun hi => Radix.Interior.replace hn hv hag hi (h.links (hi i hv).2), ?_⟩
  · rw [Radix.walk_cons_of_valid (by rw [hroot]; exact hv), hroot]
    exact h.walk
  · cases xs with
    | nil => simp at hxs
    | cons y ys =>
      have hys : ys.length = js.length := by simpa using hxs
      rw [Radix.get_replace hn hv hag hys]
      split_ifs with hx
      · subst hx
        rw [Radix.get_cons_of_valid hv]
        exact h.get y ys hys
      · rfl
  · rw [h.card, Radix.missing]
    exact (if_pos hv).symm

/-- Linking a fresh zeroed frame below an invalid entry. -/
theorem created_link (ha : Apart m (Radix.nodes pteFormat m.ram (js.length + 1) n))
    (hv : isValid (m.ram n i) = false) {f : ℕ} {m₁ : Mem} (hg : Grows m m₁ 0 {f})
    (hz : m₁.ram f = fun _ => 0) :
    let m₂ := m₁.store n i (PageTableEntry.new f pteV)
    Grows m m₂ (Radix.nodes pteFormat m.ram (js.length + 1) n) {f} ∧
      Radix.nodes pteFormat m₂.ram (js.length + 1) n =
        f ::ₘ Radix.nodes pteFormat m.ram (js.length + 1) n ∧
      (∀ x y ys, ys.length = js.length →
        Radix.get pteFormat m₂.ram x (y :: ys) n = Radix.get pteFormat m.ram x (y :: ys) n) ∧
      (Radix.Interior pteFormat IsLink m.ram (js.length + 1) n →
        Radix.Interior pteFormat IsLink m₂.ram (js.length + 1) n) ∧
      m₂.ram n i = PageTableEntry.new f pteV ∧ m₂.ram f = fun _ => 0 := by
  intro m₂
  have hff : f ∈ ({f} : Multiset ℕ) := Multiset.mem_singleton_self f
  have hlt : f < 2 ^ 44 := ha.new_lt hg hff
  have hfN := ha.new_not_mem hg hff
  have hfn : f ≠ n := fun he => hfN (he ▸ Radix.root_mem_nodes)
  have hkeep : ∀ g, g ≠ f → m₁.ram g = m.ram g := fun g hgf =>
    hg.frame g (Multiset.notMem_zero g) (by simpa using hgf)
  have hroot : m₂.ram n = Function.update (m.ram n) i (PageTableEntry.new f pteV) := by
    change Function.update m₁.ram n (Function.update (m₁.ram n) i _) n = _
    rw [Function.update_self, hkeep n (Ne.symm hfn)]
  have hf₂ : m₂.ram f = fun _ => 0 := by
    change Function.update m₁.ram n _ f = _
    rw [Function.update_of_ne hfn, hz]
  have hempty : ∀ j, pteFormat.valid (m₂.ram f j) = false := fun j =>
    (congrArg isValid (congrFun hf₂ j)).trans isValid_zero
  have hag : ∀ g ∈ Radix.nodes pteFormat m.ram (js.length + 1) n, g ≠ n → m₂.ram g = m.ram g := by
    intro g hgN hgn
    change Function.update m₁.ram n _ g = _
    rw [Function.update_of_ne hgn, hkeep g fun he => hfN (he ▸ hgN)]
  have hc : pteFormat.child (PageTableEntry.new f pteV) = f := ppn_new hlt _
  refine ⟨?_, Radix.nodes_link hv (valid_new hlt) hc hempty hroot hag ha.nodup_left,
    fun x y ys hys => Radix.get_link hv (valid_new hlt) hc hempty hroot hag ha.nodup_left hys,
    fun hi => Radix.Interior.link hc hempty hroot hag ha.nodup_left hi (isLink_new hlt), ?_, hf₂⟩
  · have h₁ : Grows m m₁ (Radix.nodes pteFormat m.ram (js.length + 1) n) {f} :=
      hg.mono (Multiset.zero_le _)
    have h₂ := h₁.trans (Grows.store m₁ (p := n)
      (Multiset.mem_add.mpr (.inl Radix.root_mem_nodes)) i (PageTableEntry.new f pteV))
    rwa [add_zero] at h₂
  · rw [hroot, Function.update_self]

/-- **`find_pte_create` only adds the missing levels.** -/
theorem findPteCreateFrom_spec (ha : Apart m (Radix.nodes pteFormat m.ram is.length n)) :
    Outcome (findPteCreateFrom i is n m) (fun r => ∃ new, Created m r.2 i is n r.1 new)
      (fun e => e = .panic "memory is full" ∧
        m.free.card < Radix.missing pteFormat m.ram i is n) := by
  induction is generalizing i n m with
  | nil =>
    refine ⟨0, Grows.refl _ _, (zero_add _).symm, rfl, fun _ _ _ => rfl, fun hi => hi, ?_⟩
    rw [Radix.missing, Multiset.card_zero]
  | cons j js ih =>
    rw [findPteCreateFrom]
    split_ifs with hv
    · have hle : Radix.nodes pteFormat m.ram js.length (ppn (m.ram n i)) ≤
          Radix.nodes pteFormat m.ram (js.length + 1) n := Radix.child_le (F := pteFormat) hv
      refine (ih (i := j) (n := ppn (m.ram n i)) (ha.mono hle)).mono ?_ ?_
      · rintro r ⟨new, h⟩
        exact ⟨new, h.lift ha hv⟩
      · rintro e ⟨he, hlt⟩
        refine ⟨he, ?_⟩
        rw [Radix.missing]
        exact lt_of_lt_of_eq hlt (if_pos hv).symm
    · rw [Bool.not_eq_true] at hv
      have hmiss : Radix.missing pteFormat m.ram i (j :: js) n = js.length + 1 := by
        rw [Radix.missing]
        exact if_neg (by rw [show pteFormat.valid (m.ram n i) = false from hv]; decide)
      refine Outcome.bind ((kalloc_spec m).mono (fun _ h => h) fun e he => ⟨he.1, ?_⟩) ?_
      · rw [he.2, hmiss]; exact Nat.succ_pos _
      rintro ⟨f, m₁⟩ ⟨hg, hz⟩
      obtain ⟨hg₂, hN₂, hget₂, hlink₂, hroot₂, hf₂⟩ := created_link ha hv hg hz
      set m₂ := m₁.store n i (PageTableEntry.new f pteV)
      change Outcome (findPteCreateFrom j js (ppn (m₂.ram n i)) m₂) _ _
      have hlt : f < 2 ^ 44 := ha.new_lt hg (Multiset.mem_singleton_self f)
      have hv₂ : isValid (m₂.ram n i) := by rw [hroot₂]; exact valid_new hlt
      have hc₂ : ppn (m₂.ram n i) = f := by rw [hroot₂]; exact ppn_new hlt _
      have ha₂ : Apart m₂ (Radix.nodes pteFormat m₂.ram (js.length + 1) n) := by
        rw [hN₂, ← Multiset.singleton_add, add_comm]
        exact ha.grows hg₂
      have hle : Radix.nodes pteFormat m₂.ram js.length (ppn (m₂.ram n i)) ≤
          Radix.nodes pteFormat m₂.ram (js.length + 1) n := Radix.child_le (F := pteFormat) hv₂
      -- every level below the fresh frame is missing
      have hmiss₂ : Radix.missing pteFormat m₂.ram j js (ppn (m₂.ram n i)) = js.length := by
        rw [hc₂]
        cases js with
        | nil => rfl
        | cons y ys =>
          rw [Radix.missing, hf₂, List.length_cons]
          exact if_neg (by rw [show pteFormat.valid 0 = false from isValid_zero]; decide)
      refine (ih (i := j) (n := ppn (m₂.ram n i)) (ha₂.mono hle)).mono ?_ ?_
      · rintro r ⟨new, h⟩
        have hl := h.lift ha₂ hv₂
        refine ⟨{f} + new, ?_, ?_, hl.walk, fun x xs hxs => ?_, fun hi => hl.links (hlink₂ hi), ?_⟩
        · refine hg₂.trans (hl.grows.mono ?_)
          rw [List.length_cons, hN₂, ← Multiset.singleton_add, add_comm]
        · rw [hl.nodes, List.length_cons, hN₂, ← Multiset.singleton_add, add_left_comm, add_assoc]
        · cases xs with
          | nil => simp at hxs
          | cons y ys =>
            rw [hl.get x (y :: ys) hxs]
            exact hget₂ x y ys (by simpa using hxs)
        · rw [Multiset.card_add, h.card, hmiss₂, hmiss, Multiset.card_singleton, add_comm]
      · rintro e ⟨he, hlt'⟩
        refine ⟨he, ?_⟩
        rw [hmiss₂] at hlt'
        rw [hmiss, hg₂.card, Multiset.card_singleton]
        omega

end Create

/-- The number of interior levels missing on the path of `vpn`. -/
def missingLevels (ram : ℕ → Fin 512 → Word) (root vpn : ℕ) : ℕ :=
  Radix.missing pteFormat ram (getPageOffset vpn).1 (getPageOffset vpn).2 root

theorem missingLevels_le_two (ram : ℕ → Fin 512 → Word) (root vpn : ℕ) :
    missingLevels ram root vpn ≤ 2 := by
  simp only [missingLevels, getPageOffset, Radix.missing]
  split_ifs <;> simp

/-- The number of table boundaries between the pages `a` and `b`. -/
def span (a b : ℕ) : ℕ := (b / 2 ^ 9 - a / 2 ^ 9) + (b / 2 ^ 18 - a / 2 ^ 18)

/-- The path of a page whose neighbour below has all its levels. -/
theorem missingLevels_succ_le {ram : ℕ → Fin 512 → Word} {root v : ℕ} {e : Word}
    (he : lookup ram root v = some e) : missingLevels ram root (v + 1) ≤ span v (v + 1) := by
  obtain ⟨p, hw, -⟩ := Radix.get_eq_some_iff.mp he
  have hle := missingLevels_le_two ram root (v + 1)
  by_cases h₂ : (v + 1) / 2 ^ 18 = v / 2 ^ 18
  · simp only [getPageOffset, Radix.walk] at hw
    split_ifs at hw with hv₂ hv₁
    simp only [missingLevels, getPageOffset, Radix.missing, h₂, if_pos hv₂, span]
    by_cases h₁ : (v + 1) / 2 ^ 9 = v / 2 ^ 9
    · rw [h₁, if_pos hv₁]
      omega
    · split_ifs
      · omega
      · simp only [List.length_nil]
        omega
  · have h₁ : (v + 1) / 2 ^ 9 ≠ v / 2 ^ 9 := by omega
    rw [span]
    omega

/-! ## Mapping pages -/

namespace PageTable

variable {m : Mem} {pt : PageTable} {N : Multiset ℕ} {L : ℕ → Option Word} {v p more : ℕ}
  {flags : Byte}

/-- The tree after one page was mapped. -/
theorem mapPerPage_tree (h : PageTree m.ram pt.rootPpn N L) (ha : Apart m N) (hv : v < 2 ^ 27)
    (hL : L v = none) (hp : p < 2 ^ 44) :
    Outcome (pt.mapPerPage m v p flags)
      (fun m' => ∃ new, Grows m m' N new ∧
        PageTree m'.ram pt.rootPpn (N + new)
          (Function.update L v (some (PageTableEntry.new p (pteV ||| flags)))) ∧
        (Links m.ram pt.rootPpn → Links m'.ram pt.rootPpn) ∧
        new.card ≤ missingLevels m.ram pt.rootPpn v)
      (fun e => e = .panic "memory is full" ∧
        m.free.card < missingLevels m.ram pt.rootPpn v) := by
  rw [mapPerPage, findPteCreate]
  have hnodes := h.nodes
  rw [tableFrames] at hnodes
  subst hnodes
  have hspec :
    Outcome (findPteCreateFrom (getPageOffset v).1 (getPageOffset v).2 pt.rootPpn m) _ _ :=
    findPteCreateFrom_spec ha
  refine Outcome.bind hspec ?_
  rintro ⟨q, m₁⟩ ⟨new, hc⟩
  have hn₁ : (Radix.nodes pteFormat m₁.ram 2 pt.rootPpn).Nodup := by
    have := (ha.grows hc.grows).nodup_left
    rw [add_comm] at this
    exact hc.nodes ▸ this
  have hinv : isValid (m₁.ram q.1 q.2) = false := by
    have hget : lookup m₁.ram pt.rootPpn v = none :=
      (hc.get _ _ rfl).trans ((h.lookup v hv).trans hL)
    rw [lookup, Radix.get, hc.walk, Option.bind_some] at hget
    by_contra hne
    rw [if_pos (show pteFormat.valid _ = true from Bool.not_eq_false _ ▸ hne)] at hget
    cases hget
  have hw : isValid (PageTableEntry.new p (pteV ||| flags)) = true := isValid_new hp flags
  simp only [hinv, Bool.false_eq_true, if_false, Outcome.ok_iff]
  refine ⟨new, ?_, ⟨?_, fun x hx => ?_⟩, fun hl => ?_, hc.card.le⟩
  · have hq : q.1 ∈ Radix.nodes pteFormat m.ram 2 pt.rootPpn + new := by
      rw [add_comm]
      exact hc.nodes ▸ Radix.walk_mem hc.walk
    have := hc.grows.trans (Grows.store m₁ hq q.2 (PageTableEntry.new p (pteV ||| flags)))
    rwa [add_zero] at this
  · rw [tableFrames, store_ram, add_comm]
    exact (Radix.nodes_setAt hn₁ hc.walk).trans hc.nodes
  · rw [lookup, store_ram]
    by_cases hxv : x = v
    · subst hxv
      rw [Function.update_self]
      exact (Radix.get_setAt_self hn₁ hc.walk).trans (if_pos hw)
    · rw [Function.update_of_ne hxv, ← h.lookup x hx, lookup,
        ← hc.get (getPageOffset x).1 (getPageOffset x).2 rfl]
      refine Radix.get_setAt_of_ne hn₁ hc.walk rfl fun he => hxv ?_
      exact getPageOffset_injective hx hv (Prod.ext (List.cons.inj he).1 (List.cons.inj he).2)
  · exact Radix.Interior.setAt hn₁ hc.walk (hc.links hl)

/-- The table after one page was mapped. -/
theorem mapPerPage_spec (h : Table m.ram pt.rootPpn N L) (ha : Apart m N) (hv : v < 2 ^ 27)
    (hL : L v = none) (hp : p < 2 ^ 44) :
    Outcome (pt.mapPerPage m v p flags)
      (fun m' => ∃ new, Grows m m' N new ∧
        Table m'.ram pt.rootPpn (N + new)
          (Function.update L v (some (PageTableEntry.new p (pteV ||| flags)))) ∧
        new.card ≤ missingLevels m.ram pt.rootPpn v)
      (fun e => e = .panic "memory is full" ∧
        m.free.card < missingLevels m.ram pt.rootPpn v) := by
  refine (mapPerPage_tree h.toPageTree ha hv hL hp).imp ?_
  rintro m' ⟨new, hg, ht, hl, hc⟩
  exact ⟨new, hg, ⟨ht, hl h.links⟩, hc⟩

/-- The same with the two levels that can be missing at most. -/
theorem mapPerPage_spec_two (h : Table m.ram pt.rootPpn N L) (ha : Apart m N) (hv : v < 2 ^ 27)
    (hL : L v = none) (hp : p < 2 ^ 44) :
    Outcome (pt.mapPerPage m v p flags)
      (fun m' => ∃ new, Grows m m' N new ∧
        Table m'.ram pt.rootPpn (N + new)
          (Function.update L v (some (PageTableEntry.new p (pteV ||| flags)))) ∧ new.card ≤ 2)
      (fun e => e = .panic "memory is full" ∧ m.free.card < 2) := by
  have hle := missingLevels_le_two m.ram pt.rootPpn v
  refine (mapPerPage_spec h ha hv hL hp).mono ?_ ?_
  · rintro m' ⟨new, hg, ht, hc⟩
    exact ⟨new, hg, ht, hc.trans hle⟩
  · rintro e ⟨he, hc⟩
    exact ⟨he, by omega⟩

/-- A page that is mapped cannot be mapped again. -/
theorem mapPerPage_of_mapped {e : Word} (h : PageTree m.ram pt.rootPpn N L) (ha : Apart m N)
    (hv : v < 2 ^ 27) (hL : L v = some e) :
    Outcome (pt.mapPerPage m v p flags) (fun _ => False)
      (fun e => e = .panic "memory is full" ∨
        e = .assertion "!PageTableEntry_is_valid(*pte_ptr)") := by
  rw [mapPerPage, findPteCreate]
  have hnodes := h.nodes
  rw [tableFrames] at hnodes
  subst hnodes
  have hspec :
    Outcome (findPteCreateFrom (getPageOffset v).1 (getPageOffset v).2 pt.rootPpn m) _ _ :=
    findPteCreateFrom_spec ha
  refine Outcome.bind (hspec.mono (fun _ hr => hr) fun e he => .inl he.1) ?_
  rintro ⟨q, m₁⟩ ⟨new, hc⟩
  have hget : lookup m₁.ram pt.rootPpn v = some e :=
    (hc.get _ _ rfl).trans ((h.lookup v hv).trans hL)
  have hval : isValid (m₁.ram q.1 q.2) = true := by
    rw [lookup, Radix.get, hc.walk, Option.bind_some] at hget
    by_contra hne
    rw [if_neg (show ¬ pteFormat.valid _ = true from hne)] at hget
    cases hget
  simp only [hval, if_true, Outcome.error_iff, or_true]

/-- The translation after `more + 1` pages from `v` on were mapped. -/
def mapped (L : ℕ → Option Word) (v p more : ℕ) (flags : Byte) : ℕ → Option Word := fun x =>
  if v ≤ x ∧ x ≤ v + more then some (PageTableEntry.new (p + (x - v)) (pteV ||| flags)) else L x

theorem mapped_zero : mapped L v p 0 flags =
    Function.update L v (some (PageTableEntry.new p (pteV ||| flags))) := by
  funext x
  by_cases hx : x = v
  · subst hx
    simp [mapped]
  · rw [Function.update_of_ne hx, mapped, if_neg (by omega)]

theorem mapped_succ : mapped (Function.update L v (some (PageTableEntry.new p (pteV ||| flags))))
    (v + 1) (p + 1) more flags = mapped L v p (more + 1) flags := by
  funext x
  by_cases hx : x = v
  · subst hx
    simp [mapped]
  · rw [mapped, mapped, Function.update_of_ne hx]
    by_cases hr : v + 1 ≤ x ∧ x ≤ v + 1 + more
    · rw [if_pos hr, if_pos (by omega), show p + 1 + (x - (v + 1)) = p + (x - v) by omega]
    · rw [if_neg hr, if_neg (by omega)]

/-- The tree after the loop of `PageTable_map`. -/
theorem mapLoop_tree (h : PageTree m.ram pt.rootPpn N L) (ha : Apart m N) (hv : v + more < 2 ^ 27)
    (hL : ∀ x, v ≤ x → x ≤ v + more → L x = none) (hp : p + more < 2 ^ 44) :
    Outcome (pt.mapLoop flags more v p m)
      (fun m' => ∃ new, Grows m m' N new ∧
        PageTree m'.ram pt.rootPpn (N + new) (mapped L v p more flags) ∧
        (Links m.ram pt.rootPpn → Links m'.ram pt.rootPpn) ∧
        new.card ≤ missingLevels m.ram pt.rootPpn v + span v (v + more))
      (fun e => e = .panic "memory is full" ∧
        m.free.card < missingLevels m.ram pt.rootPpn v + span v (v + more)) := by
  induction more generalizing m N L v p with
  | zero =>
    rw [mapLoop, mapped_zero]
    refine (mapPerPage_tree h ha hv (hL v le_rfl le_rfl) hp).mono ?_ ?_
    · rintro m' ⟨new, hg, ht, hl, hcard⟩
      exact ⟨new, hg, ht, hl, hcard.trans (Nat.le_add_right _ _)⟩
    · rintro e ⟨he, hlt⟩
      exact ⟨he, hlt.trans_le (Nat.le_add_right _ _)⟩
  | succ more ih =>
    rw [mapLoop]
    have hv₀ : v < 2 ^ 27 := by omega
    have hspan : span v (v + 1) + span (v + 1) (v + 1 + more) = span v (v + (more + 1)) := by
      unfold span; omega
    refine Outcome.bind ((mapPerPage_tree h ha hv₀ (hL v le_rfl (by omega)) (by omega)).mono
      (fun _ h => h) fun e he => ⟨he.1, he.2.trans_le (Nat.le_add_right _ _)⟩) ?_
    rintro m₁ ⟨new₁, hg₁, ht₁, hl₁, hcard₁⟩
    have hmiss := missingLevels_succ_le
      ((ht₁.lookup v hv₀).trans (Function.update_self v _ L))
    refine (ih ht₁ (ha.grows hg₁) (by omega) (fun x hx hx' => ?_) (by omega)).mono ?_ ?_
    · rw [Function.update_of_ne (by omega)]
      exact hL x (by omega) (by omega)
    · rintro m' ⟨new₂, hg₂, ht₂, hl₂, hcard₂⟩
      refine ⟨new₁ + new₂, hg₁.trans hg₂, ?_, fun hl => hl₂ (hl₁ hl), ?_⟩
      · rw [← add_assoc, ← mapped_succ]
        exact ht₂
      · rw [Multiset.card_add]
        omega
    · rintro e ⟨he, hlt⟩
      refine ⟨he, ?_⟩
      rw [hg₁.card]
      omega

/-- **`PageTable_map` maps exactly the requested range.** -/
theorem map_tree {va pa size : ℕ} (h : PageTree m.ram pt.rootPpn N L) (ha : Apart m N)
    (hsize : 0 < size) (hva : va + size ≤ 2 ^ 39) (hpa : pa + size ≤ 2 ^ 56 - 4096)
    (hL : ∀ x, va / 4096 ≤ x → x ≤ (va + size - 1) / 4096 → L x = none) :
    Outcome (pt.map m va pa size flags)
      (fun m' => ∃ new, Grows m m' N new ∧
        PageTree m'.ram pt.rootPpn (N + new)
          (mapped L (va / 4096) (pa / 4096) ((va + size - 1) / 4096 - va / 4096) flags) ∧
        (Links m.ram pt.rootPpn → Links m'.ram pt.rootPpn) ∧
        new.card ≤ missingLevels m.ram pt.rootPpn (va / 4096) +
          span (va / 4096) ((va + size - 1) / 4096))
      (fun e => e = .panic "memory is full" ∧
        m.free.card < missingLevels m.ram pt.rootPpn (va / 4096) +
          span (va / 4096) ((va + size - 1) / 4096)) := by
  have hlast : va / 4096 + ((va + size - 1) / 4096 - va / 4096) = (va + size - 1) / 4096 := by omega
  rw [map, if_neg (by omega), pageSize_eq, floorPhys, floorVirts, pageSize_eq,
    Nat.mod_eq_of_lt (by omega : va + size - 1 < 2 ^ 64)]
  have hspec : Outcome (pt.mapLoop flags ((va + size - 1) / 4096 - va / 4096) (va / 4096)
      (pa / 4096) m) _ _ :=
    mapLoop_tree h ha (by omega) (fun x hx hx' => hL x hx (by omega)) (by omega)
  rw [hlast] at hspec
  exact hspec

/-- The same for a table of the hardware. -/
theorem map_spec {va pa size : ℕ} (h : Table m.ram pt.rootPpn N L) (ha : Apart m N)
    (hsize : 0 < size) (hva : va + size ≤ 2 ^ 39) (hpa : pa + size ≤ 2 ^ 56 - 4096)
    (hL : ∀ x, va / 4096 ≤ x → x ≤ (va + size - 1) / 4096 → L x = none) :
    Outcome (pt.map m va pa size flags)
      (fun m' => ∃ new, Grows m m' N new ∧
        Table m'.ram pt.rootPpn (N + new)
          (mapped L (va / 4096) (pa / 4096) ((va + size - 1) / 4096 - va / 4096) flags) ∧
        new.card ≤ missingLevels m.ram pt.rootPpn (va / 4096) +
          span (va / 4096) ((va + size - 1) / 4096))
      (fun e => e = .panic "memory is full" ∧
        m.free.card < missingLevels m.ram pt.rootPpn (va / 4096) +
          span (va / 4096) ((va + size - 1) / 4096)) := by
  refine (map_tree h.toPageTree ha hsize hva hpa hL).imp ?_
  rintro m' ⟨new, hg, ht, hl, hc⟩
  exact ⟨new, hg, ⟨ht, hl h.links⟩, hc⟩

/-- Mapping one aligned page. -/
theorem map_page {va pa : ℕ} (hva : va % 4096 = 0) (hlt : va < 2 ^ 63) :
    pt.map m va pa pageSize flags = pt.mapPerPage m (va / 4096) (pa / 4096) flags := by
  have hlast : (va + 4096 - 1) / 4096 - va / 4096 = 0 := by omega
  rw [map, pageSize_eq, if_neg (by decide), floorPhys, floorVirts, pageSize_eq,
    Nat.mod_eq_of_lt (by omega : va + 4096 - 1 < 2 ^ 64)]
  change pt.mapLoop flags ((va + 4096 - 1) / 4096 - va / 4096) _ _ m = _
  rw [hlast, mapLoop]

theorem map_vpn {pa : ℕ} (hv : v < 2 ^ 27) :
    pt.map m (v * 4096) pa pageSize flags = pt.mapPerPage m v (pa / 4096) flags := by
  rw [map_page (Nat.mul_mod_left v 4096) (by omega), Nat.mul_div_cancel v (by decide)]

/-- 4096 bytes that do not start on a page take two pages, and two consecutive frames. -/
theorem map_two_pages {va pa : ℕ} (hva : va % 4096 ≠ 0) (hlt : va < 2 ^ 63) :
    pt.map m va pa pageSize flags = (pt.mapPerPage m (va / 4096) (pa / 4096) flags >>= fun m =>
      pt.mapPerPage m (va / 4096 + 1) (pa / 4096 + 1) flags) := by
  have hlast : (va + 4096 - 1) / 4096 - va / 4096 = 1 := by omega
  rw [map, pageSize_eq, if_neg (by decide), floorPhys, floorVirts, pageSize_eq,
    Nat.mod_eq_of_lt (by omega : va + 4096 - 1 < 2 ^ 64)]
  change pt.mapLoop flags ((va + 4096 - 1) / 4096 - va / 4096) _ _ m = _
  rw [hlast]
  rfl

end PageTable

end RiscvOs
