import RiscvOs.Base.Radix
import RiscvOs.Mem.Frames

/-!
# The page-table functions of `address.c`

A pointer to an entry is the frame that holds it and its index. The loops over the three levels are
recursions over the indices `getPageOffset` extracts; the `do … while` of `PageTable_map` runs once
more than the number of pages still to go.
-/

set_option autoImplicit false

namespace RiscvOs

/-- `PageTable`. -/
structure PageTable where
  rootPpn : ℕ
  deriving DecidableEq

/-- `PageTableEntry *`: a frame and an index in it. -/
abbrev PtePtr := ℕ × Fin 512

/-- `PTE_PA`. -/
def ptePa (pte : Word) : ℕ := PageTableEntry.ppn pte * 2 ^ 12

/-- The loop of `find_pte_create`. -/
def findPteCreateFrom : Fin 512 → List (Fin 512) → ℕ → Mem → Except Halt (PtePtr × Mem)
  | i, [], ppn, m => .ok ((ppn, i), m)
  | i, j :: js, ppn, m =>
    if PageTableEntry.isValid (m.ram ppn i) then
      findPteCreateFrom j js (PageTableEntry.ppn (m.ram ppn i)) m
    else do
      let (frame, m) ← kalloc m
      let m := m.store ppn i (PageTableEntry.new frame pteV)
      findPteCreateFrom j js (PageTableEntry.ppn (m.ram ppn i)) m

/-- `find_pte_create`. -/
def findPteCreate (m : Mem) (pt : PageTable) (vpn : ℕ) : Except Halt (PtePtr × Mem) :=
  findPteCreateFrom (getPageOffset vpn).1 (getPageOffset vpn).2 pt.rootPpn m

/-- The loop of `find_pte`. -/
def findPteFrom (ram : ℕ → Fin 512 → Word) : Fin 512 → List (Fin 512) → ℕ → Option PtePtr
  | i, [], ppn => if PageTableEntry.isValid (ram ppn i) then some (ppn, i) else none
  | i, j :: js, ppn =>
    if PageTableEntry.isValid (ram ppn i) then
      findPteFrom ram j js (PageTableEntry.ppn (ram ppn i))
    else none

/-- `find_pte`; `none` is `NULL`. -/
def findPte (ram : ℕ → Fin 512 → Word) (pt : PageTable) (vpn : ℕ) : Option PtePtr :=
  findPteFrom ram (getPageOffset vpn).1 (getPageOffset vpn).2 pt.rootPpn

namespace PageTable

/-- `PageTable_map_per_page`. -/
def mapPerPage (m : Mem) (pt : PageTable) (vpn ppn : ℕ) (flags : Byte) : Except Halt Mem := do
  let (pte, m) ← findPteCreate m pt vpn
  if PageTableEntry.isValid (m.ram pte.1 pte.2) then
    .error (.assertion "!PageTableEntry_is_valid(*pte_ptr)")
  else
    .ok (m.store pte.1 pte.2 (PageTableEntry.new ppn (pteV ||| flags)))

/-- The loop of `PageTable_map`: the page `vpn`, then `more` pages. -/
def mapLoop (pt : PageTable) (flags : Byte) : ℕ → ℕ → ℕ → Mem → Except Halt Mem
  | 0, vpn, ppn, m => mapPerPage m pt vpn ppn flags
  | more + 1, vpn, ppn, m => do
    let m ← mapPerPage m pt vpn ppn flags
    mapLoop pt flags more (vpn + 1) (ppn + 1) m

/-- `PageTable_map`. -/
def map (m : Mem) (pt : PageTable) (va pa size : ℕ) (flags : Byte) : Except Halt Mem :=
  if size = 0 then .error (.panic "page size is 0")
  else
    let ppn := floorPhys pa
    let vpn := floorVirts va
    let lastPage := (va + size - 1) % 2 ^ 64 / pageSize
    mapLoop pt flags (lastPage - vpn) vpn ppn m

-- no evaluation through the size of a range
attribute [irreducible] map

/-- `PageTable_unmap`. The entry is read without a test for `NULL`. -/
def unmap (m : Mem) (pt : PageTable) (vpn : ℕ) : Except Halt Mem :=
  match findPte m.ram pt vpn with
  | none => .error .fault
  | some pte =>
    if PageTableEntry.isValid (m.ram pte.1 pte.2) then
      .error (.assertion "!PageTableEntry_is_valid(*pte_ptr)")
    else
      .ok (m.store pte.1 pte.2 PageTableEntry.empty)

end PageTable

/-- One page of `page_unmap_free`: an unmapped page is skipped. -/
def pageUnmapFreeOne (pt : PageTable) (free : Bool) (i : ℕ) (m : Mem) : Except Halt Mem :=
  match findPte m.ram pt (virtPageNumFromSizeT i) with
  | none => .ok m
  | some pte => do
    let ppn := floorPhys (physAddrFromSizeT (ptePa (m.ram pte.1 pte.2)))
    let m ← (if free then kfree m ppn else .ok m : Except Halt Mem)
    .ok (m.store pte.1 pte.2 PageTableEntry.empty)

/-- `page_unmap_free`. -/
def pageUnmapFree (pt : PageTable) (free : Bool) : ℕ → ℕ → Mem → Except Halt Mem
  | _, 0, m => .ok m
  | vpn, numPages + 1, m => do
    let m ← pageUnmapFreeOne pt free vpn m
    pageUnmapFree pt free (vpn + 1) numPages m

/-- One entry of `free_page_table`'s loop; `recurse` frees the table below an interior entry. -/
def freePageTableEntry (recurse : ℕ → Mem → Except Halt Mem) (ppn : ℕ) (m : Mem) (i : Fin 512) :
    Except Halt Mem :=
  let pte := m.ram ppn i
  if PageTableEntry.has pte pteV && !PageTableEntry.has pte (pteR ||| pteW ||| pteX) then do
    let m ← recurse (PageTableEntry.ppn pte) m
    .ok (m.store ppn i PageTableEntry.empty)
  else if PageTableEntry.has pte pteV then
    .error (.panic "free_page_table error\n")
  else .ok m

/-- `free_page_table`. The recursion runs on a kernel stack of one page: past `depth` activations
it runs into the guard page. -/
def freePageTable : ℕ → ℕ → Mem → Except Halt Mem
  | 0, _, _ => .error .fault
  | depth + 1, ppn, m => do
    let m ← (List.finRange 512).foldlM (freePageTableEntry (freePageTable depth) ppn) m
    kfree m ppn

theorem freePageTable_succ (depth ppn : ℕ) (m : Mem) : freePageTable (depth + 1) ppn m =
    ((List.finRange 512).foldlM (freePageTableEntry (freePageTable depth) ppn) m >>= fun m' =>
      kfree m' ppn) := rfl

-- the 512-way loop is never unfolded by evaluation
attribute [irreducible] freePageTable

/-- How deep `free_page_table` may nest on a kernel stack. -/
def kstackDepth : ℕ := 64

/-- `exec_free_lowhalf`. -/
def execFreeLowhalf (m : Mem) (pt : PageTable) (sz : ℕ) : Except Halt Mem := do
  let m ← (if 0 < sz then pageUnmapFree pt true (virtPageNumFromSizeT 0) (sz / pageSize) m
    else .ok m : Except Halt Mem)
  freePageTable kstackDepth pt.rootPpn m

/-- Unmap the two high pages and free the low half and the table. The callers differ in whether the
trap page is given back. -/
def freeSpace (freeTrap : Bool) (m : Mem) (pt : PageTable) (sz : ℕ) : Except Halt Mem := do
  let m ← pageUnmapFree pt false (floorVirts (virtAddrFromSizeT trampolineVa)) 1 m
  let m ← pageUnmapFree pt freeTrap (floorVirts (virtAddrFromSizeT trapframeVa)) 1 m
  execFreeLowhalf m pt sz

/-- `free_proc_memory`: the trap page stays. -/
def freeProcMemory (m : Mem) (pt : PageTable) (sz : ℕ) : Except Halt Mem := freeSpace false m pt sz

end RiscvOs
