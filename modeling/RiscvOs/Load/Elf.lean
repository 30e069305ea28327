import RiscvOs.Mem.Bytes
import RiscvOs.Mem.PageTable

/-!
# The loader

`loader.c` on an image that is a function from file offsets to bytes. The image lies in the kernel's
data; `memcpy` copies whole pages from it and so also reads what follows it.

* `App`: an embedded program, as `link_app.S` lays it out.
* `elfCheck`, `loadSegment`: the checks on the header, and the loop over the program headers.
-/

set_option autoImplicit false

namespace RiscvOs

/-! ## Headers -/

def elfmag : ℕ := 0x464C457F
def emRiscv : ℕ := 0xF3
def eiClass : ℕ := 4
def elfclass64 : ℕ := 2
def ptLoad : ℕ := 1
def pfX : ℕ := 1
def pfW : ℕ := 2
def pfR : ℕ := 4

/-- The fields of `elf64_ehdr_t` the loader reads. -/
structure Elf64Ehdr where
  magic : ℕ
  eIdentClass : ℕ
  eMachine : ℕ
  eEntry : ℕ
  ePhoff : ℕ
  ePhentsize : ℕ
  ePhnum : ℕ
  deriving DecidableEq

/-- The fields of `elf64_phdr_t` the loader reads, and the file size of the segment. -/
structure Elf64Phdr where
  pType : ℕ
  pFlags : ℕ
  pOffset : ℕ
  pVaddr : ℕ
  pFilesz : ℕ
  pMemsz : ℕ
  deriving DecidableEq

def ehdrOf (f : ℕ → Byte) : Elf64Ehdr where
  magic := leAt f 0 4
  eIdentClass := leAt f eiClass 1
  eMachine := leAt f 18 2
  eEntry := leAt f 24 8
  ePhoff := leAt f 32 8
  ePhentsize := leAt f 54 2
  ePhnum := leAt f 56 2

/-- The program header at the offset `o`. -/
def phdrAt (f : ℕ → Byte) (o : ℕ) : Elf64Phdr where
  pType := leAt f o 4
  pFlags := leAt f (o + 4) 4
  pOffset := leAt f (o + 8) 8
  pVaddr := leAt f (o + 16) 8
  pFilesz := leAt f (o + 32) 8
  pMemsz := leAt f (o + 40) 8

/-- The offset of the program header `i`. -/
def phdrOffset (f : ℕ → Byte) (i : ℕ) : ℕ := (ehdrOf f).ePhoff + (ehdrOf f).ePhentsize * i

/-- The program header `i`. -/
def phdrOf (f : ℕ → Byte) (i : ℕ) : Elf64Phdr := phdrAt f (phdrOffset f i)

/-- `elf_check`. -/
def elfCheck (f : ℕ → Byte) : Except Halt Unit :=
  if (ehdrOf f).magic ≠ elfmag then .error (.assertion "*(u32 *)ehdr==ELFMAG")
  else if (ehdrOf f).eMachine ≠ emRiscv ∨ (ehdrOf f).eIdentClass ≠ elfclass64 then
    .error (.panic "only riscv64 elf file is supported")
  else .ok ()

/-- `flags_to_mmap_prot`. -/
def flagsToMmapProt (flags : ℕ) : Byte :=
  (if flags &&& pfR ≠ 0 then pteR else 0) ||| (if flags &&& pfW ≠ 0 then pteW else 0) |||
    (if flags &&& pfX ≠ 0 then pteX else 0)

namespace Elf64Phdr

/-- `map_perm`. -/
def mapPerm (ph : Elf64Phdr) : Byte := pteU ||| flagsToMmapProt (ph.pFlags % 2 ^ 8)

/-- `map_size`. -/
def mapSize (ph : Elf64Phdr) : ℕ := pgroundup ph.pMemsz

end Elf64Phdr

/-! ## `load_segment` -/

/-- `ehdr`: where the image lies, and the bytes of the kernel's memory around it. -/
structure Image where
  start : ℕ
  kdata : ℕ → Byte

/-- The bytes of the image, and of what follows it. -/
def Image.file (im : Image) (o : ℕ) : Byte := im.kdata ((im.start + o) % 2 ^ 64)

/-- The kernel maps `[KERNBASE, PHYSTOP)`; reading elsewhere traps. -/
def Image.read (im : Image) (o n : ℕ) : Except Halt Unit :=
  if kernbase ≤ (im.start + o) % 2 ^ 64 ∧ (im.start + o) % 2 ^ 64 + n ≤ phystop then .ok ()
  else .error .fault

/-- One page of a segment: allocate, copy, map. -/
def loadPage (im : Image) (pt : PageTable) (flags : Byte) (offset va : ℕ) (m : Mem) :
    Except Halt Mem := do
  let (ppn, m) ← kalloc m
  im.read offset pageSize
  let m := m.storeFrame ppn (pageAt im.file offset)
  pt.map m (virtAddrFromSizeT va) (physAddrFromPhysPageNum ppn) pageSize flags

/-- The pages of a segment. -/
def loadPages (im : Image) (pt : PageTable) (flags : Byte) : ℕ → ℕ → ℕ → Mem → Except Halt Mem
  | 0, _, _, m => .ok m
  | n + 1, offset, va, m => do
    let m ← loadPage im pt flags offset va m
    loadPages im pt flags n (offset + pageSize) (va + pageSize) m

/-- The turn of the loop of `load_segment` for the program header `i`; the result carries
`proc->ustack`. -/
def loadPhdr (im : Image) (pt : PageTable) (s : ℕ × Mem) (i : ℕ) : Except Halt (ℕ × Mem) := do
  im.read (phdrOffset im.file i) 56
  let ph := phdrOf im.file i
  if ph.pType = ptLoad then
    let ustack := (ph.pVaddr + ph.pMemsz) % 2 ^ 64
    let m ← loadPages im pt ph.mapPerm (ph.mapSize / pageSize) ph.pOffset ph.pVaddr s.2
    .ok (ustack, m)
  else .ok s

/-- `load_segment`: the segments, a guard page and the stack page. The new `ustack`, which is also
`base_size`, is returned. -/
def loadSegment (im : Image) (pt : PageTable) (ustack : ℕ) (m : Mem) : Except Halt (ℕ × Mem) := do
  let (ustack, m) ← (List.range (ehdrOf im.file).ePhnum).foldlM (loadPhdr im pt) (ustack, m)
  let ustack := (2 * pageSize + pgroundup ustack) % 2 ^ 64
  let (ppn, m) ← kalloc m
  let m ← pt.map m (virtAddrFromSizeT ((ustack + 2 ^ 64 - pageSize) % 2 ^ 64))
    (physAddrFromPhysPageNum ppn) pageSize (pteR ||| pteW ||| pteU)
  .ok (ustack, m)

/-! ## The table of programs -/

/-- An embedded program: its name, where `link_app.S` puts it, and its bytes. -/
structure App where
  name : List Byte
  start : ℕ
  image : List Byte
  noNul : 0 ∉ name

/-- The bytes of a program; past its end nothing is known of them. -/
def App.file (a : App) (o : ℕ) : Byte := a.image.getD o 0

end RiscvOs
