import RubiKernel.Lib.Memory
import RubiKernel.Mmu.Defs

/-! `vfs/elf.c`: loading an image into the pages of a new task. The image is read
as the bytes from `elf_base` on; they lie in kernel memory, which every page
directory maps alike. -/

namespace RubiKernel.Elf

open Memory Mmu

def elfMagic : Word := 0x464c457f

/-- The fields of `elf_header_t` that the loader reads. -/
structure ElfHeader where
  eiMagic : Word
  eEntry : Word
  ePhoff : Word
  ePhentsize : BitVec 16
  ePhnum : BitVec 16
  deriving DecidableEq

def elfHeader (image : Memory) : ElfHeader where
  eiMagic := read32 image 0
  eEntry := read32 image 24
  ePhoff := read32 image 28
  ePhentsize := read16 image 42
  ePhnum := read16 image 44

/-- The fields of `elf_program_header_t` that the loader reads. -/
structure ProgramHeader where
  pOffset : Word
  pVaddr : Word
  pFilesz : Word
  pMemsz : Word
  deriving DecidableEq

def programHeader (image : Memory) (i : Nat) : ProgramHeader :=
  let header := elfHeader image
  let pHeader := header.ePhoff + BitVec.ofNat 32 (i * header.ePhentsize.toNat)
  { pOffset := read32 image (pHeader + 4)
    pVaddr := read32 image (pHeader + 8)
    pFilesz := read32 image (pHeader + 16)
    pMemsz := read32 image (pHeader + 20) }

def programHeaders (image : Memory) : List ProgramHeader :=
  (List.range (elfHeader image).ePhnum.toNat).map (programHeader image)

/-- A store of the loader: to `pages[index]`, to the entry `index` of the page
table, or to a linear address. -/
inductive Store
  | pages (index : Nat)
  | pte (index : Nat)
  | byte (addr : Word)
  deriving DecidableEq

/-- The state of `elf_exec` between two stores. `log` has the stores so far, the
last one first. -/
structure Loader where
  mm : MemoryManager
  pageTable : PageTable
  pages : List Word
  ram : Memory
  halted : Bool
  log : List Store

/-- The page directory of the new task: its table for the first 4 MB, the kernel's
entries for the rest. -/
def translate (kernelMap : Word → Option Word) (pt : PageTable) (addr : Word) : Option Word :=
  if addr >>> 22 = 0 then
    let pte := pt (pteIndex addr)
    if pte.present then some ((pte.pagePhysAddr.setWidth 32 <<< 12) ||| (addr &&& 0xFFF))
    else none
  else kernelMap addr

/-- A store through the new directory; a page fault ends in `kpanic`. -/
def storeByte (kernelMap : Word → Option Word) (s : Loader) (addr : Word) (value : Byte) : Loader :=
  if s.halted then s
  else
    match translate kernelMap s.pageTable addr with
    | some p => { s with ram := Function.update s.ram p value, log := .byte addr :: s.log }
    | none => { s with halted := true, log := .byte addr :: s.log }

/-- Whether `alloc_page` writes an entry. -/
def bindsPage (m : MemoryManager) (pt : PageTable) (linearAddr : Word) : Prop :=
  (allocPage m pt linearAddr).2 ≠ 0 ∧ ¬bindRefused m linearAddr (allocPage m pt linearAddr).2

instance {m : MemoryManager} {pt : PageTable} {linearAddr : Word} :
    Decidable (bindsPage m pt linearAddr) :=
  inferInstanceAs (Decidable (_ ∧ _))

/-- One turn of the loop over the pages of a segment. -/
def requestPage (s : Loader) (addr : Word) : Loader :=
  if s.halted then s
  else
    let r := allocPage s.mm s.pageTable addr
    let log := .pages s.pages.length :: s.log
    { s with
      pages := s.pages ++ [addr]
      mm := r.1.1
      pageTable := r.1.2
      log := if bindsPage s.mm s.pageTable addr then .pte (pteIndex addr) :: log else log }

def memcpy (kernelMap : Word → Option Word) (image : Memory) (s : Loader)
    (start sectionStart bytes : Word) : Loader :=
  (List.range bytes.toNat).foldl (fun s i =>
    storeByte kernelMap s (start + BitVec.ofNat 32 i) (image (sectionStart + BitVec.ofNat 32 i))) s

def memset (kernelMap : Word → Option Word) (s : Loader) (start : Word) (value : Byte)
    (bytes : Word) : Loader :=
  (List.range bytes.toNat).foldl (fun s i =>
    storeByte kernelMap s (start + BitVec.ofNat 32 i) value) s

def pagesCount (h : ProgramHeader) : Nat := (h.pMemsz / pageSize + 1).toNat

def loadSegment (kernelMap : Word → Option Word) (image : Memory) (s : Loader)
    (h : ProgramHeader) : Loader :=
  if h.pMemsz = 0 then s
  else
    let s := (List.range (pagesCount h)).foldl (fun s i =>
      requestPage s (h.pVaddr + BitVec.ofNat 32 i * pageSize)) s
    let s := memcpy kernelMap image s h.pVaddr h.pOffset h.pFilesz
    if h.pFilesz = 0 then memset kernelMap s h.pVaddr 0 h.pMemsz else s

/-- What `elf_exec` finds: the memory manager, physical memory, the entries after
the 32 of the new table, and the rest of the kernel's page directory. -/
structure Machine where
  mm : MemoryManager
  ram : Memory
  junk : PageTable
  kernelMap : Word → Option Word

/-- After `create_page_table(32)`, which clears the entries it has allocated. -/
def newTask (c : Machine) : Loader where
  mm := c.mm
  pageTable := fun i => if i < 32 then default else c.junk i
  pages := []
  ram := c.ram
  halted := false
  log := []

/-- `elf_exec` up to the creation of the task; `none` when the assertion fails. -/
def elfExec (image : Memory) (c : Machine) : Option Loader :=
  if (elfHeader image).eiMagic = elfMagic then
    some ((programHeaders image).foldl (loadSegment c.kernelMap image) (newTask c))
  else none

def imageOf (ws : List (Word × Word)) : Memory := fun a =>
  (((ws.lookup (a &&& ~~~3)).getD 0) >>> (8 * (a &&& 3))).setWidth 8

def headerWords (a : Word) (h : ProgramHeader) : List (Word × Word) :=
  [(a + 4, h.pOffset), (a + 8, h.pVaddr), (a + 16, h.pFilesz), (a + 20, h.pMemsz)]

def oneSegment (h : ProgramHeader) : Memory :=
  imageOf ([(0, elfMagic), (28, 52), (40, 0x00200034), (44, 1)] ++ headerWords 52 h)

def twoSegments (g h : ProgramHeader) : Memory :=
  imageOf ([(0, elfMagic), (28, 52), (40, 0x00200034), (44, 2)] ++ headerWords 52 g ++
    headerWords 84 h)

def emptyMachine : Machine where
  mm := zeroMemory
  ram := fun _ => 0
  junk := fun _ => default
  kernelMap := fun a => if virtBase ≤ a ∧ a < kernelPagesEnd then some (phys a) else none

end RubiKernel.Elf
