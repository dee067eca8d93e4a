import Mathlib.Logic.Function.Basic
import RubiKernel.Types

/-! `memory/mmu.c`: the bitmaps of used pages, and the binding of linear
addresses to physical pages in tables and directories. -/

namespace RubiKernel.Mmu

def tableBitField : Word := 0b00000000001111111111000000000000

def kernelExtendedTables : Word := 128

def kernelExtendedStart : Word := kernelPagesEnd + pageSize

def kernelExtendedEnd : Word := kernelExtendedStart + kernelExtendedTables * tableSize

/-- The count of tables which can be bitmapped. -/
def mmBitmapTables : Nat := 16

/-- The words of the bitmap for the 1024 pages of a table. -/
def mmBitmapIntPerTable : Nat := 32

def phys (x : Word) : Word := x - virtBase

structure PageDirectoryEntry where
  present : Bool
  readWrite : Bool
  userSupervisor : Bool
  pageTableAddr : BitVec 20
  deriving DecidableEq

structure PageTableEntry where
  present : Bool
  readWrite : Bool
  userSupervisor : Bool
  pagePhysAddr : BitVec 20
  deriving DecidableEq

instance : Inhabited PageDirectoryEntry := ⟨⟨false, false, false, 0⟩⟩

instance : Inhabited PageTableEntry := ⟨⟨false, false, false, 0⟩⟩

abbrev PageDirectory := Nat → PageDirectoryEntry

abbrev PageTable := Nat → PageTableEntry

structure MemoryManager where
  kernelPageDirectory : PageDirectory
  kernelPageTable : PageTable
  extendedKernelPagesBitmap : Nat → Word
  pagesBitmap : Nat → Word
  kernelPagesOperations : Bool

def zeroMemory : MemoryManager where
  kernelPageDirectory := fun _ => default
  kernelPageTable := fun _ => default
  extendedKernelPagesBitmap := fun _ => 0
  pagesBitmap := fun _ => 0
  kernelPagesOperations := false

/-- `bm_callb(phys_addr, linear_addr, set)`. -/
abbrev BitmapCallback := MemoryManager → Word → Word → Word → MemoryManager

def getPageFromBitmap (bitmap : Nat → Word) (addr : Word) : Byte :=
  ((bitmap (addr >>> (12 + 5)).toNat >>> ((addr >>> 12) &&& 0b11111)) &&& 1).setWidth 8

/-- Writes `pages_bitmap` whichever bitmap it is given. -/
def setPageToBitmap (m : MemoryManager) (_bitmap : Nat → Word) (addr : Word) (value : Byte) : MemoryManager :=
  let i := (addr >>> (12 + 5)).toNat
  let bit := (1 : Word) <<< ((addr >>> 12) &&& 0b11111)
  if value = 0 then
    { m with pagesBitmap := Function.update m.pagesBitmap i (m.pagesBitmap i &&& ~~~bit) }
  else
    { m with pagesBitmap := Function.update m.pagesBitmap i (m.pagesBitmap i ||| bit) }

def simplePageBitmapCallback : BitmapCallback := fun m physAddr _linearAddr set =>
  if (physAddr >>> (12 + 5)).toNat < mmBitmapIntPerTable * mmBitmapTables then
    setPageToBitmap m m.pagesBitmap physAddr (set.setWidth 8)
  else m

def extendedKernelBitmapCallback : BitmapCallback := fun m _physAddr linearAddr set =>
  if ((linearAddr - kernelExtendedStart) >>> (12 + 5)).toNat <
      mmBitmapIntPerTable * kernelExtendedTables.toNat then
    setPageToBitmap m m.extendedKernelPagesBitmap (linearAddr - kernelExtendedStart)
      (set.setWidth 8)
  else m

/-- The guard of the kernel range, which `kernel_pages_operations` lifts. -/
def kernelLinear (m : MemoryManager) (linearAddr : Word) : Prop :=
  linearAddr > virtBase ∧ linearAddr < kernelPagesEnd ∧ m.kernelPagesOperations = false

instance {m : MemoryManager} {linearAddr : Word} : Decidable (kernelLinear m linearAddr) :=
  inferInstanceAs (Decidable (_ ∧ _))

/-- The calls that `bind_page` turns down without a word. -/
def bindRefused (m : MemoryManager) (linearAddr physAddr : Word) : Prop :=
  kernelLinear m linearAddr ∨
    (physAddr < phys kernelPagesEnd ∧ m.kernelPagesOperations = false)

instance {m : MemoryManager} {linearAddr physAddr : Word} :
    Decidable (bindRefused m linearAddr physAddr) :=
  inferInstanceAs (Decidable (_ ∨ _ ∧ _))

def pteIndex (linearAddr : Word) : Nat := ((linearAddr &&& tableBitField) >>> 12).toNat

theorem pteIndex_eq (a : Word) : pteIndex a = a.toNat / 4096 % 1024 := by
  have hmask : tableBitField.toNat >>> 12 = 2 ^ 10 - 1 := by decide
  rw [pteIndex, BitVec.toNat_ushiftRight, BitVec.toNat_and, Nat.shiftRight_and_distrib, hmask,
    Nat.and_two_pow_sub_one_eq_mod, Nat.shiftRight_eq_div_pow]

theorem pde_toNat (a : Word) : (a >>> 22).toNat = a.toNat / 0x400000 := by
  rw [BitVec.toNat_ushiftRight, Nat.shiftRight_eq_div_pow]

theorem low_iff (a : Word) : a >>> 22 = 0 ↔ a.toNat < 0x400000 := by
  rw [← BitVec.toNat_inj, pde_toNat]
  show a.toNat / 0x400000 = 0 ↔ _
  omega

def bindTable (m : MemoryManager) (pd : PageDirectory) (pt linearAddr : Word) : PageDirectory :=
  if kernelLinear m linearAddr then pd
  else
    Function.update pd (linearAddr >>> 22).toNat
      { present := true
        readWrite := true
        userSupervisor := false
        pageTableAddr := (phys pt >>> 12).setWidth 20 }

def bindPage (m : MemoryManager) (pt : PageTable) (linearAddr physAddr : Word) (bmCallb : BitmapCallback) :
    MemoryManager × PageTable :=
  if bindRefused m linearAddr physAddr then (m, pt)
  else
    (bmCallb m physAddr linearAddr 1,
      Function.update pt (pteIndex linearAddr)
        { present := true
          readWrite := true
          userSupervisor := false
          pagePhysAddr := (physAddr >>> 12).setWidth 20 })

def unbindPage (m : MemoryManager) (pt : PageTable) (linearAddr : Word) (bmCallb : BitmapCallback) :
    MemoryManager × PageTable :=
  if kernelLinear m linearAddr then (m, pt)
  else
    let pte := pt (pteIndex linearAddr)
    (bmCallb m (pte.pagePhysAddr.setWidth 32 <<< 12) linearAddr 0,
      Function.update pt (pteIndex linearAddr) { pte with present := false, pagePhysAddr := 0 })

/-- `pt` is the address of the table with the entries `entries`. -/
def bindAddr (m : MemoryManager) (pd : PageDirectory) (pt : Word) (entries : PageTable)
    (linearAddr physAddr : Word) (bmCallb : BitmapCallback) :
    PageDirectory × MemoryManager × PageTable :=
  (bindTable m pd pt linearAddr, bindPage m entries linearAddr physAddr bmCallb)

def unbindTable (m : MemoryManager) (pd : PageDirectory) (linearAddr : Word) : PageDirectory :=
  if kernelLinear m linearAddr then pd
  else
    Function.update pd (linearAddr >>> 22).toNat
      { present := false
        readWrite := true
        userSupervisor := false
        pageTableAddr := 0 }

/-- The values of the loop counter of `alloc_page`. -/
def physTasksPages : List Word :=
  (List.range' 0 ((physTasksSpaceEnd - physTasksSpaceStart) / pageSize).toNat).map fun k =>
    physTasksSpaceStart + BitVec.ofNat 32 k * pageSize

/-- The page that `alloc_page` finds, or 0. -/
def allocPage (m : MemoryManager) (pt : PageTable) (linearAddr : Word) : (MemoryManager × PageTable) × Word :=
  match physTasksPages.find? fun i => getPageFromBitmap m.pagesBitmap i = 0 with
  | some i => (bindPage m pt linearAddr i simplePageBitmapCallback, i)
  | none => ((m, pt), 0)

/-- The values of the loop counter of `alloc_page_extended`. -/
def extendedPages : List Word :=
  (List.range' 0 ((kernelExtendedEnd - kernelExtendedStart) / pageSize).toNat).map fun k =>
    kernelExtendedStart + BitVec.ofNat 32 k * pageSize

/-- The linear address that `alloc_page_extended` finds, or 0. -/
def allocPageExtended (m : MemoryManager) (pt : PageTable) (physAddr : Word) : (MemoryManager × PageTable) × Word :=
  match extendedPages.find? fun i =>
      getPageFromBitmap m.extendedKernelPagesBitmap (i - kernelExtendedStart) = 0 with
  | some i => (bindPage m pt i physAddr extendedKernelBitmapCallback, i)
  | none => ((m, pt), 0)

/-- One turn of the loop that maps the kernel heap: `i` with the index `k` of its page. -/
def bindHeapPage (kernelPageTable : Word) (m : MemoryManager) (k : Nat) : MemoryManager :=
  let i := virtBase + BitVec.ofNat 32 k * pageSize
  let m := if i % tableSize = 0 then
      { m with
        kernelPageDirectory :=
          bindTable m m.kernelPageDirectory (kernelPageTable + BitVec.ofNat 32 (4 * k)) i }
    else m
  let base := (BitVec.ofNat 32 k &&& (tableBitField >>> 2)).toNat
  let (m', pt) :=
    bindPage m (fun j => m.kernelPageTable (base + j)) i (phys i) simplePageBitmapCallback
  { m' with
    kernelPageTable := fun j => if base ≤ j then pt (j - base) else m.kernelPageTable j }

/-- `init_memory_manager` from the state the loader leaves; `kernelPageTable` is
the address of `boot_page_table`. The sizes given to `memset` are in bytes. -/
def initMemoryManager (kernelPageTable : Word) (m : MemoryManager) : MemoryManager :=
  let m := { m with
    pagesBitmap := fun i =>
      if 4 * i < mmBitmapIntPerTable * mmBitmapTables then 0 else m.pagesBitmap i
    extendedKernelPagesBitmap := fun i =>
      if 4 * i < mmBitmapIntPerTable * kernelExtendedTables.toNat then 0
      else m.extendedKernelPagesBitmap i }
  let m := { m with
    pagesBitmap := fun i =>
      if i < 4 * mmBitmapIntPerTable then BitVec.allOnes 32 else m.pagesBitmap i }
  let m := { m with kernelPagesOperations := true }
  let k := kernelLowerTables.toNat * pagesPerTable
  let m := (List.range' k (kernelHigherTables.toNat * pagesPerTable)).foldl
    (bindHeapPage kernelPageTable) m
  { m with kernelPagesOperations := false }

end RubiKernel.Mmu
