import RubiKernel.Lib.Countdown
import RubiKernel.Lib.Memory
import RubiKernel.Mmu.Defs

/-! `loader/start.asm`: the page tables that the loader fills, and the way to `kernel_main`.
The memory is physical; with paging enabled, an address is translated by the tables in it. -/

namespace RubiKernel.Boot

open Memory Mmu Countdown

/-- Where the linker puts the stack and the tables of `.bss`, in the image at `VIRT_BASE`. -/
structure Image where
  stackTop : Word
  bootPageDirectory : Word
  stackTop_align : stackTop.toNat % 16 = 0
  bootPageDirectory_align : bootPageDirectory.toNat % 4096 = 0
  stackTop_above : 0xC0100000 + 16384 * 2 ≤ stackTop.toNat
  stackTop_below : stackTop.toNat ≤ bootPageDirectory.toNat
  tables_below : bootPageDirectory.toNat + 4096 + 4096 * (4 + 4) ≤ 0xC1000000

def Image.bootPageTable (image : Image) : Word := image.bootPageDirectory + 0x1000

structure Cpu where
  eax : Word
  ebx : Word
  edx : Word
  esi : Word
  edi : Word
  esp : Word
  cr0 : Word
  cr3 : Word
  mem : Memory

inductive Access
  | read
  | write
  deriving DecidableEq

/-- The bits that an entry needs: present, and writable. -/
def Access.mask : Access → Word
  | .read => 0x001
  | .write => 0x003

/-- The address in the high bits of `base`, and the entry from there. -/
def entryAddr (base index : Word) : Word := (base &&& 0xFFFFF000) + index * 4

def walk (mem : Memory) (cr3 : Word) (access : Access) (linear : Word) : Option Word :=
  let pde : Word := read32 mem (entryAddr cr3 (linear >>> 22))
  if pde &&& access.mask = access.mask then
    let pte : Word := read32 mem (entryAddr pde ((linear &&& tableBitField) >>> 12))
    if pte &&& access.mask = access.mask then some ((pte &&& 0xFFFFF000) + (linear &&& 0xFFF))
    else none
  else none

namespace Cpu

def address (s : Cpu) (access : Access) (linear : Word) : Option Word :=
  if s.cr0 &&& 0x80000000 = 0 then some linear else walk s.mem s.cr3 access linear

/-- An aligned word does not cross a page. `none` is a page fault. -/
def load (s : Cpu) (linear : Word) : Option Word :=
  (s.address .read linear).map (read32 s.mem)

def store (s : Cpu) (linear w : Word) : Option Cpu :=
  (s.address .write linear).map fun p => { s with mem := write32 s.mem p w }

def push (s : Cpu) (w : Word) : Option Cpu :=
  ({ s with esp := s.esp - 4 }).store (s.esp - 4) w

end Cpu

/-- `.fill_lower_half_with_direct_mappings` and `.fill_higher_half_with_mappings`. -/
def fillMappings (s : Cpu) : Option Cpu := do
  let s ← s.store s.edi s.eax
  return { s with eax := s.eax + 0x1000, edi := s.edi + 4 }

/-- `.fill_directory_with_table_addrs_lower_half` and `.fill_directory_with_table_addrs`. -/
def fillDirectoryWithTableAddrs (s : Cpu) : Option Cpu := do
  let s ← s.store s.edi s.edx
  return { s with edx := s.edx + 0x1000, edi := s.edi + 4 }

/-- From `kernel_start` to the jump to `higher_kernel_start`. -/
def kernelStart (image : Image) (s : Cpu) : Option Cpu := do
  let s ← loop fillMappings 4096 { s with edi := phys image.bootPageTable, eax := 0x003 }
  let s ← loop fillMappings 4096 { s with eax := 0x003 }
  let s ← loop fillDirectoryWithTableAddrs 4
    { s with edi := phys image.bootPageDirectory, edx := phys image.bootPageTable + 0x003 }
  let s ← loop fillDirectoryWithTableAddrs 4
    { s with
      edi := phys image.bootPageDirectory + (virtBase >>> 22) * 4
      edx := phys image.bootPageTable + 0x003 }
  return { s with cr3 := phys image.bootPageDirectory, cr0 := s.cr0 ||| 0x80010000 }

/-- `.remap_higher_half`: `esi` stays where it is. -/
def remapHigherHalf (s : Cpu) : Option Cpu := do
  let eax ← s.load s.esi
  let s ← ({ s with eax }).store s.edi eax
  return { s with edi := s.edi + 4 }

def zeroHigherHalf (s : Cpu) : Option Cpu := do
  let s ← s.store s.edi 0
  return { s with edi := s.edi + 4 }

/-- From `higher_kernel_start` to the first instruction of `kernel_main`, which returns to
`hang`. -/
def higherKernelStart (image : Image) (hang : Word) (s : Cpu) : Option Cpu := do
  let s ← loop remapHigherHalf 4
    { s with edi := image.bootPageDirectory, esi := image.bootPageDirectory + 4 * 4 }
  let s ← loop zeroHigherHalf 4 { s with edi := s.esi }
  let s := { s with esp := image.stackTop }
  let s ← s.push s.esp
  let s ← s.push s.ebx
  s.push hang

end RubiKernel.Boot
