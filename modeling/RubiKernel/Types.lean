import Mathlib.Data.BitVec

/-! `types.h`, `kernel/defines.h` and the memory map of `kernel/memory/mmu.h`. -/

namespace RubiKernel

/-- `size_t` and `uint32_t`. -/
abbrev Word := BitVec 32

abbrev Byte := BitVec 8

/-- Membership in a list of addresses is decided by comparing them. -/
instance Word.lawfulBEq : LawfulBEq Word := inferInstance

instance Byte.lawfulBEq : LawfulBEq Byte := inferInstance

def virtBase : Word := 0xC0000000

def pageSize : Word := 0x1000

def pagesPerTable : Nat := 1024

def tableSize : Word := 0x400000

def virt (x : Word) : Word := x + virtBase

def kernelLowerTables : Word := 4

def kernelHigherTables : Word := 4

def userSpaceTables : Word := 8

/-- The end of kernel space in virtual space. -/
def kernelPagesEnd : Word := virtBase + (kernelLowerTables + kernelHigherTables) * tableSize

/-- Physical pages below are intended for the kernel. -/
def physTasksSpaceStart : Word := (kernelLowerTables + kernelHigherTables) * tableSize

def physTasksSpaceEnd : Word :=
  (kernelLowerTables + kernelHigherTables) * tableSize + userSpaceTables * tableSize

/-- Time quants for one task before switch. -/
def taskQuota : Word := 3

def taskMsgBuffSize : Int := 8

theorem Word.toNat_ofNat {n : Nat} (h : n < 2 ^ 32) : (BitVec.ofNat 32 n).toNat = n := by
  rw [BitVec.toNat_ofNat, Nat.mod_eq_of_lt h]

end RubiKernel
