import RubiKernel.Boot.Defs
import RubiKernel.Mmu.Window

/-! The tables of the loader map the first 16 MB twice while paging is switched on, and at
`VIRT_BASE` only when `kernel_main` is called. -/

namespace RubiKernel.Boot

open Memory Mmu Countdown

variable {image : Image} {mem : Memory} {slot : Nat → Option Nat} {access : Access}
  {x va a w : Word} {i k n : Nat}

def Image.entry (image : Image) : Option Nat → Word
  | some k => phys image.bootPageTable + BitVec.ofNat 32 k * 0x1000 + 0x003
  | none => 0

/-- The tables in memory: `slot` gives the table of each entry of the directory. -/
structure Tables (image : Image) (mem : Memory) (slot : Nat → Option Nat) : Prop where
  directory : ∀ i < 1024, read32 mem (phys image.bootPageDirectory + BitVec.ofNat 32 (4 * i)) =
    image.entry (slot i)
  table : ∀ j < 4096, read32 mem (phys image.bootPageTable + BitVec.ofNat 32 (4 * j)) =
    BitVec.ofNat 32 j * 0x1000 + 0x003
  slot_lt : ∀ i k, slot i = some k → k < 4

theorem Image.phys_directory (image : Image) :
    (phys image.bootPageDirectory).toNat = image.bootPageDirectory.toNat - 0xC0000000 := by
  have habove := image.stackTop_above
  have hbelow := image.stackTop_below
  rw [phys, BitVec.toNat_sub_of_le]
  · rfl
  · show 0xC0000000 ≤ image.bootPageDirectory.toNat
    omega

theorem Image.phys_table (image : Image) :
    (phys image.bootPageTable).toNat = image.bootPageDirectory.toNat - 0xC0000000 + 4096 := by
  have hdirectory := image.phys_directory
  have hbelow := image.tables_below
  have heq : phys image.bootPageTable = phys image.bootPageDirectory + 0x1000 :=
    add_sub_right_comm ..
  rw [heq, BitVec.toNat_add, hdirectory]
  show (_ + 4096) % 2 ^ 32 = _
  omega

theorem entry_high (hx : x.toNat % 4096 = 0) : (x + 0x003) &&& 0xFFFFF000 = x := by
  have hlt := x.isLt
  refine BitVec.eq_of_toNat_eq ?_
  rw [show (0xFFFFF000 : Word) = Bits.highMask 32 12 by decide, Bits.and_highMask_toNat,
    BitVec.toNat_add]
  show (x.toNat + 3) % 2 ^ 32 / 2 ^ 12 * 2 ^ 12 = x.toNat
  omega

theorem entry_mask (hx : x.toNat % 4096 = 0) : (x + 0x003) &&& access.mask = access.mask := by
  have hlow : (x + 0x003).toNat % 4 = 3 := by
    rw [BitVec.toNat_add]
    show (x.toNat + 3) % 2 ^ 32 % 4 = 3
    omega
  refine BitVec.eq_of_toNat_eq ?_
  rw [BitVec.toNat_and]
  cases access with
  | read =>
    show (x + 0x003).toNat &&& (2 ^ 1 - 1) = 2 ^ 1 - 1
    rw [Nat.and_two_pow_sub_one_eq_mod]
    omega
  | write =>
    show (x + 0x003).toNat &&& (2 ^ 2 - 1) = 2 ^ 2 - 1
    rw [Nat.and_two_pow_sub_one_eq_mod]
    omega

theorem entryAddr_eq (hx : x.toNat % 4096 = 0) (hi : va.toNat = i) :
    entryAddr x va = x + BitVec.ofNat 32 (4 * i) := by
  have hlt := x.isLt
  refine BitVec.eq_of_toNat_eq ?_
  rw [entryAddr, high_eq_self hx, BitVec.toNat_add, BitVec.toNat_mul, BitVec.toNat_add,
    BitVec.toNat_ofNat, hi]
  show (x.toNat + i * 4 % 2 ^ 32) % 2 ^ 32 = _
  omega

theorem entryAddr_entry (hx : x.toNat % 4096 = 0) : entryAddr (x + 0x003) va = entryAddr x va := by
  rw [entryAddr, entryAddr, entry_high hx, high_eq_self hx]

theorem Tables.walk (h : Tables image mem slot) :
    walk mem (phys image.bootPageDirectory) access va =
      (slot (va >>> 22).toNat).map fun k => BitVec.ofNat 32 k * tableSize + (va &&& 0x3FFFFF) := by
  have hdirectory := image.phys_directory
  have htable := image.phys_table
  have halign := image.bootPageDirectory_align
  have hbelow := image.tables_below
  have hlt : (va >>> 22).toNat < 1024 := by
    have := va.isLt
    rw [pde_toNat]
    omega
  rw [Boot.walk, entryAddr_eq (by omega) rfl, h.directory _ hlt]
  cases hslot : slot (va >>> 22).toNat with
  | none =>
    have hmask : (0 : Word) &&& access.mask ≠ access.mask := by
      cases access <;> decide
    exact if_neg hmask
  | some k =>
    have hk := h.slot_lt _ _ hslot
    have hj : 1024 * k + va.toNat / 4096 % 1024 < 4096 := by omega
    have hbase : (phys image.bootPageTable + BitVec.ofNat 32 k * 0x1000).toNat =
        (phys image.bootPageTable).toNat + k * 4096 := by
      rw [BitVec.toNat_add, BitVec.toNat_mul, BitVec.toNat_ofNat]
      show (_ + k % 2 ^ 32 * 4096 % 2 ^ 32) % 2 ^ 32 = _
      omega
    have hpte : entryAddr (image.entry (some k)) ((va &&& tableBitField) >>> 12) =
        phys image.bootPageTable + BitVec.ofNat 32 (4 * (1024 * k + va.toNat / 4096 % 1024)) := by
      rw [Image.entry, entryAddr_entry (by omega), entryAddr_eq (by omega) (pteIndex_eq va)]
      refine BitVec.eq_of_toNat_eq ?_
      rw [BitVec.toNat_add, hbase, BitVec.toNat_add, BitVec.toNat_ofNat, BitVec.toNat_ofNat]
      omega
    have hpage : (BitVec.ofNat 32 (1024 * k + va.toNat / 4096 % 1024) * 0x1000).toNat =
        (1024 * k + va.toNat / 4096 % 1024) * 4096 := by
      rw [BitVec.toNat_mul, Word.toNat_ofNat (by omega)]
      show _ * 4096 % 2 ^ 32 = _
      omega
    rw [Image.entry, if_pos (entry_mask (by omega)), ← Image.entry, hpte, h.table _ hj]
    simp only [Option.map_some]
    rw [if_pos (entry_mask (by omega)), entry_high (by omega)]
    refine congrArg some (BitVec.eq_of_toNat_eq ?_)
    have htable : (BitVec.ofNat 32 k * tableSize).toNat = k * 0x400000 := by
      rw [BitVec.toNat_mul, BitVec.toNat_ofNat]
      show k % 2 ^ 32 * 0x400000 % 2 ^ 32 = _
      omega
    rw [BitVec.toNat_add, BitVec.toNat_add, hpage, htable]
    have hlow : (va &&& 0xFFF).toNat = va.toNat % 2 ^ 12 := Bits.low_toNat (k := 12) va (by decide)
    have hlows : (va &&& 0x3FFFFF).toNat = va.toNat % 2 ^ 22 := Bits.low_toNat (k := 22) va (by decide)
    rw [hlow, hlows]
    omega

section

variable {s : Cpu} {c : Word}

theorem add_step (x : Word) (i : Nat) :
    x + BitVec.ofNat 32 i * 0x1000 + 0x1000 = x + BitVec.ofNat 32 (i + 1) * 0x1000 := by
  rw [BitVec.ofNat_add, BitVec.add_mul, BitVec.add_assoc]
  rfl

theorem add_word (x : Word) (i : Nat) :
    x + BitVec.ofNat 32 (4 * i) + 4 = x + BitVec.ofNat 32 (4 * (i + 1)) := by
  rw [Nat.mul_succ, BitVec.ofNat_add, BitVec.add_assoc]
  rfl

theorem add_zero_word (x : Word) : x + BitVec.ofNat 32 0 = x := BitVec.add_zero x

theorem add_none (x : Word) : x + BitVec.ofNat 32 0 * 0x1000 = x := BitVec.add_zero x

theorem store_of_paging_off (hs : s.cr0 &&& 0x80000000 = 0) (linear w : Word) :
    s.store linear w = some { s with mem := write32 s.mem linear w } := by
  rw [Cpu.store, Cpu.address, if_pos hs]
  rfl

theorem fillMappings_eq (hs : s.cr0 &&& 0x80000000 = 0) :
    fillMappings s = some { s with
      eax := s.eax + 0x1000
      edi := s.edi + 4
      mem := write32 s.mem s.edi s.eax } := by
  rw [fillMappings, store_of_paging_off hs]
  rfl

def filledMappings (s : Cpu) (i : Nat) : Cpu :=
  { s with
    eax := s.eax + BitVec.ofNat 32 i * 0x1000
    edi := s.edi + BitVec.ofNat 32 (4 * i)
    mem := fill32 s.mem s.edi (fun j => s.eax + BitVec.ofNat 32 j * 0x1000) i }

theorem filledMappings_cr0 : (filledMappings s i).cr0 = s.cr0 := rfl

theorem fillMappings_loop (hs : s.cr0 &&& 0x80000000 = 0) (hc : c.toNat = n + 1) :
    loop fillMappings c s = some (filledMappings s (n + 1)) := by
  have hstart : filledMappings s 0 = s := by
    rw [filledMappings, add_none, Nat.mul_zero, add_zero_word]
    rfl
  have hturn : ∀ i ≤ n, fillMappings (filledMappings s i) = some (filledMappings s (i + 1)) := by
    intro i _
    rw [fillMappings_eq (s := filledMappings s i) hs, filledMappings, add_step, add_word]
    rfl
  have hloop := loop_eq hc hturn
  rwa [hstart] at hloop

theorem fillDirectoryWithTableAddrs_eq (hs : s.cr0 &&& 0x80000000 = 0) :
    fillDirectoryWithTableAddrs s = some { s with
      edx := s.edx + 0x1000
      edi := s.edi + 4
      mem := write32 s.mem s.edi s.edx } := by
  rw [fillDirectoryWithTableAddrs, store_of_paging_off hs]
  rfl

def filledDirectory (s : Cpu) (i : Nat) : Cpu :=
  { s with
    edx := s.edx + BitVec.ofNat 32 i * 0x1000
    edi := s.edi + BitVec.ofNat 32 (4 * i)
    mem := fill32 s.mem s.edi (fun j => s.edx + BitVec.ofNat 32 j * 0x1000) i }

theorem filledDirectory_cr0 : (filledDirectory s i).cr0 = s.cr0 := rfl

theorem fillDirectoryWithTableAddrs_loop (hs : s.cr0 &&& 0x80000000 = 0) (hc : c.toNat = n + 1) :
    loop fillDirectoryWithTableAddrs c s = some (filledDirectory s (n + 1)) := by
  have hstart : filledDirectory s 0 = s := by
    rw [filledDirectory, add_none, Nat.mul_zero, add_zero_word]
    rfl
  have hturn : ∀ i ≤ n,
      fillDirectoryWithTableAddrs (filledDirectory s i) = some (filledDirectory s (i + 1)) := by
    intro i _
    rw [fillDirectoryWithTableAddrs_eq (s := filledDirectory s i) hs, filledDirectory, add_step,
      add_word]
    rfl
  have hloop := loop_eq hc hturn
  rwa [hstart] at hloop

/-- The memory when paging is enabled. -/
def bootMemory (image : Image) (mem : Memory) : Memory :=
  let mapping : Nat → Word := fun j => 0x003 + BitVec.ofNat 32 j * 0x1000
  let table : Nat → Word := fun j => phys image.bootPageTable + 0x003 + BitVec.ofNat 32 j * 0x1000
  let mem := fill32 mem (phys image.bootPageTable) mapping 4096
  let mem := fill32 mem (phys image.bootPageTable + BitVec.ofNat 32 0x4000) mapping 4096
  let mem := fill32 mem (phys image.bootPageDirectory) table 4
  fill32 mem (phys image.bootPageDirectory + BitVec.ofNat 32 0xC00) table 4

def pagingEnabled (image : Image) (s : Cpu) : Cpu :=
  let s := filledMappings { s with edi := phys image.bootPageTable, eax := 0x003 } 4096
  let s := filledMappings { s with eax := 0x003 } 4096
  let s := filledDirectory
    { s with edi := phys image.bootPageDirectory, edx := phys image.bootPageTable + 0x003 } 4
  let s := filledDirectory
    { s with
      edi := phys image.bootPageDirectory + (virtBase >>> 22) * 4
      edx := phys image.bootPageTable + 0x003 } 4
  { s with cr3 := phys image.bootPageDirectory, cr0 := s.cr0 ||| 0x80010000 }

theorem kernelStart_eq (hs : s.cr0 &&& 0x80000000 = 0) :
    kernelStart image s = some (pagingEnabled image s) := by
  have hmappings : ∀ t : Cpu, t.cr0 &&& 0x80000000 = 0 →
      loop fillMappings 4096 t = some (filledMappings t 4096) :=
    fun t ht => fillMappings_loop (n := 4095) ht rfl
  have hdirectory : ∀ t : Cpu, t.cr0 &&& 0x80000000 = 0 →
      loop fillDirectoryWithTableAddrs 4 t = some (filledDirectory t 4) :=
    fun t ht => fillDirectoryWithTableAddrs_loop (n := 3) ht rfl
  simp only [kernelStart, hmappings, hdirectory, hs, filledMappings_cr0, filledDirectory_cr0,
    Option.bind_eq_bind, Option.bind_some, Option.pure_def, pagingEnabled]

theorem pagingEnabled_cr0 : (pagingEnabled image s).cr0 = s.cr0 ||| 0x80010000 := by
  simp only [pagingEnabled, filledDirectory, filledMappings]

theorem pagingEnabled_ebx : (pagingEnabled image s).ebx = s.ebx := by
  simp only [pagingEnabled, filledDirectory, filledMappings]

theorem pagingEnabled_mem : (pagingEnabled image s).mem = bootMemory image s.mem := by
  have hindex : (virtBase >>> 22) * 4 = BitVec.ofNat 32 0xC00 := by decide
  simp only [pagingEnabled, filledDirectory, filledMappings, hindex, bootMemory]

end

theorem Image.table_eq (image : Image) :
    phys image.bootPageTable = phys image.bootPageDirectory + BitVec.ofNat 32 0x1000 :=
  add_sub_right_comm ..

theorem read32_bootMemory {p : Nat} (hp : p % 4 = 0) (hlt : p < 0x9000) :
    read32 (bootMemory image mem) (phys image.bootPageDirectory + BitVec.ofNat 32 p) =
      if 0xC00 ≤ p ∧ p < 0xC10 then image.entry (some ((p - 0xC00) / 4))
      else if p < 16 then image.entry (some (p / 4))
      else if 0x1000 ≤ p then BitVec.ofNat 32 ((p - 0x1000) / 4 % 4096) * 0x1000 + 0x003
      else read32 mem (phys image.bootPageDirectory + BitVec.ofNat 32 p) := by
  have halign := image.bootPageDirectory_align
  have hdirectory := image.phys_directory
  have hread : ∀ (mem : Memory) (f : Nat → Word) (n q : Nat), q % 4 = 0 → q + 4 * n ≤ 2 ^ 31 →
      read32 (fill32 mem (phys image.bootPageDirectory + BitVec.ofNat 32 q) f n)
        (phys image.bootPageDirectory + BitVec.ofNat 32 p) =
      if q ≤ p ∧ p < q + 4 * n then f ((p - q) / 4)
      else read32 mem (phys image.bootPageDirectory + BitVec.ofNat 32 p) :=
    fun mem f n q hq hle => read32_fill32_add (by omega) hp hq (by omega) hle
  have hread₀ : ∀ (mem : Memory) (f : Nat → Word),
      read32 (fill32 mem (phys image.bootPageDirectory) f 4)
        (phys image.bootPageDirectory + BitVec.ofNat 32 p) =
      if p < 16 then f (p / 4)
      else read32 mem (phys image.bootPageDirectory + BitVec.ofNat 32 p) := by
    intro mem f
    have h := hread mem f 4 0 rfl (by decide)
    rw [add_zero_word] at h
    simpa only [Nat.zero_le, true_and, Nat.sub_zero, Nat.zero_add] using h
  have hentry : ∀ j, phys image.bootPageTable + 0x003 + BitVec.ofNat 32 j * 0x1000 =
      image.entry (some j) := fun j => add_right_comm ..
  have hmapping : ∀ j : Nat, (0x003 : Word) + BitVec.ofNat 32 j * 0x1000 =
      BitVec.ofNat 32 j * 0x1000 + 0x003 := fun j => BitVec.add_comm ..
  simp only [bootMemory, hentry, hmapping]
  simp only [image.table_eq, add_ofNat_add]
  rw [hread _ _ 4 0xC00 rfl (by decide), hread₀, hread _ _ 4096 (0x1000 + 0x4000) rfl (by decide),
    hread _ _ 4096 0x1000 rfl (by decide)]
  refine if_congr (by omega) rfl (if_congr Iff.rfl rfl ?_)
  by_cases htable : 0x1000 ≤ p
  · rw [if_pos htable]
    by_cases hhigher : 0x5000 ≤ p
    · rw [if_pos (by omega), show (p - 0x1000) / 4 % 4096 = (p - (0x1000 + 0x4000)) / 4 by omega]
    · rw [if_neg (by omega), if_pos (by omega),
        show (p - 0x1000) / 4 % 4096 = (p - 0x1000) / 4 by omega]
  · rw [if_neg htable, if_neg (by omega), if_neg (by omega)]

/-- The directory with the entries of the lower half from `n` on. -/
def slots (n i : Nat) : Option Nat :=
  if n ≤ i ∧ i < 4 then some i else if 768 ≤ i ∧ i < 772 then some (i - 768) else none

theorem slots_lt (h : slots n i = some k) : k < 4 := by
  unfold slots at h
  grind

theorem bootMemory_tables
    (hbss : ∀ i < 1024, read32 mem (phys image.bootPageDirectory + BitVec.ofNat 32 (4 * i)) = 0) :
    Tables image (bootMemory image mem) (slots 0) where
  directory i hi := by
    rw [read32_bootMemory (by omega) (by omega), hbss i hi, slots]
    split
    · next h => rw [if_neg (by omega), if_pos (by omega), show (4 * i - 0xC00) / 4 = i - 768 by omega]
    · next h =>
      split
      · next h' => rw [if_pos (by omega), Nat.mul_div_cancel_left i (by decide)]
      · next h' => rw [if_neg (by omega), if_neg (by omega), if_neg (by omega)]; rfl
  table j hj := by
    rw [image.table_eq, add_ofNat_add, read32_bootMemory (by omega) (by omega), if_neg (by omega),
      if_neg (by omega), if_pos (by omega), show (0x1000 + 4 * j - 0x1000) / 4 % 4096 = j by omega]
  slot_lt _ _ := slots_lt

end RubiKernel.Boot
