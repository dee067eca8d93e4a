import RubiKernel.Boot.Higher
import RubiKernel.Mmu.Spaces

/-! `init_memory_manager` on the tables of the loader, as the memory manager sees them. -/

universe u

namespace RubiKernel.Boot

open Memory Mmu

def decodePde (w : Word) : PageDirectoryEntry where
  present := w.getLsbD 0
  readWrite := w.getLsbD 1
  userSupervisor := w.getLsbD 2
  pageTableAddr := (w >>> 12).setWidth 20

def decodePte (w : Word) : PageTableEntry where
  present := w.getLsbD 0
  readWrite := w.getLsbD 1
  userSupervisor := w.getLsbD 2
  pagePhysAddr := (w >>> 12).setWidth 20

/-- The kernel's directory and tables in memory; the bitmaps are in the cleared `.bss`. -/
def memoryManager (image : Image) (mem : Memory) : MemoryManager :=
  { zeroMemory with
    kernelPageDirectory := fun i =>
      decodePde (read32 mem (phys image.bootPageDirectory + BitVec.ofNat 32 (4 * i)))
    kernelPageTable := fun j =>
      decodePte (read32 mem (phys image.bootPageTable + BitVec.ofNat 32 (4 * j))) }

variable {image : Image} {mem : Memory} {va w : Word}

theorem present_iff :
    w &&& Access.mask .read = Access.mask .read ↔ (decodePde w).present = true := by
  have hmask : (w &&& Access.mask .read).toNat = w.toNat % 2 ^ 1 :=
    Bits.low_toNat (k := 1) w (by decide)
  rw [← BitVec.toNat_inj, hmask, decodePde, BitVec.getLsbD, Nat.testBit_zero, decide_eq_true_iff]
  rfl

theorem decodePde_frame (w : Word) : frameAddr (decodePde w).pageTableAddr = w &&& 0xFFFFF000 :=
  frameAddr_eq w

theorem decodePte_frame (w : Word) : frameAddr (decodePte w).pagePhysAddr = w &&& 0xFFFFF000 :=
  frameAddr_eq w

theorem entryAddr_offset (table : Word) (htable : table.toNat % 4096 = 0) (va : Word) :
    entryAddr w ((va &&& tableBitField) >>> 12) = table + BitVec.ofNat 32
      (4 * (((w &&& 0xFFFFF000) - table).toNat / 4 + pteIndex va)) := by
  have hhigh : (w &&& 0xFFFFF000).toNat = w.toNat / 2 ^ 12 * 2 ^ 12 := by
    rw [show (0xFFFFF000 : Word) = Bits.highMask 32 12 by decide, Bits.and_highMask_toNat]
  have hlt := (w &&& 0xFFFFF000).isLt
  have hlt' := table.isLt
  refine BitVec.eq_of_toNat_eq ?_
  rw [entryAddr, BitVec.toNat_add, BitVec.toNat_mul, BitVec.toNat_add, BitVec.toNat_ofNat,
    BitVec.toNat_sub, hhigh, pteIndex]
  show (w.toNat / 2 ^ 12 * 2 ^ 12 + _ * 4 % 2 ^ 32) % 2 ^ 32 = _
  omega

theorem walk_eq_walkTables (image : Image) (mem : Memory) (va : Word) :
    walk mem (phys image.bootPageDirectory) .read va =
      walkTables (tablesFrom image.bootPageTable (memoryManager image mem).kernelPageTable)
        (memoryManager image mem).kernelPageDirectory va := by
  have hdirectory := image.phys_directory
  have htable := image.phys_table
  have halign := image.bootPageDirectory_align
  rw [walk, walkTables, entryAddr_eq (by omega) rfl]
  refine if_congr present_iff ?_ rfl
  simp only [tablesFrom, memoryManager, decodePde_frame, decodePte_frame, Option.bind_some]
  rw [entryAddr_offset (phys image.bootPageTable) (by omega)]
  exact if_congr present_iff rfl rfl

theorem decodePde_entry (image : Image) (k : Option Nat) (hk : ∀ j, k = some j → j < 8) :
    (decodePde (image.entry k)).present = k.isSome ∧ ∀ j, k = some j →
      frameAddr (decodePde (image.entry k)).pageTableAddr =
        phys image.bootPageTable + BitVec.ofNat 32 j * pageSize := by
  cases k with
  | none =>
    rw [Image.entry]
    exact ⟨by decide, fun j hj => by cases hj⟩
  | some k =>
    have hlt := hk k rfl
    have htable := image.phys_table
    have halign := image.bootPageDirectory_align
    have hbelow := image.tables_below
    have haddr : (phys image.bootPageTable + BitVec.ofNat 32 k * 0x1000).toNat % 4096 = 0 := by
      rw [BitVec.toNat_add]
      have hpage := page_toNat (j := k) (by omega)
      rw [show BitVec.ofNat 32 k * 0x1000 = BitVec.ofNat 32 k * pageSize from rfl]
      omega
    refine ⟨present_iff.mp (entry_mask haddr), ?_⟩
    rintro j ⟨⟩
    rw [decodePde_frame, Image.entry, entry_high haddr]
    rfl

section

variable (h : Tables image mem (slots 4))

include h

theorem Tables.lower_entry {i : Nat} (hi : i < 1024) (hnot : ¬(772 ≤ i ∧ i < 776)) :
    (initMemoryManager image.bootPageTable (memoryManager image mem)).kernelPageDirectory i =
      decodePde (image.entry (slots 4 i)) := by
  rw [initMemoryManager_directory, if_neg hnot]
  exact congrArg decodePde (h.directory i hi)

theorem Tables.kernelDirectory {k : Nat} (hk : k < 8) :
    ((initMemoryManager image.bootPageTable
      (memoryManager image mem)).kernelPageDirectory (768 + k)).present = true ∧
    frameAddr ((initMemoryManager image.bootPageTable
      (memoryManager image mem)).kernelPageDirectory (768 + k)).pageTableAddr =
      phys image.bootPageTable + BitVec.ofNat 32 k * pageSize := by
  have htable := image.phys_table
  have halign := image.bootPageDirectory_align
  have hbelow := image.tables_below
  have hpage := page_toNat (j := k) (by omega)
  by_cases hlower : k < 4
  · have hslot : slots 4 (768 + k) = some k := by
      unfold slots
      grind
    obtain ⟨hpresent, hframe⟩ := decodePde_entry image (some k) (by grind)
    rw [h.lower_entry (by omega) (by omega), hslot, hpresent]
    exact ⟨rfl, hframe k rfl⟩
  · have hpt : phys (image.bootPageTable + BitVec.ofNat 32 (4 * (1024 * (768 + k - 768)))) =
        phys image.bootPageTable + BitVec.ofNat 32 k * pageSize := by
      rw [phys_add]
      refine congrArg _ (BitVec.eq_of_toNat_eq ?_)
      rw [hpage, BitVec.toNat_ofNat]
      omega
    have haligned : (phys image.bootPageTable + BitVec.ofNat 32 k * pageSize).toNat % 4096 = 0 := by
      rw [BitVec.toNat_add]
      omega
    rw [initMemoryManager_directory, if_pos (by omega), boundTable, hpt]
    exact ⟨rfl, (frameAddr_eq _).trans (high_eq_self haligned)⟩

theorem Tables.kernelPages {j : Nat} (hj : j < 8192) :
    ((initMemoryManager image.bootPageTable
      (memoryManager image mem)).kernelPageTable j).present = true ∧
    frameAddr ((initMemoryManager image.bootPageTable
      (memoryManager image mem)).kernelPageTable j).pagePhysAddr =
      BitVec.ofNat 32 j * pageSize := by
  have hpage := page_toNat hj
  rw [initMemoryManager_table]
  by_cases hheap : 4096 ≤ j
  · rw [if_pos ⟨hheap, hj⟩]
    exact ⟨rfl, (frameAddr_eq _).trans (high_eq_self (by omega))⟩
  · have hentry : (memoryManager image mem).kernelPageTable j =
        decodePte (BitVec.ofNat 32 j * pageSize + 0x003) :=
      congrArg decodePte (h.table j (by omega))
    rw [if_neg (by omega), hentry, decodePte_frame, entry_high (by omega)]
    exact ⟨present_iff.mp (entry_mask (by omega)), rfl⟩

/-- `init_memory_manager` adds the tables of the heap to those of the loader. -/
theorem Tables.kernelMap :
    KernelMap (tablesFrom image.bootPageTable
        (initMemoryManager image.bootPageTable (memoryManager image mem)).kernelPageTable)
      (initMemoryManager image.bootPageTable (memoryManager image mem)).kernelPageDirectory :=
  .of_entries (fun _ hk => h.kernelDirectory hk) fun _ hj => h.kernelPages hj

theorem Tables.kernelOnly :
    KernelOnly
      (initMemoryManager image.bootPageTable (memoryManager image mem)).kernelPageDirectory := by
  intro i hi hnot
  have hnone : slots 4 i = none := by
    unfold slots
    grind
  rw [h.lower_entry hi (by omega), hnone, (decodePde_entry image none nofun).1]
  rfl

end

/-- The loader and `init_memory_manager`: the directory of the kernel maps the first 32 MB of
physical memory at `VIRT_BASE`, and nothing else. -/
theorem init_memory_manager_maps (image : Image) (hang : Word) (s : Cpu)
    (hpaging : s.cr0 &&& 0x80000000 = 0)
    (hbss : ∀ i < 1024, read32 s.mem (phys image.bootPageDirectory + BitVec.ofNat 32 (4 * i)) = 0) :
    ∃ s', (kernelStart image s).bind (higherKernelStart image hang) = some s' ∧ ∀ va,
      walkTables (tablesFrom image.bootPageTable
          (initMemoryManager image.bootPageTable (memoryManager image s'.mem)).kernelPageTable)
        (initMemoryManager image.bootPageTable (memoryManager image s'.mem)).kernelPageDirectory va =
      if virtBase ≤ va ∧ va < kernelPagesEnd then some (phys va) else none := by
  obtain ⟨s', heq, hpaged, -, -⟩ := higherKernelStart_spec (pagingEnabled_paged hpaging hbss) hang
  refine ⟨s', ?_, fun va => ?_⟩
  · rw [kernelStart_eq hpaging, Option.bind_some]
    exact heq
  · split
    · next hva => exact hpaged.tables.kernelMap.walk hva.1 hva.2
    · next hva => exact hpaged.tables.kernelOnly.walk hva

theorem init_memory_manager_maps_heap : ∃ (image : Image) (s' : Cpu),
    walkTables (tablesFrom image.bootPageTable
        (initMemoryManager image.bootPageTable (memoryManager image s'.mem)).kernelPageTable)
      (initMemoryManager image.bootPageTable (memoryManager image s'.mem)).kernelPageDirectory
        0xC1000000 = some 0x1000000 := by
  obtain ⟨s', -, hmaps⟩ := init_memory_manager_maps
    ⟨0xC0110000, 0xC0110000, by decide, by decide, by decide, by decide, by decide⟩ 0xC0100020
    ⟨0, 0x10000, 0, 0, 0, 0, 0x11, 0, fun _ => 0⟩ (by decide) fun _ _ =>
      show 0#8 ++ 0#8 ++ 0#8 ++ 0#8 = 0#32 by decide
  exact ⟨_, s', (hmaps 0xC1000000).trans (by decide)⟩

/-- What the tasks start from, once `init_memory_manager` has returned. -/
def spacesAt (ι : Type u) (image : Image) (m : MemoryManager) : Spaces ι where
  mm := m
  tableAt frame :=
    if frame ∈ (List.range 8).map fun k => (m.kernelPageDirectory (768 + k)).pageTableAddr then
      tablesFrom image.bootPageTable m.kernelPageTable frame
    else none
  task _ := none

theorem spacesAt_tableAt {ι : Type u} {m : MemoryManager} {k : Nat} (hk : k < 8) :
    (spacesAt ι image m).tableAt (m.kernelPageDirectory (768 + k)).pageTableAddr =
      tablesFrom image.bootPageTable m.kernelPageTable
        (m.kernelPageDirectory (768 + k)).pageTableAddr :=
  if_pos (List.mem_map.mpr ⟨k, List.mem_range.mpr hk, rfl⟩)

/-- The loader and `init_memory_manager` lead to a state that the address spaces start from. -/
theorem Tables.spacesAt_start (ι : Type u) [DecidableEq ι] (h : Tables image mem (slots 4)) :
    (spaces ι).start
      (spacesAt ι image (initMemoryManager image.bootPageTable (memoryManager image mem))) := by
  refine ⟨⟨h.kernelMap.present, fun k hk => ?_⟩, h.kernelOnly, rfl,
    initMemoryManager_extended_of_free _ rfl, rfl⟩
  obtain ⟨table, htable, hpages⟩ := h.kernelMap.table k hk
  exact ⟨table, (spacesAt_tableAt hk).trans htable, hpages⟩

end RubiKernel.Boot
