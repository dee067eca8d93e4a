import RubiKernel.Lib.Bits
import RubiKernel.Mmu.Reserved

/-! The walk of a page directory, and the directory of the kernel: the tables that
`init_memory_manager` binds, and the 32 MB that they map at `VIRT_BASE`. -/

namespace RubiKernel.Mmu

def frameAddr (frame : BitVec 20) : Word := frame.setWidth 32 <<< 12

/-- The walk of a directory; `tableAt` has the tables by their frames. -/
def walkTables (tableAt : BitVec 20 → Option PageTable) (pd : PageDirectory) (va : Word) :
    Option Word :=
  let pde := pd (va >>> 22).toNat
  if pde.present then
    (tableAt pde.pageTableAddr).bind fun table =>
      let pte := table (pteIndex va)
      if pte.present then some (frameAddr pte.pagePhysAddr + (va &&& 0xFFF)) else none
  else none

/-- The tables in an array of entries at `kernelPageTable`. -/
def tablesFrom (kernelPageTable : Word) (entries : PageTable) (frame : BitVec 20) :
    Option PageTable :=
  some fun i => entries ((frameAddr frame - phys kernelPageTable).toNat / 4 + i)

/-- A directory has the eight tables of the kernel, which map the first 32 MB. -/
structure KernelMap (tableAt : BitVec 20 → Option PageTable) (pd : PageDirectory) : Prop where
  present : ∀ k < 8, (pd (768 + k)).present = true
  table : ∀ k < 8, ∃ t, tableAt (pd (768 + k)).pageTableAddr = some t ∧ ∀ i < 1024,
    (t i).present = true ∧ frameAddr (t i).pagePhysAddr = BitVec.ofNat 32 (1024 * k + i) * pageSize

/-- No other entry of the directory is present. -/
def KernelOnly (pd : PageDirectory) : Prop :=
  ∀ i < 1024, ¬(768 ≤ i ∧ i < 776) → (pd i).present = false

variable {va x kernelPageTable : Word} {m : MemoryManager} {tableAt : BitVec 20 → Option PageTable}
  {pd : PageDirectory} {j k n : Nat}

theorem high_eq_self (hx : x.toNat % 4096 = 0) : x &&& 0xFFFFF000 = x := by
  refine BitVec.eq_of_toNat_eq ?_
  rw [show (0xFFFFF000 : Word) = Bits.highMask 32 12 by decide, Bits.and_highMask_toNat]
  omega

theorem frameAddr_eq (w : Word) : frameAddr ((w >>> 12).setWidth 20) = w &&& 0xFFFFF000 := by
  have hlt := w.isLt
  refine BitVec.eq_of_toNat_eq ?_
  rw [show (0xFFFFF000 : Word) = Bits.highMask 32 12 by decide, Bits.and_highMask_toNat, frameAddr,
    BitVec.toNat_shiftLeft, BitVec.toNat_setWidth, BitVec.toNat_setWidth, BitVec.toNat_ushiftRight,
    Nat.shiftRight_eq_div_pow, Nat.shiftLeft_eq]
  omega

theorem page_toNat (hj : j < 8192) : (BitVec.ofNat 32 j * pageSize).toNat = j * 4096 := by
  rw [BitVec.toNat_mul, BitVec.toNat_ofNat]
  show j % 2 ^ 32 * 4096 % 2 ^ 32 = _
  omega

theorem phys_toNat (hlow : 0xC0000000 ≤ va.toNat) : (phys va).toNat = va.toNat - 0xC0000000 :=
  BitVec.toNat_sub_of_le hlow

theorem phys_add (x y : Word) : phys (x + y) = phys x + y := add_sub_right_comm ..

/-- The kernel's addresses are those of physical memory, `VIRT_BASE` higher. -/
theorem KernelMap.walk (h : KernelMap tableAt pd) (hlow : virtBase ≤ va)
    (hhigh : va < kernelPagesEnd) : walkTables tableAt pd va = some (phys va) := by
  have hlow : 0xC0000000 ≤ va.toNat := hlow
  have hhigh : va.toNat < 0xC2000000 := hhigh
  have hpde : (va >>> 22).toNat = 768 + (va.toNat / 0x400000 - 768) := by
    rw [pde_toNat]
    omega
  obtain ⟨table, htable, hentries⟩ := h.table (va.toNat / 0x400000 - 768) (by omega)
  obtain ⟨hpresent, hframe⟩ := hentries (va.toNat / 4096 % 1024) (by omega)
  rw [walkTables, hpde, if_pos (h.present _ (by omega)), htable, Option.bind_some, pteIndex_eq,
    if_pos hpresent, hframe]
  refine congrArg some (BitVec.eq_of_toNat_eq ?_)
  have hoffset : (va &&& 0xFFF).toNat = va.toNat % 2 ^ 12 := Bits.low_toNat (k := 12) va (by decide)
  rw [BitVec.toNat_add, page_toNat (by omega), hoffset, phys_toNat hlow]
  omega

theorem KernelMap.of_entries {entries : PageTable}
    (table : ∀ k < 8, (pd (768 + k)).present = true ∧
      frameAddr (pd (768 + k)).pageTableAddr = phys kernelPageTable + BitVec.ofNat 32 k * pageSize)
    (page : ∀ j < 8192, (entries j).present = true ∧
      frameAddr (entries j).pagePhysAddr = BitVec.ofNat 32 j * pageSize) :
    KernelMap (tablesFrom kernelPageTable entries) pd where
  present k hk := (table k hk).1
  table k hk := by
    refine ⟨_, rfl, fun i hi => ?_⟩
    have hoffset : (BitVec.ofNat 32 k * pageSize).toNat / 4 + i = 1024 * k + i := by
      rw [page_toNat (by omega)]
      omega
    rw [(table k hk).2, add_sub_cancel_left, hoffset]
    exact page _ (by omega)

theorem KernelOnly.walk (h : KernelOnly pd) (hva : ¬(virtBase ≤ va ∧ va < kernelPagesEnd)) :
    walkTables tableAt pd va = none := by
  have hva : ¬(0xC0000000 ≤ va.toNat ∧ va.toNat < 0xC2000000) := hva
  have hlt := va.isLt
  have habsent := h (va >>> 22).toNat (by rw [pde_toNat]; omega) (by rw [pde_toNat]; omega)
  rw [walkTables, habsent]
  rfl

def boundTable (pt : Word) : PageDirectoryEntry where
  present := true
  readWrite := true
  userSupervisor := false
  pageTableAddr := (phys pt >>> 12).setWidth 20

structure BindsHeapPage (kernelPageTable : Word) (m m' : MemoryManager) (k : Nat) : Prop where
  directory : m'.kernelPageDirectory =
    if k % 1024 = 0 then
      Function.update m.kernelPageDirectory (768 + k / 1024)
        (boundTable (kernelPageTable + BitVec.ofNat 32 (4 * k)))
    else m.kernelPageDirectory
  table : m'.kernelPageTable =
    Function.update m.kernelPageTable k (boundEntry (BitVec.ofNat 32 k * pageSize))
  operations : m'.kernelPagesOperations = true

theorem heapAddr_toNat (hk : k < 8192) :
    (virtBase + BitVec.ofNat 32 k * pageSize).toNat = 0xC0000000 + 4096 * k := by
  rw [BitVec.toNat_add, BitVec.toNat_mul, BitVec.toNat_ofNat]
  show (0xC0000000 + k % 2 ^ 32 * 4096 % 2 ^ 32) % 2 ^ 32 = _
  omega

theorem heapTable_base (hk : k < 8192) :
    (BitVec.ofNat 32 k &&& (tableBitField >>> 2)).toNat = k / 1024 * 1024 := by
  have hmask : tableBitField >>> 2 = BitVec.ofNat 32 (2 ^ 20 - 1) &&& Bits.highMask 32 10 := by
    decide
  rw [hmask, ← BitVec.and_assoc, Bits.and_highMask_toNat, Bits.low_toNat _ (by decide),
    BitVec.toNat_ofNat]
  omega

theorem bindHeapPage_binds (kernelPageTable : Word) (hops : m.kernelPagesOperations = true)
    (hk : k < 8192) :
    BindsHeapPage kernelPageTable m (bindHeapPage kernelPageTable m k) k := by
  have haddr := heapAddr_toNat hk
  have hpte : pteIndex (virtBase + BitVec.ofNat 32 k * pageSize) = k % 1024 := by
    rw [pteIndex_eq, haddr]
    omega
  have hpde : ((virtBase + BitVec.ofNat 32 k * pageSize) >>> 22).toNat = 768 + k / 1024 := by
    rw [pde_toNat, haddr]
    omega
  have htable : (virtBase + BitVec.ofNat 32 k * pageSize) % tableSize = 0 ↔ k % 1024 = 0 := by
    rw [← BitVec.toNat_inj, BitVec.toNat_umod, haddr]
    show (0xC0000000 + 4096 * k) % 0x400000 = 0 ↔ _
    omega
  have hphys : phys (virtBase + BitVec.ofNat 32 k * pageSize) = BitVec.ofNat 32 k * pageSize :=
    add_sub_cancel_left virtBase _
  have hupdate : (fun j => if k / 1024 * 1024 ≤ j then
        Function.update (fun j => m.kernelPageTable (k / 1024 * 1024 + j)) (k % 1024)
          (boundEntry (BitVec.ofNat 32 k * pageSize)) (j - k / 1024 * 1024)
      else m.kernelPageTable j) =
      Function.update m.kernelPageTable k (boundEntry (BitVec.ofNat 32 k * pageSize)) := by
    funext j
    simp only [Function.update_apply]
    grind
  have hbind : ∀ m' : MemoryManager, m'.kernelPagesOperations = true → ∀ pt : PageTable,
      bindPage m' pt (virtBase + BitVec.ofNat 32 k * pageSize) (BitVec.ofNat 32 k * pageSize)
        simplePageBitmapCallback =
      ({ m' with pagesBitmap := Bitmap.put m'.pagesBitmap k true },
        Function.update pt (k % 1024) (boundEntry (BitVec.ofNat 32 k * pageSize))) := by
    intro m' hops' pt
    refine Prod.ext (bindPage_heap hops' hk) ?_
    have hopen : ¬bindRefused m' (virtBase + BitVec.ofNat 32 k * pageSize)
        (BitVec.ofNat 32 k * pageSize) := by
      simp [bindRefused, kernelLinear, hops']
    rw [bindPage, if_neg hopen, hpte]
    rfl
  simp only [bindHeapPage, hphys, htable, heapTable_base hk]
  by_cases hstart : k % 1024 = 0
  · have hopen : ¬kernelLinear m (virtBase + BitVec.ofNat 32 k * pageSize) := by
      simp [kernelLinear, hops]
    have hdirectory : bindTable m m.kernelPageDirectory (kernelPageTable + BitVec.ofNat 32 (4 * k))
        (virtBase + BitVec.ofNat 32 k * pageSize) =
        Function.update m.kernelPageDirectory (768 + k / 1024)
          (boundTable (kernelPageTable + BitVec.ofNat 32 (4 * k))) := by
      rw [bindTable, if_neg hopen, hpde]
      rfl
    have hbound := hbind
      { m with
        kernelPageDirectory := Function.update m.kernelPageDirectory (768 + k / 1024)
          (boundTable (kernelPageTable + BitVec.ofNat 32 (4 * k))) } hops
    simp only [if_pos hstart, hdirectory, hbound, hupdate]
    exact ⟨(if_pos hstart).symm, rfl, hops⟩
  · simp only [if_neg hstart, hbind m hops, hupdate]
    exact ⟨(if_neg hstart).symm, rfl, hops⟩

theorem bindHeapPages_binds (hops : m.kernelPagesOperations = true) (hn : k + n ≤ 8192) :
    (∀ i, ((List.range' k n).foldl (bindHeapPage kernelPageTable) m).kernelPageDirectory i =
      if 768 ≤ i ∧ k ≤ 1024 * (i - 768) ∧ 1024 * (i - 768) < k + n then
        boundTable (kernelPageTable + BitVec.ofNat 32 (4 * (1024 * (i - 768))))
      else m.kernelPageDirectory i) ∧
    ∀ j, ((List.range' k n).foldl (bindHeapPage kernelPageTable) m).kernelPageTable j =
      if k ≤ j ∧ j < k + n then boundEntry (BitVec.ofNat 32 j * pageSize)
      else m.kernelPageTable j := by
  induction n generalizing m k with
  | zero =>
    refine ⟨fun i => ?_, fun j => ?_⟩
    · rw [if_neg (by omega)]
      rfl
    · rw [if_neg (by omega)]
      rfl
  | succ n ih =>
    have hturn := bindHeapPage_binds kernelPageTable hops (show k < 8192 by omega)
    obtain ⟨hdirectory, htable⟩ := ih (k := k + 1) hturn.operations (by omega)
    rw [List.range'_succ, List.foldl_cons]
    refine ⟨fun i => ?_, fun j => ?_⟩
    · rw [hdirectory, hturn.directory]
      by_cases hk : k % 1024 = 0 ∧ i = 768 + k / 1024
      · obtain ⟨hk, rfl⟩ := hk
        rw [if_neg (by omega), if_pos hk, Function.update_self, if_pos (by omega),
          show 1024 * (768 + k / 1024 - 768) = k by omega]
      · have hother : (if k % 1024 = 0 then
            Function.update m.kernelPageDirectory (768 + k / 1024)
              (boundTable (kernelPageTable + BitVec.ofNat 32 (4 * k)))
            else m.kernelPageDirectory) i = m.kernelPageDirectory i := by
          split
          · next hzero => exact Function.update_of_ne (fun h => hk ⟨hzero, h⟩) ..
          · rfl
        rw [hother]
        exact if_congr (by omega) rfl rfl
    · rw [htable, hturn.table, Function.update_apply]
      by_cases hj : j = k
      · rw [if_neg (by omega), if_pos hj, if_pos (by omega), hj]
      · rw [if_neg hj]
        exact if_congr (by omega) rfl rfl

theorem initMemoryManager_directory (i : Nat) :
    (initMemoryManager kernelPageTable m).kernelPageDirectory i =
      if 772 ≤ i ∧ i < 776 then
        boundTable (kernelPageTable + BitVec.ofNat 32 (4 * (1024 * (i - 768))))
      else m.kernelPageDirectory i := by
  -- the number of turns stays a variable, so that none is evaluated
  obtain ⟨n, hlow, hhigh, hn⟩ : ∃ n, kernelLowerTables.toNat * pagesPerTable = n ∧
      kernelHigherTables.toNat * pagesPerTable = n ∧ n = 4096 := ⟨_, rfl, rfl, by decide⟩
  rw [initMemoryManager, hlow, hhigh]
  refine ((bindHeapPages_binds rfl (by omega)).1 i).trans ?_
  exact if_congr (by omega) rfl rfl

theorem initMemoryManager_table (j : Nat) :
    (initMemoryManager kernelPageTable m).kernelPageTable j =
      if 4096 ≤ j ∧ j < 8192 then boundEntry (BitVec.ofNat 32 j * pageSize)
      else m.kernelPageTable j := by
  obtain ⟨n, hlow, hhigh, hn⟩ : ∃ n, kernelLowerTables.toNat * pagesPerTable = n ∧
      kernelHigherTables.toNat * pagesPerTable = n ∧ n = 4096 := ⟨_, rfl, rfl, by decide⟩
  rw [initMemoryManager, hlow, hhigh]
  refine ((bindHeapPages_binds rfl (by omega)).2 j).trans ?_
  exact if_congr (by omega) rfl rfl

end RubiKernel.Mmu
