import RubiKernel.Mmu.Frames

/-! What the memory manager keeps for the kernel: the linear addresses that the guards
turn down, and the pages whose bits `init_memory_manager` sets. -/

namespace RubiKernel.Mmu

variable {m : MemoryManager} {pd : PageDirectory} {entries pt : PageTable}
  {tableAddr linearAddr physAddr kernelPageTable : Word} {bmCallb : BitmapCallback} {f k n : Nat}

/-- None of the calls changes an entry of the directory or of the table, or a bit. -/
structure Untouched (m : MemoryManager) (pd : PageDirectory) (pt : Word) (entries : PageTable)
    (linearAddr physAddr : Word) (bmCallb : BitmapCallback) : Prop where
  bindTable : bindTable m pd pt linearAddr = pd
  bindPage : bindPage m entries linearAddr physAddr bmCallb = (m, entries)
  bindAddr : bindAddr m pd pt entries linearAddr physAddr bmCallb = (pd, m, entries)
  unbindPage : unbindPage m entries linearAddr bmCallb = (m, entries)
  unbindTable : unbindTable m pd linearAddr = pd

theorem Untouched.of_guarded (h : kernelLinear m linearAddr) :
    Untouched m pd tableAddr entries linearAddr physAddr bmCallb := by
  have htable : Mmu.bindTable m pd tableAddr linearAddr = pd := if_pos h
  have hpage : Mmu.bindPage m entries linearAddr physAddr bmCallb = (m, entries) :=
    if_pos (.inl h)
  refine ⟨htable, hpage, ?_, if_pos h, if_pos h⟩
  rw [Mmu.bindAddr, htable, hpage]

/-- Outside the guard one of two calls changes the entry of the directory: the one makes
it present, the other absent. -/
theorem Untouched.guarded (h : Untouched m pd tableAddr entries linearAddr physAddr bmCallb) :
    kernelLinear m linearAddr := by
  by_contra hopen
  have hbind := congrFun h.bindTable (linearAddr >>> 22).toNat
  have hunbind := congrFun h.unbindTable (linearAddr >>> 22).toNat
  rw [Mmu.bindTable, if_neg hopen, Function.update_self] at hbind
  rw [Mmu.unbindTable, if_neg hopen, Function.update_self] at hunbind
  have hpresent := congrArg PageDirectoryEntry.present (hbind.trans hunbind.symm)
  cases hpresent

/-- The range of the kernel is protected but for its first address. -/
theorem kernel_range_protected_iff (hops : m.kernelPagesOperations = false)
    (hstart : virtBase ≤ linearAddr) (hend : linearAddr < kernelPagesEnd) :
    Untouched m pd tableAddr entries linearAddr physAddr bmCallb ↔ linearAddr ≠ virtBase := by
  constructor
  · rintro h rfl
    exact absurd h.guarded.1 (BitVec.lt_irrefl virtBase)
  · intro hne
    refine .of_guarded ⟨?_, hend, hops⟩
    rw [BitVec.le_def] at hstart
    rw [gt_iff_lt, BitVec.lt_def]
    exact Nat.lt_of_le_of_ne hstart fun heq => hne (BitVec.eq_of_toNat_eq heq.symm)

theorem kernel_range_protected_iff_example :
    Untouched zeroMemory (fun _ => default) 0xC0100000 (fun _ => default) 0xC1000000 0x2000000
      simplePageBitmapCallback :=
  (kernel_range_protected_iff rfl (by decide) (by decide)).mpr (by decide)

theorem kernel_range_open_at_start : ¬∀ m pd pt entries linearAddr physAddr bmCallb,
    m.kernelPagesOperations = false → virtBase ≤ linearAddr → linearAddr < kernelPagesEnd →
    Untouched m pd pt entries linearAddr physAddr bmCallb := by
  intro hall
  have h := hall zeroMemory (fun _ => default) 0xC0100000 (fun _ => default) virtBase 0x2000000
    simplePageBitmapCallback rfl (by decide) (by decide)
  have hentry := congrArg PageDirectoryEntry.present (congrFun h.bindTable 768)
  exact absurd hentry (by decide)

/-- The bits of the pages below those for tasks are set. -/
def Reserved (m : MemoryManager) : Prop :=
  ∀ addr, addr < physTasksSpaceStart → getPageFromBitmap m.pagesBitmap addr = 1

theorem reserved_iff : Reserved m ↔ ∀ f < 8192, Bitmap.get m.pagesBitmap f = true := by
  have hstart : physTasksSpaceStart.toNat = 4096 * 8192 := by decide
  constructor
  · intro h f hf
    have haddr : (BitVec.ofNat 32 (4096 * f)).toNat = 4096 * f := Word.toNat_ofNat (by omega)
    have hframe : frameOf (BitVec.ofNat 32 (4096 * f)) = f := by
      rw [frameOf, haddr]
      omega
    have hbit := h (BitVec.ofNat 32 (4096 * f)) (by rw [BitVec.lt_def, haddr]; omega)
    rw [getPageFromBitmap_eq, hframe] at hbit
    by_contra hclear
    rw [if_neg hclear] at hbit
    exact absurd hbit (by decide)
  · intro h addr haddr
    rw [BitVec.lt_def] at haddr
    rw [getPageFromBitmap_eq, h (frameOf addr) (by unfold frameOf; omega)]
    rfl

theorem bindPage_heap (hops : m.kernelPagesOperations = true) (hk : k < 8192) :
    (bindPage m entries linearAddr (BitVec.ofNat 32 k * pageSize) simplePageBitmapCallback).1 =
      { m with pagesBitmap := Bitmap.put m.pagesBitmap k true } := by
  have hframe : frameOf (BitVec.ofNat 32 k * pageSize) = k := by
    rw [frameOf, BitVec.toNat_mul, BitVec.toNat_ofNat, show pageSize.toNat = 4096 from rfl]
    omega
  have hopen : ¬bindRefused m linearAddr (BitVec.ofNat 32 k * pageSize) := by
    simp [bindRefused, kernelLinear, hops]
  rw [bindPage, if_neg hopen, simplePageBitmapCallback_eq 1 (.inr rfl), hframe, if_pos (by omega)]
  rfl

theorem bindHeapPage_bits (kernelPageTable : Word) (hops : m.kernelPagesOperations = true)
    (hk : k < 8192) :
    (bindHeapPage kernelPageTable m k).kernelPagesOperations = true ∧
      (bindHeapPage kernelPageTable m k).pagesBitmap = Bitmap.put m.pagesBitmap k true := by
  have hphys : phys (virtBase + BitVec.ofNat 32 k * pageSize) = BitVec.ofNat 32 k * pageSize :=
    add_sub_cancel_left virtBase _
  have hsame (m' : MemoryManager) (hops' : m'.kernelPagesOperations = true)
      (hbits : m'.pagesBitmap = m.pagesBitmap) (entries : PageTable) (linearAddr : Word) :
      (bindPage m' entries linearAddr (BitVec.ofNat 32 k * pageSize)
          simplePageBitmapCallback).1.kernelPagesOperations = true ∧
        (bindPage m' entries linearAddr (BitVec.ofNat 32 k * pageSize)
          simplePageBitmapCallback).1.pagesBitmap = Bitmap.put m.pagesBitmap k true := by
    rw [bindPage_heap hops' hk, hbits]
    exact ⟨hops', rfl⟩
  simp only [bindHeapPage, hphys]
  split
  · apply hsame
    · exact hops
    · rfl
  · apply hsame
    · exact hops
    · rfl

theorem bindHeapPages_bits (hops : m.kernelPagesOperations = true) (hn : k + n ≤ 8192) :
    Bitmap.get ((List.range' k n).foldl (bindHeapPage kernelPageTable) m).pagesBitmap f = true ↔
      Bitmap.get m.pagesBitmap f = true ∨ k ≤ f ∧ f < k + n := by
  induction n generalizing m k with
  | zero => simp
  | succ n ih =>
    obtain ⟨hops', hbits⟩ := bindHeapPage_bits kernelPageTable hops (show k < 8192 by omega)
    rw [List.range'_succ, List.foldl_cons, ih hops' (by omega), hbits,
      Bitmap.get_put (by decide)]
    by_cases hf : f = k
    · simp [hf]
    · simp only [hf, if_false]
      refine or_congr_right ?_
      omega

theorem initMemoryManager_bits :
    Bitmap.get (initMemoryManager kernelPageTable m).pagesBitmap f = true ↔
      f < 8192 ∨ 4 * (f / 32) ≥ 512 ∧ Bitmap.get m.pagesBitmap f = true := by
  -- the number of turns stays a variable, so that none is evaluated
  obtain ⟨n, hlow, hhigh, hn⟩ : ∃ n, kernelLowerTables.toNat * pagesPerTable = n ∧
      kernelHigherTables.toNat * pagesPerTable = n ∧ n = 4096 := ⟨_, rfl, rfl, by decide⟩
  have hword : mmBitmapIntPerTable * mmBitmapTables = 512 := by decide
  have hint : 4 * mmBitmapIntPerTable = 128 := by decide
  rw [initMemoryManager, hlow, hhigh]
  rw [bindHeapPages_bits rfl (by omega)]
  simp only [Bitmap.get, hword, hint]
  by_cases hf : f / 32 < 128
  · have hbit : (BitVec.allOnes 32).getLsbD (f % 32) = true := by
      rw [BitVec.getLsbD_allOnes, decide_eq_true_eq]
      exact Nat.mod_lt f (by decide)
    simp only [hf, if_true, hbit, true_or, true_iff]
    omega
  · have hmid : ¬4 * (f / 32) < 512 := by omega
    simp only [hf, hmid, if_false]
    constructor
    · rintro (hget | hheap)
      · exact .inr ⟨by omega, hget⟩
      · exact .inl (by omega)
    · rintro (hkernel | ⟨-, hget⟩)
      · exact .inr (by omega)
      · exact .inl hget

theorem reserved_init : Reserved (initMemoryManager kernelPageTable m) :=
  reserved_iff.mpr fun _ hf => initMemoryManager_bits.mpr (.inl hf)

theorem allocPage_get (h : Bitmap.get m.pagesBitmap f = true) :
    Bitmap.get (allocPage m pt linearAddr).1.1.pagesBitmap f = true := by
  rcases allocPage_cases m pt linearAddr with ⟨-, heq⟩ | ⟨i, -, -, -, ⟨-, heq⟩ | ⟨-, heq⟩⟩
  · rwa [heq]
  · rwa [heq]
  · rw [heq, Bitmap.get_put (by decide)]
    split
    · rfl
    · exact h

end RubiKernel.Mmu
