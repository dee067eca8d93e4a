import RubiKernel.Mmu.Frames

/-! The pages of the extended kernel space. `set_page_to_bitmap` writes `pages_bitmap`
whichever bitmap it is given, so `alloc_page_extended` does not mark what it has found
and returns the same page again. -/

namespace RubiKernel.Mmu

/-- The bitmaps that are given to `get_page_from_bitmap` and `set_page_to_bitmap`. -/
inductive BitmapName
  | pages
  | extended
  deriving DecidableEq

def MemoryManager.bitmap (m : MemoryManager) : BitmapName → Nat → Word
  | .pages => m.pagesBitmap
  | .extended => m.extendedKernelPagesBitmap

def BitmapName.words : BitmapName → Nat
  | .pages => mmBitmapIntPerTable * mmBitmapTables
  | .extended => mmBitmapIntPerTable * kernelExtendedTables.toNat

/-- The array has a bit for the page of `addr`. -/
def BitmapName.Holds (b : BitmapName) (addr : Word) : Prop := (addr >>> (12 + 5)).toNat < b.words

instance {b : BitmapName} {addr : Word} : Decidable (b.Holds addr) :=
  inferInstanceAs (Decidable (_ < _))

/-- The bitmap reads as it was set, and the other one, with the words that follow it in
memory, is left alone. -/
structure SetsPage (m : MemoryManager) (b : BitmapName) (addr : Word) (value : Byte) : Prop where
  get : ∀ addr', b.Holds addr' →
    getPageFromBitmap ((setPageToBitmap m (m.bitmap b) addr value).bitmap b) addr' =
      if frameOf addr' = frameOf addr then value else getPageFromBitmap (m.bitmap b) addr'
  others : ∀ b', b' ≠ b → (setPageToBitmap m (m.bitmap b) addr value).bitmap b' = m.bitmap b'

/-- Calls of `alloc_page_extended`, each with a page table and a physical address: the
state after them and what they return. -/
def allocPagesExtended (m : MemoryManager) : List (PageTable × Word) → MemoryManager × List Word
  | [] => (m, [])
  | (pt, physAddr) :: calls =>
    let r := allocPageExtended m pt physAddr
    let rest := allocPagesExtended r.1.1 calls
    (rest.1, r.2 :: rest.2)

structure AllocatedOnce (m : MemoryManager) (calls : List (PageTable × Word)) : Prop where
  distinct : ((allocPagesExtended m calls).2.filter (· ≠ 0)).Nodup
  inRange : ∀ i ∈ (allocPagesExtended m calls).2, i ≠ 0 →
    i % pageSize = 0 ∧ kernelExtendedStart ≤ i ∧ i < kernelExtendedEnd
  marked : ∀ i ∈ (allocPagesExtended m calls).2, i ≠ 0 →
    getPageFromBitmap (allocPagesExtended m calls).1.extendedKernelPagesBitmap
      (i - kernelExtendedStart) = 1
  untouched : (allocPagesExtended m calls).1.pagesBitmap = m.pagesBitmap

def ExtendedFull (m : MemoryManager) : Prop :=
  ∀ i ∈ extendedPages,
    getPageFromBitmap m.extendedKernelPagesBitmap (i - kernelExtendedStart) = 1

variable {m m' : MemoryManager} {pt : PageTable} {physAddr addr i : Word} {value : Byte}
  {b : BitmapName} {calls : List (PageTable × Word)}

theorem getPageFromBitmap_cases (bitmap : Nat → Word) (addr : Word) :
    getPageFromBitmap bitmap addr = 0 ∨ getPageFromBitmap bitmap addr = 1 := by
  rw [getPageFromBitmap_eq]
  cases Bitmap.get bitmap (frameOf addr)
  · exact .inl rfl
  · exact .inr rfl

theorem get_setPageToBitmap (hvalue : value = 0 ∨ value = 1) (addr' : Word) :
    getPageFromBitmap (setPageToBitmap m m.pagesBitmap addr value).pagesBitmap addr' =
      if frameOf addr' = frameOf addr then value else getPageFromBitmap m.pagesBitmap addr' := by
  rw [setPageToBitmap_eq, getPageFromBitmap_eq, getPageFromBitmap_eq, Bitmap.get_put (by decide)]
  split
  · rcases hvalue with rfl | rfl <;> rfl
  · rfl

theorem setPageToBitmap_eq_self_iff (hvalue : value = 0 ∨ value = 1) :
    (setPageToBitmap m (m.bitmap b) addr value).pagesBitmap = m.pagesBitmap ↔
      getPageFromBitmap m.pagesBitmap addr = value := by
  rw [setPageToBitmap_eq]
  constructor
  · intro heq
    have hself : getPageFromBitmap (setPageToBitmap m m.pagesBitmap addr value).pagesBitmap addr = _ :=
      get_setPageToBitmap hvalue addr
    rw [setPageToBitmap_eq, if_pos rfl] at hself
    rwa [heq] at hself
  · intro hget
    refine Bitmap.ext_get fun k => ?_
    rw [Bitmap.get_put (by decide)]
    split
    · next hk =>
      rw [getPageFromBitmap_eq] at hget
      rw [hk]
      rcases hvalue with rfl | rfl <;> cases h : Bitmap.get m.pagesBitmap (frameOf addr) <;>
        simp_all
    · rfl

theorem setPageToBitmap_extended :
    (setPageToBitmap m (m.bitmap b) addr value).extendedKernelPagesBitmap =
      m.extendedKernelPagesBitmap := by
  rw [setPageToBitmap_eq]

theorem setsPage_iff (hb : b.Holds addr) :
    SetsPage m b addr value ↔ (value = 0 ∨ value = 1) ∧
      (b = .pages ∨ getPageFromBitmap m.extendedKernelPagesBitmap addr = value ∧
        getPageFromBitmap m.pagesBitmap addr = value) := by
  constructor
  · intro h
    have hself := h.get addr hb
    rw [if_pos rfl] at hself
    have hvalue : value = 0 ∨ value = 1 := hself ▸ getPageFromBitmap_cases _ addr
    refine ⟨hvalue, ?_⟩
    cases b with
    | pages => exact .inl rfl
    | extended =>
      have hothers := h.others .pages (by decide)
      refine .inr ⟨?_, (setPageToBitmap_eq_self_iff hvalue).mp hothers⟩
      rwa [MemoryManager.bitmap, setPageToBitmap_extended] at hself
  · rintro ⟨hvalue, hb⟩
    cases b with
    | pages =>
      refine ⟨fun addr' _ => get_setPageToBitmap hvalue addr', fun b' hb' => ?_⟩
      cases b' with
      | pages => exact absurd rfl hb'
      | extended => exact setPageToBitmap_extended
    | extended =>
      obtain ⟨hextended, hpages⟩ := hb.resolve_left (by decide)
      refine ⟨fun addr' _ => ?_, fun b' hb' => ?_⟩
      · rw [MemoryManager.bitmap, setPageToBitmap_extended]
        split
        · next hframe => rw [← hextended, getPageFromBitmap_eq, getPageFromBitmap_eq, hframe]
        · rfl
      · cases b' with
        | pages => exact (setPageToBitmap_eq_self_iff hvalue).mpr hpages
        | extended => exact absurd rfl hb'

def foundPage (m : MemoryManager) : Word :=
  (extendedPages.find? fun i =>
    getPageFromBitmap m.extendedKernelPagesBitmap (i - kernelExtendedStart) = 0).getD 0

theorem foundPage_congr (h : m'.extendedKernelPagesBitmap = m.extendedKernelPagesBitmap) :
    foundPage m' = foundPage m := by
  rw [foundPage, foundPage, h]

theorem foundPage_full (h : ExtendedFull m) : foundPage m = 0 := by
  have hnone : extendedPages.find? (fun i =>
      getPageFromBitmap m.extendedKernelPagesBitmap (i - kernelExtendedStart) = 0) = none := by
    refine List.find?_eq_none.mpr fun i hi => ?_
    simp [h i hi]
  rw [foundPage, hnone, Option.getD_none]

theorem ne_zero_of_mem_extendedPages (hi : i ∈ extendedPages) : i ≠ 0 := by
  obtain ⟨k, hk, rfl⟩ := List.mem_map.mp hi
  have hlt : k < 131072 := by
    have hcount : ((kernelExtendedEnd - kernelExtendedStart) / pageSize).toNat = 131072 := by decide
    rw [hcount, List.mem_range'_1] at hk
    omega
  have hstart : kernelExtendedStart.toNat = 0xC2001000 := by decide
  intro hzero
  have hnat := congrArg BitVec.toNat hzero
  rw [BitVec.toNat_add, BitVec.toNat_mul, BitVec.toNat_ofNat, hstart,
    show pageSize.toNat = 4096 from rfl, show (0 : Word).toNat = 0 from rfl] at hnat
  omega

theorem foundPage_free (h : ¬ExtendedFull m) : foundPage m ≠ 0 ∧
    getPageFromBitmap m.extendedKernelPagesBitmap (foundPage m - kernelExtendedStart) = 0 := by
  unfold ExtendedFull at h
  push Not at h
  obtain ⟨i, hi, hclear⟩ := h
  have hsome : (extendedPages.find? fun i =>
      getPageFromBitmap m.extendedKernelPagesBitmap (i - kernelExtendedStart) = 0).isSome := by
    refine List.find?_isSome.mpr ⟨i, hi, ?_⟩
    simpa using (getPageFromBitmap_cases _ _).resolve_right hclear
  obtain ⟨j, hj⟩ := Option.isSome_iff_exists.mp hsome
  have hzero := List.find?_some hj
  rw [foundPage, hj, Option.getD_some]
  exact ⟨ne_zero_of_mem_extendedPages (List.mem_of_find?_eq_some hj), by simpa using hzero⟩

theorem allocPageExtended_spec (m : MemoryManager) (pt : PageTable) (physAddr : Word) :
    (allocPageExtended m pt physAddr).2 = foundPage m ∧
      (allocPageExtended m pt physAddr).1.1.extendedKernelPagesBitmap =
        m.extendedKernelPagesBitmap ∧
      (foundPage m = 0 → (allocPageExtended m pt physAddr).1.1 = m) := by
  rw [allocPageExtended, foundPage]
  cases hfind : extendedPages.find? fun i =>
      getPageFromBitmap m.extendedKernelPagesBitmap (i - kernelExtendedStart) = 0 with
  | none => exact ⟨rfl, rfl, fun _ => rfl⟩
  | some i =>
    refine ⟨rfl, ?_, fun hzero => ?_⟩
    · show (bindPage m pt i physAddr extendedKernelBitmapCallback).1.extendedKernelPagesBitmap = _
      unfold bindPage
      split
      · rfl
      · unfold extendedKernelBitmapCallback
        split
        · exact setPageToBitmap_extended (b := .extended)
        · rfl
    · exact absurd hzero (ne_zero_of_mem_extendedPages (List.mem_of_find?_eq_some hfind))

theorem allocPagesExtended_spec (m : MemoryManager) (calls : List (PageTable × Word)) :
    (allocPagesExtended m calls).2 = List.replicate calls.length (foundPage m) ∧
      (allocPagesExtended m calls).1.extendedKernelPagesBitmap = m.extendedKernelPagesBitmap ∧
      (foundPage m = 0 → (allocPagesExtended m calls).1 = m) := by
  induction calls generalizing m with
  | nil => exact ⟨rfl, rfl, fun _ => rfl⟩
  | cons call calls ih =>
    obtain ⟨pt, physAddr⟩ := call
    obtain ⟨hret, hextended, hsame⟩ := allocPageExtended_spec m pt physAddr
    obtain ⟨hrets, hextendeds, hsames⟩ := ih (allocPageExtended m pt physAddr).1.1
    have hfound := foundPage_congr hextended
    refine ⟨?_, hextendeds.trans hextended, fun hzero => ?_⟩
    · show (allocPageExtended m pt physAddr).2 :: _ = _
      rw [hret, hrets, hfound]
      rfl
    · exact (hsames (hfound.trans hzero)).trans (hsame hzero)

theorem allocatedOnce_iff : AllocatedOnce m calls ↔ calls = [] ∨ ExtendedFull m := by
  obtain ⟨hrets, hextended, hsame⟩ := allocPagesExtended_spec m calls
  constructor
  · intro h
    by_contra hnot
    obtain ⟨hcalls, hfree⟩ := not_or.mp hnot
    obtain ⟨hne, hclear⟩ := foundPage_free hfree
    have hmem : foundPage m ∈ (allocPagesExtended m calls).2 := by
      rw [hrets, List.mem_replicate]
      exact ⟨mt List.length_eq_zero_iff.mp hcalls, rfl⟩
    have hmarked := h.marked _ hmem hne
    rw [hextended, hclear] at hmarked
    exact absurd hmarked (by decide)
  · rintro (rfl | hfull)
    · exact ⟨List.nodup_nil, nofun, nofun, rfl⟩
    · have hzero := foundPage_full hfull
      have hall : ∀ i ∈ (allocPagesExtended m calls).2, i = 0 := fun i hi => by
        rw [hrets, hzero] at hi
        exact List.eq_of_mem_replicate hi
      refine ⟨?_, fun i hi hne => absurd (hall i hi) hne, fun i hi hne => absurd (hall i hi) hne, ?_⟩
      · rw [List.filter_eq_nil_iff.mpr fun i hi => by simpa using hall i hi]
        exact List.nodup_nil
      · rw [hsame hzero]

/-- Pages of the extended kernel space are allocated once only where none is, and a bitmap
is set as asked only when it is `pages_bitmap`, or when nothing is to be changed. -/
theorem alloc_page_extended_iff (m : MemoryManager) :
    (∀ calls, AllocatedOnce m calls ↔ calls = [] ∨ ExtendedFull m) ∧
      ∀ b addr value, b.Holds addr → (SetsPage m b addr value ↔ (value = 0 ∨ value = 1) ∧
        (b = .pages ∨ getPageFromBitmap m.extendedKernelPagesBitmap addr = value ∧
          getPageFromBitmap m.pagesBitmap addr = value)) :=
  ⟨fun _ => allocatedOnce_iff, fun _ _ _ hb => setsPage_iff hb⟩

theorem alloc_page_extended_iff_example :
    SetsPage zeroMemory .pages 0 1 ∧ ¬SetsPage zeroMemory .extended 0 1 := by
  have hiff := (alloc_page_extended_iff zeroMemory).2
  refine ⟨(hiff .pages 0 1 (by decide)).mpr (by decide), ?_⟩
  exact mt (hiff .extended 0 1 (by decide)).mp (by decide)

theorem bindHeapPage_extended (kernelPageTable : Word) (m : MemoryManager) (k : Nat) :
    (bindHeapPage kernelPageTable m k).extendedKernelPagesBitmap = m.extendedKernelPagesBitmap := by
  have hcallback : ∀ (m : MemoryManager) physAddr linearAddr set,
      (simplePageBitmapCallback m physAddr linearAddr set).extendedKernelPagesBitmap =
        m.extendedKernelPagesBitmap := by
    intro m physAddr linearAddr set
    unfold simplePageBitmapCallback
    split
    · exact setPageToBitmap_extended (b := .pages)
    · rfl
  have hbind : ∀ (m : MemoryManager) pt linearAddr physAddr,
      (bindPage m pt linearAddr physAddr simplePageBitmapCallback).1.extendedKernelPagesBitmap =
        m.extendedKernelPagesBitmap := by
    intro m pt linearAddr physAddr
    unfold bindPage
    split
    · rfl
    · exact hcallback m physAddr linearAddr 1
  unfold bindHeapPage
  refine (hbind ..).trans ?_
  split <;> rfl

theorem initMemoryManager_extended_of_free {m : MemoryManager} (kernelPageTable : Word)
    (hm : m.extendedKernelPagesBitmap = fun _ => 0) :
    (initMemoryManager kernelPageTable m).extendedKernelPagesBitmap = fun _ => 0 := by
  have hfold : ∀ (ks : List Nat) (m : MemoryManager),
      (ks.foldl (bindHeapPage kernelPageTable) m).extendedKernelPagesBitmap =
        m.extendedKernelPagesBitmap := by
    intro ks
    induction ks with
    | nil => exact fun _ => rfl
    | cons k ks ih => exact fun m => (ih _).trans (bindHeapPage_extended kernelPageTable m k)
  simp only [initMemoryManager, hfold, hm]
  funext i
  exact ite_self 0

theorem initMemoryManager_extended (kernelPageTable : Word) :
    (initMemoryManager kernelPageTable zeroMemory).extendedKernelPagesBitmap = fun _ => 0 :=
  initMemoryManager_extended_of_free kernelPageTable rfl

theorem alloc_page_extended_repeats :
    (allocPagesExtended (initMemoryManager 0 zeroMemory)
      [(default, 0xFEB00000), (default, 0xFEC00000)]).2 =
        [kernelExtendedStart, kernelExtendedStart] ∧
      ¬AllocatedOnce (initMemoryManager 0 zeroMemory)
        [(default, 0xFEB00000), (default, 0xFEC00000)] := by
  have hfound : foundPage (initMemoryManager 0 zeroMemory) = kernelExtendedStart := by
    rw [foundPage, initMemoryManager_extended]
    decide +kernel
  have hrets := (allocPagesExtended_spec (initMemoryManager 0 zeroMemory)
    [(default, 0xFEB00000), (default, 0xFEC00000)]).1
  rw [hfound] at hrets
  refine ⟨hrets, fun h => ?_⟩
  have hdistinct := h.distinct
  rw [hrets] at hdistinct
  exact absurd hdistinct (by decide)

end RubiKernel.Mmu
