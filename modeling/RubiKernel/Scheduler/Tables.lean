import RubiKernel.Heap.Aligned
import RubiKernel.Scheduler.Lifetime

/-! The page table of a task: it is taken from the heap by `create_page_table`, and
`free_page_table` keeps it when it takes it for one of the kernel's. -/

namespace RubiKernel.Scheduler

open Heap Lts Memory

def memset (mem : Memory) (dst : Word) (value : Byte) (bytes : Word) : Memory := fun a =>
  if a - dst < bytes then value else mem a

/-- `count` entries of four bytes; nothing tells a failed `kmalloc_a`. -/
def createPageTable (mem : Memory) (h : Kheap) (count : Word) :
    Except KheapFault (Memory × Kheap × Word) := do
  if BitVec.ofNat 32 pagesPerTable < count then return (mem, h, 0)
  else
    let (mem, h, table) ← kmallocA mem h (4 * count) 4096
    return (memset mem table 0 (4 * count), h, table)

/-- The pointers that `free_page_table` takes for the kernel's. -/
def Guarded (kernelPageTable pt : Word) : Prop :=
  kernelPageTable.toNat ≤ pt.toNat ∧ pt.toNat ≤ kernelPageTable.toNat +
    4 * ((kernelLowerTables + kernelHigherTables) * tableSize).toNat

/-- The kernel's own tables lie in its image, between its start and the heap. -/
def InImage (kernelPageTable : Word) : Prop :=
  virtBase.toNat ≤ kernelPageTable.toNat ∧
    kernelPageTable.toNat + 4 * (8 * 1024) ≤ kheapStartAddr.toNat

/-- The bytes of the block at `p` that are not bytes of the table are unchanged. -/
def KeepsRest (p n table count : Word) (mem mem' : Memory) : Prop :=
  ∀ i < n.toNat, (∀ j < (4 * count).toNat, p + BitVec.ofNat 32 i ≠ table + BitVec.ofNat 32 j) →
    mem' (p + BitVec.ofNat 32 i) = mem (p + BitVec.ofNat 32 i)

variable {k : Kernel} {h h' : Kheap} {mem mem' : Memory} {count pt table p n : Word}

theorem memset_writtenIn (mem : Memory) (dst : Word) (value : Byte) (bytes : Word) :
    WrittenIn dst bytes mem (memset mem dst value bytes) := by
  intro a hout
  refine if_neg fun hlt => hout (a - dst).toNat (BitVec.lt_def.mp hlt) ?_
  rw [BitVec.ofNat_toNat, BitVec.setWidth_eq]
  exact (add_sub_cancel dst a).symm

theorem createPageTable_eq (hcount : count.toNat ≤ pagesPerTable) (hp : p ≠ 0)
    (hcall : kmalloc h (4 * count + 4096 + 4) = .ok (h', p)) :
    createPageTable mem h count =
      .ok (memset (mem.write32 (alignedPtr p 4096 - 4) p) (alignedPtr p 4096) 0 (4 * count), h',
        alignedPtr p 4096) := by
  have hle : ¬BitVec.ofNat 32 pagesPerTable < count := BitVec.not_lt.mpr hcount
  rw [createPageTable, if_neg hle, kmallocA_eq hcall hp]
  rfl

theorem createPageTable_ok (hcreate : createPageTable mem h count = .ok (mem', h', table))
    (htable : table ≠ 0) : count.toNat ≤ pagesPerTable ∧ ∃ p, p ≠ 0 ∧
      kmalloc h (4 * count + 4096 + 4) = .ok (h', p) ∧ table = alignedPtr p 4096 ∧
      mem' = memset (mem.write32 (table - 4) p) table 0 (4 * count) := by
  unfold createPageTable at hcreate
  split at hcreate
  · cases hcreate
    exact absurd rfl htable
  · next hle =>
    have hcount : count.toNat ≤ pagesPerTable := BitVec.le_def.mp (BitVec.not_lt.mp hle)
    cases halloc : kmallocA mem h (4 * count) 4096 with
    | error f =>
      rw [halloc] at hcreate
      cases hcreate
    | ok r =>
      rw [halloc] at hcreate
      cases hcreate
      obtain ⟨p, hp, hcall, hptr, hmem⟩ := kmallocA_ok halloc htable
      exact ⟨hcount, p, hp, hcall, hptr, by rw [hmem]⟩

theorem tableBytes (hcount : count.toNat ≤ pagesPerTable) : (4 * count).toNat = 4 * count.toNat := by
  have hpages : pagesPerTable = 1024 := rfl
  bv_omega

/-- The word before the table is still there when the table is freed. -/
theorem KeepsRest.read32 {mem₀ : Memory} (hcount : count.toNat ≤ pagesPerTable)
    (htable : table = alignedPtr p 4096)
    (hmem : mem' = memset (mem₀.write32 (table - 4) p) table 0 (4 * count))
    (hkeep : KeepsRest p (4 * count + 4096 + 4) table count mem' mem) :
    mem.read32 (table - 4) = p := by
  have hpages : pagesPerTable = 1024 := rfl
  have hbytes := tableBytes hcount
  have halign : (4096 : Word).toNat = 4096 := rfl
  have hbound : (4 * count).toNat + (4096 : Word).toNat + 4 < 2 ^ 32 := by omega
  have hsize := toNat_request hbound
  obtain ⟨d, hlow, hhigh, heq⟩ := alignedPtr_eq p (show 1 ≤ (4096 : Word).toNat by decide)
  have hsame : mem.read32 (table - 4) = mem'.read32 (table - 4) := by
    refine read32_congr _ fun i hi => ?_
    have hbyte : table - 4 + BitVec.ofNat 32 i = p + BitVec.ofNat 32 (d - 4 + i) := by
      rw [htable, heq, hidden_offset hlow]
    rw [hbyte]
    refine hkeep (d - 4 + i) (by omega) fun j hj => ?_
    rw [← hbyte, htable]
    exact hidden_apart p (by decide) hbound hi hj
  have hwritten := memset_writtenIn (mem₀.write32 (table - 4) p) table 0 (4 * count)
  rw [← hmem] at hwritten
  rw [hsame, htable]
  exact hidden_survives (by decide) hbound (htable ▸ hwritten)

theorem freePageTable_of_guarded (h : Kheap) (hguard : Guarded k.kernelPageTable pt) :
    freePageTable k h pt = some h := if_pos hguard

theorem freePageTable_of_not_guarded (h : Kheap) (hguard : ¬Guarded k.kernelPageTable pt) :
    freePageTable k h pt = release h (k.mem.read32 (pt - 4)) := if_neg hguard

theorem guarded_boot (hlow : k.kernelPageTable.toNat ≤ pt.toNat)
    (hhigh : pt.toNat < k.kernelPageTable.toNat + 4 * (8 * 1024)) : Guarded k.kernelPageTable pt := by
  have hguard : 4 * (8 * 1024) ≤ 4 * ((kernelLowerTables + kernelHigherTables) * tableSize).toNat := by
    decide
  exact ⟨hlow, by omega⟩

/-- The range of the guard is counted in entries, and so it has the heap in it. -/
theorem InImage.guarded_heap (himage : InImage k.kernelPageTable)
    (hlow : kheapStartAddr.toNat ≤ pt.toNat) (hhigh : pt.toNat < kheapLimit.toNat) :
    Guarded k.kernelPageTable pt := by
  obtain ⟨hbase, hend⟩ := himage
  have hguard : kheapLimit.toNat ≤ virtBase.toNat +
      4 * ((kernelLowerTables + kernelHigherTables) * tableSize).toNat := by decide
  exact ⟨by omega, by omega⟩

/-- A table from the heap is given back, while its block is live and the rest of the block is
left alone, exactly when it lies outside the range of the guard, where no table inside the
heap does, and no live block stands before it that starts at the same address. The kernel's
own tables stay. -/
theorem free_page_table_iff (hr : heap.Reachable h) (himage : InImage k.kernelPageTable)
    (hcreate : createPageTable mem h count = .ok (mem', h', table)) (htable : table ≠ 0) :
    (∃ p pre slot post, held h = pre ++ post ∧
      held h' = pre ++ (slot, ⟨p, 4 * count + 4096 + 4, true⟩) :: post ∧
      ∀ mem₂ h₂ before after, heap.Reachable h₂ →
        KeepsRest p (4 * count + 4096 + 4) table count mem' mem₂ →
        held h₂ = before ++ (slot, ⟨p, 4 * count + 4096 + 4, true⟩) :: after →
          ∃ h₃, freePageTable { k with mem := mem₂ } h₂ table = some h₃ ∧
            (held h₃ = before ++ after ↔
              ¬Guarded k.kernelPageTable table ∧ ∀ x ∈ before, x.2.addr ≠ p)) ∧
    (kheapStartAddr.toNat ≤ table.toNat → table.toNat < kheapLimit.toNat →
      Guarded k.kernelPageTable table) ∧
    ∀ h₂ pt, k.kernelPageTable.toNat ≤ pt.toNat →
      pt.toNat < k.kernelPageTable.toNat + 4 * (8 * 1024) → freePageTable k h₂ pt = some h₂ := by
  obtain ⟨hcount, p, hp, hcall, hptr, hmem⟩ := createPageTable_ok hcreate htable
  obtain ⟨pre, slot, post, hbefore, hafter, -⟩ := (heapInv_of_reachable hr).malloc_held hcall hp
  refine ⟨⟨p, pre, slot, post, hbefore, hafter, ?_⟩, himage.guarded_heap, fun h₂ pt hlow hhigh =>
    freePageTable_of_guarded h₂ (guarded_boot hlow hhigh)⟩
  intro mem₂ h₂ before after hr₂ hkeep hheld
  by_cases hguard : Guarded k.kernelPageTable table
  · refine ⟨h₂, freePageTable_of_guarded h₂ hguard, iff_of_false (fun heq => ?_) fun h => h.1 hguard⟩
    have hlen := congrArg List.length (hheld.symm.trans heq)
    simp at hlen
  · obtain ⟨h₃, hfree, hiff⟩ := (heapInv_of_reachable hr₂).free_block hheld
    refine ⟨h₃, ?_, hiff.trans (and_iff_right hguard).symm⟩
    refine (freePageTable_of_not_guarded (k := { k with mem := mem₂ }) h₂ hguard).trans ?_
    rw [hkeep.read32 hcount hptr hmem]
    exact release_eq_some.mpr hfree

/-- In a heap whose first block was 512 MB long and is used again in part. -/
theorem free_page_table_iff_example : ∃ h mem' h' table h₃, heap.Reachable h ∧
    createPageTable (fun _ => 0) h 4 = .ok (mem', h', table) ∧
      freePageTable { emptyKernel with mem := mem' } h' table = some h₃ ∧ held h₃ = held h := by
  have hrun : (replay callHeap kheapList
      [.malloc 0x20000000 0xC1000000, .free 0xC1000000, .malloc 0x10000000 0xC1000000]).any (fun tr =>
        (callHeap (final kheapList tr) (.malloc (4 * 4 + 4096 + 4) 0xD1000000)).any fun h' =>
          (∀ x ∈ held (final kheapList tr), x.2.addr ≠ 0xD1000000) ∧
            ∀ x ∈ held h', x.2.size = 4 * 4 + 4096 + 4 → x.2.addr = 0xD1000000) = true := by
    decide +kernel
  obtain ⟨tr, htr, hrun⟩ := (Option.any_eq_true ..).mp hrun
  obtain ⟨h', hlast, hrun⟩ := (Option.any_eq_true ..).mp hrun
  obtain ⟨hfirst, hsize⟩ := of_decide_eq_true hrun
  have htrace : heap.Trace kheapList tr := .of_replay (fun _ _ _ => step_of_callHeap) htr
  have hr := htrace.final_reachable (.start rfl)
  have hstep := step_of_callHeap hlast
  have hcreate : createPageTable (fun _ => 0) (final kheapList tr) 4 = .ok _ :=
    createPageTable_eq (by decide) (by decide) hstep
  obtain ⟨⟨p, pre, slot, post, hbefore, hafter, hfree⟩, -⟩ :=
    free_page_table_iff (k := emptyKernel) hr ⟨by decide, by decide⟩ hcreate (by decide)
  obtain rfl : p = 0xD1000000 := hsize (slot, ⟨p, _, true⟩) (by rw [hafter]; simp) rfl
  obtain ⟨h₃, hfreed, hiff⟩ := hfree _ h' pre post (.step hr hstep) (fun _ _ _ => rfl) hafter
  refine ⟨_, _, h', _, h₃, hr, hcreate, hfreed, ?_⟩
  rw [hbefore]
  have hguard : ¬Guarded emptyKernel.kernelPageTable (alignedPtr 0xD1000000 4096) := fun hguard =>
    absurd hguard.2 (by decide)
  exact hiff.mpr ⟨hguard, fun x hx => hfirst x (by rw [hbefore]; exact List.mem_append_left _ hx)⟩

/-- The first table of a program stays when the program is gone. -/
theorem page_table_stays : ∃ mem' h', InImage emptyKernel.kernelPageTable ∧
    createPageTable (fun _ => 0) kheapList 1024 = .ok (mem', h', 0xC1001000) ∧
      freePageTable { emptyKernel with mem := mem' } h' 0xC1001000 = some h' ∧
        held kheapList = [] ∧ held h' = [(0, ⟨0xC1000000, 4 * 1024 + 4096 + 4, true⟩)] := by
  have hrun : (callHeap kheapList (.malloc (4 * 1024 + 4096 + 4) 0xC1000000)).any (fun h' =>
      held kheapList = [] ∧ held h' = [(0, ⟨0xC1000000, 4 * 1024 + 4096 + 4, true⟩)]) = true := by
    decide +kernel
  obtain ⟨h', hcall, hrun⟩ := (Option.any_eq_true ..).mp hrun
  have hguard : Guarded emptyKernel.kernelPageTable 0xC1001000 := ⟨by decide, by decide⟩
  have hptr : alignedPtr 0xC1000000 4096 = 0xC1001000 := by decide
  have hcreate : createPageTable (fun _ => 0) kheapList 1024 = .ok _ :=
    createPageTable_eq (by decide) (by decide) (step_of_callHeap hcall)
  rw [hptr] at hcreate
  exact ⟨_, h', ⟨by decide, by decide⟩, hcreate,
    freePageTable_of_guarded (k := { emptyKernel with mem := _ }) h' hguard, of_decide_eq_true hrun⟩

end RubiKernel.Scheduler
