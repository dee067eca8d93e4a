import RubiKernel.Heap.Pointers

/-! Runs in which every block is freed again, in any order: what is left of the
list is one free block. -/

namespace RubiKernel.Heap

open Lts Tiling

/-- Where the list of blocks ends, in the integers. -/
def listEnd (h : Kheap) : Nat := kheapStartAddr.toNat + extent KheapEntry.size (entries h)

/-- The pointers that a run returned and did not free since; one stands in the
list as often as it was returned. A call that finds the heap used up returns
none: it leaves the list as it was. -/
def owed : List Word → Kheap → List (HeapCall × Kheap) → List Word
  | ps, _, [] => ps
  | ps, h, (.malloc _ ret, h') :: tr =>
    owed (if entries h' = entries h then ps else ret :: ps) h' tr
  | ps, _, (.free ptr, h') :: tr => owed (ps.erase ptr) h' tr

variable {h h' : Kheap} {es es' : List KheapEntry} {size ptr ret : Word} {ps : List Word}
  {call : HeapCall} {tr : List (HeapCall × Kheap)}

theorem BlockMalloc.extent_le (h : BlockMalloc size es es' ret) :
    extent KheapEntry.size es ≤ extent KheapEntry.size es' := by
  cases h with
  | extend free small unfit room =>
    have hlt := BitVec.lt_def.mp small
    simp only [extent_append, extent_cons, extent_nil]
    omega
  | split free fit =>
    have hsub := BitVec.toNat_sub_of_le fit
    have hle := BitVec.le_def.mp fit
    simp only [extent_append, extent_cons]
    omega
  | append unfit stuck room => simp only [extent_append, Nat.le_add_right]
  | full unfit stuck full => exact le_rfl

theorem BlockMalloc.ne_nil (h : BlockMalloc size es es' ret) : es' ≠ [] := by
  cases h with
  | extend free small unfit room => simp
  | split free fit => simp
  | append unfit stuck room => simp
  | full unfit stuck full =>
    rintro rfl
    exact absurd full (by decide)

theorem mergeNext_ne_nil (c : KheapEntry) (es : List KheapEntry) : mergeNext c es ≠ [] := by
  cases es with
  | nil => simp [mergeNext]
  | cons n es => cases hn : n.isBusy <;> simp [mergeNext, hn]

theorem BlockFree.ne_nil (h : BlockFree ptr es es') (hes : es ≠ []) : es' ≠ [] := by
  cases h with
  | miss dead => exact hes
  | release busy hit prev => simp [mergeNext_ne_nil]
  | merge busy hit prev => simp [mergeNext_ne_nil]

theorem Coalesced.eq_singleton (h : Coalesced es) (hfree : busy es = []) (hes : es ≠ []) :
    ∃ e, es = [e] ∧ e.isBusy = false := by
  have hall : ∀ e ∈ es, e.isBusy = false := fun e he => by
    by_contra hb
    have hmem := mem_busy.mpr ⟨e, he, by simpa using hb, rfl, rfl⟩
    simp [hfree] at hmem
  match es, hes with
  | [e], _ => exact ⟨e, rfl, hall e (by simp)⟩
  | e :: f :: es, _ =>
    have hpair := (List.isChain_cons_cons.mp h).1
    simp [hall e, hall f] at hpair

structure ReleaseInv (h : Kheap) (ps : List Word) : Prop extends HeapInv h where
  owed : (pointers h).Perm ps

theorem ReleaseInv.start : ReleaseInv kheapList [] where
  toHeapInv := .start
  owed := by rw [pointers_kheapList]

theorem ReleaseInv.malloc (hinv : ReleaseInv h ps) (hcall : kmalloc h size = .ok (h', ret)) :
    ReleaseInv h' (if entries h' = entries h then ps else ret :: ps) := by
  refine ⟨(hinv.toHeapInv.malloc hcall).2, ?_⟩
  rcases hinv.malloc_pointers hcall with ⟨heq, -⟩ | hperm
  · rw [if_pos heq, pointers, heq]
    exact hinv.owed
  · have hne : entries h' ≠ entries h := fun heq => by
      have hlen := hperm.length_eq
      simp [pointers, heq] at hlen
    rw [if_neg hne]
    exact hperm.trans (hinv.owed.cons ret)

theorem ReleaseInv.free (hinv : ReleaseInv h ps) (hcall : kfree h ptr = .ok h') :
    ReleaseInv h' (ps.erase ptr) :=
  ⟨(hinv.toHeapInv.free hcall).2, (hinv.free_pointers hcall).trans (hinv.owed.erase ptr)⟩

theorem ReleaseInv.run (hinv : ReleaseInv h ps) (htr : heap.Trace h tr) :
    ReleaseInv (final h tr) (Heap.owed ps h tr) := by
  induction tr generalizing h ps with
  | nil => exact hinv
  | cons x tr ih =>
    obtain ⟨call, h'⟩ := x
    cases call with
    | malloc size ret => exact ih (hinv.malloc htr.1) htr.2
    | free ptr => exact ih (hinv.free htr.1) htr.2

theorem HeapInv.listEnd_le (hinv : HeapInv h) (hstep : heap.step h call h')
    (hend : listEnd h ≤ 2 ^ 32) : listEnd h ≤ listEnd h' := by
  have hstart : 0 < kheapStartAddr.toNat := by decide
  unfold listEnd at *
  cases call with
  | malloc size ret =>
    have hle := (hinv.malloc hstep).1.extent_le
    omega
  | free ptr => rw [(hinv.free hstep).1.extent_eq (by omega)]

theorem HeapInv.listEnd_le_final (hinv : HeapInv h) (hend : listEnd h ≤ 2 ^ 32)
    (htr : heap.Trace h tr) (hall : Every (fun _ _ h' => listEnd h' ≤ 2 ^ 32) h tr) :
    listEnd h ≤ listEnd (final h tr) ∧ ∀ x ∈ tr, listEnd x.2 ≤ listEnd (final h tr) := by
  induction tr generalizing h with
  | nil => exact ⟨le_rfl, by simp⟩
  | cons x tr ih =>
    have hle := hinv.listEnd_le htr.1 hend
    obtain ⟨hfirst, hrest⟩ := ih (hinv.step htr.1) hall.1 htr.2 hall.2
    refine ⟨hle.trans hfirst, ?_⟩
    rintro y (_ | hy)
    · exact hfirst
    · exact hrest y ‹_›

theorem HeapInv.final_ne_nil (hinv : HeapInv h) (htr : heap.Trace h tr)
    (hne : entries h ≠ [] ∨ ∃ size ret, .malloc size ret ∈ tr.map Prod.fst) :
    entries (final h tr) ≠ [] := by
  induction tr generalizing h with
  | nil => simpa [final] using hne
  | cons x tr ih =>
    obtain ⟨call, h'⟩ := x
    refine ih (hinv.step htr.1) htr.2 ?_
    cases call with
    | malloc size ret => exact .inl (hinv.malloc htr.1).1.ne_nil
    | free ptr => exact hne.imp (hinv.free htr.1).1.ne_nil (by simp)

/-- A run with a `kmalloc` in it, whose blocks end at `2 ^ 32` at the latest and
which frees every pointer as often as it was returned, leaves one free block in
one slot: from the start of the heap to where the list ended at its longest. -/
theorem kheap_list_restored (h : heap.Trace kheapList tr)
    (hmalloc : ∃ size ret, .malloc size ret ∈ tr.map Prod.fst)
    (hend : Every (fun _ _ h' => listEnd h' ≤ 2 ^ 32) kheapList tr)
    (hfreed : owed [] kheapList tr = []) :
    ∃ size, entries (final kheapList tr) = [⟨kheapStartAddr, size, false⟩] ∧
      IsGreatest {n | ∃ x ∈ tr, listEnd x.2 = n} (kheapStartAddr.toNat + size.toNat) ∧
      ∃ i, ∀ j < kheapSlots, ((final kheapList tr).links j).isValid = true ↔ j = i := by
  have hinv := ReleaseInv.start.run h
  rw [hfreed] at hinv
  have hbusy : busy (entries (final kheapList tr)) = [] :=
    List.map_eq_nil_iff.mp (List.perm_nil.mp hinv.owed)
  have hne := HeapInv.start.final_ne_nil h (.inr hmalloc)
  obtain ⟨⟨addr, size, b⟩, hone, rfl⟩ := hinv.wellFormed.coalesced.eq_singleton hbusy hne
  obtain rfl : addr = kheapStartAddr :=
    hinv.wellFormed.adjacent.head? ⟨addr, size, false⟩ (by simp [hone])
  have hlast : listEnd (final kheapList tr) = kheapStartAddr.toNat + size.toNat := by
    simp [listEnd, hone]
  refine ⟨size, hone, ⟨?_, ?_⟩, ?_⟩
  · -- The last state of the run is the one that reaches furthest.
    have htr : tr ≠ [] := by
      rintro rfl
      simp at hmalloc
    obtain ⟨x, hx, heq⟩ := final_mem htr
    exact ⟨x, hx, by rw [heq, hlast]⟩
  · rintro n ⟨x, hx, rfl⟩
    have hstart : listEnd kheapList ≤ 2 ^ 32 := by
      simp only [listEnd, entries, kheapList_repr.toList_eq]
      decide
    rw [← hlast]
    exact (HeapInv.start.listEnd_le_final hstart h hend).2 x hx
  · obtain ⟨i, hi⟩ := List.length_eq_one_iff.mp
      (show (final kheapList tr).toList.length = 1 by simpa [entries] using congrArg List.length hone)
    exact ⟨i, fun j hj => by simpa [hi] using hinv.repr.valid j (hinv.slots.symm ▸ hj)⟩

/-- An exact fit with its fragment, a block that is extended in place, a block
of no bytes, and frees in another order than the blocks. -/
theorem kheap_list_restored_example : ∃ tr,
    replay callHeap kheapList
      [.malloc 16 0xC1000000, .malloc 8 0xC1000010, .free 0xC1000000, .malloc 16 0xC1000000,
        .free 0xC1000010, .malloc 32 0xC1000010, .malloc 0 0xC1000030, .free 0xC1000010,
        .free 0xC1000030, .free 0xC1000000] = some tr ∧
    ∃ size, entries (final kheapList tr) = [⟨kheapStartAddr, size, false⟩] := by
  have hrun : (replay callHeap kheapList
      [.malloc 16 0xC1000000, .malloc 8 0xC1000010, .free 0xC1000000, .malloc 16 0xC1000000,
        .free 0xC1000010, .malloc 32 0xC1000010, .malloc 0 0xC1000030, .free 0xC1000010,
        .free 0xC1000030, .free 0xC1000000]).any (fun tr =>
      Every (fun _ _ h' => listEnd h' ≤ 2 ^ 32) kheapList tr ∧ owed [] kheapList tr = []) = true := by
    decide +kernel
  obtain ⟨tr, htr, htrace, hend, hfreed⟩ :=
    System.Trace.exists_of_replay (M := heap) (fun _ _ _ => step_of_callHeap) hrun
  have hmalloc : ∃ size ret, .malloc size ret ∈ tr.map Prod.fst :=
    ⟨16, 0xC1000000, by rw [labels_of_replay htr]; simp⟩
  obtain ⟨size, hone, -⟩ := kheap_list_restored htrace hmalloc hend hfreed
  exact ⟨tr, htr, size, hone⟩

end RubiKernel.Heap
