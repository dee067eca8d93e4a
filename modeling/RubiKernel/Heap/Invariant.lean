import RubiKernel.Heap.Refinement
import RubiKernel.Lib.Lts

/-! Runs of `kmalloc` and `kfree` from the empty heap, and what holds of the list
of blocks in every state they reach. -/

namespace RubiKernel.Heap

open Linked Lts Tiling

inductive HeapCall
  | malloc (size ret : Word)
  | free (ptr : Word)
  deriving DecidableEq

/-- The calls that return; the only ones that do not find the table full. -/
def heap : System Kheap HeapCall where
  start h := h = kheapList
  step h call h' :=
    match call with
    | .malloc size ret => kmalloc h size = .ok (h', ret)
    | .free ptr => kfree h ptr = .ok h'

/-- The state after a call that returns as it says. -/
def callHeap (h : Kheap) : HeapCall → Option Kheap
  | .malloc size ret =>
    match kmalloc h size with
    | .ok (h', p) => if p = ret then some h' else none
    | .error _ => none
  | .free ptr => (kfree h ptr).toOption

theorem step_of_callHeap {h h' : Kheap} {call : HeapCall} (heq : callHeap h call = some h') :
    heap.step h call h' := by
  cases call with
  | malloc size ret =>
    simp only [callHeap] at heq
    split at heq
    · next h₁ p hcall =>
      obtain ⟨rfl, rfl⟩ : p = ret ∧ h₁ = h' := by simpa using heq
      exact hcall
    · cases heq
  | free ptr =>
    simp only [callHeap, Except.toOption] at heq
    split at heq
    · next hcall =>
      obtain rfl := Option.some.inj heq
      exact hcall
    · cases heq

def entries (h : Kheap) : List KheapEntry := blocks h h.toList

structure HeapInv (h : Kheap) : Prop where
  slots : h.slots = kheapSlots
  repr : h.Repr h.toList
  wellFormed : WellFormed (entries h)

variable {h h' : Kheap} {es' : List KheapEntry} {size ptr ret : Word}

theorem kheapList_repr : kheapList.Repr [] where
  nodup := List.nodup_nil
  linked := trivial
  head := rfl
  tail := rfl
  bound := by simp
  valid := by simp [kheapList, default]
  data := by simp

theorem HeapInv.start : HeapInv kheapList where
  slots := rfl
  repr := kheapList_repr
  wellFormed := .nil

theorem Leaves.entries_eq (h₁ : Leaves h h' es') : entries h' = es' := by
  obtain ⟨-, l', hr, rfl⟩ := h₁
  rw [entries, hr.toList_eq]

theorem HeapInv.leaves (hinv : HeapInv h) (hl : Leaves h h' es') (hes : WellFormed es') :
    HeapInv h' where
  slots := hl.1.trans hinv.slots
  repr := by
    obtain ⟨-, l', hr, -⟩ := hl
    rwa [hr.toList_eq]
  wellFormed := hl.entries_eq ▸ hes

theorem HeapInv.malloc (hinv : HeapInv h) (hcall : kmalloc h size = .ok (h', ret)) :
    BlockMalloc size (entries h) (entries h') ret ∧ HeapInv h' := by
  rcases kmalloc_spec hinv.repr hinv.wellFormed size with ⟨h₁, ret₁, es', heq, hblock, hl⟩ | hfull
  · obtain ⟨rfl, rfl⟩ := Prod.mk.inj (Except.ok.inj (hcall.symm.trans heq))
    exact ⟨hl.entries_eq ▸ hblock, hinv.leaves hl (hblock.wellFormed hinv.wellFormed)⟩
  · cases hcall.symm.trans hfull.1

theorem HeapInv.free (hinv : HeapInv h) (hcall : kfree h ptr = .ok h') :
    BlockFree ptr (entries h) (entries h') ∧ HeapInv h' := by
  obtain ⟨h₁, es', heq, hblock, hslots, l', hr, hblocks, -⟩ := kfree_spec hinv.repr ptr
  have hl : Leaves h h₁ es' := ⟨hslots, l', hr, hblocks⟩
  obtain rfl := Except.ok.inj (hcall.symm.trans heq)
  exact ⟨hl.entries_eq ▸ hblock, hinv.leaves hl (hblock.wellFormed hinv.wellFormed)⟩

theorem HeapInv.step {call : HeapCall} (hinv : HeapInv h) (hstep : heap.step h call h') :
    HeapInv h' := by
  cases call with
  | malloc size ret => exact (hinv.malloc hstep).2
  | free ptr => exact (hinv.free hstep).2

theorem heapInv_of_reachable (hr : heap.Reachable h) : HeapInv h :=
  hr.invariant (fun _ hs => hs ▸ .start) fun _ _ _ hinv hstep => hinv.step hstep

theorem HeapInv.full_of_error {f : KheapFault} (hinv : HeapInv h)
    (hcall : kmalloc h size = .error f) : f = .nullDeref ∧ h.toList.length = kheapSlots := by
  rcases kmalloc_spec hinv.repr hinv.wellFormed size with ⟨_, _, _, heq, -⟩ | ⟨heq, hfull⟩
  · cases hcall.symm.trans heq
  · cases hcall.symm.trans heq
    exact ⟨rfl, (hinv.repr.length_eq hfull).trans hinv.slots⟩

theorem HeapInv.free_total (hinv : HeapInv h) (ptr : Word) : ∃ h', kfree h ptr = .ok h' := by
  obtain ⟨h', _, heq, -⟩ := kfree_spec hinv.repr ptr
  exact ⟨h', heq⟩

theorem HeapInv.not_steal {sl entry prev : Nat} {sizeDiff : Word} (hinv : HeapInv h) :
    kmallocScan h size h.slots h.head ≠ .ok (.steal sl entry prev sizeDiff) := by
  obtain ⟨out, hscan, hout⟩ := kmallocScan_head hinv.repr hinv.wellFormed size
  rw [hscan]
  intro heq
  generalize h.toList = l at hout
  cases hout <;> cases heq

/-- In every reachable heap the list reads the same both ways, the blocks follow
one another from the start of the heap, no two free blocks are neighbours, and
so the branch that takes bytes from the left neighbour is dead. Calls fail only
on a full table. -/
theorem kheap_list_invariant (hr : heap.Reachable h) :
    (Seg some (fun i => (h.links i).next) h.head h.toList none ∧
      Seg some (fun i => (h.links i).prev) h.tail h.toList.reverse none) ∧
    (∀ e ∈ (entries h).head?, e.addr = kheapStartAddr) ∧
    (entries h).IsChain (fun a b => b.addr = a.addr + a.size) ∧
    (entries h).IsChain (fun a b => ¬(a.isBusy = false ∧ b.isBusy = false)) ∧
    (∀ size sl entry prev sizeDiff,
      kmallocScan h size h.slots h.head ≠ .ok (.steal sl entry prev sizeDiff)) ∧
    (∀ size f, kmalloc h size = .error f → h.toList.length = kheapSlots) ∧
    ∀ ptr, ∃ h', kfree h ptr = .ok h' := by
  have hinv := heapInv_of_reachable hr
  have hlinked := hinv.repr.linked
  refine ⟨⟨?_, ?_⟩, hinv.wellFormed.adjacent.head?, hinv.wellFormed.adjacent.isChain, ?_, fun _ _ _ _ _ => hinv.not_steal,
    fun _ _ hcall => (hinv.full_of_error hcall).2, hinv.free_total⟩
  · have hseg := hlinked.seg
    rwa [Option.or_none, ← hinv.repr.head] at hseg
  · have hseg := hlinked.seg_reverse
    rwa [Option.or_none, ← hinv.repr.tail] at hseg
  · refine hinv.wellFormed.coalesced.imp fun a b hab => ?_
    rintro ⟨ha, hb⟩
    simp [ha, hb] at hab

/-- Two blocks and the first of them free again. -/
theorem kheap_list_invariant_example : ∃ tr,
    replay callHeap kheapList
      [.malloc 16 0xC1000000, .malloc 32 0xC1000010, .free 0xC1000000] = some tr ∧
    (entries (final kheapList tr)).IsChain (fun a b => b.addr = a.addr + a.size) := by
  have hsome : (replay callHeap kheapList
      [.malloc 16 0xC1000000, .malloc 32 0xC1000010, .free 0xC1000000]).isSome := by decide +kernel
  obtain ⟨tr, htr⟩ := Option.isSome_iff_exists.mp hsome
  have htrace : heap.Trace kheapList tr := .of_replay (fun _ _ _ => step_of_callHeap) htr
  exact ⟨tr, htr, (kheap_list_invariant (htrace.final_reachable (.start rfl))).2.2.1⟩

end RubiKernel.Heap
