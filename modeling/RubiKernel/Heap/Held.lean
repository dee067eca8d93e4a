import RubiKernel.Heap.Aligned

/-! The live blocks, slot by slot, before and after a call. Two of them may start at one
address, when the first has no bytes or the list goes around the end of memory, and `kfree`
gives back the first. -/

namespace RubiKernel.Heap

/-- The live block that `kfree` gives back. -/
def firstAt (h : Kheap) (ptr : Word) : Option (Nat × KheapEntry) :=
  (held h).find? (·.2.addr = ptr)

def releaseAll (h : Kheap) (ptrs : List Word) : Option Kheap := ptrs.foldlM release h

/-- No `kfree` of `ptrs`, one after the other, gives back a block of `others`. -/
def Spares (others : Nat × KheapEntry → Prop) : Kheap → List Word → Prop
  | _, [] => True
  | h, ptr :: ptrs => (∀ x ∈ firstAt h ptr, ¬others x) ∧ ∀ h' ∈ release h ptr, Spares others h' ptrs

instance Spares.decidable {others : Nat × KheapEntry → Prop} [DecidablePred others] (h : Kheap)
    (ptrs : List Word) : Decidable (Spares others h ptrs) :=
  match ptrs with
  | [] => inferInstanceAs (Decidable True)
  | _ :: ptrs =>
    have : ∀ h', Decidable (Spares others h' ptrs) := fun h' => Spares.decidable h' ptrs
    inferInstanceAs (Decidable ((∀ x ∈ firstAt _ _, _) ∧ ∀ h' ∈ release _ _, _))

variable {h h' : Kheap} {size ptr : Word} {x : Nat × KheapEntry}

theorem held_kheapList : held kheapList = [] := by
  simp [held, heldAt, kheapList_repr.toList_eq]

theorem mem_held_of_firstAt (hx : x ∈ firstAt h ptr) : x ∈ held h :=
  List.mem_of_find?_eq_some hx

theorem firstAt_addr (hx : x ∈ firstAt h ptr) : x.2.addr = ptr := by
  simpa using List.find?_some hx

theorem firstAt_eq_none : firstAt h ptr = none ↔ ∀ x ∈ held h, x.2.addr ≠ ptr := by
  simp [firstAt]

theorem releaseAll_cons {ptrs : List Word} :
    releaseAll h (ptr :: ptrs) = (release h ptr).bind fun h => releaseAll h ptrs := rfl

theorem HeapInv.allocate_held (hinv : HeapInv h) (halloc : Heap.allocate h size = some (h', ptr)) :
    HeapInv h' ∧ ∃ k, (held h').Perm ((k, ⟨ptr, size, true⟩) :: held h) := by
  obtain ⟨hcall, hptr⟩ := allocate_eq_some.mp halloc
  obtain ⟨pre, k, post, before, after, -⟩ := hinv.malloc_held hcall hptr
  refine ⟨(hinv.malloc hcall).2, k, ?_⟩
  rw [before, after]
  exact List.perm_middle

theorem HeapInv.malloc_new (hinv : HeapInv h)
    (hcall : (kmalloc h size).toOption = some (h', ptr)) :
    HeapInv h' ∧ ∃ new, Taken ptr (new.map (·.2.addr)) ∧ (∀ x ∈ new, x.2.size = size) ∧
      (held h').Perm (new ++ held h) := by
  have hcall := kmalloc_eq_some.mp hcall
  have hend := hinv.mallocEnd size
  rw [hcall] at hend
  refine ⟨(hinv.malloc hcall).2, ?_⟩
  cases hend with
  | used full => exact ⟨[], .inr ⟨rfl, rfl⟩, nofun, .rfl⟩
  | @placed _ _ k pre post at_place slot before after passed =>
    refine ⟨[(k, ⟨ptr, size, true⟩)], .inl rfl, by simp, ?_⟩
    rw [before, after]
    exact List.perm_middle

theorem HeapInv.release_held (hinv : HeapInv h) (hrelease : Heap.release h ptr = some h') :
    HeapInv h' ∧ (held h).Perm ((firstAt h ptr).toList ++ held h') := by
  have hcall := release_eq_some.mp hrelease
  obtain ⟨h'', hfree, hheld⟩ := hinv.free_held ptr
  obtain rfl := Except.ok.inj (hfree.symm.trans hcall)
  refine ⟨(hinv.free hcall).2, ?_⟩
  cases hfirst : firstAt h ptr with
  | none =>
    have hnone := firstAt_eq_none.mp hfirst
    rw [hheld, List.eraseP_of_forall_not (by simpa using hnone)]
    exact .rfl
  | some x =>
    obtain ⟨hx, pre, post, heq, hpre⟩ := List.find?_eq_some_iff_append.mp hfirst
    rw [hheld, heq, List.eraseP_append_right _ (by simpa using hpre), List.eraseP_cons_of_pos (by exact hx)]
    exact List.perm_middle

theorem HeapInv.not_mem_held (hinv : HeapInv h) (hrelease : Heap.release h ptr = some h')
    (hx : x ∈ firstAt h ptr) : x ∉ held h' := by
  have hperm := (hinv.release_held hrelease).2
  rw [Option.mem_def.mp hx] at hperm
  have hnodup := (hperm.map Prod.fst).nodup_iff.mp hinv.held_nodup
  intro hmem
  exact (List.nodup_cons.mp hnodup).1 (List.mem_map_of_mem hmem)

end RubiKernel.Heap
