import RubiKernel.Heap.Allocator

/-! The heap as its callers see it: the pointers that are theirs to free. -/

namespace RubiKernel.Heap

def pointers (h : Kheap) : List Word := (busy (entries h)).map Prod.fst

/-- `kmalloc` for a caller that writes through the pointer untested; `none` for NULL. -/
def allocate (h : Kheap) (size : Word) : Option (Kheap × Word) :=
  match kmalloc h size with
  | .ok (h, p) => if p = 0 then none else some (h, p)
  | .error _ => none

def release (h : Kheap) (ptr : Word) : Option Kheap := (kfree h ptr).toOption

variable {h h' : Kheap} {size ptr ptr' ret : Word} {ps ps' base : List Word}

theorem mem_pointers : ptr ∈ pointers h ↔ ∃ e ∈ entries h, e.isBusy = true ∧ e.addr = ptr := by
  simp only [pointers, List.mem_map, Prod.exists, exists_and_right, exists_eq_right, mem_busy]
  constructor
  · rintro ⟨n, e, he, hb, haddr, -⟩
    exact ⟨e, he, hb, haddr⟩
  · rintro ⟨e, he, hb, haddr⟩
    exact ⟨e.size, e, he, hb, haddr, rfl⟩

theorem pointers_kheapList : pointers kheapList = [] := by
  simp [pointers, entries, kheapList_repr.toList_eq]

theorem allocate_eq_some : allocate h size = some (h', ptr) ↔
    kmalloc h size = .ok (h', ptr) ∧ ptr ≠ 0 := by
  unfold allocate
  split
  · next h₁ p hcall =>
    rw [hcall, Option.ite_none_left_eq_some]
    simp only [Option.some.injEq, Prod.mk.injEq, Except.ok.injEq]
    constructor
    · rintro ⟨hp, rfl, rfl⟩
      exact ⟨⟨rfl, rfl⟩, hp⟩
    · rintro ⟨⟨rfl, rfl⟩, hp⟩
      exact ⟨hp, rfl, rfl⟩
  · next f hcall => simp [hcall]

theorem kmalloc_eq_some : (kmalloc h size).toOption = some (h', ptr) ↔
    kmalloc h size = .ok (h', ptr) := by
  cases kmalloc h size <;> simp [Except.toOption]

theorem release_eq_some : release h ptr = some h' ↔ kfree h ptr = .ok h' := by
  unfold release
  cases kfree h ptr <;> simp [Except.toOption]

theorem HeapInv.malloc_pointers (hinv : HeapInv h) (hcall : kmalloc h size = .ok (h', ret)) :
    entries h' = entries h ∧ ret = 0 ∨ (pointers h').Perm (ret :: pointers h) :=
  (hinv.malloc hcall).1.perm_busy.imp_right fun hperm => hperm.map Prod.fst

theorem HeapInv.free_pointers (hinv : HeapInv h) (hcall : kfree h ptr = .ok h') :
    (pointers h').Perm ((pointers h).erase ptr) := by
  rcases (hinv.free hcall).1.perm_busy with ⟨heq, hdead⟩ | ⟨n, hperm⟩
  · rw [List.erase_of_not_mem, pointers, heq, ← pointers]
    intro hmem
    obtain ⟨e, he, hb, haddr⟩ := mem_pointers.mp hmem
    exact hdead e he hb haddr
  · have herase := ((hperm.map Prod.fst).erase ptr).symm
    rwa [List.map_cons, List.erase_cons_head] at herase

/-- What an allocation that may have failed has taken: `ptr`, or NULL and nothing. -/
def Taken (ptr : Word) (ps : List Word) : Prop := ps = [ptr] ∨ ptr = 0 ∧ ps = []

theorem Taken.erase (h : Taken ptr ps) (hnull : ptr = 0 → 0 ∉ base) :
    ((ps ++ base).erase ptr).Perm base := by
  rcases h with rfl | ⟨rfl, rfl⟩
  · rw [List.singleton_append, List.erase_cons_head]
  · rw [List.nil_append, List.erase_of_not_mem (hnull rfl)]

/-- If one of two is NULL, it is still the other that is given back. -/
theorem Taken.erase_erase (h : Taken ptr ps) (h' : Taken ptr' ps')
    (hnull : ptr = 0 ∨ ptr' = 0 → 0 ∉ base) :
    (((ps ++ ps' ++ base).erase ptr).erase ptr').Perm base := by
  have hrest := h.erase fun hptr => hnull (.inl hptr)
  rw [List.append_assoc]
  rcases h' with rfl | ⟨rfl, rfl⟩
  · have hperm : (ps ++ ([ptr'] ++ base)).Perm (ptr' :: (ps ++ base)) := List.perm_middle
    have herase := hperm.erase ptr'
    rw [List.erase_cons_head] at herase
    rw [List.erase_comm]
    exact (herase.erase ptr).trans hrest
  · have herase := hrest.erase 0
    rwa [List.erase_of_not_mem (hnull (.inr rfl))] at herase

end RubiKernel.Heap
