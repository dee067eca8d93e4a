import RubiKernel.Heap.Allocator

/-! Where the blocks that `kmalloc` returns lie. Only the extension of the last
block checks the size against the limit, and in 32 bits; a new block is put at
the end whatever its size. -/

namespace RubiKernel.Heap

open Lts Tiling

/-- The block a call returned lies in the heap, in the integers. -/
def Contained (_ : Kheap) (call : HeapCall) (_ : Kheap) : Prop :=
  match call with
  | .malloc size ret => ret ≠ 0 →
    kheapStartAddr.toNat ≤ ret.toNat ∧
      ret.toNat + size.toNat ≤ kheapStartAddr.toNat + kheapSize.toNat
  | .free _ => True

theorem kheapLimit_toNat : kheapLimit.toNat = kheapStartAddr.toNat + kheapSize.toNat := rfl

/-- `size` bytes from `start` on end at the limit at the latest. -/
def RoomAt (start size : Word) : Prop := start.toNat + size.toNat ≤ kheapLimit.toNat

/-- A block for `size` bytes is found in the list, or the bytes fit where the
call puts them: at the start of the last block when that is extended, else at
the end of the list unless the heap is used up. -/
def RoomFor (es : List KheapEntry) (size : Word) : Prop :=
  (∃ e ∈ es, e.isBusy = false ∧ size ≤ e.size) ∨
    (∃ e ∈ es.getLast?, e.isBusy = false ∧ e.addr + size < kheapLimit ∧ RoomAt e.addr size) ∨
    ¬Extendable size es ∧ (kheapLimit ≤ blocksEnd es ∨ RoomAt (blocksEnd es) size)

/-- Every `kmalloc` finds room. -/
def Roomy (h : Kheap) (call : HeapCall) (_ : Kheap) : Prop :=
  match call with
  | .malloc size _ => RoomFor (entries h) size
  | .free _ => True

instance {es : List KheapEntry} {size : Word} : Decidable (RoomFor es size) :=
  inferInstanceAs (Decidable ((∃ e ∈ es, _) ∨ (∃ e ∈ es.getLast?, _ ∧ _ ∧ _ ≤ _) ∨
    ¬_ ∧ (_ ∨ _ ≤ _)))

instance {h h' : Kheap} : (call : HeapCall) → Decidable (Roomy h call h')
  | .malloc _ _ => inferInstanceAs (Decidable (RoomFor _ _))
  | .free _ => inferInstanceAs (Decidable True)

variable {h h' : Kheap} {es es' pre post : List KheapEntry} {c e : KheapEntry}
  {size ptr ret : Word}

structure ContainInv (h : Kheap) : Prop extends HeapInv h where
  fits : Fits (entries h)

theorem ContainInv.start : ContainInv kheapList := ⟨.start, AllocInv.start.fits⟩

theorem not_fit_of_unfit (hunfit : ∀ e ∈ es, Unfit size e) :
    ¬∃ e ∈ es, e.isBusy = false ∧ size ≤ e.size := by
  rintro ⟨e, he, hfree, hle⟩
  rcases hunfit e he with hbusy | hsmall
  · simp [hfree] at hbusy
  · exact BitVec.not_le.mpr hsmall hle

/-- Without a block to take, only the place of the new one decides. -/
theorem roomFor_of_extend (hunfit : ∀ e ∈ pre, Unfit size e) (hfree : c.isBusy = false)
    (hsmall : c.size < size) (hroom : c.addr + size < kheapLimit) :
    RoomFor (pre ++ [c]) size ↔ RoomAt c.addr size := by
  have hnot : ¬∃ e ∈ pre ++ [c], e.isBusy = false ∧ size ≤ e.size := by
    refine not_fit_of_unfit fun e he => ?_
    rcases List.mem_append.mp he with he | he
    · exact hunfit e he
    · rw [List.mem_singleton.mp he]
      exact .inr hsmall
  have hext : Extendable size (pre ++ [c]) := ⟨c, by simp, hfree, hroom⟩
  unfold RoomFor
  rw [or_iff_right hnot]
  simp [hext, hfree, hroom]

theorem roomFor_of_stuck (hunfit : ∀ e ∈ es, Unfit size e) (hstuck : ¬Extendable size es) :
    RoomFor es size ↔ kheapLimit ≤ blocksEnd es ∨ RoomAt (blocksEnd es) size := by
  have hnot : ¬∃ e ∈ es.getLast?, e.isBusy = false ∧ e.addr + size < kheapLimit ∧
      RoomAt e.addr size := by
    rintro ⟨e, he, hfree, hlt, -⟩
    exact hstuck ⟨e, he, hfree, hlt⟩
  unfold RoomFor
  rw [or_iff_right (not_fit_of_unfit hunfit), or_iff_right hnot, and_iff_right hstuck]

theorem Fits.start_le (hfit : Fits es) : kheapStartAddr.toNat ≤ (blocksEnd es).toNat := by
  have hlt := kheapLimit.isLt
  unfold Fits at hfit
  rw [endFrom_toNat (by omega)]
  omega

theorem contained_iff_roomAt (hle : kheapStartAddr.toNat ≤ ret.toNat) :
    Contained h (.malloc size ret) h' ↔ RoomAt ret size := by
  have hne : ret ≠ 0 := by
    rintro rfl
    exact absurd hle (by decide)
  simp only [Contained, ne_eq, hne, not_false_eq_true, forall_const, hle, true_and, RoomAt,
    kheapLimit_toNat]

theorem BlockMalloc.contained_iff (hblock : BlockMalloc size es es' ret) (hadj : Adjacent es)
    (hfit : Fits es) : Contained h (.malloc size ret) h' ↔ RoomFor es size := by
  cases hblock with
  | @extend pre c free small unfit room =>
    have hc := hfit.contained hadj (e := c) (by simp)
    rw [contained_iff_roomAt hc.1, roomFor_of_extend unfit free small room]
  | @split pre c post free fit =>
    have hc := hfit.contained hadj (e := c) (by simp)
    have hle := BitVec.le_def.mp fit
    rw [contained_iff_roomAt hc.1]
    exact iff_of_true (by unfold RoomAt; omega) (.inl ⟨c, by simp, free, fit⟩)
  | append unfit stuck room =>
    rw [contained_iff_roomAt hfit.start_le, roomFor_of_stuck unfit stuck,
      or_iff_right (BitVec.not_le.mpr room)]
  | full unfit stuck full =>
    rw [roomFor_of_stuck unfit stuck]
    exact iff_of_true (by simp [Contained]) (.inl full)

theorem BlockMalloc.fits_of_roomFor (hblock : BlockMalloc size es es' ret) (hes : WellFormed es)
    (hfit : Fits es) (hroom : RoomFor es size) : Fits es' := by
  have hadj := (hblock.wellFormed hes).adjacent
  cases hblock with
  | extend free small unfit room =>
    exact hfit.of_append.concat hadj ((roomFor_of_extend unfit free small room).mp hroom)
  | split free fit => exact hfit.split fit
  | append unfit stuck room =>
    rw [roomFor_of_stuck unfit stuck, or_iff_right (BitVec.not_le.mpr room)] at hroom
    exact hfit.concat hadj hroom
  | full unfit stuck full => exact hfit

theorem ContainInv.contained_iff {call : HeapCall} (hinv : ContainInv h)
    (hstep : heap.step h call h') : Contained h call h' ↔ Roomy h call h' := by
  cases call with
  | malloc size ret =>
    exact (hinv.malloc hstep).1.contained_iff hinv.wellFormed.adjacent hinv.fits
  | free ptr => exact Iff.rfl

theorem ContainInv.step {call : HeapCall} (hinv : ContainInv h) (hstep : heap.step h call h')
    (hcont : Contained h call h') : ContainInv h' := by
  refine ⟨hinv.toHeapInv.step hstep, ?_⟩
  have hroom := (hinv.contained_iff hstep).mp hcont
  cases call with
  | malloc size ret => exact (hinv.malloc hstep).1.fits_of_roomFor hinv.wellFormed hinv.fits hroom
  | free ptr => exact (hinv.free hstep).1.fits hinv.fits

/-- Every block that a run of the heap returns lies in the heap exactly when
every `kmalloc` of the run finds room. -/
theorem kmalloc_contained_iff {tr : List (HeapCall × Kheap)} (h : heap.Trace kheapList tr) :
    Every Contained kheapList tr ↔ Every Roomy kheapList tr :=
  System.Trace.every_iff (fun _ _ _ => ContainInv.contained_iff) (fun _ _ _ => ContainInv.step)
    ContainInv.start h

theorem kmalloc_contained_iff_whole : ∃ tr,
    replay callHeap kheapList [.malloc 0x00800000 0xC1000000] = some tr ∧
      Every Contained kheapList tr := by
  have hrun : (replay callHeap kheapList [.malloc 0x00800000 0xC1000000]).any
      (fun tr => Every Roomy kheapList tr) = true := by decide +kernel
  obtain ⟨tr, htr, htrace, hroomy⟩ :=
    System.Trace.exists_of_replay (M := heap) (fun _ _ _ => step_of_callHeap) hrun
  exact ⟨tr, htr, (kmalloc_contained_iff htrace).mpr hroomy⟩

/-- One byte more than the heap has, in the empty heap. -/
theorem kmalloc_past_limit : ¬∀ h size ret h', heap.Reachable h →
    kmalloc h size = .ok (h', ret) → ret ≠ 0 →
      kheapStartAddr.toNat ≤ ret.toNat ∧
        ret.toNat + size.toNat ≤ kheapStartAddr.toNat + kheapSize.toNat := by
  intro hall
  have hrun : (callHeap kheapList (.malloc 0x00800001 0xC1000000)).isSome := by decide +kernel
  obtain ⟨h', hh'⟩ := Option.isSome_iff_exists.mp hrun
  have hcall : kmalloc kheapList 0x00800001 = .ok (h', 0xC1000000) := step_of_callHeap hh'
  exact absurd (hall _ _ _ _ (.start rfl) hcall (by decide)).2 (by decide)

end RubiKernel.Heap
