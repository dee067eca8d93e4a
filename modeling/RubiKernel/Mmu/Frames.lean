import Mathlib.Tactic.Ring
import RubiKernel.Lib.Bitmap
import RubiKernel.Lib.Lts
import RubiKernel.Mmu.Defs

/-! Physical pages over runs of `alloc_page` and `unbind_page` on any number of
page tables: a page of the task space is mapped at most once, and its bit is set
while it is. -/

universe u

namespace RubiKernel.Mmu

open Lts

def frameOf (addr : Word) : Nat := addr.toNat / 4096

def PageTableEntry.physAddr (e : PageTableEntry) : Word := e.pagePhysAddr.setWidth 32 <<< 12

variable {m : MemoryManager} {pt : PageTable} {bitmap : Nat → Word}
  {addr linearAddr physAddr : Word} {value : Byte} {i j : Nat}

theorem bitmap_word (addr : Word) : (addr >>> (12 + 5)).toNat = frameOf addr / 32 := by
  rw [BitVec.toNat_ushiftRight, Nat.shiftRight_eq_div_pow, frameOf]
  omega

theorem bitmap_bit (addr : Word) : ((addr >>> 12) &&& 0b11111).toNat = frameOf addr % 32 := by
  rw [BitVec.toNat_and, BitVec.toNat_ushiftRight, Nat.shiftRight_eq_div_pow]
  exact Nat.and_two_pow_sub_one_eq_mod _ 5

theorem getPageFromBitmap_eq (bitmap : Nat → Word) (addr : Word) :
    getPageFromBitmap bitmap addr = if Bitmap.get bitmap (frameOf addr) then 1 else 0 := by
  have hbit : (bitmap (frameOf addr / 32) >>> ((addr >>> 12) &&& 0b11111)).getLsbD 0 =
      Bitmap.get bitmap (frameOf addr) := by
    rw [BitVec.ushiftRight_eq', bitmap_bit, BitVec.getLsbD_ushiftRight, Nat.add_zero]
    rfl
  rw [getPageFromBitmap, bitmap_word, show (1 : Word) = 1#32 from rfl,
    BitVec.and_one_eq_setWidth_ofBool_getLsbD, hbit]
  cases Bitmap.get bitmap (frameOf addr) <;> rfl

theorem setPageToBitmap_eq :
    setPageToBitmap m bitmap addr value =
      { m with pagesBitmap := Bitmap.put m.pagesBitmap (frameOf addr) (value ≠ 0) } := by
  have hbit : (1 : Word) <<< ((addr >>> 12) &&& 0b11111) = (1 : Word) <<< (frameOf addr % 32) := by
    rw [BitVec.shiftLeft_eq', bitmap_bit]
  simp only [setPageToBitmap, bitmap_word, hbit]
  split
  · next h => simp [Bitmap.put, Bitmap.putBit, h]
  · next h =>
    have hset : decide (value ≠ 0) = true := decide_eq_true h
    simp only [Bitmap.put, Bitmap.putBit, hset, if_true]

theorem pagePhysAddr_toNat (addr : Word) :
    ((addr >>> 12).setWidth 20 : BitVec 20).toNat = frameOf addr := by
  have hlt := addr.isLt
  rw [BitVec.toNat_setWidth, BitVec.toNat_ushiftRight, Nat.shiftRight_eq_div_pow, frameOf]
  omega

theorem frameOf_physAddr (e : PageTableEntry) : frameOf e.physAddr = e.pagePhysAddr.toNat := by
  have hlt := e.pagePhysAddr.isLt
  rw [frameOf, PageTableEntry.physAddr, BitVec.toNat_shiftLeft, BitVec.toNat_setWidth,
    Nat.shiftLeft_eq]
  omega

theorem physAddr_toNat (e : PageTableEntry) : e.physAddr.toNat = 4096 * e.pagePhysAddr.toNat := by
  have hlt := e.pagePhysAddr.isLt
  rw [PageTableEntry.physAddr, BitVec.toNat_shiftLeft, BitVec.toNat_setWidth, Nat.shiftLeft_eq]
  omega

/-- The numbers of the pages `alloc_page` can find. -/
def TaskFrame (f : Nat) : Prop := 8192 ≤ f ∧ f < 16384

theorem taskFrame_of_mem (h : addr ∈ physTasksPages) :
    TaskFrame (frameOf addr) ∧ addr.toNat = 4096 * frameOf addr := by
  obtain ⟨k, hk, rfl⟩ := List.mem_map.mp h
  have hlt : k < 8192 := by
    have hcount : ((physTasksSpaceEnd - physTasksSpaceStart) / pageSize).toNat = 8192 := by decide
    rw [hcount, List.mem_range'_1] at hk
    omega
  have hstart : physTasksSpaceStart.toNat = 0x2000000 := by decide
  have hval : (physTasksSpaceStart + BitVec.ofNat 32 k * pageSize).toNat =
      0x2000000 + k * 4096 := by
    rw [BitVec.toNat_add, BitVec.toNat_mul, BitVec.toNat_ofNat, hstart,
      show pageSize.toNat = 4096 from rfl]
    omega
  rw [TaskFrame, frameOf, hval]
  omega

theorem simplePageBitmapCallback_eq (set : Word) (hset : set = 0 ∨ set = 1) :
    simplePageBitmapCallback m physAddr linearAddr set =
      if frameOf physAddr < 16384 then
        { m with pagesBitmap := Bitmap.put m.pagesBitmap (frameOf physAddr) (set ≠ 0) }
      else m := by
  have hlt : (physAddr >>> (12 + 5)).toNat < mmBitmapIntPerTable * mmBitmapTables ↔
      frameOf physAddr < 16384 := by
    rw [bitmap_word, mmBitmapIntPerTable, mmBitmapTables]
    omega
  have hvalue : decide (set.setWidth 8 ≠ (0 : Byte)) = decide (set ≠ 0) := by
    rcases hset with rfl | rfl <;> rfl
  simp only [simplePageBitmapCallback, hlt, setPageToBitmap_eq, hvalue]

def boundEntry (physAddr : Word) : PageTableEntry where
  present := true
  readWrite := true
  userSupervisor := false
  pagePhysAddr := (physAddr >>> 12).setWidth 20

theorem frameOf_boundEntry (physAddr : Word) :
    (boundEntry physAddr).pagePhysAddr.toNat = frameOf physAddr := pagePhysAddr_toNat physAddr

/-- A page of the task space is refused for its linear address only. -/
theorem bindRefused_iff (hframe : TaskFrame (frameOf physAddr)) :
    bindRefused m linearAddr physAddr ↔ kernelLinear m linearAddr := by
  refine or_iff_left ?_
  rintro ⟨hlt, -⟩
  have hend : (phys kernelPagesEnd).toNat = 0x2000000 := by decide
  have hlt := BitVec.lt_def.mp hlt
  unfold TaskFrame frameOf at hframe
  omega

theorem bindPage_task (hframe : TaskFrame (frameOf physAddr)) :
    bindPage m pt linearAddr physAddr simplePageBitmapCallback =
      if kernelLinear m linearAddr then (m, pt)
      else
        ({ m with pagesBitmap := Bitmap.put m.pagesBitmap (frameOf physAddr) true },
          Function.update pt (pteIndex linearAddr) (boundEntry physAddr)) := by
  simp only [bindPage, bindRefused_iff hframe]
  split
  · rfl
  · rw [simplePageBitmapCallback_eq 1 (.inr rfl), if_pos hframe.2]
    rfl

theorem physTasksPages_map_frameOf : physTasksPages.map frameOf = List.range' 8192 8192 := by
  have hcount : ((physTasksSpaceEnd - physTasksSpaceStart) / pageSize).toNat = 8192 := by decide
  rw [physTasksPages, hcount, List.map_map, List.range'_eq_map_range, List.map_map,
    List.range'_eq_map_range]
  refine List.map_congr_left fun k hk => ?_
  have hlt := List.mem_range.mp hk
  have hstart : physTasksSpaceStart.toNat = 0x2000000 := by decide
  simp only [Function.comp_apply, frameOf, BitVec.toNat_add, BitVec.toNat_mul, BitVec.toNat_ofNat,
    hstart, show pageSize.toNat = 4096 from rfl]
  omega

theorem allocPage_cases (m : MemoryManager) (pt : PageTable) (linearAddr : Word) :
    (∀ f ∈ List.range' 8192 8192, Bitmap.get m.pagesBitmap f = true) ∧
        allocPage m pt linearAddr = ((m, pt), 0) ∨
      ∃ i, TaskFrame (frameOf i) ∧ i.toNat = 4096 * frameOf i ∧
        Bitmap.get m.pagesBitmap (frameOf i) = false ∧
        (kernelLinear m linearAddr ∧ allocPage m pt linearAddr = ((m, pt), i) ∨
          ¬kernelLinear m linearAddr ∧ allocPage m pt linearAddr =
            (({ m with pagesBitmap := Bitmap.put m.pagesBitmap (frameOf i) true },
              Function.update pt (pteIndex linearAddr) (boundEntry i)), i)) := by
  unfold allocPage
  split
  · next i hfind =>
    obtain ⟨hframe, haddr⟩ := taskFrame_of_mem (List.mem_of_find?_eq_some hfind)
    have hclear : Bitmap.get m.pagesBitmap (frameOf i) = false := by
      have hzero := List.find?_some hfind
      rw [getPageFromBitmap_eq] at hzero
      cases hget : Bitmap.get m.pagesBitmap (frameOf i)
      · rfl
      · simp [hget] at hzero
    refine .inr ⟨i, hframe, haddr, hclear, ?_⟩
    rw [bindPage_task hframe]
    by_cases hguard : kernelLinear m linearAddr
    · exact .inl ⟨hguard, by rw [if_pos hguard]⟩
    · exact .inr ⟨hguard, by rw [if_neg hguard]⟩
  · next hfind =>
    refine .inl ⟨?_, rfl⟩
    rw [← physTasksPages_map_frameOf]
    intro f hf
    obtain ⟨i, hi, rfl⟩ := List.mem_map.mp hf
    have hset := List.find?_eq_none.mp hfind i hi
    rw [getPageFromBitmap_eq] at hset
    cases hget : Bitmap.get m.pagesBitmap (frameOf i)
    · simp [hget] at hset
    · rfl

theorem unbindPage_eq (linearAddr : Word) :
    unbindPage m pt linearAddr simplePageBitmapCallback =
      if kernelLinear m linearAddr then (m, pt)
      else
        (if (pt (pteIndex linearAddr)).pagePhysAddr.toNat < 16384 then
          { m with
            pagesBitmap :=
              Bitmap.put m.pagesBitmap (pt (pteIndex linearAddr)).pagePhysAddr.toNat false }
          else m,
          Function.update pt (pteIndex linearAddr)
            { pt (pteIndex linearAddr) with present := false, pagePhysAddr := 0 }) := by
  unfold unbindPage
  split
  · rfl
  · have hframe := frameOf_physAddr (pt (pteIndex linearAddr))
    rw [PageTableEntry.physAddr] at hframe
    simp only [simplePageBitmapCallback_eq 0 (.inl rfl), hframe]
    rfl

structure Paging (ι : Type u) where
  mm : MemoryManager
  tables : ι → PageTable

inductive PagingCall (ι : Type u)
  | alloc (t : ι) (linearAddr ret : Word)
  | unbind (t : ι) (linearAddr : Word)

section

variable {ι : Type u} [DecidableEq ι]

/-- After `init_memory_manager`, on zeroed tables. -/
def paging : System (Paging ι) (PagingCall ι) where
  start s :=
    (∃ kernelPageTable m, s.mm = initMemoryManager kernelPageTable m) ∧
      s.tables = fun _ _ => default
  step s call s' :=
    match call with
    | .alloc t linearAddr ret =>
      let r := allocPage s.mm (s.tables t) linearAddr
      s' = ⟨r.1.1, Function.update s.tables t r.1.2⟩ ∧ ret = r.2
    | .unbind t linearAddr =>
      let r := unbindPage s.mm (s.tables t) linearAddr simplePageBitmapCallback
      s' = ⟨r.1, Function.update s.tables t r.2⟩

theorem alloc_total (s : Paging ι) (t : ι) (linearAddr : Word) :
    ∃ ret s', paging.step s (.alloc t linearAddr ret) s' := ⟨_, _, rfl, rfl⟩

theorem unbind_total (s : Paging ι) (t : ι) (linearAddr : Word) :
    ∃ s', paging.step s (.unbind t linearAddr) s' := ⟨_, rfl⟩

/-- Present entries refer to distinct marked pages of the task space, the others
to page 0. -/
structure FrameInv (s : Paging ι) : Prop where
  task : ∀ t i, (s.tables t i).present = true → TaskFrame (s.tables t i).pagePhysAddr.toNat
  marked : ∀ t i, (s.tables t i).present = true →
    Bitmap.get s.mm.pagesBitmap (s.tables t i).pagePhysAddr.toNat = true
  absent : ∀ t i, (s.tables t i).present = false → (s.tables t i).pagePhysAddr = 0
  unique : ∀ t i u j, (s.tables t i).present = true → (s.tables u j).present = true →
    (s.tables t i).pagePhysAddr = (s.tables u j).pagePhysAddr → t = u ∧ i = j

theorem FrameInv.start {s : Paging ι} (hs : paging.start s) : FrameInv s := by
  obtain ⟨-, htables⟩ := hs
  constructor <;> simp [htables, default]

theorem update_entry {tables : ι → PageTable} {t u : ι} {e : PageTableEntry} :
    Function.update tables t (Function.update (tables t) i e) u j =
      if u = t ∧ j = i then e else tables u j := by
  by_cases hu : u = t
  · subst hu
    by_cases hj : j = i
    · simp [hj]
    · simp [hj]
  · simp [hu]

theorem FrameInv.bind {s : Paging ι} (hinv : FrameInv s) (t : ι) (i : Nat)
    (hframe : TaskFrame (frameOf physAddr))
    (hclear : Bitmap.get s.mm.pagesBitmap (frameOf physAddr) = false) :
    FrameInv ⟨{ s.mm with pagesBitmap := Bitmap.put s.mm.pagesBitmap (frameOf physAddr) true },
      Function.update s.tables t (Function.update (s.tables t) i (boundEntry physAddr))⟩ := by
  have hnew := frameOf_boundEntry physAddr
  have hfresh : ∀ u j, (s.tables u j).present = true →
      (s.tables u j).pagePhysAddr ≠ (boundEntry physAddr).pagePhysAddr := by
    intro u j hpresent heq
    have hmarked := hinv.marked u j hpresent
    rw [heq, hnew, hclear] at hmarked
    cases hmarked
  constructor
  · intro u j hpresent
    simp only [update_entry] at hpresent ⊢
    split at hpresent
    · next h => rwa [if_pos h, hnew]
    · next h => rw [if_neg h]; exact hinv.task u j hpresent
  · intro u j hpresent
    simp only [update_entry] at hpresent ⊢
    rw [Bitmap.get_put (by decide)]
    split at hpresent
    · next h => simp [h, hnew]
    · next h =>
      rw [if_neg h, hinv.marked u j hpresent]
      simp
  · intro u j habsent
    simp only [update_entry] at habsent ⊢
    split at habsent
    · cases habsent
    · next h => rw [if_neg h]; exact hinv.absent u j habsent
  · intro u j u' j' hpresent hpresent' heq
    simp only [update_entry] at hpresent hpresent' heq
    by_cases h : u = t ∧ j = i <;> by_cases h' : u' = t ∧ j' = i
    · exact ⟨h.1.trans h'.1.symm, h.2.trans h'.2.symm⟩
    · rw [if_neg h'] at hpresent' heq
      rw [if_pos h] at heq
      exact absurd heq.symm (hfresh u' j' hpresent')
    · rw [if_neg h] at hpresent heq
      rw [if_pos h'] at heq
      exact absurd heq (hfresh u j hpresent)
    · rw [if_neg h] at hpresent heq
      rw [if_neg h'] at hpresent' heq
      exact hinv.unique u j u' j' hpresent hpresent' heq

omit [DecidableEq ι] in
theorem FrameInv.other_frame {s : Paging ι} (hinv : FrameInv s) {t u : ι}
    (hne : ¬(u = t ∧ j = i)) (hpresent : (s.tables u j).present = true) :
    (s.tables u j).pagePhysAddr.toNat ≠ (s.tables t i).pagePhysAddr.toNat := by
  intro heq
  cases hold : (s.tables t i).present with
  | true => exact hne (hinv.unique u j t i hpresent hold (BitVec.eq_of_toNat_eq heq))
  | false =>
    have hframe := hinv.task u j hpresent
    rw [heq, hinv.absent t i hold] at hframe
    exact absurd hframe.1 (by decide)

theorem FrameInv.unbind {s : Paging ι} (hinv : FrameInv s) (t : ι) (i : Nat) {mm : MemoryManager}
    (hmm : ∀ f, f ≠ (s.tables t i).pagePhysAddr.toNat →
      Bitmap.get mm.pagesBitmap f = Bitmap.get s.mm.pagesBitmap f) :
    FrameInv ⟨mm, Function.update s.tables t (Function.update (s.tables t) i
      { s.tables t i with present := false, pagePhysAddr := 0 })⟩ := by
  constructor
  · intro u j hpresent
    simp only [update_entry] at hpresent ⊢
    split at hpresent
    · cases hpresent
    · next h => rw [if_neg h]; exact hinv.task u j hpresent
  · intro u j hpresent
    simp only [update_entry] at hpresent ⊢
    split at hpresent
    · cases hpresent
    · next h =>
      rw [if_neg h, hmm _ (hinv.other_frame h hpresent)]
      exact hinv.marked u j hpresent
  · intro u j habsent
    simp only [update_entry] at habsent ⊢
    split at habsent
    · next h => rw [if_pos h]
    · next h => rw [if_neg h]; exact hinv.absent u j habsent
  · intro u j u' j' hpresent hpresent' heq
    simp only [update_entry] at hpresent hpresent' heq
    by_cases h : u = t ∧ j = i
    · rw [if_pos h] at hpresent
      cases hpresent
    · by_cases h' : u' = t ∧ j' = i
      · rw [if_pos h'] at hpresent'
        cases hpresent'
      · rw [if_neg h] at hpresent heq
        rw [if_neg h'] at hpresent' heq
        exact hinv.unique u j u' j' hpresent hpresent' heq

theorem FrameInv.step {s s' : Paging ι} {call : PagingCall ι} (hinv : FrameInv s)
    (hstep : paging.step s call s') : FrameInv s' := by
  cases call with
  | alloc t linearAddr ret =>
    obtain ⟨rfl, -⟩ := hstep
    rcases allocPage_cases s.mm (s.tables t) linearAddr with ⟨-, heq⟩ | ⟨i, hframe, -, hclear, hbind⟩
    · rwa [heq, Function.update_eq_self]
    · rcases hbind with ⟨-, heq⟩ | ⟨-, heq⟩
      · rwa [heq, Function.update_eq_self]
      · rw [heq]
        exact hinv.bind t _ hframe hclear
  | unbind t linearAddr =>
    obtain rfl : s' = _ := hstep
    rw [unbindPage_eq]
    split
    · rwa [Function.update_eq_self]
    · refine hinv.unbind t _ fun f hf => ?_
      split
      · rw [Bitmap.get_put (by decide), if_neg hf]
      · rfl

theorem frameInv_of_reachable {s : Paging ι} (hr : paging.Reachable s) : FrameInv s :=
  hr.invariant (fun _ => FrameInv.start) fun _ _ _ hinv hstep => hinv.step hstep

/-- A page of the task space is referenced by at most one present entry over all
tables, its bit is set while it is, and `alloc_page` never returns it then. -/
theorem frames_never_shared {s : Paging ι} (hr : paging.Reachable s) :
    (∀ t i u j, (s.tables t i).present = true → (s.tables u j).present = true →
      (s.tables t i).physAddr = (s.tables u j).physAddr → t = u ∧ i = j) ∧
    (∀ t i, (s.tables t i).present = true →
      physTasksSpaceStart ≤ (s.tables t i).physAddr ∧
        (s.tables t i).physAddr < physTasksSpaceEnd ∧
        getPageFromBitmap s.mm.pagesBitmap (s.tables t i).physAddr = 1) ∧
    ∀ t linearAddr ret s', paging.step s (.alloc t linearAddr ret) s' → ret ≠ 0 →
      ∀ u j, (s.tables u j).present = true → (s.tables u j).physAddr ≠ ret := by
  have hinv := frameInv_of_reachable hr
  have hbounds : physTasksSpaceStart.toNat = 4096 * 8192 ∧ physTasksSpaceEnd.toNat = 4096 * 16384 :=
    by decide
  refine ⟨fun t i u j hti huj heq => hinv.unique t i u j hti huj ?_, fun t i hti => ⟨?_, ?_, ?_⟩, ?_⟩
  · have hframe := congrArg frameOf heq
    rw [frameOf_physAddr, frameOf_physAddr] at hframe
    exact BitVec.eq_of_toNat_eq hframe
  · have hframe := (hinv.task t i hti).1
    rw [BitVec.le_def, physAddr_toNat]
    omega
  · have hframe := (hinv.task t i hti).2
    rw [BitVec.lt_def, physAddr_toNat]
    omega
  · rw [getPageFromBitmap_eq, frameOf_physAddr, hinv.marked t i hti]
    rfl
  · rintro t linearAddr ret s' ⟨-, rfl⟩ hret u j huj heq
    have hmarked := hinv.marked u j huj
    rw [← frameOf_physAddr, heq] at hmarked
    rcases allocPage_cases s.mm (s.tables t) linearAddr with ⟨-, hnone⟩ | ⟨i, -, -, hclear, hbind⟩
    · exact hret (by rw [hnone])
    · have hi : (allocPage s.mm (s.tables t) linearAddr).2 = i := by
        rcases hbind with ⟨-, h⟩ | ⟨-, h⟩ <;> rw [h]
      rw [hi, hclear] at hmarked
      cases hmarked

end

theorem frames_never_shared_two : ∃ s₁ s₂ s₃ : Paging Bool, ∃ ret₁ ret₂,
    paging.step ⟨initMemoryManager 0 zeroMemory, fun _ _ => default⟩ (.alloc true 0 ret₁) s₁ ∧
    paging.step s₁ (.unbind true 0) s₂ ∧ paging.step s₂ (.alloc false 0x1000 ret₂) s₃ ∧
    ∀ t i u j, (s₃.tables t i).present = true → (s₃.tables u j).present = true →
      (s₃.tables t i).physAddr = (s₃.tables u j).physAddr → t = u ∧ i = j := by
  have hstart : paging.Reachable
      (⟨initMemoryManager 0 zeroMemory, fun _ _ => default⟩ : Paging Bool) :=
    .start ⟨⟨0, zeroMemory, rfl⟩, rfl⟩
  obtain ⟨ret₁, s₁, h₁⟩ := alloc_total _ true 0
  obtain ⟨s₂, h₂⟩ := unbind_total s₁ true 0
  obtain ⟨ret₂, s₃, h₃⟩ := alloc_total s₂ false 0x1000
  exact ⟨s₁, s₂, s₃, ret₁, ret₂, h₁, h₂, h₃,
    (frames_never_shared (((hstart.step h₁).step h₂).step h₃)).1⟩

end RubiKernel.Mmu
