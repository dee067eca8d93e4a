import RubiKernel.Mmu.Frames

/-! How many pages `alloc_page` can still hand out. -/

namespace RubiKernel.Mmu

def freeFrames (m : MemoryManager) : Nat :=
  (List.range' 8192 8192).countP fun f => !Bitmap.get m.pagesBitmap f

variable {m : MemoryManager} {pt : PageTable} {linearAddr : Word} {f : Nat}

theorem freeFrames_clear (h : ∀ f, TaskFrame f → Bitmap.get m.pagesBitmap f = false) :
    freeFrames m = 8192 := by
  have hall : ∀ f ∈ List.range' 8192 8192, (!Bitmap.get m.pagesBitmap f) = true := by
    intro f hf
    rw [h f (List.mem_range'_1.mp hf), Bool.not_false]
  rw [freeFrames, List.countP_eq_length.mpr hall, List.length_range']

theorem freeFrames_put (hframe : TaskFrame f) (hclear : Bitmap.get m.pagesBitmap f = false) :
    freeFrames { m with pagesBitmap := Bitmap.put m.pagesBitmap f true } + 1 = freeFrames m := by
  have hmem : f ∈ List.range' 8192 8192 := by
    unfold TaskFrame at hframe
    rw [List.mem_range'_1]
    omega
  have hperm := List.perm_cons_erase hmem
  have hnodup : (List.range' 8192 8192).Nodup := List.nodup_range'
  unfold freeFrames
  rw [hperm.countP_eq, hperm.countP_eq, List.countP_cons, List.countP_cons]
  have hrest : ((List.range' 8192 8192).erase f).countP
        (fun g => !Bitmap.get (Bitmap.put m.pagesBitmap f true) g) =
      ((List.range' 8192 8192).erase f).countP fun g => !Bitmap.get m.pagesBitmap g := by
    refine List.countP_congr fun g hg => ?_
    have hne : g ≠ f := ((hnodup.mem_erase_iff).mp hg).1
    rw [Bitmap.get_put (by decide), if_neg hne]
  rw [hrest, Bitmap.get_put (by decide), hclear]
  simp

theorem freeFrames_eq_zero (h : ∀ f ∈ List.range' 8192 8192, Bitmap.get m.pagesBitmap f = true) :
    freeFrames m = 0 := by
  refine List.countP_eq_zero.mpr fun f hf => ?_
  simp [h f hf]

theorem freeFrames_pos (hframe : TaskFrame f) (hclear : Bitmap.get m.pagesBitmap f = false) :
    0 < freeFrames m := by
  have hput := freeFrames_put hframe hclear
  omega

/-- The pages of the requests `reqs` that `alloc_page` binds: those that are not
guarded, as long as there are free pages. -/
def granted (m : MemoryManager) (reqs : List Word) : List Word :=
  (reqs.filter fun a => ¬kernelLinear m a).take (freeFrames m)

theorem granted_concat (m : MemoryManager) (reqs : List Word) (a : Word) :
    granted m (reqs ++ [a]) = granted m reqs ++
      if ¬kernelLinear m a ∧ (granted m reqs).length < freeFrames m then [a] else [] := by
  have hlen : (granted m reqs).length < freeFrames m ↔
      (reqs.filter fun a => ¬kernelLinear m a).length < freeFrames m := by
    simp [granted]
  simp only [hlen]
  unfold granted
  rw [List.filter_append, List.take_append]
  congr 1
  by_cases hguard : kernelLinear m a
  · simp [hguard]
  · by_cases hroom : (reqs.filter fun a => ¬kernelLinear m a).length < freeFrames m
    · have hpos : 1 ≤ freeFrames m - (reqs.filter fun a => ¬kernelLinear m a).length := by omega
      simp only [hguard, not_false_eq_true, decide_true, List.filter_cons_of_pos, List.filter_nil,
        hroom, and_self, if_true]
      exact List.take_of_length_le (by simpa using hpos)
    · have hzero : freeFrames m - (reqs.filter fun a => ¬kernelLinear m a).length = 0 := by omega
      rw [hzero]
      simp only [hroom, and_false, if_false, List.take_zero]

end RubiKernel.Mmu
