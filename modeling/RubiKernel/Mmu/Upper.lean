import RubiKernel.Mmu.Spaces

/-! What the directories map above the 4 MB of a task: the kernel, and the page of a device. -/

universe u v w

namespace RubiKernel.Mmu

open Lts

/-- The memory BAR that `alloc_pci_mem` was last called with. -/
def SpaceCall.device {ι : Type u} (device : Option Word) : SpaceCall ι → Option Word
  | .pci rawValue _ =>
    if rawValue ≠ 0 ∧ rawValue.getLsbD 0 = false then some rawValue else device
  | _ => device

def lastDevice {ι : Type u} {σ : Type v} (device : Option Word) (tr : List (SpaceCall ι × σ)) :
    Option Word :=
  tr.foldl (fun d x => x.1.device d) device

/-- What a space maps above the 4 MB of a task, when it has the page of `device`. -/
def upper (device : Option Word) : Space := fun va =>
  if virtBase ≤ va ∧ va < kernelPagesEnd then some (phys va)
  else if va.toNat / 4096 = devicePage then
    (device.bind deviceFrame).map (· + (va &&& 0xFFF))
  else none

section

variable {ι : Type u} [DecidableEq ι] {a a' : Maps ι} {call : SpaceCall ι} {device : Option Word} {m : Space} {t : ι}
  {tr : List (SpaceCall ι × Maps ι)}

theorem upper_none : upper none =
    fun va => if virtBase ≤ va ∧ va < kernelPagesEnd then some (phys va) else none := by
  funext va
  rw [upper]
  exact if_congr Iff.rfl rfl (ite_self none)

theorem upper_setPage (rawValue : Word) :
    (upper device).setPage devicePage (deviceFrame rawValue) = upper (some rawValue) := by
  funext va
  rw [Space.setPage, upper, upper]
  by_cases hpage : va.toNat / 4096 = devicePage
  · have hva : ¬(virtBase ≤ va ∧ va < kernelPagesEnd) := fun hva => by
      have hhigh : va.toNat < 0xC2000000 := hva.2
      unfold devicePage at hpage
      omega
    rw [if_pos hpage, if_neg hva, if_pos hpage]
    rfl
  · rw [if_neg hpage, if_neg hpage, if_neg hpage]

theorem kernel_step (hkernel : a.kernel = upper device) (hstep : (maps ι).step a call a') :
    a'.kernel = upper (call.device device) := by
  cases call with
  | exec t pt junk =>
    obtain ⟨-, rfl⟩ := hstep
    exact hkernel
  | alloc t linearAddr =>
    obtain ⟨m, -, rfl | ⟨frame, -, rfl⟩⟩ := hstep
    · exact hkernel
    · exact hkernel
  | unbind t linearAddr =>
    obtain ⟨m, -, rfl | rfl⟩ := hstep
    · exact hkernel
    · exact hkernel
  | delete t =>
    obtain rfl := hstep
    exact hkernel
  | deleteKernelTask =>
    obtain rfl := hstep
    exact hkernel
  | pci rawValue pt =>
    obtain rfl := hstep
    rw [SpaceCall.device]
    split
    · exact (congrArg (Space.setPage · _ _) hkernel).trans (upper_setPage rawValue)
    · exact hkernel
  | heapStore t junk =>
    obtain rfl := hstep
    exact hkernel

theorem kernel_upper (hkernel : a.kernel = upper device) (htr : (maps ι).Trace a tr) :
    (final a tr).kernel = upper (lastDevice device tr) := by
  induction tr generalizing a device with
  | nil => exact hkernel
  | cons x tr ih => exact ih (kernel_step hkernel htr.1) htr.2

theorem setPage_high {page : Nat} {frame : Option Word} {va : Word} (hpage : page < 1024)
    (hva : 0x400000 ≤ va.toNat) : m.setPage page frame va = m va :=
  if_neg (by omega)

theorem setTask_upper {u : ι} {page : Nat} {frame : Option Word} {m' : Space}
    (ht : a.task t = some m) (hu : a.task u = some m') (hpage : page < 1024) :
    ∃ m'', (a.setTask u (some (m'.setPage page frame))).task t = some m'' ∧
      ∀ va : Word, 0x400000 ≤ va.toNat → m'' va = m va := by
  rw [Maps.setTask_task]
  by_cases heq : t = u
  · subst heq
    obtain rfl := Option.some.inj (ht.symm.trans hu)
    exact ⟨_, if_pos rfl, fun va hva => setPage_high hpage hva⟩
  · exact ⟨m, (if_neg heq).trans ht, fun _ _ => rfl⟩

theorem task_step (ht : a.task t = some m) (hstep : (maps ι).step a call a')
    (hlive : call ≠ .delete t) :
    ∃ m', a'.task t = some m' ∧ ∀ va : Word, 0x400000 ≤ va.toNat → m' va = m va := by
  have hpte : ∀ linearAddr, pteIndex linearAddr < 1024 := fun linearAddr => by
    rw [pteIndex_eq]
    omega
  have hsame : a'.task t = a.task t → ∃ m', a'.task t = some m' ∧
      ∀ va : Word, 0x400000 ≤ va.toNat → m' va = m va :=
    fun hsame => ⟨m, hsame.trans ht, fun _ _ => rfl⟩
  cases call with
  | exec u pt junk =>
    obtain ⟨hnone, rfl⟩ := hstep
    have hne : t ≠ u := by
      rintro rfl
      rw [ht] at hnone
      cases hnone
    exact hsame (by rw [Maps.setTask_task, if_neg hne])
  | alloc u linearAddr =>
    obtain ⟨m', hu, rfl | ⟨frame, -, rfl⟩⟩ := hstep
    · exact hsame rfl
    · exact setTask_upper ht hu (hpte linearAddr)
  | unbind u linearAddr =>
    obtain ⟨m', hu, rfl | rfl⟩ := hstep
    · exact hsame rfl
    · exact setTask_upper ht hu (hpte linearAddr)
  | delete u =>
    obtain rfl := hstep
    have hne : t ≠ u := by
      rintro rfl
      exact hlive rfl
    exact hsame (by rw [Maps.setTask_task, if_neg hne])
  | deleteKernelTask =>
    obtain rfl := hstep
    exact hsame rfl
  | pci rawValue pt =>
    obtain rfl := hstep
    refine hsame ?_
    split
    · rfl
    · rfl
  | heapStore u junk =>
    obtain rfl := hstep
    exact hsame rfl

theorem task_upper (ht : a.task t = some m) (htr : (maps ι).Trace a tr)
    (hlive : ∀ x ∈ tr, x.1 ≠ .delete t) :
    ∃ m', (final a tr).task t = some m' ∧ ∀ va : Word, 0x400000 ≤ va.toNat → m' va = m va := by
  induction tr generalizing a m with
  | nil => exact ⟨m, ht, fun _ _ => rfl⟩
  | cons x tr ih =>
    obtain ⟨m', ht', hsame⟩ := task_step ht htr.1 (hlive x List.mem_cons_self)
    obtain ⟨m'', ht'', hsame'⟩ := ih ht' htr.2 fun y hy => hlive y (List.mem_cons_of_mem x hy)
    exact ⟨m'', ht'', fun va hva => (hsame' va hva).trans (hsame va hva)⟩

end

namespace Spaces

variable {ι : Type u} [DecidableEq ι] {s : Spaces ι} {tr : List (SpaceCall ι × Spaces ι)}

omit [DecidableEq ι] in
theorem lastDevice_map {τ : Type v} {σ : Type w} (f : σ → τ) (device : Option Word)
    (tr : List (SpaceCall ι × σ)) :
    lastDevice device (tr.map (Prod.map id f)) = lastDevice device tr := by
  rw [lastDevice, lastDevice, List.foldl_map]
  rfl

omit [DecidableEq ι] in
theorem space_high {pd : PageDirectory} {va : Word} (hva : 0x400000 ≤ va.toNat) :
    s.space pd va = s.walk pd va :=
  if_neg fun h => Nat.not_lt.mpr hva h.2

/-- Above the 4 MB of a task, the kernel's directory maps the kernel and the device that
`alloc_pci_mem` was last called with, and the directory of a task the kernel and the device of
the last call before it was made: neither an earlier device nor a later one. -/
theorem spaces_upper (hs : (spaces ι).start s) (htr : (spaces ι).Trace s tr) :
    (∀ va : Word, 0x400000 ≤ va.toNat →
      (final s tr).walk (final s tr).mm.kernelPageDirectory va = upper (lastDevice none tr) va) ∧
    ∀ tr₁ t pt junk s₁ tr₂, tr = tr₁ ++ (.exec t pt junk, s₁) :: tr₂ →
      (∀ x ∈ tr₂, x.1 ≠ .delete t) → ∃ sp, (final s tr).task t = some sp ∧
        ∀ va : Word, 0x400000 ≤ va.toNat →
          (final s tr).walk sp.pageDir va = upper (lastDevice none tr₁) va := by
  have hkernel : ∀ {tr : List (SpaceCall ι × Spaces ι)},
      (maps ι).Trace (abs s) (tr.map (Prod.map id abs)) →
      (abs (final s tr)).kernel = upper (lastDevice none tr) := by
    intro tr htr
    have h := kernel_upper ((abs_start hs).1.trans upper_none.symm) htr
    rwa [final_map, lastDevice_map] at h
  have habs := trace_abs hs htr
  refine ⟨fun va hva => ?_, ?_⟩
  · rw [← space_high hva, ← hkernel habs]
    rfl
  · rintro tr₁ t pt junk s₁ tr₂ rfl hlive
    rw [List.map_append, List.map_cons] at habs
    obtain ⟨htr₁, ⟨-, hexec⟩, htr₂⟩ := habs.of_append
    have hcreated : (abs s₁).task t = some (upper (lastDevice none tr₁)) := by
      rw [show abs s₁ = _ from hexec, Maps.setTask_task, if_pos rfl, final_map, hkernel htr₁]
    have hlive' : ∀ x ∈ tr₂.map (Prod.map id abs), x.1 ≠ .delete t := by
      intro x hx
      obtain ⟨y, hy, rfl⟩ := List.mem_map.mp hx
      exact hlive y hy
    obtain ⟨m, hm, hsame⟩ := task_upper hcreated htr₂ hlive'
    rw [final_map, abs_task] at hm
    obtain ⟨sp, hsp, rfl⟩ := Option.map_eq_some_iff.mp hm
    rw [final_append]
    exact ⟨sp, hsp, fun va hva => (space_high hva).symm.trans (hsame va hva)⟩

/-- The kernel sees the device that was bound last, and the task made before does not. -/
theorem spaces_upper_device :
    (final (linearSpaces Bool) deviceRun).walk
        (final (linearSpaces Bool) deviceRun).mm.kernelPageDirectory 0xC2001004 =
      some 0xFEB00004 ∧
    ∃ sp, (final (linearSpaces Bool) deviceRun).task true = some sp ∧
      (final (linearSpaces Bool) deviceRun).walk sp.pageDir 0xC2001004 = none := by
  obtain ⟨hkernel, htask⟩ := spaces_upper (linearSpaces_start Bool) deviceRun_trace
  obtain ⟨sp, hsp, hwalk⟩ := htask [] true _ _ _ _ rfl (by
    rintro x hx hdelete
    obtain rfl := List.mem_singleton.mp hx
    cases hdelete)
  exact ⟨(hkernel 0xC2001004 (by decide)).trans (by decide), sp, hsp,
    (hwalk 0xC2001004 (by decide)).trans (by decide)⟩

end Spaces

end RubiKernel.Mmu
