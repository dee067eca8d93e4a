import RubiKernel.Scheduler.System

/-! The search for a task by its status. It begins behind the head of the list and ends when
it is there again, so that the head is looked at only when it is alone. -/

namespace RubiKernel.Scheduler

variable {k : Kernel} {l : List Word} {t : Word} {status : BitVec 16}

/-- A task with the status is returned when there is one, and NULL only when there is none. -/
def Complete (k : Kernel) (l : List Word) (status : BitVec 16) (r : Word) : Prop :=
  ((∃ t ∈ l, (k.tasks t).status = status) → r ∈ l ∧ (k.tasks r).status = status) ∧
    (r = 0 → ∀ t ∈ l, (k.tasks t).status ≠ status)

theorem complete_of_found {r : Word} (hmem : r ∈ l) (hzero : r ≠ 0)
    (hr : (k.tasks r).status = status) : Complete k l status r :=
  ⟨fun _ => ⟨hmem, hr⟩, fun h => absurd h hzero⟩

theorem complete_zero_iff :
    Complete k l status 0 ↔ ∀ t ∈ l, (k.tasks t).status ≠ status := by
  refine ⟨fun h => h.2 rfl, fun h => ⟨?_, fun _ => h⟩⟩
  rintro ⟨t, ht, hs⟩
  exact absurd hs (h t ht)

theorem taskFindByStatus_cons (h : k.taskList.RingOf (t :: l)) (hne : l ≠ []) :
    taskFindByStatus k status =
      some ((l.find? fun u => (k.tasks u).status = status).getD 0) := by
  have hhead : k.taskList.head = t := h.head
  have ht : t ∈ t :: l := List.mem_cons_self
  have hring : k.taskList.RingOf ([] ++ t :: l) := h
  have hrest : l ++ [] ≠ [] := by rwa [List.append_nil]
  rw [taskFindByStatus, hhead, if_pos (h.ne_zero ht), h.data t ht,
    taskFindByStatusFrom_eq hring hrest, List.append_nil]

theorem taskFindByStatus_singleton (h : k.taskList.RingOf [t]) :
    taskFindByStatus k status = some (if (k.tasks t).status = status then t else 0) := by
  have hhead : k.taskList.head = t := h.head
  have ht : t ∈ [t] := List.mem_singleton_self t
  rw [taskFindByStatus, hhead, if_pos (h.ne_zero ht), h.data t ht, taskFindByStatusFrom_alone h]

/-- The search ends, and is complete exactly when the head is alone, another task has the
status, or the head does not have it. -/
theorem task_find_by_status_iff (h : k.taskList.RingOf l) (hne : l ≠ []) (status : BitVec 16) :
    ∃ r, taskFindByStatus k status = some r ∧
      (Complete k l status r ↔ l.length = 1 ∨ (∃ t ∈ l.tail, (k.tasks t).status = status) ∨
        ∀ t ∈ l.head?, (k.tasks t).status ≠ status) := by
  obtain ⟨t, l, rfl⟩ := List.exists_cons_of_ne_nil hne
  by_cases hl : l = []
  · subst hl
    refine ⟨_, taskFindByStatus_singleton h, iff_of_true ?_ (.inl rfl)⟩
    split
    · next hs => exact complete_of_found List.mem_cons_self (h.ne_zero List.mem_cons_self) hs
    · next hs => exact complete_zero_iff.mpr (List.forall_mem_singleton.mpr hs)
  · refine ⟨_, taskFindByStatus_cons h hl, ?_⟩
    have hlen : (t :: l).length ≠ 1 := by simpa using hl
    rw [List.tail_cons, List.head?_cons, or_iff_right hlen]
    cases hfind : l.find? fun u => (k.tasks u).status = status with
    | none =>
      have hnone : ∀ u ∈ l, (k.tasks u).status ≠ status := fun u hu => by
        simpa using List.find?_eq_none.mp hfind u hu
      have htail : ¬∃ u ∈ l, (k.tasks u).status = status := fun ⟨u, hu, hs⟩ => hnone u hu hs
      rw [Option.getD_none, complete_zero_iff, List.forall_mem_cons, or_iff_right htail]
      simp only [Option.mem_some_iff, forall_eq', and_iff_left hnone]
    | some u =>
      have hu := List.mem_of_find?_eq_some hfind
      have hs : (k.tasks u).status = status := by simpa using List.find?_some hfind
      have hmem : u ∈ t :: l := List.mem_cons_of_mem t hu
      exact iff_of_true (complete_of_found hmem (h.ne_zero hmem) hs) (.inl ⟨u, hu, hs⟩)

def twoTasks : Kernel :=
  taskCreate (spawn emptyKernel (kernelTask 0xC1000000)) (kernelTask 0xC1010000)

theorem twoTasks_ringOf : twoTasks.taskList.RingOf [0xC1000000, 0xC1010000] where
  slots := by decide
  head := by decide
  tail := by decide
  path := ⟨by decide, by decide, show twoTasks.taskList.next _ = _ by decide⟩
  distinct := by decide
  data := List.forall_mem_cons.mpr ⟨by decide, List.forall_mem_singleton.mpr (by decide)⟩

theorem task_find_by_status_iff_example : ∃ r, taskFindByStatus twoTasks taskUninterruptable = some r ∧
    Complete twoTasks [0xC1000000, 0xC1010000] taskUninterruptable r := by
  obtain ⟨r, hr, hiff⟩ := task_find_by_status_iff twoTasks_ringOf (by simp) taskUninterruptable
  exact ⟨r, hr, hiff.mpr (.inr (.inl ⟨0xC1010000, by simp, by decide⟩))⟩

/-- The head is the only task that runs, and is not found. -/
theorem task_find_by_status_misses_head : ∃ k l, k.taskList.RingOf l ∧
    (∃ t ∈ l, (k.tasks t).status = taskRunning) ∧ taskFindByStatus k taskRunning = some 0 :=
  ⟨twoTasks, _, twoTasks_ringOf, ⟨0xC1000000, by simp, by decide⟩, by decide⟩

end RubiKernel.Scheduler
