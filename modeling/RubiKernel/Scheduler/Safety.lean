import RubiKernel.Scheduler.System

/-! The scheduler never runs a task that has ended or waits, and a task that stops
hands over: `ifinity` is always there to run. -/

namespace RubiKernel.Scheduler

open Lts Memory

/-- The tasks form a ring with the idle and the current task in it; the idle task can
run, and so can the current one unless it is about to leave for good. -/
structure Inv (s : Sys) : Prop where
  ring : ∃ l, s.kernel.taskList.RingOf l ∧ s.idle ∈ l ∧
    (s.kernel.currentTask = 0 ∨ s.kernel.currentTask ∈ l)
  idle : (s.kernel.tasks s.idle).status = taskRunning
  active : s.kernel.currentTask ≠ 0 →
    (s.kernel.tasks s.kernel.currentTask).status = taskRunning ∨
      s.entering = true ∧ (s.kernel.tasks s.kernel.currentTask).reschedule ≠ 0

variable {s t : Sys} {k k' : Kernel} {a : Spawn} {l : List Word}

theorem spawn_ringOf (h : k.taskList.RingOf l) (hfresh : a.slot ∉ 0 :: l) :
    ∃ l', (spawn k a).taskList.RingOf l' ∧ l'.Perm (a.slot :: l) :=
  taskCreate_ringOf h hfresh

theorem spawn_tasks_of_ne {u : Word} (h : u ≠ a.slot) : (spawn k a).tasks u = k.tasks u := by
  rw [spawn, Kernel.modifyTask_tasks_of_ne _ _ h, taskCreate_tasks_of_ne h]

@[simp] theorem spawn_status : ((spawn k a).tasks a.slot).status = taskRunning := by
  rw [spawn, Kernel.modifyTask_tasks_self]

@[simp] theorem spawn_currentTask : (spawn k a).currentTask = k.currentTask := rfl

@[simp] theorem spawn_log : (spawn k a).log = .create a.slot :: k.log := rfl

theorem createKernelTasks_ringOf {ifinity dq pcii : Spawn} (hk : Booted k)
    (hslots : (0 :: [ifinity.slot, dq.slot, pcii.slot]).Nodup) :
    ∃ l, (createKernelTasks k ifinity dq pcii).taskList.RingOf l ∧
      l.Perm [pcii.slot, dq.slot, ifinity.slot] := by
  obtain ⟨l₁, h₁, hperm₁⟩ := spawn_ringOf (a := ifinity) hk.taskList (by grind)
  obtain ⟨l₂, h₂, hperm₂⟩ := spawn_ringOf (a := dq) h₁ (by
    rw [List.mem_cons, hperm₁.mem_iff]
    grind)
  obtain ⟨l₃, h₃, hperm₃⟩ := spawn_ringOf (a := pcii) h₂ (by
    rw [List.mem_cons, hperm₂.mem_iff, List.mem_cons, hperm₁.mem_iff]
    grind)
  exact ⟨l₃, h₃, hperm₃.trans ((hperm₂.trans (hperm₁.cons _)).cons _)⟩

theorem Inv.start (h : system.start s) : Inv s := by
  obtain ⟨k, ifinity, dq, pcii, hk, hslots, rfl⟩ := h
  obtain ⟨l, hring, hperm⟩ := createKernelTasks_ringOf hk hslots
  have hcurrent : (createKernelTasks k ifinity dq pcii).currentTask = 0 := hk.currentTask
  refine ⟨⟨l, hring, hperm.mem_iff.mpr (by simp [started]), Or.inl hcurrent⟩, ?_,
    fun hne => absurd hcurrent hne⟩
  have hdq : ifinity.slot ≠ dq.slot := by grind
  have hpcii : ifinity.slot ≠ pcii.slot := by grind
  show ((createKernelTasks k ifinity dq pcii).tasks ifinity.slot).status = _
  rw [createKernelTasks, spawn_tasks_of_ne hpcii, spawn_tasks_of_ne hdq, spawn_status]

theorem Inv.current_mem (h : Inv s) (hne : s.kernel.currentTask ≠ 0) :
    s.kernel.currentTask ∈ s.kernel.taskList.members := by
  obtain ⟨l, hring, -, hcurrent⟩ := h.ring
  rw [hring.members_eq]
  exact hcurrent.resolve_left hne

theorem Inv.keep (h : Inv s) (hlist : t.kernel.taskList = s.kernel.taskList)
    (hcurrent : t.kernel.currentTask = s.kernel.currentTask) (hidle : t.idle = s.idle)
    (hstatus : (t.kernel.tasks s.idle).status = taskRunning)
    (hactive : s.kernel.currentTask ≠ 0 →
      (t.kernel.tasks s.kernel.currentTask).status = taskRunning ∨
        t.entering = true ∧ (t.kernel.tasks s.kernel.currentTask).reschedule ≠ 0) : Inv t := by
  refine ⟨?_, by rwa [hidle], by rwa [hcurrent]⟩
  rw [hlist, hcurrent, hidle]
  exact h.ring

theorem Inv.taskCreate (h : Inv s) (hfresh : s.fresh a) :
    Inv { s with
      kernel := Scheduler.taskCreate s.kernel a
      receiving := Function.update s.receiving a.slot none } := by
  obtain ⟨l, hring, hidle, hcurrent⟩ := h.ring
  rw [Sys.fresh, hring.members_eq] at hfresh
  obtain ⟨l', hring', hperm⟩ := taskCreate_ringOf hring hfresh
  have hold : ∀ t ∈ l, (Scheduler.taskCreate s.kernel a).tasks t = s.kernel.tasks t := fun t ht =>
    taskCreate_tasks_of_ne fun heq => hfresh (by simp [← heq, ht])
  have hmem : ∀ t ∈ l, t ∈ l' := fun t ht => hperm.mem_iff.mpr (by simp [ht])
  refine ⟨⟨l', hring', hmem _ hidle, hcurrent.imp_right (hmem _)⟩, ?_, fun hne => ?_⟩
  · simpa only [hold _ hidle] using h.idle
  · have hold := hold _ (hcurrent.resolve_left hne)
    simpa only [taskCreate_currentTask, hold] using h.active hne

theorem Inv.entry (h : Inv s) (mem : Memory) (retAddr regAddr : Word) :
    ∃ k' o l, schedSchedule { s.kernel with mem := mem } retAddr regAddr = some (k', o) ∧
      s.kernel.taskList.RingOf l ∧ s.idle ∈ l ∧ Entry { s.kernel with mem := mem } l k' o := by
  obtain ⟨l, hring, hidle, hcurrent⟩ := h.ring
  obtain ⟨k', o, heq, hentry⟩ := schedSchedule_spec (k := { s.kernel with mem := mem }) hring
    hcurrent retAddr regAddr
  exact ⟨k', o, l, heq, hring, hidle, hentry⟩

theorem Entry.leaves {mem : Memory} {o : Outcome} (h : Inv s)
    (hentry : Entry { s.kernel with mem := mem } l k' o) (hidle : s.idle ∈ l)
    (hne : s.kernel.currentTask ≠ 0)
    (hstatus : (s.kernel.tasks s.kernel.currentTask).status ≠ taskRunning)
    (hresched : (s.kernel.tasks s.kernel.currentTask).reschedule ≠ 0) : o ≠ .ret := by
  intro hret
  rcases (hentry.ret hret).2 hne with hzero | hnone
  · exact hresched hzero
  · refine hnone s.idle hidle ?_ h.idle
    rintro heq
    exact hstatus (heq ▸ h.idle)

theorem Inv.schedule (h : Inv s) {mem : Memory} {retAddr regAddr : Word} {k' : Kernel} {o : Outcome}
    (heq : schedSchedule { s.kernel with mem := mem } retAddr regAddr = some (k', o)) :
    Inv { s with kernel := k', entering := false, outcome := o } := by
  obtain ⟨k'', o', l, heq', hring, hidle, hentry⟩ := h.entry mem retAddr regAddr
  obtain ⟨rfl, rfl⟩ := Prod.mk.inj (Option.some.inj (heq'.symm.trans heq))
  have hstatus : ∀ t, (k''.tasks t).status = (s.kernel.tasks t).status :=
    fun t => status_eq_of_mail (hentry.mail t)
  have hrunning : k''.currentTask ≠ 0 →
      (s.kernel.tasks k''.currentTask).status = taskRunning := by
    intro hne
    by_cases hret : o' = .ret
    · obtain ⟨hcurrent, -⟩ := hentry.ret hret
      rw [hcurrent] at hne ⊢
      by_contra hnot
      exact hentry.leaves h hidle hne hnot ((h.active hne).resolve_left hnot).2 hret
    · exact (hentry.switch hret).2
  have hcurrent : k''.currentTask = 0 ∨ k''.currentTask ∈ l := by
    by_cases hret : o' = .ret
    · rw [(hentry.ret hret).1, ← hring.members_eq]
      obtain ⟨l', hring', -, hcurrent⟩ := h.ring
      exact hring'.members_eq ▸ hcurrent
    · exact Or.inr (hentry.switch hret).1
  refine ⟨?_, (hstatus _).trans h.idle, fun hne => Or.inl ((hstatus _).trans (hrunning hne))⟩
  rcases hentry.gone with ⟨hring', -⟩ | ⟨d, l', hring', hperm, hkilling, -⟩
  · exact ⟨l, hring', hidle, hcurrent⟩
  · have hstays : ∀ t ∈ l, (s.kernel.tasks t).status = taskRunning → t ∈ l' := fun t ht hs => by
      refine (List.mem_cons.mp (hperm.mem_iff.mp ht)).resolve_left ?_
      rintro rfl
      exact absurd (hs.symm.trans hkilling) (by decide)
    refine ⟨l', hring', hstays _ hidle h.idle, ?_⟩
    by_cases hzero : k''.currentTask = 0
    · exact Or.inl hzero
    · exact Or.inr (hstays _ (hcurrent.resolve_left hzero) (hrunning hzero))

theorem Inv.setRunning (h : Inv s) (task : Word) :
    Inv { s with kernel := s.kernel.modifyTask task fun t => { t with status := taskRunning } } := by
  have hstatus : ∀ u, (s.kernel.tasks u).status = taskRunning →
      ((s.kernel.modifyTask task fun t => { t with status := taskRunning }).tasks u).status =
        taskRunning := fun u hu => by
    by_cases hut : u = task
    · rw [hut, Kernel.modifyTask_tasks_self]
    · rw [Kernel.modifyTask_tasks_of_ne _ _ hut, hu]
  refine h.keep rfl rfl rfl (hstatus _ h.idle) fun hne => (h.active hne).imp (hstatus _) ?_
  exact And.imp_right fun hresched => by
    rwa [Kernel.modifyTask_tasks_field _ Task.reschedule (by rfl)]

theorem Inv.yield (h : Inv s) (hfree : s.atLarge) :
    Inv { s with kernel := schedYield s.kernel, entering := true } := by
  have hstatus : ∀ u, ((schedYield s.kernel).tasks u).status = (s.kernel.tasks u).status :=
    fun u => status_eq_of_mail (schedYield_mail ..)
  refine h.keep (by simp) (by simp) rfl ((hstatus _).trans h.idle) fun hne => Or.inl ?_
  refine (hstatus _).trans ((h.active hne).resolve_right fun hentering => ?_)
  exact absurd (hfree.1.symm.trans hentering.1) (by decide)

theorem Inv.stop (h : Inv s) (hstop : s.mayStop) (v : BitVec 16) (r : Word → Option Word) :
    Inv { s with
      kernel := schedYield (s.kernel.modifyTask s.kernel.currentTask fun t => { t with status := v })
      receiving := r
      entering := true } := by
  refine h.keep (by simp) (by simp) rfl ?_ fun hne => Or.inr ⟨rfl, ?_⟩
  · rw [status_eq_of_mail (schedYield_mail ..),
      Kernel.modifyTask_tasks_of_ne _ _ hstop.2.2.symm, h.idle]
  · have hone := schedYield_reschedule
      (s.kernel.modifyTask s.kernel.currentTask fun t => { t with status := v }) hne
    rw [Kernel.modifyTask_currentTask] at hone
    simp [hone]

theorem Inv.deliver (h : Inv s) (task : Word) (msg : Message) :
    Inv { s with kernel := Scheduler.deliver s.kernel task msg } :=
  h.keep rfl rfl rfl (deliver_running _ _ _ h.idle) fun hne =>
    (h.active hne).imp (deliver_running _ _ _)
      (And.imp_right fun hresched => by
        rwa [deliver_field _ _ _ Task.reschedule fun _ _ _ _ => rfl])

theorem Inv.takeMessage (h : Inv s) (task : Word) (r : Word → Option Word)
    (hrunning : (s.kernel.tasks s.kernel.currentTask).status = taskRunning) :
    Inv { s with kernel := Scheduler.takeMessage s.kernel task, receiving := r } := by
  have hstatus := takeMessage_field s.kernel task Task.status fun _ _ => rfl
  exact h.keep rfl rfl rfl ((hstatus _).trans h.idle) fun _ => Or.inl ((hstatus _).trans hrunning)

theorem Inv.step_cases {e : Event} (h : Inv s) (hstep : system.step s e t) : Step s e t := by
  obtain ⟨l, hring, hidle, -⟩ := h.ring
  exact exec_cases hring (List.ne_nil_of_mem hidle) hstep

theorem Inv.step {e : Event} (h : Inv s) (hstep : system.step s e t) : Inv t := by
  cases h.step_cases hstep with
  | taskCreate a hfresh => exact h.taskCreate hfresh
  | setRunning task => exact h.setRunning task
  | schedule heq => exact h.schedule heq
  | yield hfree => exact h.yield hfree
  | exit hstop => exact h.stop hstop taskKilling s.receiving
  | refused => exact h
  | sent tid msg task => exact h.deliver task msg
  | blocked tid hstop => exact h.stop hstop taskInterruptable _
  | received tid hstop hrunning => exact h.takeMessage _ s.receiving hrunning
  | resumed hne hreceiving hrunning => exact h.takeMessage _ _ hrunning

theorem inv_of_reachable (h : system.Reachable s) : Inv s :=
  h.invariant (fun _ => Inv.start) fun _ _ _ => Inv.step

/-- What an entry into the scheduler guarantees. -/
structure SafeEntry (k k' : Kernel) (o : Outcome) : Prop where
  /-- The task switched to is in the list, can run, and has not been deleted. -/
  running : o ≠ .ret → k'.currentTask ∈ k'.taskList.members ∧
    (k'.tasks k'.currentTask).status = taskRunning ∧
      ∀ v new, k'.log = new ++ k.log → .delete k'.currentTask v ∉ new
  /-- The tasks that have gone were deleted, and the deleted ones were to be killed. -/
  deleted : ∃ new, k'.log = new ++ k.log ∧
    (∀ t ∈ k.taskList.members, t ∉ k'.taskList.members → ∃ v, .delete t v ∈ new) ∧
      ∀ t v, .delete t v ∈ new → v = taskKilling ∧ (k.tasks t).status = taskKilling
  /-- A task that cannot run and asks to be rescheduled is left for another one. -/
  leaves : k.currentTask ≠ 0 → (k.tasks k.currentTask).status ≠ taskRunning →
    (k.tasks k.currentTask).reschedule ≠ 0 → o ≠ .ret ∧ k'.currentTask ≠ k.currentTask

/-- From every reachable state, `sched_schedule` ends and is safe. -/
theorem sched_schedule_safe (h : system.Reachable s) (mem : Memory) (retAddr regAddr : Word) :
    ∃ k' o, schedSchedule { s.kernel with mem := mem } retAddr regAddr = some (k', o) ∧
      SafeEntry s.kernel k' o := by
  have hinv := inv_of_reachable h
  obtain ⟨k', o, l, heq, hring, hidle, hentry⟩ := hinv.entry mem retAddr regAddr
  have hstatus : ∀ t, (k'.tasks t).status = (s.kernel.tasks t).status :=
    fun t => status_eq_of_mail (hentry.mail t)
  have hleaves : s.kernel.currentTask ≠ 0 →
      (s.kernel.tasks s.kernel.currentTask).status ≠ taskRunning →
      (s.kernel.tasks s.kernel.currentTask).reschedule ≠ 0 →
      o ≠ .ret ∧ k'.currentTask ≠ s.kernel.currentTask := by
    intro hne hnot hresched
    have hret := hentry.leaves hinv hidle hne hnot hresched
    refine ⟨hret, fun hsame => hnot ?_⟩
    rw [← hsame]
    exact (hentry.switch hret).2
  refine ⟨k', o, heq, ?_, ?_, hleaves⟩
  · intro hret
    obtain ⟨hmem, hrunning⟩ := hentry.switch hret
    refine ⟨?_, (hstatus _).trans hrunning, fun v new hlog hdelete => ?_⟩
    · rcases hentry.gone with ⟨hring', -⟩ | ⟨d, l', hring', hperm, hkilling, -⟩
      · rwa [hring'.members_eq]
      · rw [hring'.members_eq]
        refine (List.mem_cons.mp (hperm.mem_iff.mp hmem)).resolve_left ?_
        intro heq
        rw [heq] at hrunning
        exact absurd (hrunning.symm.trans hkilling) (by decide)
    · rcases hentry.gone with ⟨-, hlog'⟩ | ⟨d, l', -, -, hkilling, hlog'⟩
      · rw [hlog', List.self_eq_append_left] at hlog
        simp [hlog] at hdelete
      · rw [hlog'] at hlog
        obtain rfl : [.delete d taskKilling] = new := List.append_cancel_right hlog
        obtain ⟨rfl, -⟩ := Effect.delete.inj (List.mem_singleton.mp hdelete)
        exact absurd (hrunning.symm.trans hkilling) (by decide)
  · rcases hentry.gone with ⟨hring', hlog⟩ | ⟨d, l', hring', hperm, hkilling, hlog⟩
    · refine ⟨[], hlog, fun t ht hnot => ?_, fun t v hv => by simp at hv⟩
      rw [hring'.members_eq, ← hring.members_eq] at hnot
      exact absurd ht hnot
    · refine ⟨[.delete d taskKilling], hlog, fun t ht hnot => ⟨taskKilling, ?_⟩, fun t v hv => ?_⟩
      · rw [hring.members_eq, hperm.mem_iff, List.mem_cons] at ht
        rw [hring'.members_eq] at hnot
        rw [ht.resolve_right hnot]
        exact List.mem_singleton_self _
      · obtain ⟨rfl, rfl⟩ := Effect.delete.inj (List.mem_singleton.mp hv)
        exact ⟨rfl, hkilling⟩

/-- A fourth task is created, `dq` waits for a message, and `PCIi` exits. -/
def toExit : List Event :=
  [.taskCreate (kernelTask 0xC1030000), .setRunning 0xC1030000, .schedule (fun _ => 0) 0 0,
    .krecive 1, .schedule (fun _ => 0) 0 0, .exit]

/-- The entry that follows has a task to delete and one to pass over. -/
theorem sched_schedule_safe_example : ∃ s, system.Reachable s ∧
    (s.kernel.taskList.members.map fun t => (s.kernel.tasks t).status) =
      [taskRunning, taskInterruptable, taskKilling, taskRunning] ∧
    ∃ k' o, schedSchedule { s.kernel with mem := fun _ => 0 } 0 0 = some (k', o) ∧
      SafeEntry s.kernel k' o := by
  have hrun : (replay exec zeroedSys toExit).any (fun tr =>
      ((final zeroedSys tr).kernel.taskList.members.map fun t =>
          ((final zeroedSys tr).kernel.tasks t).status) =
        [taskRunning, taskInterruptable, taskKilling, taskRunning]) = true := by decide +kernel
  obtain ⟨tr, -, htrace, hstatuses⟩ :=
    System.Trace.exists_of_replay (M := system) (fun _ _ _ h => h) hrun
  have hs := htrace.final_reachable (.start zeroedSys_start)
  exact ⟨_, hs, hstatuses, sched_schedule_safe hs (fun _ => 0) 0 0⟩

end RubiKernel.Scheduler
