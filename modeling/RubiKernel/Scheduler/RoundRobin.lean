import RubiKernel.Lib.Rotation
import RubiKernel.Scheduler.Safety

/-! The tasks that can run take turns: while none is created, deleted or changes its
status, the scheduler goes round them in the order of the list. -/

namespace RubiKernel.Scheduler

open Lts Memory Rotation

def canRun (k : Kernel) (t : Word) : Bool := (k.tasks t).status = taskRunning

/-- The tasks that can run, in the order of the list from the current one on. -/
def runQueue (k : Kernel) : List Word :=
  (startingAt k.currentTask k.taskList.members).filter (canRun k)

def Event.enters : Event → Bool
  | .schedule .. => true
  | _ => false

/-- The current task has nothing left of its quota, or asks to be rescheduled. -/
def Reschedules (s : Sys) (e : Event) : Prop :=
  e.enters ∧ ¬continues ((countTick s.kernel).tasks s.kernel.currentTask)

/-- Between the entries into the scheduler, no task is created, deleted or changes its
status. -/
def Undisturbed (s : Sys) (e : Event) (t : Sys) : Prop :=
  e.enters ∨ t.kernel.taskList.members = s.kernel.taskList.members ∧
    ∀ u ∈ s.kernel.taskList.members, (t.kernel.tasks u).status = (s.kernel.tasks u).status

instance {s : Sys} {e : Event} : Decidable (Reschedules s e) :=
  inferInstanceAs (Decidable (_ ∧ _))

instance {s t : Sys} {e : Event} : Decidable (Undisturbed s e t) :=
  decidable_of_iff
    (e.enters ∨ t.kernel.taskList.members = s.kernel.taskList.members ∧
      s.kernel.taskList.members.all fun u => (t.kernel.tasks u).status = (s.kernel.tasks u).status)
    (by simp [Undisturbed])

/-- The tasks that the rescheduling entries of a run lead to. -/
def turns : Sys → List (Event × Sys) → List Word
  | _, [] => []
  | s, (e, t) :: tr => if Reschedules s e then t.kernel.currentTask :: turns t tr else turns t tr

def Sys.runsCurrent (s : Sys) : Prop :=
  let r := (s.kernel.tasks s.kernel.currentTask).opRegisters
  s.outcome = .switch r.uEsp r.cr3

/-- The current task can run and is not alone in that; nobody is to be killed. -/
structure Turning (s : Sys) : Prop where
  ring : ∃ l, s.kernel.taskList.RingOf l ∧ s.kernel.currentTask ∈ l
  current : (s.kernel.tasks s.kernel.currentTask).status = taskRunning
  statuses : ∀ t ∈ s.kernel.taskList.members, (s.kernel.tasks t).status ∈
    [taskRunning, taskUninterruptable, taskInterruptable]
  several : 2 ≤ (runQueue s.kernel).length

variable {s t : Sys} {e : Event} {tr : List (Event × Sys)} {k k' : Kernel} {l l₁ l₂ : List Word}
  {next : Word}

theorem canRun_congr (h : ∀ u, (k'.tasks u).status = (k.tasks u).status) : canRun k' = canRun k :=
  funext fun u => by rw [canRun, canRun, h]

theorem runQueue_of_ringOf (h : k.taskList.RingOf (l₁ ++ k.currentTask :: l₂)) :
    runQueue k = (k.currentTask :: (l₂ ++ l₁)).filter (canRun k) := by
  rw [runQueue, h.members_eq, startingAt_eq h.nodup List.isRotated_append]
  rfl

theorem reap_eq (h : k.taskList.RingOf l) (hcurrent : k.currentTask ∈ l)
    (hnone : ∀ t ∈ l, (k.tasks t).status ≠ taskKilling) : reap k = some k := by
  obtain ⟨k', hk', hreaped⟩ := reap_spec h (Or.inr hcurrent)
  cases hreaped with
  | nothing => exact hk'
  | task d hd hkilling => exact absurd hkilling (hnone d (h.members_eq ▸ hd))

/-- The scheduler turns to the first task after the current one that can run. -/
theorem schedNext_eq (h : k.taskList.RingOf (l₁ ++ k.currentTask :: l₂))
    (hnone : ∀ t ∈ l₁ ++ k.currentTask :: l₂, (k.tasks t).status ≠ taskKilling)
    (hnext : (l₂ ++ l₁).find? (canRun k) = some next) :
    schedNext k = some (switchTo k next) := by
  have hmem : next ∈ l₁ ++ k.currentTask :: l₂ := by
    have hmem := List.mem_of_find?_eq_some hnext
    simp only [List.mem_append, List.mem_cons] at hmem ⊢
    tauto
  have hchoose : chooseNext k = some next := by
    rw [chooseNext, if_pos (h.ne_zero (by simp)), taskFindByStatusFrom_eq h
      (List.ne_nil_of_mem (List.mem_of_find?_eq_some hnext))]
    exact congrArg (fun r => some (r.getD 0)) hnext
  rw [schedNext, hchoose, Option.bind_some, if_neg (h.ne_zero hmem), reap_eq h (by simp) hnone,
    Option.map_some]

theorem schedSchedule_eq {retAddr regAddr : Word}
    (hover : ¬continues ((countTick k).tasks k.currentTask)) :
    schedSchedule k retAddr regAddr = schedNext (suspend k retAddr regAddr) := by
  rw [schedSchedule, if_neg fun hc => hover hc.2]

theorem Turning.not_killing (h : Turning s) (ht : next ∈ s.kernel.taskList.members) :
    (s.kernel.tasks next).status ≠ taskKilling := by
  intro hkilling
  have hstatus := h.statuses next ht
  rw [hkilling] at hstatus
  exact absurd hstatus (by decide)

theorem Turning.split (h : Turning s) : ∃ l₁ l₂ next,
    s.kernel.taskList.RingOf (l₁ ++ s.kernel.currentTask :: l₂) ∧
      (l₂ ++ l₁).find? (canRun s.kernel) = some next := by
  obtain ⟨l, hring, hcurrent⟩ := h.ring
  obtain ⟨l₁, l₂, rfl⟩ := List.append_of_mem hcurrent
  have hseveral := h.several
  have hrun : canRun s.kernel s.kernel.currentTask = true := by simp [canRun, h.current]
  rw [runQueue_of_ringOf hring, List.filter_cons_of_pos hrun, List.length_cons] at hseveral
  cases hfind : (l₂ ++ l₁).find? (canRun s.kernel) with
  | some next => exact ⟨l₁, l₂, next, hring, hfind⟩
  | none =>
    have hnil : (l₂ ++ l₁).filter (canRun s.kernel) = [] :=
      List.filter_eq_nil_iff.mpr (List.find?_eq_none.mp hfind)
    rw [hnil] at hseveral
    exact absurd hseveral (by decide)

theorem Turning.keep (h : Turning s) (hlist : t.kernel.taskList = s.kernel.taskList)
    (hcurrent : t.kernel.currentTask = s.kernel.currentTask)
    (hstatus : ∀ u ∈ s.kernel.taskList.members,
      (t.kernel.tasks u).status = (s.kernel.tasks u).status) :
    Turning t ∧ runQueue t.kernel = runQueue s.kernel := by
  obtain ⟨l, hring, hmem⟩ := h.ring
  have hqueue : runQueue t.kernel = runQueue s.kernel := by
    rw [runQueue, runQueue, hlist, hcurrent]
    refine List.filter_congr fun u hu => ?_
    rw [startingAt, List.mem_rotate] at hu
    rw [canRun, canRun, hstatus u hu]
  refine ⟨⟨⟨l, by rwa [hlist], by rwa [hcurrent]⟩, ?_, fun u hu => ?_, hqueue ▸ h.several⟩, hqueue⟩
  · rw [hcurrent, hstatus _ (hring.members_eq ▸ hmem), h.current]
  · rw [hlist] at hu
    rw [hstatus u hu]
    exact h.statuses u hu

theorem Turning.head? (h : Turning s) : (runQueue s.kernel).head? = some s.kernel.currentTask := by
  obtain ⟨l₁, l₂, -, hring, -⟩ := h.split
  have hrun : canRun s.kernel s.kernel.currentTask = true := by simp [canRun, h.current]
  rw [runQueue_of_ringOf hring, List.filter_cons_of_pos hrun, List.head?_cons]

theorem Turning.nodup (h : Turning s) : (runQueue s.kernel).Nodup := by
  obtain ⟨l, hring, -⟩ := h.ring
  rw [runQueue, startingAt, hring.members_eq]
  exact (List.nodup_rotate.mpr hring.nodup).filter _

theorem Turning.turn {mem : Memory} {retAddr regAddr : Word} (h : Turning s)
    (hover : Reschedules s (.schedule mem retAddr regAddr)) :
    ∃ t, exec s (.schedule mem retAddr regAddr) = some t ∧ Turning t ∧
      runQueue t.kernel = (runQueue s.kernel).rotate 1 ∧ t.runsCurrent := by
  obtain ⟨l₁, l₂, next, hring, hnext⟩ := h.split
  generalize hk : suspend { s.kernel with mem := mem } retAddr regAddr = k
  have hlist : k.taskList = s.kernel.taskList := by rw [← hk, suspend_taskList]
  have hcurrent : k.currentTask = s.kernel.currentTask := by rw [← hk, suspend_currentTask]
  have hstatus : ∀ u, (k.tasks u).status = (s.kernel.tasks u).status := fun u => by
    rw [← hk]
    exact status_eq_of_mail (suspend_mail ..)
  have hswitched : ∀ u, ((switchTo k next).1.tasks u).status = (s.kernel.tasks u).status :=
    fun u => (status_eq_of_mail (switchTo_mail ..)).trans (hstatus u)
  have heq : schedNext k = some (switchTo k next) := by
    refine schedNext_eq (by rwa [hlist, hcurrent]) (fun u hu => ?_) (canRun_congr hstatus ▸ hnext)
    rw [hstatus]
    refine h.not_killing ?_
    rwa [hring.members_eq, ← hcurrent]
  have hsched : schedSchedule { s.kernel with mem := mem } retAddr regAddr =
      some (switchTo k next) := by
    rw [← heq, ← hk]
    exact schedSchedule_eq hover.2
  have hmem : next ∈ l₁ ++ s.kernel.currentTask :: l₂ := by
    have hmem := List.mem_of_find?_eq_some hnext
    simp only [List.mem_append, List.mem_cons] at hmem ⊢
    tauto
  have hqueue : runQueue (switchTo k next).1 = (runQueue s.kernel).rotate 1 := by
    rw [runQueue, runQueue, switchTo_taskList, switchTo_currentTask, canRun_congr hswitched, hlist,
      hring.members_eq]
    exact filter_startingAt_next hring.nodup (by simp [canRun, h.current]) hnext
  refine ⟨{ s with kernel := (switchTo k next).1, entering := false, outcome := (switchTo k next).2 },
    ?_, ⟨⟨_, hlist ▸ hring, hmem⟩, ?_, ?_, ?_⟩, hqueue, ?_⟩
  · exact congrArg (Option.map _) hsched
  · show ((switchTo k next).1.tasks next).status = _
    rw [hswitched]
    simpa [canRun] using List.find?_some hnext
  · intro u hu
    rw [hswitched]
    exact h.statuses u (hlist ▸ hu)
  · rw [hqueue, List.length_rotate]
    exact h.several
  · rw [Sys.runsCurrent, switchTo_currentTask]
    simp [switchTo]

theorem Turning.tick {mem : Memory} {retAddr regAddr : Word} (h : Turning s)
    (hcont : ¬Reschedules s (.schedule mem retAddr regAddr)) :
    ∃ t, exec s (.schedule mem retAddr regAddr) = some t ∧ Turning t ∧
      runQueue t.kernel = runQueue s.kernel := by
  obtain ⟨l, hring, hmem⟩ := h.ring
  have hquota : continues ((countTick s.kernel).tasks s.kernel.currentTask) := by
    by_contra hover
    exact hcont ⟨rfl, hover⟩
  refine ⟨{ s with
    kernel := countTick { s.kernel with mem := mem }, entering := false, outcome := .ret }, ?_,
    h.keep rfl rfl fun u _ => ?_⟩
  · rw [exec, schedSchedule, if_pos ⟨hring.ne_zero hmem, hquota⟩, Option.map_some]
  · rw [countTick, Kernel.modifyTask_tasks_field _ Task.status (by rfl)]

theorem Turning.other (h : Turning s) (hstep : system.step s e t) (hquiet : Undisturbed s e t)
    (hother : e.enters = false) : Turning t ∧ runQueue t.kernel = runQueue s.kernel := by
  obtain ⟨l, hring, hmem⟩ := h.ring
  obtain ⟨hmembers, hstatus⟩ := hquiet.resolve_left (by rw [hother]; decide)
  cases exec_cases hring (List.ne_nil_of_mem hmem) hstep with
  | taskCreate a hfresh =>
    rw [Sys.fresh, hring.members_eq] at hfresh
    obtain ⟨l', hring', hperm⟩ := taskCreate_ringOf hring hfresh
    have hlen := congrArg List.length hmembers
    rw [hring'.members_eq, hring.members_eq, hperm.length_eq, List.length_cons] at hlen
    omega
  | schedule => exact absurd hother (by simp [Event.enters])
  | setRunning => exact h.keep rfl rfl hstatus
  | yield => exact h.keep (by simp) (by simp) hstatus
  | exit => exact h.keep (by simp) (by simp) hstatus
  | refused => exact h.keep rfl rfl hstatus
  | sent => exact h.keep rfl rfl hstatus
  | blocked => exact h.keep (by simp) (by simp) hstatus
  | received => exact h.keep rfl rfl hstatus
  | resumed => exact h.keep rfl rfl hstatus

theorem Event.enters_iff :
    e.enters ↔ ∃ mem retAddr regAddr, e = .schedule mem retAddr regAddr := by
  cases e <;> simp [Event.enters]

theorem Turning.step (h : Turning s) (hstep : system.step s e t) (hquiet : Undisturbed s e t) :
    Turning t ∧
      (Reschedules s e → runQueue t.kernel = (runQueue s.kernel).rotate 1 ∧ t.runsCurrent) ∧
      (¬Reschedules s e → runQueue t.kernel = runQueue s.kernel) := by
  by_cases henters : e.enters
  · obtain ⟨mem, retAddr, regAddr, rfl⟩ := Event.enters_iff.mp henters
    by_cases hover : Reschedules s (.schedule mem retAddr regAddr)
    · obtain ⟨t', ht', hturning, hqueue⟩ := h.turn hover
      obtain rfl := Option.some.inj (ht'.symm.trans hstep)
      exact ⟨hturning, fun _ => hqueue, absurd hover⟩
    · obtain ⟨t', ht', hturning, hqueue⟩ := h.tick hover
      obtain rfl := Option.some.inj (ht'.symm.trans hstep)
      exact ⟨hturning, fun hresched => absurd hresched hover, fun _ => hqueue⟩
  · obtain ⟨hturning, hqueue⟩ := h.other hstep hquiet (by simpa using henters)
    exact ⟨hturning, fun hresched => absurd hresched.1 henters, fun _ => hqueue⟩

theorem Turning.final (h : Turning s) (htrace : system.Trace s tr) (hquiet : Every Undisturbed s tr) :
    Turning (final s tr) := by
  induction tr generalizing s with
  | nil => exact h
  | cons x tr ih => exact ih (h.step htrace.1 hquiet.1).1 htrace.2 hquiet.2

theorem Turning.follows (h : Turning s) (htrace : system.Trace s tr)
    (hquiet : Every Undisturbed s tr) : Follows (runQueue s.kernel) (turns s tr) := by
  induction tr generalizing s with
  | nil => trivial
  | cons x tr ih =>
    obtain ⟨e, t⟩ := x
    obtain ⟨hturning, hover, hcont⟩ := h.step htrace.1 hquiet.1
    have hih := ih hturning htrace.2 hquiet.2
    rw [turns]
    split
    · next hresched =>
      have hqueue := (hover hresched).1
      exact ⟨hqueue ▸ hturning.head?, hqueue ▸ hih⟩
    · next hnot => rwa [hcont hnot] at hih

/-- Whatever else happens meanwhile, each rescheduling entry runs the next of the tasks
that can run, and every entry ends. -/
theorem sched_schedule_round_robin (h : Turning s) (htrace : system.Trace s tr)
    (hquiet : Every Undisturbed s tr) :
    (runQueue s.kernel).Nodup ∧ (runQueue s.kernel).head? = some s.kernel.currentTask ∧
      InTurn (runQueue s.kernel) (turns s tr) ∧
      Every (fun u e t => Reschedules u e → t.runsCurrent) s tr ∧
      ∀ mem retAddr regAddr, ∃ t, system.step (final s tr) (.schedule mem retAddr regAddr) t := by
  refine ⟨h.nodup, h.head?, (h.follows htrace hquiet).inTurn h.nodup, ?_, ?_⟩
  · refine System.Trace.every_of_invariant (M := system.restrict Undisturbed) (I := Turning)
      ?_ ?_ h (htrace.restrict hquiet)
    · rintro _ _ _ hs ⟨hstep, hquiet⟩
      exact (hs.step hstep hquiet).1
    · rintro _ _ _ hs ⟨hstep, hquiet⟩ hresched
      exact ((hs.step hstep hquiet).2.1 hresched).2
  · intro mem retAddr regAddr
    have hend := h.final htrace hquiet
    by_cases hover : Reschedules (final s tr) (.schedule mem retAddr regAddr)
    · obtain ⟨t, ht, -⟩ := hend.turn hover
      exact ⟨t, ht⟩
    · obtain ⟨t, ht, -⟩ := hend.tick hover
      exact ⟨t, ht⟩

def oneRound : List Event :=
  (List.replicate 3 [.yield, .schedule (fun _ => 0) 0 0]).flatten

theorem sched_schedule_round_robin_example : ∃ s tr,
    runQueue s.kernel = [0xC1010000, 0xC1020000, 0xC1000000] ∧
      turns s tr = [0xC1020000, 0xC1000000, 0xC1010000] ∧
        InTurn (runQueue s.kernel) (turns s tr) := by
  have hstart : (exec zeroedSys (.schedule (fun _ => 0) 0 0)).any (fun s =>
      s.kernel.currentTask ≠ 0 ∧ (s.kernel.tasks s.kernel.currentTask).status = taskRunning ∧
        (s.kernel.taskList.members.all fun t => (s.kernel.tasks t).status ∈
          [taskRunning, taskUninterruptable, taskInterruptable]) ∧
        2 ≤ (runQueue s.kernel).length ∧
        runQueue s.kernel = [0xC1010000, 0xC1020000, 0xC1000000] ∧
        (replay exec s oneRound).any fun tr => Every Undisturbed s tr ∧
          turns s tr = [0xC1020000, 0xC1000000, 0xC1010000]) = true := by
    decide +kernel
  obtain ⟨s, hs, hfacts⟩ := (Option.any_eq_true ..).mp hstart
  obtain ⟨hne, hcurrent, hstatuses, hseveral, hqueue, hrun⟩ := of_decide_eq_true hfacts
  obtain ⟨tr, -, htrace, hquiet, hturns⟩ :=
    System.Trace.exists_of_replay (M := system) (fun _ _ _ h => h) hrun
  have hreachable : system.Reachable s := .step (.start zeroedSys_start) hs
  obtain ⟨l, hring, -, hmem⟩ := (inv_of_reachable hreachable).ring
  have hturning : Turning s :=
    ⟨⟨l, hring, hmem.resolve_left hne⟩, hcurrent, by simpa using hstatuses, hseveral⟩
  exact ⟨s, tr, hqueue, hturns, (sched_schedule_round_robin hturning htrace hquiet).2.2.1⟩

end RubiKernel.Scheduler
