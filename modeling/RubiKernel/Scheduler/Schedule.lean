import RubiKernel.Scheduler.Task

/-! `scheduler/schedule.c`: the change from one task to the next, and the messages
between tasks. -/

namespace RubiKernel.Scheduler

open Memory

/-- `memcpy(.., reg_addr, sizeof(struct gp_registers_t))` -/
def readGpRegisters (mem : Memory) (a : Word) : GpRegisters where
  edi := read32 mem a
  esi := read32 mem (a + 4)
  ebp := read32 mem (a + 8)
  esp := read32 mem (a + 12)
  ebx := read32 mem (a + 16)
  edx := read32 mem (a + 20)
  ecx := read32 mem (a + 24)
  eax := read32 mem (a + 28)

def writeGpRegisters (mem : Memory) (a : Word) (r : GpRegisters) : Memory :=
  let mem := write32 mem a r.edi
  let mem := write32 mem (a + 4) r.esi
  let mem := write32 mem (a + 8) r.ebp
  let mem := write32 mem (a + 12) r.esp
  let mem := write32 mem (a + 16) r.ebx
  let mem := write32 mem (a + 20) r.edx
  let mem := write32 mem (a + 24) r.ecx
  write32 mem (a + 28) r.eax

/-- How `sched_schedule` ends: it returns to the interrupt handler, or goes on in
`switch_kcontext(esp, cr3)`. -/
inductive Outcome
  | ret
  | switch (esp cr3 : Word)
  deriving DecidableEq

def countTick (k : Kernel) : Kernel :=
  k.modifyTask k.currentTask fun t => { t with time := t.time + 1 }

def continues (t : Task) : Prop := t.time < taskQuota ∧ t.reschedule = 0

instance {t : Task} : Decidable (continues t) := inferInstanceAs (Decidable (_ ∧ _))

def saveContext (mem : Memory) (retAddr regAddr : Word) (t : Task) : Task :=
  { t with
    time := 0
    reschedule := 0
    opRegisters :=
      { t.opRegisters with
        eip := read32 mem retAddr
        cs := read16 mem (retAddr + 4)
        uEsp := retAddr + 12 }
    flags := read32 mem (retAddr + 6) ||| 0x200
    gpRegisters := readGpRegisters mem regAddr }

def chooseNext (k : Kernel) : Option Word :=
  if k.currentTask ≠ 0 then taskFindByStatusFrom k k.currentTask taskRunning
  else taskFindByStatus k taskRunning

def reap (k : Kernel) : Option Kernel :=
  if k.currentTask ≠ 0 ∧ (k.tasks k.currentTask).status = taskKilling then
    some (taskDelete k k.currentTask)
  else
    (taskFindByStatus k taskKilling).map fun task =>
      if task ≠ 0 ∧ (k.tasks task).status = taskKilling then taskDelete k task else k

def pushContext (mem : Memory) (nextTask : Task) : Memory × Task :=
  let uEsp := nextTask.opRegisters.uEsp - 4
  let mem := write32 mem uEsp ((nextTask.flags.setWidth 16).setWidth 32 ||| 0x200)
  let uEsp := uEsp - 4
  let mem := write32 mem uEsp (nextTask.opRegisters.cs.setWidth 32)
  let uEsp := uEsp - 4
  let mem := write32 mem uEsp nextTask.opRegisters.eip
  let gpRegisters := { nextTask.gpRegisters with esp := uEsp }
  let uEsp := uEsp - 32
  let mem := writeGpRegisters mem uEsp gpRegisters
  (mem,
    { nextTask with
      gpRegisters := gpRegisters
      opRegisters := { nextTask.opRegisters with uEsp := uEsp } })

def switchTo (k : Kernel) (nextTask : Word) : Kernel × Outcome :=
  let r := pushContext k.mem (k.tasks nextTask)
  let k := k.modifyTask nextTask fun _ => r.2
  ({ k with mem := r.1, currentTask := nextTask },
    .switch r.2.opRegisters.uEsp r.2.opRegisters.cr3)

/-- `sched_schedule` after the part about the current task. `none` when a search
does not end. -/
def schedNext (k : Kernel) : Option (Kernel × Outcome) :=
  (chooseNext k).bind fun nextTask =>
    if nextTask = 0 then some (k, .ret) else (reap k).map fun k => switchTo k nextTask

/-- The part of `sched_schedule` about a current task whose quota is over. -/
def suspend (k : Kernel) (retAddr regAddr : Word) : Kernel :=
  if k.currentTask ≠ 0 then
    (countTick k).modifyTask k.currentTask (saveContext k.mem retAddr regAddr)
  else k

def schedSchedule (k : Kernel) (retAddr regAddr : Word) : Option (Kernel × Outcome) :=
  if k.currentTask ≠ 0 ∧ continues ((countTick k).tasks k.currentTask) then some (countTick k, .ret)
  else schedNext (suspend k retAddr regAddr)

/-- `sched_yield` up to its `int 0x20`. -/
def schedYield (k : Kernel) : Kernel :=
  if k.currentTask ≠ 0 then k.modifyTask k.currentTask fun t => { t with reschedule := 1 } else k

def deliver (k : Kernel) (task : Word) (msg : Message) : Kernel :=
  (k.note (.accept task (k.tasks task).msgCountIn msg)).modifyTask task fun t =>
    { t with
      msgBuff := Function.update t.msgBuff t.msgCountIn msg
      msgCountIn := t.msgCountIn + 1
      status := if t.status = taskInterruptable then taskRunning else t.status }

def ksend (k : Kernel) (tid : BitVec 16) (msg : Message) : Option Kernel :=
  (taskFindById k tid).map fun task =>
    if task = 0 ∨ (k.tasks task).msgCountIn = taskMsgBuffSize then k else deliver k task msg

def takeMessage (k : Kernel) (task : Word) : Kernel :=
  let index := (k.tasks task).msgCountIn - 1
  (k.note (.receive task index ((k.tasks task).msgBuff index))).modifyTask task fun t =>
    { t with msgCountIn := index }

/-- `krecive` up to the return of `sched_yield`, which it calls when the answer is
`true`; `none` when an assertion fails. -/
def kreciveBefore (k : Kernel) (tid : BitVec 16) : Option (Kernel × Bool) :=
  let taskBefore := k.currentTask
  let t := k.tasks taskBefore
  if tid = t.tid ∧ t.status = taskRunning then
    if t.msgCountIn = 0 then
      some (schedYield (k.modifyTask taskBefore fun t => { t with status := taskInterruptable }), true)
    else some (k, false)
  else none

/-- The rest of `krecive`, with its local variable `task_before`. -/
def kreciveAfter (k : Kernel) (taskBefore : Word) : Option Kernel :=
  let taskAfter := k.currentTask
  if taskAfter = taskBefore ∧ (k.tasks taskAfter).status = taskRunning then
    some (takeMessage k taskAfter)
  else none

/-- What the scheduler leaves alone in every task. -/
def mail (t : Task) : BitVec 16 × Int × (Int → Message) := (t.status, t.msgCountIn, t.msgBuff)

inductive Reaped (k : Kernel) : Kernel → Prop
  | nothing : Reaped k k
  | task (d : Word) (hd : d ∈ k.taskList.members) (hkilling : (k.tasks d).status = taskKilling) :
      Reaped k (taskDelete k d)

variable {k k' : Kernel} {l : List Word} {t next : Word}

section taskDelete

variable (k : Kernel) {d : Word}

theorem taskDelete_eq (hd : d ≠ 0) :
    taskDelete k d =
      { (k.note (.delete d (k.tasks d).status)).modifyTask d
          fun t => { t with kstack := 0, ustack := 0 } with
        taskList := k.taskList.clistDelete d } := by
  rw [taskDelete, if_neg hd]
  rfl

theorem taskDelete_field {β : Type*} (field : Task → β)
    (hf : ∀ x : Task, field { x with kstack := 0, ustack := 0 } = field x) (u : Word) :
    field ((taskDelete k d).tasks u) = field (k.tasks u) := by
  by_cases hd : d = 0
  · rw [taskDelete, if_pos hd]
  · have htasks : (taskDelete k d).tasks =
        (k.modifyTask d fun t => { t with kstack := 0, ustack := 0 }).tasks := by
      rw [taskDelete_eq k hd]
      rfl
    rw [htasks, k.modifyTask_tasks_field field (hf _)]

end taskDelete

theorem chooseNext_spec (h : k.taskList.RingOf l) (hcurrent : k.currentTask = 0 ∨ k.currentTask ∈ l) :
    ∃ r, chooseNext k = some r ∧
      (r = 0 ∧ (k.currentTask ≠ 0 → ∀ t ∈ l, t ≠ k.currentTask → (k.tasks t).status ≠ taskRunning) ∨
        r ∈ l ∧ (k.tasks r).status = taskRunning) := by
  rw [chooseNext]
  by_cases hzero : k.currentTask = 0
  · rw [if_neg (not_not_intro hzero)]
    obtain ⟨r, hr, hcases⟩ := taskFindByStatus_spec taskRunning h
    exact ⟨r, hr, hcases.imp_left fun hr => ⟨hr, fun hne => absurd hzero hne⟩⟩
  · rw [if_pos hzero]
    obtain ⟨r, hr, hcases⟩ := taskFindByStatusFrom_spec taskRunning h
      (hcurrent.resolve_left hzero)
    exact ⟨r, hr, hcases.imp (fun hr => ⟨hr.1, fun _ => hr.2⟩) fun hr => ⟨hr.1, hr.2.1⟩⟩

theorem reap_spec (h : k.taskList.RingOf l) (hcurrent : k.currentTask = 0 ∨ k.currentTask ∈ l) :
    ∃ k', reap k = some k' ∧ Reaped k k' := by
  rw [reap]
  split
  · next hc =>
    exact ⟨_, rfl, .task _ (h.members_eq ▸ hcurrent.resolve_left hc.1) hc.2⟩
  · obtain ⟨d, hd, hcases⟩ := taskFindByStatus_spec taskKilling h
    rw [hd, Option.map_some]
    refine ⟨_, rfl, ?_⟩
    split
    · next hc =>
      exact .task _ (h.members_eq ▸ (hcases.resolve_left hc.1).1) hc.2
    · exact .nothing

theorem Reaped.gone (hr : Reaped k k') (h : k.taskList.RingOf l) :
    k'.taskList.RingOf l ∧ k'.log = k.log ∨
      ∃ d l', k'.taskList.RingOf l' ∧ l.Perm (d :: l') ∧ (k.tasks d).status = taskKilling ∧
        k'.log = .delete d taskKilling :: k.log := by
  cases hr with
  | nothing => exact Or.inl ⟨h, rfl⟩
  | task d hd hkilling =>
    rw [h.members_eq] at hd
    obtain ⟨l', h', hperm⟩ := h.clistDelete hd
    rw [taskDelete_eq k (h.ne_zero hd)]
    exact Or.inr ⟨d, l', h', hperm, hkilling, by simp [hkilling]⟩

theorem Reaped.field {β : Type*} (hr : Reaped k k') (field : Task → β)
    (hf : ∀ x : Task, field { x with kstack := 0, ustack := 0 } = field x) (u : Word) :
    field (k'.tasks u) = field (k.tasks u) := by
  cases hr with
  | nothing => rfl
  | task d => exact taskDelete_field k field hf u

theorem schedNext_cases (h : k.taskList.RingOf l)
    (hcurrent : k.currentTask = 0 ∨ k.currentTask ∈ l) :
    schedNext k = some (k, .ret) ∧
        (k.currentTask ≠ 0 → ∀ t ∈ l, t ≠ k.currentTask → (k.tasks t).status ≠ taskRunning) ∨
      ∃ next k₁, schedNext k = some (switchTo k₁ next) ∧ Reaped k k₁ ∧ next ∈ l ∧
        (k.tasks next).status = taskRunning := by
  obtain ⟨r, hr, hcases⟩ := chooseNext_spec h hcurrent
  rcases hcases with ⟨rfl, hnone⟩ | ⟨hmem, hs⟩
  · exact Or.inl ⟨by simp [schedNext, hr], hnone⟩
  · obtain ⟨k₁, hk₁, hreaped⟩ := reap_spec h hcurrent
    have hne : r ≠ 0 := h.ne_zero hmem
    refine Or.inr ⟨r, k₁, ?_, hreaped, hmem, hs⟩
    rw [schedNext, hr, Option.bind_some, if_neg hne, hk₁, Option.map_some]

section

variable (k : Kernel) (next retAddr regAddr : Word)

@[simp] theorem switchTo_taskList : (switchTo k next).1.taskList = k.taskList := rfl

@[simp] theorem switchTo_currentTask : (switchTo k next).1.currentTask = next := rfl

@[simp] theorem switchTo_log : (switchTo k next).1.log = k.log := rfl

@[simp] theorem switchTo_mail (u : Word) :
    mail ((switchTo k next).1.tasks u) = mail (k.tasks u) := by
  show mail ((k.modifyTask next fun _ => (pushContext k.mem (k.tasks next)).2).tasks u) = _
  exact k.modifyTask_tasks_field mail rfl u

theorem switchTo_tasks_of_ne {u : Word} (h : u ≠ next) :
    (switchTo k next).1.tasks u = k.tasks u := by
  show (k.modifyTask next fun _ => (pushContext k.mem (k.tasks next)).2).tasks u = _
  exact k.modifyTask_tasks_of_ne _ h

theorem countTick_tasks_of_ne {u : Word} (h : u ≠ k.currentTask) :
    (countTick k).tasks u = k.tasks u := by
  rw [countTick, Kernel.modifyTask_tasks_of_ne _ _ h]

@[simp] theorem suspend_taskList : (suspend k retAddr regAddr).taskList = k.taskList := by
  rw [suspend]
  split <;> rfl

@[simp] theorem suspend_currentTask : (suspend k retAddr regAddr).currentTask = k.currentTask := by
  rw [suspend]
  split <;> rfl

@[simp] theorem suspend_log : (suspend k retAddr regAddr).log = k.log := by
  rw [suspend]
  split <;> rfl

@[simp] theorem suspend_mail (u : Word) :
    mail ((suspend k retAddr regAddr).tasks u) = mail (k.tasks u) := by
  rw [suspend]
  split
  · rw [Kernel.modifyTask_tasks_field _ mail (by rfl), countTick,
      Kernel.modifyTask_tasks_field _ mail (by rfl)]
  · rfl

end

theorem status_eq_of_mail {t u : Task} (h : mail t = mail u) : t.status = u.status :=
  congrArg Prod.fst h

theorem schedSchedule_cases (h : k.taskList.RingOf l)
    (hcurrent : k.currentTask = 0 ∨ k.currentTask ∈ l) (retAddr regAddr : Word) :
    k.currentTask ≠ 0 ∧ continues ((countTick k).tasks k.currentTask) ∧
        schedSchedule k retAddr regAddr = some (countTick k, .ret) ∨
      schedSchedule k retAddr regAddr = some (suspend k retAddr regAddr, .ret) ∧
        (k.currentTask ≠ 0 → ∀ t ∈ l, t ≠ k.currentTask → (k.tasks t).status ≠ taskRunning) ∨
      ∃ next k₁, schedSchedule k retAddr regAddr = some (switchTo k₁ next) ∧
        Reaped (suspend k retAddr regAddr) k₁ ∧ next ∈ l ∧ (k.tasks next).status = taskRunning := by
  rw [schedSchedule]
  split
  · next hc => exact Or.inl ⟨hc.1, hc.2, rfl⟩
  · have hstatus : ∀ t, ((suspend k retAddr regAddr).tasks t).status = (k.tasks t).status :=
      fun t => status_eq_of_mail (suspend_mail ..)
    have hcases := schedNext_cases (k := suspend k retAddr regAddr) (by rwa [suspend_taskList])
      (by rwa [suspend_currentTask])
    simp only [suspend_currentTask, hstatus] at hcases
    exact Or.inr hcases

/-- What an entry into the scheduler does to the list, the log and the mailboxes. -/
structure Entry (k : Kernel) (l : List Word) (k' : Kernel) (o : Outcome) : Prop where
  mail : ∀ t, mail (k'.tasks t) = mail (k.tasks t)
  gone : k'.taskList.RingOf l ∧ k'.log = k.log ∨
    ∃ d l', k'.taskList.RingOf l' ∧ l.Perm (d :: l') ∧ (k.tasks d).status = taskKilling ∧
      k'.log = .delete d taskKilling :: k.log
  ret : o = .ret → k'.currentTask = k.currentTask ∧ (k.currentTask ≠ 0 →
    (k.tasks k.currentTask).reschedule = 0 ∨
      ∀ t ∈ l, t ≠ k.currentTask → (k.tasks t).status ≠ taskRunning)
  switch : o ≠ .ret → k'.currentTask ∈ l ∧ (k.tasks k'.currentTask).status = taskRunning

theorem schedSchedule_spec (h : k.taskList.RingOf l)
    (hcurrent : k.currentTask = 0 ∨ k.currentTask ∈ l) (retAddr regAddr : Word) :
    ∃ k' o, schedSchedule k retAddr regAddr = some (k', o) ∧ Entry k l k' o := by
  rcases schedSchedule_cases h hcurrent retAddr regAddr with
    ⟨hne, hcont, heq⟩ | ⟨heq, hnone⟩ | ⟨next, k₁, heq, hreaped, hmem, hs⟩
  · refine ⟨_, _, heq, ?_, Or.inl ⟨h, rfl⟩, fun _ => ⟨rfl, fun _ => Or.inl ?_⟩, nofun⟩
    · exact Kernel.modifyTask_tasks_field k Scheduler.mail (by rfl)
    · simpa [countTick] using hcont.2
  · refine ⟨_, _, heq, suspend_mail k _ _, Or.inl ⟨?_, ?_⟩, fun _ => ⟨?_, fun hne => Or.inr ?_⟩, nofun⟩
    · rwa [suspend_taskList]
    · rw [suspend_log]
    · rw [suspend_currentTask]
    · exact hnone hne
  · refine ⟨(switchTo k₁ next).1, (switchTo k₁ next).2, heq, fun t => ?_, ?_, nofun,
      fun _ => ⟨hmem, hs⟩⟩
    · rw [switchTo_mail, hreaped.field Scheduler.mail (fun _ => rfl), suspend_mail]
    · have hgone := hreaped.gone (l := l) (by rwa [suspend_taskList])
      have hstatus : ∀ t, ((suspend k retAddr regAddr).tasks t).status = (k.tasks t).status :=
        fun t => status_eq_of_mail (suspend_mail ..)
      simpa only [switchTo_taskList, switchTo_log, suspend_log, hstatus] using hgone

theorem ksend_spec (tid : BitVec 16) (msg : Message) (h : k.taskList.RingOf l) (hne : l ≠ []) :
    ksend k tid msg = some k ∨
      ∃ t ∈ l, (k.tasks t).tid = tid ∧ (k.tasks t).msgCountIn ≠ taskMsgBuffSize ∧
        ksend k tid msg = some (deliver k t msg) := by
  rw [ksend, taskFindById_eq h hne, Option.map_some]
  cases hfind : l.find? fun t => (k.tasks t).tid = tid with
  | none => exact Or.inl (by simp)
  | some t =>
    have hmem := List.mem_of_find?_eq_some hfind
    have htid := List.find?_some hfind
    rw [Option.getD_some]
    split
    · exact Or.inl rfl
    · next hc =>
      exact Or.inr ⟨t, hmem, by simpa using htid, fun hfull => hc (Or.inr hfull), rfl⟩

theorem kreciveBefore_cases {tid : BitVec 16} {r : Kernel × Bool} (h : kreciveBefore k tid = some r) :
    (k.tasks k.currentTask).status = taskRunning ∧
      ((k.tasks k.currentTask).msgCountIn = 0 ∧
          r = (schedYield (k.modifyTask k.currentTask fun t => { t with status := taskInterruptable }),
            true) ∨
        (k.tasks k.currentTask).msgCountIn ≠ 0 ∧ r = (k, false)) := by
  rw [kreciveBefore] at h
  split at h
  · next hc =>
    refine ⟨hc.2, ?_⟩
    split at h
    · next hzero => exact Or.inl ⟨hzero, (Option.some.inj h).symm⟩
    · next hzero => exact Or.inr ⟨hzero, (Option.some.inj h).symm⟩
  · cases h

theorem kreciveAfter_cases {taskBefore : Word} (h : kreciveAfter k taskBefore = some k') :
    k.currentTask = taskBefore ∧ (k.tasks k.currentTask).status = taskRunning ∧
      k' = takeMessage k k.currentTask := by
  rw [kreciveAfter] at h
  split at h
  · next hc => exact ⟨hc.1, hc.2, (Option.some.inj h).symm⟩
  · cases h

section

variable (k : Kernel) (task : Word) (msg : Message)

@[simp] theorem schedYield_taskList : (schedYield k).taskList = k.taskList := by
  rw [schedYield]
  split <;> rfl

@[simp] theorem schedYield_currentTask : (schedYield k).currentTask = k.currentTask := by
  rw [schedYield]
  split <;> rfl

@[simp] theorem schedYield_log : (schedYield k).log = k.log := by
  rw [schedYield]
  split <;> rfl

theorem schedYield_field {β : Type*} (field : Task → β)
    (hf : ∀ x : Task, field { x with reschedule := 1 } = field x) (u : Word) :
    field ((schedYield k).tasks u) = field (k.tasks u) := by
  rw [schedYield]
  split
  · exact k.modifyTask_tasks_field field (hf _) u
  · rfl

@[simp] theorem schedYield_mail (u : Word) : mail ((schedYield k).tasks u) = mail (k.tasks u) :=
  schedYield_field k mail (fun _ => rfl) u

theorem schedYield_reschedule (h : k.currentTask ≠ 0) :
    ((schedYield k).tasks k.currentTask).reschedule = 1 := by
  rw [schedYield, if_pos h, Kernel.modifyTask_tasks_self]

@[simp] theorem deliver_taskList : (deliver k task msg).taskList = k.taskList := rfl

@[simp] theorem deliver_currentTask : (deliver k task msg).currentTask = k.currentTask := rfl

@[simp] theorem deliver_log :
    (deliver k task msg).log = .accept task (k.tasks task).msgCountIn msg :: k.log := rfl

theorem deliver_tasks_self :
    (deliver k task msg).tasks task =
      { k.tasks task with
        msgBuff := Function.update (k.tasks task).msgBuff (k.tasks task).msgCountIn msg
        msgCountIn := (k.tasks task).msgCountIn + 1
        status :=
          if (k.tasks task).status = taskInterruptable then taskRunning
          else (k.tasks task).status } := by
  rw [deliver, Kernel.modifyTask_tasks_self]
  rfl

theorem deliver_tasks_of_ne {u : Word} (h : u ≠ task) : (deliver k task msg).tasks u = k.tasks u :=
  Kernel.modifyTask_tasks_of_ne _ _ h

theorem deliver_running {u : Word} (h : (k.tasks u).status = taskRunning) :
    ((deliver k task msg).tasks u).status = taskRunning := by
  by_cases hu : u = task
  · subst hu
    simp [deliver_tasks_self, h, taskRunning, taskInterruptable]
  · rw [deliver_tasks_of_ne k task msg hu, h]

theorem deliver_field {β : Type*} (field : Task → β)
    (hf : ∀ (x : Task) buff n status,
      field { x with msgBuff := buff, msgCountIn := n, status := status } = field x) (u : Word) :
    field ((deliver k task msg).tasks u) = field (k.tasks u) := by
  rw [deliver, Kernel.modifyTask_tasks_field _ field (hf ..), Kernel.note_tasks]

@[simp] theorem takeMessage_taskList : (takeMessage k task).taskList = k.taskList := rfl

@[simp] theorem takeMessage_currentTask : (takeMessage k task).currentTask = k.currentTask := rfl

theorem takeMessage_tasks_self :
    (takeMessage k task).tasks task =
      { k.tasks task with msgCountIn := (k.tasks task).msgCountIn - 1 } := by
  rw [takeMessage, Kernel.modifyTask_tasks_self]
  rfl

@[simp] theorem takeMessage_log :
    (takeMessage k task).log =
      .receive task ((k.tasks task).msgCountIn - 1)
        ((k.tasks task).msgBuff ((k.tasks task).msgCountIn - 1)) :: k.log := rfl

theorem takeMessage_tasks_of_ne {u : Word} (h : u ≠ task) :
    (takeMessage k task).tasks u = k.tasks u := by
  rw [takeMessage, Kernel.modifyTask_tasks_of_ne _ _ h, Kernel.note_tasks]

theorem takeMessage_field {β : Type*} (field : Task → β)
    (hf : ∀ (x : Task) n, field { x with msgCountIn := n } = field x) (u : Word) :
    field ((takeMessage k task).tasks u) = field (k.tasks u) := by
  rw [takeMessage, Kernel.modifyTask_tasks_field _ field (hf ..), Kernel.note_tasks]

end

end RubiKernel.Scheduler
