import RubiKernel.Lib.Stack
import RubiKernel.Scheduler.Safety

/-! The mailbox of a task is a stack: `ksend` pushes and `krecive` pops, and no
interleaving of the two loses a message or leaves the bounds of `msg_buff`. -/

namespace RubiKernel.Scheduler

open Lts Memory Stack

/-- The messages that the task at `t` has accepted and received since its creation,
from the effects so far. -/
def history (t : Word) : List Effect → List (Op Message)
  | [] => []
  | .create u :: log => if u = t then [] else history t log
  | .delete _ _ :: log => history t log
  | .accept u _ m :: log => if u = t then .push m :: history t log else history t log
  | .receive u _ m :: log => if u = t then .pop m :: history t log else history t log

/-- The accesses to `msg_buff` are within its bounds. -/
def Effect.InRange : Effect → Prop
  | .accept _ i _ => 0 ≤ i ∧ i < taskMsgBuffSize
  | .receive _ i _ => 0 ≤ i ∧ i < taskMsgBuffSize
  | _ => True

/-- A task that can be woken by a message has called `krecive` and has none; once
it has been woken there is one to receive. -/
def Waits (t : Word) (x : Task) (receiving : Option Word) : Prop :=
  receiving = none ∧ x.status ≠ taskInterruptable ∨
    receiving = some t ∧ (x.status = taskInterruptable ∧ x.msgCountIn = 0 ∨
      x.status = taskRunning ∧ 0 < x.msgCountIn)

structure MailboxOk (log : List Effect) (t : Word) (x : Task) (receiving : Option Word) : Prop where
  holds : Holds x.msgBuff x.msgCountIn (contents (history t log))
  room : x.msgCountIn ≤ taskMsgBuffSize
  waits : Waits t x receiving

structure MailInv (s : Sys) : Prop where
  mailbox : ∀ t ∈ s.kernel.taskList.members,
    MailboxOk s.kernel.log t (s.kernel.tasks t) (s.receiving t)
  lifo : ∀ t, Lifo (history t s.kernel.log)
  inRange : ∀ e ∈ s.kernel.log, e.InRange

variable {s t : Sys} {log log' : List Effect} {u v : Word} {x y : Task} {r : Option Word} {m : Message}

theorem MailboxOk.congr (h : MailboxOk log u x r) (hmail : mail y = mail x)
    (hhist : history u log' = history u log) : MailboxOk log' u y r := by
  obtain ⟨hstatus, hcount, hbuff⟩ : y.status = x.status ∧ y.msgCountIn = x.msgCountIn ∧
      y.msgBuff = x.msgBuff := by simpa [mail] using hmail
  refine ⟨?_, ?_, ?_⟩
  · rw [hhist, hcount, hbuff]
    exact h.holds
  · rw [hcount]
    exact h.room
  · rw [Waits, hstatus, hcount]
    exact h.waits

theorem MailboxOk.fresh (hhist : history u log = []) (hcount : x.msgCountIn = 0)
    (hstatus : x.status ≠ taskInterruptable) : MailboxOk log u x none := by
  refine ⟨?_, ?_, Or.inl ⟨rfl, hstatus⟩⟩
  · rw [hhist]
    exact hcount
  · rw [hcount]
    decide

theorem MailInv.change (h : MailInv s) (u : Word)
    (hmem : ∀ v ∈ t.kernel.taskList.members, v ≠ u → v ∈ s.kernel.taskList.members)
    (hmail : ∀ v, v ≠ u → mail (t.kernel.tasks v) = mail (s.kernel.tasks v))
    (hreceiving : ∀ v, v ≠ u → t.receiving v = s.receiving v)
    (hhist : ∀ v, v ≠ u → history v t.kernel.log = history v s.kernel.log)
    (hrange : ∀ e ∈ t.kernel.log, e.InRange)
    (hlifo : Lifo (history u t.kernel.log))
    (hu : u ∈ t.kernel.taskList.members →
      MailboxOk t.kernel.log u (t.kernel.tasks u) (t.receiving u)) : MailInv t := by
  refine ⟨fun v hv => ?_, fun v => ?_, hrange⟩
  · by_cases hvu : v = u
    · subst hvu
      exact hu hv
    · rw [hreceiving v hvu]
      exact (h.mailbox v (hmem v hv hvu)).congr (hmail v hvu) (hhist v hvu)
  · by_cases hvu : v = u
    · subst hvu
      exact hlifo
    · rw [hhist v hvu]
      exact h.lifo v

theorem MailInv.keep (h : MailInv s)
    (hmem : ∀ v ∈ t.kernel.taskList.members, v ∈ s.kernel.taskList.members)
    (hmail : ∀ v, mail (t.kernel.tasks v) = mail (s.kernel.tasks v))
    (hreceiving : t.receiving = s.receiving)
    (hhist : ∀ v, history v t.kernel.log = history v s.kernel.log)
    (hrange : ∀ e ∈ t.kernel.log, e.InRange) : MailInv t := by
  refine ⟨fun v hv => ?_, fun v => ?_, hrange⟩
  · rw [hreceiving]
    exact (h.mailbox v (hmem v hv)).congr (hmail v) (hhist v)
  · rw [hhist]
    exact h.lifo v

theorem MailInv.taskCreate {a : Spawn} (h : MailInv s) (hinv : Inv s) (hfresh : s.fresh a) :
    MailInv { s with
      kernel := Scheduler.taskCreate s.kernel a
      receiving := Function.update s.receiving a.slot none } := by
  obtain ⟨l, hring, -, -⟩ := hinv.ring
  rw [Sys.fresh, hring.members_eq] at hfresh
  obtain ⟨l', hring', hperm⟩ := taskCreate_ringOf hring hfresh
  have hhist : history a.slot (.create a.slot :: s.kernel.log) = [] := by simp [history]
  refine h.change a.slot ?_ ?_ ?_ ?_ ?_ ?_ ?_
  · intro v hv hne
    rw [hring'.members_eq, hperm.mem_iff, List.mem_cons] at hv
    rw [hring.members_eq]
    exact hv.resolve_left hne
  · intro v hne
    exact congrArg mail (taskCreate_tasks_of_ne hne)
  · intro v hne
    exact Function.update_of_ne hne ..
  · intro v hne
    simp [history, Ne.symm hne]
  · intro e he
    rcases List.mem_cons.mp he with rfl | he
    · trivial
    · exact h.inRange e he
  · rw [taskCreate_log, hhist]
    trivial
  · intro _
    simp only [Function.update_self]
    exact .fresh hhist taskCreate_msgCountIn (by rw [taskCreate_status]; decide)

theorem MailInv.setStatus (h : MailInv s) (u : Word) (status : BitVec 16)
    (hlist : t.kernel.taskList = s.kernel.taskList) (hlog : t.kernel.log = s.kernel.log)
    (htasks : ∀ v, mail (t.kernel.tasks v) =
      mail ((s.kernel.modifyTask u fun x => { x with status := status }).tasks v))
    (hreceiving : ∀ v, v ≠ u → t.receiving v = s.receiving v)
    (hwaits : u ∈ s.kernel.taskList.members →
      Waits u { s.kernel.tasks u with status := status } (t.receiving u)) : MailInv t := by
  refine h.change u ?_ ?_ hreceiving ?_ ?_ ?_ ?_
  · intro v hv _
    rwa [← hlist]
  · intro v hne
    rw [htasks, Kernel.modifyTask_tasks_of_ne _ _ hne]
  · intro v _
    rw [hlog]
  · rw [hlog]
    exact h.inRange
  · rw [hlog]
    exact h.lifo u
  · rw [hlist, hlog]
    intro hu
    have hbox := h.mailbox u hu
    have hu' : MailboxOk s.kernel.log u { s.kernel.tasks u with status := status } (t.receiving u) :=
      ⟨hbox.holds, hbox.room, hwaits hu⟩
    refine hu'.congr ?_ rfl
    rw [htasks, Kernel.modifyTask_tasks_self]

theorem MailInv.deliver (h : MailInv s) {task : Word} (hmem : task ∈ s.kernel.taskList.members)
    (hroom : (s.kernel.tasks task).msgCountIn ≠ taskMsgBuffSize) :
    MailInv { s with kernel := Scheduler.deliver s.kernel task m } := by
  have hbox := h.mailbox task hmem
  have hlen := hbox.holds.length_eq
  have hmax := hbox.room
  have hhist : history task (Scheduler.deliver s.kernel task m).log =
      .push m :: history task s.kernel.log := by simp [history]
  refine h.change task (fun v hv _ => hv) (fun v hne => ?_) (fun _ _ => rfl) (fun v hne => ?_) ?_ ?_
    fun _ => ?_
  · exact congrArg mail (deliver_tasks_of_ne _ _ _ hne)
  · simp [history, Ne.symm hne]
  · intro e he
    rw [deliver_log] at he
    rcases List.mem_cons.mp he with rfl | he
    · exact ⟨by omega, by omega⟩
    · exact h.inRange e he
  · rw [hhist]
    exact h.lifo task
  · rw [deliver_tasks_self]
    refine ⟨?_, ?_, ?_⟩
    · rw [hhist, contents_push]
      exact hbox.holds.push
    · show (s.kernel.tasks task).msgCountIn + 1 ≤ taskMsgBuffSize
      omega
    · rcases hbox.waits with ⟨hnone, hnot⟩ | ⟨hsome, ⟨hstatus, hzero⟩ | ⟨hstatus, hpos⟩⟩
      · exact Or.inl ⟨hnone, by simp [hnot]⟩
      · exact Or.inr ⟨hsome, Or.inr ⟨by simp [hstatus], by simp [hzero]⟩⟩
      · refine Or.inr ⟨hsome, Or.inr ⟨?_, ?_⟩⟩
        · rw [hstatus]
          rfl
        · show 0 < (s.kernel.tasks task).msgCountIn + 1
          omega

/-- The message received is the last one that was accepted and is not received yet. -/
theorem MailInv.takeMessage (h : MailInv s) {task : Word} {receiving : Word → Option Word}
    (hmem : task ∈ s.kernel.taskList.members) (hrunning : (s.kernel.tasks task).status = taskRunning)
    (hmsg : (s.kernel.tasks task).msgCountIn ≠ 0) (hself : receiving task = none)
    (hother : ∀ v, v ≠ task → receiving v = s.receiving v) :
    MailInv { s with kernel := Scheduler.takeMessage s.kernel task, receiving := receiving } := by
  have hbox := h.mailbox task hmem
  have hlen := hbox.holds.length_eq
  have hmax := hbox.room
  cases hcontents : contents (history task s.kernel.log) with
  | nil =>
    rw [hcontents] at hlen
    exact absurd hlen hmsg
  | cons m rest =>
    have hholds := hbox.holds
    rw [hcontents] at hlen hholds
    rw [List.length_cons] at hlen
    have hhist : history task (Scheduler.takeMessage s.kernel task).log =
        .pop m :: history task s.kernel.log := by simp [history, hholds.1]
    refine h.change task (fun v hv _ => hv) (fun v hne => ?_) hother (fun v hne => ?_) ?_ ?_
      fun _ => ?_
    · exact congrArg mail (takeMessage_tasks_of_ne _ _ hne)
    · simp [history, Ne.symm hne]
    · intro e he
      rw [takeMessage_log] at he
      rcases List.mem_cons.mp he with rfl | he
      · exact ⟨by omega, by omega⟩
      · exact h.inRange e he
    · rw [hhist]
      exact ⟨by rw [hcontents, List.head?_cons], h.lifo task⟩
    · rw [takeMessage_tasks_self]
      refine ⟨?_, ?_, Or.inl ⟨hself, ?_⟩⟩
      · rw [hhist, contents_pop, hcontents]
        exact hholds.2
      · show (s.kernel.tasks task).msgCountIn - 1 ≤ taskMsgBuffSize
        omega
      · rw [hrunning]
        decide

theorem spawn_msgCountIn {k : Kernel} {a : Spawn} : ((spawn k a).tasks a.slot).msgCountIn = 0 := by
  rw [spawn, Kernel.modifyTask_tasks_self, taskCreate_msgCountIn]

theorem MailInv.start (h : system.start s) : MailInv s := by
  obtain ⟨k, ifinity, dq, pcii, hk, hslots, rfl⟩ := h
  obtain ⟨l, hring, hperm⟩ := createKernelTasks_ringOf hk hslots
  have hlog : (started k ifinity dq pcii).kernel.log =
      [.create pcii.slot, .create dq.slot, .create ifinity.slot] := by
    simp [started, createKernelTasks, hk.log]
  have hhist : ∀ t, history t (started k ifinity dq pcii).kernel.log = [] := fun t => by
    simp [hlog, history]
  have htask : ∀ t ∈ [pcii.slot, dq.slot, ifinity.slot],
      ((createKernelTasks k ifinity dq pcii).tasks t).status = taskRunning ∧
        ((createKernelTasks k ifinity dq pcii).tasks t).msgCountIn = 0 := by
    have hdq : dq.slot ≠ pcii.slot := by grind
    have hifinity : ifinity.slot ≠ pcii.slot ∧ ifinity.slot ≠ dq.slot := by grind
    intro t ht
    rw [createKernelTasks]
    rcases List.mem_cons.mp ht with rfl | ht
    · exact ⟨spawn_status, spawn_msgCountIn⟩
    · rcases List.mem_cons.mp ht with rfl | ht
      · rw [spawn_tasks_of_ne hdq]
        exact ⟨spawn_status, spawn_msgCountIn⟩
      · rw [List.mem_singleton.mp ht, spawn_tasks_of_ne hifinity.1, spawn_tasks_of_ne hifinity.2]
        exact ⟨spawn_status, spawn_msgCountIn⟩
  refine ⟨fun t ht => ?_, fun t => ?_, ?_⟩
  · obtain ⟨hstatus, hcount⟩ := htask t (hperm.mem_iff.mp (hring.members_eq ▸ ht))
    refine .fresh (hhist t) hcount ?_
    show ((createKernelTasks k ifinity dq pcii).tasks t).status ≠ _
    rw [hstatus]
    decide
  · rw [hhist]
    trivial
  · rw [hlog]
    simp [Effect.InRange]

theorem MailInv.schedule (h : MailInv s) (hinv : Inv s) {mem : Memory} {retAddr regAddr : Word}
    {k : Kernel} {o : Outcome}
    (heq : schedSchedule { s.kernel with mem := mem } retAddr regAddr = some (k, o)) :
    MailInv { s with kernel := k, entering := false, outcome := o } := by
  obtain ⟨k', o', l, heq', hring, -, hentry⟩ := hinv.entry mem retAddr regAddr
  obtain ⟨rfl, rfl⟩ := Prod.mk.inj (Option.some.inj (heq'.symm.trans heq))
  rcases hentry.gone with ⟨hring', hlog⟩ | ⟨d, l', hring', hperm, -, hlog⟩
  · refine h.keep (fun v hv => ?_) hentry.mail rfl (fun v => by rw [hlog]) fun e he => ?_
    · rwa [hring.members_eq, ← hring'.members_eq]
    · exact h.inRange e (hlog ▸ he)
  · refine h.keep (fun v hv => ?_) hentry.mail rfl (fun v => by rw [hlog, history]) fun e he => ?_
    · rw [hring'.members_eq] at hv
      rw [hring.members_eq, hperm.mem_iff]
      exact List.mem_cons_of_mem _ hv
    · rw [hlog] at he
      rcases List.mem_cons.mp he with rfl | he
      · trivial
      · exact h.inRange e he

theorem MailInv.step {e : Event} (h : MailInv s) (hinv : Inv s) (hstep : system.step s e t) :
    MailInv t := by
  have hmail : ∀ status v, mail ((schedYield (s.kernel.modifyTask s.kernel.currentTask
      fun x => { x with status := status })).tasks v) =
        mail ((s.kernel.modifyTask s.kernel.currentTask
          fun x => { x with status := status }).tasks v) := fun status v => schedYield_mail ..
  cases hinv.step_cases hstep with
  | taskCreate a hfresh => exact h.taskCreate hinv hfresh
  | setRunning task hmem hstatus =>
    refine h.setStatus task taskRunning rfl rfl (fun _ => rfl) (fun _ _ => rfl) fun _ => ?_
    rcases (h.mailbox task hmem).waits with ⟨hnone, -⟩ | ⟨-, ⟨hnot, -⟩ | ⟨hnot, -⟩⟩
    · exact Or.inl ⟨hnone, (by decide : taskRunning ≠ taskInterruptable)⟩
    · exact absurd (hstatus.symm.trans hnot) (by decide)
    · exact absurd (hstatus.symm.trans hnot) (by decide)
  | schedule heq => exact h.schedule hinv heq
  | yield hfree =>
    exact h.keep (by simp) (schedYield_mail _) rfl (by simp) (by simpa using h.inRange)
  | exit hstop =>
    refine h.setStatus _ taskKilling (by simp) (by simp) (hmail _) (fun _ _ => rfl) fun _ => ?_
    exact Or.inl ⟨hstop.1.2, (by decide : taskKilling ≠ taskInterruptable)⟩
  | refused => exact h
  | sent tid msg task hmem htid hroom => exact h.deliver hmem hroom
  | blocked tid hstop hrunning hempty =>
    refine h.setStatus _ taskInterruptable (by simp) (by simp) (hmail _)
      (fun v hv => Function.update_of_ne hv ..) fun _ => ?_
    exact Or.inr ⟨by simp, Or.inl ⟨rfl, hempty⟩⟩
  | received tid hstop hrunning hmsg =>
    exact h.takeMessage (hinv.current_mem hstop.2.1) hrunning hmsg hstop.1.2 fun _ _ => rfl
  | resumed hne hreceiving hrunning =>
    have hmem := hinv.current_mem hne
    rcases (h.mailbox _ hmem).waits with ⟨hnone, -⟩ | ⟨-, ⟨hnot, -⟩ | ⟨-, hpos⟩⟩
    · exact absurd (hreceiving.symm.trans hnone) (by simp)
    · exact absurd (hrunning.symm.trans hnot) (by decide)
    · exact h.takeMessage hmem hrunning (by omega) (Function.update_self ..)
        fun v hv => Function.update_of_ne hv ..

theorem mailInv_of_reachable (h : system.Reachable s) : MailInv s :=
  (h.invariant (I := fun s => Inv s ∧ MailInv s) (fun _ hs => ⟨.start hs, .start hs⟩)
    fun _ _ _ hs hstep => ⟨hs.1.step hstep, hs.2.step hs.1 hstep⟩).2

/-- A `krecive` that has waited can go on: its assertions hold, and there is a message. -/
theorem krecive_resumes (h : system.Reachable s) (hentering : s.entering = false)
    (hne : s.kernel.currentTask ≠ 0) (hwaiting : s.receiving s.kernel.currentTask ≠ none) :
    0 < (s.kernel.tasks s.kernel.currentTask).msgCountIn ∧ ∃ t, system.step s .resume t := by
  have hinv := inv_of_reachable h
  have hrunning := (hinv.active hne).resolve_right fun hentering' =>
    absurd (hentering.symm.trans hentering'.1) (by decide)
  rcases ((mailInv_of_reachable h).mailbox _ (hinv.current_mem hne)).waits with
    ⟨hnone, -⟩ | ⟨hsome, ⟨hnot, -⟩ | ⟨-, hpos⟩⟩
  · exact absurd hnone hwaiting
  · exact absurd (hrunning.symm.trans hnot) (by decide)
  · refine ⟨hpos, { s with
      kernel := takeMessage s.kernel s.kernel.currentTask
      receiving := Function.update s.receiving s.kernel.currentTask none }, ?_⟩
    show exec s .resume = some _
    rw [exec, if_pos ⟨hentering, hne⟩, hsome, Option.bind_some, kreciveAfter,
      if_pos ⟨rfl, hrunning⟩, Option.map_some]

/-- The messages that `ksend` has put into the mailbox of `t`, the last one first. -/
def accepted (s : Sys) (t : Word) : List Message := pushed (history t s.kernel.log)

/-- The messages that `krecive` has given to `t`, the last one first. -/
def received (s : Sys) (t : Word) : List Message := popped (history t s.kernel.log)

end RubiKernel.Scheduler
