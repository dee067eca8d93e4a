import RubiKernel.Lib.Lts
import RubiKernel.Scheduler.Schedule

/-! The tasks of the kernel as a transition system: every interleaving of creations,
entries into the scheduler, and the system calls that yield, exit, send and receive. `ksend`,
and `krecive` from the return of `sched_yield` on, are one step each: no interrupt comes
between their statements. -/

namespace RubiKernel.Scheduler

open Lts Memory

/-- `task_create(..)->status = TASK_RUNNING` -/
def spawn (k : Kernel) (a : Spawn) : Kernel :=
  (taskCreate k a).modifyTask a.slot fun t => { t with status := taskRunning }

def createKernelTasks (k : Kernel) (ifinity dq pcii : Spawn) : Kernel :=
  spawn (spawn (spawn k ifinity) dq) pcii

/-- The kernel with its tasks' places in their own code: `idle` is the task
`ifinity`; `receiving t` is the local variable `task_before` of the call of `krecive`
that `t` has left for `sched_yield`; `entering` says that the current task is about
to execute `int 0x20`; and `outcome` is how the scheduler ended last. -/
structure Sys where
  kernel : Kernel
  idle : Word
  receiving : Word → Option Word
  entering : Bool
  outcome : Outcome

inductive Event
  | taskCreate (a : Spawn)
  /-- `->status = TASK_RUNNING` after `task_create`. -/
  | setRunning (task : Word)
  /-- `int_timer`, from the timer or from `sched_yield`; the tasks have left the
  memory `mem`. -/
  | schedule (mem : Memory) (retAddr regAddr : Word)
  | yield
  | exit
  | ksend (tid : BitVec 16) (msg : Message)
  | krecive (tid : BitVec 16)
  /-- `krecive` goes on after `sched_yield`. -/
  | resume

/-- The current task runs its own code, outside of `krecive` and `sched_yield`. -/
def Sys.atLarge (s : Sys) : Prop :=
  s.entering = false ∧ s.receiving s.kernel.currentTask = none

/-- It also is a task that may end or wait. -/
def Sys.mayStop (s : Sys) : Prop :=
  s.atLarge ∧ s.kernel.currentTask ≠ 0 ∧ s.kernel.currentTask ≠ s.idle

instance {s : Sys} : Decidable s.atLarge := inferInstanceAs (Decidable (_ ∧ _))

instance {s : Sys} : Decidable s.mayStop := inferInstanceAs (Decidable (_ ∧ _))

/-- The slot that `kmalloc` returns is not NULL and in no use. -/
def Sys.fresh (s : Sys) (a : Spawn) : Prop := a.slot ∉ 0 :: s.kernel.taskList.members

instance {s : Sys} {a : Spawn} : Decidable (s.fresh a) := inferInstanceAs (Decidable (_ ∉ _))

def exec (s : Sys) : Event → Option Sys
  | .taskCreate a =>
    if s.fresh a then
      some { s with
        kernel := taskCreate s.kernel a
        receiving := Function.update s.receiving a.slot none }
    else none
  | .setRunning task =>
    if task ∈ s.kernel.taskList.members ∧
        (s.kernel.tasks task).status = taskUninterruptable then
      some { s with kernel := s.kernel.modifyTask task fun t => { t with status := taskRunning } }
    else none
  | .schedule mem retAddr regAddr =>
    (schedSchedule { s.kernel with mem := mem } retAddr regAddr).map fun r =>
      { s with kernel := r.1, entering := false, outcome := r.2 }
  | .yield =>
    if s.atLarge then some { s with kernel := schedYield s.kernel, entering := true } else none
  | .exit =>
    if s.mayStop then
      let kernel := s.kernel.modifyTask s.kernel.currentTask fun t =>
        { t with status := taskKilling }
      some { s with kernel := schedYield kernel, entering := true }
    else none
  | .ksend tid msg => (ksend s.kernel tid msg).map fun k => { s with kernel := k }
  | .krecive tid =>
    if s.mayStop then
      let taskBefore := s.kernel.currentTask
      (kreciveBefore s.kernel tid).bind fun r =>
        if r.2 then
          some { s with
            kernel := r.1
            receiving := Function.update s.receiving taskBefore (some taskBefore)
            entering := true }
        else (kreciveAfter r.1 taskBefore).map fun k => { s with kernel := k }
    else none
  | .resume =>
    if s.entering = false ∧ s.kernel.currentTask ≠ 0 then
      (s.receiving s.kernel.currentTask).bind fun taskBefore =>
        (kreciveAfter s.kernel taskBefore).map fun k =>
          { s with
            kernel := k
            receiving := Function.update s.receiving s.kernel.currentTask none }
    else none

structure Booted (k : Kernel) : Prop where
  taskList : k.taskList.RingOf []
  currentTask : k.currentTask = 0
  log : k.log = []

/-- After `create_kernel_tasks`. -/
def started (k : Kernel) (ifinity dq pcii : Spawn) : Sys where
  kernel := createKernelTasks k ifinity dq pcii
  idle := ifinity.slot
  receiving := fun _ => none
  entering := false
  outcome := .ret

def system : System Sys Event where
  start s := ∃ k ifinity dq pcii, Booted k ∧ (0 :: [ifinity.slot, dq.slot, pcii.slot]).Nodup ∧
    s = started k ifinity dq pcii
  step s e t := exec s e = some t

def emptyKernel : Kernel where
  taskList := ⟨0, 0, 0, fun _ => ⟨0, 0⟩⟩
  tasks := fun _ => default
  currentTask := 0
  tidCounter := 0
  kernelPageDirectory := 0xC0300000
  kernelPageTable := 0xC0301000
  mem := fun _ => 0
  log := []

def kernelTask (slot : Word) : Spawn where
  startAddr := 0xC0100000
  taskMem := none
  slot := slot
  kstack := slot + 0x1000
  ustack := slot + 0x2000
  recycled := default
  eflags := 0x202

def zeroedSys : Sys :=
  started emptyKernel (kernelTask 0xC1000000) (kernelTask 0xC1010000) (kernelTask 0xC1020000)

theorem zeroedSys_start : system.start zeroedSys :=
  ⟨emptyKernel, _, _, _, ⟨⟨rfl, rfl, Or.inr ⟨rfl, rfl⟩, rfl, by simp, by simp⟩, rfl, rfl⟩,
    by decide, rfl⟩

inductive Step (s : Sys) : Event → Sys → Prop
  | taskCreate (a : Spawn) (hfresh : s.fresh a) :
    Step s (.taskCreate a) { s with
      kernel := taskCreate s.kernel a
      receiving := Function.update s.receiving a.slot none }
  | setRunning (task : Word) (hmem : task ∈ s.kernel.taskList.members)
      (hstatus : (s.kernel.tasks task).status = taskUninterruptable) :
    Step s (.setRunning task) { s with
      kernel := s.kernel.modifyTask task fun t => { t with status := taskRunning } }
  | schedule {mem : Memory} {retAddr regAddr : Word} {k : Kernel} {o : Outcome}
      (heq : schedSchedule { s.kernel with mem := mem } retAddr regAddr = some (k, o)) :
    Step s (.schedule mem retAddr regAddr) { s with kernel := k, entering := false, outcome := o }
  | yield (hfree : s.atLarge) :
    Step s .yield { s with kernel := schedYield s.kernel, entering := true }
  | exit (hstop : s.mayStop) :
    Step s .exit { s with
      kernel := schedYield
        (s.kernel.modifyTask s.kernel.currentTask fun t => { t with status := taskKilling })
      entering := true }
  | refused (tid : BitVec 16) (msg : Message) : Step s (.ksend tid msg) s
  | sent (tid : BitVec 16) (msg : Message) (task : Word) (hmem : task ∈ s.kernel.taskList.members)
      (htid : (s.kernel.tasks task).tid = tid)
      (hroom : (s.kernel.tasks task).msgCountIn ≠ taskMsgBuffSize) :
    Step s (.ksend tid msg) { s with kernel := deliver s.kernel task msg }
  | blocked (tid : BitVec 16) (hstop : s.mayStop)
      (hrunning : (s.kernel.tasks s.kernel.currentTask).status = taskRunning)
      (hempty : (s.kernel.tasks s.kernel.currentTask).msgCountIn = 0) :
    Step s (.krecive tid) { s with
      kernel := schedYield
        (s.kernel.modifyTask s.kernel.currentTask fun t => { t with status := taskInterruptable })
      receiving := Function.update s.receiving s.kernel.currentTask (some s.kernel.currentTask)
      entering := true }
  | received (tid : BitVec 16) (hstop : s.mayStop)
      (hrunning : (s.kernel.tasks s.kernel.currentTask).status = taskRunning)
      (hmsg : (s.kernel.tasks s.kernel.currentTask).msgCountIn ≠ 0) :
    Step s (.krecive tid) { s with kernel := takeMessage s.kernel s.kernel.currentTask }
  | resumed (hne : s.kernel.currentTask ≠ 0)
      (hreceiving : s.receiving s.kernel.currentTask = some s.kernel.currentTask)
      (hrunning : (s.kernel.tasks s.kernel.currentTask).status = taskRunning) :
    Step s .resume { s with
      kernel := takeMessage s.kernel s.kernel.currentTask
      receiving := Function.update s.receiving s.kernel.currentTask none }

theorem exec_cases {s t : Sys} {e : Event} {l : List Word} (hring : s.kernel.taskList.RingOf l)
    (hne : l ≠ []) (h : exec s e = some t) : Step s e t := by
  cases e with
  | taskCreate a =>
    obtain ⟨hfresh, heq⟩ := Option.ite_none_right_eq_some.mp h
    exact Option.some.inj heq ▸ .taskCreate a hfresh
  | setRunning task =>
    obtain ⟨⟨hmem, hstatus⟩, heq⟩ := Option.ite_none_right_eq_some.mp h
    exact Option.some.inj heq ▸ .setRunning task hmem hstatus
  | schedule mem retAddr regAddr =>
    obtain ⟨⟨k', o⟩, heq, rfl⟩ := Option.map_eq_some_iff.mp h
    exact .schedule heq
  | yield =>
    obtain ⟨hfree, heq⟩ := Option.ite_none_right_eq_some.mp h
    exact Option.some.inj heq ▸ .yield hfree
  | exit =>
    obtain ⟨hstop, heq⟩ := Option.ite_none_right_eq_some.mp h
    exact Option.some.inj heq ▸ .exit hstop
  | ksend tid msg =>
    obtain ⟨k', heq, rfl⟩ := Option.map_eq_some_iff.mp h
    rcases ksend_spec tid msg hring hne with
      hsame | ⟨task, hmem, htid, hroom, hdeliver⟩
    · obtain rfl := Option.some.inj (hsame.symm.trans heq)
      exact .refused tid msg
    · obtain rfl := Option.some.inj (hdeliver.symm.trans heq)
      exact .sent tid msg task (hring.members_eq ▸ hmem) htid hroom
  | krecive tid =>
    obtain ⟨hstop, heq⟩ := Option.ite_none_right_eq_some.mp h
    obtain ⟨r, hr, heq⟩ := Option.bind_eq_some_iff.mp heq
    obtain ⟨hrunning, ⟨hempty, rfl⟩ | ⟨hmsg, rfl⟩⟩ := kreciveBefore_cases hr
    · exact Option.some.inj heq ▸ .blocked tid hstop hrunning hempty
    · obtain ⟨k', hk', rfl⟩ := Option.map_eq_some_iff.mp heq
      obtain ⟨-, -, rfl⟩ := kreciveAfter_cases hk'
      exact .received tid hstop hrunning hmsg
  | resume =>
    obtain ⟨⟨-, hcurrent₀⟩, heq⟩ := Option.ite_none_right_eq_some.mp h
    obtain ⟨taskBefore, hbefore, heq⟩ := Option.bind_eq_some_iff.mp heq
    obtain ⟨k', hk', rfl⟩ := Option.map_eq_some_iff.mp heq
    obtain ⟨hcurrent, hrunning, rfl⟩ := kreciveAfter_cases hk'
    exact .resumed hcurrent₀ (by rw [hbefore, hcurrent]) hrunning

end RubiKernel.Scheduler
