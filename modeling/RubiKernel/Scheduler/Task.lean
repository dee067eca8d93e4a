import RubiKernel.Clist
import RubiKernel.Lib.Memory
import RubiKernel.Mmu.Defs

/-! `scheduler/task.c`: the tasks and the searches through their list. A pointer to a
task is the address of its slot in `task_list`. The stacks are blocks of the kernel
heap, which every page directory maps alike, so one memory serves all tasks. -/

namespace RubiKernel.Scheduler

open Cyclic Memory

def taskUninterruptable : BitVec 16 := 0

def taskRunning : BitVec 16 := 1

def taskKilling : BitVec 16 := 2

def taskInterruptable : BitVec 16 := 3

def taskKstackSize : Word := 1024

def taskUstackSize : Word := 4096 - 1024

def gdtKcodeSelector : BitVec 16 := 0x8 * 1

def gdtKdataSelector : BitVec 16 := 0x8 * 2

def gdtKstackSelector : BitVec 16 := 0x8 * 3

structure GpRegisters where
  edi : Word
  esi : Word
  ebp : Word
  esp : Word
  ebx : Word
  edx : Word
  ecx : Word
  eax : Word
  deriving DecidableEq

/-- `memset(.., 0, ..)` -/
instance : Inhabited GpRegisters := ⟨⟨0, 0, 0, 0, 0, 0, 0, 0⟩⟩

structure OpRegisters where
  eip : Word
  cr3 : Word
  kEsp : Word
  uEsp : Word
  cs : BitVec 16
  ds : BitVec 16
  ss : BitVec 16
  deriving DecidableEq

instance : Inhabited OpRegisters := ⟨⟨0, 0, 0, 0, 0, 0, 0⟩⟩

structure TaskMem where
  pages : Word
  pagesCount : Word
  pageDir : Word
  pageTable : Word
  deriving DecidableEq

instance : Inhabited TaskMem := ⟨⟨0, 0, 0, 0⟩⟩

structure Message where
  type : Byte
  len : Word
  data : Word
  deriving DecidableEq

instance : Inhabited Message := ⟨⟨0, 0, 0⟩⟩

/-- The fields of `task_t` after its `list_head`, up to its open files. `msgBuff` is
the memory from `msg_buff` on, in slots of a message. -/
structure Task where
  tid : BitVec 16
  gpRegisters : GpRegisters
  opRegisters : OpRegisters
  flags : Word
  time : Word
  reschedule : Byte
  status : BitVec 16
  kstack : Word
  ustack : Word
  taskMem : TaskMem
  msgCountIn : Int
  msgBuff : Int → Message

/-- What `memset(.., 0, ..)` leaves. -/
instance : Inhabited Task :=
  ⟨⟨0, default, default, 0, 0, 0, 0, 0, 0, default, 0, fun _ => default⟩⟩

/-- What the code did that a later step cannot undo. The integers are the indices
with which it accessed `msg_buff`. -/
inductive Effect
  | create (task : Word)
  | delete (task : Word) (status : BitVec 16)
  | accept (task : Word) (index : Int) (msg : Message)
  | receive (task : Word) (index : Int) (msg : Message)
  deriving DecidableEq

/-- The global data of the scheduler, with the tasks behind the pointers and the
memory of the stacks. `log` has the effects so far, the last one first. -/
structure Kernel where
  taskList : Clist
  tasks : Word → Task
  currentTask : Word
  tidCounter : Word
  kernelPageDirectory : Word
  kernelPageTable : Word
  mem : Memory
  log : List Effect

namespace Kernel

def modifyTask (k : Kernel) (t : Word) (f : Task → Task) : Kernel :=
  { k with tasks := Function.update k.tasks t (f (k.tasks t)) }

def note (k : Kernel) (e : Effect) : Kernel := { k with log := e :: k.log }

section

variable (k : Kernel) (t u : Word) (f : Task → Task) (e : Effect)

@[simp] theorem modifyTask_taskList : (k.modifyTask t f).taskList = k.taskList := rfl

@[simp] theorem modifyTask_currentTask : (k.modifyTask t f).currentTask = k.currentTask := rfl

@[simp] theorem modifyTask_mem : (k.modifyTask t f).mem = k.mem := rfl

@[simp] theorem modifyTask_log : (k.modifyTask t f).log = k.log := rfl

@[simp] theorem modifyTask_tasks_self : (k.modifyTask t f).tasks t = f (k.tasks t) :=
  Function.update_self ..

@[simp] theorem note_taskList : (k.note e).taskList = k.taskList := rfl

@[simp] theorem note_tasks : (k.note e).tasks = k.tasks := rfl

@[simp] theorem note_currentTask : (k.note e).currentTask = k.currentTask := rfl

@[simp] theorem note_mem : (k.note e).mem = k.mem := rfl

@[simp] theorem note_log : (k.note e).log = e :: k.log := rfl

end

theorem modifyTask_tasks_of_ne (k : Kernel) {t u : Word} (f : Task → Task) (h : u ≠ t) :
    (k.modifyTask t f).tasks u = k.tasks u :=
  Function.update_of_ne h ..

theorem modifyTask_tasks_field {β : Type*} (k : Kernel) {t : Word} {f : Task → Task}
    (field : Task → β) (hf : field (f (k.tasks t)) = field (k.tasks t)) (u : Word) :
    field ((k.modifyTask t f).tasks u) = field (k.tasks u) := by
  by_cases hut : u = t
  · rw [hut, modifyTask_tasks_self, hf]
  · rw [modifyTask_tasks_of_ne k f hut]

end Kernel

/-- What `task_create` is given and finds: its arguments, the slot and the stacks from
`kmalloc`, what the slot holds, and the flags of the processor. -/
structure Spawn where
  startAddr : Word
  taskMem : Option TaskMem
  slot : Word
  kstack : Word
  ustack : Word
  recycled : Task
  eflags : Word

def taskCreate (k : Kernel) (a : Spawn) : Kernel :=
  let found : Task :=
    if k.taskList.tail = 0 ∨ k.taskList.slots = 0 then default else a.recycled
  let taskMem := a.taskMem.getD
    { pages := 0
      pagesCount := 0
      pageDir := k.kernelPageDirectory
      pageTable := k.kernelPageTable }
  let task : Task :=
    { found with
      kstack := a.kstack
      ustack := a.ustack
      tid := k.tidCounter.setWidth 16
      status := taskUninterruptable
      msgCountIn := 0
      taskMem := taskMem
      flags := a.eflags ||| 0x200
      gpRegisters := default
      opRegisters :=
        { eip := a.startAddr
          cr3 := Mmu.phys taskMem.pageDir
          kEsp := a.kstack + taskKstackSize
          uEsp := a.ustack + taskUstackSize
          cs := gdtKcodeSelector
          ds := gdtKdataSelector
          ss := gdtKstackSelector } }
  { k with
    taskList := k.taskList.clistInsertAfter k.taskList.tail a.slot
    tasks := Function.update k.tasks a.slot task
    tidCounter := k.tidCounter + 1
    log := .create a.slot :: k.log }

/-- The part of `task_delete` that concerns the list of tasks; the task's stacks,
pages and tables are given back before. -/
def taskDelete (k : Kernel) (task : Word) : Kernel :=
  if task = 0 then k
  else
    let k := k.note (.delete task (k.tasks task).status)
    let k := k.modifyTask task fun t => { t with kstack := 0, ustack := 0 }
    { k with taskList := k.taskList.clistDelete task }

/-- `work->list_head.next->data` -/
def nextTask (k : Kernel) (task : Word) : Word := (k.taskList.node (k.taskList.next task)).data

/-- NULL is 0; `none` when the loop has not ended after a turn for each slot. -/
def taskFindByStatusFrom (k : Kernel) (start : Word) (status : BitVec 16) : Option Word :=
  if start = 0 then some 0
  else
    (search (nextTask k) (fun work => (k.tasks work).status = status)
      (fun work => work = start ∨ work = 0) k.taskList.slots.toNat (nextTask k start)).map (·.getD 0)

def taskFindByStatus (k : Kernel) (status : BitVec 16) : Option Word :=
  if k.taskList.head ≠ 0 then
    taskFindByStatusFrom k (k.taskList.node k.taskList.head).data status
  else some 0

def taskFindById (k : Kernel) (tid : BitVec 16) : Option Word :=
  let head := (k.taskList.node k.taskList.head).data
  (search (nextTask k) (fun start => (k.tasks start).tid = tid)
    (fun start => start = head ∨ start = 0) k.taskList.slots.toNat head).map (·.getD 0)

variable {k : Kernel} {l l₁ l₂ : List Word} {start : Word} {status : BitVec 16}

theorem path_nextTask (h : k.taskList.RingOf l) :
    Path (nextTask k) k.taskList.head l k.taskList.head :=
  h.path.congr fun _ hi => h.data _ (h.path.next_mem hi)

/-- A search from `start` looks at the other tasks first to last, and at `start`
only when it is alone. -/
theorem taskFindByStatusFrom_eq (h : k.taskList.RingOf (l₁ ++ start :: l₂))
    (hne : l₂ ++ l₁ ≠ []) :
    taskFindByStatusFrom k start status =
      some (((l₂ ++ l₁).find? fun t => (k.tasks t).status = status).getD 0) := by
  obtain ⟨i, rest, hrest⟩ := List.exists_cons_of_ne_nil hne
  have hpath := (path_nextTask h).after
  rw [hrest] at hpath
  have hmem : ∀ t ∈ rest, t ∈ l₂ ++ l₁ := fun t ht => by simp [hrest, ht]
  rw [taskFindByStatusFrom, if_neg (h.ne_zero (by simp)), hpath.search_eq (by simp) ?_ ?_, hrest]
  · rfl
  · intro t ht
    have ht := hmem t ht
    have hzero : t ≠ 0 := h.ne_zero (by simp only [List.mem_append, List.mem_cons] at ht ⊢; tauto)
    have hstart : t ≠ start := by
      rintro rfl
      have hnodup := h.nodup
      grind
    simpa using ⟨hstart, hzero⟩
  · have hlen := congrArg List.length hrest
    rw [h.slots]
    simp only [List.length_append, List.length_cons] at hlen ⊢
    omega

theorem taskFindByStatusFrom_alone (h : k.taskList.RingOf [start]) :
    taskFindByStatusFrom k start status =
      some (if (k.tasks start).status = status then start else 0) := by
  have hpath : Path (nextTask k) (nextTask k start) [start] start := by
    have hhead : k.taskList.head = start := h.head
    obtain ⟨-, hnext⟩ := path_cons.mp (path_nextTask h)
    rw [path_nil, hhead] at hnext
    exact ⟨hnext, hnext⟩
  rw [taskFindByStatusFrom, if_neg (h.ne_zero (by simp)),
    hpath.search_eq (by simp) (by simp) (by rw [h.slots]; simp)]
  by_cases hs : (k.tasks start).status = status <;> simp [hs]

theorem taskFindByStatusFrom_spec (status : BitVec 16) (h : k.taskList.RingOf l)
    (hstart : start ∈ l) :
    ∃ r, taskFindByStatusFrom k start status = some r ∧
      (r = 0 ∧ (∀ t ∈ l, t ≠ start → (k.tasks t).status ≠ status) ∨
        r ∈ l ∧ (k.tasks r).status = status ∧ (r = start → l = [start])) := by
  obtain ⟨l₁, l₂, rfl⟩ := List.append_of_mem hstart
  by_cases hne : l₂ ++ l₁ = []
  · obtain ⟨rfl, rfl⟩ := List.append_eq_nil_iff.mp hne
    refine ⟨_, taskFindByStatusFrom_alone h, ?_⟩
    split
    · next hs => exact Or.inr ⟨by simp, hs, fun _ => rfl⟩
    · exact Or.inl ⟨rfl, fun t ht hts => absurd (by simpa using ht) hts⟩
  · refine ⟨_, taskFindByStatusFrom_eq h hne, ?_⟩
    cases hfind : (l₂ ++ l₁).find? fun t => (k.tasks t).status = status with
    | none =>
      refine Or.inl ⟨rfl, fun t ht hts => ?_⟩
      have hnone := List.find?_eq_none.mp hfind t (by
        simp only [List.mem_append, List.mem_cons] at ht ⊢
        tauto)
      simpa using hnone
    | some r =>
      have hr := List.mem_of_find?_eq_some hfind
      have hs := List.find?_some hfind
      refine Or.inr ⟨?_, by simpa using hs, ?_⟩
      · simp only [Option.getD_some, List.mem_append, List.mem_cons] at hr ⊢
        tauto
      · rintro rfl
        have hnodup := h.nodup
        simp only [Option.getD_some] at hnodup
        grind

theorem taskFindByStatus_spec (status : BitVec 16) (h : k.taskList.RingOf l) :
    ∃ r, taskFindByStatus k status = some r ∧
      (r = 0 ∨ r ∈ l ∧ (k.tasks r).status = status) := by
  rw [taskFindByStatus]
  cases l with
  | nil =>
    have hhead : k.taskList.head = 0 := h.head
    exact ⟨0, by rw [hhead, if_neg (by simp)], Or.inl rfl⟩
  | cons t l =>
    have hhead : k.taskList.head = t := h.head
    have ht : t ∈ t :: l := by simp
    rw [hhead, if_pos (h.ne_zero ht), h.data t ht]
    obtain ⟨r, hr, hcases⟩ := taskFindByStatusFrom_spec status h ht
    exact ⟨r, hr, hcases.imp And.left fun hr => ⟨hr.1, hr.2.1⟩⟩

theorem taskFindById_eq {tid : BitVec 16} (h : k.taskList.RingOf l) (hne : l ≠ []) :
    taskFindById k tid = some ((l.find? fun t => (k.tasks t).tid = tid).getD 0) := by
  obtain ⟨t, l, rfl⟩ := List.exists_cons_of_ne_nil hne
  have hhead : k.taskList.head = t := h.head
  have hpath := path_nextTask h
  have hnodup := h.nodup
  rw [hhead] at hpath
  rw [taskFindById, hhead, h.data t (by simp), hpath.search_eq (by simp) ?_ ?_]
  · rfl
  · intro u hu
    have hut : u ≠ t := by
      rintro rfl
      exact (List.nodup_cons.mp hnodup).1 hu
    simpa using ⟨hut, h.ne_zero (List.mem_cons_of_mem _ hu)⟩
  · rw [h.slots]
    simp

section taskCreate

variable {a : Spawn}

theorem taskCreate_ringOf (h : k.taskList.RingOf l) (hfresh : a.slot ∉ 0 :: l) :
    ∃ l', (taskCreate k a).taskList.RingOf l' ∧ l'.Perm (a.slot :: l) :=
  h.clistInsertAfter_perm (h.tail.imp_right And.right) hfresh

theorem taskCreate_tasks_of_ne {t : Word} (h : t ≠ a.slot) :
    (taskCreate k a).tasks t = k.tasks t :=
  Function.update_of_ne h ..

@[simp] theorem taskCreate_status :
    ((taskCreate k a).tasks a.slot).status = taskUninterruptable := by
  simp [taskCreate]

@[simp] theorem taskCreate_msgCountIn : ((taskCreate k a).tasks a.slot).msgCountIn = 0 := by
  simp [taskCreate]

@[simp] theorem taskCreate_currentTask : (taskCreate k a).currentTask = k.currentTask := rfl

@[simp] theorem taskCreate_log : (taskCreate k a).log = .create a.slot :: k.log := rfl

end taskCreate

end RubiKernel.Scheduler
