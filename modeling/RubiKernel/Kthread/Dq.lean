import RubiKernel.Heap.Held
import RubiKernel.Lib.Stack
import RubiKernel.Scheduler.System
import RubiKernel.Tty.Line

/-! `kthread/dq.c`: the task that runs what interrupts defer, and who owns the payload
of their messages. `ksend` refuses a message without telling the sender, who then has a
block that nobody frees. The blocks are told apart by their slots: a block of another caller
may start at the address of a payload. -/

namespace RubiKernel.Kthread

open Heap Lts Memory Scheduler Stack Tty

def ipcMsgTypeDqSched : Byte := 0

def ipcMsgTypeDqTest : Byte := 1

/-- Where `dq_task` is in its loop: before `krecive`, in it after `sched_yield`, and
with its variable `msg` before `switch` and before `kfree(msg.data)`. -/
inductive DqStage
  | receiving
  | waiting
  | received (msg : Message)
  | handled (msg : Message)

/-- The message that the task has taken and not given back. -/
def DqStage.processing : DqStage → List Message
  | .received msg => [msg]
  | .handled msg => [msg]
  | _ => []

/-- `dq` is `ktasks[KERNEL_DQ_TASK_ID]`. The other tasks run while this one waits; that
they do is left out, and `current_task` is `dq` all along. -/
structure DqSys where
  driver : Driver
  heap : Kheap
  kernel : Kernel
  dq : Word
  stage : DqStage

/-- `tty_keyboard_ih_low` with its message; `ihHigh` is where `tty_keyboard_ih_high` is. -/
def keyPressed (b : InputBuff) (ihHigh : Word) (s : DqSys) (keycode : Byte) : Option DqSys :=
  let s := { s with driver := ttyKeyboardIhLow b s.driver keycode }
  if keyChar keycode = 0 then some s
  else
    (allocate s.heap 4).bind fun (heap, p) =>
      let kernel := { s.kernel with mem := write32 s.kernel.mem p ihHigh }
      (ksend kernel (kernel.tasks s.dq).tid ⟨ipcMsgTypeDqSched, 4, p⟩).map fun kernel =>
        { s with heap := heap, kernel := kernel }

def topMessage (k : Kernel) (task : Word) : Message :=
  (k.tasks task).msgBuff ((k.tasks task).msgCountIn - 1)

/-- The end of `syscall_krecv(&msg)`. -/
def finishReceive (s : DqSys) (k : Kernel) : Option DqSys :=
  (kreciveAfter k s.dq).map fun kernel =>
    { s with kernel := kernel, stage := .received (topMessage k s.dq) }

def receive (s : DqSys) : Option DqSys :=
  (kreciveBefore s.kernel (s.kernel.tasks s.kernel.currentTask).tid).bind fun (k, blocked) =>
    if blocked then some { s with kernel := k, stage := .waiting } else finishReceive s k

/-- The `switch` of `dq_task`. The one handler there is flushes the screen. -/
def handle (ihHigh : Word) (s : DqSys) (msg : Message) : Option DqSys :=
  if msg.type = ipcMsgTypeDqSched then
    if msg.len = 4 ∧ read32 s.kernel.mem msg.data = ihHigh then
      some { s with stage := .handled msg }
    else none
  else if msg.type = ipcMsgTypeDqTest ∧ msg.len = 2 then
    (allocate s.heap 4).bind fun (heap, p) =>
      let kernel := { s.kernel with mem := write32 s.kernel.mem p 1337 }
      (ksend kernel (read16 s.kernel.mem msg.data) ⟨111, 4, p⟩).map fun kernel =>
        { s with heap := heap, kernel := kernel, stage := .handled msg }
  else some { s with stage := .handled msg }

inductive DqEvent
  | key (keycode : Byte)
  | dq

def DqSys.exec (b : InputBuff) (ihHigh : Word) (s : DqSys) : DqEvent → Option DqSys
  | .key keycode => keyPressed b ihHigh s keycode
  | .dq =>
    match s.stage with
    | .receiving => receive s
    | .waiting => finishReceive s s.kernel
    | .received msg => handle ihHigh s msg
    | .handled msg =>
      (release s.heap msg.data).map fun heap => { s with heap := heap, stage := .receiving }

structure DqStarted (s : DqSys) : Prop where
  heap : Heap.heap.Reachable s.heap
  current : s.kernel.currentTask = s.dq
  found : s.dq ≠ 0 ∧ taskFindById s.kernel (s.kernel.tasks s.dq).tid = some s.dq
  empty : (s.kernel.tasks s.dq).msgCountIn = 0
  stage : s.stage = .receiving

def dqRuns (b : InputBuff) (ihHigh : Word) : System DqSys DqEvent where
  start := DqStarted
  step s e t := s.exec b ihHigh e = some t

def DqSys.mailbox (s : DqSys) : List Message :=
  (List.range (s.kernel.tasks s.dq).msgCountIn.toNat).map fun i : Nat =>
    (s.kernel.tasks s.dq).msgBuff i

def payloadEntry (msg : Message) : KheapEntry := ⟨msg.data, 4, true⟩

/-- The live blocks are `others`, each in its slot, and a payload for each message in the
mailbox and for the one in process. -/
structure Conserved (others : List (Nat × KheapEntry)) (s : DqSys) : Prop where
  count : (Heap.held s.heap).length =
    s.mailbox.length + s.stage.processing.length + others.length
  blocks : ∃ payloads : List (Nat × KheapEntry),
    (payloads.map Prod.snd).Perm ((s.mailbox ++ s.stage.processing).map payloadEntry) ∧
      (Heap.held s.heap).Perm (payloads ++ others)
  live : ∀ msg ∈ s.stage.processing, ∃ slot, (slot, payloadEntry msg) ∈ Heap.held s.heap

def DqStage.toFree : DqStage → Option Message
  | .handled msg => some msg
  | _ => none

/-- A key press that sends a message finds room in the mailbox, and `kfree(msg.data)` does
not come upon a block of `others`. -/
def Accepts (others : List (Nat × KheapEntry)) (s : DqSys) (e : DqEvent) (_ : DqSys) : Prop :=
  match e with
  | .key keycode => keyChar keycode ≠ 0 → (s.kernel.tasks s.dq).msgCountIn ≠ taskMsgBuffSize
  | .dq => ∀ msg ∈ s.stage.toFree, ∀ x ∈ firstAt s.heap msg.data, x ∉ others

instance {others : List (Nat × KheapEntry)} {s t : DqSys} :
    (e : DqEvent) → Decidable (Accepts others s e t)
  | .key _ => inferInstanceAs (Decidable (_ → _))
  | .dq => inferInstanceAs (Decidable (∀ msg ∈ s.stage.toFree, ∀ x ∈ firstAt _ _, x ∉ others))

variable {b : InputBuff} {ihHigh : Word} {s t : DqSys} {e : DqEvent} {k : Kernel} {heap : Kheap}
  {mem : Memory} {p w : Word} {msg : Message} {others : List (Nat × KheapEntry)}
  {keycode : Byte}

theorem taskFindById_congr {k' : Kernel} (hlist : k'.taskList = k.taskList)
    (htid : ∀ u, (k'.tasks u).tid = (k.tasks u).tid) : taskFindById k' = taskFindById k := by
  funext tid
  have hnext : nextTask k' = nextTask k := by
    funext u
    rw [nextTask, nextTask, hlist]
  simp only [taskFindById, hlist, htid, hnext]

/-- The steps of the system, as long as the mailbox has the messages of the interrupt. -/
inductive DqStep (b : InputBuff) (ihHigh : Word) (s : DqSys) : DqEvent → DqSys → Prop
  | quiet (keycode : Byte) (hch : keyChar keycode = 0) : DqStep b ihHigh s (.key keycode) s
  | sent (keycode : Byte) (hch : keyChar keycode ≠ 0) (heap : Kheap) (p : Word)
      (halloc : allocate s.heap 4 = some (heap, p))
      (hroom : (s.kernel.tasks s.dq).msgCountIn ≠ taskMsgBuffSize) :
    DqStep b ihHigh s (.key keycode)
      { s with
        driver := ttyKeyboardIhLow b s.driver keycode
        heap := heap
        kernel := deliver { s.kernel with mem := write32 s.kernel.mem p ihHigh } s.dq
          ⟨ipcMsgTypeDqSched, 4, p⟩ }
  | refused (keycode : Byte) (hch : keyChar keycode ≠ 0) (heap : Kheap) (p : Word)
      (halloc : allocate s.heap 4 = some (heap, p))
      (hfull : (s.kernel.tasks s.dq).msgCountIn = taskMsgBuffSize) :
    DqStep b ihHigh s (.key keycode)
      { s with
        driver := ttyKeyboardIhLow b s.driver keycode
        heap := heap
        kernel := { s.kernel with mem := write32 s.kernel.mem p ihHigh } }
  | blocked (hstage : s.stage = .receiving) (hempty : (s.kernel.tasks s.dq).msgCountIn = 0) :
    DqStep b ihHigh s .dq
      { s with
        kernel := schedYield
          (s.kernel.modifyTask s.dq fun t => { t with status := taskInterruptable })
        stage := .waiting }
  | received (hstage : s.stage = .receiving ∨ s.stage = .waiting)
      (hmsg : (s.kernel.tasks s.dq).msgCountIn ≠ 0) :
    DqStep b ihHigh s .dq
      { s with
        kernel := takeMessage s.kernel s.dq
        stage := .received (topMessage s.kernel s.dq) }
  | handled (msg : Message) (hstage : s.stage = .received msg) :
    DqStep b ihHigh s .dq { s with stage := .handled msg }
  | freed (msg : Message) (hstage : s.stage = .handled msg) (heap : Kheap)
      (hfree : release s.heap msg.data = some heap) :
    DqStep b ihHigh s .dq { s with heap := heap, stage := .receiving }

structure DqInv (others : List (Nat × KheapEntry)) (s : DqSys) : Prop extends Conserved others s where
  heap : HeapInv s.heap
  current : s.kernel.currentTask = s.dq
  found : s.dq ≠ 0 ∧ taskFindById s.kernel (s.kernel.tasks s.dq).tid = some s.dq
  waits : s.stage = .waiting → (s.kernel.tasks s.dq).status = taskInterruptable ∨
    (s.kernel.tasks s.dq).msgCountIn ≠ 0
  holds : ∃ msgs, Holds (s.kernel.tasks s.dq).msgBuff (s.kernel.tasks s.dq).msgCountIn msgs
  sched : ∀ msg ∈ s.mailbox ++ s.stage.processing, msg.type = ipcMsgTypeDqSched

theorem mailbox_eq {msgs : List Message}
    (h : Holds (s.kernel.tasks s.dq).msgBuff (s.kernel.tasks s.dq).msgCountIn msgs) :
    s.mailbox = msgs.reverse :=
  h.map_range

/-- A mailbox after `ksend`. -/
def post {α : Type*} (mailbox : List α) (msg : α) : List α :=
  if (mailbox.length : Int) = taskMsgBuffSize then mailbox else mailbox ++ [msg]

theorem ksend_found {k : Kernel} {dq : Word}
    (hfound : dq ≠ 0 ∧ taskFindById k (k.tasks dq).tid = some dq) (msg : Message) :
    ksend k (k.tasks dq).tid msg =
      some (if (k.tasks dq).msgCountIn = taskMsgBuffSize then k else deliver k dq msg) := by
  simp only [ksend, hfound.2, Option.map_some, hfound.1, false_or]

theorem holds_deliver {dq : Word} {msgs : List Message}
    (h : Holds (k.tasks dq).msgBuff (k.tasks dq).msgCountIn msgs) (msg : Message) :
    Holds ((deliver k dq msg).tasks dq).msgBuff ((deliver k dq msg).tasks dq).msgCountIn
      (msg :: msgs) := by
  rw [deliver_tasks_self]
  exact h.push

theorem ksend_mailbox {msgs : List Message}
    (hfound : s.dq ≠ 0 ∧ taskFindById s.kernel (s.kernel.tasks s.dq).tid = some s.dq)
    (h : Holds (s.kernel.tasks s.dq).msgBuff (s.kernel.tasks s.dq).msgCountIn msgs)
    (msg : Message) :
    ∃ k, ksend s.kernel (s.kernel.tasks s.dq).tid msg = some k ∧
      { s with kernel := k }.mailbox = post s.mailbox msg := by
  refine ⟨_, ksend_found hfound msg, ?_⟩
  have hlen : (s.mailbox.length : Int) = (s.kernel.tasks s.dq).msgCountIn := by
    rw [mailbox_eq h, List.length_reverse, h.length_eq]
  rw [post, hlen]
  split
  · rfl
  · rw [mailbox_eq h]
    exact (mailbox_eq (s := { s with kernel := deliver s.kernel s.dq msg })
      (holds_deliver h msg)).trans List.reverse_cons

theorem takeMessage_mailbox {msgs : List Message}
    (h : Holds (s.kernel.tasks s.dq).msgBuff (s.kernel.tasks s.dq).msgCountIn msgs)
    (hmsg : (s.kernel.tasks s.dq).msgCountIn ≠ 0) :
    { s with kernel := takeMessage s.kernel s.dq }.mailbox = s.mailbox.dropLast := by
  cases msgs with
  | nil => exact absurd h hmsg
  | cons top msgs =>
    have hrest : Holds ((takeMessage s.kernel s.dq).tasks s.dq).msgBuff
        ((takeMessage s.kernel s.dq).tasks s.dq).msgCountIn msgs := by
      rw [takeMessage_tasks_self]
      exact h.2
    rw [mailbox_eq h, List.reverse_cons, List.dropLast_concat]
    exact mailbox_eq (s := { s with kernel := takeMessage s.kernel s.dq }) hrest

/-- The live blocks are the payloads of `msgs` and `others`. -/
def Payloads (others : List (Nat × KheapEntry)) (h : Kheap) (msgs : List Message) : Prop :=
  ∃ payloads : List (Nat × KheapEntry),
    (payloads.map Prod.snd).Perm (msgs.map payloadEntry) ∧ (Heap.held h).Perm (payloads ++ others)

theorem Payloads.perm {h : Kheap} {msgs msgs' : List Message} (hpay : Payloads others h msgs)
    (hperm : msgs.Perm msgs') : Payloads others h msgs' := by
  obtain ⟨payloads, hentries, hheld⟩ := hpay
  exact ⟨payloads, hentries.trans (hperm.map _), hheld⟩

theorem Payloads.length_eq {h : Kheap} {msgs : List Message} (hpay : Payloads others h msgs) :
    (Heap.held h).length = msgs.length + others.length := by
  obtain ⟨payloads, hentries, hheld⟩ := hpay
  have hlen := hentries.length_eq
  rw [List.length_map, List.length_map] at hlen
  rw [hheld.length_eq, List.length_append, hlen]

theorem Payloads.allocate {h h' : Kheap} {msgs : List Message} (hpay : Payloads others h msgs)
    (hinv : HeapInv h) (halloc : Heap.allocate h 4 = some (h', p)) (type : Byte) (len : Word) :
    Payloads others h' (⟨type, len, p⟩ :: msgs) := by
  obtain ⟨payloads, hentries, hheld⟩ := hpay
  obtain ⟨-, slot, hnew⟩ := hinv.allocate_held halloc
  exact ⟨(slot, ⟨p, 4, true⟩) :: payloads, hentries.cons _, hnew.trans (hheld.cons _)⟩

theorem Payloads.release {h h' : Kheap} {msgs : List Message}
    (hpay : Payloads others h (msg :: msgs)) (hinv : HeapInv h)
    (hfree : Heap.release h msg.data = some h') :
    (∃ x ∈ firstAt h msg.data, x ∈ others ∧ x ∉ Heap.held h') ∨
      (∀ x ∈ firstAt h msg.data, x ∉ others) ∧ Payloads others h' msgs := by
  obtain ⟨payloads, hentries, hheld⟩ := hpay
  have hgone := (hinv.release_held hfree).2
  have hlive : payloadEntry msg ∈ payloads.map Prod.snd :=
    hentries.mem_iff.mpr (List.mem_cons_self ..)
  obtain ⟨y, hy, hentry⟩ := List.mem_map.mp hlive
  cases hfirst : firstAt h msg.data with
  | none =>
    have hmem := hheld.mem_iff.mpr (List.mem_append_left others hy)
    exact absurd (congrArg KheapEntry.addr hentry) (firstAt_eq_none.mp hfirst y hmem)
  | some x =>
    by_cases hx : x ∈ others
    · exact .inl ⟨x, rfl, hx, hinv.not_mem_held hfree hfirst⟩
    · refine .inr ⟨fun z hz => Option.some.inj hz ▸ hx, ?_⟩
      -- it is the payload of a message, and that of this one is the same but for the slot
      have hmem := (List.mem_append.mp (hheld.mem_iff.mp (mem_held_of_firstAt hfirst))).resolve_right hx
      have hentry : x.2 = payloadEntry msg := by
        have hxmem := hentries.mem_iff.mp (List.mem_map_of_mem hmem)
        obtain ⟨m, -, hm⟩ := List.mem_map.mp hxmem
        have haddr := firstAt_addr hfirst
        rw [← hm] at haddr ⊢
        exact congrArg (KheapEntry.mk · 4 true) haddr
      rw [hfirst, Option.toList_some, List.singleton_append] at hgone
      have hrest := (List.perm_cons_erase hmem)
      refine ⟨payloads.erase x, ?_, ?_⟩
      · have hmap := (hrest.map Prod.snd).symm.trans hentries
        rw [List.map_cons, hentry, List.map_cons] at hmap
        exact (List.perm_cons _).mp hmap
      · have hheld := hgone.symm.trans (hheld.trans (hrest.append_right others))
        exact (List.perm_cons _).mp hheld

theorem conserved_iff :
    Conserved others s ↔ Payloads others s.heap (s.mailbox ++ s.stage.processing) := by
  refine ⟨Conserved.blocks, fun hpay => ⟨?_, hpay, fun msg hmsg => ?_⟩⟩
  · rw [hpay.length_eq, List.length_append]
  · obtain ⟨payloads, hentries, hheld⟩ := hpay
    have hmem := hentries.mem_iff.mpr (List.mem_map_of_mem (List.mem_append_right s.mailbox hmsg))
    obtain ⟨⟨slot, e⟩, hx, rfl⟩ := List.mem_map.mp hmem
    exact ⟨slot, hheld.mem_iff.mpr (List.mem_append_left _ hx)⟩

theorem DqInv.start (h : DqStarted s) :
    DqInv (Heap.held s.heap) s := by
  have hholds : Holds (s.kernel.tasks s.dq).msgBuff (s.kernel.tasks s.dq).msgCountIn [] := h.empty
  have hmail : s.mailbox = [] := mailbox_eq hholds
  refine
    { toConserved := conserved_iff.mpr ?_
      heap := heapInv_of_reachable h.heap
      current := h.current
      found := h.found
      waits := ?_
      holds := ⟨[], hholds⟩
      sched := ?_ }
  · exact ⟨[], by simp [hmail, h.stage, DqStage.processing], .rfl⟩
  · rw [h.stage]
    nofun
  · simp [hmail, h.stage, DqStage.processing]

theorem DqInv.receive_cases (h : DqInv others s) (hstage : s.stage = .receiving)
    (hexec : receive s = some t) : DqStep b ihHigh s .dq t := by
  obtain ⟨⟨k, blocked⟩, hk, hrest⟩ := Option.bind_eq_some_iff.mp hexec
  obtain ⟨-, ⟨hempty, heq⟩ | ⟨hmsg, heq⟩⟩ := kreciveBefore_cases hk
  · obtain ⟨rfl, rfl⟩ := Prod.mk.inj heq
    obtain rfl := Option.some.inj hrest
    rw [h.current] at hempty ⊢
    exact .blocked hstage hempty
  · obtain ⟨rfl, rfl⟩ := Prod.mk.inj heq
    obtain ⟨k', hk', rfl⟩ := Option.map_eq_some_iff.mp hrest
    obtain ⟨hcurrent, -, rfl⟩ := kreciveAfter_cases hk'
    rw [hcurrent] at hmsg ⊢
    exact .received (.inl hstage) hmsg

theorem DqInv.exec_cases (h : DqInv others s) (hexec : s.exec b ihHigh e = some t) :
    DqStep b ihHigh s e t := by
  cases e with
  | key keycode =>
    simp only [DqSys.exec, keyPressed] at hexec
    split at hexec
    · next hch =>
      obtain rfl := Option.some.inj hexec
      simp only [keyboard_quiet hch]
      exact .quiet keycode hch
    · next hch =>
      obtain ⟨⟨heap, p⟩, halloc, hexec⟩ := Option.bind_eq_some_iff.mp hexec
      obtain ⟨kernel, hsend, rfl⟩ := Option.map_eq_some_iff.mp hexec
      have hfound : s.dq ≠ 0 ∧ taskFindById { s.kernel with mem := write32 s.kernel.mem p ihHigh }
          (s.kernel.tasks s.dq).tid = some s.dq := h.found
      rw [ksend_found (k := { s.kernel with mem := write32 s.kernel.mem p ihHigh }) hfound] at hsend
      obtain rfl := Option.some.inj hsend
      split
      · next hfull => exact .refused keycode hch heap p halloc hfull
      · next hroom => exact .sent keycode hch heap p halloc hroom
  | dq =>
    simp only [DqSys.exec] at hexec
    split at hexec
    · next hstage => exact h.receive_cases hstage hexec
    · next hstage =>
      obtain ⟨k', hk', rfl⟩ := Option.map_eq_some_iff.mp hexec
      obtain ⟨hcurrent, hrunning, rfl⟩ := kreciveAfter_cases hk'
      rw [hcurrent] at hrunning ⊢
      have hne : (s.kernel.tasks s.dq).status ≠ taskInterruptable := by
        rw [hrunning]
        decide
      exact .received (.inr hstage) ((h.waits hstage).resolve_left hne)
    · next msg hstage =>
      have htype := h.sched msg (by simp [hstage, DqStage.processing])
      rw [handle, if_pos htype] at hexec
      obtain ⟨-, heq⟩ := Option.ite_none_right_eq_some.mp hexec
      exact Option.some.inj heq ▸ .handled msg hstage
    · next msg hstage =>
      obtain ⟨heap, hfree, rfl⟩ := Option.map_eq_some_iff.mp hexec
      exact .freed msg hstage heap hfree

theorem DqInv.found_of (h : DqInv others s) (hlist : k.taskList = s.kernel.taskList)
    (htid : ∀ u, (k.tasks u).tid = (s.kernel.tasks u).tid) :
    s.dq ≠ 0 ∧ taskFindById k (k.tasks s.dq).tid = some s.dq := by
  rw [taskFindById_congr hlist htid, htid]
  exact h.found

theorem DqInv.sent (h : DqInv others s) (driver : Driver) (mem : Memory)
    (halloc : allocate s.heap 4 = some (heap, p)) :
    DqInv others
      { s with
        driver := driver
        heap := heap
        kernel := deliver { s.kernel with mem := mem } s.dq ⟨ipcMsgTypeDqSched, 4, p⟩ } := by
  obtain ⟨msgs, hholds⟩ := h.holds
  have hholds' := holds_deliver (k := { s.kernel with mem := mem }) hholds ⟨ipcMsgTypeDqSched, 4, p⟩
  have hmail := mailbox_eq (s := { s with
    driver := driver
    heap := heap
    kernel := deliver { s.kernel with mem := mem } s.dq ⟨ipcMsgTypeDqSched, 4, p⟩ }) hholds'
  rw [List.reverse_cons, ← mailbox_eq hholds] at hmail
  refine
    { toConserved := conserved_iff.mpr ?_
      heap := (h.heap.allocate_held halloc).1
      current := h.current
      found := h.found_of rfl (deliver_field _ _ _ Task.tid fun _ _ _ _ => rfl)
      waits := fun _ => .inr ?_
      holds := ⟨_, hholds'⟩
      sched := fun msg hmsg => ?_ }
  · have hpay := (conserved_iff.mp h.toConserved).allocate h.heap halloc ipcMsgTypeDqSched 4
    rw [hmail, List.append_assoc]
    exact hpay.perm List.perm_middle.symm
  · intro hzero
    have hlen := hzero.symm.trans hholds'.length_eq
    simp only [List.length_cons] at hlen
    omega
  · rw [hmail, List.append_assoc, List.mem_append] at hmsg
    rcases hmsg with hmsg | hmsg
    · exact h.sched msg (List.mem_append_left _ hmsg)
    · rcases List.mem_cons.mp hmsg with rfl | hmsg
      · rfl
      · exact h.sched msg (List.mem_append_right _ hmsg)

theorem DqInv.refused (h : DqInv others s) (driver : Driver) (mem : Memory)
    (halloc : allocate s.heap 4 = some (heap, p)) :
    ¬Conserved others
      { s with driver := driver, heap := heap, kernel := { s.kernel with mem := mem } } := by
  intro hcons
  have hcount := h.count
  have hcount' : (Heap.held heap).length =
    s.mailbox.length + s.stage.processing.length + others.length := hcons.count
  obtain ⟨-, slot, hnew⟩ := h.heap.allocate_held halloc
  have hlen := hnew.length_eq
  rw [List.length_cons] at hlen
  omega

theorem DqInv.blocked (h : DqInv others s) (hstage : s.stage = .receiving) :
    DqInv others
      { s with
        kernel := schedYield
          (s.kernel.modifyTask s.dq fun t => { t with status := taskInterruptable })
        stage := .waiting } := by
  obtain ⟨msgs, hholds⟩ := h.holds
  have hyield := schedYield_mail
    (s.kernel.modifyTask s.dq fun t => { t with status := taskInterruptable }) s.dq
  rw [Kernel.modifyTask_tasks_self] at hyield
  simp only [mail, Prod.mk.injEq] at hyield
  obtain ⟨hstatus, hcount, hbuff⟩ := hyield
  rw [← hcount, ← hbuff] at hholds
  have hmail := mailbox_eq (s := { s with
    kernel := schedYield (s.kernel.modifyTask s.dq fun t => { t with status := taskInterruptable })
    stage := .waiting }) hholds
  rw [hcount, hbuff] at hholds
  rw [← mailbox_eq hholds] at hmail
  refine
    { toConserved := conserved_iff.mpr ?_
      heap := h.heap
      current := by rw [schedYield_currentTask]; exact h.current
      found := h.found_of (schedYield_taskList _) fun u => ?_
      waits := fun _ => .inl hstatus
      holds := ⟨msgs, by rwa [hcount, hbuff]⟩
      sched := ?_ }
  · have hpay := conserved_iff.mp h.toConserved
    rw [hstage] at hpay
    rw [hmail]
    exact hpay
  · rw [schedYield_field _ Task.tid fun _ => rfl, Kernel.modifyTask_tasks_field _ Task.tid (by rfl)]
  · rw [hmail]
    intro msg hmsg
    exact h.sched msg (List.mem_append_left _ (by simpa [DqStage.processing] using hmsg))

theorem DqInv.received (h : DqInv others s) (hstage : s.stage = .receiving ∨ s.stage = .waiting)
    (hmsg : (s.kernel.tasks s.dq).msgCountIn ≠ 0) :
    DqInv others
      { s with
        kernel := takeMessage s.kernel s.dq
        stage := .received (topMessage s.kernel s.dq) } := by
  obtain ⟨msgs, hholds⟩ := h.holds
  obtain ⟨top, msgs, rfl⟩ := List.exists_cons_of_ne_nil (l := msgs) (by
    rintro rfl
    exact hmsg hholds)
  have hbefore := mailbox_eq hholds
  obtain ⟨htop, hrest⟩ := hholds
  have hprocessing : s.stage.processing = [] := by
    rcases hstage with hstage | hstage <;> rw [hstage] <;> rfl
  have hholds' : Holds ((takeMessage s.kernel s.dq).tasks s.dq).msgBuff
      ((takeMessage s.kernel s.dq).tasks s.dq).msgCountIn msgs := by
    rw [takeMessage_tasks_self]
    exact hrest
  have hmail := mailbox_eq (s := { s with
    kernel := takeMessage s.kernel s.dq
    stage := .received (topMessage s.kernel s.dq) }) hholds'
  have hpay := conserved_iff.mp h.toConserved
  rw [hbefore, hprocessing, List.reverse_cons] at hpay
  refine
    { toConserved := conserved_iff.mpr ?_
      heap := h.heap
      current := h.current
      found := h.found_of rfl (takeMessage_field _ _ Task.tid fun _ _ => rfl)
      waits := nofun
      holds := ⟨msgs, hholds'⟩
      sched := fun msg hmem => h.sched msg ?_ }
  · rw [hmail, topMessage, htop]
    simpa [DqStage.processing] using hpay
  · rw [hmail, topMessage, htop] at hmem
    rw [hbefore, hprocessing, List.reverse_cons, List.append_nil]
    exact hmem

theorem DqInv.handled (h : DqInv others s) (hstage : s.stage = .received msg) :
    DqInv others { s with stage := .handled msg } := by
  have hprocessing : s.stage.processing = [msg] := by rw [hstage]; rfl
  have hpay := conserved_iff.mp h.toConserved
  have hsched := h.sched
  rw [hprocessing] at hpay hsched
  exact
    { toConserved := conserved_iff.mpr hpay
      heap := h.heap
      current := h.current
      found := h.found
      waits := nofun
      holds := h.holds
      sched := hsched }

theorem DqInv.freed (h : DqInv others s) (hstage : s.stage = .handled msg)
    (hfree : release s.heap msg.data = some heap) :
    (∀ x ∈ firstAt s.heap msg.data, x ∉ others) ∧
        DqInv others { s with heap := heap, stage := .receiving } ∨
      (∃ x ∈ firstAt s.heap msg.data, x ∈ others) ∧
        ¬Conserved others { s with heap := heap, stage := .receiving } := by
  have hprocessing : s.stage.processing = [msg] := by rw [hstage]; rfl
  have hpay := conserved_iff.mp h.toConserved
  have hsched := h.sched
  rw [hprocessing] at hpay hsched
  rcases (hpay.perm (List.perm_append_singleton msg s.mailbox)).release h.heap hfree with
    ⟨x, hx, hother, hgone⟩ | ⟨hspared, hrest⟩
  · refine .inr ⟨⟨x, hx, hother⟩, fun hcons => hgone ?_⟩
    obtain ⟨payloads, -, hheld⟩ := hcons.blocks
    exact hheld.mem_iff.mpr (List.mem_append_right _ hother)
  · refine .inl ⟨hspared,
      { toConserved := conserved_iff.mpr ?_
        heap := (h.heap.release_held hfree).1
        current := h.current
        found := h.found
        waits := nofun
        holds := h.holds
        sched := fun msg hmem => hsched msg ?_ }⟩
    · simpa [DqStage.processing, DqSys.mailbox] using hrest
    · exact List.mem_append_left _ (by simpa [DqStage.processing, DqSys.mailbox] using hmem)

/-- A step keeps the invariant, unless it is the refusal of a message or gives back a block
of another. -/
theorem DqInv.step_cases (h : DqInv others s) (hstep : DqStep b ihHigh s e t) :
    DqInv others t ∧ Accepts others s e t ∨ ¬Conserved others t ∧ ¬Accepts others s e t := by
  have hnone : ∀ {stage}, s.stage = stage → stage.toFree = none → Accepts others s .dq t := by
    rintro _ rfl hfree msg hmsg
    rw [hfree] at hmsg
    cases hmsg
  cases hstep with
  | quiet keycode hch => exact .inl ⟨h, fun hne => absurd hch hne⟩
  | sent keycode hch heap p halloc hroom => exact .inl ⟨h.sent _ _ halloc, fun _ => hroom⟩
  | refused keycode hch heap p halloc hfull =>
    exact .inr ⟨h.refused _ _ halloc, fun hroom => hroom hch hfull⟩
  | blocked hstage hempty => exact .inl ⟨h.blocked hstage, hnone hstage rfl⟩
  | received hstage hmsg =>
    refine .inl ⟨h.received hstage hmsg, ?_⟩
    rcases hstage with hstage | hstage
    · exact hnone hstage rfl
    · exact hnone hstage rfl
  | handled msg hstage => exact .inl ⟨h.handled hstage, hnone hstage rfl⟩
  | freed msg hstage heap hfree =>
    have hfreed : s.stage.toFree = some msg := by rw [hstage]; rfl
    rcases h.freed hstage hfree with ⟨hspared, hinv⟩ | ⟨⟨x, hx, hother⟩, hbroken⟩
    · refine .inl ⟨hinv, fun msg' hmsg' => ?_⟩
      obtain rfl := Option.some.inj (hfreed.symm.trans hmsg')
      exact hspared
    · exact .inr ⟨hbroken, fun hok => hok msg hfreed x hx hother⟩

theorem DqInv.step_iff (h : DqInv others s) (hstep : DqStep b ihHigh s e t) :
    Conserved others t ↔ Accepts others s e t := by
  rcases h.step_cases hstep with ⟨hinv, hok⟩ | ⟨hbroken, hrefused⟩
  · exact iff_of_true hinv.toConserved hok
  · exact iff_of_false hbroken hrefused

theorem DqInv.step (h : DqInv others s) (hstep : DqStep b ihHigh s e t) (hok : Conserved others t) :
    DqInv others t := by
  rcases h.step_cases hstep with ⟨hinv, -⟩ | ⟨hbroken, -⟩
  · exact hinv
  · exact absurd hok hbroken

/-- The payloads are conserved all along a run exactly when every key press that sends
a message finds room in the mailbox, and every `kfree` of a payload comes upon none of the
blocks that were live at the start. -/
theorem payloads_conserved_iff {tr : List (DqEvent × DqSys)} (hs : DqStarted s)
    (h : (dqRuns b ihHigh).Trace s tr) :
    Every (fun _ _ t => Conserved (Heap.held s.heap) t) s tr ↔
      Every (Accepts (Heap.held s.heap)) s tr :=
  System.Trace.every_iff (I := DqInv (Heap.held s.heap))
    (fun _ _ _ hinv hstep => hinv.step_iff (hinv.exec_cases hstep))
    (fun _ _ _ hinv hstep hok => hinv.step (hinv.exec_cases hstep) hok) (.start hs) h

def dqStart : DqSys where
  driver := console.driver
  heap := kheapList
  kernel := { spawn emptyKernel (kernelTask 0xC1010000) with currentTask := 0xC1010000 }
  dq := 0xC1010000
  stage := .receiving

theorem dqStart_started : DqStarted dqStart where
  heap := .start rfl
  current := rfl
  found := by decide
  empty := by decide
  stage := rfl

/-- Two keys, the second of which comes while the task runs the handler of the first. -/
theorem payloads_conserved_iff_example : ∃ tr,
    replay (DqSys.exec consoleBuff 0xC0105000) dqStart
      [.dq, .key 30, .dq, .key 48, .dq, .dq, .dq, .dq, .dq] = some tr ∧
    Every (fun _ _ t => Conserved (Heap.held dqStart.heap) t) dqStart tr := by
  have hrun : (replay (DqSys.exec consoleBuff 0xC0105000) dqStart
      [.dq, .key 30, .dq, .key 48, .dq, .dq, .dq, .dq, .dq]).any
        (fun tr => Every (Accepts (Heap.held dqStart.heap)) dqStart tr) = true := by decide +kernel
  obtain ⟨tr, htr, htrace, hall⟩ := System.Trace.exists_of_replay
    (M := dqRuns consoleBuff 0xC0105000) (fun _ _ _ h => h) hrun
  exact ⟨tr, htr, (payloads_conserved_iff dqStart_started htrace).mpr hall⟩

/-- Nine keys before the task runs: nine blocks, eight messages. -/
theorem payload_leaks : ∃ tr,
    replay (DqSys.exec consoleBuff 0xC0105000) dqStart (List.replicate 9 (.key 30)) = some tr ∧
    ¬Conserved (Heap.held dqStart.heap) (final dqStart tr) := by
  have hrun : (replay (DqSys.exec consoleBuff 0xC0105000) dqStart (List.replicate 9 (.key 30))).any
      (fun tr => (Heap.held (final dqStart tr).heap).length = 9 ∧
        (final dqStart tr).mailbox.length = 8 ∧
        (final dqStart tr).stage.processing.length = 0) = true := by decide +kernel
  obtain ⟨tr, htr, hok⟩ := (Option.any_eq_true ..).mp hrun
  obtain ⟨hbusy, hmail, hstage⟩ := of_decide_eq_true hok
  refine ⟨tr, htr, fun hcons => ?_⟩
  have hcount := hcons.count
  rw [hbusy, hmail, hstage, dqStart, held_kheapList] at hcount
  simp at hcount

/-- One key, and a live block of no bytes where its payload is put: it is given back, and the
payload stays. -/
theorem payload_takes_twin : ∃ h tr, Heap.heap.Reachable h ∧
    replay (DqSys.exec consoleBuff 0xC0105000) { dqStart with heap := h }
      [.key 30, .dq, .dq, .dq] = some tr ∧
    Heap.held h = [(0, ⟨0xC1000000, 0, true⟩)] ∧
    Heap.held (final { dqStart with heap := h } tr).heap = [(1, ⟨0xC1000000, 4, true⟩)] ∧
    (final { dqStart with heap := h } tr).mailbox = [] ∧
    (final { dqStart with heap := h } tr).stage.processing = [] := by
  have hrun : (callHeap kheapList (.malloc 0 0xC1000000)).any (fun h =>
      (replay (DqSys.exec consoleBuff 0xC0105000) { dqStart with heap := h }
        [.key 30, .dq, .dq, .dq]).any fun tr =>
          Heap.held h = [(0, ⟨0xC1000000, 0, true⟩)] ∧
          Heap.held (final { dqStart with heap := h } tr).heap = [(1, ⟨0xC1000000, 4, true⟩)] ∧
          (final { dqStart with heap := h } tr).mailbox.length = 0 ∧
          (final { dqStart with heap := h } tr).stage.processing.length = 0) = true := by
    decide +kernel
  obtain ⟨h, hcall, hrun⟩ := (Option.any_eq_true ..).mp hrun
  obtain ⟨tr, htr, hrun⟩ := (Option.any_eq_true ..).mp hrun
  obtain ⟨hbefore, hafter, hmail, hstage⟩ := of_decide_eq_true hrun
  exact ⟨h, tr, .step (.start rfl) (step_of_callHeap hcall), htr, hbefore, hafter,
    List.eq_nil_of_length_eq_zero hmail, List.eq_nil_of_length_eq_zero hstage⟩

end RubiKernel.Kthread
