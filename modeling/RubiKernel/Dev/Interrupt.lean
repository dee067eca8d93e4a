import RubiKernel.Clist.Runs
import RubiKernel.Dev.Handlers
import RubiKernel.Keyboard.Flush
import RubiKernel.Kthread.Dq
import RubiKernel.Tty.Console

/-! `DT/keyboard.c`: an interrupt of the keyboard, from its ports to the drivers that have
registered a handler for it and to the mailbox of the task that runs what they defer, and the
acknowledgement to the interrupt controller. The `kmalloc` of a message does not fail. -/

namespace RubiKernel.Dev

open Clist Cyclic Keyboard Lts Kthread

def kbPort : Word := 0x60

def pic1CmdPort : Word := 0x20

def picEoi : Byte := 0x20

def intKeyboard : Word := 0x21

def intKeyboardNewData : Word := 0x1

def intKeyboardNewKey : Word := 0x2

/-- The bytes that `cint_keyboard` takes for data and not for a key. -/
def kbData : List Byte := [0xAA, kbDataEcho, kbDataAck, 0xFC, 0xFD, kbDataResend, 0xFF]

inductive IhHandler
  | keyboardIhLow
  | ttyKeyboardIhLow
  | pciIhLow
  deriving DecidableEq

structure Registry where
  devices : Devices
  handler : Word → IhHandler

/-- `dev_create`, and the list of the device with one handler. `dev` and `slot` are what
`syscall_malloc` returns; `slots` of the new list keeps what it finds there. -/
def Registry.register (r : Registry) (dev slot : Word) (ihLow : IhLow) (handler : IhHandler) :
    Registry where
  devices :=
    let devList := r.devices.devList.clistInsertAfter r.devices.devList.tail dev
    let ihList := { r.devices.ihList dev with head := 0, tail := 0 }
    { devList := devList
      ihList := Function.update r.devices.ihList dev (ihList.clistInsertAfter ihList.tail slot)
      ihLow := Function.update r.devices.ihLow slot ihLow }
  handler := Function.update r.handler slot handler

def keyboardInit (r : Registry) (dev slot : Word) : Registry :=
  r.register dev slot ⟨intKeyboard, intKeyboardNewData⟩ .keyboardIhLow

def ttyInit (r : Registry) (dev slot : Word) : Registry :=
  r.register dev slot ⟨intKeyboard, intKeyboardNewKey⟩ .ttyKeyboardIhLow

/-- The part of `pci_init` that is about the device. -/
def pciInit (r : Registry) (dev slot : Word) : Registry := r.register dev slot ⟨0, 0⟩ .pciIhLow

/-- The messages to `dq_task`: a handler that is deferred, or `IPC_MSG_TYPE_DQ_TEST`. -/
inductive DqMessage
  | ttyKeyboardIhHigh
  | pciIhHigh
  | dqTest
  deriving DecidableEq

/-- The drivers of the keyboard and the terminal, whether `last_func` is not NULL, the mailbox
of `dq_task` with the first message first, and the bytes that went to the ports. -/
structure Machine where
  registry : Registry
  console : Tty.Console
  kb : KbDriver
  lastFuncSet : Bool
  mailbox : List DqMessage
  out : List (Word × Byte)

def Machine.send (m : Machine) (effect : Effect) : Machine :=
  { m with out := m.out ++ effect.sent.toList.map (kbPort, ·) }

/-- `none` for a call of `last_func` while it is NULL. -/
def Machine.callHandler (b : Tty.InputBuff) (data : KeyboardStatus) (m : Machine) :
    IhHandler → Option Machine
  | .keyboardIhLow =>
    let (kb, effect) := keyboardIhLow m.kb.lastFunc m.kb.kb data
    if effect.called.isSome ∧ m.lastFuncSet = false then none
    else some ({ m with kb := { m.kb with kb := kb } }.send effect)
  | .ttyKeyboardIhLow =>
    some { m with
      console := m.console.exec b (.key data.keycode)
      mailbox :=
        if Tty.keyChar data.keycode = 0 then m.mailbox else post m.mailbox .ttyKeyboardIhHigh }
  | .pciIhLow => some { m with mailbox := post m.mailbox .pciIhHigh }

/-- `cint_keyboard`, with the bytes that it finds at the ports. -/
def Machine.cintKeyboard (b : Tty.InputBuff) (m : Machine) (data : KeyboardStatus) :
    Option Machine :=
  let handled :=
    if data.status &&& 0x1 ≠ 0 ∧ data.keycode ≥ 1 then
      let subnumber := if data.keycode ∈ kbData then intKeyboardNewData else intKeyboardNewKey
      (lowHandlerCalls m.registry.devices ⟨intKeyboard, subnumber⟩).bind fun calls =>
        calls.foldlM (fun m c => m.callHandler b data (m.registry.handler c.slot)) m
    else some m
  handled.map fun m => { m with out := m.out ++ [(pic1CmdPort, picEoi)] }

inductive Event
  | interrupt (data : KeyboardStatus)
  | console (call : Tty.Call)
  | echo (n : Word)
  /-- `null` is whether `kbq->func` is NULL for the `junk` that stands in the buffer. -/
  | flush (junk : Word) (null : Bool) (cmdStatus : Byte)
  | pciInit (dev slot : Word)
  /-- Another task sends an `IPC_MSG_TYPE_DQ_TEST` to `dq_task`. -/
  | dqTest
  /-- `dq_task` takes a message. -/
  | krecive

def Machine.exec (b : Tty.InputBuff) (m : Machine) : Event → Option Machine
  | .interrupt data => m.cintKeyboard b data
  | .console call => some { m with console := m.console.exec b call }
  | .echo n => some { m with kb := m.kb.ioctlEcho n }
  | .flush junk null cmdStatus =>
    -- with no record, nothing is copied over the junk, and `send_data` calls what it leads to
    if m.kb.keyboardQu.clist.head = 0 ∧ null = true then none
    else
      let (kb, flushed) := m.kb.ioctlFlush junk cmdStatus
      some ({ m with kb := kb, lastFuncSet := true }.send flushed.effect)
  | .pciInit dev slot => some { m with registry := Dev.pciInit m.registry dev slot }
  | .dqTest => some { m with mailbox := post m.mailbox .dqTest }
  | .krecive => some { m with mailbox := m.mailbox.dropLast }

/-- No key comes but by an interrupt, `dq_task` waits for a message, and `syscall_malloc`
returns no block in use. -/
def Machine.Ready (m : Machine) : Event → Prop
  | .console call => ∀ keycode, call ≠ .key keycode
  | .echo n => n ∉ 0 :: m.kb.keyboardQu.clist.members
  | .krecive => m.mailbox ≠ []
  | .pciInit dev slot => dev ∉ 0 :: m.registry.devices.devList.members ∧ slot ≠ 0 ∧
      ∀ other ∈ m.registry.devices.devList.members,
        slot ∉ (m.registry.devices.ihList other).members
  | _ => True

def noDevices (ihList : Word → Clist) (ihLow : Word → IhLow) (handler : Word → IhHandler) :
    Registry where
  devices := ⟨⟨0, 0, 0, fun _ => ⟨0, 0⟩⟩, ihList, ihLow⟩
  handler := handler

/-- What `kernel_main` registers, in the order of its calls. -/
def Booted (r : Registry) : Prop :=
  ∃ ihList ihLow handler dev slot ttyDev ttySlot,
    dev ≠ 0 ∧ slot ≠ 0 ∧ ttyDev ∉ [0, dev] ∧ ttySlot ∉ [0, slot] ∧
      r = ttyInit (keyboardInit (noDevices ihList ihLow handler) dev slot) ttyDev ttySlot

/-- From `tty_init` on. -/
def machine (b : Tty.InputBuff) : System Machine Event where
  start m := Booted m.registry ∧ m.lastFuncSet = false ∧
    Clist.runs.start m.kb.keyboardQu.clist ∧ m.mailbox = []
  step m e m' := m.Ready e ∧ m.exec b e = some m'

def IsKey (data : KeyboardStatus) : Prop :=
  data.status &&& 0x1 ≠ 0 ∧ data.keycode ≥ 1 ∧ data.keycode ∉ kbData

/-- An answer of the keyboard to a command. -/
def IsAnswer (data : KeyboardStatus) : Prop := data.status &&& 0x1 ≠ 0 ∧ data.keycode ∈ kbData

instance {data : KeyboardStatus} : Decidable (IsKey data) :=
  inferInstanceAs (Decidable (_ ∧ _ ∧ _))

instance {data : KeyboardStatus} : Decidable (IsAnswer data) :=
  inferInstanceAs (Decidable (_ ∧ _))

def Event.ttyCall : Event → Option Tty.Call
  | .interrupt data => if IsKey data then some (.key data.keycode) else none
  | .console call => some call
  | _ => none

inductive KbCall
  | answer (data : KeyboardStatus)
  | echo (n : Word)
  | flush (junk : Word) (cmdStatus : Byte)

def Event.kbCall : Event → Option KbCall
  | .interrupt data => if IsAnswer data then some (.answer data) else none
  | .echo n => some (.echo n)
  | .flush junk _ cmdStatus => some (.flush junk cmdStatus)
  | _ => none

/-- The driver, and the bytes it has sent. -/
def KbCall.exec (s : KbDriver × List Byte) : KbCall → KbDriver × List Byte
  | .answer data =>
    let (kb, effect) := keyboardIhLow s.1.lastFunc s.1.kb data
    ({ s.1 with kb := kb }, s.2 ++ effect.sent.toList)
  | .echo n => (s.1.ioctlEcho n, s.2)
  | .flush junk cmdStatus =>
    let (kb, flushed) := s.1.ioctlFlush junk cmdStatus
    (kb, s.2 ++ flushed.effect.sent.toList)

inductive MailCall
  | ksend (msg : DqMessage)
  | krecive

def Event.mailCall : Event → Option MailCall
  | .interrupt data =>
    if IsKey data ∧ Tty.keyChar data.keycode ≠ 0 then some (.ksend .ttyKeyboardIhHigh) else none
  | .dqTest => some (.ksend .dqTest)
  | .krecive => some .krecive
  | _ => none

def MailCall.exec (mailbox : List DqMessage) : MailCall → List DqMessage
  | .ksend msg => post mailbox msg
  | .krecive => mailbox.dropLast

def Event.isInterrupt : Event → Bool
  | .interrupt _ => true
  | _ => false

def Event.isFlush : Event → Bool
  | .flush _ _ _ => true
  | _ => false

/-- The commands in `keyboard_qu` after the event, of `n` before. -/
def Event.queued (n : Nat) : Event → Nat
  | .echo _ => n + 1
  | .flush _ _ _ => n - 1
  | _ => n

def Machine.sent (m : Machine) (port : Word) : List Byte :=
  (m.out.filter (·.1 = port)).map Prod.snd

/-- Each event has reached the driver it is for, once and in its turn, and each interrupt
is acknowledged. -/
structure Dispatched (b : Tty.InputBuff) (m m' : Machine) (es : List Event) : Prop where
  console : m'.console = (es.filterMap Event.ttyCall).foldl (Tty.Console.exec b) m.console
  kb : (m'.kb, m'.sent kbPort) =
    (es.filterMap Event.kbCall).foldl KbCall.exec (m.kb, m.sent kbPort)
  mailbox : m'.mailbox = (es.filterMap Event.mailCall).foldl MailCall.exec m.mailbox
  lastFunc : m'.lastFuncSet = (m.lastFuncSet || es.any Event.isFlush)
  acknowledged : m'.sent pic1CmdPort =
    m.sent pic1CmdPort ++ (es.filter Event.isInterrupt).map fun _ => picEoi

/-- An interrupt with an answer that `last_func` is called for. -/
def Event.CallsLastFunc : Event → Prop
  | .interrupt data =>
    data.status &&& 0x1 ≠ 0 ∧ (data.keycode = kbDataEcho ∨ data.keycode = kbDataAck)
  | _ => False

/-- A flush that finds NULL if it finds no command. -/
def Event.FindsNull : Event → Prop
  | .flush _ null _ => null = true
  | _ => False

variable {b : Tty.InputBuff} {m m' m'' : Machine} {r : Registry} {devs : List Word}
  {handlers : Word → List Word} {dev slot : Word} {ihLow : IhLow} {handler : IhHandler}
  {lowData : IhLowData} {es es' : List Event} {e : Event} {data : KeyboardStatus}

structure Installed (r : Registry) (devs : List Word) (handlers : Word → List Word) : Prop where
  devices : RingOf r.devices.devList devs
  ends : EndsAt r.devices.devList devs
  rings : ∀ dev ∈ devs, RingOf (r.devices.ihList dev) (handlers dev)
  handler : ∀ dev ∈ devs, handlers dev ≠ []

def handledBy (r : Registry) (devs : List Word) (handlers : Word → List Word)
    (lowData : IhLowData) : List IhHandler :=
  (devs.flatMap fun dev => callsOf r.devices lowData dev ((handlers dev).take 1)).map
    fun c => r.handler c.slot

theorem Installed.registered (h : Installed r devs handlers) (hdevs : devs ≠ []) :
    Registered r.devices devs handlers :=
  ⟨h.devices, hdevs, h.rings, h.handler⟩

theorem Installed.devCreate (h : Installed r devs handlers) (hdev : dev ∉ 0 :: devs) :
    RingOf (r.devices.devList.clistInsertAfter r.devices.devList.tail dev) (devs ++ [dev]) ∧
      EndsAt (r.devices.devList.clistInsertAfter r.devices.devList.tail dev) (devs ++ [dev]) := by
  have hends := h.ends
  rcases List.eq_nil_or_concat' devs with rfl | ⟨l, pos, rfl⟩
  · exact h.devices.insert_empty (fun hz => hdev (hz ▸ List.mem_cons_self))
  · rw [endsAt_concat.mp hends]
    have hsplit : l ++ [pos] ++ [dev] = l ++ pos :: dev :: [] := by simp
    rw [hsplit]
    exact ⟨h.devices.clistInsertAfter hdev, EndsAt.insert hends h.devices⟩

theorem register_ihList : (r.register dev slot ihLow handler).devices.ihList =
    Function.update r.devices.ihList dev
      ({ r.devices.ihList dev with head := 0, tail := 0 }.clistInit slot) := by
  simp only [Registry.register, Clist.clistInsertAfter, true_or, if_true]

theorem Installed.register (h : Installed r devs handlers) (hdev : dev ∉ 0 :: devs)
    (hslot : slot ≠ 0) :
    Installed (r.register dev slot ihLow handler) (devs ++ [dev])
      (Function.update handlers dev [slot]) := by
  obtain ⟨hring, hends⟩ := h.devCreate hdev
  refine ⟨hring, hends, fun d hd => ?_, fun d hd => ?_⟩
  · rw [register_ihList]
    by_cases heq : d = dev
    · subst heq
      rw [Function.update_self, Function.update_self]
      exact ringOf_clistInit _ hslot
    · rw [Function.update_of_ne heq, Function.update_of_ne heq]
      exact h.rings d ((List.mem_append.mp hd).resolve_right fun hm => heq (List.mem_singleton.mp hm))
  · by_cases heq : d = dev
    · subst heq
      rw [Function.update_self]
      exact List.cons_ne_nil _ _
    · rw [Function.update_of_ne heq]
      exact h.handler d
        ((List.mem_append.mp hd).resolve_right fun hm => heq (List.mem_singleton.mp hm))

theorem handledBy_eq : handledBy r devs handlers lowData =
    devs.flatMap fun dev => (((handlers dev).take 1).filter fun slot =>
      Matches r.devices lowData slot).map r.handler := by
  rw [handledBy, List.map_flatMap]
  refine List.flatMap_congr fun dev _ => ?_
  rw [callsOf, List.map_map]
  rfl

theorem Installed.register_handledBy (hdev : dev ∉ devs) (hslot : ∀ d ∈ devs, slot ∉ handlers d) :
    handledBy (r.register dev slot ihLow handler) (devs ++ [dev])
        (Function.update handlers dev [slot]) lowData =
      handledBy r devs handlers lowData ++
        if ihLow.number = lowData.number ∧ ihLow.subnumber &&& lowData.subnumber ≠ 0
        then [handler] else [] := by
  have hmatches : Matches (r.register dev slot ihLow handler).devices lowData slot ↔
      ihLow.number = lowData.number ∧ ihLow.subnumber &&& lowData.subnumber ≠ 0 := by
    show (Function.update r.devices.ihLow slot ihLow slot).number = _ ∧
      (Function.update r.devices.ihLow slot ihLow slot).subnumber &&& _ ≠ 0 ↔ _
    rw [Function.update_self]
  have hhandler : (r.register dev slot ihLow handler).handler slot = handler :=
    Function.update_self ..
  rw [handledBy_eq, handledBy_eq, List.flatMap_append, List.flatMap_singleton, Function.update_self]
  congr 1
  · refine List.flatMap_congr fun d hd => ?_
    have hne : d ≠ dev := fun heq => hdev (heq ▸ hd)
    rw [Function.update_of_ne hne]
    have hother : ∀ j ∈ (handlers d).take 1, j ≠ slot :=
      fun j hj heq => hslot d hd (heq ▸ List.mem_of_mem_take hj)
    have hsame : ∀ j ∈ (handlers d).take 1,
        (Matches (r.register dev slot ihLow handler).devices lowData j ↔
          Matches r.devices lowData j) := fun j hj => by
      show (Function.update r.devices.ihLow slot ihLow j).number = _ ∧
        (Function.update r.devices.ihLow slot ihLow j).subnumber &&& _ ≠ 0 ↔ _
      rw [Function.update_of_ne (hother j hj)]
      rfl
    rw [List.filter_congr fun j hj => decide_eq_decide.mpr (hsame j hj)]
    exact List.map_congr_left fun j hj =>
      Function.update_of_ne (hother j (List.mem_of_mem_filter hj)) ..
  · rw [List.take_succ_cons, List.take_nil]
    by_cases hmatch : Matches (r.register dev slot ihLow handler).devices lowData slot
    · rw [if_pos (hmatches.mp hmatch)]
      simp [hmatch, hhandler]
    · rw [if_neg (mt hmatches.mpr hmatch)]
      simp [hmatch]

def waiting (subnumber : Word) : List IhHandler :=
  (if intKeyboardNewData &&& subnumber ≠ 0 then [.keyboardIhLow] else []) ++
    if intKeyboardNewKey &&& subnumber ≠ 0 then [.ttyKeyboardIhLow] else []

/-- The devices of the kernel: the handlers of the keyboard and the terminal wait for its
interrupt, and no other ones. -/
def Serves (r : Registry) : Prop :=
  ∃ devs handlers, Installed r devs handlers ∧ devs ≠ [] ∧
    ∀ subnumber, handledBy r devs handlers ⟨intKeyboard, subnumber⟩ = waiting subnumber

theorem Booted.serves (h : Booted r) : Serves r := by
  obtain ⟨ihList, ihLow, handler, dev, slot, ttyDev, ttySlot, hdev, hslot, httyDev, httySlot, rfl⟩ := h
  have hempty : Installed (noDevices ihList ihLow handler) [] fun _ => [] :=
    ⟨ringOf_start ⟨rfl, rfl, rfl⟩, rfl, nofun, nofun⟩
  have hkb : Installed (keyboardInit (noDevices ihList ihLow handler) dev slot) [dev]
      (Function.update (fun _ => []) dev [slot]) :=
    hempty.register (fun hmem => hdev (List.mem_singleton.mp hmem)) hslot
  have httySlot' : ttySlot ≠ 0 := fun heq => httySlot (heq ▸ List.mem_cons_self)
  refine ⟨[dev] ++ [ttyDev], _, hkb.register httyDev httySlot', by simp, fun subnumber => ?_⟩
  have hnew : ∀ d ∈ [dev], ttySlot ∉ Function.update (fun _ => ([] : List Word)) dev [slot] d := by
    rintro d hd
    obtain rfl := List.mem_singleton.mp hd
    rw [Function.update_self]
    exact fun hmem => httySlot (List.mem_cons_of_mem 0 hmem)
  have hkbHandled : handledBy (keyboardInit (noDevices ihList ihLow handler) dev slot) [dev]
      (Function.update (fun _ => []) dev [slot]) ⟨intKeyboard, subnumber⟩ =
      if intKeyboardNewData &&& subnumber ≠ 0 then [.keyboardIhLow] else [] :=
    (Installed.register_handledBy (List.not_mem_nil) nofun).trans
      (if_congr (and_iff_right rfl) rfl rfl)
  refine (Installed.register_handledBy (fun hmem => httyDev (List.mem_cons_of_mem 0 hmem))
    hnew).trans ?_
  rw [hkbHandled, waiting]
  exact congrArg _ (if_congr (and_iff_right rfl) rfl rfl)

theorem Serves.pciInit (h : Serves r) (hdev : dev ∉ 0 :: r.devices.devList.members)
    (hslot : slot ≠ 0)
    (hnew : ∀ other ∈ r.devices.devList.members, slot ∉ (r.devices.ihList other).members) :
    Serves (pciInit r dev slot) := by
  obtain ⟨devs, handlers, hinstalled, hdevs, hhandled⟩ := h
  rw [hinstalled.devices.members_eq] at hdev hnew
  refine ⟨devs ++ [dev], _, hinstalled.register hdev hslot, by simp, fun subnumber => ?_⟩
  have hnew' : ∀ d ∈ devs, slot ∉ handlers d := fun d hd => by
    rw [← (hinstalled.rings d hd).members_eq]
    exact hnew d hd
  refine (Installed.register_handledBy (fun hmem => hdev (List.mem_cons_of_mem 0 hmem))
    hnew').trans ?_
  have hzero : (0 : Word) ≠ intKeyboard := by decide
  rw [if_neg fun hmatch => hzero hmatch.1, List.append_nil]
  exact hhandled subnumber

theorem Serves.calls (h : Serves r) (subnumber : Word) :
    ∃ calls, lowHandlerCalls r.devices ⟨intKeyboard, subnumber⟩ = some calls ∧
      calls.map (fun c => r.handler c.slot) = waiting subnumber := by
  obtain ⟨devs, handlers, hinstalled, hdevs, hhandled⟩ := h
  exact ⟨_, lowHandlerCalls_eq (hinstalled.registered hdevs) _, hhandled subnumber⟩

theorem waiting_newData : waiting intKeyboardNewData = [.keyboardIhLow] := by decide

theorem waiting_newKey : waiting intKeyboardNewKey = [.ttyKeyboardIhLow] := by decide

theorem kbData_pos : ∀ keycode ∈ kbData, keycode ≥ 1 := by decide

theorem Serves.cintKeyboard (h : Serves m.registry) (data : KeyboardStatus) :
    m.cintKeyboard b data =
      (if IsAnswer data then m.callHandler b data .keyboardIhLow
        else if IsKey data then m.callHandler b data .ttyKeyboardIhLow
        else some m).map fun m => { m with out := m.out ++ [(pic1CmdPort, picEoi)] } := by
  have hsingle : ∀ subnumber handler, waiting subnumber = [handler] →
      ((lowHandlerCalls m.registry.devices ⟨intKeyboard, subnumber⟩).bind fun calls =>
        calls.foldlM (fun m c => m.callHandler b data (m.registry.handler c.slot)) m) =
      m.callHandler b data handler := by
    intro subnumber handler hwaiting
    obtain ⟨calls, hcalls, hmap⟩ := h.calls subnumber
    rw [hwaiting] at hmap
    obtain ⟨c, rfl, hc⟩ := List.map_eq_singleton_iff.mp hmap
    rw [hcalls, Option.bind_some, List.foldlM_cons, hc]
    exact bind_pure _
  rw [Machine.cintKeyboard]
  refine congrArg (Option.map _) ?_
  by_cases hdata : data.keycode ∈ kbData
  · have hpos : data.keycode ≥ 1 := kbData_pos _ hdata
    rw [if_pos hdata, hsingle _ _ waiting_newData]
    by_cases hfull : data.status &&& 0x1 ≠ 0
    · rw [if_pos ⟨hfull, hpos⟩, if_pos ⟨hfull, hdata⟩]
    · rw [if_neg fun h => hfull h.1, if_neg fun h => hfull h.1, if_neg fun h => hfull h.1]
  · have hanswer : ¬IsAnswer data := fun h => hdata h.2
    rw [if_neg hdata, hsingle _ _ waiting_newKey, if_neg hanswer]
    exact if_congr ⟨fun h => ⟨h.1, h.2, hdata⟩, fun h => ⟨h.1, h.2.1⟩⟩ rfl rfl

section

variable {port : Word}

theorem send_sent (m : Machine) (effect : Effect) : (m.send effect).sent port =
    m.sent port ++ if port = kbPort then effect.sent.toList else [] := by
  rw [Machine.sent, Machine.send, List.filter_append, List.map_append]
  by_cases hport : port = kbPort
  · subst hport
    cases effect.sent with
    | none => rfl
    | some x => simp [Machine.sent]
  · cases effect.sent with
    | none => simp [Machine.sent, hport]
    | some x => simp [Machine.sent, hport, Ne.symm hport]

theorem acknowledge_sent (m : Machine) :
    { m with out := m.out ++ [(pic1CmdPort, picEoi)] }.sent port =
      m.sent port ++ if port = pic1CmdPort then [picEoi] else [] := by
  rw [Machine.sent, List.filter_append, List.map_append]
  by_cases hport : port = pic1CmdPort
  · subst hport
    simp [Machine.sent]
  · simp [Machine.sent, hport, Ne.symm hport]

end

theorem Dispatched.refl (m : Machine) : Dispatched b m m [] :=
  ⟨rfl, rfl, rfl, (Bool.or_false _).symm, (List.append_nil _).symm⟩

theorem Dispatched.trans (h : Dispatched b m m' es) (h' : Dispatched b m' m'' es') :
    Dispatched b m m'' (es ++ es') where
  console := by rw [List.filterMap_append, List.foldl_append, ← h.console, ← h'.console]
  kb := by rw [List.filterMap_append, List.foldl_append, ← h.kb, ← h'.kb]
  mailbox := by rw [List.filterMap_append, List.foldl_append, ← h.mailbox, ← h'.mailbox]
  lastFunc := by rw [List.any_append, ← Bool.or_assoc, ← h.lastFunc, h'.lastFunc]
  acknowledged := by
    rw [List.filter_append, List.map_append, ← List.append_assoc, ← h.acknowledged, h'.acknowledged]

theorem keyboardIhLow_called (lastFunc : SendbyteFunc) (k : KbState) (data : KeyboardStatus) :
    (keyboardIhLow lastFunc k data).2.called.isSome ↔
      data.keycode = kbDataEcho ∨ data.keycode = kbDataAck := by
  by_cases hecho : data.keycode = kbDataEcho
  · simp [keyboardIhLow, hecho, callLastFunc]
  · by_cases hack : data.keycode = kbDataAck
    · rw [keyboardIhLow_ack lastFunc k hack]
      simp [hack]
    · by_cases hresend : data.keycode = kbDataResend
      · rw [keyboardIhLow_resend hresend]
        simp [hecho, hack]
      · simp [keyboardIhLow, hecho, hack, hresend]

theorem callHandler_keyboard :
    m.callHandler b data .keyboardIhLow =
      if (data.keycode = kbDataEcho ∨ data.keycode = kbDataAck) ∧ m.lastFuncSet = false then none
      else some ({ m with
        kb := { m.kb with kb := (keyboardIhLow m.kb.lastFunc m.kb.kb data).1 } }.send
          (keyboardIhLow m.kb.lastFunc m.kb.kb data).2) :=
  if_congr (and_congr_left' (keyboardIhLow_called ..)) rfl rfl

theorem isAnswer_of_calls (h : (Event.interrupt data).CallsLastFunc) : IsAnswer data := by
  refine ⟨h.1, ?_⟩
  rcases h.2 with heq | heq
  · rw [heq]
    decide
  · rw [heq]
    decide

/-- An event is fatal when it calls `last_func` before a flush has set it, or is a flush
itself that finds neither a command nor a function. -/
theorem Serves.exec_eq_none (h : Serves m.registry) :
    m.exec b e = none ↔ e.CallsLastFunc ∧ m.lastFuncSet = false ∨
      e.FindsNull ∧ m.kb.keyboardQu.clist.head = 0 := by
  cases e with
  | interrupt data =>
    refine Iff.trans ?_ (or_iff_left fun h => h.1).symm
    show m.cintKeyboard b data = none ↔ _
    rw [h.cintKeyboard, Option.map_eq_none_iff]
    by_cases hanswer : IsAnswer data
    · rw [if_pos hanswer, callHandler_keyboard]
      have hcalls : (Event.interrupt data).CallsLastFunc ↔
          data.keycode = kbDataEcho ∨ data.keycode = kbDataAck := and_iff_right hanswer.1
      rw [hcalls]
      split
      · next hfault => exact iff_of_true rfl hfault
      · next hfine => exact iff_of_false nofun hfine
    · have hcalls : ¬(Event.interrupt data).CallsLastFunc := mt isAnswer_of_calls hanswer
      rw [if_neg hanswer]
      refine iff_of_false ?_ fun h => hcalls h.1
      split
      · exact nofun
      · exact nofun
  | flush junk null cmdStatus =>
    refine Iff.trans ?_ (or_iff_right fun h => h.1).symm
    show (if m.kb.keyboardQu.clist.head = 0 ∧ null = true then none else some _) = none ↔ _
    split
    · next hfault => exact iff_of_true rfl ⟨hfault.2, hfault.1⟩
    · next hfine => exact iff_of_false nofun fun h => hfine ⟨h.2, h.1⟩
  | console call => exact iff_of_false nofun fun h => h.elim And.left And.left
  | echo n => exact iff_of_false nofun fun h => h.elim And.left And.left
  | pciInit dev slot => exact iff_of_false nofun fun h => h.elim And.left And.left
  | dqTest => exact iff_of_false nofun fun h => h.elim And.left And.left
  | krecive => exact iff_of_false nofun fun h => h.elim And.left And.left

theorem Dispatched.of_event
    (console : m'.console = e.ttyCall.elim m.console (m.console.exec b))
    (kb : (m'.kb, m'.sent kbPort) =
      e.kbCall.elim (m.kb, m.sent kbPort) (KbCall.exec (m.kb, m.sent kbPort)))
    (mailbox : m'.mailbox = e.mailCall.elim m.mailbox (MailCall.exec m.mailbox))
    (lastFunc : m'.lastFuncSet = (m.lastFuncSet || e.isFlush))
    (acknowledged : m'.sent pic1CmdPort =
      m.sent pic1CmdPort ++ if e.isInterrupt then [picEoi] else []) :
    Dispatched b m m' [e] where
  console := by
    rw [console]
    cases hcall : e.ttyCall <;> simp [hcall]
  kb := by
    rw [kb]
    cases hcall : e.kbCall <;> simp [hcall]
  mailbox := by
    rw [mailbox]
    cases hcall : e.mailCall <;> simp [hcall]
  lastFunc := by rw [lastFunc, List.any_cons, List.any_nil, Bool.or_false]
  acknowledged := by
    rw [acknowledged]
    cases hinterrupt : e.isInterrupt <;> simp [hinterrupt]

theorem Dispatched.interrupt
    (console : m'.console = (Event.interrupt data).ttyCall.elim m.console (m.console.exec b))
    (kb : (m'.kb, m'.sent kbPort) = (Event.interrupt data).kbCall.elim (m.kb, m.sent kbPort)
      (KbCall.exec (m.kb, m.sent kbPort)))
    (mailbox : m'.mailbox =
      (Event.interrupt data).mailCall.elim m.mailbox (MailCall.exec m.mailbox))
    (lastFunc : m'.lastFuncSet = m.lastFuncSet)
    (quiet : m'.sent pic1CmdPort = m.sent pic1CmdPort) :
    Dispatched b m { m' with out := m'.out ++ [(pic1CmdPort, picEoi)] } [.interrupt data] := by
  have hother : kbPort ≠ pic1CmdPort := by decide
  refine .of_event console ?_ mailbox (lastFunc.trans (Bool.or_false _).symm) ?_
  · rw [acknowledge_sent, if_neg hother, List.append_nil]
    exact kb
  · rw [acknowledge_sent, if_pos rfl, quiet]
    rfl

theorem Serves.interrupt (h : Serves m.registry) (hexec : m.exec b (.interrupt data) = some m') :
    Serves m'.registry ∧ Dispatched b m m' [.interrupt data] := by
  replace hexec : m.cintKeyboard b data = some m' := hexec
  rw [h.cintKeyboard, Option.map_eq_some_iff] at hexec
  obtain ⟨m₁, hexec, rfl⟩ := hexec
  by_cases hanswer : IsAnswer data
  · have hkey : ¬IsKey data := fun h => h.2.2 hanswer.2
    have htty : (Event.interrupt data).ttyCall = none := if_neg hkey
    have hkb : (Event.interrupt data).kbCall = some (.answer data) := if_pos hanswer
    rw [if_pos hanswer, callHandler_keyboard, Option.ite_none_left_eq_some] at hexec
    obtain ⟨-, hexec⟩ := hexec
    obtain rfl := Option.some.inj hexec
    refine ⟨h, .interrupt ?_ ?_ ?_ rfl ?_⟩
    · rw [htty]
      rfl
    · rw [hkb, send_sent, if_pos rfl]
      rfl
    · have hmail : (Event.interrupt data).mailCall = none := if_neg fun h => hkey h.1
      rw [hmail]
      rfl
    · rw [send_sent, if_neg (by decide), List.append_nil]
      rfl
  · have hkb : (Event.interrupt data).kbCall = none := if_neg hanswer
    rw [if_neg hanswer] at hexec
    by_cases hkey : IsKey data
    · have htty : (Event.interrupt data).ttyCall = some (.key data.keycode) := if_pos hkey
      rw [if_pos hkey] at hexec
      obtain rfl := Option.some.inj hexec
      refine ⟨h, .interrupt ?_ ?_ ?_ rfl rfl⟩
      · rw [htty]
        rfl
      · rw [hkb]
        rfl
      · show (if Tty.keyChar data.keycode = 0 then m.mailbox
          else post m.mailbox .ttyKeyboardIhHigh) = _
        by_cases hchar : Tty.keyChar data.keycode = 0
        · rw [if_pos hchar, Event.mailCall, if_neg fun h => h.2 hchar]
          rfl
        · rw [if_neg hchar, Event.mailCall, if_pos ⟨hkey, hchar⟩]
          rfl
    · have htty : (Event.interrupt data).ttyCall = none := if_neg hkey
      rw [if_neg hkey] at hexec
      obtain rfl := Option.some.inj hexec
      refine ⟨h, .interrupt ?_ ?_ ?_ rfl rfl⟩
      · rw [htty]
        rfl
      · rw [hkb]
        rfl
      · have hmail : (Event.interrupt data).mailCall = none := if_neg fun h => hkey h.1
        rw [hmail]
        rfl

theorem Serves.step (h : Serves m.registry) (hstep : (machine b).step m e m') :
    Serves m'.registry ∧ Dispatched b m m' [e] := by
  obtain ⟨hready, hexec⟩ := hstep
  cases e with
  | interrupt data => exact h.interrupt hexec
  | console call =>
    obtain rfl := Option.some.inj hexec
    exact ⟨h, .of_event rfl rfl rfl (Bool.or_false _).symm (List.append_nil _).symm⟩
  | echo n =>
    obtain rfl := Option.some.inj hexec
    exact ⟨h, .of_event rfl rfl rfl (Bool.or_false _).symm (List.append_nil _).symm⟩
  | flush junk null cmdStatus =>
    obtain ⟨-, hexec⟩ := Option.ite_none_left_eq_some.mp hexec
    obtain rfl := Option.some.inj hexec
    refine ⟨h, .of_event rfl ?_ rfl (Bool.or_true _).symm ?_⟩
    · rw [send_sent, if_pos rfl]
      rfl
    · rw [send_sent]
      rfl
  | pciInit dev slot =>
    obtain rfl := Option.some.inj hexec
    obtain ⟨hdev, hslot, hnew⟩ := hready
    exact ⟨h.pciInit hdev hslot hnew, .of_event rfl rfl rfl (Bool.or_false _).symm
      (List.append_nil _).symm⟩
  | dqTest =>
    obtain rfl := Option.some.inj hexec
    exact ⟨h, .of_event rfl rfl rfl (Bool.or_false _).symm (List.append_nil _).symm⟩
  | krecive =>
    obtain rfl := Option.some.inj hexec
    exact ⟨h, .of_event rfl rfl rfl (Bool.or_false _).symm (List.append_nil _).symm⟩

def Queued (kb : KbDriver) (n : Nat) : Prop :=
  ∃ l, RingOf kb.keyboardQu.clist l ∧ l.length = n

theorem Queued.head_eq_zero {kb : KbDriver} {n : Nat} (h : Queued kb n) :
    kb.keyboardQu.clist.head = 0 ↔ n = 0 := by
  obtain ⟨l, hring, rfl⟩ := h
  cases l with
  | nil => exact iff_of_true hring.head rfl
  | cons i l =>
    exact iff_of_false (fun hzero => hring.ne_zero List.mem_cons_self (hring.head.symm.trans hzero))
      (Nat.succ_ne_zero _)

theorem Queued.echo {kb : KbDriver} {n : Nat} {slot : Word} (h : Queued kb n)
    (hslot : slot ∉ 0 :: kb.keyboardQu.clist.members) : Queued (kb.ioctlEcho slot) (n + 1) := by
  obtain ⟨l, hring, rfl⟩ := h
  rw [hring.members_eq] at hslot
  obtain ⟨l', hring', hperm⟩ :=
    hring.clistInsertAfter_perm (hring.tail.imp_right And.right) hslot
  exact ⟨l', hring', hperm.length_eq⟩

theorem Queued.flush {kb : KbDriver} {n : Nat} {junk : Word} {cmdStatus : Byte} (h : Queued kb n) :
    Queued (kb.ioctlFlush junk cmdStatus).1 (n - 1) := by
  have hhead := h.head_eq_zero
  obtain ⟨l, hring, rfl⟩ := h
  cases l with
  | nil => exact ⟨[], by rw [ioctlFlush_empty (hhead.mpr rfl)]; exact hring, rfl⟩
  | cons i l =>
    have hne : kb.keyboardQu.clist.head ≠ 0 := fun hzero => Nat.succ_ne_zero _ (hhead.mp hzero)
    have hmem : kb.keyboardQu.clist.head ∈ i :: l := by
      rw [hring.head]
      exact List.mem_cons_self
    obtain ⟨l', hring', hperm⟩ := hring.clistDelete hmem
    refine ⟨l', by rw [(ioctlFlush_nonempty hne junk cmdStatus).1]; exact hring', ?_⟩
    have hlen := hperm.length_eq
    simp only [List.length_cons] at hlen ⊢
    omega

theorem Queued.step {n : Nat} (h : Serves m.registry) (hq : Queued m.kb n)
    (hstep : (machine b).step m e m') : Queued m'.kb (e.queued n) := by
  have hkb := congrArg Prod.fst (h.step hstep).2.kb
  obtain ⟨hready, hexec⟩ := hstep
  cases e with
  | interrupt data =>
    have hqu : m'.kb.keyboardQu = m.kb.keyboardQu := by
      rw [show m'.kb = _ from hkb]
      by_cases hanswer : IsAnswer data
      · have hcall : (Event.interrupt data).kbCall = some (.answer data) := if_pos hanswer
        simp only [List.filterMap_cons, hcall, List.filterMap_nil]
        rfl
      · have hcall : (Event.interrupt data).kbCall = none := if_neg hanswer
        simp only [List.filterMap_cons, hcall, List.filterMap_nil]
        rfl
    obtain ⟨l, hring, hlen⟩ := hq
    exact ⟨l, by rw [hqu]; exact hring, hlen⟩
  | console call =>
    obtain rfl := Option.some.inj hexec
    exact hq
  | echo slot =>
    obtain rfl := Option.some.inj hexec
    exact hq.echo hready
  | flush junk null cmdStatus =>
    obtain ⟨-, hexec⟩ := Option.ite_none_left_eq_some.mp hexec
    obtain rfl := Option.some.inj hexec
    exact hq.flush
  | pciInit dev slot =>
    obtain rfl := Option.some.inj hexec
    exact hq
  | dqTest =>
    obtain rfl := Option.some.inj hexec
    exact hq
  | krecive =>
    obtain rfl := Option.some.inj hexec
    exact hq

theorem Serves.run {tr : List (Event × Machine)} {n : Nat} (h : Serves m.registry)
    (hq : Queued m.kb n) (htr : (machine b).Trace m tr) :
    Serves (final m tr).registry ∧ Dispatched b m (final m tr) (tr.map Prod.fst) ∧
      Queued (final m tr).kb ((tr.map Prod.fst).foldl Event.queued n) := by
  induction tr generalizing m n with
  | nil => exact ⟨h, .refl m, hq⟩
  | cons x tr ih =>
    obtain ⟨hnext, hone⟩ := h.step htr.1
    obtain ⟨hlast, hrest, hqueued⟩ := ih hnext (hq.step h htr.1) htr.2
    exact ⟨hlast, hone.trans hrest, hqueued⟩

theorem post_length {α : Type*} {mailbox : List α} (h : (mailbox.length : Int) ≤ taskMsgBuffSize)
    (msg : α) : ((post mailbox msg).length : Int) ≤ taskMsgBuffSize := by
  rw [post]
  split
  · exact h
  · next hroom =>
    rw [List.length_append, List.length_singleton]
    push_cast
    omega

theorem mailbox_length {calls : List MailCall} {mailbox : List DqMessage}
    (h : (mailbox.length : Int) ≤ taskMsgBuffSize) :
    ((calls.foldl MailCall.exec mailbox).length : Int) ≤ taskMsgBuffSize := by
  induction calls generalizing mailbox with
  | nil => exact h
  | cons call calls ih =>
    refine ih ?_
    cases call with
    | ksend msg => exact post_length h msg
    | krecive =>
      rw [MailCall.exec, List.length_dropLast]
      omega

/-- In any order of interrupts, calls of the terminal's and the keyboard's driver, messages
to and turns of `dq_task`, and registrations: the terminal has seen the keys, the driver of the
keyboard the answers, the mailbox a message for each key with a character that found room, and
the controller an EOI for each interrupt. The next event is fatal when it is an ECHO or an ACK
and no flush has been made, or a flush that finds NULL while no command is queued. -/
theorem keyboard_interrupts_dispatch {tr : List (Event × Machine)} (hm : (machine b).start m)
    (htr : (machine b).Trace m tr) :
    Dispatched b m (final m tr) (tr.map Prod.fst) ∧
      ((final m tr).mailbox.length : Int) ≤ taskMsgBuffSize ∧
      ∀ e, (final m tr).exec b e = none ↔
        e.CallsLastFunc ∧ (∀ x ∈ tr, x.1.isFlush = false) ∨
          e.FindsNull ∧ (tr.map Prod.fst).foldl Event.queued 0 = 0 := by
  obtain ⟨hbooted, hnull, hempty, hmail⟩ := hm
  obtain ⟨hserves, hdispatched, hqueued⟩ :=
    (Booted.serves hbooted).run (n := 0) ⟨[], ringOf_start hempty, rfl⟩ htr
  refine ⟨hdispatched, ?_, fun e => ?_⟩
  · rw [hdispatched.mailbox]
    refine mailbox_length ?_
    rw [hmail]
    decide
  · rw [hserves.exec_eq_none, hqueued.head_eq_zero, hdispatched.lastFunc, hnull, Bool.false_or,
      List.any_map, List.any_eq_false]
    simp

def bootedMachine : Machine where
  registry := ttyInit (keyboardInit (noDevices (fun _ => noSlots) (fun _ => ⟨0, 0⟩)
    fun _ => .pciIhLow) 16 48) 32 64
  console := ⟨⟨fun _ => 0, 0x1000, true, true, []⟩, []⟩
  kb := ⟨⟨0, 0, 0⟩, default, ⟨noSlots, fun _ => 0, fun _ => default⟩⟩
  lastFuncSet := false
  mailbox := []
  out := []

def inputBuff : Tty.InputBuff := ⟨0x1000, by decide⟩

theorem bootedMachine_start : (machine inputBuff).start bootedMachine :=
  ⟨⟨fun _ => noSlots, fun _ => ⟨0, 0⟩, fun _ => .pciIhLow, 16, 48, 32, 64, by decide, by decide,
    by decide, by decide, rfl⟩, rfl, ⟨rfl, rfl, rfl⟩, rfl⟩

theorem trace_of_interrupts {tr : List (Event × Machine)}
    (hes : ∀ e ∈ es, e.isInterrupt = true) (h : replay (Machine.exec b) m es = some tr) :
    (machine b).Trace m tr := by
  induction es generalizing m tr with
  | nil =>
    obtain rfl := Option.some.inj h
    trivial
  | cons e es ih =>
    obtain ⟨he, hes⟩ := List.forall_mem_cons.mp hes
    obtain ⟨m', hexec, h⟩ := Option.bind_eq_some_iff.mp h
    obtain ⟨tr', hrest, rfl⟩ := Option.map_eq_some_iff.mp h
    refine ⟨⟨?_, hexec⟩, ih hes hrest⟩
    cases e with
    | interrupt data => trivial
    | _ => cases he

/-- Nine keys, the last of which finds the mailbox full; then the ACK to a command that nobody
has sent, or a flush. -/
theorem keyboard_interrupts_dispatch_ack : ∃ tr,
    replay (Machine.exec inputBuff) bootedMachine (List.replicate 9 (.interrupt ⟨1, 30⟩)) =
        some tr ∧
      (final bootedMachine tr).console =
        (List.replicate 9 (Tty.Call.key 30)).foldl (Tty.Console.exec inputBuff)
          bootedMachine.console ∧
      (final bootedMachine tr).mailbox = List.replicate 8 .ttyKeyboardIhHigh ∧
      (final bootedMachine tr).sent pic1CmdPort = List.replicate 9 picEoi ∧
      (final bootedMachine tr).exec inputBuff (.interrupt ⟨1, kbDataAck⟩) = none ∧
      (final bootedMachine tr).exec inputBuff (.flush 0 true 0) = none := by
  have hrun : (replay (Machine.exec inputBuff) bootedMachine
      (List.replicate 9 (.interrupt ⟨1, 30⟩))).isSome := by decide +kernel
  obtain ⟨tr, htr⟩ := Option.isSome_iff_exists.mp hrun
  have hlabels := labels_of_replay htr
  have htrace : (machine inputBuff).Trace bootedMachine tr :=
    trace_of_interrupts (fun e he => by rw [List.eq_of_mem_replicate he]; rfl) htr
  obtain ⟨hdispatched, -, hfault⟩ := keyboard_interrupts_dispatch bootedMachine_start htrace
  rw [hlabels] at hdispatched hfault
  refine ⟨tr, htr, hdispatched.console, hdispatched.mailbox, hdispatched.acknowledged,
    (hfault _).mpr (.inl ⟨⟨by decide, .inr rfl⟩, fun x hx => ?_⟩), (hfault _).mpr (.inr ⟨rfl, rfl⟩)⟩
  have hmem := List.mem_map_of_mem (f := Prod.fst) hx
  rw [hlabels] at hmem
  rw [List.eq_of_mem_replicate hmem]
  rfl

end RubiKernel.Dev
