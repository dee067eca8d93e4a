import RubiKernel.Clist

/-! `dev/dev.c` and `DT/int.c`: an event is offered to the low-half handlers of all
devices. -/

namespace RubiKernel.Dev

open Clist Cyclic

/-- The part of an `ih_low_t` that is compared with the event. -/
structure IhLow where
  number : Word
  subnumber : Word
  deriving DecidableEq

/-- The part of an `ih_low_data_t` that is compared with the handlers. -/
structure IhLowData where
  number : Word
  subnumber : Word
  deriving DecidableEq

/-- `dev_list`, the `ih_list` of each device, and the handlers in their slots. -/
structure Devices where
  devList : Clist
  ihList : Word → Clist
  ihLow : Word → IhLow

structure Call where
  dev : Word
  slot : Word
  deriving DecidableEq

def Matches (dv : Devices) (lowData : IhLowData) (slot : Word) : Prop :=
  (dv.ihLow slot).number = lowData.number ∧ (dv.ihLow slot).subnumber &&& lowData.subnumber ≠ 0

instance (dv : Devices) (lowData : IhLowData) (slot : Word) : Decidable (Matches dv lowData slot) :=
  inferInstanceAs (Decidable (_ ∧ _))

/-- The calls up to the end of the loop's body for the node `current`. -/
def ihLowTurn (dv : Devices) (lowData : IhLowData) (entry : Word) (log : List Call)
    (current : Word) : Option (List Call) :=
  let ihLow := ((dv.ihList entry).node current).data
  some (if Matches dv lowData ihLow then log ++ [⟨entry, ihLow⟩] else log)

/-- The calls up to the end of the callback. Its loop never goes on to the next node. -/
def devEachLowIhCb (dv : Devices) (lowData : IhLowData) (log : List Call) (entry : Word) :
    Option (List Call) :=
  let ihList := dv.ihList entry
  walk id (ihLowTurn dv lowData entry)
    (fun current => ¬(current ≠ ihList.head ∧ current ≠ 0)) ihList.slots.toNat ihList.head log

/-- `none` when a loop has not ended after a turn for each of its slots. -/
def devForEach {σ : Type} (dv : Devices) (callback : σ → Word → Option σ) (s : σ) : Option σ :=
  walk dv.devList.next (fun s current => callback s (dv.devList.node current).data)
    (fun current => ¬(current ≠ dv.devList.head ∧ current ≠ 0)) dv.devList.slots.toNat
    dv.devList.head s

def lowHandlerCalls (dv : Devices) (lowData : IhLowData) : Option (List Call) :=
  devForEach dv (devEachLowIhCb dv lowData) []

/-- The devices `devs` are registered, each with the handlers in the slots `handlers dev`. -/
structure Registered (dv : Devices) (devs : List Word) (handlers : Word → List Word) : Prop where
  devices : RingOf dv.devList devs
  device : devs ≠ []
  rings : ∀ dev ∈ devs, RingOf (dv.ihList dev) (handlers dev)
  handler : ∀ dev ∈ devs, handlers dev ≠ []

/-- Each handler that matches the event is called once, and no other one is. -/
def CalledOnce (dv : Devices) (lowData : IhLowData) (devs : List Word)
    (handlers : Word → List Word) (log : List Call) : Prop :=
  ∀ c : Call, log.count c =
    if c.dev ∈ devs ∧ c.slot ∈ handlers c.dev ∧ Matches dv lowData c.slot then 1 else 0

variable {dv : Devices} {lowData : IhLowData} {devs : List Word} {handlers : Word → List Word}
  {log : List Call} {dev slot : Word}

/-- The calls for the handlers in `slots`, when all of them are asked. -/
def callsOf (dv : Devices) (lowData : IhLowData) (dev : Word) (slots : List Word) : List Call :=
  (slots.filter fun slot => Matches dv lowData slot).map (Call.mk dev)

theorem mem_callsOf {slots : List Word} {c : Call} :
    c ∈ callsOf dv lowData dev slots ↔
      c.dev = dev ∧ c.slot ∈ slots ∧ Matches dv lowData c.slot := by
  simp only [callsOf, List.mem_map, List.mem_filter, decide_eq_true_eq]
  constructor
  · rintro ⟨slot, ⟨hmem, hmatch⟩, rfl⟩
    exact ⟨rfl, hmem, hmatch⟩
  · rintro ⟨rfl, hmem, hmatch⟩
    exact ⟨c.slot, ⟨hmem, hmatch⟩, rfl⟩

theorem callsOf_nodup {slots : List Word} (h : slots.Nodup) :
    (callsOf dv lowData dev slots).Nodup :=
  (h.filter _).map fun _ _ heq => congrArg Call.slot heq

theorem devEachLowIhCb_eq (h : Registered dv devs handlers) (hdev : dev ∈ devs) (log : List Call) :
    devEachLowIhCb dv lowData log dev =
      some (log ++ callsOf dv lowData dev ((handlers dev).take 1)) := by
  obtain ⟨slot, rest, hslots⟩ := List.exists_cons_of_ne_nil (h.handler dev hdev)
  have hring := h.rings dev hdev
  rw [hslots] at hring ⊢
  have hhead : (dv.ihList dev).head = slot := hring.head
  have hdata : ((dv.ihList dev).node slot).data = slot := hring.data slot List.mem_cons_self
  have hpath : Path id slot [slot] slot := path_cons.mpr ⟨rfl, rfl⟩
  have hturns : ([] : List Word).length < (dv.ihList dev).slots.toNat := by
    rw [hring.slots]
    exact Nat.succ_pos _
  rw [devEachLowIhCb, hhead, hpath.walk_eq (by simp) (by simp) hturns]
  simp only [List.foldlM_cons, List.foldlM_nil, ihLowTurn, hdata]
  by_cases hmatch : Matches dv lowData slot
  · simp [callsOf, hmatch]
  · simp [callsOf, hmatch]

theorem foldlM_devEachLowIhCb (h : Registered dv devs handlers) {l : List Word} (hl : l ⊆ devs)
    (log : List Call) :
    l.foldlM (fun log current => devEachLowIhCb dv lowData log (dv.devList.node current).data) log =
      some (log ++ l.flatMap fun dev => callsOf dv lowData dev ((handlers dev).take 1)) := by
  induction l generalizing log with
  | nil => simp
  | cons dev l ih =>
    obtain ⟨hdev, hl⟩ := List.cons_subset.mp hl
    rw [List.foldlM_cons, h.devices.data dev hdev, devEachLowIhCb_eq h hdev, Option.bind_eq_bind,
      Option.bind_some, ih hl, List.flatMap_cons, List.append_assoc]

theorem lowHandlerCalls_eq (h : Registered dv devs handlers) (lowData : IhLowData) :
    lowHandlerCalls dv lowData =
      some (devs.flatMap fun dev => callsOf dv lowData dev ((handlers dev).take 1)) := by
  obtain ⟨dev, rest, rfl⟩ := List.exists_cons_of_ne_nil h.device
  have hhead : dv.devList.head = dev := h.devices.head
  have hpath := h.devices.path
  rw [hhead] at hpath
  have hgo : ∀ j ∈ rest, decide (¬(j ≠ dev ∧ j ≠ 0)) = false := fun j hj => by
    have hne : j ≠ dev := by
      rintro rfl
      exact (List.nodup_cons.mp h.devices.nodup).1 hj
    simpa using ⟨hne, h.devices.ne_zero (List.mem_cons_of_mem dev hj)⟩
  have hturns : rest.length < dv.devList.slots.toNat := by
    rw [h.devices.slots]
    exact Nat.lt_succ_self _
  rw [lowHandlerCalls, devForEach, hhead, hpath.walk_eq (by simp) hgo hturns,
    foldlM_devEachLowIhCb h (List.Subset.refl _), List.nil_append]

theorem calledOnce_iff_perm (h : Registered dv devs handlers) (log : List Call) :
    CalledOnce dv lowData devs handlers log ↔
      log.Perm (devs.flatMap fun dev => callsOf dv lowData dev (handlers dev)) := by
  have hnodup : (devs.flatMap fun dev => callsOf dv lowData dev (handlers dev)).Nodup := by
    refine List.nodup_flatMap.mpr ⟨fun dev hdev => callsOf_nodup (h.rings dev hdev).nodup, ?_⟩
    refine h.devices.nodup.imp fun hne c hc hc' => hne ?_
    exact (mem_callsOf.mp hc).1.symm.trans (mem_callsOf.mp hc').1
  rw [List.perm_iff_count]
  refine forall_congr' fun c => ?_
  rw [hnodup.count]
  simp only [List.mem_flatMap, mem_callsOf]
  have hmem : (∃ dev ∈ devs, c.dev = dev ∧ c.slot ∈ handlers dev ∧ Matches dv lowData c.slot) ↔
      c.dev ∈ devs ∧ c.slot ∈ handlers c.dev ∧ Matches dv lowData c.slot := by
    constructor
    · rintro ⟨dev, hdev, rfl, hslot⟩
      exact ⟨hdev, hslot⟩
    · exact fun ⟨hdev, hslot⟩ => ⟨c.dev, hdev, rfl, hslot⟩
  rw [if_congr hmem rfl rfl]

/-- Every matching handler is called once, and no other one, exactly when none of those
behind the head of a device's list matches. -/
theorem lowHandlerCalls_iff (h : Registered dv devs handlers) (lowData : IhLowData) :
    ∃ log, lowHandlerCalls dv lowData = some log ∧
      (CalledOnce dv lowData devs handlers log ↔
        ∀ dev ∈ devs, ∀ slot ∈ (handlers dev).tail, ¬Matches dv lowData slot) := by
  refine ⟨_, lowHandlerCalls_eq h lowData, ?_⟩
  rw [calledOnce_iff_perm h]
  constructor
  · intro hperm dev hdev slot hslot hmatch
    have hall : (⟨dev, slot⟩ : Call) ∈
        devs.flatMap fun dev => callsOf dv lowData dev (handlers dev) :=
      List.mem_flatMap.mpr
        ⟨dev, hdev, mem_callsOf.mpr ⟨rfl, List.mem_of_mem_tail hslot, hmatch⟩⟩
    obtain ⟨dev', hdev', hcall⟩ := List.mem_flatMap.mp (hperm.mem_iff.mpr hall)
    obtain ⟨hsame, hfirst, -⟩ := mem_callsOf.mp hcall
    have hsame : dev = dev' := hsame
    subst hsame
    have hnodup := (h.rings dev hdev).nodup
    obtain ⟨first, rest, hslots⟩ := List.exists_cons_of_ne_nil (h.handler dev hdev)
    rw [hslots] at hnodup hslot hfirst
    obtain rfl : slot = first := List.mem_singleton.mp hfirst
    exact (List.nodup_cons.mp hnodup).1 hslot
  · intro hquiet
    refine .of_eq (List.flatMap_congr fun dev hdev => ?_)
    obtain ⟨first, rest, hslots⟩ := List.exists_cons_of_ne_nil (h.handler dev hdev)
    have hnone : rest.filter (fun slot => decide (Matches dv lowData slot)) = [] := by
      refine List.filter_eq_nil_iff.mpr fun slot hslot => ?_
      rw [decide_eq_true_eq]
      refine hquiet dev hdev slot ?_
      rw [hslots]
      exact hslot
    rw [hslots, callsOf, callsOf, List.take_succ_cons, List.take_zero, List.filter_cons,
      List.filter_nil, List.filter_cons, hnone]

theorem ringOf_pair (ct : Clist) (m n : Word) (hm : m ≠ 0) (hn : n ∉ [0, m]) :
    RingOf ((ct.clistInit m).clistInsertAfter m n) [m, n] := by
  have hone : RingOf (ct.clistInit m) ([] ++ m :: []) := ringOf_clistInit ct hm
  exact hone.clistInsertAfter hn

def noSlots : Clist := ⟨0, 0, 0, fun _ => ⟨0, 0⟩⟩

def keyboards : Devices where
  devList := (noSlots.clistInit 16).clistInsertAfter 16 32
  ihList dev :=
    if dev = 16 then noSlots.clistInit 48 else (noSlots.clistInit 64).clistInsertAfter 64 80
  ihLow slot := if slot = 80 then ⟨0x21, 2⟩ else ⟨0x21, 1⟩

def keyboardHandlers (dev : Word) : List Word := if dev = 16 then [48] else [64, 80]

theorem keyboards_registered : Registered keyboards [16, 32] keyboardHandlers where
  devices := ringOf_pair noSlots 16 32 (by decide) (by decide)
  device := List.cons_ne_nil _ _
  rings dev hdev := by
    rcases List.mem_pair.mp hdev with rfl | rfl
    · exact ringOf_clistInit noSlots (by decide)
    · exact ringOf_pair noSlots 64 80 (by decide) (by decide)
  handler dev hdev := by
    rcases List.mem_pair.mp hdev with rfl | rfl
    · exact List.cons_ne_nil _ _
    · exact List.cons_ne_nil _ _

/-- New data reaches the handler of each device. -/
theorem lowHandlerCalls_iff_example : ∃ log, lowHandlerCalls keyboards ⟨0x21, 1⟩ = some log ∧
    CalledOnce keyboards ⟨0x21, 1⟩ [16, 32] keyboardHandlers log := by
  obtain ⟨log, hlog, hiff⟩ := lowHandlerCalls_iff keyboards_registered ⟨0x21, 1⟩
  refine ⟨log, hlog, hiff.mpr fun dev hdev slot hslot => ?_⟩
  rcases List.mem_pair.mp hdev with rfl | rfl
  · exact absurd hslot List.not_mem_nil
  · obtain rfl : slot = 80 := List.mem_singleton.mp hslot
    decide

/-- No handler is called for a new key, which the second handler of the second device
waits for. -/
theorem lowHandlerCalls_second :
    Registered keyboards [16, 32] keyboardHandlers ∧
      lowHandlerCalls keyboards ⟨0x21, 2⟩ = some [] ∧
      ¬CalledOnce keyboards ⟨0x21, 2⟩ [16, 32] keyboardHandlers [] :=
  ⟨keyboards_registered, by decide, fun h => absurd (h ⟨32, 80⟩) (by decide)⟩

end RubiKernel.Dev
