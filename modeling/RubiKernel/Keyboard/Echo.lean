import RubiKernel.Keyboard.Defs

/-! Rounds of the echo command: `KEYBOARD_IOCTL_ECHO`, `IOCTL_FLUSH` and the keyboard's
answer. `kb_echo_func` sets its parameter where it should set `kb_status`, so that the
first round is the last one that sends anything. -/

namespace RubiKernel.Keyboard

open Clist Queue

/-- A round with the input buffer of the controller empty: the slot of the record, what
the buffer of the flush holds before, and the bytes read from `KB_CMD_PORT`. -/
structure Round where
  slot : Word
  fresh : slot ≠ 0
  junk : Word
  cmdStatus : Byte
  cmdEmpty : cmdStatus &&& 0x2 = 0
  status : Byte
  empty : status &&& 0x2 = 0

def KbDriver.echoRound (d : KbDriver) (r : Round) : KbDriver × List Byte :=
  let (d, flush) := (d.ioctlEcho r.slot).ioctlFlush r.junk r.cmdStatus
  let (kb, effect) := keyboardIhLow d.lastFunc d.kb ⟨r.status, kbDataEcho⟩
  ({ d with kb := kb }, flush.effect.sent.toList ++ effect.sent.toList)

/-- Each round sends the echo byte once and leaves the driver idle. -/
def Completes : KbDriver → List Round → Prop
  | _, [] => True
  | d, r :: rs =>
    (d.echoRound r).2.count kbDataEcho = 1 ∧ (d.echoRound r).1.kb.kbStatus = kbStatusIdle ∧
      Completes (d.echoRound r).1 rs

def KbDriver.echoRounds (d : KbDriver) : List Round → KbDriver × List Byte
  | [] => (d, [])
  | r :: rs =>
    let rest := (d.echoRound r).1.echoRounds rs
    (rest.1, (d.echoRound r).2 ++ rest.2)

def afterEcho (kbStatus : Byte) : Byte :=
  if kbStatus = kbStatusIdle then kbStatusInWork0 else kbStatus

variable {d : KbDriver} {n : Word} {cmdStatus : Byte} {k : KbState}

theorem afterEcho_ne_idle (kbStatus : Byte) : afterEcho kbStatus ≠ kbStatusIdle := by
  unfold afterEcho
  split
  · decide
  · next h => exact h

theorem ioctlEcho_empty (h : RingOf d.keyboardQu.clist []) (hn : n ≠ 0) :
    RingOf (d.ioctlEcho n).keyboardQu.clist [n] ∧ (d.ioctlEcho n).keyboardQu.data n = n ∧
      (d.ioctlEcho n).keyboardQu.body n = kbEchoFunc ∧ (d.ioctlEcho n).kb = d.kb := by
  have hslots : d.keyboardQu.clist.slots = 0 := BitVec.eq_of_toNat_eq h.slots
  have hinit : d.keyboardQu.clist.clistInsertAfter d.keyboardQu.clist.tail n =
      d.keyboardQu.clist.clistInit n := if_pos (.inr hslots)
  refine ⟨?_, ?_, ?_, rfl⟩
  · show RingOf (d.keyboardQu.clist.clistInsertAfter d.keyboardQu.clist.tail n) [n]
    rw [hinit]
    exact ringOf_clistInit _ hn
  · simp only [KbDriver.ioctlEcho, queuePush, Function.update_self]
  · simp only [KbDriver.ioctlEcho, queuePush, Function.update_self]

theorem ioctlFlush_single (h : RingOf d.keyboardQu.clist [n]) (hdata : d.keyboardQu.data n = n)
    (junk : Word) (cmdStatus : Byte) :
    RingOf (d.ioctlFlush junk cmdStatus).1.keyboardQu.clist [] ∧
      (d.ioctlFlush junk cmdStatus).1.lastFunc = d.keyboardQu.body n ∧
      (d.ioctlFlush junk cmdStatus).1.kb = (sendData (d.keyboardQu.body n) d.kb cmdStatus).1 ∧
      (d.ioctlFlush junk cmdStatus).2.effect = (sendData (d.keyboardQu.body n) d.kb cmdStatus).2 := by
  have hhead : d.keyboardQu.clist.head = n := h.head
  have hn : n ≠ 0 := h.ne_zero List.mem_cons_self
  have hpop : queuePop d.keyboardQu =
      ({ d.keyboardQu with clist := d.keyboardQu.clist.clistDelete n },
        some (d.keyboardQu.slot n)) := by
    simp only [queuePop, hhead, ne_eq, hn, not_false_eq_true, if_true]
  simp only [KbDriver.ioctlFlush, hpop, Option.map_some, Option.getD_some, QueueDef.slot, hdata]
  exact ⟨h.clistDelete_single, trivial, trivial, trivial⟩

theorem sendData_echo (hempty : cmdStatus &&& 0x2 = 0) (k : KbState) :
    (sendData kbEchoFunc k cmdStatus).1.kbStatus = afterEcho k.kbStatus ∧
      (sendData kbEchoFunc k cmdStatus).2.sent =
        if k.kbStatus = kbStatusIdle then some kbDataEcho else none := by
  have hbyte : kbDataEcho ≠ 0 := by decide
  by_cases hidle : k.kbStatus = kbStatusIdle
  · simp only [sendData, callLastFunc, kbEchoFunc, hidle, if_true, sendByteOut_empty hempty, hbyte,
      ne_eq, not_false_eq_true, afterEcho, and_self]
  · simp only [sendData, callLastFunc, kbEchoFunc, hidle, if_false, sendByteOut_empty hempty,
      ne_eq, not_true_eq_false, afterEcho, and_self]

theorem keyboardIhLow_echo {status : Byte} (hempty : status &&& 0x2 = 0)
    (hbusy : k.kbStatus ≠ kbStatusIdle) :
    keyboardIhLow kbEchoFunc k ⟨status, kbDataEcho⟩ = (k, ⟨some k.kbStatus, none⟩) := by
  simp only [keyboardIhLow, if_true, callLastFunc, kbEchoFunc, hbusy, if_false,
    sendByteOut_empty hempty, ne_eq, not_true_eq_false]

theorem echoRound_spec (h : RingOf d.keyboardQu.clist []) (r : Round) :
    RingOf (d.echoRound r).1.keyboardQu.clist [] ∧
      (d.echoRound r).1.kb.kbStatus = afterEcho d.kb.kbStatus ∧
      (d.echoRound r).2 = if d.kb.kbStatus = kbStatusIdle then [kbDataEcho] else [] := by
  obtain ⟨hring, hdata, hbody, hkb⟩ := ioctlEcho_empty h r.fresh
  obtain ⟨hempty, hfunc, hstate, heffect⟩ :=
    ioctlFlush_single hring hdata r.junk r.cmdStatus
  rw [hbody] at hfunc hstate heffect
  rw [hkb] at hstate heffect
  obtain ⟨hstatus, hsent⟩ := sendData_echo r.cmdEmpty d.kb
  rw [← hstate] at hstatus
  have hbusy := afterEcho_ne_idle d.kb.kbStatus
  rw [← hstatus] at hbusy
  have hanswer := keyboardIhLow_echo r.empty hbusy
  simp only [KbDriver.echoRound, hfunc, hanswer, heffect, hsent]
  refine ⟨hempty, hstatus, ?_⟩
  split <;> rfl

/-- However many the rounds, the echo byte is sent once, and only to a driver that was
idle before the first of them. -/
theorem echoRounds_sent (h : RingOf d.keyboardQu.clist []) (r : Round) (rs : List Round) :
    (d.echoRounds (r :: rs)).2 = if d.kb.kbStatus = kbStatusIdle then [kbDataEcho] else [] := by
  induction rs generalizing d r with
  | nil =>
    obtain ⟨-, -, hsent⟩ := echoRound_spec h r
    rw [KbDriver.echoRounds, KbDriver.echoRounds, List.append_nil, hsent]
  | cons r' rs ih =>
    obtain ⟨hring, hstatus, hsent⟩ := echoRound_spec h r
    have hrest := ih hring r'
    rw [hstatus, if_neg (afterEcho_ne_idle _)] at hrest
    rw [KbDriver.echoRounds, hrest, List.append_nil, hsent]

theorem echoRounds_complete_iff (h : RingOf d.keyboardQu.clist []) (rs : List Round) :
    Completes d rs ↔ rs.length = 0 := by
  cases rs with
  | nil => exact iff_of_true trivial rfl
  | cons r rs =>
    refine iff_of_false (fun hcompletes => ?_) (Nat.succ_ne_zero _)
    obtain ⟨-, hstatus, -⟩ := echoRound_spec h r
    exact afterEcho_ne_idle _ (hstatus.symm.trans hcompletes.2.1)

def bootDriver : KbDriver :=
  ⟨⟨kbStatusIdle, 0, 0⟩, default, ⟨zeroed, fun _ => 0, fun _ => default⟩⟩

theorem bootDriver_empty : RingOf bootDriver.keyboardQu.clist [] := ringOf_start ⟨rfl, rfl, rfl⟩

def bootRound : Round := ⟨0x1000, by decide, 0, 0, by decide, 0, by decide⟩

theorem echoRounds_complete_iff_example : ¬Completes bootDriver [bootRound] := fun h =>
  absurd ((echoRounds_complete_iff bootDriver_empty [bootRound]).mp h) (by decide)

/-- The first of two rounds ends in IN_WORK0, and the second one sends nothing. -/
theorem echoRounds_stuck :
    (bootDriver.echoRound bootRound).2 = [kbDataEcho] ∧
      (bootDriver.echoRound bootRound).1.kb.kbStatus = kbStatusInWork0 ∧
      ((bootDriver.echoRound bootRound).1.echoRound bootRound).2 = [] ∧
      ¬Completes bootDriver [bootRound, bootRound] := by
  refine ⟨by decide, by decide, by decide, fun h => ?_⟩
  exact absurd h.2.1 (by decide)

end RubiKernel.Keyboard
