import RubiKernel.Keyboard.Defs

/-! Rows of RESEND bytes. The test for the levels of resending joins its two bounds by
`||` and is met by every status, so that no row is ever begun or ended as it should be. -/

namespace RubiKernel.Keyboard

open Lts

/-- A byte from the keyboard, with the input buffer of the controller empty, and the
`last_func` that is set then. -/
structure Received where
  lastFunc : SendbyteFunc
  data : KeyboardStatus
  empty : data.status &&& 0x2 = 0

/-- The driver, the RESEND bytes of the row so far, and `kb_status` before the first one. -/
structure Row where
  kb : KbState
  resends : Nat
  before : Byte

/-- A step of the driver. An ACK ends the row, and `ends` says which other bytes do. -/
def Row.exec (ends : Byte → Bool) (s : Row) (b : Received) : Row where
  kb := (keyboardIhLow b.lastFunc s.kb b.data).1
  resends :=
    if b.data.keycode = kbDataResend then s.resends + 1
    else if b.data.keycode = kbDataAck ∨ ends b.data.keycode then 0
    else s.resends
  before :=
    if b.data.keycode = kbDataResend ∧ s.resends = 0 then s.kb.kbStatus else s.before

def rows (ends : Byte → Bool) : System Row Received where
  start s := s.resends = 0
  step s b t := t = s.exec ends b

/-- The first three RESEND bytes of a row are answered with the last byte, and the third
one leaves the status at FAILED; a further one is for `last_func`. -/
def ResendRight (s t : Row) (effect : Effect) : Prop :=
  if s.resends < 3 then
    effect = ⟨none, some s.kb.kbLastByte⟩ ∧ (s.resends = 2 → t.kb.kbStatus = kbStatusFailed)
  else effect.called = some s.kb.kbStatus

/-- `last_func` finds the status as it was before the row, if there is one. -/
def AckRight (s : Row) (effect : Effect) : Prop :=
  if s.resends = 0 then effect.called = some s.kb.kbStatus
  else s.resends ≤ 3 → effect.called = some s.before

def Right (s : Row) (b : Received) (t : Row) : Prop :=
  let effect := (keyboardIhLow b.lastFunc s.kb b.data).2
  if b.data.keycode = kbDataResend then ResendRight s t effect
  else if b.data.keycode = kbDataAck then AckRight s effect
  else True

/-- The bytes that the driver gets right: in a row of at most three, the last byte is
there to be sent, and the third RESEND meets the status RESEND2; an ACK should set the
status to `saved`, which is in `kb_status_before_resend` from the start. -/
def Intact (saved : Byte) (s : Row) (b : Received) (_ : Row) : Prop :=
  if b.data.keycode = kbDataResend then
    s.resends < 3 ∧ s.kb.kbLastByte ≠ 0 ∧ (s.resends = 2 → s.kb.kbStatus = kbStatusResend2)
  else if b.data.keycode = kbDataAck then
    if s.resends = 0 then s.kb.kbStatus = saved else s.resends ≤ 3 → s.before = saved
  else True

variable {ends : Byte → Bool} {s t : Row} {b : Received} {saved : Byte}
  {tr : List (Received × Row)}

theorem sendByteOut_before (k : KbState) (status sendByte : Byte) :
    (sendByteOut k status sendByte).1.kbStatusBeforeResend = k.kbStatusBeforeResend := by
  unfold sendByteOut
  split <;> rfl

/-- Nothing is ever stored into `kb_status_before_resend` but itself. -/
theorem keyboardIhLow_before (lastFunc : SendbyteFunc) (k : KbState) (data : KeyboardStatus) :
    (keyboardIhLow lastFunc k data).1.kbStatusBeforeResend = k.kbStatusBeforeResend := by
  simp only [keyboardIhLow, resend_range, if_true, sendByteOut_before, callLastFunc]
  split_ifs <;> rfl

theorem received_resend (hcode : b.data.keycode = kbDataResend) (k : KbState) :
    (keyboardIhLow b.lastFunc k b.data).1.kbStatus = k.kbStatus + 1 ∧
      (keyboardIhLow b.lastFunc k b.data).2 =
        ⟨none, if k.kbLastByte ≠ 0 then some k.kbLastByte else none⟩ := by
  rw [keyboardIhLow_resend hcode, sendByteOut_empty b.empty]
  split
  · exact ⟨rfl, rfl⟩
  · exact ⟨rfl, rfl⟩

theorem resend_failed (kbStatus : Byte) :
    kbStatus + 1 = kbStatusFailed ↔ kbStatus = kbStatusResend2 := by
  rw [← BitVec.add_left_inj (1 : Byte) (x := kbStatus) (y := kbStatusResend2)]
  rfl

theorem resend_iff (hcode : b.data.keycode = kbDataResend) (ht : t = s.exec ends b) :
    Right s b t ↔ Intact saved s b t := by
  obtain ⟨hstatus, heffect⟩ := received_resend hcode s.kb
  have hnext : t.kb.kbStatus = s.kb.kbStatus + 1 := by
    rw [ht]
    exact hstatus
  rw [Right, Intact, if_pos hcode, if_pos hcode, heffect, ResendRight, hnext, resend_failed]
  by_cases hrow : s.resends < 3
  · rw [if_pos hrow, iff_true_intro hrow, true_and]
    refine and_congr_left fun _ => ?_
    by_cases hbyte : s.kb.kbLastByte = 0
    · simp [hbyte]
    · simp
  · rw [if_neg hrow]
    exact iff_of_false (by simp) fun hintact => hrow hintact.1

theorem ack_iff (hcode : b.data.keycode = kbDataAck) :
    Right s b t ↔ Intact s.kb.kbStatusBeforeResend s b t := by
  have hresend : ¬kbDataAck = kbDataResend := by decide
  have hcalled := keyboardIhLow_ack b.lastFunc s.kb hcode
  rw [Right, Intact, hcode, if_neg hresend, if_neg hresend, if_pos rfl, if_pos rfl, AckRight,
    hcalled, Option.some.injEq, Option.some.injEq]
  by_cases hrow : s.resends = 0
  · rw [if_pos hrow, if_pos hrow]
    exact eq_comm
  · rw [if_neg hrow, if_neg hrow]
    exact imp_congr_right fun _ => eq_comm

theorem right_iff (hsaved : s.kb.kbStatusBeforeResend = saved) (ht : t = s.exec ends b) :
    Right s b t ↔ Intact saved s b t := by
  by_cases hresend : b.data.keycode = kbDataResend
  · exact resend_iff hresend ht
  · by_cases hack : b.data.keycode = kbDataAck
    · exact hsaved ▸ ack_iff hack
    · rw [Right, Intact, if_neg hresend, if_neg hack, if_neg hresend, if_neg hack]

/-- The protocol is kept exactly along the runs without another byte. -/
theorem resend_protocol_iff (htr : (rows ends).Trace s tr) :
    Every Right s tr ↔ Every (Intact s.kb.kbStatusBeforeResend) s tr := by
  refine htr.every_iff (I := fun t => t.kb.kbStatusBeforeResend = s.kb.kbStatusBeforeResend)
    (fun _ _ _ hsaved ht => right_iff hsaved ht) (fun u b t hsaved ht _ => ?_) rfl
  rw [ht]
  exact (keyboardIhLow_before b.lastFunc u.kb b.data).trans hsaved

instance (s t : Row) (effect : Effect) : Decidable (ResendRight s t effect) := by
  unfold ResendRight
  infer_instance

instance (s : Row) (effect : Effect) : Decidable (AckRight s effect) := by
  unfold AckRight
  infer_instance

instance (s : Row) (b : Received) (t : Row) : Decidable (Right s b t) := by
  unfold Right
  infer_instance

instance (saved : Byte) (s : Row) (b : Received) (t : Row) : Decidable (Intact saved s b t) := by
  unfold Intact
  infer_instance

def echoReceived (keycode : Byte) : Received :=
  ⟨kbEchoFunc, ⟨0, keycode⟩, BitVec.zero_and⟩

def echoRow (kbStatus : Byte) : Row := ⟨⟨kbStatus, kbDataEcho, 0⟩, 0, 0⟩

def idleBytes : List Received := [kbDataResend, kbDataResend, kbDataAck].map echoReceived

theorem resend_protocol_iff_example : ∃ tr,
    replay (fun s b => some (s.exec (fun _ => true) b)) (echoRow kbStatusIdle) idleBytes = some tr ∧
      Every Right (echoRow kbStatusIdle) tr := by
  obtain ⟨tr, hrun, htr, hintact⟩ : ∃ tr,
      replay (fun s b => some (s.exec (fun _ => true) b)) (echoRow kbStatusIdle) idleBytes = some tr ∧
        (rows fun _ => true).Trace (echoRow kbStatusIdle) tr ∧
          Every (Intact 0) (echoRow kbStatusIdle) tr :=
    System.Trace.exists_of_replay (fun _ _ _ h => (Option.some.inj h).symm) (by decide)
  exact ⟨tr, hrun, (resend_protocol_iff htr).mpr hintact⟩

/-- An ACK for the echo command takes the driver from IN_WORK0 to IDLE before
`kb_echo_func` is called; and the third of four RESEND bytes leaves the driver at
RESEND2, so that the fourth one is answered like the others. -/
theorem resend_protocol_broken :
    (∃ tr, (rows fun _ => true).Trace (echoRow kbStatusInWork0) tr ∧
      tr.map (fun x => x.1.data.keycode) = [kbDataAck] ∧
      ¬Every Right (echoRow kbStatusInWork0) tr) ∧
    (∃ tr, (rows fun _ => true).Trace (echoRow kbStatusIdle) tr ∧
      tr.map (fun x => x.1.data.keycode) = List.replicate 4 kbDataResend ∧
      tr.map (fun x => x.2.kb.kbStatus) = [1, 2, 3, 4] ∧
      ¬Every Right (echoRow kbStatusIdle) tr) := by
  have sound : ∀ s e t, some (Row.exec (fun _ => true) s e) = some t →
      (rows fun _ => true).step s e t := fun _ _ _ h => (Option.some.inj h).symm
  constructor
  · have hrun : ((replay (fun s b => some (s.exec (fun _ => true) b)) (echoRow kbStatusInWork0)
        [echoReceived kbDataAck]).any fun tr =>
          tr.map (fun x => x.1.data.keycode) = [kbDataAck] ∧
            ¬Every Right (echoRow kbStatusInWork0) tr) = true := by decide
    obtain ⟨tr, -, htr⟩ := System.Trace.exists_of_replay sound hrun
    exact ⟨tr, htr⟩
  · have hrun : ((replay (fun s b => some (s.exec (fun _ => true) b)) (echoRow kbStatusIdle)
        (List.replicate 4 (echoReceived kbDataResend))).any fun tr =>
          tr.map (fun x => x.1.data.keycode) = List.replicate 4 kbDataResend ∧
            tr.map (fun x => x.2.kb.kbStatus) = [1, 2, 3, 4] ∧
              ¬Every Right (echoRow kbStatusIdle) tr) = true := by decide
    obtain ⟨tr, -, htr⟩ := System.Trace.exists_of_replay sound hrun
    exact ⟨tr, htr⟩

end RubiKernel.Keyboard
