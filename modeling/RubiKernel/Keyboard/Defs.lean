import RubiKernel.Queue

/-! `dev/kb_driver.c`: commands to the keyboard, and the bytes it answers with. -/

namespace RubiKernel.Keyboard

open Queue

def kbDataEcho : Byte := 0xEE

def kbDataAck : Byte := 0xFA

def kbDataResend : Byte := 0xFE

def kbStatusIdle : Byte := 0x0

def kbStatusResend0 : Byte := 0x1

def kbStatusResend2 : Byte := 0x3

def kbStatusFailed : Byte := 0x4

def kbStatusInWork0 : Byte := 0x5

structure KeyboardStatus where
  status : Byte
  keycode : Byte

structure KbState where
  kbStatus : Byte
  kbLastByte : Byte
  kbStatusBeforeResend : Byte
  deriving DecidableEq

/-- A `sendbyte_func`, from `kb_status` and its argument to the byte it returns and the
`kb_status` it leaves. -/
abbrev SendbyteFunc := Byte → KeyboardStatus → Byte × Byte

/-- What a handler does to the outside: the `kb_status` that `last_func` was called with,
and the byte that went to `KB_PORT`. -/
structure Effect where
  called : Option Byte
  sent : Option Byte
  deriving DecidableEq

def callLastFunc (lastFunc : SendbyteFunc) (k : KbState) (data : KeyboardStatus) :
    KbState × Byte × Option Byte :=
  let (sendByte, kbStatus) := lastFunc k.kbStatus data
  ({ k with kbStatus := kbStatus }, sendByte, some k.kbStatus)

/-- The end of `keyboard_ih_low` and `send_data`: nothing is sent while the input buffer
of the controller is full. -/
def sendByteOut (k : KbState) (status sendByte : Byte) : KbState × Option Byte :=
  if sendByte ≠ 0 ∧ status &&& 0x2 = 0 then ({ k with kbLastByte := sendByte }, some sendByte)
  else (k, none)

def keyboardIhLow (lastFunc : SendbyteFunc) (k : KbState) (data : KeyboardStatus) :
    KbState × Effect :=
  let (k, sendByte, called) :=
    if data.keycode = kbDataEcho then callLastFunc lastFunc k data
    else if data.keycode = kbDataAck then
      let k :=
        if k.kbStatus ≥ kbStatusResend0 ∨ k.kbStatus ≤ kbStatusResend2 then
          { k with kbStatus := k.kbStatusBeforeResend }
        else k
      callLastFunc lastFunc k data
    else if data.keycode = kbDataResend then
      if k.kbStatus ≥ kbStatusResend0 ∨ k.kbStatus ≤ kbStatusResend2 then
        ({ k with kbStatus := k.kbStatus + 1 }, k.kbLastByte, none)
      else if k.kbStatus = kbStatusFailed then callLastFunc lastFunc k data
      else
        ({ k with kbStatusBeforeResend := k.kbStatus, kbStatus := kbStatusResend0 },
          k.kbLastByte, none)
    else (k, 0, none)
  let (k, sent) := sendByteOut k data.status sendByte
  (k, { called := called, sent := sent })

/-- `send_data`, with the byte from `KB_CMD_PORT`. -/
def sendData (lastFunc : SendbyteFunc) (k : KbState) (cmdStatus : Byte) : KbState × Effect :=
  let (k, sendByte, called) := callLastFunc lastFunc k ⟨cmdStatus, 0⟩
  let (k, sent) := sendByteOut k cmdStatus sendByte
  (k, { called := called, sent := sent })

/-- `kb_echo_func`. In the second and third case `status = KB_STATUS_IDLE` sets the
parameter, and `kb_status` stays as it is. -/
def kbEchoFunc : SendbyteFunc := fun kbStatus _ =>
  if kbStatus = kbStatusIdle then (kbDataEcho, kbStatusInWork0) else (0, kbStatus)

/-- The driver with `last_func`, and `keyboard_qu` with the functions of its records. -/
structure KbDriver where
  kb : KbState
  lastFunc : SendbyteFunc
  keyboardQu : QueueDef SendbyteFunc

instance : Inhabited SendbyteFunc := ⟨fun kbStatus _ => (0, kbStatus)⟩

def kbQueueSize : Nat := 16

def queueHeadSize : Nat := 12

/-- `KEYBOARD_IOCTL_ECHO`; `n` is the slot that `syscall_malloc` returns. -/
def KbDriver.ioctlEcho (d : KbDriver) (n : Word) : KbDriver :=
  let q := queuePush d.keyboardQu n
  let kbq := q.data n
  { d with keyboardQu := { q with body := Function.update q.body kbq kbEchoFunc } }

/-- What `IOCTL_FLUSH` does: the bytes that go into its buffer, the address it takes the
function from, and the effect of `send_data`. -/
structure Flush where
  copied : Nat
  kbq : Word
  effect : Effect

/-- `IOCTL_FLUSH`; `junk` is what stands in the buffer when nothing is copied there. -/
def KbDriver.ioctlFlush (d : KbDriver) (junk : Word) (cmdStatus : Byte) : KbDriver × Flush :=
  let (q, entry) := queuePop d.keyboardQu
  let copied := if entry.isSome then kbQueueSize else 0
  let kbq := (entry.map Slot.data).getD junk
  let lastFunc := q.body kbq
  let (kb, effect) := sendData lastFunc d.kb cmdStatus
  ({ kb := kb, lastFunc := lastFunc, keyboardQu := q },
    { copied := copied, kbq := kbq, effect := effect })

variable {lastFunc : SendbyteFunc} {k : KbState} {data : KeyboardStatus} {status sendByte : Byte}

theorem resend_range (kbStatus : Byte) :
    kbStatus ≥ kbStatusResend0 ∨ kbStatus ≤ kbStatusResend2 := by
  have hone : kbStatusResend0.toNat = 1 := rfl
  have hthree : kbStatusResend2.toNat = 3 := rfl
  rw [ge_iff_le, BitVec.le_def, BitVec.le_def]
  omega

theorem sendByteOut_empty (hempty : status &&& 0x2 = 0) (k : KbState) (sendByte : Byte) :
    sendByteOut k status sendByte =
      if sendByte ≠ 0 then ({ k with kbLastByte := sendByte }, some sendByte) else (k, none) := by
  rw [sendByteOut]
  simp only [hempty, and_true]

theorem keyboardIhLow_resend (hcode : data.keycode = kbDataResend) :
    keyboardIhLow lastFunc k data =
      ((sendByteOut { k with kbStatus := k.kbStatus + 1 } data.status k.kbLastByte).1,
        ⟨none, (sendByteOut { k with kbStatus := k.kbStatus + 1 } data.status k.kbLastByte).2⟩) := by
  have hecho : ¬kbDataResend = kbDataEcho := by decide
  have hack : ¬kbDataResend = kbDataAck := by decide
  simp only [keyboardIhLow, hcode, hecho, hack, if_false, if_true, resend_range]

theorem keyboardIhLow_ack (lastFunc : SendbyteFunc) (k : KbState)
    (hcode : data.keycode = kbDataAck) :
    (keyboardIhLow lastFunc k data).2.called = some k.kbStatusBeforeResend := by
  have hecho : ¬kbDataAck = kbDataEcho := by decide
  simp only [keyboardIhLow, hcode, hecho, if_false, if_true, resend_range, callLastFunc]

end RubiKernel.Keyboard
