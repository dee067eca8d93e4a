import RubiKernel.Lib.Memory
import RubiKernel.Types

/-! `dev/tty.c`: the buffer that the keyboard interrupt fills and `tty_read` reads. -/

namespace RubiKernel.Tty

def vgaCols : Nat := 80

def backspace : Byte := 8

def newline : Byte := 10

/-- The rows of `keyboard_map`; the keys after them are undefined. -/
def keyboardMap : List Byte :=
  [0, 27, 49, 50, 51, 52, 53, 54, 55, 56,
   57, 48, 45, 61, backspace,
   9,
   113, 119, 101, 114,
   116, 121, 117, 105, 111, 112, 91, 93, newline,
   0,
   97, 115, 100, 102, 103, 104, 106, 107, 108, 59,
   39, 96, 0,
   92, 122, 120, 99, 118, 98, 110,
   109, 44, 46, 47, 0,
   42, 0,
   32,
   0,
   0,
   0, 0, 0, 0, 0, 0, 0, 0, 0,
   0,
   0,
   0,
   0,
   0,
   45, 0,
   0, 0,
   43, 0]

/-- The character of a key press; a release and an undefined key have none. -/
def keyChar (keycode : Byte) : Byte :=
  if keycode.toNat < 128 then keyboardMap.getD keycode.toNat 0 else 0

structure InputBuff where
  addr : Word
  fits : addr.toNat + vgaCols < 2 ^ 32

/-- The address of a character of the buffer, or of its end. -/
def InputBuff.index (b : InputBuff) (k : Nat) : Word := b.addr + BitVec.ofNat 32 k

/-- The data of the driver; `echoed` has the characters given to `term_putc`, the
last one first. -/
structure Driver where
  mem : Memory
  inputPtr : Word
  readLineMode : Bool
  isEcho : Bool
  echoed : List Byte

/-- The handler without its message to the deferred-work task. -/
def ttyKeyboardIhLow (b : InputBuff) (s : Driver) (keycode : Byte) : Driver :=
  let ch := keyChar keycode
  if ch = 0 then s
  else
    let s :=
      if s.inputPtr < b.index vgaCols ∧ (ch ≠ backspace ∨ s.readLineMode = false) then
        { s with mem := Function.update s.mem s.inputPtr ch, inputPtr := s.inputPtr + 1 }
      else s
    let s :=
      if s.isEcho ∧ s.inputPtr > b.addr then { s with echoed := ch :: s.echoed } else s
    if s.readLineMode ∧ ch = backspace ∧ s.inputPtr > b.addr then
      { s with mem := Function.update s.mem (s.inputPtr - 1) 0, inputPtr := s.inputPtr - 1 }
    else s

/-- The driver and `*offset` after the call, and the character. -/
def ttyReadCh (b : InputBuff) (s : Driver) (offset : Word) : Driver × Word × Byte :=
  let eof := b.addr + offset ≥ s.inputPtr
  if eof then (s, s.inputPtr - b.addr, 0)
  else
    let ch := s.mem (b.addr + offset)
    if s.readLineMode ∧ ch = newline then ({ s with inputPtr := b.addr }, 0, ch)
    else (s, offset + 1, ch)

/-- `tty_read` between two turns of its loop: `stored` has the characters stored at
`buf` so far. -/
structure Reader where
  offset : Word
  size : Word
  stored : List Byte
  returned : Bool

/-- One turn of the loop of `tty_read`, with the `sched_yield` of an empty one. -/
def ttyReadTurn (b : InputBuff) (s : Driver) (r : Reader) : Driver × Reader :=
  if r.returned then (s, r)
  else
    let (s, offset, ch) := ttyReadCh b s r.offset
    let r := { r with offset := offset }
    let r := if ch ≠ 0 then { r with stored := r.stored ++ [ch], size := r.size - 1 } else r
    (s, { r with
      returned := ¬(r.size > 0 ∧ (if s.readLineMode then ch ≠ newline else True)) })

/-- The start of `tty_read(buf, offset, size)`. -/
def ttyRead (offset size : Word) : Reader := ⟨offset, size, [], false⟩

inductive Event
  | key (keycode : Byte)
  | poll

structure State where
  driver : Driver
  reader : Reader

def exec (b : InputBuff) (s : State) : Event → State
  | .key keycode => { s with driver := ttyKeyboardIhLow b s.driver keycode }
  | .poll =>
    let (driver, reader) := ttyReadTurn b s.driver s.reader
    { driver := driver, reader := reader }

def run (b : InputBuff) (s : State) (es : List Event) : State := es.foldl (exec b) s

end RubiKernel.Tty
