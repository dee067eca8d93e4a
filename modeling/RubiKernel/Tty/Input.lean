import RubiKernel.Tty.Line

/-! Input of several lines. The reader sets `tty_input_ptr` back when it meets a
newline, and what was typed behind that newline by then is lost. -/

namespace RubiKernel.Tty

/-- The driver and the one file that reads from it: the characters that the interrupt
has put into the buffer so far, and the ones that the polls have returned. -/
structure Channel where
  driver : Driver
  offset : Word
  stored : List Byte
  returned : List Byte

/-- A key interrupt, or a call of `tty_read_ch`. -/
def Channel.exec (b : InputBuff) (c : Channel) : Event → Channel
  | .key keycode =>
    let driver := ttyKeyboardIhLow b c.driver keycode
    { c with
      driver := driver
      stored :=
        if driver.inputPtr = c.driver.inputPtr + 1 then c.stored ++ [driver.mem c.driver.inputPtr]
        else c.stored }
  | .poll =>
    let (driver, offset, ch) := ttyReadCh b c.driver c.offset
    { c with
      driver := driver
      offset := offset
      returned := if ch ≠ 0 then c.returned ++ [ch] else c.returned }

def Channel.run (b : InputBuff) (c : Channel) (es : List Event) : Channel :=
  es.foldl (Channel.exec b) c

/-- The reader is given what was typed, in order, and all of it once it polls often
enough. -/
structure Delivers (b : InputBuff) (c : Channel) : Prop where
  inOrder : c.returned <+: c.stored
  all : ∃ m, ∀ n ≥ m, (c.run b (List.replicate n .poll)).returned = c.stored

/-- The characters from `tty_input_buff` to `tty_input_ptr`. -/
def held (b : InputBuff) (d : Driver) : List Byte :=
  (List.range (d.inputPtr - b.addr).toNat).map fun i => d.mem (b.index i)

/-- The reader has taken the newline from the buffer by the time the next character is
put into it. -/
def KeepsUp (b : InputBuff) : Channel → List Event → Prop
  | _, [] => True
  | c, .key keycode :: es =>
    (keyChar keycode ≠ 0 ∧ c.driver.inputPtr < b.index vgaCols → newline ∉ held b c.driver) ∧
      KeepsUp b (c.exec b (.key keycode)) es
  | c, .poll :: es => KeepsUp b (c.exec b .poll) es

/-- The part of the unread characters that can still be read: nothing behind the first
newline. -/
def firstLine : List Byte → List Byte
  | [] => []
  | ch :: chs => if ch = newline then [ch] else ch :: firstLine chs

def Channel.state (c : Channel) : State := ⟨c.driver, ttyRead c.offset 0⟩

variable {b : InputBuff} {c : Channel} {read unread text chs : List Byte} {ch keycode : Byte}
  {es : List Event} {k n : Nat}

/-- A turn of `tty_read` is a call of `tty_read_ch`. -/
theorem exec_poll_turn (s : State) (stored : List Byte) (hret : s.reader.returned = false) :
    let c := Channel.exec b ⟨s.driver, s.reader.offset, stored, s.reader.stored⟩ .poll
    (exec b s .poll).driver = c.driver ∧ (exec b s .poll).reader.offset = c.offset ∧
      (exec b s .poll).reader.stored = c.returned := by
  simp only [exec, ttyReadTurn, hret, Bool.false_eq_true, if_false, Channel.exec]
  refine ⟨trivial, ?_, ?_⟩ <;> split <;> rfl

section firstLine

theorem firstLine_append (h : newline ∉ text) (chs : List Byte) :
    firstLine (text ++ chs) = text ++ firstLine chs := by
  induction text with
  | nil => rfl
  | cons c text ih =>
    obtain ⟨hc, htext⟩ := not_or.mp (mt List.mem_cons.mpr h)
    rw [List.cons_append, firstLine, if_neg (Ne.symm hc), ih htext, List.cons_append]

theorem firstLine_append_of_mem (h : newline ∈ text) (chs : List Byte) :
    firstLine (text ++ chs) = firstLine text := by
  induction text with
  | nil => cases h
  | cons c text ih =>
    rw [List.cons_append, firstLine, firstLine]
    split
    · rfl
    · next hc => rw [ih ((List.mem_cons.mp h).resolve_left (Ne.symm hc))]

theorem firstLine_concat_length (text : List Byte) (ch : Byte) :
    (firstLine (text ++ [ch])).length ≤ (firstLine text).length + 1 := by
  by_cases h : newline ∈ text
  · rw [firstLine_append_of_mem h]
    exact Nat.le_succ _
  · have hself := firstLine_append h []
    rw [List.append_nil] at hself
    rw [firstLine_append h, hself]
    simp [firstLine]

end firstLine

/-- The buffer is `read` and then `unread`, and the file's offset stands between. -/
def Holds (b : InputBuff) (c : Channel) (read unread : List Byte) : Prop :=
  Buffered b c.state (read ++ unread) read.length

theorem Holds.held_eq (h : Holds b c read unread) : held b c.driver = read ++ unread := by
  have hlen := h.short
  have hptr : (c.driver.inputPtr - b.addr).toNat = (read ++ unread).length := by
    rw [show c.driver.inputPtr = _ from h.ptr, b.index_sub, BitVec.toNat_ofNat]
    unfold vgaCols at hlen
    omega
  refine List.ext_getElem (by simp [held, hptr]) fun i hi hi' => ?_
  simp only [held, List.getElem_map, List.getElem_range]
  exact h.chars i hi'

theorem Holds.char (h : Holds b c read unread) (hch : keyChar keycode ≠ 0)
    (hback : keyChar keycode ≠ backspace) (hroom : c.driver.inputPtr < b.index vgaCols) :
    Holds b (c.exec b (.key keycode)) read (unread ++ [keyChar keycode]) ∧
      (c.exec b (.key keycode)).stored = c.stored ++ [keyChar keycode] ∧
      (c.exec b (.key keycode)).returned = c.returned := by
  have hlen : (read ++ unread).length < vgaCols := by
    rwa [show c.driver.inputPtr = _ from h.ptr, b.index_lt h.short le_rfl] at hroom
  obtain ⟨hmem, hptr, -⟩ := keyboard_char hch hback hroom
  refine ⟨?_, ?_, rfl⟩
  · have hbuffered := Buffered.char h hch hback hlen
    rwa [List.append_assoc] at hbuffered
  · simp [Channel.exec, hptr, hmem]

theorem keyboard_drop {d : Driver} (hdrop : ¬(keyChar keycode ≠ 0 ∧ d.inputPtr < b.index vgaCols))
    (hback : keyChar keycode ≠ backspace) :
    (ttyKeyboardIhLow b d keycode).mem = d.mem ∧
      (ttyKeyboardIhLow b d keycode).inputPtr = d.inputPtr ∧
      (ttyKeyboardIhLow b d keycode).readLineMode = d.readLineMode := by
  by_cases hch : keyChar keycode = 0
  · rw [keyboard_quiet hch]
    exact ⟨rfl, rfl, rfl⟩
  · have hfull : ¬d.inputPtr < b.index vgaCols := fun hroom => hdrop ⟨hch, hroom⟩
    simp only [ttyKeyboardIhLow, hch, if_false, hback, hfull, false_and, and_false]
    split <;> exact ⟨rfl, rfl, rfl⟩

theorem Holds.drop (h : Holds b c read unread)
    (hdrop : ¬(keyChar keycode ≠ 0 ∧ c.driver.inputPtr < b.index vgaCols))
    (hback : keyChar keycode ≠ backspace) :
    Holds b (c.exec b (.key keycode)) read unread ∧
      (c.exec b (.key keycode)).stored = c.stored ∧
      (c.exec b (.key keycode)).returned = c.returned := by
  obtain ⟨hmem, hptr, hmode⟩ := keyboard_drop hdrop hback
  refine ⟨⟨hmode.trans h.mode, hptr.trans h.ptr, fun i hi => ?_, h.nonzero, h.short, h.offset, h.read⟩,
    ?_, rfl⟩
  · exact (congrFun hmem _).trans (h.chars i hi)
  · simp [Channel.exec, hptr]

@[simp] theorem poll_stored : (c.exec b .poll).stored = c.stored := rfl

theorem Holds.poll_eof (h : Holds b c read []) :
    Holds b (c.exec b .poll) read [] ∧ (c.exec b .poll).returned = c.returned := by
  have hread : ttyReadCh b c.driver c.offset = _ := Buffered.read_eof h (by simp)
  simp only [Channel.exec, hread]
  exact ⟨Buffered.congr h rfl rfl (by simp), by simp⟩

theorem Holds.poll_char (h : Holds b c read (ch :: chs)) (hch : ch ≠ newline) :
    Holds b (c.exec b .poll) (read ++ [ch]) chs ∧
      (c.exec b .poll).returned = c.returned ++ [ch] := by
  have hk : read.length < (read ++ ch :: chs).length := by simp
  have hget : (read ++ ch :: chs)[read.length] = ch := by simp
  have hread : ttyReadCh b c.driver c.offset = _ := Buffered.read_char h hk (by rwa [hget])
  have hne : ch ≠ 0 := h.nonzero ch (by simp)
  rw [hget] at hread
  simp only [Channel.exec, hread, hne, ne_eq, not_false_eq_true, if_true]
  refine ⟨?_, trivial⟩
  have hnext := Buffered.congr (m := read.length + 1) h
    (t := ⟨c.driver, ttyRead (BitVec.ofNat 32 (read.length + 1)) 0⟩) rfl rfl (by simp)
  simpa [Holds, Channel.state] using hnext

theorem Holds.poll_newline (h : Holds b c read (newline :: chs)) :
    Holds b (c.exec b .poll) [] [] ∧
      (c.exec b .poll).returned = c.returned ++ [newline] := by
  have hk : read.length < (read ++ newline :: chs).length := by simp
  have hread : ttyReadCh b c.driver c.offset = _ := Buffered.read_newline h hk (by simp)
  have hne : newline ≠ 0 := by decide
  simp only [Channel.exec, hread, hne, ne_eq, not_false_eq_true, if_true]
  exact ⟨⟨h.mode, b.index_zero.symm, by simp, by simp, by simp, rfl, le_rfl⟩, trivial⟩

/-- Nothing is lost: at most the last of the characters in the buffer is a newline. -/
structure InStep (b : InputBuff) (c : Channel) (read unread : List Byte) : Prop where
  holds : Holds b c read unread
  read : newline ∉ read
  oneLine : firstLine unread = unread
  stored : c.stored = c.returned ++ unread

/-- More was stored than was and can still be returned. -/
structure Lost (b : InputBuff) (c : Channel) (read unread : List Byte) : Prop where
  holds : Holds b c read unread
  lost : c.returned.length + (firstLine unread).length < c.stored.length

theorem InStep.poll (h : InStep b c read unread) :
    ∃ read, InStep b (c.exec b .poll) read unread.tail := by
  cases unread with
  | nil =>
    obtain ⟨hholds, hreturned⟩ := h.holds.poll_eof
    exact ⟨read, hholds, h.read, rfl, by rw [poll_stored, hreturned, h.stored, List.tail_nil]⟩
  | cons ch chs =>
    have hone := h.oneLine
    by_cases hch : ch = newline
    · subst hch
      obtain ⟨hholds, hreturned⟩ := h.holds.poll_newline
      obtain rfl : chs = [] := by simpa [firstLine, eq_comm] using hone
      exact ⟨[], hholds, List.not_mem_nil, rfl, by simp [hreturned, h.stored]⟩
    · obtain ⟨hholds, hreturned⟩ := h.holds.poll_char hch
      refine ⟨read ++ [ch], hholds, by simp [h.read, Ne.symm hch], ?_, ?_⟩
      · simpa [firstLine, hch] using hone
      · simp [hreturned, h.stored]

theorem Lost.poll (h : Lost b c read unread) : ∃ read unread, Lost b (c.exec b .poll) read unread := by
  have hlost := h.lost
  cases unread with
  | nil =>
    obtain ⟨hholds, hreturned⟩ := h.holds.poll_eof
    exact ⟨read, [], hholds, by rwa [poll_stored, hreturned]⟩
  | cons ch chs =>
    by_cases hch : ch = newline
    · subst hch
      obtain ⟨hholds, hreturned⟩ := h.holds.poll_newline
      exact ⟨[], [], hholds, by simpa [hreturned, firstLine] using hlost⟩
    · obtain ⟨hholds, hreturned⟩ := h.holds.poll_char hch
      refine ⟨read ++ [ch], chs, hholds, ?_⟩
      simp only [firstLine, hch, if_false, List.length_cons] at hlost
      simp only [poll_stored, hreturned, List.length_append, List.length_singleton]
      omega

theorem Lost.key (h : Lost b c read unread) (hback : keyChar keycode ≠ backspace) :
    ∃ unread, Lost b (c.exec b (.key keycode)) read unread := by
  by_cases hstores : keyChar keycode ≠ 0 ∧ c.driver.inputPtr < b.index vgaCols
  · obtain ⟨hholds, hstored, hreturned⟩ := h.holds.char hstores.1 hback hstores.2
    refine ⟨_, hholds, ?_⟩
    have hle := firstLine_concat_length unread (keyChar keycode)
    have hlost := h.lost
    rw [hstored, hreturned, List.length_append, List.length_singleton]
    omega
  · obtain ⟨hholds, hstored, hreturned⟩ := h.holds.drop hstores hback
    exact ⟨unread, hholds, by rw [hstored, hreturned]; exact h.lost⟩

theorem InStep.key (h : InStep b c read unread) (hback : keyChar keycode ≠ backspace)
    (hclear : keyChar keycode ≠ 0 ∧ c.driver.inputPtr < b.index vgaCols →
      newline ∉ held b c.driver) :
    ∃ unread, InStep b (c.exec b (.key keycode)) read unread := by
  by_cases hstores : keyChar keycode ≠ 0 ∧ c.driver.inputPtr < b.index vgaCols
  · obtain ⟨hholds, hstored, hreturned⟩ := h.holds.char hstores.1 hback hstores.2
    have hclear := hclear hstores
    rw [h.holds.held_eq, List.mem_append, not_or] at hclear
    refine ⟨_, hholds, h.read, ?_, ?_⟩
    · rw [firstLine_append hclear.2]
      simp [firstLine]
    · rw [hstored, hreturned, h.stored, List.append_assoc]
  · obtain ⟨hholds, hstored, hreturned⟩ := h.holds.drop hstores hback
    exact ⟨unread, hholds, h.read, h.oneLine, by rw [hstored, hreturned]; exact h.stored⟩

theorem InStep.lose (h : InStep b c read unread) (hback : keyChar keycode ≠ backspace)
    (hstores : keyChar keycode ≠ 0 ∧ c.driver.inputPtr < b.index vgaCols)
    (hline : newline ∈ held b c.driver) :
    ∃ unread, Lost b (c.exec b (.key keycode)) read unread := by
  obtain ⟨hholds, hstored, hreturned⟩ := h.holds.char hstores.1 hback hstores.2
  rw [h.holds.held_eq, List.mem_append, or_iff_right h.read] at hline
  refine ⟨_, hholds, ?_⟩
  rw [firstLine_append_of_mem hline, h.oneLine, hstored, hreturned, h.stored]
  simp

theorem run_polls_stored (n : Nat) : (c.run b (List.replicate n .poll)).stored = c.stored := by
  induction n generalizing c with
  | zero => rfl
  | succ n ih => exact ih (c := c.exec b .poll)

theorem InStep.polls (h : InStep b c read unread) (hn : unread.length ≤ n) :
    (c.run b (List.replicate n .poll)).returned = c.stored := by
  induction n generalizing c read unread with
  | zero =>
    obtain rfl := List.length_eq_zero_iff.mp (Nat.le_zero.mp hn)
    exact (h.stored.trans (List.append_nil _)).symm
  | succ n ih =>
    obtain ⟨read', h'⟩ := h.poll
    exact ih (c := c.exec b .poll) h' (by rw [List.length_tail]; omega)

theorem InStep.delivers (h : InStep b c read unread) : Delivers b c where
  inOrder := ⟨unread, h.stored.symm⟩
  all := ⟨unread.length, fun _ hn => h.polls hn⟩

theorem Lost.polls (h : Lost b c read unread) (n : Nat) :
    ∃ read unread, Lost b (c.run b (List.replicate n .poll)) read unread := by
  induction n generalizing c read unread with
  | zero => exact ⟨read, unread, h⟩
  | succ n ih =>
    obtain ⟨read', unread', h'⟩ := h.poll
    exact ih (c := c.exec b .poll) h'

theorem Lost.not_delivers (h : Lost b c read unread) : ¬Delivers b c := by
  rintro ⟨-, m, hall⟩
  obtain ⟨read', unread', h'⟩ := h.polls m
  have hlost := h'.lost
  rw [run_polls_stored, hall m le_rfl] at hlost
  omega

theorem Lost.run (h : Lost b c read unread)
    (hback : ∀ keycode, .key keycode ∈ es → keyChar keycode ≠ backspace) :
    ∃ read unread, Lost b (c.run b es) read unread := by
  induction es generalizing c read unread with
  | nil => exact ⟨read, unread, h⟩
  | cons e es ih =>
    have hrest : ∀ keycode, .key keycode ∈ es → keyChar keycode ≠ backspace :=
      fun keycode hmem => hback keycode (List.mem_cons_of_mem e hmem)
    cases e with
    | key keycode =>
      obtain ⟨unread', h'⟩ := h.key (hback keycode List.mem_cons_self)
      exact ih h' hrest
    | poll =>
      obtain ⟨read', unread', h'⟩ := h.poll
      exact ih h' hrest

theorem InStep.run_iff (h : InStep b c read unread)
    (hback : ∀ keycode, .key keycode ∈ es → keyChar keycode ≠ backspace) :
    Delivers b (c.run b es) ↔ KeepsUp b c es := by
  induction es generalizing c read unread with
  | nil => exact iff_of_true h.delivers trivial
  | cons e es ih =>
    have hrest : ∀ keycode, .key keycode ∈ es → keyChar keycode ≠ backspace :=
      fun keycode hmem => hback keycode (List.mem_cons_of_mem e hmem)
    cases e with
    | key keycode =>
      have hkey := hback keycode List.mem_cons_self
      by_cases hclear : keyChar keycode ≠ 0 ∧ c.driver.inputPtr < b.index vgaCols →
          newline ∉ held b c.driver
      · obtain ⟨unread', h'⟩ := h.key hkey hclear
        exact (ih h' hrest).trans (iff_and_self.mpr fun _ => hclear)
      · obtain ⟨hstores, hline⟩ := Classical.not_imp.mp hclear
        obtain ⟨unread', h'⟩ := h.lose hkey hstores (not_not.mp hline)
        obtain ⟨_, _, hlost⟩ := h'.run hrest
        exact iff_of_false hlost.not_delivers fun hkeeps => hclear hkeeps.1
    | poll =>
      obtain ⟨read', h'⟩ := h.poll
      exact ih h' hrest

structure Opened (b : InputBuff) (c : Channel) : Prop where
  mode : c.driver.readLineMode = true
  empty : c.driver.inputPtr = b.addr
  offset : c.offset = 0
  stored : c.stored = []
  returned : c.returned = []

theorem Opened.inStep (h : Opened b c) : InStep b c [] [] where
  holds := ⟨h.mode, h.empty.trans b.index_zero.symm, by simp, by simp, by simp, h.offset, le_rfl⟩
  read := List.not_mem_nil
  oneLine := rfl
  stored := by rw [h.stored, h.returned, List.append_nil]

/-- What is typed without backspaces reaches the reader exactly when the reader takes
each newline before the next character comes. -/
theorem tty_input_delivered_iff (h : Opened b c)
    (hback : ∀ keycode, .key keycode ∈ es → keyChar keycode ≠ backspace) :
    Delivers b (c.run b es) ↔ KeepsUp b c es :=
  h.inStep.run_iff hback

def opened : Channel := ⟨console.driver, 0, [], []⟩

theorem opened_opened : Opened consoleBuff opened := ⟨rfl, rfl, rfl, rfl, rfl⟩

/-- Two lines, `a` and `b`, the second of which starts after the first is read. -/
theorem tty_input_delivered_iff_example :
    Delivers consoleBuff (opened.run consoleBuff
      [.poll, .key 30, .key 28, .poll, .poll, .key 48, .poll, .key 28]) :=
  (tty_input_delivered_iff opened_opened (by simp; decide)).mpr (by simp only [KeepsUp]; decide)

/-- `a`, Enter and `b` before the reader polls: the newline takes the `b` with it. -/
theorem tty_input_lost :
    ¬Delivers consoleBuff (opened.run consoleBuff [.key 30, .key 28, .key 48]) ∧
      (opened.run consoleBuff [.key 30, .key 28, .key 48]).stored = [97, newline, 98] ∧
      (opened.run consoleBuff [.key 30, .key 28, .key 48, .poll, .poll]).returned = [97, newline] ∧
      held consoleBuff
        (opened.run consoleBuff [.key 30, .key 28, .key 48, .poll, .poll]).driver = [] := by
  refine ⟨?_, by decide, by decide, by decide⟩
  rw [opened_opened.inStep.run_iff (by simp; decide)]
  simp only [KeepsUp]
  decide

end RubiKernel.Tty
