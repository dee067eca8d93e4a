import RubiKernel.Lib.Lts
import RubiKernel.Tty.Line

/-! The input buffer under any interleaving of keys, mode changes and readers, and
what `tty_read` stores meanwhile. -/

namespace RubiKernel.Tty

open Lts

def ioctlRead : Word := 0x0

def ioctlReadModeLineOn : Word := 2 <<< 8

def ioctlReadModeEchoOn : Word := 3 <<< 8

def ioctlReadModeLineOff : Word := 4 <<< 8

def ioctlReadModeEchoOff : Word := 5 <<< 8

/-- The commands for input; the ones for output leave the data of the driver. -/
def ttyIoctl (d : Driver) (command subcmd : Word) : Driver :=
  if subcmd ≠ ioctlRead then d
  else if command = ioctlReadModeLineOn then { d with readLineMode := true }
  else if command = ioctlReadModeEchoOn then { d with isEcho := true }
  else if command = ioctlReadModeLineOff then { d with readLineMode := false }
  else if command = ioctlReadModeEchoOff then { d with isEcho := false }
  else d

/-- The handler finds room for the character, and does not keep it back. -/
def Stores (b : InputBuff) (d : Driver) (keycode : Byte) : Prop :=
  d.inputPtr < b.index vgaCols ∧ (keyChar keycode ≠ backspace ∨ d.readLineMode = false)

instance (b : InputBuff) (d : Driver) (keycode : Byte) : Decidable (Stores b d keycode) :=
  inferInstanceAs (Decidable (_ ∧ _))

/-- Where the handler stores, and what, in its order. -/
def keyStores (b : InputBuff) (d : Driver) (keycode : Byte) : List (Word × Byte) :=
  let ch := keyChar keycode
  if ch = 0 then []
  else
    let ptr := if Stores b d keycode then d.inputPtr + 1 else d.inputPtr
    (if Stores b d keycode then [(d.inputPtr, ch)] else []) ++
      (if d.readLineMode ∧ ch = backspace ∧ ptr > b.addr then [(ptr - 1, 0)] else [])

def storeAll (mem : Memory) (ws : List (Word × Byte)) : Memory :=
  ws.foldl (fun mem w => Function.update mem w.1 w.2) mem

/-- The position a call of `tty_read_ch` takes its character from. -/
def taken (b : InputBuff) (d : Driver) (offset : Word) : Option Word :=
  if b.addr + offset ≥ d.inputPtr then none else some (b.addr + offset)

/-- The driver, and the offsets of the files that read from it. -/
structure Console where
  driver : Driver
  offsets : List Word

inductive Call
  | key (keycode : Byte)
  | ioctl (command subcmd : Word)
  | openFile
  | readCh (i : Nat)

def Console.exec (b : InputBuff) (s : Console) : Call → Console
  | .key keycode => { s with driver := ttyKeyboardIhLow b s.driver keycode }
  | .ioctl command subcmd => { s with driver := ttyIoctl s.driver command subcmd }
  | .openFile => { s with offsets := s.offsets ++ [0] }
  | .readCh i =>
    match s.offsets[i]? with
    | none => s
    | some offset =>
      let (driver, offset, _) := ttyReadCh b s.driver offset
      { driver := driver, offsets := s.offsets.set i offset }

/-- The terminal from its first key on, in any mode. -/
def consoleSystem (b : InputBuff) : System Console Call where
  start s := s.driver.inputPtr = b.addr ∧ s.offsets = []
  step s c t := t = s.exec b c

/-- `tty_input_ptr` stays in the buffer or at its end, and no file is behind that end. -/
structure Bounded (b : InputBuff) (s : Console) : Prop where
  ptr : ∃ k ≤ vgaCols, s.driver.inputPtr = b.index k
  offsets : ∀ offset ∈ s.offsets, offset.toNat ≤ vgaCols

/-- Nothing of the buffer is overrun, whichever key or file comes next. -/
structure NotOverrun (b : InputBuff) (s : Console) : Prop where
  start : b.addr ≤ s.driver.inputPtr
  stop : s.driver.inputPtr ≤ b.index vgaCols
  mem : ∀ keycode, (ttyKeyboardIhLow b s.driver keycode).mem =
    storeAll s.driver.mem (keyStores b s.driver keycode)
  stores : ∀ keycode, ∀ w ∈ keyStores b s.driver keycode, b.addr ≤ w.1 ∧ w.1 < b.index vgaCols
  chars : ∀ offset, (ttyReadCh b s.driver offset).2.2 =
    ((taken b s.driver offset).map s.driver.mem).getD 0
  taken : ∀ offset ∈ s.offsets, ∀ a, taken b s.driver offset = some a →
    a = b.index offset.toNat ∧ offset.toNat < (s.driver.inputPtr - b.addr).toNat

variable {b : InputBuff} {d : Driver} {s t : Console} {keycode : Byte} {offset : Word} {k : Nat}

@[simp] theorem ttyIoctl_inputPtr (d : Driver) (command subcmd : Word) :
    (ttyIoctl d command subcmd).inputPtr = d.inputPtr := by
  unfold ttyIoctl
  split_ifs <;> rfl

theorem not_erases (hkind : keyChar keycode ≠ backspace ∨ d.readLineMode = false) (p : Prop) :
    ¬(d.readLineMode = true ∧ keyChar keycode = backspace ∧ p) := by
  rintro ⟨hmode, hback, -⟩
  rcases hkind with hkind | hkind
  · exact hkind hback
  · exact absurd (hmode.symm.trans hkind) (by decide)

theorem keyboard_plain (hch : keyChar keycode ≠ 0)
    (hkind : keyChar keycode ≠ backspace ∨ d.readLineMode = false) :
    (ttyKeyboardIhLow b d keycode).mem =
        (if d.inputPtr < b.index vgaCols then Function.update d.mem d.inputPtr (keyChar keycode)
          else d.mem) ∧
      (ttyKeyboardIhLow b d keycode).inputPtr =
        (if d.inputPtr < b.index vgaCols then d.inputPtr + 1 else d.inputPtr) := by
  have hlast := not_erases hkind
  by_cases hroom : d.inputPtr < b.index vgaCols
  · simp only [ttyKeyboardIhLow, hch, if_false, hroom, hkind, and_self, if_true]
    split
    · rw [if_neg (hlast _)]
      exact ⟨rfl, rfl⟩
    · rw [if_neg (hlast _)]
      exact ⟨rfl, rfl⟩
  · simp only [ttyKeyboardIhLow, hch, if_false, hroom, false_and]
    split
    · rw [if_neg (hlast _)]
      exact ⟨rfl, rfl⟩
    · rw [if_neg (hlast _)]
      exact ⟨rfl, rfl⟩

theorem keyboard_cases (b : InputBuff) (d : Driver) (keycode : Byte) :
    (ttyKeyboardIhLow b d keycode).mem = storeAll d.mem (keyStores b d keycode) ∧
    ((keyStores b d keycode = [] ∧ (ttyKeyboardIhLow b d keycode).inputPtr = d.inputPtr) ∨
      (d.inputPtr < b.index vgaCols ∧ keyStores b d keycode = [(d.inputPtr, keyChar keycode)] ∧
        (ttyKeyboardIhLow b d keycode).inputPtr = d.inputPtr + 1) ∨
      (d.inputPtr > b.addr ∧ keyStores b d keycode = [(d.inputPtr - 1, 0)] ∧
        (ttyKeyboardIhLow b d keycode).inputPtr = d.inputPtr - 1)) := by
  by_cases hch : keyChar keycode = 0
  · have hnone : keyStores b d keycode = [] := by simp only [keyStores, hch, if_true]
    rw [keyboard_quiet hch, hnone]
    exact ⟨rfl, .inl ⟨rfl, rfl⟩⟩
  by_cases hback : keyChar keycode = backspace ∧ d.readLineMode = true
  · obtain ⟨hback, hmode⟩ := hback
    have hne : ¬backspace = (0 : Byte) := by decide
    have hkept : ¬Stores b d keycode := fun h => by simp [Stores, hback, hmode] at h
    have hwrites : keyStores b d keycode =
        if d.inputPtr > b.addr then [(d.inputPtr - 1, 0)] else [] := by
      simp only [keyStores, hback, hne, if_false, hkept, List.nil_append, hmode, true_and]
    obtain ⟨hmem, hptr, -⟩ := keyboard_backspace (b := b) hback hmode
    by_cases hstart : d.inputPtr > b.addr
    · rw [if_pos hstart] at hmem hptr hwrites
      rw [hmem, hptr, hwrites]
      exact ⟨rfl, .inr (.inr ⟨hstart, rfl, rfl⟩)⟩
    · rw [if_neg hstart] at hmem hptr hwrites
      rw [hmem, hptr, hwrites]
      exact ⟨rfl, .inl ⟨rfl, rfl⟩⟩
  · have hkind : keyChar keycode ≠ backspace ∨ d.readLineMode = false := by
      rw [← Bool.not_eq_true, ← not_and_or]
      exact hback
    have hwrites : keyStores b d keycode =
        if d.inputPtr < b.index vgaCols then [(d.inputPtr, keyChar keycode)] else [] := by
      simp only [keyStores, hch, if_false, not_erases hkind, List.append_nil, Stores, hkind,
        and_true]
    obtain ⟨hmem, hptr⟩ := keyboard_plain (b := b) hch hkind
    by_cases hroom : d.inputPtr < b.index vgaCols
    · rw [if_pos hroom] at hmem hptr hwrites
      rw [hmem, hptr, hwrites]
      exact ⟨rfl, .inr (.inl ⟨hroom, rfl, rfl⟩)⟩
    · rw [if_neg hroom] at hmem hptr hwrites
      rw [hmem, hptr, hwrites]
      exact ⟨rfl, .inl ⟨rfl, rfl⟩⟩

theorem InputBuff.index_pred (b : InputBuff) (k : Nat) : b.index (k + 1) - 1 = b.index k := by
  rw [← b.index_succ, BitVec.add_sub_cancel]

theorem InputBuff.index_sub_toNat (b : InputBuff) (hk : k ≤ vgaCols) :
    (b.index k - b.addr).toNat = k := by
  rw [b.index_sub]
  refine Word.toNat_ofNat ?_
  unfold vgaCols at hk
  omega

theorem InputBuff.add_toNat (b : InputBuff) (hoffset : offset.toNat ≤ vgaCols) :
    (b.addr + offset).toNat = b.addr.toNat + offset.toNat := by
  have hindex := b.index_toNat hoffset
  rwa [InputBuff.index, BitVec.ofNat_toNat, BitVec.setWidth_eq] at hindex

theorem InputBuff.not_eof_iff (b : InputBuff) (hk : k ≤ vgaCols) (hoffset : offset.toNat ≤ vgaCols) :
    ¬b.addr + offset ≥ b.index k ↔ offset.toNat < k := by
  rw [ge_iff_le, BitVec.not_le, BitVec.lt_def, b.add_toNat hoffset, b.index_toNat hk]
  exact Nat.add_lt_add_iff_left

theorem readCh_offset (hk : k ≤ vgaCols) (hptr : d.inputPtr = b.index k)
    (hoffset : offset.toNat ≤ vgaCols) : (ttyReadCh b d offset).2.1.toNat ≤ vgaCols := by
  by_cases heof : b.addr + offset ≥ d.inputPtr
  · rw [ttyReadCh, if_pos heof, hptr, b.index_sub_toNat hk]
    exact hk
  · have hlt : offset.toNat < k := by
      rwa [hptr, b.not_eof_iff hk hoffset] at heof
    have hnext : (offset + 1).toNat = offset.toNat + 1 := by
      have hone : offset.toNat + (1 : Word).toNat < 2 ^ 32 := by
        show offset.toNat + 1 < 2 ^ 32
        unfold vgaCols at hoffset
        omega
      exact BitVec.toNat_add_of_lt hone
    simp only [ttyReadCh, if_neg heof]
    split
    · exact Nat.zero_le _
    · show (offset + 1).toNat ≤ vgaCols
      omega

theorem readCh_ptr (d : Driver) (offset : Word) :
    (ttyReadCh b d offset).1.inputPtr = d.inputPtr ∨
      (ttyReadCh b d offset).1.inputPtr = b.index 0 := by
  unfold ttyReadCh
  dsimp only
  split_ifs
  · exact .inl rfl
  · exact .inr b.index_zero.symm
  · exact .inl rfl

theorem readCh_taken (d : Driver) (offset : Word) :
    (ttyReadCh b d offset).2.2 = ((taken b d offset).map d.mem).getD 0 := by
  unfold ttyReadCh taken
  dsimp only
  split_ifs <;> rfl

theorem Bounded.start (h : (consoleSystem b).start s) : Bounded b s := by
  obtain ⟨hptr, hoffsets⟩ := h
  refine ⟨⟨0, Nat.zero_le _, hptr.trans b.index_zero.symm⟩, ?_⟩
  rw [hoffsets]
  exact fun offset hmem => absurd hmem List.not_mem_nil

theorem Bounded.key (h : Bounded b s) (keycode : Byte) : Bounded b (s.exec b (.key keycode)) := by
  obtain ⟨k, hk, hptr⟩ := h.ptr
  refine ⟨?_, h.offsets⟩
  obtain ⟨-, hcases⟩ := keyboard_cases b s.driver keycode
  rcases hcases with ⟨-, hnext⟩ | ⟨hroom, -, hnext⟩ | ⟨hstart, -, hnext⟩
  · exact ⟨k, hk, hnext.trans hptr⟩
  · rw [hptr, b.index_lt hk le_rfl] at hroom
    exact ⟨k + 1, hroom, hnext.trans (by rw [hptr, b.index_succ])⟩
  · rw [hptr, gt_iff_lt, ← b.index_zero, b.index_lt (Nat.zero_le _) hk] at hstart
    obtain ⟨m, rfl⟩ := Nat.exists_eq_succ_of_ne_zero hstart.ne'
    exact ⟨m, Nat.le_of_succ_le hk, hnext.trans (by rw [hptr, b.index_pred])⟩

theorem Bounded.readCh (h : Bounded b s) (i : Nat) : Bounded b (s.exec b (.readCh i)) := by
  cases hoffset : s.offsets[i]? with
  | none =>
    simp only [Console.exec, hoffset]
    exact h
  | some offset =>
    obtain ⟨k, hk, hptr⟩ := h.ptr
    have hold := h.offsets offset (List.mem_of_getElem? hoffset)
    simp only [Console.exec, hoffset]
    constructor
    · rcases readCh_ptr (b := b) s.driver offset with hsame | hreset
      · exact ⟨k, hk, hsame.trans hptr⟩
      · exact ⟨0, Nat.zero_le _, hreset⟩
    · intro x hx
      rcases List.mem_or_eq_of_mem_set hx with hx | rfl
      · exact h.offsets x hx
      · exact readCh_offset hk hptr hold

theorem Bounded.exec (h : Bounded b s) (c : Call) : Bounded b (s.exec b c) := by
  cases c with
  | key keycode => exact h.key keycode
  | ioctl command subcmd =>
    obtain ⟨k, hk, hptr⟩ := h.ptr
    exact ⟨⟨k, hk, (ttyIoctl_inputPtr _ _ _).trans hptr⟩, h.offsets⟩
  | openFile =>
    refine ⟨h.ptr, fun offset hmem => ?_⟩
    rcases List.mem_append.mp hmem with hmem | hmem
    · exact h.offsets offset hmem
    · rw [List.mem_singleton.mp hmem]
      exact Nat.zero_le _
  | readCh i => exact h.readCh i

theorem consoleSystem_bounded (h : (consoleSystem b).Reachable s) : Bounded b s := by
  refine h.invariant (fun _ => Bounded.start) fun s c t hs hstep => ?_
  rw [hstep]
  exact hs.exec c

theorem Bounded.stores (h : Bounded b s) {w : Word × Byte}
    (hw : w ∈ keyStores b s.driver keycode) : b.addr ≤ w.1 ∧ w.1 < b.index vgaCols := by
  obtain ⟨k, hk, hptr⟩ := h.ptr
  have hlow : ∀ m, m ≤ vgaCols → b.addr ≤ b.index m := fun m hm => by
    rw [BitVec.le_def, b.index_toNat hm]
    exact Nat.le_add_right _ _
  obtain ⟨-, hcases⟩ := keyboard_cases b s.driver keycode
  rcases hcases with ⟨hnone, -⟩ | ⟨hroom, hone, -⟩ | ⟨hstart, hone, -⟩
  · rw [hnone] at hw
    exact absurd hw List.not_mem_nil
  · rw [hone, List.mem_singleton] at hw
    rw [hw]
    exact ⟨hptr ▸ hlow k hk, hroom⟩
  · rw [hone, List.mem_singleton] at hw
    rw [hptr, gt_iff_lt, ← b.index_zero, b.index_lt (Nat.zero_le _) hk] at hstart
    obtain ⟨m, rfl⟩ := Nat.exists_eq_succ_of_ne_zero hstart.ne'
    rw [hw, hptr, b.index_pred]
    exact ⟨hlow m (Nat.le_of_succ_le hk), (b.index_lt (Nat.le_of_succ_le hk) le_rfl).mpr hk⟩

theorem Bounded.taken {a : Word} (h : Bounded b s) (hmem : offset ∈ s.offsets)
    (ha : taken b s.driver offset = some a) :
    a = b.index offset.toNat ∧ offset.toNat < (s.driver.inputPtr - b.addr).toNat := by
  obtain ⟨k, hk, hptr⟩ := h.ptr
  have hoffset := h.offsets offset hmem
  rw [Tty.taken, Option.ite_none_left_eq_some] at ha
  obtain ⟨heof, hpos⟩ := ha
  constructor
  · rw [← Option.some.inj hpos, InputBuff.index, BitVec.ofNat_toNat, BitVec.setWidth_eq]
  · rw [hptr, b.not_eof_iff hk hoffset] at heof
    rwa [hptr, b.index_sub_toNat hk]

/-- No interleaving of keys, mode changes and readers overruns the input buffer. -/
theorem tty_input_not_overrun (h : (consoleSystem b).Reachable s) : NotOverrun b s := by
  have hbounded := consoleSystem_bounded h
  obtain ⟨k, hk, hptr⟩ := hbounded.ptr
  refine ⟨?_, ?_, fun keycode => (keyboard_cases b s.driver keycode).1,
    fun _ _ => hbounded.stores, readCh_taken s.driver, fun _ hmem _ => hbounded.taken hmem⟩
  · rw [hptr, BitVec.le_def, b.index_toNat hk]
    exact Nat.le_add_right _ _
  · rw [hptr, BitVec.le_def, b.index_toNat hk, b.index_toNat le_rfl]
    exact Nat.add_le_add_left hk _

theorem consoleSystem_run (h : (consoleSystem b).Reachable s) (cs : List Call) :
    (consoleSystem b).Reachable (cs.foldl (Console.exec b) s) := by
  induction cs generalizing s with
  | nil => exact h
  | cons c cs ih => exact ih (h.step rfl)

/-- Two files read a line; the first of them sets the buffer back behind the other one's
offset, and the next key comes in another mode. -/
theorem tty_input_not_overrun_example :
    NotOverrun consoleBuff
      ([.openFile, .openFile, .key 30, .readCh 0, .readCh 1, .key 28, .readCh 0,
        .ioctl ioctlReadModeLineOff ioctlRead, .key 14, .readCh 1].foldl
          (Console.exec consoleBuff) ⟨console.driver, []⟩) :=
  tty_input_not_overrun (consoleSystem_run (.start ⟨rfl, rfl⟩) _)

end RubiKernel.Tty
