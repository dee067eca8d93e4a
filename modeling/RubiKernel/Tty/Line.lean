import RubiKernel.Tty.Defs

/-! One line typed while it is read. What `tty_read` returns is the edited line when
no backspace takes back a character that the reader already has. -/

namespace RubiKernel.Tty

/-- The characters of the key presses among the events. -/
def typed : List Event → List Byte
  | [] => []
  | .key keycode :: es => if keyChar keycode = 0 then typed es else keyChar keycode :: typed es
  | .poll :: es => typed es

/-- A key press on the line edited so far. -/
def press (text : List Byte) (ch : Byte) : List Byte :=
  if ch = backspace then text.dropLast else text ++ [ch]

def edit (text keys : List Byte) : List Byte := keys.foldl press text

/-- Fewer than 80 characters are on the line after each of the presses. -/
def Short (text keys : List Byte) : Prop := ∀ pre, pre <+: keys → (edit text pre).length < vgaCols

/-- A backspace finds a character that is not read yet, or none at all. -/
def TakesUnread (b : InputBuff) (s : State) : Event → Prop
  | .key keycode => keyChar keycode = backspace →
      s.driver.inputPtr = b.addr ∨ b.addr + s.reader.offset < s.driver.inputPtr
  | .poll => True

/-- Every event of the run `es` satisfies `P` in the state it meets. -/
def Along (b : InputBuff) (P : State → Event → Prop) : State → List Event → Prop
  | _, [] => True
  | s, e :: es => P s e ∧ Along b P (exec b s e) es

variable {b : InputBuff} {s : State} {text keys rest : List Byte} {ch keycode : Byte}
  {es : List Event} {k m n : Nat}

theorem InputBuff.index_toNat (b : InputBuff) (hk : k ≤ vgaCols) :
    (b.index k).toNat = b.addr.toNat + k := by
  have hfits := b.fits
  rw [InputBuff.index, BitVec.toNat_add, BitVec.toNat_ofNat]
  unfold vgaCols at hk hfits
  omega

theorem InputBuff.index_succ (b : InputBuff) (k : Nat) : b.index k + 1 = b.index (k + 1) :=
  Memory.add_ofNat_succ b.addr

theorem InputBuff.index_lt (b : InputBuff) (hk : k ≤ vgaCols) (hm : m ≤ vgaCols) :
    b.index k < b.index m ↔ k < m := by
  rw [BitVec.lt_def, b.index_toNat hk, b.index_toNat hm]
  omega

theorem InputBuff.index_inj (b : InputBuff) (hk : k ≤ vgaCols) (hm : m ≤ vgaCols) :
    b.index k = b.index m ↔ k = m := by
  rw [← BitVec.toNat_inj, b.index_toNat hk, b.index_toNat hm]
  omega

theorem InputBuff.index_zero (b : InputBuff) : b.index 0 = b.addr := BitVec.add_zero b.addr

theorem InputBuff.index_sub (b : InputBuff) (k : Nat) : b.index k - b.addr = BitVec.ofNat 32 k := by
  rw [InputBuff.index, BitVec.add_comm, BitVec.add_sub_cancel]

theorem keyboard_quiet (hch : keyChar keycode = 0) (d : Driver) :
    ttyKeyboardIhLow b d keycode = d := by
  simp [ttyKeyboardIhLow, hch]

theorem keyboard_char {d : Driver} (hch : keyChar keycode ≠ 0) (hback : keyChar keycode ≠ backspace)
    (hroom : d.inputPtr < b.index vgaCols) :
    (ttyKeyboardIhLow b d keycode).mem = Function.update d.mem d.inputPtr (keyChar keycode) ∧
      (ttyKeyboardIhLow b d keycode).inputPtr = d.inputPtr + 1 ∧
        (ttyKeyboardIhLow b d keycode).readLineMode = d.readLineMode := by
  simp only [ttyKeyboardIhLow, hch, if_false, hback, hroom, ne_eq, not_false_eq_true, true_or,
    and_self, if_true, false_and, and_false]
  split <;> exact ⟨rfl, rfl, rfl⟩

theorem keyboard_backspace {d : Driver} (hback : keyChar keycode = backspace)
    (hmode : d.readLineMode = true) :
    (ttyKeyboardIhLow b d keycode).mem =
        (if d.inputPtr > b.addr then Function.update d.mem (d.inputPtr - 1) 0 else d.mem) ∧
      (ttyKeyboardIhLow b d keycode).inputPtr =
        (if d.inputPtr > b.addr then d.inputPtr - 1 else d.inputPtr) ∧
      (ttyKeyboardIhLow b d keycode).readLineMode = d.readLineMode := by
  have hne : ¬backspace = 0#8 := by decide
  by_cases hstart : d.inputPtr > b.addr
  · cases hecho : d.isEcho <;> simp [ttyKeyboardIhLow, hback, hne, hmode, hstart, hecho]
  · simp [ttyKeyboardIhLow, hback, hne, hmode, hstart]

structure Buffered (b : InputBuff) (s : State) (text : List Byte) (k : Nat) : Prop where
  mode : s.driver.readLineMode = true
  ptr : s.driver.inputPtr = b.index text.length
  chars : ∀ i (hi : i < text.length), s.driver.mem (b.index i) = text[i]
  nonzero : ∀ c ∈ text, c ≠ 0
  short : text.length ≤ vgaCols
  offset : s.reader.offset = BitVec.ofNat 32 k
  read : k ≤ text.length

theorem Buffered.quiet (hch : keyChar keycode = 0) : exec b s (.key keycode) = s := by
  simp only [exec, keyboard_quiet hch]

theorem run_quiet (hch : keyChar keycode = 0) (es : List Event) :
    run b s (.key keycode :: es) = run b s es := by
  rw [run, List.foldl_cons, Buffered.quiet hch, run]

theorem Buffered.char (h : Buffered b s text k) (hch : keyChar keycode ≠ 0)
    (hback : keyChar keycode ≠ backspace) (hlen : text.length < vgaCols) :
    Buffered b (exec b s (.key keycode)) (text ++ [keyChar keycode]) k := by
  have hroom : s.driver.inputPtr < b.index vgaCols := by
    rw [h.ptr, b.index_lt h.short le_rfl]
    exact hlen
  obtain ⟨hmem, hptr, hmode⟩ := keyboard_char hch hback hroom
  constructor
  · exact hmode.trans h.mode
  · rw [List.length_append, List.length_singleton, ← b.index_succ, ← h.ptr]
    exact hptr
  · intro i hi
    show (ttyKeyboardIhLow b s.driver keycode).mem (b.index i) = _
    rw [hmem, h.ptr]
    rw [List.length_append, List.length_singleton] at hi
    by_cases hlast : i = text.length
    · subst hlast
      simp
    · have hold : i < text.length := by omega
      have hne : b.index i ≠ b.index text.length := fun heq =>
        hlast ((b.index_inj (hold.le.trans h.short) h.short).mp heq)
      rw [Function.update_of_ne hne, h.chars i hold, List.getElem_append_left hold]
  · intro c hc
    rcases List.mem_append.mp hc with hc | hc
    · exact h.nonzero c hc
    · rw [List.mem_singleton.mp hc]
      exact hch
  · rw [List.length_append, List.length_singleton]
    exact hlen
  · exact h.offset
  · rw [List.length_append, List.length_singleton]
    exact Nat.le_succ_of_le h.read

theorem Buffered.erase (h : Buffered b s text k) (hback : keyChar keycode = backspace)
    (hunread : text = [] ∨ k < text.length) :
    Buffered b (exec b s (.key keycode)) text.dropLast k := by
  obtain ⟨hmem, hptr, hmode⟩ := keyboard_backspace (b := b) hback h.mode
  rcases List.eq_nil_or_concat' text with rfl | ⟨text, c, rfl⟩
  · have hstart : ¬s.driver.inputPtr > b.addr := by
      rw [h.ptr, List.length_nil, b.index_zero]
      exact BitVec.lt_irrefl b.addr
    rw [if_neg hstart] at hmem hptr
    exact ⟨hmode.trans h.mode, hptr.trans h.ptr, by simp, by simp, by simp, h.offset, h.read⟩
  · have hshort := h.short
    have hread : k ≤ text.length := Nat.le_of_lt_succ (by simpa using hunread)
    rw [List.length_append, List.length_singleton] at hshort
    have hend : s.driver.inputPtr = b.index text.length + 1 := by
      rw [h.ptr, b.index_succ, List.length_append, List.length_singleton]
    have hstart : s.driver.inputPtr > b.addr := by
      rw [hend, b.index_succ, ← b.index_zero]
      exact (b.index_lt (Nat.zero_le _) hshort).mpr (Nat.succ_pos _)
    rw [if_pos hstart, hend, BitVec.add_sub_cancel] at hmem hptr
    rw [List.dropLast_concat]
    refine ⟨hmode.trans h.mode, hptr, ?_, ?_, Nat.le_of_succ_le hshort, h.offset, hread⟩
    · intro i hi
      have hne : b.index i ≠ b.index text.length := fun heq =>
        hi.ne ((b.index_inj (by omega) (by omega)).mp heq)
      show (ttyKeyboardIhLow b s.driver keycode).mem (b.index i) = _
      rw [hmem, Function.update_of_ne hne, h.chars i (by simp; omega), List.getElem_append_left hi]
    · exact fun c hc => h.nonzero c (List.mem_append_left _ hc)

theorem Buffered.takesUnread_iff (h : Buffered b s text k) (hback : keyChar keycode = backspace) :
    TakesUnread b s (.key keycode) ↔ text = [] ∨ k < text.length := by
  have hstart : s.driver.inputPtr = b.addr ↔ text = [] := by
    rw [h.ptr, ← b.index_zero, b.index_inj h.short (Nat.zero_le _), List.length_eq_zero_iff]
  have hbehind : b.addr + s.reader.offset < s.driver.inputPtr ↔ k < text.length := by
    rw [h.ptr, h.offset]
    exact b.index_lt (h.read.trans h.short) h.short
  rw [TakesUnread, hstart, hbehind]
  exact forall_prop_of_true hback

theorem Buffered.read_eof (h : Buffered b s text k) (hk : k = text.length) :
    ttyReadCh b s.driver s.reader.offset = (s.driver, BitVec.ofNat 32 k, 0) := by
  have heof : b.addr + s.reader.offset ≥ s.driver.inputPtr := by
    rw [h.ptr, h.offset, hk]
    exact BitVec.le_refl _
  rw [ttyReadCh, if_pos heof, h.ptr, b.index_sub, hk]

theorem Buffered.not_eof (h : Buffered b s text k) (hk : k < text.length) :
    ¬b.addr + s.reader.offset ≥ s.driver.inputPtr := by
  have hlt := (b.index_lt (hk.le.trans h.short) h.short).mpr hk
  rw [h.ptr, h.offset]
  exact BitVec.not_le.mpr hlt

theorem Buffered.read_char (h : Buffered b s text k) (hk : k < text.length)
    (hch : text[k] ≠ newline) :
    ttyReadCh b s.driver s.reader.offset = (s.driver, BitVec.ofNat 32 (k + 1), text[k]) := by
  have hmem : s.driver.mem (b.addr + s.reader.offset) = text[k] := by
    rw [h.offset]
    exact h.chars k hk
  rw [ttyReadCh, if_neg (h.not_eof hk)]
  simp only [hmem, hch, and_false, if_false]
  rw [h.offset, BitVec.ofNat_add]
  rfl

theorem Buffered.read_newline (h : Buffered b s text k) (hk : k < text.length)
    (hch : text[k] = newline) :
    ttyReadCh b s.driver s.reader.offset =
      ({ s.driver with inputPtr := b.addr }, 0, newline) := by
  have hmem : s.driver.mem (b.addr + s.reader.offset) = newline := by
    rw [h.offset]
    exact (h.chars k hk).trans hch
  simp only [ttyReadCh, if_neg (h.not_eof hk), hmem, h.mode, and_self, if_true]

theorem poll_returned (hret : s.reader.returned = true) : exec b s .poll = s := by
  simp only [exec, ttyReadTurn, hret, if_true]

theorem Buffered.poll_eof (h : Buffered b s text k) (hk : k = text.length)
    (hrun : s.reader.returned = false) :
    (exec b s .poll).driver = s.driver ∧ (exec b s .poll).reader =
      { s.reader with
        offset := BitVec.ofNat 32 k
        returned := ¬(s.reader.size > 0 ∧ (0 : Byte) ≠ newline) } := by
  simp only [exec, ttyReadTurn, hrun, Bool.false_eq_true, if_false, h.read_eof hk, h.mode, if_true,
    ne_eq, not_true_eq_false]
  exact ⟨trivial, trivial⟩

theorem Buffered.poll_char (h : Buffered b s text k) (hk : k < text.length)
    (hch : text[k] ≠ newline) (hrun : s.reader.returned = false) :
    (exec b s .poll).driver = s.driver ∧ (exec b s .poll).reader =
      { offset := BitVec.ofNat 32 (k + 1)
        size := s.reader.size - 1
        stored := s.reader.stored ++ [text[k]]
        returned := ¬s.reader.size - 1 > 0 } := by
  have hne : text[k] ≠ 0 := h.nonzero _ (List.getElem_mem hk)
  simp only [exec, ttyReadTurn, hrun, Bool.false_eq_true, if_false, h.read_char hk hch, h.mode,
    if_true, hne, ne_eq, not_false_eq_true, hch, and_true]

theorem Buffered.poll_newline (h : Buffered b s text k) (hk : k < text.length)
    (hch : text[k] = newline) (hrun : s.reader.returned = false) :
    (exec b s .poll).reader.returned = true ∧
      (exec b s .poll).reader.stored = s.reader.stored ++ [newline] := by
  have hne : newline ≠ 0 := by decide
  simp only [exec, ttyReadTurn, hrun, Bool.false_eq_true, if_false, h.read_newline hk hch, h.mode,
    if_true, hne, ne_eq, not_false_eq_true, not_true_eq_false, and_false]
  exact ⟨rfl, trivial⟩

theorem Buffered.congr {t : State} {m : Nat} (h : Buffered b s text k) (hdriver : t.driver = s.driver)
    (hoffset : t.reader.offset = BitVec.ofNat 32 m) (hm : m ≤ text.length) :
    Buffered b t text m :=
  ⟨hdriver ▸ h.mode, hdriver ▸ h.ptr, hdriver ▸ h.chars, h.nonzero, h.short, hoffset, hm⟩

theorem Buffered.poll (h : Buffered b s text k) (hline : newline ∉ text) :
    ∃ m, k ≤ m ∧ Buffered b (exec b s .poll) text m := by
  cases hret : s.reader.returned with
  | true => exact ⟨k, le_rfl, by rwa [poll_returned hret]⟩
  | false =>
    rcases h.read.eq_or_lt with hk | hk
    · obtain ⟨hdriver, hreader⟩ := h.poll_eof hk hret
      exact ⟨k, le_rfl, h.congr hdriver (by rw [hreader]) h.read⟩
    · have hch : text[k] ≠ newline := fun heq => hline (heq ▸ List.getElem_mem hk)
      obtain ⟨hdriver, hreader⟩ := h.poll_char hk hch hret
      exact ⟨k + 1, Nat.le_succ k, h.congr hdriver (by rw [hreader]) hk⟩

theorem edit_cons (text : List Byte) (ch : Byte) (keys : List Byte) :
    edit text (ch :: keys) = edit (press text ch) keys := rfl

theorem edit_length_le (text keys : List Byte) :
    (edit text keys).length ≤ text.length + keys.length := by
  induction keys generalizing text with
  | nil => exact le_rfl
  | cons ch keys ih =>
    have hpress : (press text ch).length ≤ text.length + 1 := by
      unfold press
      split <;> simp
      omega
    rw [edit_cons, List.length_cons]
    exact (ih _).trans (by omega)

theorem Short.tail (h : Short text (ch :: keys)) : Short (press text ch) keys := fun pre hpre =>
  h (ch :: pre) (List.cons_prefix_cons.mpr ⟨rfl, hpre⟩)

theorem Short.head (h : Short text keys) : text.length < vgaCols := h [] List.nil_prefix

theorem Buffered.press (h : Buffered b s text k) (hch : keyChar keycode ≠ 0)
    (hshort : Short text (keyChar keycode :: keys)) (hsafe : TakesUnread b s (.key keycode)) :
    Buffered b (exec b s (.key keycode)) (press text (keyChar keycode)) k := by
  by_cases hback : keyChar keycode = backspace
  · rw [Tty.press, if_pos hback]
    exact h.erase hback ((h.takesUnread_iff hback).mp hsafe)
  · rw [Tty.press, if_neg hback]
    exact h.char hch hback hshort.head

theorem newline_not_mem_press (hline : newline ∉ text) (hch : ch ≠ newline) :
    newline ∉ press text ch := by
  unfold press
  split
  · exact fun hmem => hline (List.mem_of_mem_dropLast hmem)
  · simp [hline, Ne.symm hch]

theorem take_press (h : Buffered b s text k) (hsafe : TakesUnread b s (.key keycode)) :
    (Tty.press text (keyChar keycode)).take k = text.take k := by
  by_cases hback : keyChar keycode = backspace
  · rw [Tty.press, if_pos hback, List.dropLast_eq_take, List.take_take]
    rcases (h.takesUnread_iff hback).mp hsafe with rfl | hk
    · simp
    · rw [Nat.min_eq_left (Nat.le_sub_one_of_lt hk)]
  · rw [Tty.press, if_neg hback, List.take_append_of_le_length h.read]

theorem typed_key_cases (hch : keyChar keycode ≠ 0)
    (htyped : typed (.key keycode :: es) = keys ++ [newline]) :
    keys = [] ∧ keyChar keycode = newline ∧ typed es = [] ∨
      ∃ rest, keys = keyChar keycode :: rest ∧ typed es = rest ++ [newline] := by
  rw [typed, if_neg hch] at htyped
  cases keys with
  | nil =>
    obtain ⟨heq, hrest⟩ := List.cons_eq_cons.mp htyped
    exact .inl ⟨rfl, heq, hrest⟩
  | cons c rest =>
    obtain ⟨rfl, hrest⟩ := List.cons_eq_cons.mp htyped
    exact .inr ⟨rest, rfl, hrest⟩

theorem Buffered.kept (h : Buffered b s text k) (hline : newline ∉ text)
    (htyped : typed es = keys ++ [newline]) (hkeys : newline ∉ keys) (hshort : Short text keys)
    (hsafe : Along b (TakesUnread b) s es) : k ≤ (edit text keys).length := by
  induction es generalizing s text k keys with
  | nil => simp [typed] at htyped
  | cons e es ih =>
    obtain ⟨hhead, hsafe⟩ := hsafe
    cases e with
    | poll =>
      obtain ⟨m, hkm, h⟩ := h.poll hline
      exact hkm.trans (ih h hline htyped hkeys hshort hsafe)
    | key keycode =>
      by_cases hch : keyChar keycode = 0
      · rw [Buffered.quiet hch] at hsafe
        rw [typed, if_pos hch] at htyped
        exact ih h hline htyped hkeys hshort hsafe
      · rcases typed_key_cases hch htyped with ⟨rfl, -, -⟩ | ⟨rest, rfl, hafter⟩
        · exact h.read
        · obtain ⟨hne, hrest⟩ := not_or.mp (mt List.mem_cons.mpr hkeys)
          have hrec := ih (h.press hch hshort hhead) (newline_not_mem_press hline (Ne.symm hne))
            hafter hrest hshort.tail hsafe
          exact hrec

/-- The reader has stored the first `k` characters of the buffer, and goes on. -/
structure Reading (b : InputBuff) (s : State) (text : List Byte) (k : Nat) : Prop where
  buffered : Buffered b s text k
  stored : s.reader.stored = text.take k
  running : s.reader.returned = false

/-- `tty_read` has returned with `out` in its buffer. -/
def Returned (s : State) (out : List Byte) : Prop :=
  s.reader.returned = true ∧ s.reader.stored = out

theorem Returned.run {out : List Byte} (h : Returned s out) (es : List Event) :
    Returned (run b s es) out := by
  induction es generalizing s with
  | nil => exact h
  | cons e es ih =>
    cases e with
    | key keycode => exact ih h
    | poll =>
      refine ih ?_
      rwa [poll_returned h.1]

theorem Reading.eof (h : Reading b s text k) (hk : k = text.length) (hroom : 0 < s.reader.size.toNat) :
    Reading b (exec b s .poll) text k ∧ (exec b s .poll).reader.size = s.reader.size := by
  obtain ⟨hdriver, hreader⟩ := h.buffered.poll_eof hk h.running
  have hsize : s.reader.size > 0 := BitVec.lt_def.mpr hroom
  refine ⟨⟨h.buffered.congr hdriver (by rw [hreader]) h.buffered.read, ?_, ?_⟩, by rw [hreader]⟩
  · rw [hreader]
    exact h.stored
  · rw [hreader]
    exact decide_eq_false (not_not.mpr ⟨hsize, by decide⟩)

theorem Reading.char (h : Reading b s text k) (hk : k < text.length) (hch : text[k] ≠ newline)
    (hroom : 1 < s.reader.size.toNat) :
    Reading b (exec b s .poll) text (k + 1) ∧
      (exec b s .poll).reader.size.toNat = s.reader.size.toNat - 1 := by
  obtain ⟨hdriver, hreader⟩ := h.buffered.poll_char hk hch h.running
  have hsize : (s.reader.size - 1).toNat = s.reader.size.toNat - 1 :=
    BitVec.toNat_sub_of_le (BitVec.le_def.mpr hroom.le)
  refine ⟨⟨h.buffered.congr hdriver (by rw [hreader]) hk, ?_, ?_⟩, by rw [hreader, hsize]⟩
  · rw [hreader, h.stored]
    exact List.take_concat_get' text k hk
  · have hpos : s.reader.size - 1 > 0 := by
      refine BitVec.lt_def.mpr ?_
      rw [hsize]
      exact Nat.sub_pos_of_lt hroom
    rw [hreader]
    exact decide_eq_false (not_not.mpr hpos)

def polls (es : List Event) : Nat := es.countP fun e => e matches .poll

theorem Reading.finish (h : Reading b s (text ++ [newline]) k) (hline : newline ∉ text)
    (hk : k ≤ text.length) (htyped : typed es = []) (hroom : text.length < s.reader.size.toNat + k)
    (hpolls : text.length < polls es + k) : Returned (run b s es) (text ++ [newline]) := by
  induction es generalizing s k with
  | nil =>
    rw [polls, List.countP_nil] at hpolls
    omega
  | cons e es ih =>
    have hlen : (text ++ [newline]).length = text.length + 1 := by simp
    cases e with
    | key keycode =>
      by_cases hch : keyChar keycode = 0
      · rw [typed, if_pos hch] at htyped
        rw [run_quiet hch]
        exact ih h hk htyped hroom (by simpa [polls] using hpolls)
      · rw [typed, if_neg hch] at htyped
        exact absurd htyped (List.cons_ne_nil _ _)
    | poll =>
      have hcount : polls (.poll :: es) = polls es + 1 := by simp [polls]
      rcases hk.eq_or_lt with hk | hk
      · have hchar : (text ++ [newline])[k] = newline := by simp [hk]
        obtain ⟨hret, hstored⟩ := h.buffered.poll_newline (by omega) hchar h.running
        refine Returned.run (s := exec b s .poll) ⟨hret, ?_⟩ es
        rw [hstored, h.stored, hk, List.take_left]
      · have hchar : (text ++ [newline])[k] ≠ newline := by
          rw [List.getElem_append_left hk]
          exact fun heq => hline (heq ▸ List.getElem_mem hk)
        obtain ⟨h, hsize⟩ := h.char (by omega) hchar (by omega)
        exact ih h hk htyped (by omega) (by omega)

theorem polls_append_replicate (es : List Event) (n : Nat) :
    polls (es ++ List.replicate n .poll) = polls es + n := by
  simp [polls, List.countP_append, List.countP_replicate]

theorem typed_append_replicate (es : List Event) (n : Nat) :
    typed (es ++ List.replicate n .poll) = typed es := by
  induction es with
  | nil =>
    induction n with
    | zero => rfl
    | succ n ih => exact ih
  | cons e es ih =>
    cases e with
    | poll => exact ih
    | key keycode =>
      rw [List.cons_append, typed, typed, ih]

/-- The rest of a line, read while it is typed. -/
theorem Reading.whole_line (h : Reading b s text k) (hline : newline ∉ text)
    (htyped : typed es = keys ++ [newline]) (hkeys : newline ∉ keys) (hshort : Short text keys)
    (hsafe : Along b (TakesUnread b) s es)
    (hroom : (edit text keys).length < s.reader.size.toNat + k)
    (hn : (edit text keys).length < n) :
    Returned (run b s (es ++ List.replicate n .poll)) (edit text keys ++ [newline]) := by
  induction es generalizing s text k keys with
  | nil => simp [typed] at htyped
  | cons e es ih =>
    have hall := h.buffered.kept hline htyped hkeys hshort hsafe
    obtain ⟨hhead, hsafe⟩ := hsafe
    cases e with
    | poll =>
      rcases h.buffered.read.eq_or_lt with hk | hk
      · obtain ⟨h, hsize⟩ := h.eof hk (by omega)
        exact ih h hline htyped hkeys hshort hsafe (by rwa [hsize]) hn
      · have hch : text[k] ≠ newline := fun heq => hline (heq ▸ List.getElem_mem hk)
        obtain ⟨hdriver, hreader⟩ := h.buffered.poll_char hk hch h.running
        have hnext : Buffered b (exec b s .poll) text (k + 1) :=
          h.buffered.congr hdriver (by rw [hreader]) hk
        have hafter : typed es = keys ++ [newline] := htyped
        have hkept := hnext.kept hline hafter hkeys hshort hsafe
        obtain ⟨h, hsize⟩ := h.char hk hch (by omega)
        exact ih h hline htyped hkeys hshort hsafe (by omega) hn
    | key keycode =>
      by_cases hch : keyChar keycode = 0
      · have hquiet : exec b s (.key keycode) = s := Buffered.quiet hch
        rw [hquiet] at hsafe
        rw [typed, if_pos hch] at htyped
        rw [List.cons_append, run_quiet hch]
        exact ih h hline htyped hkeys hshort hsafe hroom hn
      · rcases typed_key_cases hch htyped with ⟨rfl, hnew, hafter⟩ | ⟨rest, rfl, hafter⟩
        · have hback : keyChar keycode ≠ backspace := by
            rw [hnew]
            decide
          have hbuffered := h.buffered.char hch hback hshort.head
          rw [hnew] at hbuffered
          have hstored : (exec b s (.key keycode)).reader.stored = (text ++ [newline]).take k := by
            rw [List.take_append_of_le_length h.buffered.read]
            exact h.stored
          have hquiet : typed (es ++ List.replicate n .poll) = [] := by
            rw [typed_append_replicate, hafter]
          have hpolls : text.length < polls (es ++ List.replicate n .poll) + k := by
            rw [polls_append_replicate]
            exact hn.trans_le (by omega)
          exact Reading.finish (s := exec b s (.key keycode)) ⟨hbuffered, hstored, h.running⟩ hline
            h.buffered.read hquiet hroom hpolls
        · obtain ⟨hne, hrest⟩ := not_or.mp (mt List.mem_cons.mpr hkeys)
          have hpress := h.buffered.press hch hshort hhead
          have hstored : (exec b s (.key keycode)).reader.stored =
              (press text (keyChar keycode)).take k := by
            rw [take_press h.buffered hhead]
            exact h.stored
          have hrec := ih (s := exec b s (.key keycode)) ⟨hpress, hstored, h.running⟩
            (newline_not_mem_press hline (Ne.symm hne)) hafter hrest hshort.tail hsafe hroom hn
          exact hrec

/-- What `tty_read` returns does not depend on when it polls, as long as no backspace
takes back a character it already has. -/
theorem ttyRead_line {size : Word} (hstart : s.driver.inputPtr = b.addr)
    (hmode : s.driver.readLineMode = true) (hreader : s.reader = ttyRead 0 size)
    (htyped : typed es = keys ++ [newline]) (hkeys : newline ∉ keys) (hshort : Short [] keys)
    (hsize : (edit [] keys).length < size.toNat) (hsafe : Along b (TakesUnread b) s es)
    (hn : (edit [] keys).length < n) :
    Returned (run b s (es ++ List.replicate n .poll)) (edit [] keys ++ [newline]) := by
  have hbuffered : Buffered b s [] 0 := by
    refine ⟨hmode, ?_, by simp, by simp, Nat.zero_le _, ?_, le_rfl⟩
    · rw [hstart, List.length_nil, b.index_zero]
    · rw [hreader]
      rfl
  have hreading : Reading b s [] 0 := ⟨hbuffered, by rw [hreader]; rfl, by rw [hreader]; rfl⟩
  refine hreading.whole_line List.not_mem_nil htyped hkeys hshort hsafe ?_ hn
  rw [hreader]
  exact hsize

def consoleBuff : InputBuff := ⟨0xC0110000, by decide⟩

def console : State :=
  { driver := ⟨fun _ => 0, consoleBuff.addr, true, true, []⟩
    reader := ttyRead 0 64 }

/-- `a`, a backspace that comes in time, `b` and Enter. -/
theorem ttyRead_line_example :
    Returned (run consoleBuff console
      ([.poll, .key 30, .key 14, .key 48, .poll, .key 28] ++ List.replicate 2 .poll))
        [98, newline] := by
  have hshort : Short [] [97, backspace, 98] := by
    intro pre hpre
    have hlen : pre.length ≤ 3 := hpre.length_le
    calc (edit [] pre).length ≤ 0 + pre.length := edit_length_le [] pre
      _ < vgaCols := by
        unfold vgaCols
        omega
  have hsafe : Along consoleBuff (TakesUnread consoleBuff) console
      [.poll, .key 30, .key 14, .key 48, .poll, .key 28] := by
    simp only [Along, TakesUnread]
    decide
  exact ttyRead_line rfl rfl rfl (by decide) (by decide) hshort (by decide) hsafe (by decide)

/-- The reader polls between `a` and the backspace, and keeps the `a`. -/
theorem ttyRead_keeps_erased :
    (run consoleBuff console
        [.key 30, .poll, .key 14, .key 48, .key 28, .poll]).reader.returned = true ∧
      (run consoleBuff console
        [.key 30, .poll, .key 14, .key 48, .key 28, .poll]).reader.stored = [97, newline] ∧
      edit [] [97, backspace, 98] ++ [newline] = [98, newline] := by
  decide

end RubiKernel.Tty
