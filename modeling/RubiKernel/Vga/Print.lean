import RubiKernel.Lib.Lts
import RubiKernel.Vga.Screen

/-! `term_print`, `tty_write` and `term_flush`: the screen, the video memory and the serial
line after any calls, as a sheet of coloured rows that only grows until it is cleared. -/

namespace RubiKernel.Vga

open Lts
open Tty (backspace newline vgaCols)

def escape : Byte := 27

/-- The terminal, what `vga_buffer` shows, what `write_com` has sent, and whether `kpanic` has
halted the processor. -/
structure Terminal where
  vga : VgaState
  video : Nat → BitVec 16
  serial : List Byte
  halted : Bool

/-- What `term_putc` gives to `write_com`, `'\r'` behind each newline. -/
def sent (c : Byte) : List Byte :=
  if c = 0 ∨ c = backspace then [] else if c = newline then [newline, 13] else [c]

namespace Terminal

def putc (t : Terminal) (c : Byte) : Terminal :=
  { t with vga := termPutc t.vga c, serial := t.serial ++ sent c }

def setColor (t : Terminal) (color : Byte) : Terminal :=
  { t with vga := { t.vga with termColor := color } }

def flush (t : Terminal) : Terminal :=
  { t with video := fun i =>
    if i < vgaCols * vgaRows then t.vga.termBuffer.cells i else t.video i }

/-- `term_clear`, and the flush of `TTY_IOCTL_CLEAR`. -/
def clear (t : Terminal) : Terminal := flush { t with vga := termClear t.vga }

/-- `kpanic` but for its message: `term_buffer` is the video memory itself. -/
def panic (t : Terminal) : Terminal :=
  { t with vga := ⟨0, 0, ⟨t.video, []⟩, 15⟩, halted := true }

/-- The loop of `term_print` from the index `i` on, and the index that it ends at. -/
def printLoop (str : Nat → Byte) : Nat → Nat → Terminal → Option (Terminal × Nat)
  | 0, _, _ => none
  | fuel + 1, i, t =>
    if str i = 0 then some (t, i)
    else if str i = escape then printLoop str fuel (i + 2) (t.setColor (str (i + 1)))
    else printLoop str fuel (i + 1) (t.putc (str i))

def print (str : Nat → Byte) (fuel : Nat) (t : Terminal) : Option (Terminal × Nat) :=
  (printLoop str fuel 0 t).map (Prod.map flush id)

/-- The loop of `tty_write` with `n` characters left, from the index `i` on; it ends behind a
terminator. -/
def writeLoop (str : Nat → Byte) : Nat → Nat → Terminal → Terminal × Nat
  | 0, i, t => (t, i)
  | n + 1, i, t =>
    if str i = 0 then (t, i + 1) else writeLoop str n (i + 1) (t.putc (str i))

/-- `tty_write`, with the value it returns. -/
def write (str : Nat → Byte) (size : Nat) (t : Terminal) : Terminal × Nat := writeLoop str size 0 t

end Terminal

inductive Mark
  | char (c : Byte)
  | color (c : Byte)
  deriving DecidableEq

def Mark.encode : Mark → List Byte
  | .char c => [c]
  | .color c => [escape, c]

/-- Only printable characters and newlines; any colour. -/
def Mark.Plain : Mark → Prop
  | .char c => Printable c ∨ c = newline
  | .color _ => True

instance Mark.Plain.decidable : (m : Mark) → Decidable m.Plain
  | .char c => inferInstanceAs (Decidable (Printable c ∨ c = newline))
  | .color _ => inferInstanceAs (Decidable True)

def StringAt (str : Nat → Byte) (i : Nat) (text : List Byte) : Prop :=
  (∀ k (hk : k < text.length), str (i + k) = text[k]) ∧ str (i + text.length) = 0

/-- A row: what is behind its characters, and these with their colours. -/
structure Line where
  fill : Nat → BitVec 16
  cells : List (Byte × Byte)

def Line.cell (l : Line) (x : Nat) : BitVec 16 :=
  match l.cells[x]? with
  | some (color, c) => entry color c
  | none => l.fill x

/-- All rows since the last clear, and the screen `base` that they began on; what of it has
been flushed, and all characters. -/
structure Sheet where
  base : Nat → Nat → BitVec 16
  color : Byte
  above : List Line
  line : Line
  flushed : Nat → Nat → BitVec 16
  chars : List Byte

namespace Sheet

def rows (p : Sheet) : List Line := p.above ++ [p.line]

def cell (p : Sheet) (r x : Nat) : BitVec 16 :=
  ((window vgaRows p.rows).getD r ⟨p.base r, []⟩).cell x

/-- The rows of the first screen are on what it showed, and later ones are blank. -/
def next (p : Sheet) : Sheet :=
  { p with
    above := p.rows
    line := ⟨if p.rows.length < vgaRows then p.base p.rows.length
      else fun _ => entry p.color blank, []⟩ }

def put (p : Sheet) (c : Byte) : Sheet :=
  let p := { p with chars := p.chars ++ [c] }
  if c = newline then p.next
  else
    let p := { p with line := { p.line with cells := p.line.cells ++ [(p.color, c)] } }
    if p.line.cells.length = vgaCols then p.next else p

def mark (p : Sheet) : Mark → Sheet
  | .char c => p.put c
  | .color c => { p with color := c }

def flush (p : Sheet) : Sheet := { p with flushed := p.cell }

/-- The rows begin anew, on `base`. -/
def restart (p : Sheet) (base : Nat → Nat → BitVec 16) : Sheet :=
  { p with base := base, above := [], line := ⟨base 0, []⟩ }

def clear (p : Sheet) : Sheet := (p.restart fun _ _ => entry p.color blank).flush

def print (p : Sheet) (message : List Mark) : Sheet := (message.foldl mark p).flush

/-- The message of `kpanic` is in white, over what the screen shows. -/
def panic (p : Sheet) (message : List Mark) : Sheet :=
  { p.restart p.flushed with color := 15 }.print message

end Sheet

inductive Call
  | print (message : List Mark)
  | write (text : List Byte)
  | putc (c : Byte)
  | flush
  | clear
  | panic (message : List Mark)

def Sheet.exec (p : Sheet) : Call → Sheet
  | .print message => p.print message
  | .write text => text.foldl Sheet.put p
  | .putc c => p.put c
  | .flush => p.flush
  | .clear => p.clear
  | .panic message => p.panic message

/-- The calls of the kernel and of the terminal's driver, with the strings anywhere in memory
and anything behind them. A text of `tty_write` ends at a terminator or with the buffer; the
message of `kpanic` is the last one. -/
def terminal : System Terminal Call where
  start t := ∃ s video serial, t = (⟨s, video, serial, false⟩ : Terminal).clear
  step t call t' := t.halted = false ∧
    match call with
    | .print message => (∀ m ∈ message, m.Plain) ∧ ∃ str fuel i,
        StringAt str 0 (message.flatMap Mark.encode) ∧ t.print str fuel = some (t', i)
    | .write text => (∀ c ∈ text, Printable c ∨ c = newline) ∧ ∃ str size i,
        (∀ k (hk : k < text.length), str k = text[k]) ∧
          (size = text.length ∨ text.length < size ∧ str text.length = 0) ∧
          t.write str size = (t', i)
    | .putc c => (Printable c ∨ c = newline) ∧ t' = t.putc c
    | .flush => t' = t.flush
    | .clear => t' = t.clear
    | .panic message => (∀ m ∈ message, m.Plain) ∧ ∃ str fuel i,
        StringAt str 0 (message.flatMap Mark.encode) ∧ t.panic.print str fuel = some (t', i)

structure Shown (s : VgaState) (p : Sheet) : Prop where
  color : s.termColor = p.color
  cells : ∀ r < vgaRows, ∀ x < vgaCols, s.termBuffer.cells (vgaCols * r + x) = p.cell r x
  row : s.termRow + 1 = (window vgaRows p.rows).length
  col : s.termCol = p.line.cells.length

variable {s : VgaState} {p : Sheet} {t t' : Terminal} {c : Byte} {text : List Byte}
  {message : List Mark} {str : Nat → Byte} {r x i n : Nat}

theorem rows_length (p : Sheet) : p.rows.length = p.above.length + 1 := by
  rw [Sheet.rows, List.length_append, List.length_singleton]

/-- The rows of the screen: those of the sheet, and behind them the first screen. -/
theorem cell_eq (p : Sheet) (r x : Nat) :
    p.cell r x = (p.rows.getD (p.rows.length - vgaRows + r) ⟨p.base r, []⟩).cell x := by
  rw [Sheet.cell, getD_window]

theorem next_rows (p : Sheet) : p.next.rows = p.rows ++
    [⟨if p.rows.length < vgaRows then p.base p.rows.length
      else fun _ => entry p.color blank, []⟩] := rfl

theorem Shown.termRow_nonneg (h : Shown s p) : 0 ≤ s.termRow := by
  have hrow := h.row
  have hrows : vgaRows = 25 := rfl
  rw [length_window, rows_length] at hrow
  omega

theorem Shown.linefeed (h : Shown s p) :
    Shown (scrollAtBottom { s with termCol := 0, termRow := s.termRow + 1 }) p.next := by
  obtain ⟨hcolor, hcells, hrow, -⟩ := h
  rw [length_window] at hrow
  have hlen : p.next.rows.length = p.rows.length + 1 := rows_length p.next
  simp only [cell_eq] at hcells
  unfold scrollAtBottom
  split
  · next hfull =>
    have hfull : s.termRow + 1 ≥ vgaRows := hfull
    have hle : ¬p.rows.length < vgaRows := by omega
    refine ⟨hcolor, fun r hr x hx => ?_, ?_, rfl⟩
    · rw [cells_scroll hr hx, cell_eq, hlen, next_rows, if_neg hle, getD_concat]
      split
      · next hnext =>
        rw [if_neg (by omega),
          show p.rows.length + 1 - vgaRows + r = p.rows.length - vgaRows + (r + 1) by omega]
        have hin : p.rows.length - vgaRows + (r + 1) < p.rows.length := by omega
        have hcell := hcells (r + 1) hnext x hx
        rw [List.getD_eq_getElem _ _ hin] at hcell ⊢
        exact hcell
      · rw [if_pos (by omega)]
        exact congrArg (entry · blank) hcolor
    · rw [length_window, hlen]
      show (vgaRows : Int) - 1 + 1 = _
      omega
  · next hroom =>
    have hroom : ¬s.termRow + 1 ≥ vgaRows := hroom
    have hlt : p.rows.length < vgaRows := by omega
    refine ⟨hcolor, fun r hr x hx => ?_, ?_, rfl⟩
    · have hcell := hcells r hr x hx
      rw [cell_eq, hlen, next_rows, if_pos hlt, getD_concat]
      rw [show p.rows.length - vgaRows + r = r by omega] at hcell
      rw [show p.rows.length + 1 - vgaRows + r = r by omega]
      split
      · next hlast =>
        rw [hlast, List.getD_eq_default _ _ le_rfl] at hcell
        rw [hlast]
        exact hcell
      · exact hcell
    · rw [length_window, hlen]
      show s.termRow + 1 + 1 = _
      omega

def Sheet.append (p : Sheet) (c : Byte) : Sheet :=
  { p with line := { p.line with cells := p.line.cells ++ [(p.color, c)] } }

theorem append_rows (p : Sheet) (c : Byte) :
    (p.append c).rows = p.above ++ [{ p.line with cells := p.line.cells ++ [(p.color, c)] }] := rfl

theorem append_cell (p : Sheet) (c : Byte) : Line.cell
    { p.line with cells := p.line.cells ++ [(p.color, c)] } x =
      if x = p.line.cells.length then entry p.color c else p.line.cell x := by
  rw [Line.cell, Line.cell]
  rcases Nat.lt_trichotomy x p.line.cells.length with hlt | heq | hgt
  · rw [List.getElem?_append_left hlt, if_neg (by omega)]
  · rw [heq, List.getElem?_concat_length, if_pos rfl]
  · have hbehind : (p.line.cells ++ [(p.color, c)]).length ≤ x := by
      rw [List.length_append, List.length_singleton]
      omega
    rw [List.getElem?_eq_none hbehind, List.getElem?_eq_none hgt.le, if_neg (by omega)]

theorem Shown.place (h : Shown s p) (hline : p.line.cells.length < vgaCols) (hc : Printable c) :
    Shown (place s c) (p.append c) := by
  have hnonneg := h.termRow_nonneg
  obtain ⟨hcolor, hcells, hrow, hcol⟩ := h
  obtain ⟨hzero, hnewline, hback⟩ := hc.ne
  have hrows : vgaRows = 25 := rfl
  have hcols : vgaCols = 80 := rfl
  rw [length_window, rows_length] at hrow
  obtain ⟨k, hk⟩ := Int.eq_ofNat_of_zero_le hnonneg
  have hx : (BitVec.ofInt 16 s.termCol).toNat = p.line.cells.length := by
    rw [toNat_ofInt (by omega), hcol, Int.toNat_natCast]
  have hy : (BitVec.ofInt 16 s.termRow).toNat = k := by
    rw [toNat_ofInt (by omega), hk, Int.toNat_natCast]
  have hlast : p.above.length + 1 - vgaRows + k = p.above.length := by omega
  have hlen : (p.append c).rows.length = p.above.length + 1 := rows_length (p.append c)
  rw [Vga.place, if_neg hzero, if_neg hnewline, if_neg hback, termSetc, if_pos hnewline, hx, hy,
    entry_of_printable hc, hcolor]
  refine ⟨rfl, fun r hr x hx => ?_, ?_, ?_⟩
  · have hcell := hcells r hr x hx
    rw [cell_eq, rows_length, Sheet.rows, getD_concat] at hcell
    rw [Buffer.cells_store, cell_eq, hlen, append_rows, getD_concat, hcell]
    have hindex : vgaCols * r + x = vgaCols * k + p.line.cells.length ↔
        r = k ∧ x = p.line.cells.length := grid_inj hx hline
    by_cases hat : r = k
    · subst hat
      rw [if_pos hlast, if_pos hlast, append_cell]
      exact if_congr (hindex.trans (and_iff_right rfl)) rfl rfl
    · have hother : p.above.length + 1 - vgaRows + r ≠ p.above.length := by omega
      rw [if_neg fun heq => hat (hindex.mp heq).1, if_neg hother, if_neg hother]
      rfl
  · rw [length_window, hlen]
    exact hrow
  · show s.termCol + 1 = ((p.line.cells ++ [(p.color, c)]).length : Nat)
    rw [List.length_append, List.length_singleton]
    omega

theorem Shown.putc (h : Shown s p) (hline : p.line.cells.length < vgaCols)
    (hc : Printable c ∨ c = newline) :
    Shown (termPutc s c) (p.put c) ∧ (p.put c).line.cells.length < vgaCols := by
  have hnext : ∀ {s : VgaState} {p : Sheet}, Shown s p → Shown
      (correct { s with termCol := 0, termRow := s.termRow + 1 }) p.next := by
    intro s p h
    have hsame : wrapEnd { s with termCol := 0, termRow := s.termRow + 1 } =
        { s with termCol := 0, termRow := s.termRow + 1 } :=
      if_neg (show ¬(0 : Int) ≥ vgaCols by decide)
    have hrow : 0 ≤ s.termRow + 1 := Int.le_add_one h.termRow_nonneg
    rw [correct_forward (by rw [hsame]) (by rw [hsame]; exact hrow), hsame]
    exact h.linefeed
  have hchars : ∀ {s : VgaState} {p : Sheet} (chars), Shown s p → Shown s { p with chars := chars } :=
    fun _ h => ⟨h.color, h.cells, h.row, h.col⟩
  have hwidth : 0 < vgaCols := by decide
  rcases hc with hc | rfl
  · have hplace := hchars (p.chars ++ [c]) (h.place hline hc)
    have hput : p.put c = if (p.line.cells ++ [(p.color, c)]).length = vgaCols
        then { p.append c with chars := p.chars ++ [c] }.next
        else { p.append c with chars := p.chars ++ [c] } := if_neg hc.ne.2.1
    have hcol : (Vga.place s c).termCol = ((p.line.cells ++ [(p.color, c)]).length : Nat) :=
      hplace.col
    have hrow := hplace.termRow_nonneg
    rw [hput]
    split
    · next hfull =>
      refine ⟨?_, hwidth⟩
      have hwrap : wrapEnd (Vga.place s c) =
          { Vga.place s c with termCol := 0, termRow := (Vga.place s c).termRow + 1 } :=
        if_pos (by omega)
      rw [termPutc, correct_forward (by rw [hwrap]) (by rw [hwrap]; exact Int.le_add_one hrow),
        hwrap]
      exact hplace.linefeed
    · next hroom =>
      have hlt : (p.line.cells ++ [(p.color, c)]).length < vgaCols := by
        rw [List.length_append, List.length_singleton] at hroom ⊢
        omega
      refine ⟨?_, hlt⟩
      have hsame : wrapEnd (Vga.place s c) = Vga.place s c := if_neg (by omega)
      have hbottom : scrollAtBottom (Vga.place s c) = Vga.place s c := by
        refine if_neg ?_
        have hlen := hplace.row
        rw [length_window] at hlen
        omega
      rw [termPutc, correct_forward (by rw [hsame]; omega) (by rw [hsame]; exact hrow), hsame,
        hbottom]
      exact hplace
  · exact ⟨hnext (hchars _ h), hwidth⟩

def Terminal.mark (t : Terminal) : Mark → Terminal
  | .char c => t.putc c
  | .color c => t.setColor c

theorem StringAt.tail {l : List Byte} (h : StringAt str i (l ++ text)) :
    StringAt str (i + l.length) text := by
  refine ⟨fun k hk => ?_, ?_⟩
  · have hat := h.1 (l.length + k) (by rw [List.length_append]; omega)
    rw [← Nat.add_assoc, List.getElem_append_right (Nat.le_add_right ..)] at hat
    simpa using hat
  · have hnul := h.2
    rwa [List.length_append, ← Nat.add_assoc] at hnul

theorem StringAt.get {l : List Byte} (h : StringAt str i (l ++ text)) {k : Nat}
    (hk : k < l.length) : str (i + k) = l[k] := by
  rw [h.1 k (by rw [List.length_append]; omega), List.getElem_append_left hk]

theorem printLoop_eq (hplain : ∀ m ∈ message, m.Plain)
    (hstr : StringAt str i (message.flatMap Mark.encode)) (fuel : Nat) (t : Terminal) :
    t.printLoop str fuel i = if message.length < fuel then
      some (message.foldl Terminal.mark t, i + (message.flatMap Mark.encode).length) else none := by
  induction message generalizing i t fuel with
  | nil =>
    cases fuel with
    | zero => rfl
    | succ fuel =>
      have hnul : str i = 0 := hstr.2
      rw [Terminal.printLoop, if_pos hnul]
      rfl
  | cons m message ih =>
    have hrest : ∀ m ∈ message, m.Plain := fun m hm => hplain m (List.mem_cons_of_mem _ hm)
    rw [List.flatMap_cons] at hstr
    cases fuel with
    | zero => rfl
    | succ fuel =>
      have hfuel : message.length < fuel ↔ (m :: message).length < fuel + 1 := by
        rw [List.length_cons]
        omega
      rw [Terminal.printLoop, List.flatMap_cons, List.length_append, ← Nat.add_assoc]
      cases m with
      | char c =>
        have hc : Printable c ∨ c = newline := hplain (.char c) List.mem_cons_self
        have hat : str i = c := hstr.get (k := 0) Nat.zero_lt_one
        have hzero : c ≠ 0 := by
          rcases hc with hc | rfl
          · exact hc.ne.1
          · decide
        have hescape : c ≠ escape := by
          rintro rfl
          exact absurd hc (by decide)
        rw [hat, if_neg hzero, if_neg hescape]
        exact (ih hrest hstr.tail fuel _).trans (if_congr hfuel rfl rfl)
      | color c =>
        have hat : str i = escape := hstr.get (k := 0) Nat.zero_lt_two
        have hat' : str (i + 1) = c := hstr.get (k := 1) Nat.one_lt_two
        rw [hat, hat', if_neg (by decide), if_pos rfl]
        exact (ih hrest hstr.tail fuel _).trans (if_congr hfuel rfl rfl)

theorem print_eq (hplain : ∀ m ∈ message, m.Plain)
    (hstr : StringAt str 0 (message.flatMap Mark.encode)) (t : Terminal) :
    t.print str (message.length + 1) =
      some ((message.foldl Terminal.mark t).flush, (message.flatMap Mark.encode).length) := by
  rw [Terminal.print, printLoop_eq hplain hstr, if_pos (Nat.lt_succ_self _), Option.map_some,
    Nat.zero_add]
  rfl

theorem writeLoop_eq (htext : ∀ c ∈ text, c ≠ 0)
    (hstr : ∀ k (hk : k < text.length), str (i + k) = text[k])
    (hend : n = text.length ∨ text.length < n ∧ str (i + text.length) = 0) (t : Terminal) :
    (t.writeLoop str n i).1 = text.foldl Terminal.putc t := by
  induction text generalizing i n t with
  | nil =>
    rcases hend with rfl | ⟨hpos, hnul⟩
    · rfl
    · obtain ⟨n, rfl⟩ := Nat.exists_eq_succ_of_ne_zero hpos.ne'
      have hnul : str i = 0 := hnul
      rw [Terminal.writeLoop, if_pos hnul]
      rfl
  | cons c text ih =>
    have hat : str i = c := hstr 0 (Nat.succ_pos _)
    obtain ⟨n, rfl⟩ : ∃ m, n = m + 1 := by
      rw [List.length_cons] at hend
      exact ⟨n - 1, by omega⟩
    rw [Terminal.writeLoop, hat, if_neg (htext c List.mem_cons_self), List.foldl_cons]
    refine ih (fun c hc => htext c (List.mem_cons_of_mem _ hc)) (fun k hk => ?_) ?_ _
    · have hnext := hstr (k + 1) (Nat.succ_lt_succ hk)
      rwa [List.getElem_cons_succ, ← Nat.add_assoc, Nat.add_right_comm] at hnext
    · rw [List.length_cons] at hend
      rcases hend with heq | ⟨hlt, hnul⟩
      · exact .inl (by omega)
      · exact .inr ⟨by omega, by rwa [← Nat.add_assoc, Nat.add_right_comm] at hnul⟩

/-- The screen, the video memory and the serial line are those of the sheet; `log` has what
was sent before it. -/
structure Displays (log : List Byte) (t : Terminal) (p : Sheet) : Prop where
  shown : Shown t.vga p
  room : p.line.cells.length < vgaCols
  video : ∀ r < vgaRows, ∀ x < vgaCols, t.video (vgaCols * r + x) = p.flushed r x
  serial : t.serial = log ++ p.chars.flatMap sent

variable {log : List Byte}

theorem put_chars (p : Sheet) (c : Byte) : (p.put c).chars = p.chars ++ [c] := by
  simp only [Sheet.put]
  split_ifs <;> rfl

theorem put_flushed (p : Sheet) (c : Byte) : (p.put c).flushed = p.flushed := by
  simp only [Sheet.put]
  split_ifs <;> rfl

theorem Displays.putc (h : Displays log t p) (hc : Printable c ∨ c = newline) :
    Displays log (t.putc c) (p.put c) := by
  obtain ⟨hshown, hroom⟩ := h.shown.putc h.room hc
  refine ⟨hshown, hroom, fun r hr x hx => ?_, ?_⟩
  · rw [put_flushed]
    exact h.video r hr x hx
  · rw [put_chars, List.flatMap_append, List.flatMap_singleton, ← List.append_assoc, ← h.serial]
    rfl

theorem Displays.setColor (h : Displays log t p) (c : Byte) :
    Displays log (t.setColor c) { p with color := c } :=
  ⟨⟨rfl, h.shown.cells, h.shown.row, h.shown.col⟩, h.room, h.video, h.serial⟩

theorem Displays.flush (h : Displays log t p) : Displays log t.flush p.flush where
  shown := ⟨h.shown.color, h.shown.cells, h.shown.row, h.shown.col⟩
  room := h.room
  video r hr x hx := by
    rw [Terminal.flush]
    exact (if_pos ((grid_lt hx).mpr hr)).trans (h.shown.cells r hr x hx)
  serial := h.serial

theorem restart_cell (p : Sheet) (base : Nat → Nat → BitVec 16) :
    (p.restart base).cell r x = base r x := by
  rw [Sheet.cell]
  cases r <;> rfl

theorem Displays.clear (hcolor : t.vga.termColor = p.color)
    (hserial : t.serial = log ++ p.chars.flatMap sent) : Displays log t.clear p.clear := by
  have hshown : Shown (termClear t.vga) (p.restart fun _ _ => entry p.color blank) := by
    refine ⟨hcolor, fun r hr x hx => ?_, rfl, rfl⟩
    rw [cells_termClear hr hx, hcolor, restart_cell]
  refine ⟨⟨hshown.color, hshown.cells, hshown.row, hshown.col⟩, Nat.zero_lt_succ _,
    fun r hr x hx => ?_, hserial⟩
  exact (if_pos ((grid_lt hx).mpr hr)).trans (hshown.cells r hr x hx)

theorem Displays.panic (h : Displays log t p) :
    Displays log t.panic { p.restart p.flushed with color := 15 } where
  shown := by
    refine ⟨rfl, fun r hr x hx => ?_, rfl, rfl⟩
    exact (h.video r hr x hx).trans (restart_cell p p.flushed).symm
  room := Nat.zero_lt_succ _
  video := h.video
  serial := h.serial

theorem Displays.printed (h : Displays log t p) (hplain : ∀ m ∈ message, m.Plain) :
    Displays log (message.foldl Terminal.mark t) (message.foldl Sheet.mark p) := by
  induction message generalizing t p with
  | nil => exact h
  | cons m message ih =>
    refine ih ?_ fun m hm => hplain m (List.mem_cons_of_mem _ hm)
    cases m with
    | char c => exact h.putc (hplain (.char c) List.mem_cons_self)
    | color c => exact h.setColor c

theorem Displays.written (h : Displays log t p) (htext : ∀ c ∈ text, Printable c ∨ c = newline) :
    Displays log (text.foldl Terminal.putc t) (text.foldl Sheet.put p) := by
  induction text generalizing t p with
  | nil => exact h
  | cons c text ih =>
    exact ih (h.putc (htext c List.mem_cons_self)) fun c hc => htext c (List.mem_cons_of_mem _ hc)

theorem plain_ne_zero (hc : Printable c ∨ c = newline) : c ≠ 0 := by
  rcases hc with hc | rfl
  · exact hc.ne.1
  · decide

theorem Displays.print (h : Displays log t p) (hplain : ∀ m ∈ message, m.Plain)
    (hstr : StringAt str 0 (message.flatMap Mark.encode)) {fuel : Nat}
    (hprint : t.print str fuel = some (t', i)) : Displays log t' (p.print message) := by
  obtain ⟨⟨t'', j⟩, hloop, heq⟩ := Option.map_eq_some_iff.mp hprint
  obtain ⟨rfl, -⟩ := Prod.mk.inj heq
  rw [printLoop_eq hplain hstr, Option.ite_none_right_eq_some, Option.some.injEq] at hloop
  obtain ⟨rfl, -⟩ := Prod.mk.inj hloop.2
  exact (h.printed hplain).flush

theorem Displays.step {call : Call} (h : Displays log t p) (hstep : terminal.step t call t') :
    Displays log t' (p.exec call) := by
  obtain ⟨-, hstep⟩ := hstep
  cases call with
  | print message =>
    obtain ⟨hplain, str, fuel, i, hstr, hprint⟩ := hstep
    exact h.print hplain hstr hprint
  | write text =>
    obtain ⟨htext, str, size, i, hstr, hend, hwrite⟩ := hstep
    have heq : t' = text.foldl Terminal.putc t := by
      rw [← writeLoop_eq (i := 0) (n := size) (fun c hc => plain_ne_zero (htext c hc))
        (by simpa using hstr) (by simpa using hend)]
      exact (congrArg Prod.fst hwrite).symm
    rw [heq]
    exact h.written htext
  | putc c =>
    obtain ⟨hc, rfl⟩ := hstep
    exact h.putc hc
  | flush =>
    obtain rfl := hstep
    exact h.flush
  | clear =>
    obtain rfl := hstep
    exact .clear h.shown.color h.serial
  | panic message =>
    obtain ⟨hplain, str, fuel, i, hstr, hprint⟩ := hstep
    exact h.panic.print hplain hstr hprint

theorem Displays.run {tr : List (Call × Terminal)} (h : Displays log t p)
    (htr : terminal.Trace t tr) :
    Displays log (final t tr) ((tr.map Prod.fst).foldl Sheet.exec p) := by
  induction tr generalizing t p with
  | nil => exact h
  | cons x tr ih => exact ih (h.step htr.1) htr.2

def Sheet.blank (color : Byte) : Sheet :=
  Sheet.clear ⟨fun _ _ => 0, color, [], ⟨fun _ => 0, []⟩, fun _ _ => 0, []⟩

theorem displays_blank (s : VgaState) (video : Nat → BitVec 16) (serial : List Byte) :
    Displays serial (⟨s, video, serial, false⟩ : Terminal).clear (Sheet.blank s.termColor) :=
  .clear rfl (List.append_nil _).symm

/-- After any calls the screen shows the last rows of the sheet, each character in the colour
that was set before it, the video memory shows what it was at the last flush, and the serial
line has had every character. A further message is printed up to its terminator. -/
theorem terminal_displays {tr : List (Call × Terminal)} (hs : terminal.start t)
    (htr : terminal.Trace t tr) :
    Displays t.serial (final t tr)
      ((tr.map Prod.fst).foldl Sheet.exec (Sheet.blank t.vga.termColor)) ∧
    ∀ (message : List Mark) (str : Nat → Byte), (∀ m ∈ message, m.Plain) →
      StringAt str 0 (message.flatMap Mark.encode) → ∃ t' fuel, (final t tr).print str fuel =
        some (t', (message.flatMap Mark.encode).length) := by
  obtain ⟨s, video, serial, rfl⟩ := hs
  exact ⟨(displays_blank s video serial).run htr,
    fun message str hplain hstr => ⟨_, _, print_eq hplain hstr _⟩⟩

def bootTerminal : Terminal := (⟨initial, fun _ => 0, [], false⟩ : Terminal).clear

def redLetter : List Mark := [.color 4, .char 65, .char newline]

def redRun : List (Call × Terminal) :=
  [(.print redLetter, (redLetter.foldl Terminal.mark bootTerminal).flush)]

theorem redRun_trace : terminal.Trace bootTerminal redRun := by
  have hstr : StringAt (fun k => (redLetter.flatMap Mark.encode).getD k 0) 0
      (redLetter.flatMap Mark.encode) := by
    refine ⟨fun k hk => ?_, rfl⟩
    rw [Nat.zero_add]
    exact List.getD_eq_getElem _ _ hk
  have hplain : ∀ m ∈ redLetter, m.Plain := by decide
  exact ⟨⟨rfl, hplain, _, _, _, hstr, print_eq hplain hstr bootTerminal⟩, trivial⟩

/-- The letter is red in the video memory, and is followed by a newline on the serial line. -/
theorem terminal_displays_red : (final bootTerminal redRun).video 0 = entry 4 65 ∧
    (final bootTerminal redRun).serial = [65, newline, 13] := by
  obtain ⟨hdisplays, -⟩ := terminal_displays ⟨initial, fun _ => 0, [], rfl⟩ redRun_trace
  exact ⟨hdisplays.video 0 (by decide) 0 (by decide), hdisplays.serial⟩

end RubiKernel.Vga
