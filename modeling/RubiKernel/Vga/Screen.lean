import RubiKernel.Vga.Defs

/-! The screen as a window on the end of the text that was written. -/

namespace RubiKernel.Vga

open Tty (backspace newline vgaCols)

def Printable (c : Byte) : Prop := 32 ≤ c.toNat ∧ c.toNat ≤ 126

instance Printable.decidable (c : Byte) : Decidable (Printable c) :=
  inferInstanceAs (Decidable (_ ∧ _))

/-- The screen shows the last of the rows, and the cursor is behind the last character. -/
structure Shows (color : Byte) (s : VgaState) (rows : List (List Byte)) : Prop where
  termColor : s.termColor = color
  cells : ∀ r < vgaRows, ∀ x < vgaCols, s.termBuffer.cells (vgaCols * r + x) =
    entry color (((window vgaRows rows).getD r []).getD x blank)
  row : s.termRow + 1 = (window vgaRows rows).length
  col : s.termCol = ((window vgaRows rows).getLastD []).length

variable {s : VgaState} {c color : Byte} {rows : List (List Byte)} {line text : List Byte}
  {r x : Nat}

theorem entry_of_printable (hc : Printable c) :
    color.setWidth 16 <<< 8 ||| c.signExtend 16 = entry color c := by
  have hmsb : c.msb = false := by
    rw [BitVec.msb_eq_decide, decide_eq_false_iff_not]
    have hle := hc.2
    omega
  rw [entry, BitVec.signExtend_eq_setWidth_of_msb_false hmsb]

theorem cells_termClear (hr : r < vgaRows) (hx : x < vgaCols) :
    (termClear s).termBuffer.cells (vgaCols * r + x) = entry s.termColor blank := by
  have hall : (termClear s).termBuffer = s.termBuffer.storeAll ((List.range vgaCols).flatMap
      fun col => (List.range vgaRows).map fun row => vgaCols * row + col)
      (entry s.termColor blank) := by
    simp only [termClear, Buffer.storeAll, List.foldl_flatMap, List.foldl_map]
  rw [hall, Buffer.cells_storeAll, if_pos]
  exact List.mem_flatMap.mpr ⟨x, List.mem_range.mpr hx,
    List.mem_map.mpr ⟨r, List.mem_range.mpr hr, rfl⟩⟩

theorem shows_termClear : Shows s.termColor (termClear s) [[]] where
  termColor := rfl
  cells r hr x hx := by
    rw [cells_termClear hr hx]
    cases r <;> rfl
  row := rfl
  col := rfl

theorem getD_concat_nil (k : Nat) : (rows ++ [[]]).getD k [] = rows.getD k [] := by
  rw [getD_concat]
  split
  · next hk => rw [hk, List.getD_eq_default _ _ le_rfl]
  · rfl

theorem Shows.linefeed (h : Shows color s rows) :
    Shows color (scrollAtBottom { s with termCol := 0, termRow := s.termRow + 1 })
      (rows ++ [[]]) := by
  obtain ⟨hcolor, hcells, hrow, -⟩ := h
  rw [length_window] at hrow
  have hcol : (0 : Int) = (((window vgaRows (rows ++ [[]])).getLastD []).length : Nat) := by
    rw [getLastD_window (by decide)]
    rfl
  have hlen : (rows ++ [[]]).length = rows.length + 1 := by simp
  simp only [getD_window] at hcells
  unfold scrollAtBottom
  split
  · next hfull =>
    have hle : vgaRows ≤ rows.length := by
      have hfull : s.termRow + 1 ≥ vgaRows := hfull
      omega
    refine ⟨hcolor, fun r hr x hx => ?_, ?_, hcol⟩
    · rw [cells_scroll hr hx, getD_window, getD_concat_nil, hlen]
      split
      · next hnext =>
        rw [show rows.length + 1 - vgaRows + r = rows.length - vgaRows + (r + 1) by omega]
        exact hcells (r + 1) hnext x hx
      · have hbelow : rows.getD (rows.length + 1 - vgaRows + r) [] = [] :=
          List.getD_eq_default _ _ (by omega)
        rw [hbelow]
        exact congrArg (entry · blank) hcolor
    · rw [length_window, hlen]
      show (vgaRows : Int) - 1 + 1 = _
      omega
  · next hroom =>
    have hlt : rows.length < vgaRows := by
      have hroom : ¬s.termRow + 1 ≥ vgaRows := hroom
      omega
    refine ⟨hcolor, fun r hr x hx => ?_, ?_, hcol⟩
    · rw [getD_window, getD_concat_nil, hlen,
        show rows.length + 1 - vgaRows = rows.length - vgaRows by omega]
      exact hcells r hr x hx
    · rw [length_window, hlen]
      show s.termRow + 1 + 1 = _
      omega

theorem Printable.ne (hc : Printable c) : c ≠ 0 ∧ c ≠ newline ∧ c ≠ backspace := by
  refine ⟨?_, ?_, ?_⟩ <;> rintro rfl <;> exact absurd hc (by decide)

theorem Shows.place (h : Shows color s (rows ++ [line])) (hline : line.length < vgaCols)
    (hc : Printable c) : Shows color (place s c) (rows ++ [line ++ [c]]) := by
  obtain ⟨hcolor, hcells, hrow, hcol⟩ := h
  obtain ⟨hzero, hnewline, hback⟩ := hc.ne
  have hlen (l : List Byte) : (rows ++ [l]).length = rows.length + 1 := by simp
  rw [length_window, hlen] at hrow
  rw [getLastD_window (by decide)] at hcol
  simp only [getD_window, hlen] at hcells
  have hrows : vgaRows = 25 := rfl
  have hcols : vgaCols = 80 := rfl
  have hx : (BitVec.ofInt 16 s.termCol).toNat = line.length := by
    rw [toNat_ofInt (by omega), hcol, Int.toNat_natCast]
  obtain ⟨k, hk⟩ := Int.eq_ofNat_of_zero_le (show 0 ≤ s.termRow by omega)
  have hy : (BitVec.ofInt 16 s.termRow).toNat = k := by
    rw [toNat_ofInt (by omega), hk, Int.toNat_natCast]
  have hlast : rows.length + 1 - vgaRows + k = rows.length := by omega
  rw [Vga.place, if_neg hzero, if_neg hnewline, if_neg hback, termSetc, if_pos hnewline, hx, hy,
    entry_of_printable hc]
  refine ⟨hcolor, fun r hr x hx => ?_, ?_, ?_⟩
  · rw [Buffer.cells_store, getD_window, hlen, hcells r hr x hx, getD_concat, getD_concat, hcolor]
    have hindex : vgaCols * r + x = vgaCols * k + line.length ↔ r = k ∧ x = line.length :=
      grid_inj hx hline
    by_cases hat : r = k
    · subst hat
      rw [if_pos hlast, if_pos hlast, getD_concat]
      by_cases hbehind : x = line.length
      · rw [if_pos (hindex.mpr ⟨rfl, hbehind⟩), if_pos hbehind]
      · rw [if_neg fun heq => hbehind (hindex.mp heq).2, if_neg hbehind]
    · have hother : rows.length + 1 - vgaRows + r ≠ rows.length := by omega
      rw [if_neg fun heq => hat (hindex.mp heq).1, if_neg hother, if_neg hother]
  · rw [length_window, hlen]
    exact hrow
  · rw [getLastD_window (by decide), List.length_append, List.length_singleton]
    show s.termCol + 1 = _
    omega

theorem correct_forward (hcol : 0 ≤ (wrapEnd s).termCol) (hrow : 0 ≤ (wrapEnd s).termRow) :
    correct s = scrollAtBottom (wrapEnd s) := by
  rw [correct, wrapStart, if_neg (not_lt.mpr hcol), stopAtTop, if_neg (not_lt.mpr hrow)]

theorem Shows.termRow_nonneg (h : Shows color s (rows ++ [line])) : 0 ≤ s.termRow := by
  have hrow := h.row
  rw [length_window, List.length_append, List.length_singleton] at hrow
  have hrows : vgaRows = 25 := rfl
  omega

theorem Shows.correct (h : Shows color s (rows ++ [line])) (hline : line.length < vgaCols) :
    correct s = s := by
  have hrow := h.row
  have hcol := h.col
  rw [length_window] at hrow
  rw [getLastD_window (by decide)] at hcol
  have hsame : wrapEnd s = s := if_neg (by omega)
  rw [correct_forward (by rw [hsame]; omega) (by rw [hsame]; exact h.termRow_nonneg), hsame,
    scrollAtBottom, if_neg (by omega)]

theorem Shows.correct_full (h : Shows color s (rows ++ [line])) (hline : line.length = vgaCols) :
    Shows color (Vga.correct s) (rows ++ [line] ++ [[]]) := by
  have hcol := h.col
  rw [getLastD_window (by decide), hline] at hcol
  have hwrap : wrapEnd s = { s with termCol := 0, termRow := s.termRow + 1 } := if_pos hcol.ge
  have hrow : 0 ≤ s.termRow + 1 := Int.le_add_one h.termRow_nonneg
  rw [correct_forward (by rw [hwrap]) (by rw [hwrap]; exact hrow), hwrap]
  exact h.linefeed

theorem Shows.termPutc_newline (h : Shows color s (rows ++ [line])) :
    Shows color (termPutc s newline) (rows ++ [line] ++ [[]]) := by
  have hplace : Vga.place s newline = { s with termCol := 0, termRow := s.termRow + 1 } := rfl
  have hsame : wrapEnd (Vga.place s newline) = Vga.place s newline :=
    if_neg (show ¬(0 : Int) ≥ vgaCols by decide)
  have hrow : 0 ≤ s.termRow + 1 := Int.le_add_one h.termRow_nonneg
  rw [termPutc, correct_forward (by rw [hsame, hplace]) (by rw [hsame, hplace]; exact hrow), hsame,
    hplace]
  exact h.linefeed

theorem Shows.foldl (h : Shows color s (rows ++ [line])) (hline : line.length < vgaCols)
    (htext : ∀ c ∈ text, Printable c ∨ c = newline) :
    Shows color (text.foldl termPutc s) (rows ++ foldFrom vgaCols newline line text) := by
  induction text generalizing s rows line with
  | nil => exact h
  | cons c text ih =>
    have hrest : ∀ c ∈ text, Printable c ∨ c = newline :=
      fun c hc => htext c (List.mem_cons_of_mem _ hc)
    rw [List.foldl_cons, foldFrom]
    rcases htext c List.mem_cons_self with hc | rfl
    · have hplace := h.place hline hc
      have hlen : (line ++ [c]).length = line.length + 1 := by simp
      rw [if_neg hc.ne.2.1]
      split
      · next hfull =>
        have hnext := ih (hplace.correct_full (hlen.trans hfull)) (by decide) hrest
        rwa [List.append_assoc] at hnext
      · next hroom =>
        have hlt : (line ++ [c]).length < vgaCols := by omega
        rw [termPutc, hplace.correct hlt]
        exact ih hplace hlt hrest
    · have hnext := ih h.termPutc_newline (by decide) hrest
      rwa [List.append_assoc] at hnext

/-- The screen shows the end of the text folded at 80 columns, with the cursor behind its
last character. -/
theorem screen_shows_tail (s : VgaState) (htext : ∀ c ∈ text, Printable c ∨ c = newline) :
    Shows s.termColor (text.foldl termPutc (termClear s)) (foldRows vgaCols newline text) :=
  have hstart : Shows s.termColor (termClear s) ([] ++ [[]]) := shows_termClear
  hstart.foldl (by decide) htext

/-- A row and a half, empty rows, a full row and a word: two rows more than the screen has. -/
def longText : List Byte :=
  List.replicate 120 97 ++ List.replicate 23 newline ++ List.replicate 80 98 ++ [newline, 99, 100]

theorem screen_shows_tail_example :
    Shows 15 (longText.foldl termPutc termInit)
      (List.replicate 80 97 :: List.replicate 40 97 :: List.replicate 22 [] ++
        [List.replicate 80 98, [], [99, 100]]) := by
  have htext : ∀ c ∈ longText, Printable c ∨ c = newline := by
    intro c hc
    simp only [longText, List.mem_append, List.mem_replicate, List.mem_cons, List.not_mem_nil,
      or_false] at hc
    rcases hc with ((⟨-, rfl⟩ | ⟨-, rfl⟩) | ⟨-, rfl⟩) | rfl | rfl | rfl
    all_goals decide
  have hrows : foldRows vgaCols newline longText =
      List.replicate 80 97 :: List.replicate 40 97 :: List.replicate 22 [] ++
        [List.replicate 80 98, [], [99, 100]] := by decide +kernel
  exact hrows ▸ screen_shows_tail initial htext

end RubiKernel.Vga
