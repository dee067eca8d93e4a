import RubiKernel.Vga.Defs

/-! Which stores of the terminal are on the screen. -/

namespace RubiKernel.Vga

open Tty (backspace newline vgaCols)

structure OnScreen (s : VgaState) : Prop where
  col : 0 ≤ s.termCol ∧ s.termCol < vgaCols
  row : 0 ≤ s.termRow ∧ s.termRow < vgaRows
  stores : ∀ i ∈ s.termBuffer.written, i < vgaCols * vgaRows

/-- No backspace of a text comes when the cursor is in the first column. -/
def BackspacesInRow : VgaState → List Byte → Prop
  | _, [] => True
  | s, c :: text => ¬(c = backspace ∧ s.termCol = 0) ∧ BackspacesInRow (termPutc s c) text

variable {s : VgaState} {c color : Byte} {text : List Byte} {x y : BitVec 16} {col row : Int}
  {i : Nat}

theorem wrapEnd_col : (wrapEnd s).termCol < vgaCols := by
  unfold wrapEnd
  split
  · exact Int.natCast_pos.mpr (by decide)
  · exact not_le.mp ‹_›

theorem wrapStart_col (h : s.termCol < vgaCols) :
    0 ≤ (wrapStart s).termCol ∧ (wrapStart s).termCol < vgaCols := by
  unfold wrapStart
  split
  · show 0 ≤ (vgaCols : Int) - 1 ∧ (vgaCols : Int) - 1 < vgaCols
    decide
  · exact ⟨not_lt.mp ‹_›, h⟩

theorem stopAtTop_row : 0 ≤ (stopAtTop s).termRow := by
  unfold stopAtTop
  split
  · exact le_rfl
  · exact not_lt.mp ‹_›

theorem stopAtTop_col : (stopAtTop s).termCol = s.termCol := by
  unfold stopAtTop
  split <;> rfl

theorem scrollAtBottom_row (h : 0 ≤ s.termRow) :
    0 ≤ (scrollAtBottom s).termRow ∧ (scrollAtBottom s).termRow < vgaRows := by
  unfold scrollAtBottom
  split
  · show 0 ≤ (vgaRows : Int) - 1 ∧ (vgaRows : Int) - 1 < vgaRows
    decide
  · exact ⟨h, not_le.mp ‹_›⟩

theorem scrollAtBottom_col : (scrollAtBottom s).termCol = s.termCol := by
  unfold scrollAtBottom
  split <;> rfl

theorem correct_col : 0 ≤ (correct s).termCol ∧ (correct s).termCol < vgaCols := by
  rw [correct, scrollAtBottom_col, stopAtTop_col]
  exact wrapStart_col wrapEnd_col

theorem correct_row : 0 ≤ (correct s).termRow ∧ (correct s).termRow < vgaRows :=
  scrollAtBottom_row stopAtTop_row

theorem mem_written_correct (h : i ∈ s.termBuffer.written) :
    i ∈ (correct s).termBuffer.written := by
  unfold correct scrollAtBottom
  split
  · exact mem_written_scroll.mpr (Or.inr (by simpa using h))
  · simpa using h

theorem of_mem_written_correct (h : i ∈ (correct s).termBuffer.written) :
    i < vgaCols * vgaRows ∨ i ∈ s.termBuffer.written := by
  unfold correct scrollAtBottom at h
  split at h
  · simpa using mem_written_scroll.mp h
  · exact Or.inr (by simpa using h)

theorem mem_written_termSetc (hc : c ≠ newline) :
    i ∈ (termSetc s x y color c).termBuffer.written ↔
      i = vgaCols * y.toNat + x.toNat ∨ i ∈ s.termBuffer.written := by
  rw [termSetc, if_pos hc, Buffer.mem_written_store]

theorem mem_written_place (h : i ∈ s.termBuffer.written) :
    i ∈ (place s c).termBuffer.written := by
  unfold place
  split_ifs with hzero hnewline hback
  · exact h
  · exact h
  · exact (mem_written_termSetc (by decide)).mpr (Or.inr h)
  · exact (mem_written_termSetc hnewline).mpr (Or.inr h)

theorem mem_written_foldl (h : i ∈ s.termBuffer.written) :
    i ∈ (text.foldl termPutc s).termBuffer.written := by
  induction text generalizing s with
  | nil => exact h
  | cons c text ih => exact ih (mem_written_correct (mem_written_place h))

theorem index_lt (hcol : 0 ≤ col ∧ col < vgaCols) (hrow : 0 ≤ row ∧ row < vgaRows) :
    vgaCols * (BitVec.ofInt 16 row).toNat + (BitVec.ofInt 16 col).toNat < vgaCols * vgaRows := by
  simp only [vgaCols, vgaRows] at hcol hrow ⊢
  rw [toNat_ofInt (by omega), toNat_ofInt (by omega)]
  omega

/-- Only a backspace in the first column is stored off the screen. -/
theorem place_stores (h : OnScreen s) (hback : ¬(c = backspace ∧ s.termCol = 0)) :
    ∀ i ∈ (place s c).termBuffer.written, i < vgaCols * vgaRows := by
  obtain ⟨hcol, hrow, hstores⟩ := h
  intro i hi
  unfold place at hi
  split_ifs at hi with hzero hnewline hchar
  · exact hstores i hi
  · exact hstores i hi
  · rcases (mem_written_termSetc (by decide)).mp hi with rfl | hi
    · have hne : s.termCol ≠ 0 := fun heq => hback ⟨hchar, heq⟩
      exact index_lt (by show 0 ≤ s.termCol - 1 ∧ s.termCol - 1 < vgaCols; omega) hrow
    · exact hstores i hi
  · rcases (mem_written_termSetc hnewline).mp hi with rfl | hi
    · exact index_lt hcol hrow
    · exact hstores i hi

theorem place_backspace (hcol : s.termCol = 0) :
    ∃ i ∈ (place s backspace).termBuffer.written, vgaCols * vgaRows ≤ i := by
  refine ⟨_, (mem_written_termSetc (show blank ≠ newline by decide)).mpr (Or.inl rfl), ?_⟩
  have hwrap : (BitVec.ofInt 16 (s.termCol - 1)).toNat = 65535 := by
    rw [hcol]
    decide
  exact Nat.le_add_left_of_le (hwrap ▸ by decide)

theorem OnScreen.termPutc (h : OnScreen s) (hback : ¬(c = backspace ∧ s.termCol = 0)) :
    OnScreen (termPutc s c) where
  col := correct_col
  row := correct_row
  stores i hi := (of_mem_written_correct hi).elim id (place_stores h hback i)

/-- A text leaves the stores and the cursor on the screen exactly when it has no backspace
that comes in the first column. -/
theorem stores_on_screen_iff (h : OnScreen s) :
    OnScreen (text.foldl termPutc s) ↔ BackspacesInRow s text := by
  induction text generalizing s with
  | nil => exact iff_of_true h trivial
  | cons c text ih =>
    by_cases hback : c = backspace ∧ s.termCol = 0
    · refine iff_of_false (fun hrest => ?_) fun hrest => hrest.1 hback
      obtain ⟨rfl, hcol⟩ := hback
      rw [List.foldl_cons] at hrest
      obtain ⟨i, hi, hle⟩ := place_backspace hcol
      have hstored : i ∈ (termPutc s backspace).termBuffer.written := mem_written_correct hi
      exact hle.not_gt (hrest.stores i (mem_written_foldl hstored))
    · rw [BackspacesInRow, ← ih (h.termPutc hback)]
      exact (and_iff_right hback).symm

theorem onScreen_initial : OnScreen initial :=
  ⟨by decide, by decide, fun _ hi => absurd hi List.not_mem_nil⟩

theorem stores_on_screen_iff_example : OnScreen ([97, backspace].foldl termPutc initial) :=
  (stores_on_screen_iff onScreen_initial).mpr ⟨by decide, by decide, trivial⟩

/-- A backspace in the corner is stored at the index 65535. -/
theorem backspace_off_screen :
    ¬∀ (s : VgaState) (text : List Byte), OnScreen s → OnScreen (text.foldl termPutc s) := by
  intro hall
  have hlt := (hall initial [backspace] onScreen_initial).stores 65535
  exact absurd (hlt (by decide)) (by decide)

end RubiKernel.Vga
