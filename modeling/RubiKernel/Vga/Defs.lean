import RubiKernel.Lib.Buffer
import RubiKernel.Lib.Grid
import RubiKernel.Tty.Defs

/-! `vga/vga.c`: the terminal, with the indices of `term_buffer` that it stores to. -/

namespace RubiKernel.Vga

open Tty (backspace newline vgaCols)

def vgaRows : Nat := 25

def blank : Byte := 32

structure VgaState where
  termCol : Int
  termRow : Int
  termBuffer : Buffer (BitVec 16)
  termColor : Byte

/-- Entries in the buffer have the form BBBBFFFFCCCCCCCC. -/
def entry (color c : Byte) : BitVec 16 := color.setWidth 16 <<< 8 ||| c.setWidth 16

/-- `term_clear` before the flush. -/
def termClear (s : VgaState) : VgaState where
  termBuffer := (List.range vgaCols).foldl (fun b col =>
    (List.range vgaRows).foldl (fun b row =>
      b.store (vgaCols * row + col) (entry s.termColor blank)) b) s.termBuffer
  termCol := 0
  termRow := 0
  termColor := s.termColor

/-- The state that `term_init` clears, white on black. -/
def initial : VgaState := ⟨0, 0, ⟨fun _ => 0, []⟩, 15⟩

def termInit : VgaState := termClear initial

/-- The sign of `c` is extended. -/
def termSetc (s : VgaState) (x y : BitVec 16) (color c : Byte) : VgaState :=
  if c ≠ newline then
    { s with
      termBuffer := s.termBuffer.store (vgaCols * y.toNat + x.toNat)
        (color.setWidth 16 <<< 8 ||| c.signExtend 16) }
  else s

def place (s : VgaState) (c : Byte) : VgaState :=
  if c = 0 then s
  else if c = newline then { s with termCol := 0, termRow := s.termRow + 1 }
  else if c = backspace then
    let s := { s with termCol := s.termCol - 1 }
    termSetc s (BitVec.ofInt 16 s.termCol) (BitVec.ofInt 16 s.termRow) s.termColor blank
  else
    let s := termSetc s (BitVec.ofInt 16 s.termCol) (BitVec.ofInt 16 s.termRow) s.termColor c
    { s with termCol := s.termCol + 1 }

def scroll (s : VgaState) : VgaState :=
  let b := (List.range' 1 (vgaRows - 1)).foldl (fun b y =>
    b.copy (vgaCols * (y - 1)) (vgaCols * y) vgaCols) s.termBuffer
  { s with
    termBuffer := b.fill (vgaCols * (vgaRows - 1)) vgaCols (entry s.termColor blank)
    termRow := vgaRows - 1 }

def wrapEnd (s : VgaState) : VgaState :=
  if s.termCol ≥ vgaCols then { s with termCol := 0, termRow := s.termRow + 1 } else s

def wrapStart (s : VgaState) : VgaState :=
  if s.termCol < 0 then { s with termCol := vgaCols - 1, termRow := s.termRow - 1 } else s

/-- There is no buffer above the first row. -/
def stopAtTop (s : VgaState) : VgaState :=
  if s.termRow < 0 then { s with termRow := 0 } else s

def scrollAtBottom (s : VgaState) : VgaState := if s.termRow ≥ vgaRows then scroll s else s

/-- `term_putc` behind its `switch`. -/
def correct (s : VgaState) : VgaState := scrollAtBottom (stopAtTop (wrapStart (wrapEnd s)))

def termPutc (s : VgaState) (c : Byte) : VgaState := correct (place s c)

variable {s : VgaState} {c color : Byte} {col : Int} {i r x : Nat}

@[simp] theorem wrapEnd_termBuffer : (wrapEnd s).termBuffer = s.termBuffer := by
  unfold wrapEnd
  split <;> rfl

@[simp] theorem wrapStart_termBuffer : (wrapStart s).termBuffer = s.termBuffer := by
  unfold wrapStart
  split <;> rfl

@[simp] theorem stopAtTop_termBuffer : (stopAtTop s).termBuffer = s.termBuffer := by
  unfold stopAtTop
  split <;> rfl

theorem toNat_ofInt (h : 0 ≤ col ∧ col < 65536) : (BitVec.ofInt 16 col).toNat = col.toNat := by
  rw [BitVec.toNat_ofInt]
  omega

theorem scroll_termBuffer :
    (scroll s).termBuffer = (s.termBuffer.copy 0 vgaCols (vgaCols * (vgaRows - 1))).fill
      (vgaCols * (vgaRows - 1)) vgaCols (entry s.termColor blank) := by
  have hrows := Buffer.foldl_copy (b := s.termBuffer) (p := 0) (q := vgaCols) (m := vgaCols)
    (n := vgaRows - 1)
  rw [← hrows, scroll, List.range'_eq_map_range, List.foldl_map]
  simp only [Nat.add_sub_cancel_left, Nat.mul_add, Nat.zero_add, Nat.mul_one]

theorem cells_scroll (hr : r < vgaRows) (hx : x < vgaCols) :
    (scroll s).termBuffer.cells (vgaCols * r + x) =
      if r + 1 < vgaRows then s.termBuffer.cells (vgaCols * (r + 1) + x)
      else entry s.termColor blank := by
  have hlt : vgaCols * r + x < vgaCols * (vgaRows - 1) ↔ r + 1 < vgaRows :=
    (grid_lt hx).trans Nat.lt_sub_iff_add_lt
  have hend : vgaCols * r + x < vgaCols * (vgaRows - 1) + vgaCols := (grid_lt hx).mpr hr
  have hnext : vgaCols + (vgaCols * r + x - 0) = vgaCols * (r + 1) + x := by
    rw [Nat.mul_succ]
    omega
  rw [scroll_termBuffer, Buffer.cells_fill, Buffer.cells_copy (Nat.zero_le _), hnext]
  by_cases hlast : r + 1 < vgaRows
  · rw [if_pos hlast, if_neg fun h => h.1.not_gt (hlt.mpr hlast),
      if_pos ⟨Nat.zero_le _, by rw [Nat.zero_add]; exact hlt.mpr hlast⟩]
  · rw [if_neg hlast, if_pos ⟨Nat.not_lt.mp fun h => hlast (hlt.mp h), hend⟩]

theorem mem_written_scroll :
    i ∈ (scroll s).termBuffer.written ↔ i < vgaCols * vgaRows ∨ i ∈ s.termBuffer.written := by
  have hsize : vgaCols * (vgaRows - 1) + vgaCols = vgaCols * vgaRows := rfl
  rw [scroll_termBuffer, Buffer.mem_written_fill, Buffer.mem_written_copy, ← or_assoc, hsize]
  refine or_congr_left ?_
  omega

end RubiKernel.Vga
