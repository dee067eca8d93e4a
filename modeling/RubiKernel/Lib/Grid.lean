import Mathlib.Data.List.GetD

/-! Text that is folded into the rows of a grid, and the grid's cells one row after the
other. -/

universe u

namespace RubiKernel

section

variable {w r r' x x' n : Nat}

theorem grid_lt (hx : x < w) : w * r + x < w * n ↔ r < n := by
  constructor
  · intro h
    refine Nat.lt_of_not_le fun hle => ?_
    have hrows : w * n ≤ w * r := Nat.mul_le_mul_left w hle
    omega
  · intro h
    calc w * r + x < w * r + w := Nat.add_lt_add_left hx _
      _ = w * (r + 1) := (Nat.mul_succ w r).symm
      _ ≤ w * n := Nat.mul_le_mul_left w h

theorem grid_inj (hx : x < w) (hx' : x' < w) :
    w * r + x = w * r' + x' ↔ r = r' ∧ x = x' := by
  constructor
  · intro h
    have hle : r < r' + 1 := (grid_lt hx).mp (h ▸ (grid_lt hx').mpr (Nat.lt_succ_self r'))
    have hge : r' < r + 1 := (grid_lt hx').mp (h ▸ (grid_lt hx).mpr (Nat.lt_succ_self r))
    obtain rfl : r = r' := by omega
    exact ⟨rfl, Nat.add_left_cancel h⟩
  · rintro ⟨rfl, rfl⟩
    rfl

end

variable {α : Type u} {l : List α} {a d : α} {k n : Nat}

theorem getD_concat : (l ++ [a]).getD k d = if k = l.length then a else l.getD k d := by
  rcases Nat.lt_trichotomy k l.length with hlt | heq | hgt
  · rw [if_neg (Nat.ne_of_lt hlt), List.getD_append _ _ _ _ hlt]
  · rw [if_pos heq, List.getD_append_right _ _ _ _ (Nat.le_of_eq heq.symm), heq, Nat.sub_self]
    rfl
  · rw [if_neg (Nat.ne_of_gt hgt), List.getD_eq_default _ _ (Nat.le_of_lt hgt),
      List.getD_eq_default]
    rw [List.length_append]
    exact hgt

/-- The rows of a text behind the characters `row` of its first one: a row ends after its
`w`-th character or at a separator. -/
def foldFrom [DecidableEq α] (w : Nat) (sep : α) : List α → List α → List (List α)
  | row, [] => [row]
  | row, c :: text =>
    if c = sep then row :: foldFrom w sep [] text
    else if row.length + 1 = w then (row ++ [c]) :: foldFrom w sep [] text
    else foldFrom w sep (row ++ [c]) text

def foldRows [DecidableEq α] (w : Nat) (sep : α) (text : List α) : List (List α) :=
  foldFrom w sep [] text

def window (n : Nat) (l : List α) : List α := l.drop (l.length - n)

theorem getD_window : (window n l).getD k d = l.getD (l.length - n + k) d := by
  rw [window, List.getD_eq_getElem?_getD, List.getElem?_drop, List.getD_eq_getElem?_getD]

theorem length_window : (window n l).length = min n l.length := by
  rw [window, List.length_drop]
  omega

theorem getLastD_window (hn : 0 < n) : (window n (l ++ [a])).getLastD d = a := by
  have hle : (l ++ [a]).length - n ≤ l.length := by
    rw [List.length_append, List.length_singleton]
    omega
  rw [window, List.drop_append_of_le_length hle]
  simp

end RubiKernel
