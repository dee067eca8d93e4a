import Mathlib.Logic.Function.Basic

/-! Arrays that record the indices they are stored to, and the loops that fill a range of
an array, copy one or reverse one. -/

universe u

namespace RubiKernel

structure Buffer (α : Type u) where
  cells : Nat → α
  written : List Nat

namespace Buffer

variable {α : Type u} {b : Buffer α} {p q m n i j : Nat} {v : α}

def store (b : Buffer α) (i : Nat) (v : α) : Buffer α where
  cells := Function.update b.cells i v
  written := i :: b.written

def fill (b : Buffer α) (p n : Nat) (v : α) : Buffer α :=
  (List.range n).foldl (fun b x => b.store (p + x) v) b

def copy (b : Buffer α) (p q n : Nat) : Buffer α :=
  (List.range n).foldl (fun b x => b.store (p + x) (b.cells (q + x))) b

def storeAll (b : Buffer α) (l : List Nat) (v : α) : Buffer α :=
  l.foldl (fun b i => b.store i v) b

def put (b : Buffer α) (p : Nat) : List α → Buffer α
  | [] => b
  | v :: l => (b.store p v).put (p + 1) l

@[simp] theorem cells_store : (b.store i v).cells j = if j = i then v else b.cells j :=
  Function.update_apply ..

@[simp] theorem mem_written_store : j ∈ (b.store i v).written ↔ j = i ∨ j ∈ b.written :=
  List.mem_cons

section

variable {l : List Nat}

theorem cells_storeAll :
    (b.storeAll l v).cells i = if i ∈ l then v else b.cells i := by
  induction l generalizing b with
  | nil => rfl
  | cons j l ih =>
    rw [storeAll, List.foldl_cons, ← storeAll, ih, cells_store]
    by_cases hl : i ∈ l
    · simp [hl]
    · simp [hl, List.mem_cons]

theorem mem_written_storeAll : i ∈ (b.storeAll l v).written ↔ i ∈ l ∨ i ∈ b.written := by
  induction l generalizing b with
  | nil => simp [storeAll]
  | cons j l ih =>
    rw [storeAll, List.foldl_cons, ← storeAll, ih, mem_written_store, List.mem_cons, or_assoc,
      or_left_comm]

end

theorem fill_eq_storeAll : b.fill p n v = b.storeAll ((List.range n).map (p + ·)) v := by
  rw [fill, storeAll, List.foldl_map]

theorem mem_range_add : i ∈ (List.range n).map (p + ·) ↔ p ≤ i ∧ i < p + n := by
  rw [List.mem_map]
  constructor
  · rintro ⟨x, hx, rfl⟩
    exact ⟨Nat.le_add_right p x, Nat.add_lt_add_left (List.mem_range.mp hx) p⟩
  · rintro ⟨hle, hlt⟩
    exact ⟨i - p, List.mem_range.mpr (by omega), by omega⟩

theorem cells_fill : (b.fill p n v).cells i = if p ≤ i ∧ i < p + n then v else b.cells i := by
  simp only [fill_eq_storeAll, cells_storeAll, mem_range_add]

theorem mem_written_fill :
    i ∈ (b.fill p n v).written ↔ p ≤ i ∧ i < p + n ∨ i ∈ b.written := by
  rw [fill_eq_storeAll, mem_written_storeAll, mem_range_add]

theorem copy_succ :
    b.copy p q (n + 1) = (b.copy p q n).store (p + n) ((b.copy p q n).cells (q + n)) := by
  simp [copy, List.range_succ]

/-- A range may overlap the one behind it that it is copied from. -/
theorem cells_copy (h : p ≤ q) :
    (b.copy p q n).cells i =
      if p ≤ i ∧ i < p + n then b.cells (q + (i - p)) else b.cells i := by
  induction n generalizing i with
  | zero => rw [if_neg (by omega)]; rfl
  | succ n ih =>
    have hsource : (b.copy p q n).cells (q + n) = b.cells (q + n) := by
      rw [ih, if_neg (by omega)]
    rw [copy_succ, cells_store, hsource, ih]
    by_cases hlast : i = p + n
    · subst hlast
      rw [if_pos rfl, if_pos (by omega), Nat.add_sub_cancel_left]
    · have hrange : (p ≤ i ∧ i < p + (n + 1)) ↔ p ≤ i ∧ i < p + n := by omega
      simp only [hlast, if_false, hrange]

theorem mem_written_copy :
    i ∈ (b.copy p q n).written ↔ p ≤ i ∧ i < p + n ∨ i ∈ b.written := by
  induction n with
  | zero => exact (or_iff_right (by omega)).symm
  | succ n ih =>
    rw [copy_succ, mem_written_store, ih, ← or_assoc]
    refine or_congr_left ?_
    omega

theorem copy_add : b.copy p q (m + n) = (b.copy p q m).copy (p + m) (q + m) n := by
  simp only [copy, List.range_add, List.foldl_append, List.foldl_map, Nat.add_assoc]

theorem foldl_copy :
    (List.range n).foldl (fun b y => b.copy (p + m * y) (q + m * y) m) b = b.copy p q (m * n) := by
  induction n with
  | zero => rfl
  | succ n ih =>
    rw [List.range_succ, List.foldl_append, ih, Nat.mul_succ, copy_add]
    rfl

section

variable {l l' : List α}

/-- The cells from `p` on are the list `l`. -/
def Holds (b : Buffer α) (p : Nat) (l : List α) : Prop :=
  ∀ i (h : i < l.length), b.cells (p + i) = l[i]

theorem forall_getElem_append {f : Nat → α} :
    (∀ i (h : i < (l ++ l').length), f i = (l ++ l')[i]) ↔
      (∀ i (h : i < l.length), f i = l[i]) ∧ ∀ i (h : i < l'.length), f (l.length + i) = l'[i] := by
  constructor
  · intro h
    constructor
    · intro i hi
      rw [h i (by rw [List.length_append]; omega), List.getElem_append_left hi]
    · intro i hi
      rw [h _ (by rw [List.length_append]; omega),
        List.getElem_append_right (Nat.le_add_right ..)]
      simp only [Nat.add_sub_cancel_left]
  · rintro ⟨hl, hl'⟩ i hi
    by_cases hlt : i < l.length
    · rw [hl i hlt, List.getElem_append_left hlt]
    · obtain ⟨j, rfl⟩ := Nat.exists_eq_add_of_le (Nat.not_lt.mp hlt)
      rw [List.length_append] at hi
      rw [hl' j (by omega), List.getElem_append_right (Nat.le_add_right ..)]
      simp only [Nat.add_sub_cancel_left]

theorem holds_append :
    b.Holds p (l ++ l') ↔ b.Holds p l ∧ b.Holds (p + l.length) l' := by
  simp only [Holds, Nat.add_assoc]
  exact forall_getElem_append

theorem cells_put_of_lt (h : i < p) : (b.put p l).cells i = b.cells i := by
  induction l generalizing b p with
  | nil => rfl
  | cons v l ih => rw [put, ih (by omega), cells_store, if_neg (by omega)]

theorem mem_written_put :
    i ∈ (b.put p l).written ↔ p ≤ i ∧ i < p + l.length ∨ i ∈ b.written := by
  induction l generalizing b p with
  | nil => exact (or_iff_right (by simp)).symm
  | cons v l ih =>
    rw [put, ih, mem_written_store, ← or_assoc, List.length_cons]
    refine or_congr_left ?_
    omega

theorem holds_put : (b.put p l).Holds p l := by
  induction l generalizing b p with
  | nil => exact fun i h => absurd h (Nat.not_lt_zero i)
  | cons v l ih =>
    intro i hi
    cases i with
    | zero => simp [put, cells_put_of_lt]
    | succ i =>
      have hrest := ih (b := b.store p v) (p := p + 1) i (Nat.lt_of_succ_lt_succ hi)
      rw [Nat.add_assoc, Nat.add_comm 1] at hrest
      exact hrest

theorem Holds.put_append (h : b.Holds p l) (l' : List α) :
    (b.put (p + l.length) l').Holds p (l ++ l') := by
  refine holds_append.mpr ⟨fun i hi => ?_, holds_put⟩
  rw [cells_put_of_lt (by omega), h i hi]

theorem Holds.store_append (h : b.Holds p l) : (b.store (p + l.length) v).Holds p (l ++ [v]) :=
  h.put_append [v]

theorem Holds.fill_append (h : b.Holds p l) (n : Nat) (v : α) :
    (b.fill (p + l.length) n v).Holds p (l ++ List.replicate n v) := by
  refine holds_append.mpr ⟨fun i hi => ?_, fun i hi => ?_⟩
  · rw [cells_fill, if_neg (by omega), h i hi]
  · rw [List.length_replicate] at hi
    rw [cells_fill, if_pos (by omega), List.getElem_replicate]

end

end Buffer

end RubiKernel
