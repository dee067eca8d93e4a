import Mathlib.Data.List.Nodup

/-! Lists edited next to one of their elements. -/

universe u

namespace RubiKernel.Edit

variable {α : Type u} [DecidableEq α] {l₁ l₂ : List α} {a b : α}

def insertAfter (a b : α) : List α → List α
  | [] => []
  | x :: l => if x = a then x :: b :: l else x :: insertAfter a b l

def insertBefore (a b : α) : List α → List α
  | [] => []
  | x :: l => if x = a then b :: x :: l else x :: insertBefore a b l

omit [DecidableEq α] in
theorem not_mem_of_append (h : (l₁ ++ a :: l₂).Nodup) : a ∉ l₁ := fun hmem =>
  (List.nodup_append.mp h).2.2 a hmem a (by simp) rfl

theorem insertAfter_append (h : (l₁ ++ a :: l₂).Nodup) :
    insertAfter a b (l₁ ++ a :: l₂) = l₁ ++ a :: b :: l₂ := by
  have hnot := not_mem_of_append h
  clear h
  induction l₁ with
  | nil => simp [insertAfter]
  | cons x l ih =>
    obtain ⟨hx, hl⟩ := not_or.mp (mt List.mem_cons.mpr hnot)
    rw [List.cons_append, insertAfter, if_neg (Ne.symm hx), ih hl, List.cons_append]

theorem insertBefore_append (h : (l₁ ++ a :: l₂).Nodup) :
    insertBefore a b (l₁ ++ a :: l₂) = l₁ ++ b :: a :: l₂ := by
  have hnot := not_mem_of_append h
  clear h
  induction l₁ with
  | nil => simp [insertBefore]
  | cons x l ih =>
    obtain ⟨hx, hl⟩ := not_or.mp (mt List.mem_cons.mpr hnot)
    rw [List.cons_append, insertBefore, if_neg (Ne.symm hx), ih hl, List.cons_append]

theorem erase_append (h : (l₁ ++ a :: l₂).Nodup) : (l₁ ++ a :: l₂).erase a = l₁ ++ l₂ := by
  rw [List.erase_append_right _ (not_mem_of_append h), List.erase_cons_head]

end RubiKernel.Edit
