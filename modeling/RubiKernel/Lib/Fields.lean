import Mathlib.Data.List.TakeWhile

/-! The non-empty fields of a list between occurrences of a separator. -/

universe u

namespace RubiKernel.Fields

variable {α : Type u} [DecidableEq α] {a c : α} {l w : List α}

def fields (a : α) (l : List α) : List (List α) := (l.splitOn a).filter (· ≠ [])

@[simp] theorem fields_nil : fields a [] = [] := rfl

@[simp] theorem fields_sep : fields a (a :: l) = fields a l := by
  have hsplit : (a :: l).splitOn a = [] :: l.splitOn a :=
    List.splitOn_append_cons_self_of_not_mem List.not_mem_nil l
  simp [fields, hsplit]

theorem fields_dropWhile : fields a (l.dropWhile (· = a)) = fields a l := by
  induction l with
  | nil => rfl
  | cons c l ih =>
    by_cases hc : c = a
    · subst hc
      rw [List.dropWhile_cons_of_pos (by simp), fields_sep, ih]
    · rw [List.dropWhile_cons_of_neg (by simpa using hc)]

theorem fields_word (hw : w ≠ []) (ha : a ∉ w) : fields a w = [w] := by
  rw [fields, List.splitOn_eq_singleton ha]
  simp [hw]

theorem fields_word_sep (hw : w ≠ []) (ha : a ∉ w) : fields a (w ++ a :: l) = w :: fields a l := by
  rw [fields, List.splitOn_append_cons_self_of_not_mem ha]
  simp [fields, hw]

theorem takeWhile_word (ha : a ∉ w) : w.takeWhile (· ≠ a) = w := by
  refine List.takeWhile_eq_self_iff.mpr fun b hb => ?_
  rw [decide_eq_true_eq]
  rintro rfl
  exact ha hb

theorem takeWhile_word_sep (ha : a ∉ w) : (w ++ a :: l).takeWhile (· ≠ a) = w := by
  rw [List.takeWhile_append, takeWhile_word ha, if_pos rfl, List.takeWhile_cons_of_neg (by simp),
    List.append_nil]

theorem dropWhile_word (ha : a ∉ w) : w.dropWhile (· ≠ a) = [] := by
  have hsplit : w.takeWhile (· ≠ a) ++ w.dropWhile (· ≠ a) = w := List.takeWhile_append_dropWhile
  rw [takeWhile_word ha] at hsplit
  exact List.append_right_eq_self.mp hsplit

theorem dropWhile_word_sep (ha : a ∉ w) : (w ++ a :: l).dropWhile (· ≠ a) = a :: l := by
  rw [List.dropWhile_append, dropWhile_word ha, List.isEmpty_nil, if_pos rfl,
    List.dropWhile_cons_of_neg (by simp)]

theorem not_mem_takeWhile : a ∉ l.takeWhile (· ≠ a) := fun h => by
  have hne := List.mem_takeWhile_imp h
  simp at hne

omit [DecidableEq α] in
theorem head?_dropWhile {p : α → Bool} (h : (l.dropWhile p).head? = some c) : p c = false := by
  induction l with
  | nil => cases h
  | cons b l ih =>
    by_cases hb : p b = true
    · rw [List.dropWhile_cons_of_pos hb] at h
      exact ih h
    · rw [List.dropWhile_cons_of_neg hb] at h
      obtain rfl := Option.some.inj h
      exact Bool.eq_false_iff.mpr hb

theorem dropWhile_eq_self (h : l.head? ≠ some a) : l.dropWhile (· = a) = l := by
  cases l with
  | nil => rfl
  | cons b l =>
    rw [List.dropWhile_cons_of_neg]
    rw [decide_eq_true_eq]
    rintro rfl
    exact h rfl

omit [DecidableEq α] in
theorem head?_word_append (hw : w ≠ []) (ha : a ∉ w) : (w ++ l).head? ≠ some a := by
  obtain ⟨b, w, rfl⟩ := List.exists_cons_of_ne_nil hw
  exact fun h => ha (Option.some.inj h ▸ List.mem_cons_self)

theorem fields_cons (hc : c ≠ a) : fields a (c :: l) =
    (c :: l).takeWhile (· ≠ a) ::
      fields a (((c :: l).dropWhile (· ≠ a)).dropWhile (· = a)) := by
  have hword : (c :: l).takeWhile (· ≠ a) ≠ [] := by
    rw [List.takeWhile_cons_of_pos (by simpa using hc)]
    exact List.cons_ne_nil _ _
  have hsplit : (c :: l).takeWhile (· ≠ a) ++ (c :: l).dropWhile (· ≠ a) = c :: l :=
    List.takeWhile_append_dropWhile
  rw [fields_dropWhile]
  cases hrest : (c :: l).dropWhile (· ≠ a) with
  | nil =>
    rw [hrest, List.append_nil] at hsplit
    have hfield := fields_word hword not_mem_takeWhile
    rw [fields_nil, ← hfield, hsplit]
  | cons b rest =>
    have hb : b = a := by
      have hhead := head?_dropWhile (p := fun x => decide (x ≠ a)) (l := c :: l) (c := b)
        (by rw [hrest]; rfl)
      simpa using hhead
    rw [hrest, hb] at hsplit
    have hfield := fields_word_sep (l := rest) hword not_mem_takeWhile
    rw [hb, fields_sep, ← hfield, hsplit]

theorem head?_dropWhile_ne (l : List α) : (l.dropWhile (· = a)).head? ≠ some a := fun h => by
  have hhead := head?_dropWhile h
  simp at hhead

end RubiKernel.Fields
