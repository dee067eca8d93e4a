import Mathlib.Data.List.Pairwise
import RubiKernel.Lib.Memory

/-! Items written one behind the other, each with the place it gets. -/

universe u v

namespace RubiKernel.Layout

variable {α : Type u} {β : Type v} {size : α → ℕ} {base o : ℕ} {as bs : List α} {a : α}

def layout (size : α → ℕ) : ℕ → List α → List (α × ℕ)
  | _, [] => []
  | base, a :: as => (a, base) :: layout size (base + size a) as

theorem layout_append (size : α → ℕ) (base : ℕ) (as bs : List α) :
    layout size base (as ++ bs) =
      layout size base as ++ layout size (base + (as.map size).sum) bs := by
  induction as generalizing base with
  | nil => rfl
  | cons a as ih =>
    rw [List.cons_append, layout, layout, ih, List.map_cons, List.sum_cons, Nat.add_assoc]
    rfl

theorem layout_map (size : β → ℕ) (f : α → β) (base : ℕ) (as : List α) :
    layout size base (as.map f) = (layout (size ∘ f) base as).map (Prod.map f id) := by
  induction as generalizing base with
  | nil => rfl
  | cons a as ih =>
    rw [List.map_cons, layout, layout, ih]
    rfl

theorem layout_map_fst (size : α → ℕ) (base : ℕ) (as : List α) :
    (layout size base as).map Prod.fst = as := by
  induction as generalizing base with
  | nil => rfl
  | cons a as ih => rw [layout, List.map_cons, ih]

theorem mem_of_mem_layout (h : (a, o) ∈ layout size base as) : a ∈ as := by
  have hmem : a ∈ (layout size base as).map Prod.fst := List.mem_map_of_mem h
  rwa [layout_map_fst] at hmem

theorem exists_mem_layout (h : a ∈ as) (size : α → ℕ) (base : ℕ) :
    ∃ o, (a, o) ∈ layout size base as := by
  rw [← layout_map_fst size base as] at h
  obtain ⟨⟨b, o⟩, hmem, rfl⟩ := List.mem_map.mp h
  exact ⟨o, hmem⟩

theorem bounds_of_mem_layout (h : (a, o) ∈ layout size base as) :
    base ≤ o ∧ o + size a ≤ base + (as.map size).sum := by
  induction as generalizing base with
  | nil => cases h
  | cons b as ih =>
    rw [List.map_cons, List.sum_cons]
    rcases List.mem_cons.mp h with heq | h
    · obtain ⟨rfl, rfl⟩ := Prod.mk.inj heq
      omega
    · have hrest := ih h
      omega

theorem nodup_layout (hpos : ∀ a ∈ as, 0 < size a) :
    ((layout size base as).map Prod.snd).Nodup := by
  induction as generalizing base with
  | nil => exact List.nodup_nil
  | cons b as ih =>
    obtain ⟨hb, hpos⟩ := List.forall_mem_cons.mp hpos
    rw [layout, List.map_cons, List.nodup_cons]
    refine ⟨fun hmem => ?_, ih hpos⟩
    obtain ⟨⟨c, o⟩, hmem, rfl⟩ := List.mem_map.mp hmem
    have hbounds := bounds_of_mem_layout hmem
    simp only at hbounds
    omega

theorem bytesAt_of_mem_layout {mem : Memory} {enc : α → List (BitVec 8)}
    (h : mem.BytesAt (BitVec.ofNat 32 base) (as.flatMap enc))
    (hmem : (a, o) ∈ layout (fun a => (enc a).length) base as) :
    mem.BytesAt (BitVec.ofNat 32 o) (enc a) := by
  induction as generalizing base with
  | nil => cases hmem
  | cons b as ih =>
    rw [List.flatMap_cons, Memory.bytesAt_append, ← BitVec.ofNat_add] at h
    rcases List.mem_cons.mp hmem with heq | hmem
    · obtain ⟨rfl, rfl⟩ := Prod.mk.inj heq
      exact h.1
    · exact ih h.2 hmem

end RubiKernel.Layout
