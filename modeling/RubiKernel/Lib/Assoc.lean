import Mathlib.Data.List.Nodup
import Mathlib.Logic.Function.Basic

/-! Association lists with distinct keys as finite maps. -/

universe u v

namespace RubiKernel.Assoc

variable {κ : Type u} {ν : Type v} [DecidableEq κ] {l l' : List (κ × ν)} {k k' : κ} {x x' : ν}

theorem lookup_eq_some (h : (l.map Prod.fst).Nodup) : l.lookup k = some x ↔ (k, x) ∈ l := by
  rw [List.lookup_eq_some_iff]
  constructor
  · rintro ⟨l₁, l₂, rfl, -⟩
    simp
  · intro hmem
    obtain ⟨l₁, l₂, rfl⟩ := List.append_of_mem hmem
    refine ⟨l₁, l₂, rfl, fun p hp => ?_⟩
    rw [List.map_append, List.map_cons, List.nodup_append] at h
    have hne := h.2.2 p.1 (List.mem_map_of_mem hp) k (by simp)
    simpa using hne.symm

theorem lookup_eq_none (h : k ∉ l.map Prod.fst) : l.lookup k = none := by
  refine List.lookup_eq_none_iff.mpr fun p hp => ?_
  have hne : k ≠ p.1 := by
    rintro rfl
    exact h (show p.1 ∈ l.map Prod.fst from List.mem_map_of_mem hp)
  simpa using hne

theorem lookup_congr (h : (l.map Prod.fst).Nodup) (h' : (l'.map Prod.fst).Nodup)
    (hmem : (k, x) ∈ l ↔ (k', x) ∈ l') : l.lookup k = some x ↔ l'.lookup k' = some x := by
  rw [lookup_eq_some h, lookup_eq_some h', hmem]

theorem foldl_update (f : κ → Option ν) (h : (l.map Prod.fst).Nodup) :
    l.foldl (fun (f : κ → Option ν) e => Function.update f e.1 (some e.2)) f =
      fun k => (l.lookup k).or (f k) := by
  induction l generalizing f with
  | nil => rfl
  | cons e l ih =>
    obtain ⟨j, y⟩ := e
    obtain ⟨hj, hl⟩ := List.nodup_cons.mp h
    rw [List.foldl_cons, ih _ hl]
    funext k
    by_cases hkj : k = j
    · subst hkj
      rw [lookup_eq_none hj, List.lookup_cons_self]
      simp
    · have hbeq : (k == j) = false := by simpa using hkj
      rw [List.lookup_cons, hbeq, Function.update_of_ne hkj]

def updates (f : κ → ν) (l : List (κ × ν)) : κ → ν :=
  l.foldl (fun f e => Function.update f e.1 e.2) f

theorem updates_append (f : κ → ν) (l l' : List (κ × ν)) :
    updates f (l ++ l') = updates (updates f l) l' := List.foldl_append

theorem updates_cases {f : κ → ν} (h : updates f l k = x) :
    (k, x) ∈ l ∨ k ∉ l.map Prod.fst ∧ f k = x := by
  induction l generalizing f with
  | nil => exact .inr ⟨List.not_mem_nil, h⟩
  | cons e l ih =>
    rcases ih h with hmem | ⟨hnot, hval⟩
    · exact .inl (List.mem_cons_of_mem _ hmem)
    · replace hval : Function.update f e.1 e.2 k = x := hval
      by_cases hk : k = e.1
      · rw [hk, Function.update_self] at hval
        rw [hk, ← hval]
        exact .inl List.mem_cons_self
      · rw [Function.update_of_ne hk] at hval
        refine .inr ⟨?_, hval⟩
        rw [List.map_cons, List.mem_cons]
        exact not_or.mpr ⟨hk, hnot⟩

theorem updates_of_mem {f : κ → ν} (h : (l.map Prod.fst).Nodup) (hmem : (k, x) ∈ l) :
    updates f l k = x := by
  rcases updates_cases (f := f) (k := k) rfl with hlast | ⟨hnot, -⟩
  · rw [← lookup_eq_some h] at hmem hlast
    exact Option.some.inj (hlast.symm.trans hmem)
  · exact absurd (show k ∈ l.map Prod.fst from List.mem_map_of_mem hmem) hnot

theorem lookup_insert (h' : (l'.map Prod.fst).Nodup) (hperm : l'.Perm ((k, x) :: l)) :
    (l'.lookup ·) = Function.update (l.lookup ·) k (some x) := by
  have hcons : (((k, x) :: l).map Prod.fst).Nodup := (hperm.map Prod.fst).nodup_iff.mp h'
  obtain ⟨-, hl⟩ := List.nodup_cons.mp hcons
  funext j
  by_cases hj : j = k
  · subst hj
    rw [Function.update_self, lookup_eq_some h', hperm.mem_iff]
    simp
  · rw [Function.update_of_ne hj]
    refine Option.ext fun y => lookup_congr h' hl ?_
    rw [hperm.mem_iff]
    simp [hj]

theorem lookup_erase (h : (l.map Prod.fst).Nodup) (hperm : l.Perm ((k, x) :: l')) :
    (l'.lookup ·) = Function.update (l.lookup ·) k none := by
  have hcons : (((k, x) :: l').map Prod.fst).Nodup := (hperm.map Prod.fst).nodup_iff.mp h
  obtain ⟨hk, -⟩ := List.nodup_cons.mp hcons
  rw [lookup_insert h hperm, Function.update_idem]
  exact (Function.update_eq_self_iff.mpr (lookup_eq_none hk).symm).symm

end RubiKernel.Assoc
