import Mathlib.Data.List.Iterate
import Mathlib.Logic.Function.Basic
import RubiKernel.Lib.Linked

/-! Rings: nodes whose pointers lead through all of them and back. A ring is read
from any of its nodes, and a loop that follows the pointers until it is back
where it began sees every node once. -/

universe u v

namespace RubiKernel.Cyclic

open Linked

variable {ι : Type u} {next : ι → ι} {good stop : ι → Bool} {l l₁ l₂ : List ι} {i j p q : ι}

/-- Following `next` from `p` visits `l` and arrives at `q`. -/
abbrev Path (next : ι → ι) (p : ι) (l : List ι) (q : ι) : Prop := Seg id next p l q

theorem path_nil : Path next p [] q ↔ p = q := Iff.rfl

theorem path_cons : Path next p (i :: l) q ↔ p = i ∧ Path next (next i) l q := Iff.rfl

theorem path_append : Path next p (l₁ ++ l₂) q ↔ ∃ m, Path next p l₁ m ∧ Path next m l₂ q :=
  seg_append

theorem Path.rotate (h : Path next p (l₁ ++ l₂) p) : ∃ m, Path next m (l₂ ++ l₁) m := by
  obtain ⟨m, h₁, h₂⟩ := path_append.mp h
  exact ⟨m, path_append.mpr ⟨p, h₂, h₁⟩⟩

theorem Path.after (h : Path next p (l₁ ++ i :: l₂) p) : Path next (next i) (l₂ ++ l₁) i := by
  obtain ⟨m, h⟩ := h.rotate
  obtain ⟨rfl, hrest⟩ := path_cons.mp h
  exact hrest

theorem Path.next_mem (h : Path next p l p) (hi : i ∈ l) : next i ∈ l := by
  obtain ⟨l₁, l₂, rfl⟩ := List.append_of_mem hi
  have hafter := h.after
  generalize hl : l₂ ++ l₁ = rest at hafter
  cases rest with
  | nil =>
    rw [path_nil.mp hafter]
    exact hi
  | cons j rest =>
    have hj : j ∈ l₂ ++ l₁ := by simp [hl]
    rw [(path_cons.mp hafter).1]
    simp only [List.mem_append, List.mem_cons] at hj ⊢
    tauto

theorem Path.iterate (h : Path next p l q) : List.iterate next p l.length = l := by
  induction l generalizing p with
  | nil => rfl
  | cons i l ih =>
    obtain ⟨hp, hrest⟩ := path_cons.mp h
    subst p
    rw [List.length_cons, List.iterate, ih hrest]

theorem Path.iterate_length (h : Path next p l q) : next^[l.length] p = q := by
  induction l generalizing p with
  | nil => exact path_nil.mp h
  | cons i l ih =>
    obtain ⟨hp, hrest⟩ := path_cons.mp h
    subst p
    rw [List.length_cons, Function.iterate_succ_apply, ih hrest]

/-- `do if good i then return i; i = next i while (i is not the stop)`, for at
most `fuel` turns: `none` when these do not suffice. -/
def search (next : ι → ι) (good stop : ι → Bool) : ℕ → ι → Option (Option ι)
  | 0, _ => none
  | fuel + 1, i =>
    if good i then some (some i)
    else if stop (next i) then some none
    else search next good stop fuel (next i)

theorem Path.search_eq {fuel : ℕ} (h : Path next p (i :: l) q) (hstop : stop q = true)
    (hgo : ∀ j ∈ l, stop j = false) (hfuel : l.length < fuel) :
    search next good stop fuel p = some ((i :: l).find? good) := by
  induction l generalizing i p fuel with
  | nil =>
    obtain ⟨hp, hrest⟩ := path_cons.mp h
    subst p
    rw [path_nil] at hrest
    obtain ⟨fuel, rfl⟩ := Nat.exists_eq_succ_of_ne_zero (Nat.ne_of_gt hfuel)
    rw [search, hrest, hstop]
    cases hg : good i <;> simp [hg]
  | cons j l ih =>
    obtain ⟨hp, hrest⟩ := path_cons.mp h
    subst p
    obtain ⟨hj, hgo⟩ := List.forall_mem_cons.mp hgo
    cases fuel with
    | zero => simp at hfuel
    | succ fuel =>
      have hih := ih hrest hgo (by simpa using hfuel)
      have hnext : next i = j := (path_cons.mp hrest).1
      rw [search, hih, hnext, hj]
      cases hg : good i <;> simp [hg]

/-- `do act i; i = next i while (i is not the stop)`, for at most `fuel` turns. -/
def walk {σ : Type v} (next : ι → ι) (act : σ → ι → Option σ) (stop : ι → Bool) :
    ℕ → ι → σ → Option σ
  | 0, _, _ => none
  | fuel + 1, i, s =>
    (act s i).bind fun s => if stop (next i) then some s else walk next act stop fuel (next i) s

/-- A walk acts on each node once, in the order of the path. -/
theorem Path.walk_eq {σ : Type v} {act : σ → ι → Option σ} {fuel : ℕ} {s : σ}
    (h : Path next p (i :: l) q) (hstop : stop q = true) (hgo : ∀ j ∈ l, stop j = false)
    (hfuel : l.length < fuel) : walk next act stop fuel p s = (i :: l).foldlM act s := by
  induction l generalizing i p fuel s with
  | nil =>
    obtain ⟨hp, hrest⟩ := path_cons.mp h
    subst p
    rw [path_nil] at hrest
    obtain ⟨fuel, rfl⟩ := Nat.exists_eq_succ_of_ne_zero (Nat.ne_of_gt hfuel)
    rw [walk, hrest, hstop]
    rfl
  | cons j l ih =>
    obtain ⟨hp, hrest⟩ := path_cons.mp h
    subst p
    obtain ⟨hj, hgo⟩ := List.forall_mem_cons.mp hgo
    cases fuel with
    | zero => simp at hfuel
    | succ fuel =>
      have hnext : next i = j := (path_cons.mp hrest).1
      have hgoes : stop (next i) = false := hnext ▸ hj
      rw [walk, List.foldlM_cons]
      refine congrArg ((act s i).bind ·) (funext fun s' => ?_)
      rw [hgoes]
      exact ih hrest hgo (by simpa using hfuel)

/-- `while (next i is not the target) i = next i`, for at most `fuel` turns. -/
def seek [DecidableEq ι] (next : ι → ι) (target : ι) : ℕ → ι → ι
  | 0, i => i
  | fuel + 1, i => if next i = target then i else seek next target fuel (next i)

section Edit

variable [DecidableEq ι]

theorem Path.seek_eq {fuel : ℕ} (h : Path next p (l ++ [i]) q) (hl : q ∉ (l ++ [i]).tail)
    (hfuel : l.length < fuel) : seek next q fuel p = i := by
  induction l generalizing p fuel with
  | nil =>
    obtain ⟨hp, hrest⟩ := path_cons.mp h
    subst p
    rw [path_nil] at hrest
    obtain ⟨fuel, rfl⟩ := Nat.exists_eq_succ_of_ne_zero (Nat.ne_of_gt hfuel)
    rw [seek, if_pos hrest]
  | cons j l ih =>
    obtain ⟨hp, hrest⟩ := path_cons.mp h
    subst p
    rw [List.cons_append, List.tail_cons] at hl
    cases fuel with
    | zero => simp at hfuel
    | succ fuel =>
      have hne : next j ≠ q := by
        rintro rfl
        cases l with
        | nil => exact hl (by simp [(path_cons.mp hrest).1])
        | cons k l => exact hl (by simp [(path_cons.mp hrest).1])
      rw [seek, if_neg hne, ih hrest (fun hq => hl (List.mem_of_mem_tail hq)) (by simpa using hfuel)]

theorem Path.insert (h : Path next p (l₁ ++ i :: l₂) q) (hl : (l₁ ++ i :: l₂).Nodup)
    (hj : j ∉ l₁ ++ i :: l₂) :
    Path (Function.update (Function.update next j (next i)) i j) p (l₁ ++ i :: j :: l₂) q := by
  obtain ⟨m, h₁, h⟩ := path_append.mp h
  obtain ⟨hm, h₂⟩ := path_cons.mp h
  subst m
  obtain ⟨-, hil₂, hdisj⟩ := List.nodup_append.mp hl
  have hi₁ : ∀ k ∈ l₁, k ≠ i := fun k hk => hdisj k hk i (by simp)
  have hi₂ : ∀ k ∈ l₂, k ≠ i := fun k hk => by
    rintro rfl
    exact (List.nodup_cons.mp hil₂).1 hk
  have hne : ∀ k ∈ l₁ ++ i :: l₂, k ≠ j := fun k hk => by
    rintro rfl
    exact hj hk
  have hji : j ≠ i := (hne i (by simp)).symm
  refine path_append.mpr ⟨i, h₁.congr fun k hk => ?_, rfl, ?_, ?_⟩
  · rw [Function.update_of_ne (hi₁ k hk), Function.update_of_ne (hne k (by simp [hk]))]
  · rw [Function.update_self]
    rfl
  · rw [Function.update_of_ne hji, Function.update_self]
    refine h₂.congr fun k hk => ?_
    rw [Function.update_of_ne (hi₂ k hk), Function.update_of_ne (hne k (by simp [hk]))]

theorem Path.remove (h : Path next p (l₁ ++ i :: j :: l₂) q) (hl : (l₁ ++ i :: j :: l₂).Nodup) :
    Path (Function.update next i (next j)) p (l₁ ++ i :: l₂) q := by
  obtain ⟨m, h₁, h⟩ := path_append.mp h
  obtain ⟨hm, h⟩ := path_cons.mp h
  obtain ⟨-, h₂⟩ := path_cons.mp h
  subst m
  obtain ⟨-, hijl₂, hdisj⟩ := List.nodup_append.mp hl
  have hi₁ : ∀ k ∈ l₁, k ≠ i := fun k hk => hdisj k hk i (by simp)
  have hi₂ : ∀ k ∈ l₂, k ≠ i := fun k hk => by
    rintro rfl
    exact (List.nodup_cons.mp hijl₂).1 (by simp [hk])
  refine path_append.mpr ⟨i, h₁.congr fun k hk => ?_, rfl, ?_⟩
  · rw [Function.update_of_ne (hi₁ k hk)]
  · rw [Function.update_self]
    refine h₂.congr fun k hk => ?_
    rw [Function.update_of_ne (hi₂ k hk)]

end Edit

end RubiKernel.Cyclic
