import Mathlib.Data.BitVec

/-! Loops that a 32-bit counter closes: the body, then `dec` and a jump back while the counter
is not 0. A counter that starts at 0 goes round. -/

universe u

namespace RubiKernel.Countdown

variable {σ : Type u} {body : σ → Option σ} {state : Nat → σ} {c : BitVec 32} {n : Nat}

def loop (body : σ → Option σ) (c : BitVec 32) (s : σ) : Option σ :=
  match body s with
  | none => none
  | some s => if c - 1 = 0 then some s else loop body (c - 1) s
termination_by (c - 1).toNat
decreasing_by bv_omega

theorem loop_of_body {s s' : σ} (h : body s = some s') :
    loop body c s = if c - 1 = 0 then some s' else loop body (c - 1) s' := by
  rw [loop, h]

/-- A loop whose turns go from each state of a sequence to the next. -/
theorem loop_eq (hc : c.toNat = n + 1) (turn : ∀ i ≤ n, body (state i) = some (state (i + 1))) :
    loop body c (state 0) = some (state (n + 1)) := by
  have hloop : ∀ k i (c : BitVec 32), c.toNat = k + 1 → i + k = n →
      loop body c (state i) = some (state (n + 1)) := by
    intro k
    induction k with
    | zero =>
      intro i c hc hi
      have hlast : c - 1 = 0 := by bv_omega
      rw [loop_of_body (turn i (by omega)), if_pos hlast, ← hi]
    | succ k ih =>
      intro i c hc hi
      have hmore : c - 1 ≠ 0 := by bv_omega
      rw [loop_of_body (turn i (by omega)), if_neg hmore]
      exact ih (i + 1) (c - 1) (by bv_omega) (by omega)
  exact hloop n 0 c hc (Nat.zero_add n)

end RubiKernel.Countdown
