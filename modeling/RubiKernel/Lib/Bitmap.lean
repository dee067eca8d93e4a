import Mathlib.Data.BitVec
import Mathlib.Logic.Function.Basic

/-! Sets of numbers kept as the bits of an array of words. -/

namespace RubiKernel.Bitmap

variable {w : ℕ} {b : ℕ → BitVec w} {j k : ℕ} {v : Bool}

def get (b : ℕ → BitVec w) (k : ℕ) : Bool := (b (k / w)).getLsbD (k % w)

def putBit (x : BitVec w) (n : ℕ) (v : Bool) : BitVec w :=
  if v then x ||| (1 : BitVec w) <<< n else x &&& ~~~((1 : BitVec w) <<< n)

def put (b : ℕ → BitVec w) (k : ℕ) (v : Bool) : ℕ → BitVec w :=
  Function.update b (k / w) (putBit (b (k / w)) (k % w) v)

theorem getLsbD_one_shiftLeft {i n : ℕ} (hi : i < w) :
    ((1 : BitVec w) <<< n).getLsbD i = decide (i = n) := by
  rw [BitVec.getLsbD_shiftLeft]
  by_cases h : i < n
  · simp [h, Nat.ne_of_lt h]
  · have hone : (1 : BitVec w).getLsbD (i - n) = decide (i - n = 0) := by
      rw [show (1 : BitVec w) = 1#w from rfl, BitVec.getLsbD_one]
      simp [show 0 < w by omega]
    simp only [hi, h, decide_true, decide_false, Bool.not_false, Bool.true_and, hone]
    exact decide_eq_decide.mpr (by omega)

theorem getLsbD_putBit {x : BitVec w} {i n : ℕ} (hi : i < w) :
    (putBit x n v).getLsbD i = if i = n then v else x.getLsbD i := by
  have hone := getLsbD_one_shiftLeft (n := n) hi
  cases v with
  | true =>
    simp only [putBit, if_true, BitVec.getLsbD_or, hone]
    by_cases h : i = n <;> simp [h]
  | false =>
    simp only [putBit, Bool.false_eq_true, if_false, BitVec.getLsbD_and, BitVec.getLsbD_not, hone]
    by_cases h : i = n <;> simp [h, hi]

theorem get_put (hw : 0 < w) : get (put b k v) j = if j = k then v else get b j := by
  have hj := Nat.mod_lt j hw
  by_cases hdiv : j / w = k / w
  · have hmod : j % w = k % w ↔ j = k :=
      ⟨fun h => by rw [← Nat.div_add_mod j w, ← Nat.div_add_mod k w, hdiv, h], fun h => h ▸ rfl⟩
    simp only [get, put, hdiv, Function.update_self, getLsbD_putBit hj, hmod]
  · have hne : j ≠ k := fun h => hdiv (h ▸ rfl)
    simp only [get, put, Function.update_of_ne hdiv, hne, if_false]

theorem ext_get {b' : ℕ → BitVec w} (h : ∀ k, get b k = get b' k) : b = b' := by
  funext j
  refine BitVec.eq_of_getLsbD_eq fun i hi => ?_
  have hk := h (w * j + i)
  have hdiv : (w * j + i) / w = j := by
    rw [Nat.mul_add_div (by omega), Nat.div_eq_of_lt hi, Nat.add_zero]
  have hmod : (w * j + i) % w = i := by
    rw [Nat.mul_add_mod, Nat.mod_eq_of_lt hi]
  rwa [get, get, hdiv, hmod] at hk

end RubiKernel.Bitmap
