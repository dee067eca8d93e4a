import Mathlib.Data.BitVec

/-! Fields of a word that are shifted and masked, and the masks of its high bits. -/

namespace RubiKernel.Bits

variable {w k n : ℕ} {x : BitVec w}

section Fields

theorem masked_field (x m : BitVec w) (n k : ℕ) (hm : m.setWidth k = BitVec.allOnes k) :
    ((x >>> n) &&& m).setWidth k = x.extractLsb' n k := by
  rw [BitVec.setWidth_and, hm, BitVec.and_allOnes, BitVec.setWidth_ushiftRight_eq_extractLsb]

theorem low_field (x m : BitVec w) (k : ℕ) (hm : m.setWidth k = BitVec.allOnes k) :
    (x &&& m).setWidth k = x.extractLsb' 0 k := by
  have hfield := masked_field x m 0 k hm
  rwa [BitVec.ushiftRight_zero] at hfield

theorem low_ones {m : BitVec w} (h : x &&& m = m) (hm : m.toNat = 2 ^ k - 1) :
    x.toNat % 2 ^ k = 2 ^ k - 1 := by
  have hand := congrArg BitVec.toNat h
  rw [BitVec.toNat_and, hm, Nat.and_two_pow_sub_one_eq_mod] at hand
  exact hand

theorem low_toNat (x : BitVec w) (hk : k ≤ w) :
    (x &&& BitVec.ofNat w (2 ^ k - 1)).toNat = x.toNat % 2 ^ k := by
  have hpow : 2 ^ k ≤ 2 ^ w := Nat.pow_le_pow_right (by decide) hk
  have hpos := Nat.two_pow_pos k
  rw [BitVec.toNat_and, BitVec.toNat_ofNat, Nat.mod_eq_of_lt (by omega),
    Nat.and_two_pow_sub_one_eq_mod]

end Fields

section HighMask

/-- The bits from `k` on. -/
def highMask (w k : ℕ) : BitVec w := BitVec.allOnes w <<< k

theorem getLsbD_highMask {i : ℕ} :
    (highMask w k).getLsbD i = (decide (k ≤ i) && decide (i < w)) := by
  rw [highMask, BitVec.getLsbD_shiftLeft, BitVec.getLsbD_allOnes]
  by_cases hi : i < w
  · by_cases hk : i < k
    · simp [hi, hk]
    · simp [hi, hk, Nat.le_of_not_lt hk, show i - k < w by omega]
  · simp [hi]

theorem highMask_eq_zero (h : w ≤ k) : highMask w k = 0 := BitVec.shiftLeft_eq_zero h

theorem neg_highMask : -highMask w k = BitVec.twoPow w k := by
  rw [highMask, BitVec.shiftLeft_eq_mul_twoPow, ← BitVec.neg_one_eq_allOnes, BitVec.neg_mul,
    BitVec.one_mul, BitVec.neg_neg]

theorem not_highMask_add_one_toNat (h : k < w) : (~~~highMask w k + 1).toNat = 2 ^ k := by
  have hneg : ~~~highMask w k + 1 = -highMask w k := (BitVec.neg_eq_not_add _).symm
  rw [hneg, neg_highMask, BitVec.toNat_twoPow_of_lt h]

theorem and_highMask_toNat : (x &&& highMask w k).toNat = x.toNat / 2 ^ k * 2 ^ k := by
  have hle := Nat.div_mul_le_self x.toNat (2 ^ k)
  rw [highMask, ← BitVec.shiftLeft_ushiftRight, BitVec.toNat_shiftLeft, BitVec.toNat_ushiftRight,
    Nat.shiftRight_eq_div_pow, Nat.shiftLeft_eq, Nat.mod_eq_of_lt (hle.trans_lt x.isLt)]

theorem highMask_and_highMask (h : n ≤ k) : highMask w k &&& highMask w n = highMask w k := by
  refine BitVec.eq_of_getLsbD_eq fun i hi => ?_
  rw [BitVec.getLsbD_and, getLsbD_highMask, getLsbD_highMask]
  by_cases hk : k ≤ i
  · simp [hk, h.trans hk, hi]
  · simp [hk]

theorem setWidth_and_highMask (low : BitVec n) (h : n ≤ k) :
    low.setWidth w &&& highMask w k = 0 := by
  refine BitVec.eq_of_getLsbD_eq fun i hi => ?_
  rw [BitVec.getLsbD_and, BitVec.getLsbD_setWidth, getLsbD_highMask]
  by_cases hk : k ≤ i
  · simp [BitVec.getLsbD_of_ge low i (h.trans hk)]
  · simp [hk]

theorem getLsbD_masked_or {i : ℕ} (low : BitVec n) (x : BitVec w) (hi : i < k) (hw : i < w) :
    ((x &&& highMask w k) ||| low.setWidth w).getLsbD i = low.getLsbD i := by
  rw [BitVec.getLsbD_or, BitVec.getLsbD_and, getLsbD_highMask, BitVec.getLsbD_setWidth]
  simp [hw, Nat.not_le.mpr hi]

theorem masked_or_and_highMask (low : BitVec n) (h : n ≤ k) (x : BitVec w) :
    ((x &&& highMask w k) ||| low.setWidth w) &&& highMask w n = x &&& highMask w k := by
  rw [BitVec.and_or_distrib_right, BitVec.and_assoc, highMask_and_highMask h,
    setWidth_and_highMask low le_rfl]
  exact BitVec.or_zero

end HighMask

end RubiKernel.Bits
