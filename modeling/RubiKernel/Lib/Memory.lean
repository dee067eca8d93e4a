import Mathlib.Data.BitVec
import RubiKernel.Lib.Buffer

/-! Byte memory with 32-bit addresses and little-endian words. -/

namespace RubiKernel

abbrev Memory := BitVec 32 → BitVec 8

namespace Memory

def read16 (mem : Memory) (a : BitVec 32) : BitVec 16 := mem (a + 1) ++ mem a

def read32 (mem : Memory) (a : BitVec 32) : BitVec 32 :=
  mem (a + 3) ++ mem (a + 2) ++ mem (a + 1) ++ mem a

def write32 (mem : Memory) (a w : BitVec 32) : Memory := fun b =>
  if b - a < 4 then (w >>> (8 * (b - a))).setWidth 8 else mem b

/-- The `n` bytes at `y` are none of the four at `x`. -/
def Apart (n : Nat) (x y : BitVec 32) : Prop := ∀ i < n, 4 ≤ y + BitVec.ofNat 32 i - x

instance {n : Nat} {x y : BitVec 32} : Decidable (Apart n x y) :=
  inferInstanceAs (Decidable (∀ i < n, _))

section

variable (mem : Memory) (a e w : BitVec 32) {n k : Nat} {x y : BitVec 32}

theorem add_ofNat_succ : a + BitVec.ofNat 32 k + 1 = a + BitVec.ofNat 32 (k + 1) := by
  rw [BitVec.add_assoc, BitVec.ofNat_add]
  rfl

theorem read32_eq : read32 mem a = read16 mem (a + 2) ++ read16 mem a := by
  have haddr : a + 2 + 1 = a + 3 := add_ofNat_succ a
  rw [read32, read16, read16, haddr]
  ext i hi
  simp only [BitVec.getElem_append]
  grind

theorem write32_apply (hk : k < 4) :
    write32 mem a w (a + BitVec.ofNat 32 k) = (w >>> (8 * k)).setWidth 8 := by
  have hlt : BitVec.ofNat 32 k < 4 := by
    show (BitVec.ofNat 32 k).toNat < 4
    rw [BitVec.toNat_ofNat]
    omega
  have hshift : (8 * BitVec.ofNat 32 k : BitVec 32).toNat = 8 * k := by
    rw [BitVec.toNat_mul, BitVec.toNat_ofNat]
    show 8 * (k % 2 ^ 32) % 2 ^ 32 = 8 * k
    omega
  rw [write32, add_sub_cancel_left, if_pos hlt, BitVec.ushiftRight_eq', hshift]

theorem read16_write32 (hk : k < 3) :
    read16 (write32 mem a w) (a + BitVec.ofNat 32 k) = (w >>> (8 * k)).setWidth 16 := by
  rw [read16, add_ofNat_succ, write32_apply mem a w (by omega), write32_apply mem a w (by omega)]
  ext i hi
  simp only [BitVec.getElem_append, BitVec.getElem_setWidth, BitVec.getLsbD_ushiftRight]
  grind

theorem read32_write32 : read32 (write32 mem a w) a = w := by
  have hlow := read16_write32 mem a w (k := 0) (by decide)
  have hhigh : read16 (write32 mem a w) (a + 2) = (w >>> 16).setWidth 16 :=
    read16_write32 mem a w (k := 2) (by decide)
  rw [BitVec.add_zero] at hlow
  rw [read32_eq, hhigh, hlow]
  ext i hi
  simp only [BitVec.getElem_append, BitVec.getElem_setWidth, BitVec.getLsbD_ushiftRight]
  grind

theorem write32_of_apart (h : Apart n x y) (hk : k < n) :
    write32 mem (e + x) w (e + y + BitVec.ofNat 32 k) = mem (e + y + BitVec.ofNat 32 k) := by
  have hsub : e + y + BitVec.ofNat 32 k - (e + x) = y + BitVec.ofNat 32 k - x := by
    rw [BitVec.add_assoc, add_sub_add_left_eq_sub]
  rw [write32, hsub, if_neg (BitVec.not_lt.mpr (h k hk))]

theorem read32_write32_of_apart (h : Apart 4 x y) :
    read32 (write32 mem (e + x) w) (e + y) = read32 mem (e + y) := by
  have h₀ := write32_of_apart mem e w h (k := 0) (by decide)
  have h₁ : write32 mem (e + x) w (e + y + 1) = mem (e + y + 1) :=
    write32_of_apart mem e w h (k := 1) (by decide)
  have h₂ : write32 mem (e + x) w (e + y + 2) = mem (e + y + 2) :=
    write32_of_apart mem e w h (k := 2) (by decide)
  have h₃ : write32 mem (e + x) w (e + y + 3) = mem (e + y + 3) :=
    write32_of_apart mem e w h (k := 3) (by decide)
  rw [BitVec.add_zero] at h₀
  rw [read32, read32, h₀, h₁, h₂, h₃]

theorem read32_congr {mem mem' : Memory}
    (h : ∀ i < 4, mem' (a + BitVec.ofNat 32 i) = mem (a + BitVec.ofNat 32 i)) :
    read32 mem' a = read32 mem a := by
  have h₀ := h 0 (by decide)
  have h₁ : mem' (a + 1) = mem (a + 1) := h 1 (by decide)
  have h₂ : mem' (a + 2) = mem (a + 2) := h 2 (by decide)
  have h₃ : mem' (a + 3) = mem (a + 3) := h 3 (by decide)
  rw [BitVec.add_zero] at h₀
  rw [read32, read32, h₀, h₁, h₂, h₃]

theorem read16_eq : read16 mem a = (read32 mem a).setWidth 16 := by
  rw [read32_eq]
  exact BitVec.setWidth_append_eq_right.symm

/-- A word read two bytes off has halves of two words. -/
theorem read32_between : read32 mem (a + 2) =
    (read32 mem (a + 4)).setWidth 16 ++ (read32 mem a >>> 16).setWidth 16 := by
  have haddr : a + 2 + 2 = a + 4 := by
    rw [BitVec.add_assoc]
    rfl
  rw [read32_eq mem (a + 2), haddr, read16_eq, read32_eq mem a]
  congr 1
  ext i hi
  simp only [BitVec.getElem_setWidth, BitVec.getLsbD_ushiftRight, BitVec.getLsbD_append]
  grind

end

def fill32 (mem : Memory) (a : BitVec 32) (f : Nat → BitVec 32) : Nat → Memory
  | 0 => mem
  | n + 1 => write32 (fill32 mem a f n) (a + BitVec.ofNat 32 (4 * n)) (f n)

section

variable {mem : Memory} {a b w : BitVec 32} {f : Nat → BitVec 32} {n : Nat}

theorem read32_write32_aligned (ha : a.toNat % 4 = 0) (hb : b.toNat % 4 = 0) :
    read32 (write32 mem a w) b = if b = a then w else read32 mem b := by
  split
  · next h =>
    subst h
    exact read32_write32 mem b w
  · next hne =>
    have hapart : Apart 4 a b := by
      intro i hi
      have hdist : (b - a).toNat % 4 = 0 ∧ (b - a).toNat ≠ 0 := by
        rw [BitVec.toNat_sub]
        have hneq : b.toNat ≠ a.toNat := fun h => hne (BitVec.eq_of_toNat_eq h)
        have := a.isLt
        have := b.isLt
        omega
      have hsub : b + BitVec.ofNat 32 i - a = b - a + BitVec.ofNat 32 i := add_sub_right_comm ..
      show (4 : BitVec 32).toNat ≤ (b + BitVec.ofNat 32 i - a).toNat
      have := (b - a).isLt
      rw [hsub, BitVec.toNat_add, BitVec.toNat_ofNat, show (4 : BitVec 32).toNat = 4 from rfl]
      omega
    have h := read32_write32_of_apart mem 0 w hapart
    rwa [zero_add, zero_add] at h

theorem read32_fill32 (hn : 4 * n ≤ 2 ^ 32) (ha : a.toNat % 4 = 0) (hb : b.toNat % 4 = 0) :
    read32 (fill32 mem a f n) b =
      if (b - a).toNat < 4 * n then f ((b - a).toNat / 4) else read32 mem b := by
  induction n with
  | zero => rw [if_neg (Nat.not_lt_zero _)]; rfl
  | succ n ih =>
    have hdist : (b - a).toNat % 4 = 0 := by
      rw [BitVec.toNat_sub]
      omega
    have haddr : (a + BitVec.ofNat 32 (4 * n)).toNat % 4 = 0 := by
      rw [BitVec.toNat_add, BitVec.toNat_ofNat]
      omega
    have heq : b = a + BitVec.ofNat 32 (4 * n) ↔ (b - a).toNat = 4 * n := by
      rw [← sub_eq_iff_eq_add', ← BitVec.toNat_inj, BitVec.toNat_ofNat,
        Nat.mod_eq_of_lt (by omega)]
    rw [fill32, read32_write32_aligned haddr hb, ih (by omega)]
    simp only [heq]
    by_cases hlast : (b - a).toNat = 4 * n
    · rw [if_pos hlast, if_pos (by omega), hlast, Nat.mul_div_cancel_left n (by decide)]
    · rw [if_neg hlast]
      exact if_congr (by omega) rfl rfl

theorem read32_fill32_add {p q : Nat} (ha : a.toNat % 4 = 0) (hp : p % 4 = 0) (hq : q % 4 = 0)
    (hlt : p < 2 ^ 31) (hle : q + 4 * n ≤ 2 ^ 31) :
    read32 (fill32 mem (a + BitVec.ofNat 32 q) f n) (a + BitVec.ofNat 32 p) =
      if q ≤ p ∧ p < q + 4 * n then f ((p - q) / 4) else read32 mem (a + BitVec.ofNat 32 p) := by
  have haligned : ∀ r, r % 4 = 0 → (a + BitVec.ofNat 32 r).toNat % 4 = 0 := by
    intro r hr
    rw [BitVec.toNat_add, BitVec.toNat_ofNat]
    omega
  have hdist : (a + BitVec.ofNat 32 p - (a + BitVec.ofNat 32 q)).toNat =
      (2 ^ 32 - q + p) % 2 ^ 32 := by
    rw [add_sub_add_left_eq_sub, BitVec.toNat_sub, BitVec.toNat_ofNat, BitVec.toNat_ofNat]
    omega
  rw [read32_fill32 (by omega) (haligned q hq) (haligned p hp), hdist]
  by_cases hin : q ≤ p ∧ p < q + 4 * n
  · rw [if_pos hin, if_pos (by omega), show (2 ^ 32 - q + p) % 2 ^ 32 = p - q by omega]
  · rw [if_neg hin, if_neg (by omega)]

theorem fill32_of_le (hn : 4 * n ≤ 2 ^ 32) (h : 4 * n ≤ (b - a).toNat) :
    fill32 mem a f n b = mem b := by
  induction n with
  | zero => rfl
  | succ n ih =>
    have hsub : b - (a + BitVec.ofNat 32 (4 * n)) = b - a - BitVec.ofNat 32 (4 * n) :=
      sub_add_eq_sub_sub ..
    have hfar : ¬b - (a + BitVec.ofNat 32 (4 * n)) < 4 := by
      rw [hsub, BitVec.lt_def, BitVec.toNat_sub_of_le, BitVec.toNat_ofNat]
      · show ¬_ < 4
        omega
      · rw [BitVec.le_def, BitVec.toNat_ofNat]
        omega
    rw [fill32, write32, if_neg hfar]
    exact ih (by omega) (by omega)

end

def bytes32 (w : BitVec 32) : List (BitVec 8) :=
  [w.setWidth 8, (w >>> 8).setWidth 8, (w >>> 16).setWidth 8, (w >>> 24).setWidth 8]

def BytesAt (mem : Memory) (a : BitVec 32) (l : List (BitVec 8)) : Prop :=
  ∀ i (h : i < l.length), mem (a + BitVec.ofNat 32 i) = l[i]

section

variable {mem : Memory} {a w : BitVec 32} {l l' : List (BitVec 8)} {ws : List (BitVec 32)} {i : Nat}

theorem add_ofNat_add (a : BitVec 32) (i j : Nat) :
    a + BitVec.ofNat 32 i + BitVec.ofNat 32 j = a + BitVec.ofNat 32 (i + j) := by
  rw [BitVec.add_assoc, BitVec.ofNat_add]

theorem bytesAt_append :
    BytesAt mem a (l ++ l') ↔ BytesAt mem a l ∧ BytesAt mem (a + BitVec.ofNat 32 l.length) l' := by
  simp only [BytesAt, add_ofNat_add]
  exact Buffer.forall_getElem_append

theorem BytesAt.read32 (h : BytesAt mem a (bytes32 w)) : read32 mem a = w := by
  have h₀ : mem (a + 0#32) = w.setWidth 8 := h 0 (by simp [bytes32])
  have h₁ : mem (a + 1) = (w >>> 8).setWidth 8 := h 1 (by simp [bytes32])
  have h₂ : mem (a + 2) = (w >>> 16).setWidth 8 := h 2 (by simp [bytes32])
  have h₃ : mem (a + 3) = (w >>> 24).setWidth 8 := h 3 (by simp [bytes32])
  rw [BitVec.add_zero] at h₀
  rw [Memory.read32, h₀, h₁, h₂, h₃]
  ext i hi
  simp only [BitVec.getElem_append, BitVec.getElem_setWidth, BitVec.getLsbD_ushiftRight]
  grind

theorem BytesAt.map_range (h : BytesAt mem a l) :
    ((List.range l.length).map fun i => mem (a + BitVec.ofNat 32 i)) = l := by
  refine List.ext_getElem (by simp) fun i hi hi' => ?_
  rw [List.getElem_map, List.getElem_range]
  exact h i hi'

theorem BytesAt.read32_words (h : BytesAt mem a (ws.flatMap bytes32)) (hi : i < ws.length) :
    Memory.read32 mem (a + BitVec.ofNat 32 (4 * i)) = ws[i] := by
  induction ws generalizing a i with
  | nil => exact absurd hi (Nat.not_lt_zero i)
  | cons w ws ih =>
    rw [List.flatMap_cons, bytesAt_append] at h
    cases i with
    | zero =>
      rw [Nat.mul_zero, show BitVec.ofNat 32 0 = 0#32 from rfl, BitVec.add_zero]
      exact h.1.read32
    | succ i =>
      have hrest := ih h.2 (Nat.lt_of_succ_lt_succ hi)
      rw [add_ofNat_add] at hrest
      rw [Nat.mul_succ, Nat.add_comm]
      exact hrest

end

end Memory

end RubiKernel
