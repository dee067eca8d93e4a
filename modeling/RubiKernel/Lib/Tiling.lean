import Mathlib.Algebra.Group.Basic
import Mathlib.Algebra.BigOperators.Group.List.Basic
import Mathlib.Data.List.Chain
import Mathlib.Data.BitVec

/-! Blocks that lie one after the other, over any type of addresses, and what it
means in the integers when the addresses are machine words that do not wrap. -/

universe u v

namespace RubiKernel.Tiling

variable {β : Type u} {A : Type v}

/-- The first block starts at `start` and each block where the one before it ends. -/
def Tiled [Add A] (addr size : β → A) : A → List β → Prop
  | _, [] => True
  | start, b :: bs => addr b = start ∧ Tiled addr size (start + size b) bs

def endFrom [Add A] (size : β → A) : A → List β → A
  | start, [] => start
  | start, b :: bs => endFrom size (start + size b) bs

section

variable [Add A] {addr size : β → A} {start : A} {b : β} {bs cs : List β}

@[simp] theorem tiled_nil : Tiled addr size start [] := trivial

@[simp] theorem tiled_cons :
    Tiled addr size start (b :: bs) ↔ addr b = start ∧ Tiled addr size (start + size b) bs :=
  Iff.rfl

@[simp] theorem endFrom_nil : endFrom size start [] = start := rfl

@[simp] theorem endFrom_cons :
    endFrom size start (b :: bs) = endFrom size (start + size b) bs := rfl

@[simp] theorem endFrom_append :
    endFrom size start (bs ++ cs) = endFrom size (endFrom size start bs) cs := by
  induction bs generalizing start with
  | nil => rfl
  | cons b bs ih => exact ih

@[simp] theorem tiled_append :
    Tiled addr size start (bs ++ cs) ↔
      Tiled addr size start bs ∧ Tiled addr size (endFrom size start bs) cs := by
  induction bs generalizing start with
  | nil => simp
  | cons b bs ih => simp [ih, and_assoc]

theorem Tiled.addr_of_append (h : Tiled addr size start (bs ++ b :: cs)) :
    addr b = endFrom size start bs := by
  simp only [tiled_append, tiled_cons] at h
  exact h.2.1

theorem Tiled.head? (h : Tiled addr size start bs) : ∀ b ∈ bs.head?, addr b = start := by
  cases bs with
  | nil => simp
  | cons b bs => simpa using h.1

theorem Tiled.isChain (h : Tiled addr size start bs) :
    bs.IsChain fun b c => addr c = addr b + size b := by
  induction bs generalizing start with
  | nil => exact List.isChain_nil
  | cons b bs ih =>
    refine List.isChain_cons.mpr ⟨fun c hc => ?_, ih h.2⟩
    rw [h.2.head? c hc, h.1]

theorem Tiled.endFrom_eq (h : Tiled addr size start bs) (hb : bs.getLast? = some b) :
    endFrom size start bs = addr b + size b := by
  obtain ⟨bs, rfl⟩ := List.getLast?_eq_some_iff.mp hb
  simp [h.addr_of_append]

end

section Word

variable {w : ℕ} {addr size : β → BitVec w} {start : BitVec w} {b c : β} {bs cs : List β}

/-- The bytes the blocks take up, counted without wrap-around. -/
def extent (size : β → BitVec w) (bs : List β) : ℕ := (bs.map fun b => (size b).toNat).sum

@[simp] theorem extent_nil : extent size [] = 0 := rfl

@[simp] theorem extent_cons : extent size (b :: bs) = (size b).toNat + extent size bs := rfl

@[simp] theorem extent_append : extent size (bs ++ cs) = extent size bs + extent size cs := by
  simp [extent]

theorem endFrom_toNat (h : start.toNat + extent size bs < 2 ^ w) :
    (endFrom size start bs).toNat = start.toNat + extent size bs := by
  induction bs generalizing start with
  | nil => simp
  | cons b bs ih =>
    simp only [extent_cons] at h ⊢
    have hadd : (start + size b).toNat = start.toNat + (size b).toNat := by
      rw [BitVec.toNat_add, Nat.mod_eq_of_lt (by omega)]
    rw [endFrom_cons, ih (by omega), hadd]
    omega

theorem Tiled.pairwise (h : Tiled addr size start bs) (hfit : start.toNat + extent size bs < 2 ^ w) :
    bs.Pairwise fun b c => (addr b).toNat + (size b).toNat ≤ (addr c).toNat := by
  induction bs using List.reverseRecOn with
  | nil => exact .nil
  | append_singleton bs c ih =>
    simp only [extent_append, extent_cons, extent_nil] at hfit
    have hc := h.addr_of_append
    simp only [tiled_append] at h
    refine List.pairwise_append.mpr ⟨ih h.1 (by omega), List.pairwise_singleton .., ?_⟩
    intro b hb d hd
    obtain rfl := List.mem_singleton.mp hd
    obtain ⟨pre, post, rfl⟩ := List.append_of_mem hb
    simp only [extent_append, extent_cons] at hfit
    have hend : (endFrom size start (pre ++ b :: post)).toNat =
        start.toNat + extent size (pre ++ b :: post) :=
      endFrom_toNat (by simp only [extent_append, extent_cons]; omega)
    rw [hc, hend, h.1.addr_of_append, endFrom_toNat (by omega)]
    simp only [extent_append, extent_cons]
    omega

end Word

end RubiKernel.Tiling
