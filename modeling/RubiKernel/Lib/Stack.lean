import Mathlib.Data.List.Perm.Basic
import Mathlib.Logic.Function.Basic

/-! Stacks: histories in which every pop takes what was pushed last, and arrays
with a counter that hold one. A history has its last operation first. -/

universe u

namespace RubiKernel.Stack

variable {α : Type u}

inductive Op (α : Type u) : Type u
  | push (x : α)
  | pop (x : α)
  deriving DecidableEq

def contents : List (Op α) → List α
  | [] => []
  | .push x :: ops => x :: contents ops
  | .pop _ :: ops => (contents ops).tail

/-- Every pop took the top. -/
def Lifo : List (Op α) → Prop
  | [] => True
  | .push _ :: ops => Lifo ops
  | .pop x :: ops => (contents ops).head? = some x ∧ Lifo ops

def pushed : List (Op α) → List α
  | [] => []
  | .push x :: ops => x :: pushed ops
  | .pop _ :: ops => pushed ops

def popped : List (Op α) → List α
  | [] => []
  | .push _ :: ops => popped ops
  | .pop x :: ops => x :: popped ops

variable {ops rest : List (Op α)} {l : List α} {x : α}

@[simp] theorem contents_push : contents (.push x :: ops) = x :: contents ops := rfl

@[simp] theorem contents_pop : contents (.pop x :: ops) = (contents ops).tail := rfl

theorem Lifo.perm (h : Lifo ops) : (pushed ops).Perm (popped ops ++ contents ops) := by
  induction ops with
  | nil => exact .rfl
  | cons op ops ih =>
    cases op with
    | push x => exact ((ih h).cons x).trans List.perm_middle.symm
    | pop x =>
      obtain ⟨hhead, hops⟩ := h
      obtain ⟨l, hl⟩ := List.head?_eq_some_iff.mp hhead
      have hperm := ih hops
      rw [hl] at hperm
      rw [contents, hl]
      exact hperm.trans List.perm_middle

/-- `slot` holds the stack `l` in its entries from 0 to `n - 1`, the top last. -/
def Holds (slot : Int → α) : Int → List α → Prop
  | n, [] => n = 0
  | n, x :: l => slot (n - 1) = x ∧ Holds slot (n - 1) l

variable {slot slot' : Int → α} {n : Int}

theorem Holds.length_eq (h : Holds slot n l) : n = l.length := by
  induction l generalizing n with
  | nil => exact h
  | cons x l ih =>
    have hrest := ih h.2
    rw [List.length_cons]
    omega

theorem Holds.congr (h : Holds slot n l) (heq : ∀ i < n, slot' i = slot i) : Holds slot' n l := by
  induction l generalizing n with
  | nil => exact h
  | cons x l ih =>
    refine ⟨(heq _ (by omega)).trans h.1, ih h.2 fun i hi => heq i (by omega)⟩

theorem Holds.push (h : Holds slot n l) : Holds (Function.update slot n x) (n + 1) (x :: l) := by
  refine ⟨by simp, ?_⟩
  rw [Int.add_sub_cancel]
  exact h.congr fun i hi => Function.update_of_ne (by omega) ..

theorem Holds.map_range (h : Holds slot n l) :
    (List.range n.toNat).map (fun i : Nat => slot i) = l.reverse := by
  induction l generalizing n with
  | nil =>
    obtain rfl : n = 0 := h
    rfl
  | cons x l ih =>
    have hlen := h.length_eq
    rw [List.length_cons] at hlen
    have hn : n.toNat = (n - 1).toNat + 1 := by omega
    have htop : (((n - 1).toNat : Nat) : Int) = n - 1 := by omega
    rw [hn, List.range_succ, List.map_append, ih h.2, List.map_singleton, htop, h.1,
      List.reverse_cons]

end RubiKernel.Stack
