import Mathlib.Data.List.Basic

/-! Stateful computations that keep an invariant, with what is known of their values. -/

universe u

namespace RubiKernel

variable {σ α β : Type u} {I : σ → Prop} {p : α → Prop} {q : β → Prop} {m : StateM σ α}
  {f : α → StateM σ β}

theorem run_bind_of {s t : σ} {a : α} (h : m.run s = (a, t)) : (m >>= f).run s = (f a).run t := by
  rw [StateT.run_bind, h]
  rfl

/-- From a state with `I` on, `m` ends in one with `I`, and its value has `p`. -/
def Keeps (I : σ → Prop) (m : StateM σ α) (p : α → Prop) : Prop :=
  ∀ s, I s → p (m.run s).1 ∧ I (m.run s).2

theorem Keeps.pure {a : α} (h : p a) : Keeps I (Pure.pure a) p := fun _ hs => ⟨h, hs⟩

theorem Keeps.bind (hm : Keeps I m p) (hf : ∀ a, p a → Keeps I (f a) q) : Keeps I (m >>= f) q :=
  fun s hs =>
    have ⟨hp, hI⟩ := hm s hs
    hf _ hp _ hI

theorem Keeps.ite {c : Prop} [Decidable c] {m m' : StateM σ α} (hc : c → Keeps I m p)
    (hn : ¬c → Keeps I m' p) : Keeps I (if c then m else m') p := by
  split
  · next h => exact hc h
  · next h => exact hn h

/-- A loop over `l` with a loop invariant about the part of `l` that is done. -/
theorem Keeps.foldlM {l : List β} {f : α → β → StateM σ α} {a : α} (inv : List β → α → Prop)
    (start : inv [] a)
    (step : ∀ done b a, inv done a → Keeps I (f a b) (inv (done ++ [b]))) :
    Keeps I (l.foldlM f a) (inv l) := by
  have hloop : ∀ (todo done : List β) (a : α), inv done a →
      Keeps I (todo.foldlM f a) (inv (done ++ todo)) := by
    intro todo
    induction todo with
    | nil =>
      intro done a ha
      rw [List.append_nil]
      exact .pure ha
    | cons b todo ih =>
      intro done a ha
      rw [List.foldlM_cons, List.append_cons]
      exact (step done b a ha).bind fun a' ha' => ih _ a' ha'
  exact hloop l [] a start

end RubiKernel
