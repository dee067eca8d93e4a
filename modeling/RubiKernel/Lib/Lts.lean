import Mathlib.Logic.Relation
import Mathlib.Data.List.Basic

/-! Labelled transition systems: reachable states, traces, and the two rules the
developments below use, induction over runs and forward simulation. -/

universe u v w

namespace RubiKernel.Lts

structure System (σ : Type u) (ι : Type v) where
  start : σ → Prop
  step : σ → ι → σ → Prop

variable {σ : Type u} {ι : Type v} {τ : Type w}

inductive System.Reachable (M : System σ ι) : σ → Prop
  | start {s} : M.start s → M.Reachable s
  | step {s e t} : M.Reachable s → M.step s e t → M.Reachable t

theorem System.Reachable.invariant {M : System σ ι} {I : σ → Prop}
    (start : ∀ s, M.start s → I s) (step : ∀ s e t, I s → M.step s e t → I t)
    {s : σ} (h : M.Reachable s) : I s := by
  induction h with
  | start h => exact start _ h
  | step _ hstep ih => exact step _ _ _ ih hstep

def System.restrict (M : System σ ι) (P : σ → ι → σ → Prop) : System σ ι where
  start := M.start
  step s e t := M.step s e t ∧ P s e t

/-- `Trace M s tr`: the labels of `tr`, each with the state it leads to, are a
run of `M` from `s`. -/
def System.Trace (M : System σ ι) : σ → List (ι × σ) → Prop
  | _, [] => True
  | s, (e, t) :: tr => M.step s e t ∧ M.Trace t tr

def final : σ → List (ι × σ) → σ
  | s, [] => s
  | _, (_, t) :: tr => final t tr

def Every (P : σ → ι → σ → Prop) : σ → List (ι × σ) → Prop
  | _, [] => True
  | s, (e, t) :: tr => P s e t ∧ Every P t tr

theorem Every.final {P : σ → Prop} {s : σ} {tr : List (ι × σ)}
    (h : Every (fun _ _ t => P t) s tr) (htr : tr ≠ []) : P (final s tr) := by
  induction tr generalizing s with
  | nil => exact absurd rfl htr
  | cons x tr ih =>
    cases tr with
    | nil => exact h.1
    | cons y tr => exact ih h.2 (List.cons_ne_nil y tr)

@[simp] theorem final_append {s : σ} (tr tr' : List (ι × σ)) :
    final s (tr ++ tr') = final (final s tr) tr' := by
  induction tr generalizing s with
  | nil => rfl
  | cons x tr ih => exact ih

theorem final_mem {s : σ} {tr : List (ι × σ)} (htr : tr ≠ []) : ∃ x ∈ tr, x.2 = final s tr := by
  induction tr generalizing s with
  | nil => exact absurd rfl htr
  | cons x tr ih =>
    cases tr with
    | nil => exact ⟨x, List.mem_cons_self, rfl⟩
    | cons y tr =>
      obtain ⟨z, hz, heq⟩ := ih (s := x.2) (List.cons_ne_nil y tr)
      exact ⟨z, List.mem_cons_of_mem x hz, heq⟩

instance Every.decidable {P : σ → ι → σ → Prop} [∀ s e t, Decidable (P s e t)] :
    (s : σ) → (tr : List (ι × σ)) → Decidable (Every P s tr)
  | _, [] => inferInstanceAs (Decidable True)
  | s, (e, t) :: tr =>
    have := Every.decidable (P := P) t tr
    inferInstanceAs (Decidable (P s e t ∧ Every P t tr))

/-- The trace of the labels `es` under an executable step. -/
def replay (exec : σ → ι → Option σ) : σ → List ι → Option (List (ι × σ))
  | _, [] => some []
  | s, e :: es => (exec s e).bind fun t => (replay exec t es).map ((e, t) :: ·)

theorem labels_of_replay {exec : σ → ι → Option σ} {s : σ} {es : List ι} {tr : List (ι × σ)}
    (h : replay exec s es = some tr) : tr.map Prod.fst = es := by
  induction es generalizing s tr with
  | nil =>
    obtain rfl := Option.some.inj h
    rfl
  | cons e es ih =>
    obtain ⟨t, -, h⟩ := Option.bind_eq_some_iff.mp h
    obtain ⟨tr', htr, rfl⟩ := Option.map_eq_some_iff.mp h
    simp [ih htr]

theorem System.Trace.of_replay {M : System σ ι} {exec : σ → ι → Option σ}
    (sound : ∀ s e t, exec s e = some t → M.step s e t) {s : σ} {es : List ι}
    {tr : List (ι × σ)} (h : replay exec s es = some tr) : M.Trace s tr := by
  induction es generalizing s tr with
  | nil =>
    obtain rfl := Option.some.inj h
    trivial
  | cons e es ih =>
    obtain ⟨t, ht, h⟩ := Option.bind_eq_some_iff.mp h
    obtain ⟨tr', htr, rfl⟩ := Option.map_eq_some_iff.mp h
    exact ⟨sound s e t ht, ih htr⟩

theorem System.Trace.exists_of_replay {M : System σ ι} {exec : σ → ι → Option σ}
    (sound : ∀ s e t, exec s e = some t → M.step s e t) {s : σ} {es : List ι}
    {p : List (ι × σ) → Prop} [DecidablePred p]
    (h : ((replay exec s es).any fun tr => p tr) = true) :
    ∃ tr, replay exec s es = some tr ∧ M.Trace s tr ∧ p tr := by
  obtain ⟨tr, htr, hp⟩ := (Option.any_eq_true ..).mp h
  exact ⟨tr, htr, .of_replay sound htr, of_decide_eq_true hp⟩

theorem System.Trace.append {M : System σ ι} {s : σ} {tr tr' : List (ι × σ)}
    (h : M.Trace s tr) (h' : M.Trace (final s tr) tr') : M.Trace s (tr ++ tr') := by
  induction tr generalizing s with
  | nil => exact h'
  | cons x tr ih => exact ⟨h.1, ih h.2 h'⟩

theorem System.Trace.of_append {M : System σ ι} {s : σ} {tr tr' : List (ι × σ)}
    (h : M.Trace s (tr ++ tr')) : M.Trace s tr ∧ M.Trace (final s tr) tr' := by
  induction tr generalizing s with
  | nil => exact ⟨trivial, h⟩
  | cons x tr ih => exact ⟨⟨h.1, (ih h.2).1⟩, (ih h.2).2⟩

theorem final_map {f : σ → τ} {s : σ} (tr : List (ι × σ)) :
    final (f s) (tr.map (Prod.map id f)) = f (final s tr) := by
  induction tr generalizing s with
  | nil => rfl
  | cons x tr ih => exact ih

theorem System.Trace.final_reachable {M : System σ ι} {s : σ} {tr : List (ι × σ)}
    (hs : M.Reachable s) (h : M.Trace s tr) : M.Reachable (final s tr) := by
  induction tr generalizing s with
  | nil => exact hs
  | cons x tr ih => exact ih (hs.step h.1) h.2

theorem System.Trace.restrict {M : System σ ι} {P : σ → ι → σ → Prop} {s : σ}
    {tr : List (ι × σ)} (h : M.Trace s tr) (hP : Every P s tr) : (M.restrict P).Trace s tr := by
  induction tr generalizing s with
  | nil => trivial
  | cons x tr ih => exact ⟨⟨h.1, hP.1⟩, ih h.2 hP.2⟩

/-- Two step properties hold all along the same runs when they agree at every
step from a state with the invariant, and the first of them keeps the invariant. -/
theorem System.Trace.every_iff {M : System σ ι} {I : σ → Prop} {P Q : σ → ι → σ → Prop}
    (agree : ∀ s e t, I s → M.step s e t → (P s e t ↔ Q s e t))
    (keep : ∀ s e t, I s → M.step s e t → P s e t → I t)
    {s : σ} {tr : List (ι × σ)} (hI : I s) (h : M.Trace s tr) : Every P s tr ↔ Every Q s tr := by
  induction tr generalizing s with
  | nil => exact Iff.rfl
  | cons x tr ih =>
    obtain ⟨e, t⟩ := x
    have hhead := agree s e t hI h.1
    constructor
    · rintro ⟨hP, hrest⟩
      exact ⟨hhead.mp hP, (ih (keep s e t hI h.1 hP) h.2).mp hrest⟩
    · rintro ⟨hQ, hrest⟩
      have hP := hhead.mpr hQ
      exact ⟨hP, (ih (keep s e t hI h.1 hP) h.2).mpr hrest⟩

/-- A property every step has from the states of an invariant holds all along a run. -/
theorem System.Trace.every_of_invariant {M : System σ ι} {I : σ → Prop}
    {P : σ → ι → σ → Prop} (keep : ∀ s e t, I s → M.step s e t → I t)
    (sound : ∀ s e t, I s → M.step s e t → P s e t)
    {s : σ} {tr : List (ι × σ)} (hI : I s) (h : M.Trace s tr) : Every P s tr := by
  induction tr generalizing s with
  | nil => trivial
  | cons x tr ih => exact ⟨sound _ _ _ hI h.1, ih (keep _ _ _ hI h.1) h.2⟩

/-- Forward simulation along an abstraction function: the image of a run is a
run of the abstract system with the same labels. -/
theorem System.Trace.simulate {M : System σ ι} {N : System τ ι} {I : σ → Prop} {abs : σ → τ}
    (keep : ∀ s e t, I s → M.step s e t → I t)
    (sim : ∀ s e t, I s → M.step s e t → N.step (abs s) e (abs t))
    {s : σ} {tr : List (ι × σ)} (hI : I s) (h : M.Trace s tr) :
    N.Trace (abs s) (tr.map (Prod.map id abs)) := by
  induction tr generalizing s with
  | nil => trivial
  | cons x tr ih => exact ⟨sim _ _ _ hI h.1, ih (keep _ _ _ hI h.1) h.2⟩

end RubiKernel.Lts
