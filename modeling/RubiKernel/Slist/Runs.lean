import RubiKernel.Lib.Edit
import RubiKernel.Lib.Lts
import RubiKernel.Slist

/-! Runs of the operations of the static list beside the same runs of finite lists. -/

universe u

namespace RubiKernel.SlistDef

open Edit Linked Lts

variable {α : Type u} [Inhabited α]

inductive Call
  | insertAfter (pos : Option Nat)
  | insertBefore (pos : Option Nat)
  | delete (pos : Nat)

/-- The list after an insertion that returned `r`. -/
def insertedAfter (pos r : Option Nat) (l : List Nat) : List Nat :=
  match r, pos with
  | none, _ => l
  | some n, none => n :: l
  | some n, some p => insertAfter p n l

def insertedBefore (pos r : Option Nat) (l : List Nat) : List Nat :=
  match r, pos with
  | none, _ => l
  | some n, none => l ++ [n]
  | some n, some p => insertBefore p n l

/-- A call, `pos` being a member of the list or NULL. -/
def exec (s : SlistDef α × List Nat) : Call → Option (SlistDef α × List Nat)
  | .insertAfter pos =>
    if ∀ p ∈ pos, p ∈ s.2 then
      let r := slistInsertAfter s.1 pos
      some (r.1, insertedAfter pos r.2 s.2)
    else none
  | .insertBefore pos =>
    if ∀ p ∈ pos, p ∈ s.2 then
      let r := slistInsertBefore s.1 pos
      some (r.1, insertedBefore pos r.2 s.2)
    else none
  | .delete pos => if pos ∈ s.2 then some (slistDelete s.1 (some pos), s.2.erase pos) else none

/-- From a zeroed table of at least one slot. -/
def runs : System (SlistDef α × List Nat) Call where
  start s :=
    1 ≤ s.1.slots ∧ (∀ i < s.1.slots, s.1.links i = default) ∧ s.1.head = none ∧
      s.1.tail = none ∧ s.2 = []
  step s call t := exec s call = some t

/-- The nodes from `head` by `next` are `l`, those from `tail` by `prev` its reverse,
and the valid slots its members. -/
structure Refines (s : SlistDef α) (l : List Nat) : Prop where
  forwards : Seg some (fun i => (s.links i).next) s.head l none
  backwards : Seg some (fun i => (s.links i).prev) s.tail l.reverse none
  valid : ∀ i, i ∈ l ↔ i < s.slots ∧ (s.links i).isValid = true

/-- An insertion uses a slot that was no member, or finds none and changes nothing. -/
def Inserts (s : SlistDef α) (l : List Nat) (r : SlistDef α × Option Nat) : Prop :=
  (l.length < s.slots → ∃ n, r.2 = some n ∧ n < s.slots ∧ n ∉ l) ∧
    (l.length = s.slots → r = (s, none))

variable {s t : SlistDef α × List Nat} {d : SlistDef α} {l l₁ l₂ : List Nat} {n : Nat}
  {pos : Option Nat} {call : Call}

theorem repr_start (h : runs.start s) : s.1.Repr s.2 := by
  obtain ⟨-, hlinks, hhead, htail, hlist⟩ := h
  rw [hlist]
  refine ⟨List.nodup_nil, trivial, hhead, htail, by simp, fun i hi => ?_, by simp⟩
  rw [hlinks i hi]
  exact iff_of_false (by decide) (by simp)

omit [Inhabited α] in
theorem Repr.refines (h : d.Repr l) : Refines d l where
  forwards := by
    have hseg := h.linked.seg
    rwa [Option.or_none, ← h.head] at hseg
  backwards := by
    have hseg := h.linked.seg_reverse
    rwa [Option.or_none, ← h.tail] at hseg
  valid i := ⟨fun hi => ⟨h.bound i hi, (h.valid i (h.bound i hi)).mpr hi⟩,
    fun hi => (h.valid i hi.1).mp hi.2⟩

omit [Inhabited α] in
theorem Repr.findFree_cases (h : d.Repr l) :
    (∃ n, d.findFree = some n ∧ n < d.slots ∧ n ∉ l ∧ l.length < d.slots) ∨
      d.findFree = none ∧ l.length = d.slots := by
  cases hn : d.findFree with
  | none => exact .inr ⟨rfl, h.length_eq hn⟩
  | some n =>
    have hfree := h.free_not_mem hn
    have hlt := (findFree_eq_some hn).1
    refine .inl ⟨n, rfl, hlt, hfree, ?_⟩
    have hsub : n :: l ⊆ List.range d.slots := by
      refine List.cons_subset.mpr ⟨List.mem_range.mpr hlt, fun i hi => ?_⟩
      exact List.mem_range.mpr (h.bound i hi)
    have hnodup := List.nodup_cons.mpr ⟨hfree, h.nodup⟩
    have hle := (List.subperm_of_subset hnodup hsub).length_le
    rw [List.length_cons, List.length_range] at hle
    exact hle

theorem Repr.insertion (h : d.Repr (l₁ ++ l₂)) :
    Inserts d (l₁ ++ l₂) (slistInsertAfter d l₁.getLast?) ∧
      (slistInsertAfter d l₁.getLast?).1.Repr
        ((slistInsertAfter d l₁.getLast?).2.elim (l₁ ++ l₂) fun n => l₁ ++ n :: l₂) := by
  rcases h.findFree_cases with ⟨n, hn, hlt, hnot, hlen⟩ | ⟨hfull, hlen⟩
  · obtain ⟨s', heq, -, hrepr, -⟩ := h.insertAfter_spec hn
    rw [heq]
    exact ⟨⟨fun _ => ⟨n, rfl, hlt, hnot⟩, fun hfull => absurd hfull hlen.ne⟩, hrepr⟩
  · rw [slistInsertAfter_full hfull]
    exact ⟨⟨fun hlt => absurd hlen hlt.ne, fun _ => rfl⟩, h⟩

omit [Inhabited α] in
theorem Repr.insertAfter_cases (h : d.Repr l) (hpos : ∀ p ∈ pos, p ∈ l) :
    ∃ l₁ l₂, l = l₁ ++ l₂ ∧ pos = l₁.getLast? ∧
      ∀ r, insertedAfter pos r l = r.elim l fun n => l₁ ++ n :: l₂ := by
  cases pos with
  | none =>
    refine ⟨[], l, rfl, rfl, fun r => ?_⟩
    cases r <;> rfl
  | some p =>
    obtain ⟨l₁, l₂, rfl⟩ := List.append_of_mem (hpos p rfl)
    refine ⟨l₁ ++ [p], l₂, by simp, by simp, fun r => ?_⟩
    cases r with
    | none => rfl
    | some n =>
      show Edit.insertAfter p n _ = _
      rw [insertAfter_append h.nodup]
      simp

omit [Inhabited α] in
theorem Repr.insertBefore_cases (h : d.Repr l) (hpos : ∀ p ∈ pos, p ∈ l) :
    ∃ l₁ l₂, l = l₁ ++ l₂ ∧ pos = l₂.head? ∧
      ∀ r, insertedBefore pos r l = r.elim l fun n => l₁ ++ n :: l₂ := by
  cases pos with
  | none =>
    refine ⟨l, [], by simp, rfl, fun r => ?_⟩
    cases r <;> rfl
  | some p =>
    obtain ⟨l₁, l₂, rfl⟩ := List.append_of_mem (hpos p rfl)
    refine ⟨l₁, p :: l₂, rfl, rfl, fun r => ?_⟩
    cases r with
    | none => rfl
    | some n =>
      show Edit.insertBefore p n _ = _
      rw [insertBefore_append h.nodup]
      rfl

theorem Repr.step (h : s.1.Repr s.2) (hstep : runs.step s call t) : t.1.Repr t.2 := by
  cases call with
  | insertAfter pos =>
    obtain ⟨hpos, heq⟩ := Option.ite_none_right_eq_some.mp hstep
    obtain rfl := Option.some.inj heq
    obtain ⟨l₁, l₂, hl, rfl, hinserted⟩ := h.insertAfter_cases hpos
    simp only [hinserted]
    rw [hl] at h ⊢
    exact h.insertion.2
  | insertBefore pos =>
    obtain ⟨hpos, heq⟩ := Option.ite_none_right_eq_some.mp hstep
    obtain rfl := Option.some.inj heq
    obtain ⟨l₁, l₂, hl, rfl, hinserted⟩ := h.insertBefore_cases hpos
    simp only [hinserted]
    rw [hl] at h ⊢
    rw [h.insertBefore_eq]
    exact h.insertion.2
  | delete pos =>
    obtain ⟨hpos, heq⟩ := Option.ite_none_right_eq_some.mp hstep
    obtain rfl := Option.some.inj heq
    obtain ⟨l₁, l₂, hl⟩ := List.append_of_mem hpos
    simp only
    rw [hl] at h ⊢
    rw [erase_append h.nodup]
    exact h.delete

theorem repr_of_reachable (h : runs.Reachable s) : s.1.Repr s.2 :=
  h.invariant (I := fun s => s.1.Repr s.2) (fun _ hs => repr_start hs) fun _ _ _ h hstep =>
    h.step hstep

/-- The static list is the list of its operations, as long as its table has slots. -/
theorem slist_refines (h : runs.Reachable s) :
    Refines s.1 s.2 ∧ (∀ pos, (∀ p ∈ pos, p ∈ s.2) →
      Inserts s.1 s.2 (slistInsertAfter s.1 pos) ∧ Inserts s.1 s.2 (slistInsertBefore s.1 pos)) := by
  have hrepr := repr_of_reachable h
  refine ⟨hrepr.refines, fun pos hpos => ⟨?_, ?_⟩⟩
  · obtain ⟨l₁, l₂, hl, rfl, -⟩ := hrepr.insertAfter_cases hpos
    rw [hl] at hrepr ⊢
    exact hrepr.insertion.1
  · obtain ⟨l₁, l₂, hl, rfl, -⟩ := hrepr.insertBefore_cases hpos
    rw [hl] at hrepr ⊢
    rw [hrepr.insertBefore_eq]
    exact hrepr.insertion.1

def twoSlots : SlistDef Unit where
  slots := 2
  head := none
  tail := none
  links := fun _ => default
  body := fun _ => ()

theorem slist_refines_example : ∃ s : SlistDef Unit × List Nat, runs.Reachable s ∧ s.2 = [1, 0] ∧
    slistInsertBefore s.1 none = (s.1, none) := by
  have hrun : (replay exec (twoSlots, []) [.insertAfter none, .insertBefore (some 0)]).any
      (fun tr => (final (twoSlots, []) tr).1.slots = 2 ∧ (final (twoSlots, []) tr).2 = [1, 0]) =
        true := by decide
  obtain ⟨tr, -, htrace, hslots, hlist⟩ :=
    System.Trace.exists_of_replay (M := runs) (fun _ _ _ h => h) hrun
  have hstart : runs.start (twoSlots, []) := ⟨by decide, fun _ _ => rfl, rfl, rfl, rfl⟩
  have hreach := htrace.final_reachable (.start hstart)
  refine ⟨_, hreach, hlist, ((slist_refines hreach).2 none (by simp)).2.2 ?_⟩
  rw [hlist, hslots]
  rfl

end RubiKernel.SlistDef
