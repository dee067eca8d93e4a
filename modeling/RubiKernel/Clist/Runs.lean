import Mathlib.Data.List.Rotate
import RubiKernel.Clist
import RubiKernel.Lib.Edit
import RubiKernel.Lib.Lts

/-! Runs of insertions and deletions on a cyclic list: it stays a ring, and keeps
its order from first to last as long as no deletion takes the head of a long list. -/

namespace RubiKernel.Clist

open Cyclic Edit Lts List

inductive Call
  | insertAfter (pos n : Word)
  | delete (pos : Word)

/-- A call, `pos` being a node of the list or the list empty; `syscall_malloc`
returns no slot of the list and not NULL. -/
def exec (ct : Clist) : Call → Option Clist
  | .insertAfter pos n =>
    if (pos ∈ ct.members ∨ ct.slots = 0) ∧ n ∉ 0 :: ct.members then
      some (ct.clistInsertAfter pos n)
    else none
  | .delete pos => if pos ∈ ct.members then some (ct.clistDelete pos) else none

def runs : System Clist Call where
  start ct := ct.slots = 0 ∧ ct.head = 0 ∧ ct.tail = 0
  step ct call ct' := exec ct call = some ct'

variable {ct ct' : Clist} {l l₁ l₂ : List Word} {pos n x : Word} {call : Call}

theorem step_insertAfter : runs.step ct (.insertAfter pos n) ct' ↔
    ((pos ∈ ct.members ∨ ct.slots = 0) ∧ n ∉ 0 :: ct.members) ∧
      ct.clistInsertAfter pos n = ct' := by
  show exec ct _ = some ct' ↔ _
  rw [exec, Option.ite_none_right_eq_some, Option.some.injEq]

theorem step_delete :
    runs.step ct (.delete pos) ct' ↔ pos ∈ ct.members ∧ ct.clistDelete pos = ct' := by
  show exec ct _ = some ct' ↔ _
  rw [exec, Option.ite_none_right_eq_some, Option.some.injEq]

theorem ringOf_start (h : runs.start ct) : RingOf ct [] where
  slots := by rw [h.1]; rfl
  head := h.2.1
  tail := .inr ⟨h.2.2, rfl⟩
  path := rfl
  distinct := by simp
  data := by simp

theorem RingOf.slots_eq_zero (h : RingOf ct l) : ct.slots = 0 ↔ l = [] := by
  constructor
  · intro hz
    by_contra hl
    exact h.slots_ne_zero hl hz
  · rintro rfl
    exact BitVec.eq_of_toNat_eq h.slots

/-- The last node of the list, when `tail` points at it. -/
def EndsAt (ct : Clist) (l : List Word) : Prop := ct.tail = l.getLastD 0

theorem endsAt_concat : EndsAt ct (l ++ [x]) ↔ ct.tail = x := by
  rw [EndsAt, List.getLastD_concat]

theorem RingOf.insert_empty (h : RingOf ct []) (hn : n ≠ 0) :
    RingOf (ct.clistInsertAfter pos n) [n] ∧ EndsAt (ct.clistInsertAfter pos n) [n] := by
  rw [Clist.clistInsertAfter, if_pos (.inr (h.slots_eq_zero.mpr rfl))]
  exact ⟨ringOf_clistInit ct hn, rfl⟩

theorem RingOf.insert_tail (h : RingOf ct (l₁ ++ pos :: l₂)) :
    (ct.clistInsertAfter pos n).tail = if ct.tail = pos then n else ct.tail := by
  have hpos : pos ≠ 0 := h.ne_zero (by simp)
  rw [Clist.clistInsertAfter, if_neg (not_or.mpr ⟨hpos, h.slots_ne_zero (by simp)⟩)]

theorem RingOf.insert_head (h : RingOf ct (l₁ ++ pos :: l₂)) :
    (ct.clistInsertAfter pos n).head = ct.head := by
  have hpos : pos ≠ 0 := h.ne_zero (by simp)
  rw [Clist.clistInsertAfter, if_neg (not_or.mpr ⟨hpos, h.slots_ne_zero (by simp)⟩)]

theorem RingOf.clistDelete_single_endsAt (h : RingOf ct [pos]) : EndsAt (ct.clistDelete pos) [] := by
  rw [EndsAt, Clist.clistDelete, if_pos (h.slots_eq_one.mpr rfl)]
  rfl

theorem EndsAt.insert (he : EndsAt ct (l₁ ++ pos :: l₂)) (h : RingOf ct (l₁ ++ pos :: l₂)) :
    EndsAt (ct.clistInsertAfter pos n) (l₁ ++ pos :: n :: l₂) := by
  have htail := h.insert_tail (n := n)
  rcases List.eq_nil_or_concat' l₂ with rfl | ⟨l, x, rfl⟩
  · rw [endsAt_concat.mp he, if_pos rfl] at htail
    have hsplit : l₁ ++ [pos, n] = (l₁ ++ [pos]) ++ [n] := by simp
    rw [hsplit, endsAt_concat, htail]
  · have hold : l₁ ++ pos :: (l ++ [x]) = (l₁ ++ pos :: l) ++ [x] := by simp
    have hnew : l₁ ++ pos :: n :: (l ++ [x]) = (l₁ ++ pos :: n :: l) ++ [x] := by simp
    have hne : x ≠ pos := by
      rintro rfl
      have hnodup := (List.nodup_append.mp h.nodup).2.1
      exact (List.nodup_cons.mp hnodup).1 (by simp)
    rw [hold, endsAt_concat] at he
    rw [hnew, endsAt_concat, htail, he, if_neg hne]

/-- Deletion of the head leaves `tail` on the new head. -/
theorem EndsAt.delete_head (he : EndsAt ct (pos :: (l ++ [x]))) (h : RingOf ct (pos :: (l ++ [x]))) :
    (ct.clistDelete pos).tail = x := by
  have htail : ct.tail = x := by
    rw [← List.cons_append, endsAt_concat] at he
    exact he
  rw [clistDelete_eq (h.slots_ne_one (by simp)) h.seek_head, htail, ite_self]

theorem EndsAt.delete_tail (he : EndsAt ct (l₁ ++ x :: pos :: l₂))
    (h : RingOf ct (l₁ ++ x :: pos :: l₂)) :
    EndsAt (ct.clistDelete pos) (l₁ ++ x :: l₂) := by
  have htail : (ct.clistDelete pos).tail = if pos = ct.tail then x else ct.tail := by
    rw [clistDelete_eq (h.slots_ne_one (by simp; omega)) h.seek_tail]
  rcases List.eq_nil_or_concat' l₂ with rfl | ⟨l, y, rfl⟩
  · have hold : l₁ ++ [x, pos] = (l₁ ++ [x]) ++ [pos] := by simp
    rw [hold, endsAt_concat] at he
    rw [endsAt_concat, htail, if_pos he.symm]
  · have hold : l₁ ++ x :: pos :: (l ++ [y]) = (l₁ ++ x :: pos :: l) ++ [y] := by simp
    have hnew : l₁ ++ x :: (l ++ [y]) = (l₁ ++ x :: l) ++ [y] := by simp
    have hne : pos ≠ y := by
      rintro rfl
      have hnodup := (List.nodup_append.mp h.nodup).2.1
      have hnodup := (List.nodup_cons.mp hnodup).2
      exact (List.nodup_cons.mp hnodup).1 (by simp)
    rw [hold, endsAt_concat] at he
    rw [hnew, endsAt_concat, htail, he, if_neg hne]

theorem RingOf.insert_cases (h : RingOf ct l) (hstep : runs.step ct (.insertAfter pos n) ct') :
    (l = [] ∧ RingOf ct' [n] ∧ EndsAt ct' [n]) ∨
      ∃ l₁ l₂, l = l₁ ++ pos :: l₂ ∧ RingOf ct' (l₁ ++ pos :: n :: l₂) ∧
        (EndsAt ct l → EndsAt ct' (l₁ ++ pos :: n :: l₂)) := by
  obtain ⟨⟨hpos, hn⟩, rfl⟩ := step_insertAfter.mp hstep
  rw [h.members_eq] at hpos hn
  by_cases hl : l = []
  · subst hl
    have hn₀ : n ≠ 0 := by simpa using hn
    exact .inl ⟨rfl, h.insert_empty hn₀⟩
  · have hpos := hpos.resolve_right (mt h.slots_eq_zero.mp hl)
    obtain ⟨l₁, l₂, rfl⟩ := List.append_of_mem hpos
    exact .inr ⟨l₁, l₂, rfl, h.clistInsertAfter hn, fun he => he.insert h⟩

theorem RingOf.delete_cases (h : RingOf ct l) (hstep : runs.step ct (.delete pos) ct') :
    (l = [pos] ∧ RingOf ct' [] ∧ EndsAt ct' []) ∨
      (∃ l₁ x, l = pos :: (l₁ ++ [x]) ∧ RingOf ct' (x :: l₁) ∧ (EndsAt ct l → ct'.tail = x)) ∨
      ∃ l₁ x l₂, l = l₁ ++ x :: pos :: l₂ ∧ RingOf ct' (l₁ ++ x :: l₂) ∧
        (EndsAt ct l → EndsAt ct' (l₁ ++ x :: l₂)) := by
  obtain ⟨hpos, rfl⟩ := step_delete.mp hstep
  rw [h.members_eq] at hpos
  obtain ⟨l₁, l₂, rfl⟩ := List.append_of_mem hpos
  rcases List.eq_nil_or_concat l₁ with rfl | ⟨l₁, x, rfl⟩
  · rcases List.eq_nil_or_concat l₂ with rfl | ⟨l₂, x, rfl⟩
    · exact .inl ⟨rfl, h.clistDelete_single, h.clistDelete_single_endsAt⟩
    · rw [List.concat_eq_append] at h ⊢
      exact .inr (.inl ⟨l₂, x, rfl, h.clistDelete_head, fun he => he.delete_head h⟩)
  · rw [List.concat_eq_append, List.append_assoc] at h ⊢
    exact .inr (.inr ⟨l₁, x, l₂, rfl, h.clistDelete_tail, fun he => he.delete_tail h⟩)

theorem RingOf.step (h : RingOf ct l) (hstep : runs.step ct call ct') : ∃ l', RingOf ct' l' := by
  cases call with
  | insertAfter pos n =>
    rcases h.insert_cases hstep with ⟨-, h', -⟩ | ⟨l₁, l₂, -, h', -⟩
    · exact ⟨_, h'⟩
    · exact ⟨_, h'⟩
  | delete pos =>
    rcases h.delete_cases hstep with ⟨-, h', -⟩ | ⟨l₁, x, -, h', -⟩ | ⟨l₁, x, l₂, -, h', -⟩
    · exact ⟨_, h'⟩
    · exact ⟨_, h'⟩
    · exact ⟨_, h'⟩

theorem ringOf_of_reachable (h : runs.Reachable ct) : ∃ l, RingOf ct l :=
  h.invariant (I := fun ct => ∃ l, RingOf ct l) (fun _ hs => ⟨[], ringOf_start hs⟩)
    fun _ _ _ ⟨_, hring⟩ hstep => hring.step hstep

/-- `slots` distinct nodes from `head` on, and back to it; `head` and `tail` are two of them. -/
structure Ring (ct : Clist) : Prop where
  distinct : ct.members.Nodup
  returns : ct.next^[ct.slots.toNat] ct.head = ct.head
  ends : ct.slots ≠ 0 → ct.head ∈ ct.members ∧ ct.tail ∈ ct.members
  empty : ct.slots = 0 → ct.head = 0 ∧ ct.tail = 0

theorem RingOf.length_members (h : RingOf ct l) : ct.members.length = ct.slots.toNat := by
  rw [h.members_eq, h.slots]

theorem RingOf.iterate_slots (h : RingOf ct l) : ct.next^[ct.slots.toNat] ct.head = ct.head := by
  rw [h.slots]
  exact h.path.iterate_length

theorem RingOf.toRing (h : RingOf ct l) : Ring ct where
  distinct := by
    rw [h.members_eq]
    exact h.nodup
  returns := h.iterate_slots
  ends := by
    intro hz
    have hl : l ≠ [] := mt h.slots_eq_zero.mpr hz
    rw [h.members_eq, h.head]
    refine ⟨?_, h.tail.resolve_right fun htail => hl htail.2⟩
    cases l with
    | nil => exact absurd rfl hl
    | cons i l => simp
  empty := by
    intro hz
    obtain rfl := h.slots_eq_zero.mp hz
    refine ⟨h.head, ?_⟩
    rcases h.tail with hmem | htail
    · exact absurd hmem (List.not_mem_nil)
    · exact htail.1

theorem RingOf.insert_members (h : RingOf ct l) (hstep : runs.step ct (.insertAfter pos n) ct') :
    (ct.members = [] ∧ ct'.members = [n]) ∨
      ∃ l₁ l₂, ct.members = l₁ ++ pos :: l₂ ∧ ct'.members = l₁ ++ pos :: n :: l₂ := by
  rw [h.members_eq]
  rcases h.insert_cases hstep with ⟨hl, h', -⟩ | ⟨l₁, l₂, hl, h', -⟩
  · exact .inl ⟨hl, h'.members_eq⟩
  · exact .inr ⟨l₁, l₂, hl, h'.members_eq⟩

theorem RingOf.delete_members (h : RingOf ct l) (hstep : runs.step ct (.delete pos) ct') :
    ct'.members ~r ct.members.erase pos := by
  rw [h.members_eq]
  rcases h.delete_cases hstep with ⟨rfl, h', -⟩ | ⟨l₁, x, rfl, h', -⟩ | ⟨l₁, x, l₂, rfl, h', -⟩
  · rw [h'.members_eq, List.erase_cons_head]
  · rw [h'.members_eq, List.erase_cons_head]
    exact List.isRotated_append (l := [x])
  · have hsplit : l₁ ++ x :: pos :: l₂ = (l₁ ++ [x]) ++ pos :: l₂ := by simp
    have hnodup := h.nodup
    rw [hsplit] at hnodup ⊢
    rw [h'.members_eq, erase_append hnodup, List.append_assoc]
    exact .refl _

theorem clist_ring (h : runs.Reachable ct) :
    Ring ct ∧ ct.members.length = ct.slots.toNat ∧
      (∀ pos n ct', runs.step ct (.insertAfter pos n) ct' →
        (ct.members = [] ∧ ct'.members = [n]) ∨
          ∃ l₁ l₂, ct.members = l₁ ++ pos :: l₂ ∧ ct'.members = l₁ ++ pos :: n :: l₂) ∧
      ∀ pos ct', runs.step ct (.delete pos) ct' →
        pos ∈ ct.members ∧ ct'.members ~r ct.members.erase pos := by
  obtain ⟨l, hring⟩ := ringOf_of_reachable h
  exact ⟨hring.toRing, hring.length_members, fun _ _ _ hstep => hring.insert_members hstep,
    fun _ _ hstep => ⟨(step_delete.mp hstep).1, hring.delete_members hstep⟩⟩

def zeroed : Clist where
  slots := 0
  head := 0
  tail := 0
  node := fun _ => ⟨0, 0⟩

def threeNodes : List Call := [.insertAfter 0 16, .insertAfter 16 32, .insertAfter 32 48]

theorem clist_ring_example : ∃ ct, runs.Reachable ct ∧ ct.members = [16, 32, 48] ∧ Ring ct := by
  have hrun : (replay exec zeroed threeNodes).any (fun tr =>
      (final zeroed tr).members = [16, 32, 48]) = true := by decide
  obtain ⟨tr, -, htrace, hmembers⟩ :=
    System.Trace.exists_of_replay (M := runs) (fun _ _ _ h => h) hrun
  have hstart : runs.start zeroed := ⟨rfl, rfl, rfl⟩
  have hreach := htrace.final_reachable (.start hstart)
  exact ⟨_, hreach, hmembers, (clist_ring hreach).1⟩

section Order

/-- What a call does to the list read from first to last. -/
def Call.apply : Call → List Word → List Word
  | .insertAfter pos n, l => if l = [] then [n] else Edit.insertAfter pos n l
  | .delete pos, l => l.erase pos

def orderedExec (s : Clist × List Word) (call : Call) : Option (Clist × List Word) :=
  (exec s.1 call).map fun ct => (ct, call.apply s.2)

def orderedRuns : System (Clist × List Word) Call where
  start s := runs.start s.1 ∧ s.2 = []
  step s call t := orderedExec s call = some t

theorem orderedRuns_step {s t : Clist × List Word} (h : orderedRuns.step s call t) :
    runs.step s.1 call t.1 ∧ call.apply s.2 = t.2 := by
  obtain ⟨ct, hct, rfl⟩ := Option.map_eq_some_iff.mp h
  exact ⟨hct, rfl⟩

/-- The list reads as `l` from its head to its tail, and leads back to its head. -/
structure InOrder (ct : Clist) (l : List Word) : Prop where
  get : (List.range ct.slots.toNat).map (fun k => ct.clistGet (BitVec.ofNat 32 k)) = l
  head : ct.head = l.headD 0
  tail : ct.tail = l.getLastD 0
  closed : l ≠ [] → ct.next ct.tail = ct.head

/-- The call is no deletion of the head of a list of three nodes or more. -/
def KeepsOrder (s : Clist × List Word) (call : Call) (_ : Clist × List Word) : Prop :=
  match call with
  | .insertAfter _ _ => True
  | .delete pos => pos = s.1.head → s.1.slots.toNat ≤ 2

theorem map_clistGet (ct : Clist) :
    (List.range ct.slots.toNat).map (fun k => ct.clistGet (BitVec.ofNat 32 k)) = ct.members := by
  rw [members, ← List.range_map_iterate]
  refine List.map_congr_left fun k hk => ?_
  have hlt := List.mem_range.mp hk
  have hk : (BitVec.ofNat 32 k).toNat = k := by
    rw [BitVec.toNat_ofNat]
    exact Nat.mod_eq_of_lt (hlt.trans ct.slots.isLt)
  have hle : ¬ct.slots ≤ BitVec.ofNat 32 k := by
    rw [BitVec.le_def, hk]
    omega
  rw [clistGet, if_neg hle, hk]

theorem RingOf.next_tail (h : RingOf ct l) (he : EndsAt ct l) (hl : l ≠ []) :
    ct.next ct.tail = ct.head := by
  obtain ⟨l, x, rfl⟩ := (List.eq_nil_or_concat' l).resolve_left hl
  obtain ⟨m, -, hlast⟩ := path_append.mp h.path
  obtain ⟨rfl, hlast⟩ := path_cons.mp hlast
  rw [endsAt_concat.mp he]
  exact path_nil.mp hlast

theorem RingOf.inOrder (h : RingOf ct l) (he : EndsAt ct l) : InOrder ct l where
  get := by rw [map_clistGet, h.members_eq]
  head := h.head
  tail := he
  closed := h.next_tail he

theorem RingOf.inOrder_iff (h : RingOf ct l) : InOrder ct l₁ ↔ l₁ = l ∧ EndsAt ct l := by
  constructor
  · intro ho
    have hl : l₁ = l := by rw [← ho.get, map_clistGet, h.members_eq]
    subst hl
    exact ⟨rfl, ho.tail⟩
  · rintro ⟨rfl, he⟩
    exact h.inOrder he

/-- A step keeps the order exactly when it is no deletion of the head of a long list. -/
theorem RingOf.step_order {s t : Clist × List Word} (h : RingOf s.1 s.2) (he : EndsAt s.1 s.2)
    (hstep : orderedRuns.step s call t) : InOrder t.1 t.2 ↔ KeepsOrder s call t := by
  obtain ⟨ct, l⟩ := s
  obtain ⟨ct', l'⟩ := t
  obtain ⟨hstep, rfl⟩ := orderedRuns_step hstep
  cases call with
  | insertAfter pos n =>
    refine iff_of_true ?_ trivial
    rcases h.insert_cases hstep with ⟨rfl, h', he'⟩ | ⟨l₁, l₂, rfl, h', he'⟩
    · exact h'.inOrder he'
    · have hne : l₁ ++ pos :: l₂ ≠ [] := by simp
      simp only [Call.apply, if_neg hne, insertAfter_append h.nodup]
      exact h'.inOrder (he' he)
  | delete pos =>
    rcases h.delete_cases hstep with
      ⟨rfl, h', he'⟩ | ⟨l₁, x, rfl, h', he'⟩ | ⟨l₁, x, l₂, rfl, h', he'⟩
    · refine iff_of_true ?_ fun _ => by simp [h.slots]
      simpa [Call.apply] using h'.inOrder he'
    · have hhead : pos = ct.head := h.head.symm
      have hlen : ct.slots.toNat = l₁.length + 2 := by simp [h.slots]
      simp only [KeepsOrder, Call.apply, List.erase_cons_head, h'.inOrder_iff, hlen]
      rcases l₁ with - | ⟨i, l₁⟩
      · refine iff_of_true ⟨rfl, he' he⟩ fun _ => by simp
      · refine iff_of_false (fun hx => ?_) fun hle => by simpa using hle hhead
        have hi : i = x := List.head_eq_of_cons_eq hx.1
        have hnodup := (List.nodup_cons.mp h.nodup).2
        exact (List.nodup_cons.mp hnodup).1 (by simp [hi])
    · have hsplit : l₁ ++ x :: pos :: l₂ = (l₁ ++ [x]) ++ pos :: l₂ := by simp
      have hnodup := h.nodup
      rw [hsplit] at hnodup
      refine iff_of_true ?_ fun hhead => absurd hhead h.pos_ne_head
      have herase : (l₁ ++ x :: pos :: l₂).erase pos = l₁ ++ x :: l₂ := by
        rw [hsplit, erase_append hnodup, List.append_assoc]
        rfl
      simp only [Call.apply, herase]
      exact h'.inOrder (he' he)

/-- The list stays in order all along a run exactly when no step deletes the head
of a list of three nodes or more. -/
theorem clist_order_iff {s : Clist × List Word} {tr : List (Call × (Clist × List Word))}
    (hs : orderedRuns.start s) (htr : orderedRuns.Trace s tr) :
    Every (fun _ _ t => InOrder t.1 t.2) s tr ↔ Every KeepsOrder s tr := by
  refine htr.every_iff (I := fun s => RingOf s.1 s.2 ∧ EndsAt s.1 s.2)
    (fun s call t h hstep => h.1.step_order h.2 hstep) (fun s call t h hstep ho => ?_) ?_
  · obtain ⟨l, h'⟩ := h.1.step (orderedRuns_step hstep).1
    obtain ⟨rfl, he⟩ := h'.inOrder_iff.mp ho
    exact ⟨h', he⟩
  · obtain ⟨hstart, hl⟩ := hs
    rw [hl]
    exact ⟨ringOf_start hstart, hstart.2.2⟩

instance {s t : Clist × List Word} : Decidable (KeepsOrder s call t) :=
  match call with
  | .insertAfter _ _ => inferInstanceAs (Decidable True)
  | .delete _ => inferInstanceAs (Decidable (_ → _))

/-- Two nodes, and the first of them deleted. -/
theorem clist_order_iff_example : ∃ tr, orderedRuns.Trace (zeroed, []) tr ∧ tr.length = 3 ∧
    Every (fun _ _ t => InOrder t.1 t.2) (zeroed, []) tr := by
  have hrun : (replay orderedExec (zeroed, [])
      [.insertAfter 0 16, .insertAfter 16 32, .delete 16]).any (fun tr =>
        tr.length = 3 ∧ Every KeepsOrder (zeroed, []) tr) = true := by decide
  obtain ⟨tr, -, htrace, hlen, hkeeps⟩ :=
    System.Trace.exists_of_replay (M := orderedRuns) (fun _ _ _ h => h) hrun
  exact ⟨tr, htrace, hlen, (clist_order_iff ⟨⟨rfl, rfl, rfl⟩, rfl⟩ htrace).mpr hkeeps⟩

theorem clist_delete_head_reorders : ¬∀ s tr, orderedRuns.start s → orderedRuns.Trace s tr →
    Every (fun _ _ t => InOrder t.1 t.2) s tr := by
  intro hall
  have hrun : (replay orderedExec (zeroed, []) (threeNodes ++ [.delete 16])).any (fun tr =>
      (final (zeroed, []) tr).1.head = 48 ∧ (final (zeroed, []) tr).2 = [32, 48]) = true := by decide
  obtain ⟨tr, -, htrace, hhead, hlist⟩ :=
    System.Trace.exists_of_replay (M := orderedRuns) (fun _ _ _ h => h) hrun
  have horder := (hall _ tr ⟨⟨rfl, rfl, rfl⟩, rfl⟩ htrace).final (by rintro rfl; simp [final] at hlist)
  have hfirst := horder.head
  rw [hhead, hlist] at hfirst
  exact absurd hfirst (by decide)

end Order

end RubiKernel.Clist
