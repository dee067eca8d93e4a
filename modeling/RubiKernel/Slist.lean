import Mathlib.Data.List.Perm.Subperm
import Mathlib.Logic.Function.Basic
import RubiKernel.Lib.Linked

/-! `lib/slist.c`: the static doubly linked list. The table at `base` holds
`slots` equal slots; a pointer into it is the number of its slot and NULL is
`none`. -/

universe u

namespace RubiKernel

open Linked

structure SlistHead where
  prev : Option Nat
  next : Option Nat
  isValid : Bool
  data : Option Nat
  deriving DecidableEq

/-- What `memset(.., 0, ..)` leaves. -/
instance : Inhabited SlistHead := ⟨⟨none, none, false, none⟩⟩

/-- A `slist_def_t` with the table it stands for: each slot is a `slist_head_t`
followed by the user's part, whose zeroed value is `default`. -/
structure SlistDef (α : Type u) where
  slots : Nat
  head : Option Nat
  tail : Option Nat
  links : Nat → SlistHead
  body : Nat → α

variable {α : Type u}

namespace SlistDef

/-- A write through a pointer that the code has tested against NULL. -/
def modifyAt (s : SlistDef α) (p : Option Nat) (f : SlistHead → SlistHead) : SlistDef α :=
  { s with links := fun i => if some i = p then f (s.links i) else s.links i }

def modifyBody (s : SlistDef α) (p : Nat) (f : α → α) : SlistDef α :=
  { s with body := fun i => if i = p then f (s.body i) else s.body i }

def clear [Inhabited α] (s : SlistDef α) (p : Option Nat) : SlistDef α :=
  { s with
    links := fun i => if some i = p then default else s.links i
    body := fun i => if some i = p then default else s.body i }

def toList (s : SlistDef α) : List Nat :=
  walk (fun i => (s.links i).next) s.slots s.head

def findFree (s : SlistDef α) : Option Nat :=
  (List.range' 0 s.slots).find? fun i => !(s.links i).isValid

section

variable (s : SlistDef α) (p : Option Nat) (f : SlistHead → SlistHead) (i n : Nat) (g : α → α)

@[simp] theorem modifyAt_links :
    (s.modifyAt p f).links i = if some i = p then f (s.links i) else s.links i := rfl
@[simp] theorem modifyAt_head : (s.modifyAt p f).head = s.head := rfl
@[simp] theorem modifyAt_tail : (s.modifyAt p f).tail = s.tail := rfl
@[simp] theorem modifyAt_slots : (s.modifyAt p f).slots = s.slots := rfl
@[simp] theorem modifyAt_body : (s.modifyAt p f).body = s.body := rfl

@[simp] theorem modifyBody_body :
    (s.modifyBody n g).body i = if i = n then g (s.body i) else s.body i := rfl
@[simp] theorem modifyBody_links : (s.modifyBody n g).links = s.links := rfl
@[simp] theorem modifyBody_head : (s.modifyBody n g).head = s.head := rfl
@[simp] theorem modifyBody_tail : (s.modifyBody n g).tail = s.tail := rfl
@[simp] theorem modifyBody_slots : (s.modifyBody n g).slots = s.slots := rfl

@[simp] theorem modifyBody_findFree : (s.modifyBody n g).findFree = s.findFree := rfl

@[simp] theorem modifyBody_modifyBody (f : α → α) :
    (s.modifyBody n f).modifyBody n g = s.modifyBody n fun a => g (f a) := by
  simp only [modifyBody, mk.injEq, true_and]
  funext i
  split <;> rfl

variable [Inhabited α]

@[simp] theorem clear_links :
    (s.clear p).links i = if some i = p then default else s.links i := rfl
@[simp] theorem clear_body :
    (s.clear p).body i = if some i = p then default else s.body i := rfl
@[simp] theorem clear_head : (s.clear p).head = s.head := rfl
@[simp] theorem clear_tail : (s.clear p).tail = s.tail := rfl
@[simp] theorem clear_slots : (s.clear p).slots = s.slots := rfl

end

end SlistDef

def slistInsertAfter [Inhabited α] (s : SlistDef α) (pos : Option Nat) :
    SlistDef α × Option Nat :=
  match s.findFree with
  | none => (s, none)
  | some elem =>
    let s := s.clear (some elem)
    let s := s.modifyAt (some elem) fun h => { h with isValid := true, data := some elem }
    let prev := pos
    let next := pos.elim s.head fun p => (s.links p).next
    let s := s.modifyAt (some elem) fun h => { h with prev := prev, next := next }
    let s := s.modifyAt prev fun h => { h with next := some elem }
    let s := s.modifyAt next fun h => { h with prev := some elem }
    ({ s with
      tail := if pos = s.tail then some elem else s.tail
      head := if s.head = none ∨ pos = none then some elem else s.head }, some elem)

def slistInsertBefore [Inhabited α] (s : SlistDef α) (pos : Option Nat) :
    SlistDef α × Option Nat :=
  match s.findFree with
  | none => (s, none)
  | some elem =>
    let s := s.clear (some elem)
    let s := s.modifyAt (some elem) fun h => { h with isValid := true, data := some elem }
    let next := pos
    let prev := pos.elim s.tail fun p => (s.links p).prev
    let s := s.modifyAt (some elem) fun h => { h with prev := prev, next := next }
    let s := s.modifyAt prev fun h => { h with next := some elem }
    let s := s.modifyAt next fun h => { h with prev := some elem }
    ({ s with
      head := if s.head = pos then some elem else s.head
      tail := if s.tail = none ∨ pos = none then some elem else s.tail }, some elem)

def slistDelete [Inhabited α] (s : SlistDef α) (pos : Option Nat) : SlistDef α :=
  match pos with
  | none => s
  | some x =>
    let prev := (s.links x).prev
    let next := (s.links x).next
    let s := s.modifyAt pos fun h => { h with isValid := false }
    let s := s.modifyAt prev fun h => { h with next := next }
    let s := s.modifyAt next fun h => { h with prev := prev }
    let s := { s with
      head := if pos = s.head then next else s.head
      tail := if pos = s.tail then prev else s.tail }
    s.clear (s.links x).data

namespace SlistDef

/-- `s` holds the list of slots `l`: its links thread `l` both ways, and the
valid slots are exactly those of `l`. -/
structure Repr (s : SlistDef α) (l : List Nat) : Prop where
  nodup : l.Nodup
  linked : DSeg (fun i => (s.links i).prev) (fun i => (s.links i).next) none l none
  head : s.head = l.head?
  tail : s.tail = l.getLast?
  bound : ∀ i ∈ l, i < s.slots
  valid : ∀ i < s.slots, (s.links i).isValid = true ↔ i ∈ l
  data : ∀ i ∈ l, (s.links i).data = some i

variable {s : SlistDef α} {l l₁ l₂ : List Nat} {n : Nat}

theorem findFree_eq_some (h : s.findFree = some n) : n < s.slots ∧ (s.links n).isValid = false := by
  have hmem := List.mem_of_find?_eq_some h
  have hp := List.find?_some h
  exact ⟨by simpa using hmem, by simpa using hp⟩

theorem findFree_eq_none (h : s.findFree = none) : ∀ i < s.slots, (s.links i).isValid = true := by
  intro i hi
  have := List.find?_eq_none.mp h i (by simpa using hi)
  simpa using this

theorem Repr.length_le (h : s.Repr l) : l.length ≤ s.slots := by
  have hsub : l ⊆ List.range s.slots := fun i hi => List.mem_range.mpr (h.bound i hi)
  simpa using (List.subperm_of_subset h.nodup hsub).length_le

theorem Repr.length_eq (h : s.Repr l) (hfull : s.findFree = none) : l.length = s.slots := by
  refine Nat.le_antisymm h.length_le ?_
  have hsub : List.range s.slots ⊆ l := fun i hi =>
    (h.valid i (List.mem_range.mp hi)).mp (findFree_eq_none hfull i (List.mem_range.mp hi))
  simpa using (List.subperm_of_subset List.nodup_range hsub).length_le

theorem Repr.valid_of_length_eq (h : s.Repr l) (hlen : l.length = s.slots) :
    ∀ i < s.slots, (s.links i).isValid = true := by
  intro i hi
  have hsub : l ⊆ List.range s.slots := fun j hj => List.mem_range.mpr (h.bound j hj)
  have hperm := (List.subperm_of_subset h.nodup hsub).perm_of_length_le (by simp [hlen])
  exact (h.valid i hi).mpr (hperm.mem_iff.mpr (List.mem_range.mpr hi))

theorem Repr.toList_eq (h : s.Repr l) : s.toList = l := by
  have hseg := h.linked.seg
  rw [Option.or_none, ← h.head] at hseg
  exact hseg.walk_eq h.length_le

theorem Repr.modifyBody (h : s.Repr l) (i : Nat) (g : α → α) : (s.modifyBody i g).Repr l :=
  ⟨h.nodup, h.linked, h.head, h.tail, h.bound, h.valid, h.data⟩

theorem Repr.free_not_mem (h : s.Repr l) (hn : s.findFree = some n) : n ∉ l := by
  obtain ⟨hlt, hv⟩ := findFree_eq_some hn
  intro hmem
  rw [(h.valid n hlt).mpr hmem] at hv
  cases hv

theorem Repr.prev_of_append (h : s.Repr (l₁ ++ n :: l₂)) : (s.links n).prev = l₁.getLast? := by
  simpa using (dseg_append.mp h.linked).2.1

theorem Repr.next_of_append (h : s.Repr (l₁ ++ n :: l₂)) : (s.links n).next = l₂.head? := by
  simpa using (dseg_append.mp h.linked).2.2.1

theorem Repr.next_of_getLast? (h : s.Repr (l₁ ++ l₂)) :
    (l₁.getLast?.elim s.head fun p => (s.links p).next) = l₂.head? := by
  rcases l₁.eq_nil_or_concat' with rfl | ⟨l, p, rfl⟩
  · simpa using h.head
  · rw [List.append_assoc] at h
    simpa using h.next_of_append

theorem getLast?_or_ne_nil {l₁ l₂ : List Nat} (h : (l₁ ++ l₂).Nodup) (hl : l₂ ≠ []) :
    l₁.getLast? ≠ (l₁ ++ l₂).getLast? := by
  obtain ⟨-, -, hdisj⟩ := List.nodup_append.mp h
  rw [List.getLast?_append_of_ne_nil _ hl]
  intro heq
  cases hx : l₂.getLast? with
  | none => exact hl (List.getLast?_eq_none_iff.mp hx)
  | some x =>
    rw [hx] at heq
    exact hdisj x (List.mem_of_getLast? heq) x (List.mem_of_getLast? hx) rfl

theorem modifyAt_data {f : SlistHead → SlistHead} (hf : ∀ h, (f h).data = h.data)
    (p : Option Nat) (i : Nat) : ((s.modifyAt p f).links i).data = (s.links i).data := by
  rw [modifyAt_links]
  split
  · exact hf _
  · rfl

theorem map_of_not_mem {f g : Nat → α} (hn : n ∉ l) (heq : ∀ i ≠ n, f i = g i) :
    l.map f = l.map g :=
  List.map_congr_left fun i hi => heq i fun hin => hn (hin ▸ hi)

theorem Repr.not_mem_of_append (h : s.Repr (l₁ ++ n :: l₂)) : n ∉ l₁ ∧ n ∉ l₂ := by
  have hnodup := (List.perm_middle.nodup_iff.mp h.nodup)
  simpa using (List.nodup_cons.mp hnodup).1

theorem Repr.map_modifyBody (h : s.Repr (l₁ ++ n :: l₂)) (g : α → α) :
    (l₁ ++ n :: l₂).map (s.modifyBody n g).body =
      l₁.map s.body ++ g (s.body n) :: l₂.map s.body := by
  obtain ⟨h₁, h₂⟩ := h.not_mem_of_append
  have heq : ∀ i ≠ n, (s.modifyBody n g).body i = s.body i := fun i hi => by simp [hi]
  rw [List.map_append, List.map_cons, map_of_not_mem h₁ heq, map_of_not_mem h₂ heq]
  simp

variable [Inhabited α]

theorem Repr.insertAfter_next (h : s.Repr (l₁ ++ l₂)) (hn : s.findFree = some n) :
    let s' := (s.clear (some n)).modifyAt (some n) fun h =>
      { h with isValid := true, data := some n }
    (l₁.getLast?.elim s'.head fun p => (s'.links p).next) = l₂.head? := by
  intro s'
  rw [← h.next_of_getLast?]
  cases hp : l₁.getLast? with
  | none => rfl
  | some p =>
    have hne : p ≠ n := by
      rintro rfl
      exact h.free_not_mem hn (by simp [List.mem_of_getLast? hp])
    simp [s', hne]

theorem Repr.insertAfter_links (h : s.Repr (l₁ ++ l₂)) (hn : s.findFree = some n) (i : Nat) :
    (slistInsertAfter s l₁.getLast?).1.links i =
      if i = n then ⟨l₁.getLast?, l₂.head?, true, some n⟩
      else
        { s.links i with
          prev := if some i = l₂.head? then some n else (s.links i).prev
          next := if some i = l₁.getLast? then some n else (s.links i).next } := by
  have hfree := h.free_not_mem hn
  have h₁ : some n ≠ l₁.getLast? := fun heq =>
    hfree (by simp [List.mem_of_getLast? heq.symm])
  have h₂ : some n ≠ l₂.head? := fun heq =>
    hfree (by simp [List.mem_of_head? heq.symm])
  have hnext := h.insertAfter_next hn
  simp only [slistInsertAfter, hn]
  simp only at hnext
  rw [hnext]
  simp only [modifyAt_links, clear_links, Option.some.injEq]
  by_cases hi : i = n
  · subst hi
    simp [h₁, h₂]
  · simp only [hi, if_false]
    split <;> split <;> rfl

theorem Repr.insertAfter (h : s.Repr (l₁ ++ l₂)) (hn : s.findFree = some n) :
    (slistInsertAfter s l₁.getLast?).1.Repr (l₁ ++ n :: l₂) := by
  have hfree := h.free_not_mem hn
  have hne : ∀ i ∈ l₁ ++ l₂, i ≠ n := fun i hi heq => hfree (heq ▸ hi)
  have hslots : (slistInsertAfter s l₁.getLast?).1.slots = s.slots := by
    simp [slistInsertAfter, hn]
  have hperm : (l₁ ++ n :: l₂).Perm (n :: (l₁ ++ l₂)) := List.perm_middle
  have hmem : ∀ i, i ∈ l₁ ++ n :: l₂ ↔ i = n ∨ i ∈ l₁ ++ l₂ := fun i => by
    rw [hperm.mem_iff, List.mem_cons]
  constructor
  · exact hperm.nodup_iff.mpr (List.nodup_cons.mpr ⟨hfree, h.nodup⟩)
  · refine h.linked.insert h.nodup ?_ ?_ ?_ ?_
    · simp [h.insertAfter_links hn]
    · simp [h.insertAfter_links hn]
    · intro i hi
      simp [h.insertAfter_links hn, hne i hi]
    · intro i hi
      simp [h.insertAfter_links hn, hne i hi]
  · cases l₁ with
    | nil => simp [slistInsertAfter, hn]
    | cons a l₁ => simp [slistInsertAfter, hn, h.head]
  · cases l₂ with
    | nil => simp [slistInsertAfter, hn, h.tail]
    | cons b l₂ =>
      have hlast := getLast?_or_ne_nil h.nodup (by simp)
      simp only [slistInsertAfter, hn, modifyAt_tail, clear_tail, h.tail, if_neg hlast]
      simp
  · intro i hi
    rw [hslots]
    rcases (hmem i).mp hi with rfl | hi
    · exact (findFree_eq_some hn).1
    · exact h.bound i hi
  · intro i hi
    rw [hslots] at hi
    rw [h.insertAfter_links hn, hmem]
    by_cases hin : i = n
    · simp [hin]
    · simp [hin, h.valid i hi]
  · intro i hi
    rw [h.insertAfter_links hn]
    rcases (hmem i).mp hi with rfl | hi
    · simp
    · simp [hne i hi, h.data i hi]

theorem insertAfter_body (hn : s.findFree = some n) (pos : Option Nat) (i : Nat) :
    (slistInsertAfter s pos).1.body i = if i = n then default else s.body i := by
  simp [slistInsertAfter, hn]

theorem Repr.map_insertAfter (h : s.Repr (l₁ ++ l₂)) (hn : s.findFree = some n) :
    (l₁ ++ n :: l₂).map (slistInsertAfter s l₁.getLast?).1.body =
      l₁.map s.body ++ default :: l₂.map s.body := by
  have hfree := h.free_not_mem hn
  rw [List.mem_append, not_or] at hfree
  have heq : ∀ i ≠ n, (slistInsertAfter s l₁.getLast?).1.body i = s.body i := fun i hi => by
    simp [insertAfter_body hn, hi]
  rw [List.map_append, List.map_cons, map_of_not_mem hfree.1 heq, map_of_not_mem hfree.2 heq]
  simp [insertAfter_body hn]

theorem slistInsertAfter_full (hfull : s.findFree = none) (pos : Option Nat) :
    slistInsertAfter s pos = (s, none) := by
  simp [slistInsertAfter, hfull]

theorem Repr.insertAfter_spec (h : s.Repr (l₁ ++ l₂)) (hn : s.findFree = some n) :
    ∃ s', slistInsertAfter s l₁.getLast? = (s', some n) ∧ s'.slots = s.slots ∧
      s'.Repr (l₁ ++ n :: l₂) ∧ (∀ i, i ≠ n → s'.body i = s.body i) ∧
      (l₁ ++ n :: l₂).map s'.body = l₁.map s.body ++ default :: l₂.map s.body := by
  refine ⟨(slistInsertAfter s l₁.getLast?).1, ?_, ?_, h.insertAfter hn, ?_, h.map_insertAfter hn⟩
  · refine Prod.ext rfl ?_
    simp [slistInsertAfter, hn]
  · simp [slistInsertAfter, hn]
  · intro i hi
    simp [insertAfter_body hn, hi]

theorem slistInsertBefore_full (hfull : s.findFree = none) (pos : Option Nat) :
    slistInsertBefore s pos = (s, none) := by
  simp [slistInsertBefore, hfull]

omit [Inhabited α] in
theorem Repr.prev_of_head? (h : s.Repr (l₁ ++ l₂)) :
    (l₂.head?.elim s.tail fun p => (s.links p).prev) = l₁.getLast? := by
  cases l₂ with
  | nil => simpa using h.tail
  | cons p l => exact h.prev_of_append

theorem Repr.insertBefore_prev (h : s.Repr (l₁ ++ l₂)) (hn : s.findFree = some n) :
    let s' := (s.clear (some n)).modifyAt (some n) fun h =>
      { h with isValid := true, data := some n }
    (l₂.head?.elim s'.tail fun p => (s'.links p).prev) = l₁.getLast? := by
  intro s'
  rw [← h.prev_of_head?]
  cases hp : l₂.head? with
  | none => rfl
  | some p =>
    have hne : p ≠ n := by
      rintro rfl
      exact h.free_not_mem hn (by simp [List.mem_of_head? hp])
    simp [s', hne]

omit [Inhabited α] in
theorem Repr.head_eq_iff (h : s.Repr (l₁ ++ l₂)) :
    s.head = l₂.head? ↔ s.head = none ∨ l₁.getLast? = none := by
  rw [h.head, List.getLast?_eq_none_iff]
  cases l₁ with
  | nil => simp
  | cons a l₁ =>
    have hnodup := h.nodup
    refine iff_of_false (fun heq => ?_) (by simp)
    have hmem : a ∈ l₂ := List.mem_of_head? heq.symm
    exact (List.nodup_cons.mp hnodup).1 (by simp [hmem])

omit [Inhabited α] in
theorem Repr.tail_eq_iff (h : s.Repr (l₁ ++ l₂)) :
    l₁.getLast? = s.tail ↔ s.tail = none ∨ l₂.head? = none := by
  rw [h.tail, List.head?_eq_none_iff]
  by_cases hl : l₂ = []
  · simp [hl]
  · refine iff_of_false (getLast?_or_ne_nil h.nodup hl) ?_
    simp [hl]

theorem Repr.insertBefore_eq (h : s.Repr (l₁ ++ l₂)) :
    slistInsertBefore s l₂.head? = slistInsertAfter s l₁.getLast? := by
  cases hn : s.findFree with
  | none => rw [slistInsertBefore_full hn, slistInsertAfter_full hn]
  | some n =>
    have hprev := h.insertBefore_prev hn
    have hnext := h.insertAfter_next hn
    simp only at hprev hnext
    simp only [slistInsertBefore, slistInsertAfter, hn]
    rw [hprev, hnext]
    congr 2
    · exact if_congr h.head_eq_iff rfl rfl
    · exact if_congr h.tail_eq_iff.symm rfl rfl

theorem slistDelete_eq (hdata : (s.links n).data = some n) :
    slistDelete s (some n) =
      SlistDef.clear
        { ((s.modifyAt (some n) fun h => { h with isValid := false }).modifyAt (s.links n).prev
            fun h => { h with next := (s.links n).next }).modifyAt (s.links n).next
            fun h => { h with prev := (s.links n).prev } with
          head := if some n = s.head then (s.links n).next else s.head
          tail := if some n = s.tail then (s.links n).prev else s.tail } (some n) := by
  rw [← hdata]
  simp only [slistDelete, hdata]
  congr 1
  simp only [modifyAt_data, hdata, implies_true]

theorem Repr.delete_links (h : s.Repr (l₁ ++ n :: l₂)) (i : Nat) :
    (slistDelete s (some n)).links i =
      if i = n then default
      else
        { s.links i with
          prev := if some i = l₂.head? then l₁.getLast? else (s.links i).prev
          next := if some i = l₁.getLast? then l₂.head? else (s.links i).next } := by
  rw [slistDelete_eq (h.data n (by simp)), h.prev_of_append, h.next_of_append]
  simp only [clear_links, modifyAt_links, Option.some.injEq]
  by_cases hi : i = n
  · simp [hi]
  · simp only [hi, if_false]
    split <;> split <;> rfl

theorem Repr.delete (h : s.Repr (l₁ ++ n :: l₂)) :
    (slistDelete s (some n)).Repr (l₁ ++ l₂) := by
  have hperm : (l₁ ++ n :: l₂).Perm (n :: (l₁ ++ l₂)) := List.perm_middle
  obtain ⟨hn, hnodup⟩ := List.nodup_cons.mp (hperm.nodup_iff.mp h.nodup)
  have hne : ∀ i ∈ l₁ ++ l₂, i ≠ n := fun i hi heq => hn (heq ▸ hi)
  have hmem : ∀ i, i ∈ l₁ ++ n :: l₂ ↔ i = n ∨ i ∈ l₁ ++ l₂ := fun i => by
    rw [hperm.mem_iff, List.mem_cons]
  have hslots : (slistDelete s (some n)).slots = s.slots := rfl
  constructor
  · exact hnodup
  · refine h.linked.remove h.nodup ?_ ?_
    · intro i hi
      simp [h.delete_links, hne i hi]
    · intro i hi
      simp [h.delete_links, hne i hi]
  · show (if some n = s.head then (s.links n).next else s.head) = _
    rw [h.head, h.next_of_append]
    cases l₁ with
    | nil => simp
    | cons a l₁ =>
      have : n ≠ a := fun heq => hne a (by simp) heq.symm
      simp [this]
  · show (if some n = s.tail then (s.links n).prev else s.tail) = _
    rw [h.tail, h.prev_of_append]
    rcases l₂.eq_nil_or_concat' with rfl | ⟨l₂, b, rfl⟩
    · simp
    · have : n ≠ b := fun heq => hne b (by simp) heq.symm
      simp [this, List.getLast?_cons]
  · intro i hi
    exact h.bound i ((hmem i).mpr (.inr hi))
  · intro i hi
    rw [h.delete_links]
    by_cases hin : i = n
    · subst hin
      simp only [if_true]
      exact ⟨fun hv => Bool.noConfusion hv, fun hmem => absurd hmem hn⟩
    · simp [hin, h.valid i hi, hmem i]
  · intro i hi
    rw [h.delete_links]
    simp [hne i hi, h.data i ((hmem i).mpr (.inr hi))]

theorem Repr.delete_body (h : s.Repr (l₁ ++ n :: l₂)) (i : Nat) :
    (slistDelete s (some n)).body i = if i = n then default else s.body i := by
  rw [slistDelete_eq (h.data n (by simp))]
  simp

theorem Repr.map_delete (h : s.Repr (l₁ ++ n :: l₂)) :
    (l₁ ++ l₂).map (slistDelete s (some n)).body = (l₁ ++ l₂).map s.body := by
  have hn : n ∉ l₁ ++ l₂ := by simp [h.not_mem_of_append]
  exact map_of_not_mem hn fun i hi => by simp [h.delete_body, hi]

end SlistDef

end RubiKernel
