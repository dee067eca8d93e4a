import Mathlib.Data.List.Perm.Subperm
import Mathlib.Data.List.Perm.Lattice
import RubiKernel.Lib.Cyclic
import RubiKernel.Types

/-! `lib/clist.c`: the cyclic list. A node is the address of its slot and NULL is 0;
the address of a new slot is what `syscall_malloc` returns. -/

namespace RubiKernel

open Cyclic

structure ClistHead where
  next : Word
  data : Word
  deriving DecidableEq

/-- A `clist_def_t` with the heads of the slots in memory. -/
structure Clist where
  slots : Word
  head : Word
  tail : Word
  node : Word → ClistHead

namespace Clist

def next (ct : Clist) (i : Word) : Word := (ct.node i).next

def members (ct : Clist) : List Word := List.iterate ct.next ct.head ct.slots.toNat

/-- `n` is the slot that `syscall_malloc` returns. -/
def clistInit (ct : Clist) (n : Word) : Clist where
  slots := 1
  head := n
  tail := n
  node := Function.update ct.node n ⟨n, n⟩

/-- `n` is the slot that `syscall_malloc` returns. -/
def clistInsertAfter (ct : Clist) (pos n : Word) : Clist :=
  if pos = 0 ∨ ct.slots = 0 then ct.clistInit n
  else
    { slots := ct.slots + 1
      head := ct.head
      tail := if ct.tail = pos then n else ct.tail
      node := Function.update (Function.update ct.node n ⟨ct.next pos, n⟩) pos
        ⟨n, (ct.node pos).data⟩ }

/-- `pos` is given to `syscall_free` at the end. -/
def clistDelete (ct : Clist) (pos : Word) : Clist :=
  if ct.slots = 1 then { ct with slots := ct.slots - 1, head := 0, tail := 0 }
  else
    let x := seek ct.next pos (ct.slots.toNat + 1) ct.head
    { slots := ct.slots - 1
      head := if pos = ct.head then x else ct.head
      tail := if pos = ct.tail then x else ct.tail
      node := Function.update ct.node x ⟨ct.next pos, (ct.node x).data⟩ }

def clistGet (ct : Clist) (index : Word) : Word :=
  if ct.slots ≤ index then 0 else ct.next^[index.toNat] ct.head

/-- NULL is 0; `none` when the loop has not ended after a turn for each slot. -/
def clistFind (ct : Clist) (func : Word → Bool) : Option Word :=
  if ct.head = 0 then some 0
  else
    (search ct.next func (fun cur => cur = ct.head ∨ cur = 0) ct.slots.toNat ct.head).map (·.getD 0)

/-- The list is the ring `l`, from its head on. -/
structure RingOf (ct : Clist) (l : List Word) : Prop where
  slots : ct.slots.toNat = l.length
  head : ct.head = l.headD 0
  tail : ct.tail ∈ l ∨ ct.tail = 0 ∧ l = []
  path : Path ct.next ct.head l ct.head
  distinct : (0 :: l).Nodup
  data : ∀ i ∈ l, (ct.node i).data = i

variable {ct : Clist} {l l₁ l₂ : List Word} {pos n i : Word}

theorem RingOf.members_eq (h : RingOf ct l) : ct.members = l := by
  rw [members, h.slots, h.path.iterate]

theorem RingOf.nodup (h : RingOf ct l) : l.Nodup := (List.nodup_cons.mp h.distinct).2

theorem RingOf.ne_zero (h : RingOf ct l) (hi : i ∈ l) : i ≠ 0 := by
  rintro rfl
  exact (List.nodup_cons.mp h.distinct).1 hi

theorem length_lt_of_distinct (h : (0 :: l).Nodup) : l.length < 2 ^ 32 := by
  have hmap : ((0 :: l).map BitVec.toNat).Nodup :=
    h.map fun a b hab => BitVec.eq_of_toNat_eq hab
  have hsub : (0 :: l).map BitVec.toNat ⊆ List.range (2 ^ 32) := fun k hk => by
    obtain ⟨a, -, rfl⟩ := List.mem_map.mp hk
    exact List.mem_range.mpr a.isLt
  have hle := (hmap.subperm hsub).length_le
  rw [List.length_map, List.length_cons, List.length_range] at hle
  omega

theorem RingOf.slots_ne_zero (h : RingOf ct l) (hl : l ≠ []) : ct.slots ≠ 0 := by
  intro hz
  have hlen := h.slots
  rw [hz] at hlen
  exact hl (List.eq_nil_of_length_eq_zero hlen.symm)

theorem RingOf.slots_eq_one (h : RingOf ct l) : ct.slots = 1 ↔ l.length = 1 := by
  rw [← BitVec.toNat_inj, h.slots]
  rfl

theorem next_update (node : Word → ClistHead) (v : ClistHead) :
    (Function.update node pos v i).next =
      Function.update (fun j => (node j).next) pos v.next i := by
  by_cases hi : i = pos
  · simp [hi]
  · simp [hi]

theorem ringOf_clistInit (ct : Clist) (hn : n ≠ 0) : RingOf (ct.clistInit n) [n] where
  slots := rfl
  head := rfl
  tail := Or.inl (by simp [clistInit])
  path := ⟨rfl, by simp [clistInit, next]⟩
  distinct := by simpa using hn.symm
  data := by simp [clistInit]

theorem RingOf.clistInsertAfter (h : RingOf ct (l₁ ++ pos :: l₂))
    (hn : n ∉ 0 :: (l₁ ++ pos :: l₂)) :
    RingOf (ct.clistInsertAfter pos n) (l₁ ++ pos :: n :: l₂) := by
  obtain ⟨hn₀, hn⟩ := not_or.mp (mt List.mem_cons.mpr hn)
  have hpos : pos ≠ 0 := h.ne_zero (by simp)
  have hdistinct : (0 :: (l₁ ++ pos :: n :: l₂)).Nodup := by
    have hperm : (0 :: (l₁ ++ pos :: n :: l₂)).Perm (n :: 0 :: (l₁ ++ pos :: l₂)) := by
      grind
    rw [hperm.nodup_iff, List.nodup_cons]
    exact ⟨not_or.mpr ⟨hn₀, hn⟩ ∘ List.mem_cons.mp, h.distinct⟩
  have hlen := length_lt_of_distinct hdistinct
  have heq : ct.clistInsertAfter pos n =
      { slots := ct.slots + 1
        head := ct.head
        tail := if ct.tail = pos then n else ct.tail
        node := Function.update (Function.update ct.node n ⟨ct.next pos, n⟩) pos
          ⟨n, (ct.node pos).data⟩ } := by
    rw [Clist.clistInsertAfter, if_neg (not_or.mpr ⟨hpos, h.slots_ne_zero (by simp)⟩)]
  rw [heq]
  refine ⟨?_, ?_, ?_, ?_, hdistinct, ?_⟩
  · have hslots := h.slots
    simp only [List.length_append, List.length_cons] at hlen hslots ⊢
    rw [BitVec.toNat_add, hslots]
    exact Nat.mod_eq_of_lt hlen
  · rw [h.head]
    cases l₁ <;> rfl
  · rcases h.tail with htail | ⟨-, hnil⟩
    · left
      split
      · simp
      · simp only [List.mem_append, List.mem_cons] at htail ⊢
        tauto
    · simp at hnil
  · have hpath := h.path.insert h.nodup hn
    refine hpath.congr fun i _ => ?_
    simp only [next, next_update]
    rfl
  · intro i hi
    by_cases hip : i = pos
    · simpa [hip] using h.data pos (by simp)
    · by_cases hin : i = n
      · subst hin
        simp [hip]
      · have hmem : i ∈ l₁ ++ pos :: l₂ := by
          simp only [List.mem_append, List.mem_cons] at hi ⊢
          tauto
        simpa [hip, hin] using h.data i hmem

theorem RingOf.clistInsertAfter_perm (h : RingOf ct l) (hpos : pos ∈ l ∨ l = [])
    (hn : n ∉ 0 :: l) : ∃ l', RingOf (ct.clistInsertAfter pos n) l' ∧ l'.Perm (n :: l) := by
  rcases hpos with hpos | rfl
  · obtain ⟨l₁, l₂, rfl⟩ := List.append_of_mem hpos
    refine ⟨_, h.clistInsertAfter hn, ?_⟩
    grind
  · have hslots : ct.slots = 0 := BitVec.eq_of_toNat_eq h.slots
    rw [Clist.clistInsertAfter, if_pos (Or.inr hslots)]
    exact ⟨[n], ringOf_clistInit ct (by grind), .rfl⟩

theorem RingOf.bypass {x head tail : Word} (h : RingOf ct l) (hperm : l.Perm (pos :: l₂))
    (hhead : head = l₂.headD 0) (htail : tail ∈ l₂)
    (hpath : Path (Function.update ct.next x (ct.next pos)) head l₂ head) :
    RingOf
      { slots := ct.slots - 1
        head := head
        tail := tail
        node := Function.update ct.node x ⟨ct.next pos, (ct.node x).data⟩ } l₂ := by
  have hsub : ∀ i ∈ l₂, i ∈ l := fun i hi => hperm.mem_iff.mpr (by simp [hi])
  refine ⟨?_, hhead, Or.inl htail, ?_, ?_, ?_⟩
  · have hslots := h.slots
    have hlt := ct.slots.isLt
    rw [hperm.length_eq, List.length_cons] at hslots
    rw [BitVec.toNat_sub, hslots]
    show (2 ^ 32 - 1 + (l₂.length + 1)) % 2 ^ 32 = _
    omega
  · refine hpath.congr fun i _ => ?_
    simp only [next, next_update]
    rfl
  · have hdistinct := (hperm.cons 0).nodup_iff.mp h.distinct
    grind
  · intro i hi
    by_cases hix : i = x
    · subst hix
      simpa using h.data i (hsub i hi)
    · simpa [hix] using h.data i (hsub i hi)

theorem RingOf.clistDelete_single (h : RingOf ct [pos]) : RingOf (ct.clistDelete pos) [] := by
  rw [Clist.clistDelete, if_pos (h.slots_eq_one.mpr rfl)]
  refine ⟨?_, rfl, Or.inr ⟨rfl, rfl⟩, rfl, by simp, by simp⟩
  rw [h.slots_eq_one.mpr rfl]
  rfl

theorem RingOf.seek_head {x : Word} (h : RingOf ct (pos :: (l ++ [x]))) :
    seek ct.next pos (ct.slots.toNat + 1) ct.head = x := by
  have hhead : ct.head = pos := h.head
  have hpath : Path ct.next pos (pos :: l ++ [x]) pos := by
    simpa only [hhead, List.cons_append] using h.path
  rw [hhead]
  refine hpath.seek_eq (List.nodup_cons.mp h.nodup).1 ?_
  rw [h.slots]
  simp

theorem RingOf.seek_tail {x : Word} (h : RingOf ct (l₁ ++ x :: pos :: l₂)) :
    seek ct.next pos (ct.slots.toNat + 1) ct.head = x := by
  have hnodup := h.nodup
  have hnotin : pos ∉ l₁ ++ [x] := by grind
  obtain ⟨m, hpath, hrest⟩ := path_append.mp
    (show Path ct.next ct.head ((l₁ ++ [x]) ++ pos :: l₂) ct.head by simpa using h.path)
  obtain ⟨rfl, -⟩ := path_cons.mp hrest
  refine hpath.seek_eq (fun hm => hnotin (List.mem_of_mem_tail hm)) ?_
  rw [h.slots]
  simp only [List.length_append, List.length_cons]
  omega

theorem clistDelete_eq {x : Word} (hne : ct.slots ≠ 1)
    (hseek : seek ct.next pos (ct.slots.toNat + 1) ct.head = x) :
    ct.clistDelete pos =
      { slots := ct.slots - 1
        head := if pos = ct.head then x else ct.head
        tail := if pos = ct.tail then x else ct.tail
        node := Function.update ct.node x ⟨ct.next pos, (ct.node x).data⟩ } := by
  rw [clistDelete, if_neg hne, hseek]

theorem RingOf.slots_ne_one (h : RingOf ct l) (hlen : 2 ≤ l.length) : ct.slots ≠ 1 := fun hone => by
  have hlen' := h.slots_eq_one.mp hone
  omega

theorem RingOf.clistDelete_head {x : Word} (h : RingOf ct (pos :: (l ++ [x]))) :
    RingOf (ct.clistDelete pos) (x :: l) := by
  have hhead : ct.head = pos := h.head
  have hperm : (pos :: (l ++ [x])).Perm (pos :: x :: l) := by grind
  have hpath : Path ct.next pos (pos :: l ++ [x]) pos := by
    simpa only [hhead, List.cons_append] using h.path
  obtain ⟨m, hrot⟩ := hpath.rotate
  obtain ⟨hm, -⟩ := path_cons.mp hrot
  subst m
  rw [clistDelete_eq (h.slots_ne_one (by simp)) h.seek_head, if_pos hhead.symm]
  have hbypass := Path.remove (show Path ct.next x ([] ++ x :: pos :: l) x from hrot)
  refine h.bypass hperm rfl ?_ (hbypass ?_)
  · have htail := h.tail
    split
    · simp
    · next hp => grind
  · have hrotated : (pos :: l ++ [x]).Perm ([x] ++ pos :: l) := List.perm_append_comm
    exact hrotated.nodup_iff.mp h.nodup

theorem RingOf.pos_ne_head {x : Word} (h : RingOf ct (l₁ ++ x :: pos :: l₂)) : pos ≠ ct.head := by
  have hnodup := h.nodup
  have hnotin : pos ∉ l₁ ++ [x] := by grind
  rw [h.head]
  cases l₁ <;> simp_all

theorem RingOf.clistDelete_tail {x : Word} (h : RingOf ct (l₁ ++ x :: pos :: l₂)) :
    RingOf (ct.clistDelete pos) (l₁ ++ x :: l₂) := by
  have hperm : (l₁ ++ x :: pos :: l₂).Perm (pos :: (l₁ ++ x :: l₂)) := by grind
  have hnodup := h.nodup
  rw [clistDelete_eq (h.slots_ne_one (by simp; omega)) h.seek_tail, if_neg h.pos_ne_head]
  refine h.bypass hperm ?_ ?_ (h.path.remove hnodup)
  · rw [h.head]
    cases l₁ <;> rfl
  · have htail := h.tail.resolve_right (by simp)
    split
    · simp
    · next hp =>
      have hne : ct.tail ≠ pos := Ne.symm hp
      simp only [List.mem_append, List.mem_cons] at htail ⊢
      tauto

theorem RingOf.clistDelete (h : RingOf ct l) (hpos : pos ∈ l) :
    ∃ l', RingOf (ct.clistDelete pos) l' ∧ l.Perm (pos :: l') := by
  obtain ⟨l₁, l₂, rfl⟩ := List.append_of_mem hpos
  rcases List.eq_nil_or_concat l₁ with rfl | ⟨l₁, x, rfl⟩
  · rcases List.eq_nil_or_concat l₂ with rfl | ⟨l₂, x, rfl⟩
    · exact ⟨[], h.clistDelete_single, .rfl⟩
    · rw [List.concat_eq_append] at h ⊢
      refine ⟨x :: l₂, h.clistDelete_head, ?_⟩
      grind
  · rw [List.concat_eq_append, List.append_assoc] at h ⊢
    refine ⟨l₁ ++ x :: l₂, h.clistDelete_tail, ?_⟩
    grind

theorem RingOf.clistFind_eq (h : RingOf ct l) (func : Word → Bool) :
    ct.clistFind func = some ((l.find? func).getD 0) := by
  cases l with
  | nil =>
    have hhead : ct.head = 0 := h.head
    rw [clistFind, if_pos hhead]
    rfl
  | cons i l =>
    have hi : ct.head = i := h.head
    have hpath := h.path
    have hnodup := h.nodup
    rw [hi] at hpath
    rw [clistFind, hi, if_neg (h.ne_zero (by simp)), hpath.search_eq (by simp) ?_ ?_, Option.map_some]
    · intro j hj
      have hji : j ≠ i := by
        rintro rfl
        exact (List.nodup_cons.mp hnodup).1 hj
      simpa using ⟨hji, h.ne_zero (List.mem_cons_of_mem _ hj)⟩
    · rw [h.slots]
      simp

end Clist

end RubiKernel
