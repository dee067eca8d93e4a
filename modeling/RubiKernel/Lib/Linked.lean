import Mathlib.Data.List.Nodup
import Mathlib.Data.List.Chain

/-! Lists threaded through a pointer field: the nodes met by following `next`
from one pointer to another, and doubly linked lists with the two edits that
insertion and deletion make to their links. -/

universe u v

namespace RubiKernel.Linked

/-- Following `next` from the pointer `p` visits the nodes of `l` in order and
arrives at the pointer `q`. -/
def Seg {ι : Type u} {π : Type v} (ptr next : ι → π) : π → List ι → π → Prop
  | p, [], q => p = q
  | p, i :: l, q => p = ptr i ∧ Seg ptr next (next i) l q

section Seg

variable {ι : Type u} {π : Type v} {ptr next next' : ι → π} {p q r : π}

@[simp] theorem seg_nil : Seg ptr next p [] q ↔ p = q := Iff.rfl

@[simp] theorem seg_cons {i : ι} {l : List ι} :
    Seg ptr next p (i :: l) q ↔ p = ptr i ∧ Seg ptr next (next i) l q := Iff.rfl

theorem seg_append {l₁ l₂ : List ι} :
    Seg ptr next p (l₁ ++ l₂) q ↔ ∃ m, Seg ptr next p l₁ m ∧ Seg ptr next m l₂ q := by
  induction l₁ generalizing p with
  | nil => simp
  | cons i l ih => simp [ih, and_assoc]

theorem Seg.congr {l : List ι} (h : Seg ptr next p l q) (heq : ∀ i ∈ l, next' i = next i) :
    Seg ptr next' p l q := by
  induction l generalizing p with
  | nil => exact h
  | cons i l ih =>
    refine ⟨h.1, ?_⟩
    rw [heq i (by simp)]
    exact ih h.2 fun j hj => heq j (by simp [hj])

end Seg

variable {ι : Type u}

/-- The nodes met from `p` on, `fuel` of them at most. -/
def walk (next : ι → Option ι) : ℕ → Option ι → List ι
  | _, none => []
  | 0, some _ => []
  | fuel + 1, some i => i :: walk next fuel (next i)

theorem Seg.walk_eq {next : ι → Option ι} {p : Option ι} {l : List ι} {fuel : ℕ}
    (h : Seg some next p l none) (hfuel : l.length ≤ fuel) : walk next fuel p = l := by
  induction l generalizing p fuel with
  | nil =>
    rw [seg_nil] at h
    rw [h, walk]
  | cons i l ih =>
    obtain ⟨rfl, h⟩ := h
    cases fuel with
    | zero => simp at hfuel
    | succ fuel => rw [walk, ih h (by simpa using hfuel)]

/-- Consecutive nodes of `l` point at each other; `b` stands before the first
node and `a` after the last. -/
def DSeg (prev next : ι → Option ι) : Option ι → List ι → Option ι → Prop
  | _, [], _ => True
  | b, i :: l, a => prev i = b ∧ next i = l.head?.or a ∧ DSeg prev next (some i) l a

section DSeg

variable {prev next prev' next' : ι → Option ι} {a b : Option ι}

theorem dseg_append {l₁ l₂ : List ι} :
    DSeg prev next b (l₁ ++ l₂) a ↔
      DSeg prev next b l₁ (l₂.head?.or a) ∧ DSeg prev next (l₁.getLast?.or b) l₂ a := by
  induction l₁ generalizing b with
  | nil => simp [DSeg]
  | cons i l ih =>
    have hhead : (l ++ l₂).head?.or a = l.head?.or (l₂.head?.or a) := by
      cases l <;> simp
    have hlast : (i :: l).getLast?.or b = l.getLast?.or (some i) := by
      cases l with
      | nil => simp
      | cons j l =>
        rw [List.getLast?_cons_cons]
        cases h : (j :: l).getLast? with
        | none => simp at h
        | some x => simp
    simp only [List.cons_append, DSeg, ih, hhead, hlast]
    tauto

theorem DSeg.seg {l : List ι} (h : DSeg prev next b l a) : Seg some next (l.head?.or a) l a := by
  induction l generalizing b with
  | nil => simp
  | cons i l ih =>
    refine ⟨by simp, ?_⟩
    rw [h.2.1]
    exact ih h.2.2

theorem DSeg.seg_reverse {l : List ι} (h : DSeg prev next b l a) :
    Seg some prev (l.getLast?.or b) l.reverse b := by
  induction l using List.reverseRecOn generalizing a with
  | nil => simp
  | append_singleton l i ih =>
    rw [dseg_append] at h
    simp only [List.reverse_append, List.reverse_cons, List.reverse_nil, List.nil_append,
      List.cons_append, List.getLast?_append, List.getLast?_singleton, seg_cons]
    refine ⟨by simp, ?_⟩
    rw [h.2.1]
    exact ih h.1

theorem DSeg.prev_head {l : List ι} (h : DSeg prev next b l a) {i : ι} (hi : some i = l.head?) :
    prev i = b := by
  cases l with
  | nil => cases hi
  | cons j l =>
    obtain rfl := Option.some.inj hi
    exact h.1

theorem DSeg.next_getLast {l : List ι} (h : DSeg prev next b l a) {i : ι}
    (hi : some i = l.getLast?) : next i = a := by
  obtain ⟨l, rfl⟩ := List.getLast?_eq_some_iff.mp hi.symm
  exact (dseg_append.mp h).2.2.1

variable [DecidableEq ι]

theorem DSeg.relink {a' b' : Option ι} {l : List ι} (h : DSeg prev next b l a) (hl : l.Nodup)
    (hprev : ∀ i ∈ l, prev' i = if some i = l.head? then b' else prev i)
    (hnext : ∀ i ∈ l, next' i = if some i = l.getLast? then a' else next i) :
    DSeg prev' next' b' l a' := by
  induction l generalizing b b' with
  | nil => trivial
  | cons i l ih =>
    obtain ⟨hi, hl⟩ := List.nodup_cons.mp hl
    refine ⟨by simpa using hprev i (by simp), ?_, ih h.2.2 hl ?_ ?_⟩
    · have hn := hnext i (by simp)
      cases l with
      | nil => simpa using hn
      | cons j l =>
        have hne : some i ≠ (i :: j :: l).getLast? := by
          rw [List.getLast?_cons_cons]
          intro heq
          exact hi (List.mem_of_getLast? heq.symm)
        rw [if_neg hne, h.2.1] at hn
        simpa using hn
    · intro k hk
      have hki : k ≠ i := by rintro rfl; exact hi hk
      have hp := hprev k (by simp [hk])
      simp only [List.head?_cons, Option.some.injEq, hki, if_false] at hp
      rw [hp]
      split
      · next hhead => exact h.2.2.prev_head hhead
      · rfl
    · intro k hk
      have hn := hnext k (by simp [hk])
      have hlast : (i :: l).getLast? = l.getLast? := by
        cases l with
        | nil => simp at hk
        | cons j l => exact List.getLast?_cons_cons
      rwa [hlast] at hn

theorem DSeg.relink_before {a' x : Option ι} {l l₂ : List ι} (h : DSeg prev next b l a)
    (hl : l.Nodup) (hdisj : ∀ i ∈ l, ∀ j ∈ l₂, i ≠ j)
    (hprev : ∀ i ∈ l, prev' i = if some i = l₂.head? then x else prev i)
    (hnext : ∀ i ∈ l, next' i = if some i = l.getLast? then a' else next i) :
    DSeg prev' next' b l a' := by
  refine h.relink hl (fun i hi => ?_) hnext
  have hne : some i ≠ l₂.head? := fun heq =>
    hdisj i hi i (List.mem_of_head? heq.symm) rfl
  rw [hprev i hi, if_neg hne]
  split
  · next hhead => exact h.prev_head hhead
  · rfl

theorem DSeg.relink_behind {b' x : Option ι} {l l₁ : List ι} (h : DSeg prev next b l a)
    (hl : l.Nodup) (hdisj : ∀ i ∈ l₁, ∀ j ∈ l, i ≠ j)
    (hprev : ∀ i ∈ l, prev' i = if some i = l.head? then b' else prev i)
    (hnext : ∀ i ∈ l, next' i = if some i = l₁.getLast? then x else next i) :
    DSeg prev' next' b' l a := by
  refine h.relink hl hprev fun i hi => ?_
  have hne : some i ≠ l₁.getLast? := fun heq =>
    hdisj i (List.mem_of_getLast? heq.symm) i hi rfl
  rw [hnext i hi, if_neg hne]
  split
  · next hlast => exact h.next_getLast hlast
  · rfl

/-- Insertion between `l₁` and `l₂`: the last node of `l₁`, the first of `l₂` and
the new node are the only ones whose links change. -/
theorem DSeg.insert {l₁ l₂ : List ι} {n : ι} (h : DSeg prev next none (l₁ ++ l₂) none)
    (hl : (l₁ ++ l₂).Nodup) (hpn : prev' n = l₁.getLast?) (hnn : next' n = l₂.head?)
    (hprev : ∀ i ∈ l₁ ++ l₂, prev' i = if some i = l₂.head? then some n else prev i)
    (hnext : ∀ i ∈ l₁ ++ l₂, next' i = if some i = l₁.getLast? then some n else next i) :
    DSeg prev' next' none (l₁ ++ n :: l₂) none := by
  obtain ⟨hl₁, hl₂, hdisj⟩ := List.nodup_append.mp hl
  obtain ⟨h₁, h₂⟩ := dseg_append.mp h
  obtain ⟨hprev₁, hprev₂⟩ := List.forall_mem_append.mp hprev
  obtain ⟨hnext₁, hnext₂⟩ := List.forall_mem_append.mp hnext
  have hbefore : DSeg prev' next' none l₁ (some n) := h₁.relink_before hl₁ hdisj hprev₁ hnext₁
  have hbehind : DSeg prev' next' (some n) l₂ none := h₂.relink_behind hl₂ hdisj hprev₂ hnext₂
  exact dseg_append.mpr ⟨hbefore, by simpa using hpn, by simpa using hnn, hbehind⟩

theorem DSeg.remove {l₁ l₂ : List ι} {n : ι} (h : DSeg prev next none (l₁ ++ n :: l₂) none)
    (hl : (l₁ ++ n :: l₂).Nodup)
    (hprev : ∀ i ∈ l₁ ++ l₂, prev' i = if some i = l₂.head? then l₁.getLast? else prev i)
    (hnext : ∀ i ∈ l₁ ++ l₂, next' i = if some i = l₁.getLast? then l₂.head? else next i) :
    DSeg prev' next' none (l₁ ++ l₂) none := by
  have hrest : (l₁ ++ l₂).Nodup := hl.sublist ((List.sublist_cons_self n l₂).append_left l₁)
  obtain ⟨hl₁, hl₂, hdisj⟩ := List.nodup_append.mp hrest
  obtain ⟨h₁, -, -, h₂⟩ := dseg_append.mp h
  obtain ⟨hprev₁, hprev₂⟩ := List.forall_mem_append.mp hprev
  obtain ⟨hnext₁, hnext₂⟩ := List.forall_mem_append.mp hnext
  refine dseg_append.mpr ⟨h₁.relink_before hl₁ hdisj hprev₁ ?_,
    h₂.relink_behind hl₂ hdisj ?_ hnext₂⟩
  · simpa using hnext₁
  · simpa using hprev₂

end DSeg

end RubiKernel.Linked
