import Mathlib.Data.List.Rotate

/-! Rings read from one of their elements, and turns that go round a ring. -/

universe u

namespace RubiKernel.Rotation

variable {α : Type u} {l l₁ l₂ queue turns : List α} {a b : α} {p : α → Bool} {i : ℕ}

/-- Every turn is that of the element after the last one. -/
def Follows : List α → List α → Prop
  | _, [] => True
  | queue, t :: turns => (queue.rotate 1).head? = some t ∧ Follows (queue.rotate 1) turns

/-- As many turns as there are elements go to each of them once, in the order of the
ring, and end with the element they began after; between two turns of one element every
other has one. -/
structure InTurn [DecidableEq α] (queue turns : List α) : Prop where
  window : ∀ i, i + queue.length ≤ turns.length →
    (turns.drop i).take queue.length = queue.rotate (i + 1)
  again : ∀ i (h : i + queue.length < turns.length), turns[i + queue.length] = turns[i]
  between : ∀ i j (hij : i < j) (hj : j < turns.length), turns[j] = turns[i] →
    (∀ k (_ : i < k) (hk : k < j), turns[k] ≠ turns[i]) →
      ∀ c ∈ queue, c ≠ turns[i] → ((turns.drop (i + 1)).take (j - (i + 1))).count c = 1

theorem Follows.head? (h : Follows queue turns) (hi : i < turns.length) :
    (queue.rotate (i + 1)).head? = some turns[i] := by
  induction turns generalizing queue i with
  | nil => exact absurd hi (Nat.not_lt_zero i)
  | cons t turns ih =>
    obtain ⟨hhead, hrest⟩ := h
    cases i with
    | zero => exact hhead
    | succ i =>
      have hih := ih hrest (Nat.lt_of_succ_lt_succ hi)
      rw [List.rotate_rotate, Nat.add_comm 1] at hih
      exact hih

theorem Follows.getElem? (h : Follows queue turns) (hi : i < turns.length) :
    queue[(i + 1) % queue.length]? = some turns[i] := by
  have hhead := h.head? hi
  have hne : queue ≠ [] := by
    rintro rfl
    simp at hhead
  rwa [← List.rotate_mod, List.head?_rotate (Nat.mod_lt _ (List.length_pos_of_ne_nil hne))] at hhead

theorem Follows.getElem_eq (h : Follows queue turns) (hi : i < turns.length) :
    ∃ hlt : (i + 1) % queue.length < queue.length, turns[i] = queue[(i + 1) % queue.length] := by
  obtain ⟨hlt, heq⟩ := List.getElem?_eq_some_iff.mp (h.getElem? hi)
  exact ⟨hlt, heq.symm⟩

theorem Follows.window (h : Follows queue turns) (hi : i + queue.length ≤ turns.length) :
    (turns.drop i).take queue.length = queue.rotate (i + 1) := by
  refine List.ext_getElem ?_ fun j hj hj' => ?_
  · rw [List.length_take, List.length_drop, List.length_rotate]
    omega
  · rw [List.length_rotate] at hj'
    obtain ⟨hlt, heq⟩ := h.getElem_eq (i := i + j) (by omega)
    rw [List.getElem_take, List.getElem_drop, List.getElem_rotate, heq]
    simp only [Nat.add_assoc, Nat.add_left_comm j i]

theorem Follows.again (h : Follows queue turns) (hi : i + queue.length < turns.length) :
    turns[i + queue.length] = turns[i] := by
  obtain ⟨hlt, heq⟩ := h.getElem_eq (show i < turns.length by omega)
  obtain ⟨hlt', heq'⟩ := h.getElem_eq hi
  have hplace : (i + queue.length + 1) % queue.length = (i + 1) % queue.length := by
    rw [Nat.add_right_comm, Nat.add_mod_right]
  simp only [heq, heq', hplace]

/-- An element without repetitions has its next turn after those of all others. -/
theorem Follows.next_turn {j : ℕ} (h : Follows queue turns) (hqueue : queue.Nodup) (hij : i < j)
    (hj : j < turns.length) (hsame : turns[j] = turns[i])
    (hnot : ∀ k (_ : i < k) (hk : k < j), turns[k] ≠ turns[i]) : j = i + queue.length := by
  obtain ⟨hlt, heq⟩ := h.getElem_eq (show i < turns.length by omega)
  obtain ⟨hlt', heq'⟩ := h.getElem_eq hj
  have hplace : (j + 1) % queue.length = (i + 1) % queue.length := by
    rw [heq, heq'] at hsame
    exact (hqueue.getElem_inj_iff).mp hsame
  have hdvd : queue.length ∣ j - i := by
    have hdvd := Nat.sub_mod_eq_zero_of_mod_eq hplace
    rw [Nat.add_sub_add_right] at hdvd
    exact Nat.dvd_of_mod_eq_zero hdvd
  have hle := Nat.le_of_dvd (by omega) hdvd
  by_contra hne
  exact hnot (i + queue.length) (by omega) (by omega) (h.again (by omega))

theorem Follows.inTurn [DecidableEq α] (h : Follows queue turns) (hqueue : queue.Nodup) :
    InTurn queue turns where
  window _ hi := h.window hi
  again _ hi := h.again hi
  between i j hij hj hsame hnot c hc hne := by
    obtain rfl := h.next_turn hqueue hij hj hsame hnot
    have hwindow := h.window (i := i) (by omega)
    have hcount : (queue.rotate (i + 1)).count c = 1 := by
      rw [(List.rotate_perm ..).count_eq, List.count_eq_one_of_mem hqueue hc]
    have hcons : (turns.drop i).take queue.length =
        turns[i] :: (turns.drop (i + 1)).take (i + queue.length - (i + 1)) := by
      have hlen : queue.length = i + queue.length - (i + 1) + 1 := by omega
      rw [List.drop_eq_getElem_cons (show i < turns.length by omega)]
      nth_rewrite 1 [hlen]
      rw [List.take_succ_cons]
    rwa [← hwindow, hcons, List.count_cons_of_ne (Ne.symm hne)] at hcount

def startingAt [DecidableEq α] (a : α) (l : List α) : List α := l.rotate (l.idxOf a)

section

variable [DecidableEq α]

theorem startingAt_eq {l' : List α} (hl : l.Nodup) (h : l ~r a :: l') :
    startingAt a l = a :: l' := by
  obtain ⟨n, hrot⟩ := h
  have hpos : 0 < l.length := by
    rw [← List.length_rotate l n, hrot]
    exact Nat.succ_pos _
  have hlt := Nat.mod_lt n hpos
  rw [← List.rotate_mod] at hrot
  have hhead : l[n % l.length]? = some a := by
    rw [← List.head?_rotate hlt, hrot, List.head?_cons]
  obtain ⟨_, heq⟩ := List.getElem?_eq_some_iff.mp hhead
  rw [startingAt, ← heq, hl.idxOf_getElem, hrot, heq]

theorem filter_startingAt_next (hl : (l₁ ++ a :: l₂).Nodup) (ha : p a)
    (hb : (l₂ ++ l₁).find? p = some b) :
    (startingAt b (l₁ ++ a :: l₂)).filter p =
      ((startingAt a (l₁ ++ a :: l₂)).filter p).rotate 1 := by
  obtain ⟨hpb, before, after, hsplit, hbefore⟩ := List.find?_eq_some_iff_append.mp hb
  have hfrom : (l₁ ++ a :: l₂) ~r a :: (before ++ b :: after) := by
    rw [← hsplit]
    exact List.isRotated_append
  have hturn : (a :: (before ++ b :: after)) ~r b :: (after ++ a :: before) :=
    @List.isRotated_append _ (a :: before) (b :: after)
  have hnone : before.filter p = [] := List.filter_eq_nil_iff.mpr fun c hc => by
    simpa using hbefore c hc
  rw [startingAt_eq hl (hfrom.trans hturn), startingAt_eq hl hfrom]
  simp [List.filter_append, ha, hpb, hnone]

end

end RubiKernel.Rotation
