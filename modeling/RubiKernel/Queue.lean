import RubiKernel.Clist.Runs

/-! `lib/queue.c`: a queue on a cyclic list. A record is pushed behind the last node
and popped from the head. -/

universe u

namespace RubiKernel.Queue

open Clist Cyclic Lts

/-- What `memcpy` takes from a slot: the list head, the pointer after it and the
user's part. -/
structure Slot (α : Type u) where
  head : ClistHead
  data : Word
  body : α
  deriving DecidableEq

structure QueueDef (α : Type u) where
  clist : Clist
  data : Word → Word
  body : Word → α

variable {α : Type u}

def QueueDef.slot (q : QueueDef α) (n : Word) : Slot α := ⟨q.clist.node n, q.data n, q.body n⟩

/-- `n` is the slot that `syscall_malloc` returns; `clist_init` zeroes it. -/
def queuePush [Inhabited α] (q : QueueDef α) (n : Word) : QueueDef α where
  clist := q.clist.clistInsertAfter q.clist.tail n
  data := Function.update q.data n n
  body :=
    if q.clist.tail = 0 ∨ q.clist.slots = 0 then Function.update q.body n default else q.body

/-- What `buff` holds at the end, or NULL. -/
def queuePop (q : QueueDef α) : QueueDef α × Option (Slot α) :=
  let entry := q.clist.head
  if entry ≠ 0 then ({ q with clist := q.clist.clistDelete entry }, some (q.slot entry))
  else (q, none)

inductive Call (α : Type u)
  | push (n : Word)
  | fill (n : Word) (value : α)
  | pop

/-- The queue; the records pushed so far; how many are popped; whether a `queue_pop`
has found three or more of them in the queue. -/
structure History (α : Type u) where
  queue : QueueDef α
  pushed : List Word
  popped : Nat
  crowded : Bool

def History.exec [Inhabited α] (s : History α) : Call α → Option (History α)
  | .push n =>
    if n ∉ 0 :: s.queue.clist.members then
      some { s with queue := queuePush s.queue n, pushed := s.pushed ++ [n] }
    else none
  | .fill n value =>
    if n ∈ s.queue.clist.members then
      some { s with queue := { s.queue with body := Function.update s.queue.body n value } }
    else none
  | .pop =>
    let r := queuePop s.queue
    some { s with
      queue := r.1
      popped := if r.2.isSome then s.popped + 1 else s.popped
      crowded := s.crowded || 3 ≤ s.queue.clist.slots.toNat }

def histories [Inhabited α] : System (History α) (Call α) where
  start s := runs.start s.queue.clist ∧ s.pushed = [] ∧ s.popped = 0 ∧ s.crowded = false
  step s call t := s.exec call = some t

/-- A `queue_pop` after `k` successful ones copies the slot of the `k`-th record, and
returns NULL when there is none. -/
def PopsNext (s : History α) (call : Call α) (_ : History α) : Prop :=
  match call with
  | .pop => (queuePop s.queue).2 = s.pushed[s.popped]?.map s.queue.slot
  | _ => True

/-- No `queue_pop` after one that found three or more records. -/
def Uncrowded (s : History α) (call : Call α) (_ : History α) : Prop :=
  match call with
  | .pop => s.crowded = false
  | _ => True

variable [Inhabited α] {s t : History α} {l : List Word} {n : Word} {call : Call α}

structure Fifo (s : History α) (l : List Word) : Prop where
  ring : RingOf s.queue.clist l
  last : EndsAt s.queue.clist l
  pending : l = s.pushed.drop s.popped
  bound : s.popped ≤ s.pushed.length
  calm : s.crowded = false

/-- Another record than the next one is at the head. -/
structure Jumped (s : History α) (l : List Word) : Prop where
  ring : RingOf s.queue.clist l
  behind : ∃ d ∈ l, s.pushed[s.popped]? = some d ∧ d ≠ s.queue.clist.head
  crowded : s.crowded = true

def QueueInv (s : History α) : Prop := ∃ l, Fifo s l ∨ Jumped s l

omit [Inhabited α] in
theorem ring_head_ne_zero (h : RingOf s.queue.clist l) (hl : l ≠ []) : s.queue.clist.head ≠ 0 := by
  rw [h.head]
  cases l with
  | nil => exact absurd rfl hl
  | cons i l => exact h.ne_zero (by simp)

omit [Inhabited α] in
theorem queuePop_nonempty (h : RingOf s.queue.clist l) (hl : l ≠ []) :
    queuePop s.queue =
      ({ s.queue with clist := s.queue.clist.clistDelete s.queue.clist.head },
        some (s.queue.slot s.queue.clist.head)) := by
  rw [queuePop]
  exact if_pos (ring_head_ne_zero h hl)

omit [Inhabited α] in
theorem queuePop_empty (h : RingOf s.queue.clist []) : queuePop s.queue = (s.queue, none) := by
  have hhead : s.queue.clist.head = 0 := h.head
  simp [queuePop, hhead]

omit [Inhabited α] in
theorem Fifo.popsNext (h : Fifo s l) : PopsNext s .pop t := by
  show (queuePop s.queue).2 = _
  rw [← List.head?_drop, ← h.pending]
  cases l with
  | nil => rw [queuePop_empty h.ring, List.head?_nil, Option.map_none]
  | cons i l =>
    have hhead : s.queue.clist.head = i := h.ring.head
    rw [queuePop_nonempty h.ring (List.cons_ne_nil i l), hhead, List.head?_cons, Option.map_some]

omit [Inhabited α] in
theorem Jumped.not_popsNext (h : Jumped s l) : ¬PopsNext s .pop t := by
  obtain ⟨d, hd, hnext, hne⟩ := h.behind
  have hl : l ≠ [] := List.ne_nil_of_mem hd
  have hhead : s.queue.clist.head ∈ l := by
    rw [h.ring.head]
    cases l with
    | nil => exact absurd rfl hl
    | cons i l => simp
  show (queuePop s.queue).2 ≠ _
  rw [queuePop_nonempty h.ring hl, hnext, Option.map_some]
  intro heq
  have hslot : s.queue.clist.node s.queue.clist.head = s.queue.clist.node d :=
    congrArg Slot.head (Option.some.inj heq)
  have hdata := congrArg ClistHead.data hslot
  rw [h.ring.data _ hhead, h.ring.data d hd] at hdata
  exact hne hdata.symm

theorem ring_push {ct : Clist} (h : RingOf ct l) (he : EndsAt ct l) (hn : n ∉ 0 :: l) :
    RingOf (ct.clistInsertAfter ct.tail n) (l ++ [n]) ∧
      EndsAt (ct.clistInsertAfter ct.tail n) (l ++ [n]) := by
  rcases List.eq_nil_or_concat' l with rfl | ⟨l, x, rfl⟩
  · exact h.insert_empty (by simpa using hn)
  · have hsplit : (l ++ [x]) ++ [n] = l ++ x :: n :: [] := by simp
    rw [endsAt_concat.mp he, hsplit]
    exact ⟨h.clistInsertAfter hn, he.insert h⟩

theorem Fifo.push (h : Fifo s l) (hn : n ∉ 0 :: l) :
    Fifo { s with queue := queuePush s.queue n, pushed := s.pushed ++ [n] } (l ++ [n]) where
  ring := (ring_push h.ring h.last hn).1
  last := (ring_push h.ring h.last hn).2
  pending := by rw [List.drop_append_of_le_length h.bound, h.pending]
  bound := by
    have hle := h.bound
    rw [List.length_append]
    exact Nat.le_add_right_of_le hle
  calm := h.calm

theorem Jumped.push (h : Jumped s l) (hn : n ∉ 0 :: l) :
    ∃ l', Jumped { s with queue := queuePush s.queue n, pushed := s.pushed ++ [n] } l' := by
  obtain ⟨d, hd, hnext, hne⟩ := h.behind
  have hl : l ≠ [] := List.ne_nil_of_mem hd
  have htail := h.ring.tail.resolve_right fun htail => hl htail.2
  obtain ⟨l₁, l₂, hsplit⟩ := List.append_of_mem htail
  have hring := h.ring
  rw [hsplit] at hring hn
  refine ⟨_, hring.clistInsertAfter hn, ⟨d, ?_, ?_, ?_⟩, h.crowded⟩
  · rw [hsplit] at hd
    simp only [List.mem_append, List.mem_cons] at hd ⊢
    tauto
  · show (s.pushed ++ [n])[s.popped]? = some d
    rw [List.getElem?_append_left (List.getElem?_eq_some_iff.mp hnext).1, hnext]
  · have hhead : (queuePush s.queue n).clist.head = s.queue.clist.head :=
      hring.insert_head
    rw [hhead]
    exact hne

omit [Inhabited α] in
theorem Fifo.pop (h : Fifo s l) : QueueInv { s with
    queue := (queuePop s.queue).1
    popped := if (queuePop s.queue).2.isSome then s.popped + 1 else s.popped
    crowded := s.crowded || 3 ≤ s.queue.clist.slots.toNat } := by
  have hslots := h.ring.slots
  have hcalm := h.calm
  rcases l with - | ⟨i, l⟩
  · rw [queuePop_empty h.ring]
    refine ⟨[], .inl ⟨h.ring, h.last, h.pending, h.bound, ?_⟩⟩
    simp [hcalm, hslots]
  · have hhead : s.queue.clist.head = i := h.ring.head
    have hdrop : s.pushed.drop (s.popped + 1) = l := by
      rw [← List.tail_drop, ← h.pending, List.tail_cons]
    have hbound : s.popped + 1 ≤ s.pushed.length := by
      have hlen := congrArg List.length h.pending
      rw [List.length_drop, List.length_cons] at hlen
      omega
    rw [queuePop_nonempty h.ring (List.cons_ne_nil i l), hhead]
    rcases List.eq_nil_or_concat' l with rfl | ⟨l, x, rfl⟩
    · refine ⟨[], .inl ⟨h.ring.clistDelete_single, ?_, hdrop.symm, hbound, ?_⟩⟩
      · exact h.ring.clistDelete_single_endsAt
      · simp [hcalm, hslots]
    · have hring := h.ring.clistDelete_head
      have htail := h.last.delete_head h.ring
      rcases l with - | ⟨j, l⟩
      · refine ⟨[x], .inl ⟨hring, htail, hdrop.symm, hbound, ?_⟩⟩
        simp [hcalm, hslots]
      · refine ⟨_, .inr ⟨hring, ⟨j, by simp, ?_, ?_⟩, ?_⟩⟩
        · show s.pushed[s.popped + 1]? = some j
          rw [← List.head?_drop, hdrop]
          rfl
        · have hx : (s.queue.clist.clistDelete i).head = x := hring.head
          have hnodup := hring.nodup
          simp only [hx]
          grind
        · simp [hslots]

theorem QueueInv.start (hs : histories.start s) : QueueInv s := by
  obtain ⟨hclist, hpushed, hpopped, hcalm⟩ := hs
  refine ⟨[], .inl ⟨ringOf_start hclist, hclist.2.2, ?_, ?_, hcalm⟩⟩
  · simp [hpushed]
  · simp [hpopped]

omit [Inhabited α] in
theorem QueueInv.agree (h : QueueInv s) : PopsNext s call t ↔ Uncrowded s call t := by
  cases call with
  | push n => exact Iff.rfl
  | fill n value => exact Iff.rfl
  | pop =>
    obtain ⟨l, h | h⟩ := h
    · exact iff_of_true h.popsNext h.calm
    · refine iff_of_false h.not_popsNext fun hcalm => ?_
      exact Bool.false_ne_true (hcalm.symm.trans h.crowded)

theorem QueueInv.step (h : QueueInv s) (hstep : histories.step s call t)
    (hcalm : Uncrowded s call t) : QueueInv t := by
  obtain ⟨l, h⟩ := h
  cases call with
  | push n =>
    obtain ⟨hn, heq⟩ := Option.ite_none_right_eq_some.mp hstep
    obtain rfl := Option.some.inj heq
    rcases h with h | h
    · rw [h.ring.members_eq] at hn
      exact ⟨_, .inl (h.push hn)⟩
    · rw [h.ring.members_eq] at hn
      obtain ⟨l', h'⟩ := h.push hn
      exact ⟨l', .inr h'⟩
  | fill n value =>
    obtain ⟨-, heq⟩ := Option.ite_none_right_eq_some.mp hstep
    obtain rfl := Option.some.inj heq
    rcases h with h | h
    · exact ⟨l, .inl ⟨h.ring, h.last, h.pending, h.bound, h.calm⟩⟩
    · exact ⟨l, .inr ⟨h.ring, h.behind, h.crowded⟩⟩
  | pop =>
    obtain rfl := Option.some.inj hstep
    rcases h with h | h
    · exact h.pop
    · exact absurd (hcalm.symm.trans h.crowded) Bool.false_ne_true

/-- Records are popped in the order in which they were pushed exactly in the runs in
which a pop that finds three or more records is the last one. -/
theorem queue_fifo_iff {tr : List (Call α × History α)} (hs : histories.start s)
    (htr : histories.Trace s tr) : Every PopsNext s tr ↔ Every Uncrowded s tr :=
  htr.every_iff (fun _ _ _ h _ => h.agree) (fun _ _ _ h hstep hnext => h.step hstep (h.agree.mp hnext))
    (QueueInv.start hs)

instance : Decidable (Uncrowded s call t) :=
  match call with
  | .push _ => inferInstanceAs (Decidable True)
  | .fill _ _ => inferInstanceAs (Decidable True)
  | .pop => inferInstanceAs (Decidable (_ = _))

instance [DecidableEq α] : Decidable (PopsNext s call t) :=
  match call with
  | .push _ => inferInstanceAs (Decidable True)
  | .fill _ _ => inferInstanceAs (Decidable True)
  | .pop => inferInstanceAs (Decidable (_ = _))

def emptyHistory : History Nat where
  queue := { clist := zeroed, data := fun _ => 0, body := fun _ => 0 }
  pushed := []
  popped := 0
  crowded := false

/-- Two records go in and come out, and a third pop finds none. -/
theorem queue_fifo_iff_example : ∃ tr, histories.Trace emptyHistory tr ∧ tr.length = 7 ∧
    Every PopsNext emptyHistory tr := by
  have hrun : (replay History.exec emptyHistory
      [.push 16, .fill 16 1, .push 32, .fill 32 2, .pop, .pop, .pop]).any (fun tr =>
        tr.length = 7 ∧ Every Uncrowded emptyHistory tr) = true := by decide
  obtain ⟨tr, -, htrace, hlen, hcalm⟩ :=
    System.Trace.exists_of_replay (M := histories) (fun _ _ _ h => h) hrun
  exact ⟨tr, htrace, hlen, (queue_fifo_iff ⟨⟨rfl, rfl, rfl⟩, rfl, rfl, rfl⟩ htrace).mpr hcalm⟩

/-- Three records go in: the second pop takes the third one. -/
theorem queue_pop_skips : ¬∀ (s : History Nat) tr, histories.start s → histories.Trace s tr →
    Every PopsNext s tr := by
  intro hall
  have hrun : (replay History.exec emptyHistory
      [.push 16, .push 32, .push 48, .pop, .pop]).any (fun tr =>
        ¬Every PopsNext emptyHistory tr) = true := by decide
  obtain ⟨tr, -, htrace, hwrong⟩ :=
    System.Trace.exists_of_replay (M := histories) (fun _ _ _ h => h) hrun
  exact hwrong (hall _ tr ⟨⟨rfl, rfl, rfl⟩, rfl, rfl, rfl⟩ htrace)

end RubiKernel.Queue
