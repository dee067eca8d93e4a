import Mathlib.Algebra.Group.Basic
import RubiKernel.Heap.Blocks

/-! `kmalloc` and `kfree` on a well-formed heap are `BlockMalloc` and
`BlockFree` on its blocks. -/

namespace RubiKernel.Heap

variable {h : Kheap} {l pre post : List Nat} {n : Nat} {p : Option Nat} {size ptr : Word}
  {c : KheapEntry} {es fs : List KheapEntry}

abbrev blocks (h : Kheap) (l : List Nat) : List KheapEntry := l.map h.body

theorem entryOf_eq (hr : h.Repr l) (hn : n ∈ l) : entryOf h n = .ok n := by
  simp [entryOf, hr.data n hn]

theorem neighbour_eq (hr : h.Repr l) (hp : ∀ i ∈ p, i ∈ l) : neighbour h p = .ok p := by
  cases p with
  | none => rfl
  | some i => simp [neighbour, entryOf_eq hr (hp i rfl)]

theorem freeEntry_of_busy (hp : ∀ i ∈ p, (h.body i).isBusy = true) : freeEntry h p = none := by
  cases p with
  | none => rfl
  | some i => simp [freeEntry, hp i rfl]

theorem freeEntry_of_free (hn : (h.body n).isBusy = false) : freeEntry h (some n) = some n := by
  simp [freeEntry, hn]

theorem getLast?_busy (hes : ∀ e ∈ (blocks h l).getLast?, e.isBusy = true) :
    ∀ i ∈ l.getLast?, (h.body i).isBusy = true := by
  intro i hi
  rw [Option.mem_def] at hi
  exact hes _ (by simp [hi])

theorem head?_busy (hes : ∀ e ∈ (blocks h l).head?, e.isBusy = true) :
    ∀ i ∈ l.head?, (h.body i).isBusy = true := by
  intro i hi
  rw [Option.mem_def] at hi
  exact hes _ (by simp [hi])

def heldAt (h : Kheap) (l : List Nat) : List (Nat × KheapEntry) :=
  (l.map fun i => (i, h.body i)).filter (·.2.isBusy)

theorem heldAt_congr {h' : Kheap} (heq : blocks h' l = blocks h l) : heldAt h' l = heldAt h l := by
  have hbody := List.map_inj_left.mp heq
  exact congrArg _ (List.map_congr_left fun i hi => by rw [hbody i hi])

theorem heldAt_append : heldAt h (pre ++ post) = heldAt h pre ++ heldAt h post := by
  simp [heldAt]

theorem heldAt_cons_busy (hn : (h.body n).isBusy = true) :
    heldAt h (n :: l) = (n, h.body n) :: heldAt h l := by
  simp [heldAt, hn]

theorem heldAt_cons_free (hn : (h.body n).isBusy = false) : heldAt h (n :: l) = heldAt h l := by
  simp [heldAt, hn]

theorem map_snd_heldAt : (heldAt h l).map Prod.snd = (blocks h l).filter (·.isBusy) := by
  simp [heldAt, List.filter_map, Function.comp_def]

theorem blocks_append (hblocks : blocks h (pre ++ n :: post) = es ++ c :: fs)
    (hlen : pre.length = es.length) : blocks h pre = es ∧ h.body n = c ∧ blocks h post = fs := by
  rw [blocks, List.map_append, List.map_cons] at hblocks
  obtain ⟨hpre, htail⟩ := List.append_inj hblocks (by simpa using hlen)
  exact ⟨hpre, List.cons.inj htail⟩

inductive ScanResult (h : Kheap) (size : Word) : List Nat → KmallocExit → Prop
  | extend {pre : List Nat} {n : Nat} (free : (h.body n).isBusy = false)
      (small : (h.body n).size < size) (unfit : ∀ e ∈ blocks h pre, Unfit size e)
      (room : (h.body n).addr + size < kheapLimit) :
      ScanResult h size (pre ++ [n]) (.extend n (size - (h.body n).size))
  | take {pre post : List Nat} {n : Nat} (free : (h.body n).isBusy = false)
      (fit : size ≤ (h.body n).size) :
      ScanResult h size (pre ++ n :: post) (.take n n)
  | append {l : List Nat} (unfit : ∀ e ∈ blocks h l, Unfit size e)
      (stuck : ¬Extendable size (blocks h l)) :
      ScanResult h size l .append

theorem kmallocScan_spec {fuel : Nat} (hr : h.Repr (pre ++ post))
    (hes : WellFormed (blocks h (pre ++ post))) (hfuel : post.length ≤ fuel)
    (hunfit : ∀ e ∈ blocks h pre, Unfit size e)
    (hstuck : post = [] → ¬Extendable size (blocks h pre)) :
    ∃ out, kmallocScan h size fuel post.head? = .ok out ∧ ScanResult h size (pre ++ post) out := by
  induction post generalizing pre fuel with
  | nil =>
    refine ⟨.append, by simp [kmallocScan], ?_⟩
    rw [List.append_nil]
    exact .append hunfit (hstuck rfl)
  | cons n post ih =>
    obtain ⟨fuel, rfl⟩ : ∃ k, fuel = k + 1 := ⟨fuel - 1, by simp at hfuel; omega⟩
    have hnext := hr.next_of_append
    have hentry := entryOf_eq hr (show n ∈ pre ++ n :: post by simp)
    have hassoc : pre ++ n :: post = (pre ++ [n]) ++ post := by simp
    -- The loop goes on: `n` joins the blocks that were passed over.
    have hskip : Unfit size (h.body n) → (post = [] → ¬Extendable size (blocks h (pre ++ [n]))) →
        ∃ out, kmallocScan h size fuel post.head? = .ok out ∧
          ScanResult h size (pre ++ n :: post) out := by
      intro hn hext
      rw [hassoc] at hr hes ⊢
      refine ih hr hes (by simpa using hfuel) ?_ hext
      intro e he
      simp only [blocks, List.map_append, List.mem_append, List.map_cons, List.map_nil,
        List.mem_singleton] at he
      rcases he with he | rfl
      · exact hunfit e he
      · exact hn
    rw [List.head?_cons, kmallocScan, hentry]
    cases hbusy : (h.body n).isBusy with
    | true =>
      have hlast : ¬Extendable size (blocks h (pre ++ [n])) := by simp [Extendable, hbusy]
      simpa [bind, Except.bind, hbusy, hnext] using hskip (.inl hbusy) fun _ => hlast
    | false =>
      by_cases hsmall : (h.body n).size < size
      · have hprev := hr.prev_of_append
        have hmem : ∀ i ∈ pre.getLast?, i ∈ pre ++ n :: post := fun i hi => by
          simp [List.mem_of_getLast? hi]
        have hfree : freeEntry h pre.getLast? = none :=
          freeEntry_of_busy (getLast?_busy fun e he => by
            rw [blocks, List.map_append, List.map_cons] at hes
            exact ((coalesced_free hbusy).mp hes.coalesced).1.2 e he)
        have hroom : (h.body n).addr + (h.body n).size + (size - (h.body n).size) =
            (h.body n).addr + size := add_add_sub_cancel ..
        simp only [bind, Except.bind, hbusy, hsmall, hprev, neighbour_eq hr hmem, hfree, hroom,
          hnext]
        by_cases hext : post.head? = none ∧ (h.body n).addr + size < kheapStartAddr + kheapSize
        · rw [if_pos hext]
          obtain ⟨hpost, hlt⟩ := hext
          obtain rfl := List.head?_eq_none_iff.mp hpost
          exact ⟨_, rfl, .extend hbusy hsmall hunfit hlt⟩
        · rw [if_neg hext]
          have hlast : post = [] → ¬Extendable size (blocks h (pre ++ [n])) := by
            rintro rfl
            simpa [Extendable, hbusy] using hext
          exact hskip (.inr hsmall) hlast
      · exact ⟨.take n n, by simp [bind, Except.bind, hbusy, hsmall, pure, Except.pure],
          .take hbusy (BitVec.not_lt.mp hsmall)⟩

/-- The call left `h'`, a heap whose blocks are `es'`. -/
def Leaves (h h' : Kheap) (es' : List KheapEntry) : Prop :=
  h'.slots = h.slots ∧ ∃ l', h'.Repr l' ∧ blocks h' l' = es'

theorem extendLast_eq {sizeDiff : Word} :
    extendLast h n sizeDiff =
      (h.modifyBody n fun e => ⟨e.addr, e.size + sizeDiff, true⟩, (h.body n).addr) := by
  simp [extendLast]

theorem extendLast_spec {sizeDiff : Word} (hr : h.Repr (pre ++ [n]))
    (hdiff : (h.body n).size + sizeDiff = size) :
    ∃ h', extendLast h n sizeDiff = (h', (h.body n).addr) ∧ h'.slots = h.slots ∧
      h'.Repr (pre ++ [n]) ∧
      blocks h' (pre ++ [n]) = blocks h pre ++ [⟨(h.body n).addr, size, true⟩] := by
  refine ⟨_, extendLast_eq, rfl, hr.modifyBody _ _, ?_⟩
  rw [blocks, hr.map_modifyBody, hdiff]
  rfl

theorem splitBlock_body {m : Nat} {sizeDiff : Word} (i : Nat) (hne : n ≠ m) :
    (splitBlock h n m sizeDiff).body i =
      if i = n then { h.body n with size := (h.body n).size - sizeDiff }
      else if i = m then ⟨(h.body n).addr + ((h.body n).size - sizeDiff), sizeDiff, false⟩
      else h.body i := by
  by_cases hn : i = n
  · subst hn
    simp [splitBlock, hne]
  · simp [splitBlock, hn]

theorem splitBlock_spec {m : Nat} (sizeDiff : Word) (hr : h.Repr (pre ++ n :: m :: post)) :
    (splitBlock h n m sizeDiff).Repr (pre ++ n :: m :: post) ∧
      ((splitBlock h n m sizeDiff).body n).addr = (h.body n).addr ∧
      blocks (splitBlock h n m sizeDiff) (pre ++ n :: m :: post) = blocks h pre ++
        ⟨(h.body n).addr, (h.body n).size - sizeDiff, (h.body n).isBusy⟩ ::
          ⟨(h.body n).addr + ((h.body n).size - sizeDiff), sizeDiff, false⟩ :: blocks h post := by
  obtain ⟨hnpre, hnpost⟩ := hr.not_mem_of_append
  have hassoc : pre ++ n :: m :: post = (pre ++ [n]) ++ m :: post := by simp
  obtain ⟨hmpre, hmpost⟩ := (hassoc ▸ hr).not_mem_of_append
  have hne : n ≠ m := fun heq => hnpost (heq ▸ by simp)
  refine ⟨?_, by simp [splitBlock_body n hne], ?_⟩
  · unfold splitBlock
    exact (hr.modifyBody _ _).modifyBody _ _
  have hpre : ∀ i ∈ pre, (splitBlock h n m sizeDiff).body i = h.body i := fun i hi => by
    have hin : i ≠ n := fun heq => hnpre (heq ▸ hi)
    have him : i ≠ m := fun heq => hmpre (heq ▸ by simp [hi])
    simp [splitBlock_body i hne, hin, him]
  have hpost : ∀ i ∈ post, (splitBlock h n m sizeDiff).body i = h.body i := fun i hi => by
    have hin : i ≠ n := fun heq => hnpost (heq ▸ by simp [hi])
    have him : i ≠ m := fun heq => hmpost (heq ▸ hi)
    simp [splitBlock_body i hne, hin, him]
  simp [List.map_congr_left hpre, List.map_congr_left hpost, splitBlock_body, hne, hne.symm]

theorem takeBlock_eq {h₁ : Kheap} (hh₁ : h.modifyBody n (fun e => { e with isBusy := true }) = h₁)
    (hneigh : neighbour h₁ (h.links n).next = .ok p) (hfree : freeEntry h₁ p = none) :
    takeBlock h size n n =
      match slistInsertAfter h₁ (some n) with
      | (_, none) => .error .nullDeref
      | (h₂, some elem) =>
        match (h₂.links elem).data with
        | none => .ok (h₂, (h₂.body n).addr)
        | some next =>
          .ok (splitBlock h₂ n next ((h₁.body n).size - size),
            ((splitBlock h₂ n next ((h₁.body n).size - size)).body n).addr) := by
  have hlinks : (h₁.links n).next = (h.links n).next := by rw [← hh₁]; rfl
  simp only [takeBlock, hh₁, bind, Except.bind, hlinks, hneigh, hfree]
  rfl

theorem takeBlock_spec (hr : h.Repr (pre ++ n :: post))
    (hnext : ∀ i ∈ post.head?, (h.body i).isBusy = true) :
    (∃ h' m, takeBlock h size n n = .ok (h', (h.body n).addr) ∧ h'.slots = h.slots ∧
      h'.Repr (pre ++ n :: m :: post) ∧
      blocks h' (pre ++ n :: m :: post) = blocks h pre ++ ⟨(h.body n).addr, size, true⟩ ::
        ⟨(h.body n).addr + size, (h.body n).size - size, false⟩ :: blocks h post) ∨
    takeBlock h size n n = .error .nullDeref ∧ h.findFree = none := by
  obtain ⟨hnpre, hnpost⟩ := hr.not_mem_of_append
  obtain ⟨h₁, hh₁⟩ : ∃ h₁, h.modifyBody n (fun e => { e with isBusy := true }) = h₁ := ⟨_, rfl⟩
  have hr₁ : h₁.Repr ((pre ++ [n]) ++ post) := by
    rw [List.append_assoc, ← hh₁]
    exact hr.modifyBody n _
  have hkeep₁ : ∀ i ≠ n, h₁.body i = h.body i := fun i hi => by simp [← hh₁, hi]
  have hcur : h₁.body n = { h.body n with isBusy := true } := by simp [← hh₁]
  have hneigh : neighbour h₁ (h.links n).next = .ok post.head? := by
    rw [hr.next_of_append]
    exact neighbour_eq hr₁ fun i hi => by simp [List.mem_of_head? hi]
  have hfree : freeEntry h₁ post.head? = none :=
    freeEntry_of_busy fun i hi => by
      have hin : i ≠ n := fun heq => hnpost (heq ▸ List.mem_of_head? hi)
      rw [hkeep₁ i hin, hnext i hi]
  rw [takeBlock_eq hh₁ hneigh hfree]
  have hlast : (pre ++ [n]).getLast? = some n := by simp
  cases hf : h₁.findFree with
  | none =>
    rw [SlistDef.slistInsertAfter_full hf]
    refine .inr ⟨rfl, ?_⟩
    rw [← hf, ← hh₁, SlistDef.modifyBody_findFree]
  | some m =>
    obtain ⟨h₂, hins, hslots, hr₂, hkeep₂, hmap⟩ := hr₁.insertAfter_spec hf
    rw [hlast] at hins
    have hnm : n ≠ m := fun heq => hr₁.free_not_mem hf (by simp [heq])
    have hfree := hr₁.free_not_mem hf
    have hkeep : ∀ i ∈ pre ++ post, h₂.body i = h.body i := fun i hi => by
      have him : i ≠ m := fun heq => hfree (by rw [← heq]; simp at hi ⊢; tauto)
      have hin : i ≠ n := fun heq => by simp [heq, hnpre, hnpost] at hi
      rw [hkeep₂ i him, hkeep₁ i hin]
    rw [List.append_assoc] at hr₂
    obtain ⟨hr₃, haddr, hblocks⟩ := splitBlock_spec ((h₁.body n).size - size) hr₂
    rw [hins]
    simp only [hr₂.data m (by simp)]
    refine .inl ⟨splitBlock h₂ n m ((h₁.body n).size - size), m, ?_, ?_, hr₃, ?_⟩
    · rw [haddr, hkeep₂ n hnm, hcur]
    · rw [← hh₁] at hslots
      exact hslots
    · have hsize : (h.body n).size - ((h.body n).size - size) = size := sub_sub_cancel ..
      have hpre : blocks h₂ pre = blocks h pre :=
        List.map_congr_left fun i hi => hkeep i (by simp [hi])
      have hpost : blocks h₂ post = blocks h post :=
        List.map_congr_left fun i hi => hkeep i (by simp [hi])
      rw [hblocks, hpre, hpost, hkeep₂ n hnm, hcur]
      simp only [hsize]

theorem appendBlock_eq (hr : h.Repr l) (hadj : Adjacent (blocks h l)) :
    appendBlock h size =
      if kheapLimit ≤ blocksEnd (blocks h l) then .ok (h, 0)
      else
        match slistInsertAfter h l.getLast? with
        | (_, none) => .error .nullDeref
        | (h₁, some elem) => do
          let current ← entryOf h₁ elem
          return (h₁.modifyBody current fun _ => ⟨blocksEnd (blocks h l), size, true⟩,
            blocksEnd (blocks h l)) := by
  have hneigh : neighbour h l.getLast? = .ok l.getLast? :=
    neighbour_eq hr fun i hi => List.mem_of_getLast? hi
  simp only [appendBlock, hr.tail, hneigh, bind, Except.bind]
  cases hlast : l.getLast? with
  | none =>
    obtain rfl := List.getLast?_eq_none_iff.mp hlast
    rfl
  | some last =>
    have hend : blocksEnd (blocks h l) = (h.body last).addr + (h.body last).size :=
      hadj.endFrom_eq (by simp [hlast])
    rw [hend]
    rfl

theorem appendBlock_spec (hr : h.Repr l) (hadj : Adjacent (blocks h l))
    (hroom : blocksEnd (blocks h l) < kheapLimit) :
    (∃ h' m, appendBlock h size = .ok (h', blocksEnd (blocks h l)) ∧ h'.slots = h.slots ∧
      h'.Repr (l ++ [m]) ∧
      blocks h' (l ++ [m]) = blocks h l ++ [⟨blocksEnd (blocks h l), size, true⟩]) ∨
    appendBlock h size = .error .nullDeref ∧ h.findFree = none := by
  rw [appendBlock_eq hr hadj, if_neg (BitVec.not_le.mpr hroom)]
  cases hf : h.findFree with
  | none =>
    rw [SlistDef.slistInsertAfter_full hf]
    exact .inr ⟨rfl, rfl⟩
  | some m =>
    rw [← List.append_nil l] at hr
    obtain ⟨h₁, hins, hslots, hr₁, hkeep, -⟩ := hr.insertAfter_spec hf
    have hfree := hr.free_not_mem hf
    rw [hins]
    simp only [entryOf_eq hr₁ (n := m) (by simp)]
    refine .inl ⟨_, m, rfl, hslots, hr₁.modifyBody _ _, ?_⟩
    have hl : blocks h₁ l = blocks h l :=
      List.map_congr_left fun i hi => hkeep i fun heq => hfree (by simp [← heq, hi])
    rw [blocks, hr₁.map_modifyBody, ← hl]
    rfl

theorem kmallocScan_head (hr : h.Repr l) (hes : WellFormed (blocks h l)) (size : Word) :
    ∃ out, kmallocScan h size h.slots h.head = .ok out ∧ ScanResult h size l out := by
  have hnone : ¬Extendable size (blocks h []) := by simp [Extendable]
  have hscan : ∃ out, kmallocScan h size h.slots l.head? = .ok out ∧
      ScanResult h size ([] ++ l) out :=
    kmallocScan_spec hr hes hr.length_le (by simp) fun _ => hnone
  rwa [← hr.head] at hscan

theorem kmalloc_spec (hr : h.Repr l) (hes : WellFormed (blocks h l)) (size : Word) :
    (∃ h' ret es', kmalloc h size = .ok (h', ret) ∧ BlockMalloc size (blocks h l) es' ret ∧
      Leaves h h' es') ∨
    kmalloc h size = .error .nullDeref ∧ h.findFree = none := by
  obtain ⟨out, hscan, hout⟩ := kmallocScan_head hr hes size
  simp only [kmalloc, hscan, bind, Except.bind]
  cases hout with
  | @extend pre n free small unfit room =>
    have hdiff : (h.body n).size + (size - (h.body n).size) = size := add_sub_cancel ..
    obtain ⟨h', heq, hslots, hr', hblocks⟩ := extendLast_spec hr hdiff
    refine .inl ⟨h', (h.body n).addr, _, ?_, ?_, hslots, _, hr', hblocks⟩
    · simp only [heq]
      rfl
    · rw [blocks, List.map_append]
      exact .extend free small unfit room
  | @take pre post n free fit =>
    rw [blocks, List.map_append, List.map_cons] at hes ⊢
    have hnext := head?_busy ((coalesced_free free).mp hes.coalesced).2.2
    rcases takeBlock_spec hr hnext with ⟨h', m, heq, hslots, hr', hblocks⟩ | hfull
    · exact .inl ⟨h', (h.body n).addr, _, heq, .split free fit, hslots, _, hr', hblocks⟩
    · exact .inr hfull
  | append unfit stuck =>
    by_cases hroom : blocksEnd (blocks h l) < kheapLimit
    · rcases appendBlock_spec hr hes.adjacent hroom with ⟨h', m, heq, hslots, hr', hblocks⟩ | hfull
      · exact .inl ⟨h', _, _, heq, .append unfit stuck hroom, hslots, _, hr', hblocks⟩
      · exact .inr hfull
    · have hlim := BitVec.not_lt.mp hroom
      refine .inl ⟨h, 0, _, ?_, .full unfit stuck hlim, rfl, l, hr, rfl⟩
      simp only [appendBlock_eq hr hes.adjacent, if_pos hlim]

theorem kfreeScan_spec {fuel : Nat} (hr : h.Repr (pre ++ post)) (hfuel : post.length ≤ fuel) :
    (kfreeScan h ptr fuel post.head? = .ok none ∧
      ∀ e ∈ blocks h post, e.isBusy = true → e.addr ≠ ptr) ∨
    ∃ pre' n post', post = pre' ++ n :: post' ∧
      kfreeScan h ptr fuel post.head? = .ok (some (n, n)) ∧
      (∀ e ∈ blocks h pre', e.isBusy = true → e.addr ≠ ptr) ∧
      (h.body n).isBusy = true ∧ (h.body n).addr = ptr := by
  induction post generalizing pre fuel with
  | nil => exact .inl ⟨by simp [kfreeScan], by simp⟩
  | cons n post ih =>
    obtain ⟨fuel, rfl⟩ : ∃ k, fuel = k + 1 := ⟨fuel - 1, by simp at hfuel; omega⟩
    have hnext := hr.next_of_append
    rw [List.head?_cons, kfreeScan, entryOf_eq hr (by simp)]
    by_cases hhit : (h.body n).isBusy = true ∧ (h.body n).addr = ptr
    · refine .inr ⟨[], n, post, rfl, ?_, by simp, hhit⟩
      simp only [bind, Except.bind, if_pos hhit]
      rfl
    · have hassoc : pre ++ n :: post = (pre ++ [n]) ++ post := by simp
      rw [hassoc] at hr
      simp only [bind, Except.bind, if_neg hhit, hnext]
      have hpass : ∀ {l'}, (∀ e ∈ blocks h l', e.isBusy = true → e.addr ≠ ptr) →
          ∀ e ∈ blocks h (n :: l'), e.isBusy = true → e.addr ≠ ptr := fun hdead => by
        rw [blocks, List.map_cons, List.forall_mem_cons]
        exact ⟨fun hb ha => hhit ⟨hb, ha⟩, hdead⟩
      rcases ih hr (by simpa using hfuel) with
        ⟨hmiss, hdead⟩ | ⟨pre', m, post', rfl, hfound, hdead, hit⟩
      · exact .inl ⟨hmiss, hpass hdead⟩
      · exact .inr ⟨n :: pre', m, post', rfl, hfound, hpass hdead, hit⟩

theorem absorb_spec {m : Nat} (hr : h.Repr (pre ++ n :: m :: post)) :
    (absorb h n m m).Repr (pre ++ n :: post) ∧
      blocks (absorb h n m m) (pre ++ n :: post) = blocks h pre ++
        ⟨(h.body n).addr, (h.body n).size + (h.body m).size, (h.body n).isBusy⟩ ::
          blocks h post := by
  obtain ⟨hnpre, hnpost⟩ := hr.not_mem_of_append
  have hassoc : pre ++ n :: m :: post = (pre ++ [n]) ++ m :: post := by simp
  have hr₁ := hr.modifyBody n fun e => { e with size := e.size + (h.body m).size }
  have hkeep : ∀ i ≠ n, (h.modifyBody n fun e => { e with size := e.size + (h.body m).size }).body i =
      h.body i := fun i hi => by simp [hi]
  rw [hassoc] at hr₁
  have hdel := hr₁.delete
  have hmap := hr₁.map_delete
  rw [List.append_assoc] at hdel hmap
  refine ⟨hdel, hmap.trans ?_⟩
  have hnpost : n ∉ post := fun hmem => hnpost (by simp [hmem])
  rw [List.map_append, List.map_append, SlistDef.map_of_not_mem hnpre hkeep,
    SlistDef.map_of_not_mem hnpost hkeep]
  simp

theorem mergeNext_spec {current : Nat} (hr : h.Repr (pre ++ current :: post)) :
    let h' := match freeEntry h post.head? with
      | some next => absorb h current next next
      | none => h
    h'.slots = h.slots ∧ ∃ l', h'.Repr l' ∧
      blocks h' l' = blocks h pre ++ mergeNext (h.body current) (blocks h post) ∧
      ((h.body current).isBusy = false → heldAt h' l' = heldAt h pre ++ heldAt h post) := by
  cases post with
  | nil =>
    exact ⟨rfl, _, hr, by simp [freeEntry, mergeNext],
      fun hfree => heldAt_append.trans (congrArg _ (heldAt_cons_free hfree))⟩
  | cons next post =>
    cases hb : (h.body next).isBusy with
    | true =>
      have hfree : freeEntry h (some next) = none := freeEntry_of_busy (by simp [hb])
      simp only [List.head?_cons, hfree]
      refine ⟨trivial, _, hr, by simp [mergeNext, hb], fun hcur => ?_⟩
      rw [heldAt_append, heldAt_cons_free hcur]
    | false =>
      obtain ⟨hr', hblocks⟩ := absorb_spec hr
      simp only [List.head?_cons, freeEntry_of_free hb]
      refine ⟨rfl, _, hr', by simp [hblocks, mergeNext, hb], fun hcur => ?_⟩
      obtain ⟨hpre, hbody, hpost⟩ := blocks_append hblocks (by simp)
      have hcur' : ((absorb h current next next).body current).isBusy = false := by rw [hbody, hcur]
      rw [heldAt_append, heldAt_cons_free hcur', heldAt_cons_free hb, heldAt_congr hpre,
        heldAt_congr hpost]

theorem releaseBlock_spec (hr : h.Repr (pre ++ n :: post)) (hbusy : (h.body n).isBusy = true)
    (haddr : (h.body n).addr = ptr) :
    ∃ h' es', releaseBlock h n n = .ok h' ∧ BlockFree ptr (blocks h (pre ++ n :: post)) es' ∧
      h'.slots = h.slots ∧ ∃ l', h'.Repr l' ∧ blocks h' l' = es' ∧
        heldAt h' l' = heldAt h pre ++ heldAt h post := by
  obtain ⟨h₁, hh₁⟩ : ∃ h₁, h.modifyBody n (fun e => { e with isBusy := false }) = h₁ := ⟨_, rfl⟩
  have hr₁ : h₁.Repr (pre ++ n :: post) := hh₁ ▸ hr.modifyBody n _
  have hslots₁ : h₁.slots = h.slots := by rw [← hh₁]; rfl
  obtain ⟨hpre₁, hn₁, hpost₁⟩ := blocks_append (hh₁ ▸ hr.map_modifyBody _) (by simp)
  have hprev : neighbour h (h.links n).prev = .ok pre.getLast? := by
    rw [hr.prev_of_append]
    exact neighbour_eq hr fun i hi => by simp [List.mem_of_getLast? hi]
  have hnext : neighbour h (h.links n).next = .ok post.head? := by
    rw [hr.next_of_append]
    exact neighbour_eq hr fun i hi => by simp [List.mem_of_head? hi]
  simp only [releaseBlock, hprev, hnext, hh₁, bind, Except.bind]
  by_cases hlast : ∀ p ∈ (blocks h pre).getLast?, p.isBusy = true
  · have hfree : freeEntry h₁ pre.getLast? = none :=
      freeEntry_of_busy (getLast?_busy (hpre₁ ▸ hlast))
    obtain ⟨hslots, l', hr', hblocks, hheld⟩ := mergeNext_spec hr₁
    rw [hn₁, heldAt_congr hpre₁, heldAt_congr hpost₁] at hheld
    rw [hpre₁, hn₁, hpost₁] at hblocks
    simp only [hfree]
    refine ⟨_, blocks h pre ++ mergeNext ⟨(h.body n).addr, (h.body n).size, false⟩ (blocks h post),
      ?_, ?_, hslots.trans hslots₁, l', hr', hblocks, hheld rfl⟩
    · cases freeEntry h₁ post.head? <;> rfl
    · rw [blocks, List.map_append, List.map_cons]
      exact .release hbusy haddr hlast
  · rcases pre.eq_nil_or_concat' with rfl | ⟨pre, p, rfl⟩
    · simp at hlast
    have hp : (h.body p).isBusy = false := by simpa using hlast
    have hsplit : blocks h₁ (pre ++ p :: []) = blocks h pre ++ h.body p :: [] := by
      simpa using hpre₁
    obtain ⟨hpre₁, hp₁, -⟩ := blocks_append hsplit (by simp)
    have hfree : freeEntry h₁ (pre ++ [p]).getLast? = some p := by
      rw [List.getLast?_concat]
      exact freeEntry_of_free (by rw [hp₁, hp])
    rw [List.append_assoc] at hr₁
    obtain ⟨hr₂, hblocks₂⟩ := absorb_spec hr₁
    obtain ⟨hpre₂, hp₂, hpost₂⟩ := blocks_append hblocks₂ (by simp)
    obtain ⟨hslots, l', hr', hblocks, hheld⟩ := mergeNext_spec hr₂
    have hfreed : ((absorb h₁ p n n).body p).isBusy = false := by rw [hp₂, hp₁, hp]
    have hlive := hheld hfreed
    have hskip : heldAt h (pre ++ [p]) = heldAt h pre := by
      rw [heldAt_append, heldAt_cons_free hp]
      exact List.append_nil _
    rw [heldAt_congr (hpre₂.trans hpre₁), heldAt_congr (hpost₂.trans hpost₁), ← hskip] at hlive
    rw [hpre₂, hp₂, hpost₂, hpre₁, hp₁, hn₁, hpost₁] at hblocks
    simp only [hfree]
    refine ⟨_, _, ?_, ?_, hslots.trans hslots₁, l', hr', hblocks, hlive⟩
    · cases freeEntry (absorb h₁ p n n) post.head? <;> rfl
    · simp only [blocks, List.map_append, List.map_cons, List.append_assoc,
        List.singleton_append]
      exact .merge hbusy haddr hp

theorem kfreeScan_head (hr : h.Repr l) (ptr : Word) :
    (kfreeScan h ptr h.slots h.head = .ok none ∧
      ∀ e ∈ blocks h l, e.isBusy = true → e.addr ≠ ptr) ∨
    ∃ pre n post, l = pre ++ n :: post ∧ kfreeScan h ptr h.slots h.head = .ok (some (n, n)) ∧
      (∀ e ∈ blocks h pre, e.isBusy = true → e.addr ≠ ptr) ∧
      (h.body n).isBusy = true ∧ (h.body n).addr = ptr := by
  rw [hr.head]
  exact kfreeScan_spec (show h.Repr ([] ++ l) from hr) hr.length_le

theorem kfree_of_dead (hr : h.Repr l) (hdead : ∀ e ∈ blocks h l, e.isBusy = true → e.addr ≠ ptr) :
    kfree h ptr = .ok h := by
  rcases kfreeScan_head hr ptr with ⟨hscan, -⟩ | ⟨pre, n, post, rfl, -, -, hbusy, haddr⟩
  · simp only [kfree, hscan]
    rfl
  · exact absurd haddr (hdead _ (by simp) hbusy)

theorem kfree_spec (hr : h.Repr l) (ptr : Word) :
    ∃ h' es', kfree h ptr = .ok h' ∧ BlockFree ptr (blocks h l) es' ∧ h'.slots = h.slots ∧
      ∃ l', h'.Repr l' ∧ blocks h' l' = es' ∧
        heldAt h' l' = (heldAt h l).eraseP (·.2.addr = ptr) := by
  have hpass : ∀ {l}, (∀ e ∈ blocks h l, e.isBusy = true → e.addr ≠ ptr) →
      ∀ x ∈ heldAt h l, ¬decide (x.2.addr = ptr) = true := by
    intro l hdead x hx
    obtain ⟨hmem, hbusy⟩ := List.mem_filter.mp hx
    obtain ⟨i, hi, rfl⟩ := List.mem_map.mp hmem
    simpa using hdead _ (List.mem_map_of_mem hi) hbusy
  rcases kfreeScan_head hr ptr with ⟨-, hdead⟩ | ⟨pre, n, post, rfl, hscan, hdead, hbusy, haddr⟩
  · exact ⟨h, blocks h l, kfree_of_dead hr hdead, .miss hdead, rfl, l, hr, rfl,
      (List.eraseP_of_forall_not (hpass hdead)).symm⟩
  · obtain ⟨h', es', heq, hfree, hslots, l', hr', hblocks, hheld⟩ := releaseBlock_spec hr hbusy haddr
    refine ⟨h', es', by simp only [kfree, hscan, bind, Except.bind, heq], hfree, hslots, l', hr',
      hblocks, ?_⟩
    rw [hheld, heldAt_append, heldAt_cons_busy hbusy, List.eraseP_append_right _ (hpass hdead),
      List.eraseP_cons_of_pos (by simpa using haddr)]

end RubiKernel.Heap
