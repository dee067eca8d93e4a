import Mathlib.Data.List.TakeWhile
import RubiKernel.Heap.Invariant

/-! Where `kmalloc` puts a block: into the first free entry that is large enough, else into
the last entry when it can grow, else behind it. What it does when the table of slots is
full, and which live blocks there are, slot by slot, before and after a call. -/

namespace RubiKernel.Heap

open Lts Tiling

def Fitting (size : Word) (e : KheapEntry) : Bool := !e.isBusy && decide (size ≤ e.size)

def listTop (es : List KheapEntry) : Word :=
  match es.getLast? with
  | none => kheapStartAddr
  | some e => e.addr + e.size

/-- The address of a block of `size` bytes; `none` when the list has reached the limit. -/
def place (size : Word) (es : List KheapEntry) : Option Word :=
  match es.find? (Fitting size) with
  | some e => some e.addr
  | none =>
    if Extendable size es then es.getLast?.map KheapEntry.addr
    else if listTop es < kheapLimit then some (listTop es)
    else none

/-- The entries the loop of `kmalloc` has passed when it takes one. -/
def passed (size : Word) (es : List KheapEntry) : List KheapEntry :=
  es.takeWhile fun e => !Fitting size e

/-- The call takes a slot: for the rest of an entry, or for a new entry at the end. -/
def TakesSlot (size : Word) (es : List KheapEntry) : Prop :=
  (es.find? (Fitting size)).isSome ∨ ¬Extendable size es ∧ listTop es < kheapLimit

/-- The live blocks with their slots, in the order of the list. -/
def held (h : Kheap) : List (Nat × KheapEntry) := heldAt h h.toList

variable {h h' : Kheap} {es pre post : List KheapEntry} {e c : KheapEntry} {size ptr ret : Word}

theorem fitting_iff : Fitting size e = true ↔ e.isBusy = false ∧ size ≤ e.size := by
  simp [Fitting]

theorem unfit_iff : Unfit size e ↔ Fitting size e = false := by
  rw [← Bool.not_eq_true, fitting_iff, Unfit, ← BitVec.not_le, ← Bool.not_eq_false]
  tauto

theorem find?_fitting (free : c.isBusy = false) (fit : size ≤ c.size)
    (unfit : ∀ e ∈ pre, Unfit size e) : (pre ++ c :: post).find? (Fitting size) = some c :=
  List.find?_eq_some_iff_append.mpr
    ⟨fitting_iff.mpr ⟨free, fit⟩, pre, post, rfl, fun e he => by simp [unfit_iff.mp (unfit e he)]⟩

theorem find?_unfit (unfit : ∀ e ∈ es, Unfit size e) : es.find? (Fitting size) = none :=
  List.find?_eq_none.mpr fun e he => by simp [unfit_iff.mp (unfit e he)]

theorem passed_fitting (free : c.isBusy = false) (fit : size ≤ c.size)
    (unfit : ∀ e ∈ pre, Unfit size e) : passed size (pre ++ c :: post) = pre := by
  have hpre : ∀ e ∈ pre, (!Fitting size e) = true := fun e he => by simp [unfit_iff.mp (unfit e he)]
  rw [passed, List.takeWhile_append_of_pos hpre,
    List.takeWhile_cons_of_neg (by simp [fitting_iff.mpr ⟨free, fit⟩]), List.append_nil]

theorem passed_unfit (unfit : ∀ e ∈ es, Unfit size e) : passed size es = es :=
  List.takeWhile_eq_self_iff.mpr fun e he => by simp [unfit_iff.mp (unfit e he)]

theorem place_eq_none (hbusy : ∀ e ∈ es, e.isBusy = true) (hlimit : ¬listTop es < kheapLimit) :
    place size es = none := by
  have hstuck : ¬Extendable size es := by
    rintro ⟨e, he, hfree, -⟩
    rw [hbusy e (List.mem_of_getLast? he)] at hfree
    cases hfree
  rw [place, find?_unfit fun e he => .inl (hbusy e he)]
  simp only [if_neg hstuck, if_neg hlimit]

theorem listTop_eq (hadj : Adjacent es) : listTop es = blocksEnd es := by
  unfold listTop
  split
  · next hlast =>
    obtain rfl := List.getLast?_eq_none_iff.mp hlast
    rfl
  · next hlast => exact (hadj.endFrom_eq hlast).symm

theorem not_takesSlot_of_place (hplace : place size es = none) : ¬TakesSlot size es := by
  unfold place at hplace
  cases hfind : es.find? (Fitting size) with
  | some e => simp [hfind] at hplace
  | none =>
    rw [hfind] at hplace
    rintro (hsome | ⟨hstuck, hroom⟩)
    · simp [hfind] at hsome
    · simp [hstuck, hroom] at hplace

theorem kmallocScan_take {l pre : List Nat} {n sl : Nat} {fuel : Nat} (hr : h.Repr (pre ++ l))
    (hscan : kmallocScan h size fuel l.head? = .ok (.take sl n)) :
    ∃ pre' post', l = pre' ++ n :: post' ∧ ∀ e ∈ blocks h pre', Unfit size e := by
  induction l generalizing pre fuel with
  | nil => simp [kmallocScan] at hscan
  | cons m l ih =>
    cases fuel with
    | zero => simp [kmallocScan] at hscan
    | succ fuel =>
      have hassoc : pre ++ m :: l = (pre ++ [m]) ++ l := by simp
      have hnext := hr.next_of_append
      have hskip : Unfit size (h.body m) → kmallocScan h size fuel l.head? = .ok (.take sl n) →
          ∃ pre' post', m :: l = pre' ++ n :: post' ∧ ∀ e ∈ blocks h pre', Unfit size e := by
        intro hm hrest
        obtain ⟨pre', post', rfl, hunfit⟩ := ih (hassoc ▸ hr) hrest
        exact ⟨m :: pre', post', rfl, List.forall_mem_cons.mpr ⟨hm, hunfit⟩⟩
      rw [List.head?_cons, kmallocScan, entryOf_eq hr (by simp)] at hscan
      simp only [bind, Except.bind, hnext] at hscan
      split at hscan
      · next hbusy => exact hskip (.inl hbusy) hscan
      · split at hscan
        · next hsmall =>
          -- the neighbour on the left, then the end of the list
          split at hscan
          · cases hscan
          · split at hscan
            · cases hscan
            · split at hscan
              · cases hscan
              · exact hskip (.inr hsmall) hscan
        · obtain ⟨-, rfl⟩ : m = sl ∧ m = n := by simpa [pure, Except.pure] using hscan
          exact ⟨[], l, rfl, by simp⟩

/-- How a call on a well-formed heap ends: nothing is left and nothing changes, the block
is at its place and has a slot among the live blocks, or a slot is missing. -/
inductive MallocEnd (h : Kheap) (size : Word) : Except KheapFault (Kheap × Word) → Prop
  | used (full : place size (entries h) = none) : MallocEnd h size (.ok (h, 0))
  | placed {h' : Kheap} {p : Word} {k : Nat} {pre post : List (Nat × KheapEntry)}
      (at_place : place size (entries h) = some p)
      (slot : TakesSlot size (entries h) → h.findFree ≠ none)
      (before : held h = pre ++ post) (after : held h' = pre ++ (k, ⟨p, size, true⟩) :: post)
      (passed : pre.map Prod.snd = (passed size (entries h)).filter (·.isBusy)) :
      MallocEnd h size (.ok (h', p))
  | noSlot (slot : TakesSlot size (entries h)) (full : h.findFree = none) :
      MallocEnd h size (.error .nullDeref)

theorem held_eq {l : List Nat} (hr : h.Repr l) : held h = heldAt h l := by
  rw [held, hr.toList_eq]

theorem entries_eq {l : List Nat} (hr : h.Repr l) : entries h = blocks h l := by
  rw [entries, hr.toList_eq]

theorem findFree_ne_none {l l' : List Nat} (hr : h.Repr l) (hr' : h'.Repr l')
    (hslots : h'.slots = h.slots) (hlen : l.length < l'.length) : h.findFree ≠ none := by
  intro hnone
  have hfull := hr.length_eq hnone
  have hle := hr'.length_le
  omega

theorem mallocEnd_extend {pre : List Nat} {n : Nat} (hr : h.Repr (pre ++ [n]))
    (free : (h.body n).isBusy = false) (small : (h.body n).size < size)
    (unfit : ∀ e ∈ blocks h pre, Unfit size e) (room : (h.body n).addr + size < kheapLimit) :
    MallocEnd h size (.ok (extendLast h n (size - (h.body n).size))) := by
  have hes := entries_eq hr
  rw [blocks, List.map_append, List.map_singleton] at hes
  have hall : ∀ e ∈ blocks h pre ++ [h.body n], Unfit size e :=
    List.forall_mem_append.mpr ⟨unfit, List.forall_mem_singleton.mpr (.inr small)⟩
  have hext : Extendable size (blocks h pre ++ [h.body n]) :=
    ⟨h.body n, List.getLast?_concat, free, room⟩
  have hdiff : (h.body n).size + (size - (h.body n).size) = size := add_sub_cancel ..
  obtain ⟨h', heq, -, hr', hblocks⟩ := extendLast_spec hr hdiff
  obtain ⟨hpre, hbody, -⟩ := blocks_append hblocks (by simp)
  have hbusy : (h'.body n).isBusy = true := by rw [hbody]
  have hbefore : held h = heldAt h pre ++ [] := by
    rw [held_eq hr, heldAt_append, heldAt_cons_free free]
    rfl
  have hafter : held h' = heldAt h pre ++ [(n, ⟨(h.body n).addr, size, true⟩)] := by
    rw [held_eq hr', heldAt_append, heldAt_cons_busy hbusy, heldAt_congr hpre, hbody]
    rfl
  rw [heq]
  refine .placed ?_ ?_ hbefore hafter ?_
  · rw [hes, place, find?_unfit hall]
    simp only [if_pos hext, List.getLast?_concat, Option.map_some]
  · rw [hes]
    rintro (hfit | ⟨hstuck, -⟩)
    · simp [find?_unfit hall] at hfit
    · exact absurd hext hstuck
  · rw [hes, passed_unfit hall, map_snd_heldAt, List.filter_append,
      List.filter_cons_of_neg (by simp [free]), List.filter_nil, List.append_nil]

theorem mallocEnd_take {pre post : List Nat} {n : Nat} (hr : h.Repr (pre ++ n :: post))
    (hes : WellFormed (blocks h (pre ++ n :: post))) (free : (h.body n).isBusy = false)
    (fit : size ≤ (h.body n).size) (unfit : ∀ e ∈ blocks h pre, Unfit size e) :
    MallocEnd h size (takeBlock h size n n) := by
  have hentries := entries_eq hr
  rw [blocks, List.map_append, List.map_cons] at hentries hes
  have hfind : (entries h).find? (Fitting size) = some (h.body n) := by
    rw [hentries, find?_fitting free fit unfit]
  have hslot : TakesSlot size (entries h) := .inl (by rw [hfind]; rfl)
  have hnext := head?_busy ((coalesced_free free).mp hes.coalesced).2.2
  rcases takeBlock_spec hr hnext with ⟨h', m, heq, hslots, hr', hblocks⟩ | ⟨heq, hfull⟩
  · obtain ⟨hpre, hbody, hrest⟩ := blocks_append hblocks (by simp)
    have hm : h'.body m = _ := (List.cons.inj hrest).1
    have hbusy : (h'.body n).isBusy = true := by rw [hbody]
    have hfree : (h'.body m).isBusy = false := by rw [hm]
    have hbefore : held h = heldAt h pre ++ heldAt h post := by
      rw [held_eq hr, heldAt_append, heldAt_cons_free free]
    have hafter : held h' =
        heldAt h pre ++ (n, ⟨(h.body n).addr, size, true⟩) :: heldAt h post := by
      rw [held_eq hr', heldAt_append, heldAt_cons_busy hbusy, heldAt_cons_free hfree,
        heldAt_congr hpre, heldAt_congr (List.cons.inj hrest).2, hbody]
    rw [heq]
    refine .placed ?_ ?_ hbefore hafter ?_
    · rw [place, hfind]
    · exact fun _ => findFree_ne_none hr hr' hslots (by simp)
    · rw [hentries, passed_fitting free fit unfit, map_snd_heldAt]
  · rw [heq]
    exact .noSlot hslot hfull

theorem mallocEnd_append {l : List Nat} (hr : h.Repr l) (hes : WellFormed (blocks h l))
    (unfit : ∀ e ∈ blocks h l, Unfit size e) (stuck : ¬Extendable size (blocks h l)) :
    MallocEnd h size (appendBlock h size) := by
  have hentries := entries_eq hr
  have htop := listTop_eq hes.adjacent
  by_cases hroom : blocksEnd (blocks h l) < kheapLimit
  · have hslot : TakesSlot size (entries h) := .inr (by rw [hentries, htop]; exact ⟨stuck, hroom⟩)
    rcases appendBlock_spec hr hes.adjacent hroom with
      ⟨h', m, heq, hslots, hr', hblocks⟩ | ⟨heq, hfull⟩
    · obtain ⟨hpre, hbody, -⟩ := blocks_append hblocks (by simp)
      have hbusy : (h'.body m).isBusy = true := by rw [hbody]
      have hbefore : held h = heldAt h l ++ [] := by rw [held_eq hr, List.append_nil]
      have hafter : held h' = heldAt h l ++ [(m, ⟨blocksEnd (blocks h l), size, true⟩)] := by
        rw [held_eq hr', heldAt_append, heldAt_cons_busy hbusy, heldAt_congr hpre, hbody]
        rfl
      rw [heq]
      refine .placed ?_ ?_ hbefore hafter ?_
      · rw [hentries, place, find?_unfit unfit]
        simp only [if_neg stuck, htop, if_pos hroom]
      · exact fun _ => findFree_ne_none hr hr' hslots (by simp)
      · rw [hentries, passed_unfit unfit, map_snd_heldAt]
    · rw [heq]
      exact .noSlot hslot hfull
  · rw [appendBlock_eq hr hes.adjacent, if_pos (BitVec.not_lt.mp hroom)]
    refine .used ?_
    rw [hentries, place, find?_unfit unfit]
    simp only [if_neg stuck, htop, if_neg hroom]

theorem HeapInv.mallocEnd (hinv : HeapInv h) (size : Word) : MallocEnd h size (kmalloc h size) := by
  have hr := hinv.repr
  have hes := hinv.wellFormed
  obtain ⟨out, hscan, hout⟩ := kmallocScan_head hr hes size
  unfold entries at hes
  generalize h.toList = l at hr hes hout
  simp only [kmalloc, hscan, bind, Except.bind]
  cases hout with
  | extend free small unfit room => exact mallocEnd_extend hr free small unfit room
  | @take pre post n free fit =>
    -- the first split of the list at `n` is the only one
    rw [hr.head] at hscan
    have hnil : h.Repr ([] ++ (pre ++ n :: post)) := hr
    obtain ⟨pre', post', heq, hunfit⟩ := kmallocScan_take hnil hscan
    rw [heq] at hr hes
    exact mallocEnd_take hr hes free fit hunfit
  | append unfit stuck => exact mallocEnd_append hr hes unfit stuck

theorem MallocEnd.ne {p : Word} (hend : MallocEnd h size (.ok (h', p)))
    (hplace : place size (entries h) = some p) : h' ≠ h := by
  rintro rfl
  cases hend with
  | used full =>
    rw [full] at hplace
    cases hplace
  | placed at_place slot before after passed =>
    have hlen := congrArg List.length (before.symm.trans after)
    simp at hlen

theorem free_slot_iff : h.findFree ≠ none ↔ ∃ i < h.slots, (h.links i).isValid = false := by
  constructor
  · intro hfree
    obtain ⟨i, hi⟩ := Option.ne_none_iff_exists'.mp hfree
    exact ⟨i, SlistDef.findFree_eq_some hi⟩
  · rintro ⟨i, hi, hvalid⟩ hnone
    rw [SlistDef.findFree_eq_none hnone i hi] at hvalid
    cases hvalid

/-- With a slot to spare `kmalloc` returns the place of the block, and NULL when there is
none; it returns NULL from an unchanged list exactly when that place is not the address 0. -/
theorem kmalloc_first_fit_iff (hr : heap.Reachable h)
    (hslot : ∃ i < h.slots, (h.links i).isValid = false) (size : Word) :
    ∃ h' ret, kmalloc h size = .ok (h', ret) ∧ ret = (place size (entries h)).getD 0 ∧
      ((ret = 0 → h' = h) ↔ place size (entries h) ≠ some 0) := by
  have hend := (heapInv_of_reachable hr).mallocEnd size
  generalize hcall : kmalloc h size = out at hend
  cases hend with
  | used full => exact ⟨h, 0, rfl, by rw [full]; rfl, by simp [full]⟩
  | @placed h' p k pre post at_place slot before after passed =>
    have hne := MallocEnd.ne (.placed at_place slot before after passed) at_place
    refine ⟨h', p, rfl, by rw [at_place]; rfl, ?_⟩
    rw [at_place, ne_eq, Option.some.injEq]
    exact ⟨fun himp hp => hne (himp hp), fun hp hzero => absurd hzero hp⟩
  | noSlot slot full => exact absurd full (free_slot_iff.mpr hslot)

/-- The third block is the first that fits; the one before it is too small. -/
theorem kmalloc_first_fit_iff_example : ∃ tr,
    replay callHeap kheapList
      [.malloc 16 0xC1000000, .malloc 8 0xC1000010, .malloc 64 0xC1000018, .malloc 8 0xC1000058,
        .free 0xC1000000, .free 0xC1000018] = some tr ∧
    ∃ h' ret, kmalloc (final kheapList tr) 32 = .ok (h', ret) ∧ ret = 0xC1000018 := by
  have hrun : (replay callHeap kheapList
      [.malloc 16 0xC1000000, .malloc 8 0xC1000010, .malloc 64 0xC1000018, .malloc 8 0xC1000058,
        .free 0xC1000000, .free 0xC1000018]).any (fun tr =>
      ((final kheapList tr).links 9).isValid = false ∧ 9 < (final kheapList tr).slots ∧
        place 32 (entries (final kheapList tr)) = some 0xC1000018) = true := by decide +kernel
  obtain ⟨tr, htr, htrace, hvalid, hbound, hplace⟩ :=
    System.Trace.exists_of_replay (M := heap) (fun _ _ _ => step_of_callHeap) hrun
  have hr := htrace.final_reachable (.start rfl)
  obtain ⟨h', ret, hcall, hret, -⟩ := kmalloc_first_fit_iff hr ⟨9, hbound, hvalid⟩ 32
  exact ⟨tr, htr, h', ret, hcall, by rw [hret, hplace]; rfl⟩

/-- A block that runs up to the end of memory leaves the next one at the address 0. -/
theorem kmalloc_null_block : ∃ h h', heap.Reachable h ∧ (∃ i < h.slots, (h.links i).isValid = false) ∧
    kmalloc h 16 = .ok (h', 0) ∧ entries h' ≠ entries h := by
  have hrun : (callHeap kheapList (.malloc 0x3F000000 0xC1000000)).any (fun h =>
      1 < h.slots ∧ (h.links 1).isValid = false ∧ (callHeap h (.malloc 16 0)).any fun h' =>
        entries h' ≠ entries h) = true := by decide +kernel
  obtain ⟨h, hfirst, hrun⟩ := (Option.any_eq_true ..).mp hrun
  obtain ⟨hbound, hvalid, hrun⟩ := of_decide_eq_true hrun
  obtain ⟨h', hsecond, hne⟩ := (Option.any_eq_true ..).mp hrun
  have hr : heap.Reachable h := .step (.start rfl) (step_of_callHeap hfirst)
  exact ⟨h, h', hr, ⟨1, hbound, hvalid⟩, step_of_callHeap hsecond, of_decide_eq_true hne⟩

def Ones (es : List KheapEntry) : Prop := ∀ e ∈ es, e.isBusy = true ∧ e.size = 1

theorem Ones.extent_eq (hall : Ones es) : extent KheapEntry.size es = es.length := by
  induction es with
  | nil => rfl
  | cons e es ih =>
    obtain ⟨⟨-, hsize⟩, hrest⟩ := List.forall_mem_cons.mp hall
    rw [extent_cons, ih hrest, hsize, List.length_cons]
    exact Nat.add_comm ..

theorem Ones.listTop_lt (hall : Ones es) (hadj : Adjacent es) (hlen : es.length ≤ kheapSlots) :
    listTop es < kheapLimit := by
  have hstart : kheapStartAddr.toNat = 0xC1000000 := by decide
  have hlimit : kheapLimit.toNat = 0xC1800000 := by decide
  have hslots : kheapSlots = 2048 := rfl
  rw [listTop_eq hadj, BitVec.lt_def, endFrom_toNat (by rw [hall.extent_eq]; omega), hall.extent_eq]
  omega

theorem Ones.malloc_eq {es' : List KheapEntry} (hall : Ones es) (hadj : Adjacent es)
    (hlen : es.length ≤ kheapSlots) (hblock : BlockMalloc size es es' ret) :
    es' = es ++ [⟨blocksEnd es, size, true⟩] := by
  have hbusy : ∀ {c}, c ∈ es → c.isBusy ≠ false := fun hc => by simp [(hall _ hc).1]
  cases hblock with
  | extend free small unfit room => exact absurd free (hbusy (by simp))
  | split free fit => exact absurd free (hbusy (by simp))
  | append unfit stuck room => rfl
  | full unfit stuck full =>
    have hlt := hall.listTop_lt hadj hlen
    rw [listTop_eq hadj] at hlt
    exact absurd hlt (BitVec.not_lt.mpr full)

theorem Ones.malloc {es' : List KheapEntry} (hall : Ones es) (hadj : Adjacent es)
    (hlen : es.length ≤ kheapSlots) (hblock : BlockMalloc 1 es es' ret) :
    es'.length = es.length + 1 ∧ Ones es' := by
  rw [hall.malloc_eq hadj hlen hblock]
  exact ⟨by simp, List.forall_mem_append.mpr ⟨hall, List.forall_mem_singleton.mpr ⟨rfl, rfl⟩⟩⟩

theorem exists_reachable_ones (n : Nat) (hn : n ≤ kheapSlots) :
    ∃ h, heap.Reachable h ∧ (entries h).length = n ∧ Ones (entries h) := by
  induction n with
  | zero =>
    have hnil : entries kheapList = [] := by simp [entries, kheapList_repr.toList_eq]
    exact ⟨kheapList, .start rfl, by rw [hnil]; rfl, by simp [Ones, hnil]⟩
  | succ n ih =>
    obtain ⟨h, hr, hlen, hall⟩ := ih (Nat.le_of_succ_le hn)
    have hinv := heapInv_of_reachable hr
    rcases kmalloc_spec hinv.repr hinv.wellFormed 1 with ⟨h', ret, es', hcall, hblock, hl⟩ | ⟨-, hfull⟩
    · obtain ⟨hlen', hall'⟩ := hall.malloc hinv.wellFormed.adjacent (by omega) hblock
      rw [← hl.entries_eq] at hlen' hall'
      have hstep : heap.step h (.malloc 1 ret) h' := hcall
      exact ⟨h', .step hr hstep, by rw [hlen', hlen], hall'⟩
    · have hslots := (hinv.repr.length_eq hfull).trans hinv.slots
      rw [entries, List.length_map] at hlen
      omega

/-- A call survives, and returns NULL from an unchanged list only, exactly when the place of
the block is not the address 0 and a slot is free or none is taken. -/
theorem kmalloc_survives_iff (hr : heap.Reachable h) (size : Word) :
    (∃ h' ret, kmalloc h size = .ok (h', ret) ∧ (ret = 0 → h' = h)) ↔
      place size (entries h) ≠ some 0 ∧
        ((∃ i < h.slots, (h.links i).isValid = false) ∨ ¬TakesSlot size (entries h)) := by
  have hend := (heapInv_of_reachable hr).mallocEnd size
  rw [← free_slot_iff]
  generalize hcall : kmalloc h size = out at hend
  cases hend with
  | used full =>
    refine iff_of_true ⟨h, 0, rfl, fun _ => rfl⟩ ⟨by simp [full], .inr ?_⟩
    exact not_takesSlot_of_place full
  | @placed h' p k pre post at_place slot before after passed =>
    have hne := MallocEnd.ne (.placed at_place slot before after passed) at_place
    rw [at_place, ne_eq, Option.some.injEq]
    constructor
    · rintro ⟨h₁, ret, heq, hsame⟩
      obtain ⟨rfl, rfl⟩ := Prod.mk.inj (Except.ok.inj heq)
      exact ⟨fun hp => hne (hsame hp), (Classical.em _).imp_left slot⟩
    · rintro ⟨hp, -⟩
      exact ⟨h', p, rfl, fun hzero => absurd hzero hp⟩
  | noSlot slot full =>
    refine iff_of_false ?_ ?_
    · rintro ⟨_, _, heq, -⟩
      cases heq
    · rintro ⟨-, hfree | hnone⟩
      · exact hfree full
      · exact hnone slot

/-- The last slot is taken by a block that runs up to the limit: the next call returns NULL. -/
theorem kmalloc_survives_iff_example : ∃ h, heap.Reachable h ∧
    (∀ i < h.slots, (h.links i).isValid = true) ∧
      ∃ h' ret, kmalloc h 1 = .ok (h', ret) ∧ (ret = 0 → h' = h) := by
  obtain ⟨h, hr, hlen, hall⟩ := exists_reachable_ones 2047 (by decide)
  have hinv := heapInv_of_reachable hr
  have hadj := hinv.wellFormed.adjacent
  have hfew : (entries h).length ≤ kheapSlots := by
    rw [hlen]
    decide
  rcases kmalloc_spec hinv.repr hinv.wellFormed 0x800000 with
    ⟨h', ret, es', hcall, hblock, hl⟩ | ⟨-, hfull⟩
  · have hentries := hall.malloc_eq hadj hfew hblock
    rw [← hl.entries_eq] at hentries
    have hr' : heap.Reachable h' := .step hr (show heap.step h (.malloc 0x800000 ret) h' from hcall)
    have hinv' := heapInv_of_reachable hr'
    have hlen' : h'.toList.length = h'.slots := by
      rw [hinv'.slots, ← List.length_map h'.body]
      show (entries h').length = 2048
      rw [hentries, List.length_append, hlen]
      rfl
    have hlimit : ¬listTop (entries h') < kheapLimit := by
      have hend : (blocksEnd (entries h)).toNat = 0xC1000000 + 2047 := by
        rw [endFrom_toNat (by rw [hall.extent_eq, hlen]; decide), hall.extent_eq, hlen]
        decide
      have htop : listTop (entries h') = blocksEnd (entries h) + 0x800000 := by
        rw [hentries, listTop, List.getLast?_concat]
      rw [htop, BitVec.lt_def, BitVec.toNat_add, hend]
      decide
    have hbusy : ∀ e ∈ entries h', e.isBusy = true := by
      rw [hentries]
      exact List.forall_mem_append.mpr
        ⟨fun e he => (hall e he).1, List.forall_mem_singleton.mpr rfl⟩
    have hplace : place 1 (entries h') = none := place_eq_none hbusy hlimit
    refine ⟨h', hr', hinv'.repr.valid_of_length_eq hlen', ?_⟩
    refine (kmalloc_survives_iff hr' 1).mpr ⟨?_, .inr (not_takesSlot_of_place hplace)⟩
    rw [hplace]
    exact (Option.some_ne_none 0).symm
  · have hslots := (hinv.repr.length_eq hfull).trans hinv.slots
    rw [entries, List.length_map, hslots] at hlen
    exact absurd hlen (by decide)

/-- The table is full of live blocks and the heap is not: the next call follows NULL. -/
theorem kmalloc_null_deref : ∃ h, heap.Reachable h ∧ kmalloc h 1 = .error .nullDeref := by
  obtain ⟨h, hr, hlen, hall⟩ := exists_reachable_ones kheapSlots le_rfl
  have hinv := heapInv_of_reachable hr
  have hadj := hinv.wellFormed.adjacent
  refine ⟨h, hr, ?_⟩
  rcases kmalloc_spec hinv.repr hinv.wellFormed 1 with ⟨h', ret, es', hcall, hblock, hl⟩ | ⟨hnull, -⟩
  · obtain ⟨hlen', -⟩ := hall.malloc hadj hlen.le hblock
    have hinv' := (hinv.malloc hcall).2
    have hle := hinv'.repr.length_le
    rw [← hl.entries_eq, hlen, entries, List.length_map] at hlen'
    rw [hinv'.slots] at hle
    omega
  · exact hnull

end RubiKernel.Heap
