import RubiKernel.Heap.Invariant
import RubiKernel.Lib.Assoc

/-! What the heap is for: a map from live addresses to sizes, whose ranges do
not meet. The busy entries refine it as long as no size is zero and the last
block ends inside the heap. -/

namespace RubiKernel.Heap

open Lts Tiling Assoc

/-- Address and size ranges that do not meet, in the integers. -/
def Apart (a b : Word × Word) : Prop :=
  a.1.toNat + a.2.toNat ≤ b.1.toNat ∨ b.1.toNat + b.2.toNat ≤ a.1.toNat

theorem Apart.symm {a b : Word × Word} (h : Apart a b) : Apart b a := Or.symm h

def allocator : System (Word → Option Word) HeapCall where
  start live := live = fun _ => none
  step live call live' :=
    match call with
    | .malloc size ret =>
      (ret = 0 ∧ live' = live) ∨
        ret ≠ 0 ∧ live ret = none ∧ (∀ p n, live p = some n → Apart (ret, size) (p, n)) ∧
          live' = Function.update live ret (some size)
    | .free ptr => live' = Function.update live ptr none

def busy (es : List KheapEntry) : List (Word × Word) :=
  (es.filter (·.isBusy)).map fun e => (e.addr, e.size)

def live (h : Kheap) : Word → Option Word := ((busy (entries h)).lookup ·)

/-- The blocks end at the limit at the latest, in the integers. -/
def Fits (es : List KheapEntry) : Prop :=
  kheapStartAddr.toNat + extent KheapEntry.size es ≤ kheapLimit.toNat

variable {h h' : Kheap} {es es' pre post : List KheapEntry} {c e : KheapEntry}
  {size ptr ret : Word}

@[simp] theorem busy_nil : busy [] = [] := rfl

@[simp] theorem busy_append : busy (es ++ es') = busy es ++ busy es' := by
  simp [busy]

theorem busy_cons_busy (hc : c.isBusy = true) : busy (c :: es) = (c.addr, c.size) :: busy es := by
  simp [busy, hc]

theorem busy_cons_free (hc : c.isBusy = false) : busy (c :: es) = busy es := by
  simp [busy, hc]

theorem busy_mergeNext (hc : c.isBusy = false) (post : List KheapEntry) :
    busy (mergeNext c post) = busy post := by
  cases post with
  | nil => simp [mergeNext, busy, hc]
  | cons n post =>
    cases hn : n.isBusy with
    | true => simp [mergeNext, hn, busy_cons_free hc]
    | false => simp [mergeNext, hn, busy_cons_free, hc]

theorem mem_busy : (ptr, size) ∈ busy es ↔
    ∃ e ∈ es, e.isBusy = true ∧ e.addr = ptr ∧ e.size = size := by
  simp [busy, and_assoc]

theorem Fits.nil : Fits [] := by
  unfold Fits
  decide

theorem Fits.of_append (h : Fits (pre ++ post)) : Fits pre := by
  unfold Fits at *
  simp only [extent_append] at h
  omega

theorem Fits.concat (h : Fits pre) (hadj : Adjacent (pre ++ [c]))
    (hend : c.addr.toNat + c.size.toNat ≤ kheapLimit.toNat) : Fits (pre ++ [c]) := by
  have hlt := kheapLimit.isLt
  have haddr := hadj.addr_of_append
  unfold Fits at *
  rw [haddr, endFrom_toNat (by omega)] at hend
  simp only [extent_append, extent_cons, extent_nil]
  omega

theorem Fits.contained (h : Fits es) (hadj : Adjacent es) (he : e ∈ es) :
    kheapStartAddr.toNat ≤ e.addr.toNat ∧ e.addr.toNat + e.size.toNat ≤ kheapLimit.toNat := by
  have hlt := kheapLimit.isLt
  obtain ⟨pre, post, rfl⟩ := List.append_of_mem he
  have haddr := hadj.addr_of_append
  unfold Fits at h
  simp only [extent_append, extent_cons] at h
  rw [haddr, endFrom_toNat (by omega)]
  omega

theorem extent_mergeNext (h : extent KheapEntry.size (c :: post) < 2 ^ 32) :
    extent KheapEntry.size (mergeNext c post) = extent KheapEntry.size (c :: post) := by
  cases post with
  | nil => rfl
  | cons n post =>
    simp only [extent_cons] at h ⊢
    cases hn : n.isBusy with
    | true => simp [mergeNext, hn]
    | false =>
      simp only [mergeNext, hn, Bool.false_eq_true, if_false, extent_cons]
      rw [BitVec.toNat_add, Nat.mod_eq_of_lt (by omega)]
      omega

theorem BlockFree.extent_eq (h : BlockFree ptr es es') (hlt : extent KheapEntry.size es < 2 ^ 32) :
    extent KheapEntry.size es' = extent KheapEntry.size es := by
  cases h with
  | miss dead => rfl
  | @release pre c post busy hit prev =>
    simp only [extent_append, extent_cons] at hlt ⊢
    rw [extent_mergeNext (by simp only [extent_cons]; omega)]
    rfl
  | @merge pre p c post busy hit prev =>
    simp only [extent_append, extent_cons] at hlt ⊢
    have hadd : (p.size + c.size).toNat = p.size.toNat + c.size.toNat := by
      rw [BitVec.toNat_add, Nat.mod_eq_of_lt (by omega)]
    rw [extent_mergeNext (by simp only [extent_cons, hadd]; omega)]
    simp only [extent_cons, hadd]
    omega

theorem BlockFree.fits (h : BlockFree ptr es es') (hfit : Fits es) : Fits es' := by
  have hlt := kheapLimit.isLt
  unfold Fits at *
  rwa [h.extent_eq (by omega)]

theorem Fits.split (h : Fits (pre ++ c :: post)) (hle : size ≤ c.size) :
    Fits (pre ++ ⟨c.addr, size, true⟩ :: ⟨c.addr + size, c.size - size, false⟩ :: post) := by
  unfold Fits at *
  simp only [extent_append, extent_cons] at h ⊢
  have hsub := BitVec.toNat_sub_of_le hle
  have hle := BitVec.le_def.mp hle
  omega

/-- A block that the last branch or the extension put at the end may pass the
limit; nothing else can. -/
theorem BlockMalloc.fits (h : BlockMalloc size es es' ret) (hadj : Adjacent es') (hfit : Fits es)
    (hend : ∀ e ∈ es'.getLast?, e.addr.toNat + e.size.toNat ≤ kheapLimit.toNat) : Fits es' := by
  cases h with
  | extend free small unfit room =>
    exact hfit.of_append.concat hadj (hend _ (by simp))
  | split free fit => exact hfit.split fit
  | append unfit stuck room => exact hfit.concat hadj (hend _ (by simp))
  | full unfit stuck full => exact hfit

def HeapCall.Positive : HeapCall → Prop
  | .malloc size _ => 1 ≤ size.toNat
  | .free _ => True

instance : DecidablePred HeapCall.Positive
  | .malloc .. => inferInstanceAs (Decidable (_ ≤ _))
  | .free _ => inferInstanceAs (Decidable True)

/-- The call asks for at least one byte, and leaves a last block that does not
pass the limit. -/
def Sane (_ : Kheap) (call : HeapCall) (h' : Kheap) : Prop :=
  call.Positive ∧ ∀ e ∈ (entries h').getLast?, e.addr.toNat + e.size.toNat ≤ kheapLimit.toNat

instance : Decidable (Sane h call h') := inferInstanceAs (Decidable (_ ∧ _))

structure AllocInv (h : Kheap) : Prop extends HeapInv h where
  fits : Fits (entries h)
  positive : ∀ e ∈ entries h, e.isBusy = true → 1 ≤ e.size.toNat

theorem AllocInv.start : AllocInv kheapList :=
  ⟨.start, Fits.nil, fun _ he => absurd he (by simp [entries, kheapList_repr.toList_eq])⟩

theorem BlockMalloc.perm_busy (h : BlockMalloc size es es' ret) :
    es' = es ∧ ret = 0 ∨ (busy es').Perm ((ret, size) :: busy es) := by
  cases h with
  | extend free small unfit room =>
    right
    simp only [busy_append, busy_cons_free free, busy_cons_busy]
    exact List.perm_middle
  | split free fit =>
    right
    simp only [busy_append, busy_cons_free free, busy_cons_busy, busy_cons_free]
    exact List.perm_middle
  | append unfit stuck room =>
    right
    simp only [busy_append, busy_cons_busy, busy_nil]
    exact List.perm_append_singleton _ _
  | full unfit stuck full => exact .inl ⟨rfl, rfl⟩

theorem BlockFree.perm_busy (h : BlockFree ptr es es') :
    es' = es ∧ (∀ e ∈ es, e.isBusy = true → e.addr ≠ ptr) ∨
      ∃ n, (busy es).Perm ((ptr, n) :: busy es') := by
  cases h with
  | miss dead => exact .inl ⟨rfl, dead⟩
  | @release pre c post hbusy hit prev =>
    refine .inr ⟨c.size, ?_⟩
    rw [busy_append, busy_append, busy_cons_busy hbusy, busy_mergeNext rfl post, hit]
    exact List.perm_middle
  | @merge pre p c post hbusy hit prev =>
    refine .inr ⟨c.size, ?_⟩
    have hmerge := busy_mergeNext (c := { p with size := p.size + c.size }) prev post
    rw [busy_append, busy_append, busy_cons_free prev, busy_cons_busy hbusy, hmerge, hit]
    exact List.perm_middle

theorem AllocInv.step {call : HeapCall} (hinv : AllocInv h) (hstep : heap.step h call h')
    (hsane : Sane h call h') : AllocInv h' := by
  have hinv' := hinv.toHeapInv.step hstep
  have hmem : ∀ e ∈ entries h', e.isBusy = true → (e.addr, e.size) ∈ busy (entries h') :=
    fun e he hb => mem_busy.mpr ⟨e, he, hb, rfl, rfl⟩
  have hpos : ∀ p n, (p, n) ∈ busy (entries h) → 1 ≤ n.toNat := fun p n hpn => by
    obtain ⟨e, he, hb, -, rfl⟩ := mem_busy.mp hpn
    exact hinv.positive e he hb
  cases call with
  | malloc size ret =>
    have hblock := (hinv.malloc hstep).1
    refine ⟨hinv', hblock.fits hinv'.wellFormed.adjacent hinv.fits hsane.2, fun e he hb => ?_⟩
    rcases hblock.perm_busy with ⟨heq, -⟩ | hperm
    · exact hinv.positive e (heq ▸ he) hb
    · rcases List.mem_cons.mp (hperm.mem_iff.mp (hmem e he hb)) with heq | hold
      · rw [(Prod.mk.inj heq).2]
        exact hsane.1
      · exact hpos _ _ hold
  | free ptr =>
    have hblock := (hinv.free hstep).1
    refine ⟨hinv', hblock.fits hinv.fits, fun e he hb => ?_⟩
    rcases hblock.perm_busy with ⟨heq, -⟩ | ⟨n, hperm⟩
    · exact hinv.positive e (heq ▸ he) hb
    · exact hpos _ _ (hperm.mem_iff.mpr (List.mem_cons_of_mem _ (hmem e he hb)))

theorem AllocInv.apart (hinv : AllocInv h) : (busy (entries h)).Pairwise Apart := by
  have hlt := kheapLimit.isLt
  have hfit := hinv.fits
  unfold Fits at hfit
  have hpair := hinv.wellFormed.adjacent.pairwise (by omega)
  exact List.pairwise_map.mpr ((hpair.filter _).imp .inl)

theorem AllocInv.nodup (hinv : AllocInv h) : ((busy (entries h)).map Prod.fst).Nodup := by
  refine List.pairwise_map.mpr (hinv.apart.imp_of_mem ?_)
  rintro ⟨p, n⟩ ⟨q, m⟩ hp hq hapart (rfl : p = q)
  obtain ⟨e, he, hb, -, rfl⟩ := mem_busy.mp hp
  obtain ⟨f, hf, hb', -, rfl⟩ := mem_busy.mp hq
  have h₁ := hinv.positive e he hb
  have h₂ := hinv.positive f hf hb'
  simp only [Apart] at hapart
  omega

theorem AllocInv.live_eq_some (hinv : AllocInv h) :
    live h ptr = some size ↔ ∃ e ∈ entries h, e.isBusy = true ∧ e.addr = ptr ∧ e.size = size :=
  (lookup_eq_some hinv.nodup).trans mem_busy

theorem AllocInv.ne_zero (hinv : AllocInv h) (hmem : (ptr, size) ∈ busy (entries h)) : ptr ≠ 0 := by
  obtain ⟨e, he, -, rfl, -⟩ := mem_busy.mp hmem
  have hle := (hinv.fits.contained hinv.wellFormed.adjacent he).1
  have hstart : 0 < kheapStartAddr.toNat := by decide
  intro hzero
  rw [hzero] at hle
  simp at hle
  omega

theorem AllocInv.malloc_perm (hinv : AllocInv h) (hcall : kmalloc h size = .ok (h', ret))
    (hinv' : AllocInv h') :
    (ret = 0 ∧ entries h' = entries h) ∨
      ret ≠ 0 ∧ (busy (entries h')).Perm ((ret, size) :: busy (entries h)) := by
  rcases (hinv.malloc hcall).1.perm_busy with ⟨heq, hret⟩ | hperm
  · exact .inl ⟨hret, heq⟩
  · exact .inr ⟨hinv'.ne_zero (hperm.mem_iff.mpr List.mem_cons_self), hperm⟩

theorem AllocInv.free_perm (hinv : AllocInv h) (hcall : kfree h ptr = .ok h') :
    (live h ptr = none ∧ h' = h) ∨
      ∃ n, live h ptr = some n ∧ (busy (entries h)).Perm ((ptr, n) :: busy (entries h')) := by
  rcases (hinv.free hcall).1.perm_busy with ⟨-, hdead⟩ | ⟨n, hperm⟩
  · have hsame := kfree_of_dead hinv.repr hdead
    refine .inl ⟨?_, Except.ok.inj (hcall.symm.trans hsame)⟩
    refine Option.eq_none_iff_forall_ne_some.mpr fun n hn => ?_
    obtain ⟨e, he, hb, haddr, -⟩ := hinv.live_eq_some.mp hn
    exact hdead e he hb haddr
  · exact .inr ⟨n, (lookup_eq_some hinv.nodup).mpr (hperm.mem_iff.mpr List.mem_cons_self), hperm⟩

theorem AllocInv.simulate {call : HeapCall} (hinv : AllocInv h) (hstep : heap.step h call h')
    (hsane : Sane h call h') : allocator.step (live h) call (live h') := by
  have hinv' := hinv.step hstep hsane
  cases call with
  | malloc size ret =>
    rcases hinv.malloc_perm hstep hinv' with ⟨hret, heq⟩ | ⟨hret, hperm⟩
    · exact .inl ⟨hret, by unfold live; rw [heq]⟩
    · have hkeys := (hperm.map Prod.fst).nodup_iff.mp hinv'.nodup
      have hfresh := (List.nodup_cons.mp hkeys).1
      have hapart := (hperm.pairwise_iff Apart.symm).mp hinv'.apart
      exact .inr ⟨hret, lookup_eq_none hfresh,
        fun p n hpn => (List.pairwise_cons.mp hapart).1 _ ((lookup_eq_some hinv.nodup).mp hpn),
        lookup_insert hinv'.nodup hperm⟩
  | free ptr =>
    rcases hinv.free_perm hstep with ⟨hdead, rfl⟩ | ⟨n, -, hperm⟩
    · exact (Function.update_eq_self_iff.mpr hdead.symm).symm
    · exact lookup_erase hinv.nodup hperm

/-- What a call does to the busy entries. -/
def Accounted (h : Kheap) (call : HeapCall) (h' : Kheap) : Prop :=
  ((busy (entries h')).map Prod.fst).Nodup ∧
    (∀ p n, live h' p = some n ↔ ∃ e ∈ entries h', e.isBusy = true ∧ e.addr = p ∧ e.size = n) ∧
    match call with
    | .malloc size ret =>
      if ret = 0 then entries h' = entries h
      else (busy (entries h')).Perm ((ret, size) :: busy (entries h))
    | .free ptr =>
      match live h ptr with
      | none => h' = h
      | some n => (busy (entries h)).Perm ((ptr, n) :: busy (entries h'))

theorem AllocInv.accounted {call : HeapCall} (hinv : AllocInv h) (hstep : heap.step h call h')
    (hsane : Sane h call h') : Accounted h call h' := by
  have hinv' := hinv.step hstep hsane
  refine ⟨hinv'.nodup, fun _ _ => hinv'.live_eq_some, ?_⟩
  cases call with
  | malloc size ret =>
    rcases hinv.malloc_perm hstep hinv' with ⟨hret, heq⟩ | ⟨hret, hperm⟩
    · simp only [if_pos hret]
      exact heq
    · simp only [if_neg hret]
      exact hperm
  | free ptr =>
    rcases hinv.free_perm hstep with ⟨hdead, heq⟩ | ⟨n, hlive, hperm⟩
    · simpa [hdead] using heq
    · simpa [hlive] using hperm

/-- Runs of sane calls are runs of the allocator over the busy entries, which
are each time exactly the outstanding allocations. -/
theorem kmalloc_kfree_refine {tr : List (HeapCall × Kheap)} (h : heap.Trace kheapList tr)
    (hsane : Every Sane kheapList tr) :
    allocator.Trace (live kheapList) (tr.map (Prod.map id live)) ∧
      live kheapList = (fun _ => none) ∧ Every Accounted kheapList tr := by
  have htrace := h.restrict hsane
  have keep : ∀ s e t, AllocInv s → (heap.restrict Sane).step s e t → AllocInv t :=
    fun _ _ _ hinv hstep => hinv.step hstep.1 hstep.2
  refine ⟨htrace.simulate keep (fun _ _ _ hinv hstep => hinv.simulate hstep.1 hstep.2) .start,
    ?_, htrace.every_of_invariant keep
      (fun _ _ _ hinv hstep => hinv.accounted hstep.1 hstep.2) .start⟩
  funext p
  simp [live, entries, kheapList_repr.toList_eq]

/-- Two blocks, a part of the first one again after it was free, and a free of a
dead pointer. -/
theorem kmalloc_kfree_refine_example : ∃ tr,
    replay callHeap kheapList
      [.malloc 16 0xC1000000, .malloc 32 0xC1000010, .free 0xC1000000, .malloc 8 0xC1000000,
        .free 0xC1000008] = some tr ∧
    allocator.Trace (live kheapList) (tr.map (Prod.map id live)) := by
  have hrun : (replay callHeap kheapList
      [.malloc 16 0xC1000000, .malloc 32 0xC1000010, .free 0xC1000000, .malloc 8 0xC1000000,
        .free 0xC1000008]).any (fun tr => Every Sane kheapList tr) = true := by decide +kernel
  obtain ⟨tr, htr, htrace, hsane⟩ :=
    System.Trace.exists_of_replay (M := heap) (fun _ _ _ => step_of_callHeap) hrun
  exact ⟨tr, htr, (kmalloc_kfree_refine htrace hsane).1⟩

end RubiKernel.Heap
