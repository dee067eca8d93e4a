import RubiKernel.Heap.FirstFit
import RubiKernel.Heap.Pointers
import RubiKernel.Lib.Memory

/-! `kmalloc_a` and `kfree_a`: a block inside a block, at an aligned address, with the
address of the outer block in the word before it. -/

namespace RubiKernel.Heap

open Lts Memory

/-- The first multiple of `align` behind the word that `kmalloc_a` keeps. -/
def alignedPtr (p align : Word) : Word :=
  let addr := p + align + 4
  addr - addr % align

def kmallocA (mem : Memory) (h : Kheap) (count align : Word) :
    Except KheapFault (Memory × Kheap × Word) := do
  let (h, p) ← kmalloc h (count + align + 4)
  if p = 0 then return (mem, h, 0)
  else
    let ptr := alignedPtr p align
    return (mem.write32 (ptr - 4) p, h, ptr)

def kfreeA (mem : Memory) (h : Kheap) (ptr : Word) : Except KheapFault Kheap :=
  kfree h (mem.read32 (ptr - 4))

def Within (p n a : Word) : Prop := p.toNat ≤ a.toNat ∧ a.toNat < p.toNat + n.toNat

/-- Only bytes among the `n` bytes at `p` may differ. -/
def WrittenIn (p n : Word) (mem mem' : Memory) : Prop :=
  ∀ a, (∀ i < n.toNat, a ≠ p + BitVec.ofNat 32 i) → mem' a = mem a

variable {h h' : Kheap} {mem mem' : Memory} {p n count align ptr : Word}

theorem alignedPtr_dvd (p align : Word) : align.toNat ∣ (alignedPtr p align).toNat := by
  have hle : (p + align + 4) % align ≤ p + align + 4 := by
    rw [BitVec.le_def, BitVec.toNat_umod]
    exact Nat.mod_le ..
  rw [alignedPtr, BitVec.toNat_sub_of_le hle, BitVec.toNat_umod]
  exact Nat.dvd_sub_mod _

/-- The pointer is at least five bytes into the block, and at most as far as to leave the
bytes that were asked for. -/
theorem alignedPtr_eq (p : Word) (halign : 1 ≤ align.toNat) :
    ∃ d, 5 ≤ d ∧ d ≤ align.toNat + 4 ∧ alignedPtr p align = p + BitVec.ofNat 32 d := by
  have hlt : ((p + align + 4) % align).toNat < align.toNat := by
    rw [BitVec.toNat_umod]
    exact Nat.mod_lt _ halign
  rw [alignedPtr]
  generalize (p + align + 4) % align = r at hlt
  refine ⟨align.toNat + 4 - r.toNat, by omega, by omega, ?_⟩
  bv_omega

theorem kmallocA_eq (hcall : kmalloc h (count + align + 4) = .ok (h', p)) (hp : p ≠ 0) :
    kmallocA mem h count align =
      .ok (mem.write32 (alignedPtr p align - 4) p, h', alignedPtr p align) := by
  simp only [kmallocA, hcall, bind, Except.bind, if_neg hp]
  rfl

theorem kmallocA_ok (hcall : kmallocA mem h count align = .ok (mem', h', ptr)) (hptr : ptr ≠ 0) :
    ∃ p, p ≠ 0 ∧ kmalloc h (count + align + 4) = .ok (h', p) ∧ ptr = alignedPtr p align ∧
      mem' = mem.write32 (ptr - 4) p := by
  cases hmalloc : kmalloc h (count + align + 4) with
  | error f =>
    simp only [kmallocA, hmalloc] at hcall
    cases hcall
  | ok r =>
    obtain ⟨h₁, p⟩ := r
    by_cases hp : p = 0
    · simp only [kmallocA, hmalloc, bind, Except.bind, if_pos hp] at hcall
      cases hcall
      exact absurd rfl hptr
    · rw [kmallocA_eq hmalloc hp] at hcall
      cases hcall
      exact ⟨p, hp, rfl, rfl, rfl⟩

theorem offset_ne (p : Word) {i j : Nat} (hi : i < 2 ^ 32) (hj : j < 2 ^ 32) (hne : i ≠ j) :
    p + BitVec.ofNat 32 i ≠ p + BitVec.ofNat 32 j := by
  intro heq
  have hofNat := congrArg BitVec.toNat (add_left_cancel heq)
  rw [BitVec.toNat_ofNat, BitVec.toNat_ofNat, Nat.mod_eq_of_lt hi, Nat.mod_eq_of_lt hj] at hofNat
  exact hne hofNat

theorem hidden_offset {d i : Nat} (hd : 5 ≤ d) :
    p + BitVec.ofNat 32 d - 4 + BitVec.ofNat 32 i = p + BitVec.ofNat 32 (d - 4 + i) := by
  obtain ⟨k, rfl⟩ := Nat.exists_eq_add_of_le hd
  have hsub : 5 + k - 4 + i = 1 + k + i := by omega
  rw [hsub]
  simp only [BitVec.ofNat_add]
  bv_omega

theorem hidden_apart (p : Word) (halign : 1 ≤ align.toNat)
    (hbound : count.toNat + align.toNat + 4 < 2 ^ 32) {i j : Nat} (hi : i < 4)
    (hj : j < count.toNat) :
    alignedPtr p align - 4 + BitVec.ofNat 32 i ≠ alignedPtr p align + BitVec.ofNat 32 j := by
  obtain ⟨d, hlow, hhigh, heq⟩ := alignedPtr_eq p halign
  rw [heq, hidden_offset hlow, add_ofNat_add]
  exact offset_ne p (by omega) (by omega) (by omega)

theorem hidden_survives (halign : 1 ≤ align.toNat)
    (hbound : count.toNat + align.toNat + 4 < 2 ^ 32)
    (hw : WrittenIn (alignedPtr p align) count (mem.write32 (alignedPtr p align - 4) p) mem') :
    mem'.read32 (alignedPtr p align - 4) = p := by
  have hkeep := read32_congr (alignedPtr p align - 4) fun i hi =>
    hw (alignedPtr p align - 4 + BitVec.ofNat 32 i) fun j hj =>
      hidden_apart p halign hbound hi hj
  rw [hkeep, read32_write32]

theorem within_offset {i : Nat} (hwrap : p.toNat + n.toNat ≤ 2 ^ 32) (hi : i < n.toNat) :
    Within p n (p + BitVec.ofNat 32 i) := by
  have hadd : (p + BitVec.ofNat 32 i).toNat = p.toNat + i := by
    rw [BitVec.toNat_add, BitVec.toNat_ofNat, Nat.mod_eq_of_lt (by omega), Nat.mod_eq_of_lt (by omega)]
  rw [Within, hadd]
  omega

theorem toNat_request (hbound : count.toNat + align.toNat + 4 < 2 ^ 32) :
    (count + align + 4).toNat = count.toNat + align.toNat + 4 := by
  bv_omega

theorem HeapInv.held_nodup (hinv : HeapInv h) : ((held h).map Prod.fst).Nodup := by
  have hsub : ((held h).map Prod.fst).Sublist h.toList := by
    have hfilter := (List.filter_sublist (p := fun x : Nat × KheapEntry => x.2.isBusy)
      (l := h.toList.map fun i => (i, h.body i))).map Prod.fst
    rwa [List.map_map, show Prod.fst ∘ (fun i => (i, h.body i)) = id from rfl, List.map_id] at hfilter
  exact hinv.repr.nodup.sublist hsub

theorem HeapInv.free_held (hinv : HeapInv h) (ptr : Word) :
    ∃ h', kfree h ptr = .ok h' ∧ held h' = (held h).eraseP (·.2.addr = ptr) := by
  obtain ⟨h', es', heq, -, -, l', hr', -, hheld⟩ := kfree_spec hinv.repr ptr
  exact ⟨h', heq, by rw [held_eq hr', hheld, held]⟩

/-- No live block that the loop of `kmalloc` passes starts where the new block will. -/
def NoTwin (size : Word) (es : List KheapEntry) : Prop :=
  ∀ e ∈ passed size es, e.isBusy = true → some e.addr ≠ place size es

instance {size : Word} {es : List KheapEntry} : Decidable (NoTwin size es) :=
  inferInstanceAs (Decidable (∀ e ∈ passed size es, _ → _))

theorem noTwin_iff {es : List KheapEntry} {pre : List (Nat × KheapEntry)}
    (hplace : place n es = some p)
    (hpre : pre.map Prod.snd = (passed n es).filter (·.isBusy)) :
    NoTwin n es ↔ ∀ x ∈ pre, x.2.addr ≠ p := by
  rw [NoTwin, hplace]
  constructor
  · intro htwin x hx haddr
    have hmem : x.2 ∈ (passed n es).filter (·.isBusy) := hpre ▸ List.mem_map_of_mem hx
    obtain ⟨hpassed, hbusy⟩ := List.mem_filter.mp hmem
    exact htwin x.2 hpassed hbusy (congrArg some haddr)
  · intro hnone e he hbusy haddr
    have hmem : e ∈ pre.map Prod.snd := hpre ▸ List.mem_filter.mpr ⟨he, hbusy⟩
    obtain ⟨x, hx, rfl⟩ := List.mem_map.mp hmem
    exact hnone x hx (Option.some.inj haddr)

/-- The first hit is taken out, which is `x` unless there is one before it. -/
theorem eraseP_eq_append_iff {α β : Type} {f : α → β} {P : α → Bool} {x : α} {pre post : List α}
    (hnodup : ((pre ++ x :: post).map f).Nodup) (hx : P x = true) :
    (pre ++ x :: post).eraseP P = pre ++ post ↔ ∀ y ∈ pre, ¬P y = true := by
  constructor
  · intro heq y hy hyp
    rw [List.eraseP_append_left hyp _ hy] at heq
    have hmem : x ∈ pre ++ post := by rw [← heq]; simp
    rw [List.map_append, List.map_cons] at hnodup
    have hout := (List.nodup_cons.mp (List.perm_middle.nodup_iff.mp hnodup)).1
    rw [← List.map_append] at hout
    exact hout (List.mem_map_of_mem hmem)
  · intro hnone
    rw [List.eraseP_append_right _ hnone, List.eraseP_cons_of_pos hx]

theorem HeapInv.free_block {k : Nat} {pre post : List (Nat × KheapEntry)} (hinv : HeapInv h)
    (hheld : held h = pre ++ (k, ⟨p, n, true⟩) :: post) :
    ∃ h', kfree h p = .ok h' ∧ (held h' = pre ++ post ↔ ∀ x ∈ pre, x.2.addr ≠ p) := by
  have hnodup := hinv.held_nodup
  obtain ⟨h', hfree, heq⟩ := hinv.free_held p
  rw [hheld] at heq hnodup
  refine ⟨h', hfree, ?_⟩
  rw [heq, eraseP_eq_append_iff hnodup (by simp)]
  simp only [decide_eq_true_eq, ne_eq]

/-- The slot of the new block among the live ones, and when no twin stands before it. -/
theorem HeapInv.malloc_held (hinv : HeapInv h) (hcall : kmalloc h n = .ok (h', p)) (hp : p ≠ 0) :
    ∃ pre k post, held h = pre ++ post ∧ held h' = pre ++ (k, ⟨p, n, true⟩) :: post ∧
      (NoTwin n (entries h) ↔ ∀ x ∈ pre, x.2.addr ≠ p) := by
  have hend := hinv.mallocEnd n
  rw [hcall] at hend
  cases hend with
  | used full => exact absurd rfl hp
  | @placed _ _ k pre post at_place slot before after passed =>
    exact ⟨pre, k, post, before, after, noTwin_iff at_place passed⟩

/-- An aligned block: its pointer is a multiple of `align`, the word before it and its bytes
are bytes of the outer block, none of them both. Whatever is written to its bytes, `kfree_a`
gives back the outer block and no other exactly when no live block stands before it that
starts at the same address. -/
theorem kmalloc_a_kfree_a_iff (hr : heap.Reachable h) (halign : 1 ≤ align.toNat)
    (hbound : count.toNat + align.toNat + 4 < 2 ^ 32)
    (hcall : kmalloc h (count + align + 4) = .ok (h', p)) (hp : p ≠ 0)
    (hwrap : p.toNat + (count.toNat + align.toNat + 4) ≤ 2 ^ 32) (mem : Memory) :
    ∃ mem' ptr, kmallocA mem h count align = .ok (mem', h', ptr) ∧
      align.toNat ∣ ptr.toNat ∧
      (∀ i < 4, Within p (count + align + 4) (ptr - 4 + BitVec.ofNat 32 i)) ∧
      (∀ j < count.toNat, Within p (count + align + 4) (ptr + BitVec.ofNat 32 j)) ∧
      (∀ i < 4, ∀ j < count.toNat, ptr - 4 + BitVec.ofNat 32 i ≠ ptr + BitVec.ofNat 32 j) ∧
      ∃ pre k post, held h = pre ++ post ∧
        held h' = pre ++ (k, ⟨p, count + align + 4, true⟩) :: post ∧
        ∀ mem'', WrittenIn ptr count mem' mem'' → ∃ h'', kfreeA mem'' h' ptr = .ok h'' ∧
          (held h'' = pre ++ post ↔ NoTwin (count + align + 4) (entries h)) := by
  have hsize := toNat_request hbound
  obtain ⟨d, hlow, hhigh, heq⟩ := alignedPtr_eq p halign
  have hinv := heapInv_of_reachable hr
  obtain ⟨pre, k, post, before, after, htwin⟩ := hinv.malloc_held hcall hp
  obtain ⟨h'', hfree, hiff⟩ := (hinv.malloc hcall).2.free_block after
  refine ⟨_, _, kmallocA_eq hcall hp, alignedPtr_dvd p align, fun i hi => ?_, fun j hj => ?_,
    fun i hi j hj => hidden_apart p halign hbound hi hj, pre, k, post, before, after,
    fun mem'' hw => ⟨h'', ?_, hiff.trans htwin.symm⟩⟩
  · rw [heq, hidden_offset hlow]
    exact within_offset (by omega) (by omega)
  · rw [heq, add_ofNat_add]
    exact within_offset (by omega) (by omega)
  · rw [kfreeA, hidden_survives halign hbound hw, hfree]

/-- An alignment that is no power of two. -/
theorem kmalloc_a_kfree_a_iff_example : ∃ mem' h' ptr h'',
    kmallocA (fun _ => 0) kheapList 10 12 = .ok (mem', h', ptr) ∧ 12 ∣ ptr.toNat ∧
      kfreeA mem' h' ptr = .ok h'' ∧ held h'' = held kheapList := by
  have hsome : (callHeap kheapList (.malloc (10 + 12 + 4) 0xC1000000)).isSome := by decide +kernel
  obtain ⟨h', hh'⟩ := Option.isSome_iff_exists.mp hsome
  have hcall : kmalloc kheapList (10 + 12 + 4) = .ok (h', 0xC1000000) := step_of_callHeap hh'
  have htwin : NoTwin (10 + 12 + 4) (entries kheapList) := by decide +kernel
  obtain ⟨mem', ptr, hmalloc, hdvd, -, -, -, pre, k, post, before, -, hfree⟩ :=
    kmalloc_a_kfree_a_iff (.start rfl) (by decide) (by decide) hcall (by decide) (by decide)
      fun _ => 0
  obtain ⟨h'', hcall', hiff⟩ := hfree mem' fun _ _ => rfl
  exact ⟨mem', h', ptr, h'', hmalloc, hdvd, hcall', by rw [before, hiff.mpr htwin]⟩

/-- Behind a block of no bytes, which is the one that is given back. -/
theorem kfree_a_takes_twin : ∃ h h' mem' ptr h'', heap.Reachable h ∧
    kmalloc h (16 + 16 + 4) = .ok (h', 0xC1000000) ∧
    kmallocA (fun _ => 0) h 16 16 = .ok (mem', h', ptr) ∧ kfreeA mem' h' ptr = .ok h'' ∧
    held h = [(0, ⟨0xC1000000, 0, true⟩)] ∧
    held h' = [(0, ⟨0xC1000000, 0, true⟩), (1, ⟨0xC1000000, 36, true⟩)] ∧
    held h'' = [(1, ⟨0xC1000000, 36, true⟩)] := by
  have hrun : (callHeap kheapList (.malloc 0 0xC1000000)).any (fun h =>
      (callHeap h (.malloc (16 + 16 + 4) 0xC1000000)).any fun h' =>
        (kfreeA (write32 (fun _ => 0) (alignedPtr 0xC1000000 16 - 4) 0xC1000000) h'
          (alignedPtr 0xC1000000 16)).toOption.any fun h'' =>
            held h = [(0, ⟨0xC1000000, 0, true⟩)] ∧
            held h' = [(0, ⟨0xC1000000, 0, true⟩), (1, ⟨0xC1000000, 36, true⟩)] ∧
            held h'' = [(1, ⟨0xC1000000, 36, true⟩)]) = true := by decide +kernel
  obtain ⟨h, hempty, hrun⟩ := (Option.any_eq_true ..).mp hrun
  obtain ⟨h', hsecond, hrun⟩ := (Option.any_eq_true ..).mp hrun
  obtain ⟨h'', hfree, hrun⟩ := (Option.any_eq_true ..).mp hrun
  have hcall : kmalloc h (16 + 16 + 4) = .ok (h', 0xC1000000) := step_of_callHeap hsecond
  exact ⟨h, h', _, _, h'', .step (.start rfl) (step_of_callHeap hempty), hcall,
    kmallocA_eq hcall (by decide), release_eq_some.mp hfree, of_decide_eq_true hrun⟩

end RubiKernel.Heap
