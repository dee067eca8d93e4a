import RubiKernel.Heap.Aligned
import RubiKernel.Heap.Release
import RubiKernel.Scheduler.Lifetime

/-! `file_open` of a node that refuses to be opened: the `file_t` is put at the end of
`fd_table`, taken out again and given back to the heap. -/

namespace RubiKernel.Scheduler

open Heap Memory Vfs Tiling

/-- The files of the task are those of `l` before and after, in this order and with the same
contents, and the next descriptor is the same. -/
structure SameFiles (l : List Word) (t t' : FdTable) : Prop where
  before : ListOf t.fdTable l
  after : ListOf t'.fdTable l
  contents : ∀ x ∈ l, t'.file x = t.file x
  nextFd : t'.nextFd = t.nextFd

variable {s : TaskLife} {h h₁ h₂ : Kheap} {nodes l : List Word} {entry x size : Word} {k n : Nat}
  {v : FsState} {path : List Byte} {t : FdTable}

theorem held_pairwise (hinv : HeapInv h) (hend : listEnd h < 2 ^ 32) :
    ((held h).map Prod.snd).Pairwise fun b c => b.addr.toNat + b.size.toNat ≤ c.addr.toNat := by
  rw [held, map_snd_heldAt]
  exact (hinv.wellFormed.adjacent.pairwise hend).filter _

/-- As long as the blocks do not go around the end of memory, a new block does not start where
a live block does, both of at least a byte. -/
theorem allocate_fresh (hinv : HeapInv h) (halloc : allocate h size = some (h₁, entry))
    (hend : listEnd h₁ < 2 ^ 32) (hsize : 1 ≤ size.toNat) {i : Nat} {e : KheapEntry}
    (hlive : (i, e) ∈ held h) (hpos : 1 ≤ e.size.toNat) : entry ≠ e.addr := by
  obtain ⟨hcall, hptr⟩ := allocate_eq_some.mp halloc
  obtain ⟨pre, k, post, before, after, -⟩ := hinv.malloc_held hcall hptr
  have hpair := held_pairwise (hinv.malloc hcall).2 hend
  rw [after, List.map_append, List.map_cons, List.pairwise_append] at hpair
  obtain ⟨-, hpost, hpre⟩ := hpair
  rw [before] at hlive
  rintro rfl
  rcases List.mem_append.mp hlive with hmem | hmem
  · have hle := hpre e (List.mem_map_of_mem hmem) _ List.mem_cons_self
    simp only at hle
    omega
  · have hle := (List.pairwise_cons.mp hpost).1 e (List.mem_map_of_mem hmem)
    simp only at hle
    omega

theorem fileOpen_refused (hpath : resolvePath s.vfs path = (some n, v))
    (hrefuses : openNode v n = none) (modRw : BitVec 16) (entry : Word) (recycled : File) :
    ∃ found, FdTable.fileOpen s.vfs s.fds path modRw entry recycled = (-1, v,
      { fdTable := (s.fds.fdTable.clistInsertAfter s.fds.fdTable.tail entry).clistDelete entry
        file := Function.update s.fds.file entry found
        nextFd := s.fds.nextFd }) := by
  simp only [FdTable.fileOpen, hpath, FdTable.openInto, hrefuses, Option.map_none]
  exact ⟨_, rfl⟩

theorem sameFiles_refused (hlist : ListOf t.fdTable l) (hentry : entry ∉ 0 :: l) (found : File) :
    SameFiles l t
      { fdTable := (t.fdTable.clistInsertAfter t.fdTable.tail entry).clistDelete entry
        file := Function.update t.file entry found
        nextFd := t.nextFd } where
  before := hlist
  after := .delete_last (hlist.insert hentry).1 (hlist.insert hentry).2
  contents x hx := by
    refine Function.update_of_ne ?_ ..
    rintro rfl
    exact hentry (List.mem_cons_of_mem 0 hx)
  nextFd := rfl

/-- An open that is refused returns -1 and leaves the files of the task as they were. It
leaves the live blocks, those of new nodes aside, exactly when no live block stands before the
`file_t` that starts at the same address. -/
theorem file_open_refused_iff (hr : Heap.heap.Reachable s.heap) (hlist : ListOf s.fds.fdTable l)
    (hpath : resolvePath s.vfs path = (some n, v)) (hrefuses : openNode v n = none)
    (hnodes : newNodes s.heap (v.nodes.length - s.vfs.nodes.length) = some (h₁, nodes))
    (halloc : allocate h₁ fileSlotSize = some (h₂, entry)) (hfresh : entry ∉ l)
    (modRw : BitVec 16) (recycled : File) :
    ∃ t, openFile s path modRw recycled = some t ∧
      (FdTable.fileOpen s.vfs s.fds path modRw entry recycled).1 = -1 ∧
      t.fds = (FdTable.fileOpen s.vfs s.fds path modRw entry recycled).2.2 ∧
      SameFiles l s.fds t.fds ∧
      (∃ kept, kept.map Prod.snd = nodes.reverse.map nodeEntry ∧
        (held h₁).Perm (kept ++ held s.heap)) ∧
      (held t.heap = held h₁ ↔ NoTwin fileSlotSize (entries h₁)) := by
  obtain ⟨hinv₁, kept, hkept, hperm⟩ := newNodes_held (heapInv_of_reachable hr) hnodes
  obtain ⟨hcall, hptr⟩ := allocate_eq_some.mp halloc
  obtain ⟨pre, k, post, before, after, htwin⟩ := hinv₁.malloc_held hcall hptr
  obtain ⟨h₃, hfree, hiff⟩ := (hinv₁.malloc hcall).2.free_block after
  obtain ⟨found, hopen⟩ := fileOpen_refused hpath hrefuses modRw entry recycled
  have hentry : entry ∉ 0 :: l := by
    rw [List.mem_cons, not_or]
    exact ⟨hptr, hfresh⟩
  have hrun : openFile s path modRw recycled =
      some
        { s with
          heap := h₃
          vfs := v
          fds := (FdTable.fileOpen s.vfs s.fds path modRw entry recycled).2.2
          cached := nodes ++ s.cached } := by
    simp only [openFile, hpath, hnodes, Option.bind_some, halloc, hrefuses, Option.isSome_none,
      Bool.false_eq_true, if_false, release_eq_some.mpr hfree, Option.map_some]
  refine ⟨_, hrun, by rw [hopen], rfl, ?_, ⟨kept, hkept, hperm⟩, ?_⟩
  · rw [hopen]
    exact sameFiles_refused hlist hentry found
  · rw [before, htwin]
    exact hiff

def oneOpen (h : Kheap) : TaskLife :=
  { beforeTask with
    heap := h
    fds :=
      { newTask.fds with
        fdTable := newTask.fds.fdTable.clistInsertAfter newTask.fds.fdTable.tail 0xC1000000
        nextFd := 1 } }

theorem oneOpen_list (h : Kheap) : ListOf (oneOpen h).fds.fdTable [0xC1000000] := by
  have hnew : ListOf newTask.fds.fdTable [] := .inr ⟨rfl, rfl, rfl⟩
  exact .inl (hnew.insert (by decide))

theorem root_refuses : openNode newTask.vfs 0 = none := by decide +kernel

theorem file_open_refused_iff_example : ∃ h t,
    held h = [(0, ⟨0xC1000000, fileSlotSize, true⟩)] ∧
      openFile (oneOpen h) [slash] 0 zeroedFile = some t ∧
      SameFiles [0xC1000000] (oneOpen h).fds t.fds ∧ held t.heap = held h := by
  have hrun : (callHeap kheapList (.malloc fileSlotSize 0xC1000000)).any (fun h =>
      held h = [(0, ⟨0xC1000000, fileSlotSize, true⟩)] ∧ NoTwin fileSlotSize (entries h) ∧
        (allocate h fileSlotSize).any fun r => listEnd r.1 < 2 ^ 32) = true := by decide +kernel
  obtain ⟨h, hcall, hrun⟩ := (Option.any_eq_true ..).mp hrun
  obtain ⟨hheld, htwin, hrun⟩ := of_decide_eq_true hrun
  obtain ⟨⟨h₂, entry⟩, halloc, hend⟩ := (Option.any_eq_true ..).mp hrun
  have hr : Heap.heap.Reachable (oneOpen h).heap := .step (.start rfl) (step_of_callHeap hcall)
  have hfresh : entry ∉ [0xC1000000] := by
    rw [List.mem_singleton]
    exact allocate_fresh (heapInv_of_reachable hr) halloc (of_decide_eq_true hend) (by decide)
      (i := 0) (e := ⟨0xC1000000, fileSlotSize, true⟩) (by rw [oneOpen, hheld]; simp) (by decide)
  have hpath : resolvePath (oneOpen h).vfs [slash] = (some 0, newTask.vfs) := rfl
  have hnodes : newNodes (oneOpen h).heap 0 = some (h, []) := rfl
  obtain ⟨t, hopen, -, -, hsame, -, hiff⟩ := file_open_refused_iff hr (oneOpen_list h) hpath
    root_refuses hnodes halloc hfresh 0 zeroedFile
  exact ⟨h, t, hheld, hopen, hsame, hiff.mpr htwin⟩

/-- A block of no bytes stands where the `file_t` is put, and is the one that is given back. -/
theorem file_open_takes_twin : ∃ h t, Heap.heap.Reachable h ∧
    resolvePath beforeTask.vfs [slash] = (some 0, beforeTask.vfs) ∧
      openNode beforeTask.vfs 0 = none ∧
      openFile { beforeTask with heap := h } [slash] 0 zeroedFile = some t ∧
        held h = [(0, ⟨0xC1000000, 0, true⟩)] ∧ held t.heap = [(1, ⟨0xC1000000, 40, true⟩)] := by
  have hrun : (callHeap kheapList (.malloc 0 0xC1000000)).any (fun h =>
      (openFile { beforeTask with heap := h } [slash] 0 zeroedFile).any fun t =>
        held h = [(0, ⟨0xC1000000, 0, true⟩)] ∧ held t.heap = [(1, ⟨0xC1000000, 40, true⟩)]) =
          true := by decide +kernel
  obtain ⟨h, hcall, hrun⟩ := (Option.any_eq_true ..).mp hrun
  obtain ⟨t, hopen, hrun⟩ := (Option.any_eq_true ..).mp hrun
  obtain ⟨hbefore, hafter⟩ := of_decide_eq_true hrun
  exact ⟨h, t, .step (.start rfl) (step_of_callHeap hcall), rfl, root_refuses, hopen, hbefore, hafter⟩

end RubiKernel.Scheduler
