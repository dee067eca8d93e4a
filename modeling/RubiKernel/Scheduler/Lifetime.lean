import RubiKernel.Heap.Held
import RubiKernel.Scheduler.System
import RubiKernel.Vfs.FdTable

/-! What a task takes from the heap between `task_create` and `task_delete`: its slot and
its stacks, which are given back, and the `file_t` of every file it opens, which is not. The
blocks are told apart by their slots in the heap. -/

namespace RubiKernel.Scheduler

open Heap Lts Memory Vfs

def taskSlotSize : Word := 236

def nodeSlotSize : Word := 176

def fileSlotSize : Word := 40

/-- A task, its files, and the heap. `cached` has the slots of the nodes that were put into
`nodes_list` since `task_create`. -/
structure TaskLife where
  heap : Kheap
  kernel : Kernel
  vfs : FsState
  task : Word
  fds : FdTable
  cached : List Word

/-- `task_create` with its allocations; that of a stack may fail, unseen. -/
def createTask (s : TaskLife) (startAddr : Word) (taskMem : Option TaskMem) (recycled : Task)
    (eflags : Word) : Option TaskLife :=
  (allocate s.heap taskSlotSize).bind fun (heap, slot) =>
    (kmalloc heap taskKstackSize).toOption.bind fun (heap, kstack) =>
      (kmalloc heap taskUstackSize).toOption.map fun (heap, ustack) =>
        { s with
          heap := heap
          kernel := taskCreate s.kernel
            { startAddr := startAddr
              taskMem := taskMem
              slot := slot
              kstack := kstack
              ustack := ustack
              recycled := recycled
              eflags := eflags }
          task := slot
          fds :=
            { s.fds with
              fdTable := { s.fds.fdTable with slots := 0, head := 0 }
              nextFd := 0 }
          cached := [] }

def releaseAligned (mem : Memory) (h : Kheap) (ptr : Word) : Option Kheap :=
  release h (read32 mem (ptr - 4))

/-- The tables of the kernel are not freed; `kernel_page_table` counts entries of four
bytes. -/
def freePageTable (k : Kernel) (h : Kheap) (pt : Word) : Option Kheap :=
  if k.kernelPageTable.toNat ≤ pt.toNat ∧ pt.toNat ≤ k.kernelPageTable.toNat +
      4 * ((kernelLowerTables + kernelHigherTables) * tableSize).toNat then some h
  else releaseAligned k.mem h pt

def freePageDirectory (k : Kernel) (h : Kheap) (pd : Word) : Option Kheap :=
  if pd = k.kernelPageDirectory then some h else releaseAligned k.mem h pd

/-- `task_delete`; what it does to the pages and tables of a task leaves the heap alone. -/
def deleteTask (s : TaskLife) : Option TaskLife :=
  if s.task = 0 then some s
  else
    let t := s.kernel.tasks s.task
    (release s.heap t.kstack).bind fun heap =>
      (release heap t.ustack).bind fun heap =>
        let pages := if 0 < t.taskMem.pagesCount then release heap t.taskMem.pages else some heap
        pages.bind fun heap =>
          (freePageTable s.kernel heap t.taskMem.pageTable).bind fun heap =>
            (freePageDirectory s.kernel heap t.taskMem.pageDir).bind fun heap =>
              (release heap s.task).map fun heap =>
                { s with heap := heap, kernel := taskDelete s.kernel s.task }

/-- `get_new_node`, as often as a walk along a path calls it. -/
def newNodes (h : Kheap) : Nat → Option (Kheap × List Word)
  | 0 => some (h, [])
  | k + 1 =>
    (allocate h nodeSlotSize).bind fun (h, node) =>
      (newNodes h k).map fun (h, nodes) => (h, node :: nodes)

inductive FileCall
  | fileOpen (path : List Byte) (modRw : BitVec 16) (recycled : File)
  | fileRead (fd size : Word)
  | fileWrite (fd : Word) (buff : List Byte)
  | fileIoctl (fd cmd subcmd : Word)

/-- `file_open` with its allocations. -/
def openFile (s : TaskLife) (path : List Byte) (modRw : BitVec 16) (recycled : File) :
    Option TaskLife :=
  let r := resolvePath s.vfs path
  (newNodes s.heap (r.2.nodes.length - s.vfs.nodes.length)).bind fun (heap, nodes) =>
    match r.1 with
    | none => some { s with heap := heap, vfs := r.2, cached := nodes ++ s.cached }
    | some n =>
      (allocate heap fileSlotSize).bind fun (heap, entry) =>
        let fds := (FdTable.fileOpen s.vfs s.fds path modRw entry recycled).2.2
        (if (openNode r.2 n).isSome then some heap else release heap entry).map fun heap =>
          { s with heap := heap, vfs := r.2, fds := fds, cached := nodes ++ s.cached }

/-- The devices there are allocate nothing when they are read and written. -/
def TaskLife.exec (writeFn : FdTable.WriteFn) (s : TaskLife) : FileCall → Option TaskLife
  | .fileOpen path modRw recycled => openFile s path modRw recycled
  | .fileRead fd size => (s.fds.fileRead s.vfs fd size).map fun r => { s with fds := r.2 }
  | .fileWrite fd buff => (s.fds.fileWrite writeFn fd buff).map fun r => { s with fds := r.2 }
  | .fileIoctl fd _ _ => (s.fds.fileIoctl fd).map fun _ => s

/-- The runs of a kernel task, from the end of `task_create` on. -/
def fileRuns (writeFn : FdTable.WriteFn) : System TaskLife FileCall where
  start t := ∃ s startAddr recycled eflags, createTask s startAddr none recycled eflags = some t
  step s call t := s.exec writeFn call = some t

/-- `resolve_path` finds a node, and `node->open` accepts it. -/
def opens (v : FsState) (path : List Byte) : Bool :=
  let r := resolvePath v path
  (r.1.bind (openNode r.2)).isSome

def nodeEntry (node : Word) : KheapEntry := ⟨node, nodeSlotSize, true⟩

/-- The heap when `file_open` has taken a `file_t`, with the slots of the new nodes. -/
def takeFile (s : TaskLife) (path : List Byte) : Option (Kheap × List Word × Word) :=
  (newNodes s.heap ((resolvePath s.vfs path).2.nodes.length - s.vfs.nodes.length)).bind
    fun (heap, nodes) => (allocate heap fileSlotSize).map fun (heap, entry) => (heap, nodes, entry)

/-- A block of before `task_create`, or the slot of a node in `nodes_list`. -/
def Others (base : List (Nat × KheapEntry)) (cached : List Word) (x : Nat × KheapEntry) : Prop :=
  x ∈ base ∨ x.2 ∈ cached.map nodeEntry

instance {base : List (Nat × KheapEntry)} {cached : List Word} : DecidablePred (Others base cached) :=
  fun _ => inferInstanceAs (Decidable (_ ∨ _))

/-- No file is opened, and the `kfree` of a `file_t` comes upon no block of others. -/
def GivesBack (base : List (Nat × KheapEntry)) (s : TaskLife) (call : FileCall) (_ : TaskLife) : Prop :=
  match call with
  | .fileOpen path _ _ => opens s.vfs path = false ∧
      ((resolvePath s.vfs path).1.isSome → ∀ r ∈ takeFile s path,
        Spares (Others base (r.2.1 ++ s.cached)) r.1 [r.2.2])
  | _ => True

instance {base : List (Nat × KheapEntry)} {s t : TaskLife} :
    (call : FileCall) → Decidable (GivesBack base s call t)
  | .fileOpen _ _ _ => inferInstanceAs (Decidable (_ ∧ (_ → ∀ r ∈ takeFile _ _, Spares _ _ _)))
  | .fileRead .. => inferInstanceAs (Decidable True)
  | .fileWrite .. => inferInstanceAs (Decidable True)
  | .fileIoctl .. => inferInstanceAs (Decidable True)

/-- What `task_delete` frees of a kernel task. -/
def TaskLife.freed (s : TaskLife) : List Word :=
  [(s.kernel.tasks s.task).kstack, (s.kernel.tasks s.task).ustack, s.task]

/-- The blocks that are live before `task_create` are live all the while, and after
`task_delete` there are no others than those and the nodes put into `nodes_list`. -/
structure Restored (base : List (Nat × KheapEntry)) (t : TaskLife) (tr : List (FileCall × TaskLife))
    (s' : TaskLife) : Prop where
  stay : Every (fun _ _ u => base ⊆ held u.heap) t tr
  blocks : ∃ nodes : List (Nat × KheapEntry),
    (nodes.map Prod.snd).Perm (s'.cached.map nodeEntry) ∧ (held s'.heap).Perm (nodes ++ base)

variable {writeFn : FdTable.WriteFn} {h h' : Kheap} {startAddr eflags entry size : Word}
  {recycled : Task} {base : List (Nat × KheapEntry)} {own taken files nodes cached ptrs : List Word}
  {lost : List KheapEntry} {created s s' t : TaskLife} {call : FileCall}
  {tr : List (FileCall × TaskLife)} {k : Nat}

theorem newNodes_held (hinv : HeapInv h) (hnodes : newNodes h k = some (h', nodes)) :
    HeapInv h' ∧ ∃ kept, kept.map Prod.snd = nodes.reverse.map nodeEntry ∧
      (held h').Perm (kept ++ held h) := by
  induction k generalizing h nodes with
  | zero =>
    obtain ⟨rfl, rfl⟩ := Prod.mk.inj (Option.some.inj hnodes)
    exact ⟨hinv, [], rfl, .rfl⟩
  | succ k ih =>
    obtain ⟨⟨h₁, node⟩, halloc, hnodes⟩ := Option.bind_eq_some_iff.mp hnodes
    obtain ⟨⟨h₂, rest⟩, hrest, heq⟩ := Option.map_eq_some_iff.mp hnodes
    obtain ⟨rfl, rfl⟩ := Prod.mk.inj heq
    obtain ⟨hinv₁, slot, hperm₁⟩ := hinv.allocate_held halloc
    obtain ⟨hinv₂, kept, hkept, hperm₂⟩ := ih hinv₁ hrest
    refine ⟨hinv₂, kept ++ [(slot, nodeEntry node)], by simp [hkept], hperm₂.trans ?_⟩
    rw [List.append_assoc]
    exact hperm₁.append_left kept

/-- The live blocks are those of the task, which start at `own`, those of the nodes of
`nodes_list` but for `lost`, and those of before `task_create`. -/
structure Owned (base : List (Nat × KheapEntry)) (own : List Word) (lost : List KheapEntry)
    (cached : List Word) (h : Kheap) : Prop where
  heap : HeapInv h
  blocks : ∃ taken nodes : List (Nat × KheapEntry), (held h).Perm (taken ++ (nodes ++ base)) ∧
    (taken.map (·.2.addr)).Perm own ∧ (∀ x ∈ taken, x.2.size ≠ nodeSlotSize) ∧
    (nodes.map Prod.snd ++ lost).Perm (cached.map nodeEntry)

theorem Owned.start (hinv : HeapInv h) : Owned (held h) [] [] [] h :=
  ⟨hinv, [], [], .rfl, .rfl, nofun, .rfl⟩

theorem Owned.perm {own' : List Word} (ho : Owned base own lost cached h) (hperm : own.Perm own') :
    Owned base own' lost cached h := by
  obtain ⟨hinv, taken, nodes, hheld, hown, hsize, hnodes⟩ := ho
  exact ⟨hinv, taken, nodes, hheld, hown.trans hperm, hsize, hnodes⟩

theorem Owned.subset (ho : Owned base own lost cached h) : base ⊆ held h := by
  obtain ⟨-, taken, nodes, hheld, -⟩ := ho
  exact fun x hx => hheld.mem_iff.mpr (List.mem_append_right _ (List.mem_append_right _ hx))

theorem Owned.allocate (ho : Owned base own lost cached h) (hsize : size ≠ nodeSlotSize)
    (halloc : Heap.allocate h size = some (h', entry)) :
    Owned base (entry :: own) lost cached h' := by
  obtain ⟨hinv, taken, nodes, hheld, hown, hsizes, hnodes⟩ := ho
  obtain ⟨hinv', slot, hperm⟩ := hinv.allocate_held halloc
  exact ⟨hinv', (slot, ⟨entry, size, true⟩) :: taken, nodes, hperm.trans (hheld.cons _),
    hown.cons entry, List.forall_mem_cons.mpr ⟨hsize, hsizes⟩, hnodes⟩

theorem Owned.malloc {ptr : Word} (ho : Owned base own lost cached h) (hsize : size ≠ nodeSlotSize)
    (hcall : (kmalloc h size).toOption = some (h', ptr)) :
    ∃ ps, Taken ptr ps ∧ Owned base (ps ++ own) lost cached h' := by
  obtain ⟨hinv, taken, nodes, hheld, hown, hsizes, hnodes⟩ := ho
  obtain ⟨hinv', new, htaken, hnew, hperm⟩ := hinv.malloc_new hcall
  refine ⟨_, htaken, hinv', new ++ taken, nodes, ?_, ?_, ?_, hnodes⟩
  · rw [List.append_assoc]
    exact hperm.trans (hheld.append_left new)
  · rw [List.map_append]
    exact hown.append_left _
  · exact List.forall_mem_append.mpr ⟨fun x hx => hnew x hx ▸ hsize, hsizes⟩

theorem Owned.newNodes (ho : Owned base own lost cached h)
    (hnodes : newNodes h k = some (h', nodes)) : Owned base own lost (nodes ++ cached) h' := by
  obtain ⟨hinv, taken, old, hheld, hown, hsizes, hold⟩ := ho
  obtain ⟨hinv', kept, hkept, hperm⟩ := newNodes_held hinv hnodes
  refine ⟨hinv', taken, kept ++ old, ?_, hown, hsizes, ?_⟩
  · rw [List.append_assoc]
    exact (hperm.trans (hheld.append_left kept)).trans (List.perm_append_comm_assoc ..)
  · rw [List.map_append, List.append_assoc, hkept, List.map_append]
    exact ((List.reverse_perm nodes).map nodeEntry).append hold

theorem Owned.release {ptr : Word} (ho : Owned base own lost cached h)
    (hrelease : Heap.release h ptr = some h') :
    (∀ x ∈ firstAt h ptr, ¬Others base cached x) ∧ Owned base (own.erase ptr) lost cached h' ∨
      (∃ x ∈ firstAt h ptr, Others base cached x) ∧
        (¬base ⊆ held h' ∨ ∃ node, Owned base own (node :: lost) cached h') := by
  obtain ⟨hinv, taken, nodes, hheld, hown, hsizes, hnodes⟩ := ho
  obtain ⟨hinv', hperm⟩ := hinv.release_held hrelease
  cases hfirst : firstAt h ptr with
  | none =>
    refine .inl ⟨nofun, hinv', taken, nodes, ?_, ?_, hsizes, hnodes⟩
    · rw [hfirst] at hperm
      exact hperm.symm.trans hheld
    · have hnot : ptr ∉ own := fun hmem => by
        obtain ⟨x, hx, haddr⟩ := List.mem_map.mp (hown.mem_iff.mpr hmem)
        exact firstAt_eq_none.mp hfirst x (hheld.mem_iff.mpr (List.mem_append_left _ hx)) haddr
      rwa [List.erase_of_not_mem hnot]
  | some x =>
    rw [hfirst, Option.toList_some, List.singleton_append] at hperm
    have hrest := hperm.symm.trans hheld
    rcases List.mem_append.mp (hheld.mem_iff.mp (mem_held_of_firstAt hfirst)) with hown' | hother
    · by_cases hbase : Others base cached x
      · refine .inr ⟨⟨x, rfl, hbase⟩, .inl fun hsub => ?_⟩
        rcases hbase with hbase | hnode
        · exact hinv.not_mem_held hrelease hfirst (hsub hbase)
        · obtain ⟨node, -, heq⟩ := List.mem_map.mp hnode
          exact absurd (heq ▸ rfl) (hsizes x hown')
      · refine .inl ⟨fun y hy => Option.some.inj hy ▸ hbase, hinv', taken.erase x, nodes, ?_, ?_,
          fun y hy => hsizes y (List.mem_of_mem_erase hy), hnodes⟩
        · have hsplit := (List.perm_cons_erase hown').append_right (nodes ++ base)
          exact (List.perm_cons x).mp (hrest.trans hsplit)
        · have hmap := ((List.perm_cons_erase hown').map (·.2.addr)).symm.trans hown
          have herase := hmap.erase ptr
          rwa [List.map_cons, firstAt_addr hfirst, List.erase_cons_head] at herase
    · rcases List.mem_append.mp hother with hnode | hbase
      · have hsplit := List.perm_cons_erase hnode
        have hmem : x.2 ∈ cached.map nodeEntry :=
          hnodes.mem_iff.mp (List.mem_append_left _ (List.mem_map_of_mem hnode))
        refine .inr ⟨⟨x, rfl, .inr hmem⟩, .inr ⟨x.2, hinv', taken, nodes.erase x, ?_, hown, hsizes, ?_⟩⟩
        · have hmiddle := (hsplit.append_right base).append_left taken
          exact (List.perm_cons x).mp (hrest.trans (hmiddle.trans List.perm_middle))
        · have hmap := (hsplit.map Prod.snd).append_right lost
          exact (List.perm_middle.trans hmap.symm).trans hnodes
      · exact .inr ⟨⟨x, rfl, .inl hbase⟩,
          .inl fun hsub => hinv.not_mem_held hrelease hfirst (hsub hbase)⟩

theorem releaseAll_subset (hinv : HeapInv h) (hfreed : releaseAll h ptrs = some h') :
    held h' ⊆ held h := by
  induction ptrs generalizing h with
  | nil =>
    obtain rfl := Option.some.inj hfreed
    exact List.Subset.refl _
  | cons ptr ptrs ih =>
    obtain ⟨h₁, hfirst, hrest⟩ := Option.bind_eq_some_iff.mp hfreed
    obtain ⟨hinv₁, hperm⟩ := hinv.release_held hfirst
    exact fun x hx => hperm.mem_iff.mpr (List.mem_append_right _ (ih hinv₁ hrest hx))

/-- The task gives back what it has at `ptrs` unless it gives back a block of others, which
then is missing. -/
theorem Owned.releaseAll (ho : Owned base own lost cached h)
    (hfreed : Heap.releaseAll h ptrs = some h') :
    ¬Spares (Others base cached) h ptrs ∧ ¬base ⊆ held h' ∨
      ∃ own' more, Owned base own' (more ++ lost) cached h' ∧
        (Spares (Others base cached) h ptrs ↔ more = []) ∧
        (more = [] → own' = ptrs.foldl List.erase own) := by
  induction ptrs generalizing h own lost with
  | nil =>
    obtain rfl := Option.some.inj hfreed
    exact .inr ⟨own, [], ho, iff_of_true trivial rfl, fun _ => rfl⟩
  | cons ptr ptrs ih =>
    obtain ⟨h₁, hfirst, hrest⟩ := Option.bind_eq_some_iff.mp hfreed
    rcases ho.release hfirst with ⟨hspared, ho₁⟩ | ⟨⟨x, hx, hother⟩, hmissing⟩
    · have hspares : Spares (Others base cached) h (ptr :: ptrs) ↔
          Spares (Others base cached) h₁ ptrs :=
        ⟨fun hall => hall.2 h₁ hfirst, fun hall =>
          ⟨hspared, fun h₂ h₂eq => Option.some.inj (hfirst.symm.trans h₂eq) ▸ hall⟩⟩
      rw [hspares]
      exact ih ho₁ hrest
    · have hbroken : ¬Spares (Others base cached) h (ptr :: ptrs) := fun hall => hall.1 x hx hother
      rcases hmissing with hgone | ⟨node, ho₁⟩
      · exact .inl ⟨hbroken, fun hsub => hgone fun y hy =>
          releaseAll_subset (ho.heap.release_held hfirst).1 hrest (hsub hy)⟩
      · rcases ih ho₁ hrest with ⟨-, hgone⟩ | ⟨own', more, ho', -, -⟩
        · exact .inl ⟨hbroken, hgone⟩
        · refine .inr ⟨own', more ++ [node], ?_, iff_of_false hbroken (by simp), by simp⟩
          rwa [List.append_assoc]

/-- The nodes are told from the blocks of the task by their size. -/
theorem Owned.restored_iff (ho : Owned base own lost cached h) :
    (∃ nodes : List (Nat × KheapEntry), (nodes.map Prod.snd).Perm (cached.map nodeEntry) ∧
      (held h).Perm (nodes ++ base)) ↔ own = [] ∧ lost = [] := by
  obtain ⟨-, taken, old, hheld, hown, hsizes, hnodes⟩ := ho
  constructor
  · rintro ⟨nodes, hentries, hrestored⟩
    have hperm : (taken ++ old).Perm nodes := by
      rw [← List.perm_append_right_iff base, List.append_assoc]
      exact hheld.symm.trans hrestored
    have hnone : taken = [] := by
      refine List.eq_nil_iff_forall_not_mem.mpr fun x hx => hsizes x hx ?_
      have hmem : x ∈ nodes := hperm.mem_iff.mp (List.mem_append_left _ hx)
      obtain ⟨node, -, heq⟩ := List.mem_map.mp (hentries.mem_iff.mp (List.mem_map_of_mem hmem))
      rw [← heq]
      rfl
    subst hnone
    have hlen := ((hperm.map Prod.snd).trans hentries).length_eq
    have hlen' := hnodes.length_eq
    simp only [List.nil_append, List.length_append, List.length_map] at hlen hlen'
    exact ⟨List.nil_perm.mp hown, List.eq_nil_of_length_eq_zero (by omega)⟩
  · rintro ⟨rfl, rfl⟩
    have hnone : taken = [] := List.map_eq_nil_iff.mp hown.eq_nil
    subst hnone
    rw [List.append_nil] at hnodes
    exact ⟨old, hnodes, hheld⟩

/-- The task in its run: it has its stacks and its slot, at `taken`, and the `file_t`s at
`files`. -/
structure Living (base : List (Nat × KheapEntry)) (taken : List Word) (created : TaskLife)
    (files : List Word) (lost : List KheapEntry) (s : TaskLife) : Prop where
  owned : Owned base (files ++ taken) lost s.cached s.heap
  kernel : s.kernel = created.kernel
  task : s.task = created.task
  nonNull : 0 ∉ files

theorem createTask_living (hinv : HeapInv s.heap)
    (hcreate : createTask s startAddr none recycled eflags = some t) :
    ∃ ks us, Living (held s.heap) (ks ++ us ++ [t.task]) t [] [] t ∧ t.task ≠ 0 ∧
      Taken (t.kernel.tasks t.task).kstack ks ∧ Taken (t.kernel.tasks t.task).ustack us ∧
      (t.kernel.tasks t.task).taskMem =
        ⟨0, 0, t.kernel.kernelPageDirectory, t.kernel.kernelPageTable⟩ := by
  obtain ⟨⟨h₁, slot⟩, hslot, hcreate⟩ := Option.bind_eq_some_iff.mp hcreate
  obtain ⟨⟨h₂, kstack⟩, hkstack, hcreate⟩ := Option.bind_eq_some_iff.mp hcreate
  obtain ⟨⟨h₃, ustack⟩, hustack, rfl⟩ := Option.map_eq_some_iff.mp hcreate
  have ho₁ := (Owned.start hinv).allocate (by decide) hslot
  obtain ⟨ks, hks, ho₂⟩ := ho₁.malloc (by decide) hkstack
  obtain ⟨us, hus, ho₃⟩ := ho₂.malloc (by decide) hustack
  have htask : ∀ a : Spawn, (taskCreate s.kernel a).tasks a.slot = _ := fun a =>
    Function.update_self ..
  have hslots : (us ++ (ks ++ [slot])).Perm ([] ++ (ks ++ us ++ [slot])) := by
    rw [List.nil_append, List.append_assoc]
    exact List.perm_append_comm_assoc us ks _
  refine ⟨ks, us, ⟨ho₃.perm hslots, rfl, rfl, List.not_mem_nil⟩,
    (allocate_eq_some.mp hslot).2, ?_, ?_, ?_⟩
  · simpa only [htask] using hks
  · simpa only [htask] using hus
  · simp only [htask]
    rfl

inductive FileStep (s : TaskLife) : FileCall → TaskLife → Prop
  | unresolved (path : List Byte) (modRw : BitVec 16) (recycled : File) (count : Nat)
      (heap : Kheap) (nodes : List Word) (v : FsState)
      (hnodes : newNodes s.heap count = some (heap, nodes))
      (hnone : (resolvePath s.vfs path).1 = none) :
    FileStep s (.fileOpen path modRw recycled)
      { s with heap := heap, vfs := v, cached := nodes ++ s.cached }
  | opened (path : List Byte) (modRw : BitVec 16) (recycled : File) (count : Nat)
      (heap heap' : Kheap) (nodes : List Word) (v : FsState) (fds : FdTable) (entry : Word)
      (hnodes : newNodes s.heap count = some (heap, nodes))
      (hentry : allocate heap fileSlotSize = some (heap', entry))
      (hopens : opens s.vfs path = true) :
    FileStep s (.fileOpen path modRw recycled)
      { s with heap := heap', vfs := v, fds := fds, cached := nodes ++ s.cached }
  | refused (path : List Byte) (modRw : BitVec 16) (recycled : File) (count : Nat)
      (heap heap' heap'' : Kheap) (nodes : List Word) (v : FsState) (fds : FdTable) (entry : Word)
      (hnodes : newNodes s.heap count = some (heap, nodes))
      (hentry : allocate heap fileSlotSize = some (heap', entry))
      (hrelease : release heap' entry = some heap'')
      (htake : takeFile s path = some (heap', nodes, entry))
      (hsome : (resolvePath s.vfs path).1.isSome = true) (hopens : opens s.vfs path = false) :
    FileStep s (.fileOpen path modRw recycled)
      { s with heap := heap'', vfs := v, fds := fds, cached := nodes ++ s.cached }
  | used (call : FileCall) (fds : FdTable) (hquiet : ∀ base t, GivesBack base s call t) :
    FileStep s call { s with fds := fds }

theorem fileStep_of_exec (hexec : s.exec writeFn call = some t) : FileStep s call t := by
  cases call with
  | fileOpen path modRw recycled =>
    obtain ⟨⟨heap, nodes⟩, hnodes, hexec⟩ := Option.bind_eq_some_iff.mp hexec
    simp only at hexec
    split at hexec
    · next hnone =>
      obtain rfl := Option.some.inj hexec
      exact .unresolved path modRw recycled _ heap nodes _ hnodes hnone
    · next n hsome =>
      obtain ⟨⟨heap', entry⟩, hentry, hexec⟩ := Option.bind_eq_some_iff.mp hexec
      obtain ⟨heap'', hheap, rfl⟩ := Option.map_eq_some_iff.mp hexec
      cases hopen : (openNode (resolvePath s.vfs path).2 n).isSome with
      | true =>
        rw [hopen, if_pos rfl] at hheap
        obtain rfl := Option.some.inj hheap
        exact .opened path modRw recycled _ heap heap' nodes _ _ entry hnodes hentry
          (by simpa [opens, hsome] using hopen)
      | false =>
        rw [hopen, if_neg Bool.false_ne_true] at hheap
        have htake : takeFile s path = some (heap', nodes, entry) := by
          simp only [takeFile, hnodes, hentry, Option.bind_some, Option.map_some]
        exact .refused path modRw recycled _ heap heap' heap'' nodes _ _ entry hnodes hentry hheap
          htake (by rw [hsome]; rfl) (by simpa [opens, hsome] using hopen)
  | fileRead fd size =>
    obtain ⟨r, -, rfl⟩ := Option.map_eq_some_iff.mp hexec
    exact .used _ r.2 fun _ _ => trivial
  | fileWrite fd buff =>
    obtain ⟨r, -, rfl⟩ := Option.map_eq_some_iff.mp hexec
    exact .used _ r.2 fun _ _ => trivial
  | fileIoctl fd cmd subcmd =>
    obtain ⟨-, -, rfl⟩ := Option.map_eq_some_iff.mp hexec
    exact .used _ s.fds fun _ _ => trivial

/-- A call that gives back what it takes keeps what the task has. Another one leaves a
`file_t` with it, and may lose a node. -/
theorem Living.step (hl : Living base taken created files lost s)
    (hexec : s.exec writeFn call = some t) :
    GivesBack base s call t ∧ Living base taken created files lost t ∨
      ¬GivesBack base s call t ∧ (¬base ⊆ held t.heap ∨
        ∃ file more, Living base taken created (file :: files) (more ++ lost) t) := by
  cases fileStep_of_exec hexec with
  | unresolved path modRw recycled count heap nodes v hnodes hnone =>
    refine .inl ⟨⟨?_, ?_⟩, hl.owned.newNodes hnodes, hl.kernel, hl.task, hl.nonNull⟩
    · simp [opens, hnone]
    · simp [hnone]
  | opened path modRw recycled count heap heap' nodes v fds entry hnodes hentry hopens =>
    refine .inr ⟨fun hback => Bool.false_ne_true (hback.1.symm.trans hopens), .inr ⟨entry, [],
      (hl.owned.newNodes hnodes).allocate (by decide) hentry, hl.kernel, hl.task, ?_⟩⟩
    rw [List.mem_cons, not_or]
    exact ⟨(allocate_eq_some.mp hentry).2.symm, hl.nonNull⟩
  | refused path modRw recycled count heap heap' heap'' nodes v fds entry hnodes hentry hrelease
      htake hsome hopens =>
    have hopened := (hl.owned.newNodes hnodes).allocate (by decide) hentry
    rcases hopened.release hrelease with ⟨hspared, howned⟩ | ⟨⟨x, hx, hother⟩, hmissing⟩
    · rw [List.erase_cons_head] at howned
      refine .inl ⟨⟨hopens, fun _ r hr => ?_⟩, howned, hl.kernel, hl.task, hl.nonNull⟩
      obtain rfl := Option.some.inj (htake.symm.trans hr)
      exact ⟨hspared, fun _ _ => trivial⟩
    · refine .inr ⟨fun hback => (hback.2 hsome _ htake).1 x hx hother, hmissing.imp_right ?_⟩
      rintro ⟨node, howned⟩
      refine ⟨entry, [node], howned, hl.kernel, hl.task, ?_⟩
      rw [List.mem_cons, not_or]
      exact ⟨(allocate_eq_some.mp hentry).2.symm, hl.nonNull⟩
  | used call fds hquiet => exact .inl ⟨hquiet _ _, hl.owned, hl.kernel, hl.task, hl.nonNull⟩

theorem Living.stay (hl : Living base taken created files lost s)
    (htr : (fileRuns writeFn).Trace s tr) (hall : Every (GivesBack base) s tr) :
    Every (fun _ _ u => base ⊆ held u.heap) s tr := by
  induction tr generalizing s with
  | nil => trivial
  | cons x tr ih =>
    rcases hl.step htr.1 with ⟨-, hl'⟩ | ⟨hnot, -⟩
    · exact ⟨hl'.owned.subset, ih hl' htr.2 hall.2⟩
    · exact absurd hall.1 hnot

/-- As long as the blocks of before stay, the task has a `file_t` more for each call that does
not give back what it takes. -/
theorem Living.run (hl : Living base taken created files lost s)
    (htr : (fileRuns writeFn).Trace s tr)
    (hstay : Every (fun _ _ u => base ⊆ held u.heap) s tr) :
    ∃ more lost', Living base taken created (more ++ files) (lost' ++ lost) (final s tr) ∧
      (more = [] ↔ Every (GivesBack base) s tr) ∧ (more = [] → lost' = []) := by
  induction tr generalizing s files lost with
  | nil => exact ⟨[], [], hl, iff_of_true rfl trivial, fun _ => rfl⟩
  | cons x tr ih =>
    rcases hl.step htr.1 with ⟨hback, hl'⟩ | ⟨hnot, hgone | ⟨file, missing, hl'⟩⟩
    · obtain ⟨more, lost', hmore, hiff, hlost⟩ := ih hl' htr.2 hstay.2
      exact ⟨more, lost', hmore, hiff.trans (and_iff_right hback).symm, hlost⟩
    · exact absurd hstay.1 hgone
    · obtain ⟨more, lost', hmore, -, -⟩ := ih hl' htr.2 hstay.2
      refine ⟨more ++ [file], lost' ++ missing, ?_, iff_of_false (by simp) fun hall => hnot hall.1,
        by simp⟩
      rwa [List.append_assoc, List.append_assoc]

theorem deleteTask_cases (htask : s.task ≠ 0)
    (hmem : (s.kernel.tasks s.task).taskMem =
      ⟨0, 0, s.kernel.kernelPageDirectory, s.kernel.kernelPageTable⟩)
    (hdelete : deleteTask s = some s') :
    releaseAll s.heap s.freed = some s'.heap ∧ s'.cached = s.cached := by
  rw [deleteTask, if_neg htask] at hdelete
  obtain ⟨h₁, hkstack, hdelete⟩ := Option.bind_eq_some_iff.mp hdelete
  obtain ⟨h₂, hustack, hdelete⟩ := Option.bind_eq_some_iff.mp hdelete
  have htable : ∀ h, freePageTable s.kernel h s.kernel.kernelPageTable = some h := fun h =>
    if_pos ⟨le_rfl, Nat.le_add_right ..⟩
  have hdir : ∀ h, freePageDirectory s.kernel h s.kernel.kernelPageDirectory = some h := fun h =>
    if_pos rfl
  simp only [hmem, htable, hdir, BitVec.lt_irrefl, if_false, Option.bind_some] at hdelete
  obtain ⟨h₃, hslot, rfl⟩ := Option.map_eq_some_iff.mp hdelete
  refine ⟨?_, rfl⟩
  simp only [TaskLife.freed, releaseAll_cons, hkstack, hustack, hslot, Option.bind_some]
  rfl

theorem erase_stacks {ks us : List Word} {kstack ustack task : Word} (hk : Taken kstack ks)
    (hu : Taken ustack us) (htask : task ≠ 0) (hfiles : 0 ∉ files) :
    ([kstack, ustack, task].foldl List.erase (files ++ (ks ++ us ++ [task]))).Perm files := by
  have hnull : 0 ∉ files ++ [task] := by
    simp only [List.mem_append, List.mem_singleton, not_or]
    exact ⟨hfiles, htask.symm⟩
  have hstacks := hk.erase_erase hu fun _ => hnull
  have hmiddle : (files ++ (ks ++ us ++ [task])).Perm (ks ++ us ++ (files ++ [task])) :=
    List.perm_append_comm_assoc ..
  have hboth := (((hmiddle.erase kstack).erase ustack).trans hstacks).erase task
  have hslot := (List.perm_append_singleton task files).erase task
  rw [List.erase_cons_head] at hslot
  exact hboth.trans hslot

/-- The live blocks of before `task_create` stay, and after `task_delete` there are no others
than those and the nodes put into `nodes_list`, exactly when the task has opened no file and
no `kfree` of a `file_t`, a stack or the slot has come upon a block of others. -/
theorem task_blocks_restored_iff (hheap : Heap.heap.Reachable s.heap)
    (hcreate : createTask s startAddr none recycled eflags = some t)
    (htr : (fileRuns writeFn).Trace t tr) (hdelete : deleteTask (final t tr) = some s') :
    Restored (held s.heap) t tr s' ↔
      Every (GivesBack (held s.heap)) t tr ∧
        Spares (Others (held s.heap) (final t tr).cached) (final t tr).heap (final t tr).freed := by
  obtain ⟨ks, us, hl, htask, hk, hu, hmem⟩ := createTask_living (heapInv_of_reachable hheap) hcreate
  -- both sides hold only where the blocks of before stay
  have hcases : Every (fun _ _ u => held s.heap ⊆ held u.heap) t tr →
      (Every (GivesBack (held s.heap)) t tr ∧
          Spares (Others (held s.heap) (final t tr).cached) (final t tr).heap (final t tr).freed ↔
        ∃ nodes : List (Nat × KheapEntry), (nodes.map Prod.snd).Perm (s'.cached.map nodeEntry) ∧
          (held s'.heap).Perm (nodes ++ held s.heap)) := by
    intro hstay
    obtain ⟨files, lost, hend, hback, hlost⟩ := hl.run htr hstay
    rw [List.append_nil, List.append_nil] at hend
    obtain ⟨hfreed, hcached⟩ := deleteTask_cases (s := final t tr) (by rw [hend.task]; exact htask)
      (by rw [hend.kernel, hend.task]; exact hmem) hdelete
    rcases hend.owned.releaseAll hfreed with ⟨hbroken, hgone⟩ | ⟨own, more, howned, hspares, hown⟩
    · refine iff_of_false (fun hall => hbroken hall.2) ?_
      rintro ⟨nodes, -, hrestored⟩
      exact hgone fun x hx => hrestored.mem_iff.mpr (List.mem_append_right _ hx)
    · rw [hcached, howned.restored_iff, ← hback, hspares, List.append_eq_nil_iff]
      have hfiles : more = [] → own.Perm files := fun hnone => by
        rw [hown hnone, TaskLife.freed, hend.kernel, hend.task]
        exact erase_stacks hk hu htask hend.nonNull
      constructor
      · rintro ⟨rfl, rfl⟩
        exact ⟨(hfiles rfl).eq_nil, rfl, hlost rfl⟩
      · rintro ⟨rfl, rfl, -⟩
        exact ⟨(hfiles rfl).nil_eq.symm, rfl⟩
  constructor
  · exact fun hrestored => (hcases hrestored.stay).mpr hrestored.blocks
  · intro hall
    have hstay := hl.stay htr hall.1
    exact ⟨hstay, (hcases hstay).mp hall⟩

def beforeTask : TaskLife where
  heap := kheapList
  kernel := emptyKernel
  vfs := newTask.vfs
  task := 0
  fds := newTask.fds
  cached := []

def noWrite : FdTable.WriteFn := fun _ offset _ => (0, offset)

/-- The root is refused, and there is no `/x`. -/
theorem task_blocks_restored_iff_example : ∃ t tr s',
    createTask beforeTask 0xC0100000 none default 0x202 = some t ∧
      replay (TaskLife.exec noWrite) t
        [.fileOpen [slash] 0 zeroedFile, .fileOpen [slash, 120] 0 zeroedFile, .fileRead 0 1] =
          some tr ∧
      deleteTask (final t tr) = some s' ∧ Restored (held beforeTask.heap) t tr s' := by
  have hrun : (createTask beforeTask 0xC0100000 none default 0x202).any (fun t =>
      (replay (TaskLife.exec noWrite) t
        [.fileOpen [slash] 0 zeroedFile, .fileOpen [slash, 120] 0 zeroedFile, .fileRead 0 1]).any
          fun tr => (Every (GivesBack (held beforeTask.heap)) t tr ∧
            Spares (Others (held beforeTask.heap) (final t tr).cached) (final t tr).heap
              (final t tr).freed) ∧
            (deleteTask (final t tr)).isSome) = true := by
    decide +kernel
  obtain ⟨t, ht, hrun⟩ := (Option.any_eq_true ..).mp hrun
  obtain ⟨tr, htr, htrace, hall, hdelete⟩ :=
    System.Trace.exists_of_replay (M := fileRuns noWrite) (fun _ _ _ h => h) hrun
  obtain ⟨s', hs'⟩ := Option.isSome_iff_exists.mp hdelete
  have hheap : Heap.heap.Reachable beforeTask.heap := .start rfl
  exact ⟨t, tr, s', ht, htr, hs', (task_blocks_restored_iff hheap ht htrace hs').mpr hall⟩

/-- `/f` is opened: its node is cached, but its `file_t` is left over. -/
theorem task_leaks_files : ∃ t tr s',
    createTask beforeTask 0xC0100000 none default 0x202 = some t ∧
      replay (TaskLife.exec noWrite) t [.fileOpen [slash, 102] 0 zeroedFile] = some tr ∧
      deleteTask (final t tr) = some s' ∧
        ¬∃ nodes : List (Nat × KheapEntry), (nodes.map Prod.snd).Perm (s'.cached.map nodeEntry) ∧
          (held s'.heap).Perm (nodes ++ held beforeTask.heap) := by
  have hrun : (createTask beforeTask 0xC0100000 none default 0x202).any (fun t =>
      (replay (TaskLife.exec noWrite) t [.fileOpen [slash, 102] 0 zeroedFile]).any fun tr =>
        (deleteTask (final t tr)).any fun s' =>
          (held s'.heap).length = 2 ∧ s'.cached.length = 1) = true := by
    decide +kernel
  obtain ⟨t, ht, hrun⟩ := (Option.any_eq_true ..).mp hrun
  obtain ⟨tr, htr, hrun⟩ := (Option.any_eq_true ..).mp hrun
  obtain ⟨s', hs', hrun⟩ := (Option.any_eq_true ..).mp hrun
  obtain ⟨hblocks, hcached⟩ := of_decide_eq_true hrun
  refine ⟨t, tr, s', ht, htr, hs', ?_⟩
  rintro ⟨nodes, hentries, hheld⟩
  have hnodes := hentries.length_eq
  have hlen := hheld.length_eq
  rw [List.length_map, List.length_map, hcached] at hnodes
  rw [List.length_append, hblocks, hnodes, beforeTask, held_kheapList] at hlen
  simp at hlen

/-- A live block of no bytes where the slot is put: a task that opens nothing gives it back,
and the slot stays. -/
theorem task_frees_twin : ∃ h t s', Heap.heap.Reachable h ∧
    createTask { beforeTask with heap := h } 0xC0100000 none default 0x202 = some t ∧
      deleteTask t = some s' ∧ held h = [(0, ⟨0xC1000000, 0, true⟩)] ∧
      held s'.heap = [(1, ⟨0xC1000000, taskSlotSize, true⟩)] := by
  have hrun : (callHeap kheapList (.malloc 0 0xC1000000)).any (fun h =>
      (createTask { beforeTask with heap := h } 0xC0100000 none default 0x202).any fun t =>
        (deleteTask t).any fun s' => held h = [(0, ⟨0xC1000000, 0, true⟩)] ∧
          held s'.heap = [(1, ⟨0xC1000000, taskSlotSize, true⟩)]) = true := by decide +kernel
  obtain ⟨h, hcall, hrun⟩ := (Option.any_eq_true ..).mp hrun
  obtain ⟨t, ht, hrun⟩ := (Option.any_eq_true ..).mp hrun
  obtain ⟨s', hs', hrun⟩ := (Option.any_eq_true ..).mp hrun
  obtain ⟨hbefore, hafter⟩ := of_decide_eq_true hrun
  exact ⟨h, t, s', .step (.start rfl) (step_of_callHeap hcall), ht, hs', hbefore, hafter⟩

end RubiKernel.Scheduler
