import RubiKernel.Vfs.Devices
import RubiKernel.Vfs.FdTable
import RubiKernel.Vfs.Read

/-! The files of all the tasks: their tables lie in one kernel heap, and their files lead to the
nodes of one `nodes_list`, into which every path that is resolved puts more of them. -/

universe u

namespace RubiKernel.Vfs

open Cyclic Lts Memory

/-- `fd_table` and `next_fd` of a task, its slots being in the heap. -/
structure FdHead where
  slots : Word
  head : Word
  tail : Word
  nextFd : Word

/-- The slots of the heap that tables are made of, with the `file_t` in each, and the tables of
the tasks. `returned` has what each `file_open` of a task has returned, the last one first. -/
structure Shared (ι : Type u) where
  vfs : FsState
  node : Word → ClistHead
  file : Word → File
  table : ι → FdHead
  returned : ι → List (Word × Word × File)

variable {ι : Type u}

/-- What a task sees. -/
def Shared.view (s : Shared ι) (i : ι) : FdTask where
  vfs := s.vfs
  fds :=
    { fdTable := ⟨(s.table i).slots, (s.table i).head, (s.table i).tail, s.node⟩
      file := s.file
      nextFd := (s.table i).nextFd }
  returned := s.returned i

/-- What `file_read` delivers to a task, or -1. -/
def Shared.read (s : Shared ι) (i : ι) (fd size : Word) : Option (Option (List Byte)) :=
  ((s.view i).fds.fileRead s.vfs fd size).map Prod.fst

def Shared.put [DecidableEq ι] (s : Shared ι) (i : ι) (t : FdTask) : Shared ι where
  vfs := t.vfs
  node := t.fds.fdTable.node
  file := t.fds.file
  table := Function.update s.table i
    ⟨t.fds.fdTable.slots, t.fds.fdTable.head, t.fds.fdTable.tail, t.fds.nextFd⟩
  returned := Function.update s.returned i t.returned

inductive SharedCall (ι : Type u)
  | task (i : ι) (call : FdCall)
  | vfs (call : DevCall)

/-- `syscall_malloc` returns no slot of any task. -/
def Shared.Fresh (s : Shared ι) : FdCall → Prop
  | .fileOpen _ _ entry _ => ∀ i, entry ∉ (s.view i).fds.fdTable.members
  | .others _ => False
  | _ => True

/-- From the mount of `/dev` on, with `L` devices then. -/
def sharedRuns [DecidableEq ι] (t : Tree) (L : Nat) (writeFn : FdTable.WriteFn) :
    System (Shared ι) (SharedCall ι) where
  start s := (devRuns t L).start s.vfs ∧ ∀ i, (fdRuns writeFn).start (s.view i)
  step s call s' :=
    match call with
    | .task i call => s.Fresh call ∧ ∃ x, (s.view i).exec writeFn call = some x ∧ s' = s.put i x
    | .vfs call => ∃ v, (devRuns t L).step s.vfs call v ∧ s' = { s with vfs := v }

section Grows

variable {v v' v'' : FsState} {n k i num : Nat} {ino : Word} {dev : Dev}

structure Grows (v v' : FsState) : Prop extends Extends v v' where
  devs : ∀ {k : Nat} {dev}, v.devs[k]? = some dev → v'.devs[k]? = some dev

theorem Grows.refl (v : FsState) : Grows v v := ⟨.refl v, id⟩

theorem Grows.trans (h : Grows v v') (h' : Grows v' v'') : Grows v v'' :=
  ⟨h.toExtends.trans h'.toExtends, fun hk => h'.devs (h.devs hk)⟩

theorem Grows.push (v : FsState) (node : FsNode) : Grows v { v with nodes := v.nodes ++ [node] } := by
  refine ⟨⟨rfl, fun hn => ?_⟩, id⟩
  rw [List.getElem?_append_left (List.getElem?_eq_some_iff.mp hn).1, hn]

theorem grows_initrdCreateNode (v : FsState) (ino : Word) : Grows v (initrdCreateNode v ino).2 := by
  rcases initrdCreateNode_cases v ino with ⟨n, heq, -⟩ | ⟨-, heq⟩
  · rw [heq]
    exact .refl v
  · rw [heq]
    exact .push v _

theorem grows_devfsCreateNode (v : FsState) (id : Word) : Grows v (devfsCreateNode v id).2 := by
  unfold devfsCreateNode
  split
  · exact .refl v
  · split
    · exact .push v _
    · exact .push v _

theorem grows_opennode (v : FsState) (n : Nat) (num : Word) : Grows v (opennode v n num).2 := by
  unfold opennode
  split
  · exact .refl v
  · split
    · rw [initrdOpenddir_eq]
      split
      · exact grows_initrdCreateNode v _
      · exact .refl v
    · exact grows_devfsCreateNode v num

theorem grows_searchDir (v : FsState) (n : Nat) (part : List Byte) (count i : Nat) :
    Grows v (searchDir v n part count i).2 := by
  induction count generalizing i with
  | zero => exact .refl v
  | succ count ih =>
    unfold searchDir
    split
    · split
      · exact grows_opennode v n _
      · exact ih (i + 1)
    · exact .refl v

theorem grows_findChild (v : FsState) (n : Nat) (part : List Byte) :
    Grows v (findChild v n part).2 := by
  unfold findChild
  split
  · exact .refl v
  · exact grows_searchDir v n part _ 0

theorem grows_walk (v : FsState) (n k : Nat) (cur : List Byte) : Grows v (walk v n k cur).2 := by
  induction k generalizing v n cur with
  | zero => exact .refl v
  | succ k ih =>
    cases cur with
    | nil => exact .refl v
    | cons c cur =>
      have hchild := grows_findChild v n ((c :: cur).takeWhile (· ≠ slash))
      rw [walk]
      split
      · exact .refl v
      · rcases hfind : findChild v n ((c :: cur).takeWhile (· ≠ slash)) with ⟨_ | n', v'⟩
        · rw [hfind] at hchild
          exact hchild
        · rw [hfind] at hchild
          exact hchild.trans (ih v' n' _)

theorem grows_resolvePath (v : FsState) (path : List Byte) : Grows v (resolvePath v path).2 := by
  unfold resolvePath
  split
  · exact .refl v
  · split
    · exact .refl v
    · split
      · exact .refl v
      · exact grows_walk v 0 8 _

theorem grows_devCreate (v : FsState) (dev : Dev) : Grows v (devCreate v dev) :=
  ⟨⟨rfl, id⟩, fun hk => getElem?_devs_append hk dev⟩

theorem grows_step {t : Tree} {L : Nat} {call : DevCall} (h : (devRuns t L).step v call v') :
    Grows v v' := by
  cases call with
  | resolve path =>
    obtain rfl : v' = _ := h
    exact grows_resolvePath v path
  | opennode n num =>
    obtain ⟨-, rfl⟩ := h
    exact grows_opennode v n num
  | devCreate dev =>
    obtain ⟨rfl, -⟩ := h
    exact grows_devCreate v dev

end Grows

section Heap

variable {ct ct' : Clist} {l : List Word} {j n : Word}

theorem ListOf.congr (h : ListOf ct l) (hslots : ct'.slots = ct.slots) (hhead : ct'.head = ct.head)
    (htail : ct'.tail = ct.tail) (hnode : ∀ i ∈ l, ct'.node i = ct.node i) : ListOf ct' l := by
  rcases h with ⟨hring, hends⟩ | ⟨rfl, hzero, hnull⟩
  · refine .inl ⟨⟨?_, ?_, ?_, ?_, hring.distinct, fun i hi => ?_⟩, ?_⟩
    · rw [hslots]
      exact hring.slots
    · rw [hhead]
      exact hring.head
    · rw [htail]
      exact hring.tail
    · rw [hhead]
      exact hring.path.congr fun i hi => congrArg ClistHead.next (hnode i hi)
    · rw [hnode i hi]
      exact hring.data i hi
    · rw [Clist.EndsAt, htail]
      exact hends
  · exact .inr ⟨rfl, hslots.trans hzero, hhead.trans hnull⟩

theorem ListOf.insert_node (h : ListOf ct l) (hj : j ∉ n :: l) :
    (ct.clistInsertAfter ct.tail n).node j = ct.node j := by
  obtain ⟨hjn, hjl⟩ := not_or.mp (mt List.mem_cons.mpr hj)
  unfold Clist.clistInsertAfter
  split
  · exact Function.update_of_ne hjn ..
  · next hsome =>
    obtain ⟨htail, hslots⟩ := not_or.mp hsome
    have hmem : ct.tail ∈ l := by
      rcases h with ⟨hring, -⟩ | ⟨-, hzero, -⟩
      · exact hring.tail.resolve_right fun hnil => htail hnil.1
      · exact absurd hzero hslots
    have hne : j ≠ ct.tail := fun heq => hjl (heq ▸ hmem)
    show Function.update (Function.update ct.node n _) ct.tail _ j = ct.node j
    rw [Function.update_of_ne hne, Function.update_of_ne hjn]

theorem delete_last_node (hring : ct.RingOf (l ++ [n])) (hj : j ∉ l) :
    (ct.clistDelete n).node j = ct.node j := by
  rcases List.eq_nil_or_concat' l with rfl | ⟨l, x, rfl⟩
  · rw [Clist.clistDelete, if_pos (hring.slots_eq_one.mpr rfl)]
  · rw [List.append_assoc] at hring
    have hne : j ≠ x := fun heq => hj (heq ▸ by simp)
    rw [Clist.clistDelete_eq (hring.slots_ne_one (by simp)) hring.seek_tail]
    exact Function.update_of_ne hne ..

end Heap

section Task

variable {writeFn : FdTable.WriteFn} {s s' : FdTask} {call : FdCall} {r : Word × Word × File}
  {j : Word}

theorem FdInv.frame (h : FdInv s) (hslots : s'.fds.fdTable.slots = s.fds.fdTable.slots)
    (hhead : s'.fds.fdTable.head = s.fds.fdTable.head)
    (htail : s'.fds.fdTable.tail = s.fds.fdTable.tail) (hnext : s'.fds.nextFd = s.fds.nextFd)
    (hreturned : s'.returned = s.returned)
    (hnode : ∀ j ∈ s.entries, s'.fds.fdTable.node j = s.fds.fdTable.node j)
    (hfile : ∀ j ∈ s.entries, s'.fds.file j = s.fds.file j) : FdInv s' := by
  have hentries : s'.entries = s.entries := by rw [FdTask.entries, FdTask.entries, hreturned]
  refine ⟨?_, ?_, ?_, ?_, fun r hr => ?_⟩
  · rw [hentries]
    exact h.table.congr hslots hhead htail hnode
  · rw [hnext, hreturned]
    exact h.next
  · rw [hreturned]
    exact h.below
  · rw [hreturned]
    exact h.distinct
  · rw [hreturned] at hr
    obtain ⟨hfd, pos, hpos⟩ := h.filled r hr
    exact ⟨hfd, pos, (hfile _ (FdTask.entry_mem hr)).trans hpos⟩

theorem readFile_offset {v : FsState} {file : File} (hfs : file.fs = .initrd) (offset size : Word) :
    (readFile v file offset size).2 = offset := by
  unfold readFile
  rw [hfs]
  cases v.nodes[file.node]? <;> rfl

theorem writeFile_offset {file : File} (hfs : file.fs = .initrd) (offset : Word)
    (buff : List Byte) : (FdTable.writeFile writeFn file offset buff).2 = offset := by
  unfold FdTable.writeFile
  rw [hfs]

theorem exec_moved {fd : Word} (hfd : call.fd = some fd) (hexec : s.exec writeFn call = some s') :
    s'.vfs = s.vfs ∧ s'.returned = s.returned ∧ ∃ x, s.fds.findFileByFd fd = some x ∧
      (s'.fds = s.fds ∨ x ≠ 0 ∧ ∃ pos, s'.fds = s.fds.setPos x pos ∧
        ((s.fds.file x).fs = .initrd → pos = (s.fds.file x).pos)) := by
  cases call with
  | fileOpen path modRw entry recycled => cases hfd
  | others v => cases hfd
  | fileRead fd' size =>
    obtain rfl := Option.some.inj hfd
    obtain ⟨r, hr, rfl⟩ := Option.map_eq_some_iff.mp hexec
    obtain ⟨x, hx, rfl⟩ := Option.map_eq_some_iff.mp hr
    refine ⟨rfl, rfl, x, hx, ?_⟩
    by_cases hx₀ : x = 0
    · exact .inl (by simp only [if_pos hx₀])
    · refine .inr ⟨hx₀, (readFile s.vfs (s.fds.file x) (s.fds.file x).pos size).2, ?_, ?_⟩
      · simp only [if_neg hx₀]
      · exact fun hfs => readFile_offset hfs ..
  | fileWrite fd' buff =>
    obtain rfl := Option.some.inj hfd
    obtain ⟨r, hr, rfl⟩ := Option.map_eq_some_iff.mp hexec
    obtain ⟨x, hx, rfl⟩ := Option.map_eq_some_iff.mp hr
    refine ⟨rfl, rfl, x, hx, ?_⟩
    by_cases hx₀ : x = 0
    · exact .inl (by simp only [if_pos hx₀])
    · refine .inr ⟨hx₀, (FdTable.writeFile writeFn (s.fds.file x) (s.fds.file x).pos buff).2, ?_, ?_⟩
      · simp only [if_neg hx₀]
      · exact fun hfs => writeFile_offset hfs ..
  | fileIoctl fd' cmd subcmd =>
    obtain rfl := Option.some.inj hfd
    obtain ⟨_, hr, rfl⟩ := Option.map_eq_some_iff.mp hexec
    obtain ⟨x, hx, -⟩ := Option.map_eq_some_iff.mp hr
    exact ⟨rfl, rfl, x, hx, .inl rfl⟩

def FdCall.entry : FdCall → Option Word
  | .fileOpen _ _ entry _ => some entry
  | _ => none

theorem exec_frame (hexec : s.exec writeFn call = some s') (h : FdInv s) (hj : j ∉ s.entries)
    (hentry : j ∉ call.entry) :
    s'.fds.fdTable.node j = s.fds.fdTable.node j ∧ s'.fds.file j = s.fds.file j := by
  cases hfd : call.fd with
  | some fd =>
    obtain ⟨-, -, x, hx, heq | ⟨hx₀, pos, heq, -⟩⟩ := exec_moved hfd hexec
    · rw [heq]
      exact ⟨rfl, rfl⟩
    · obtain ⟨r, hr, -, -, hfind⟩ := (h.find_cases fd).resolve_left fun hnone =>
        hx₀ (Option.some.inj (hx.symm.trans hnone.1))
      have hmem : x ∈ s.entries := Option.some.inj (hx.symm.trans hfind) ▸ FdTask.entry_mem hr
      have hjx : j ≠ x := fun hjx => hj (hjx ▸ hmem)
      rw [heq]
      exact ⟨rfl, Function.update_of_ne hjx ..⟩
  | none =>
    cases call with
    | fileOpen path modRw entry recycled =>
      obtain ⟨hfresh, hexec⟩ := Option.ite_none_right_eq_some.mp hexec
      obtain rfl := Option.some.inj hexec
      have hne : j ≠ entry := fun heq => hentry (heq ▸ rfl)
      have hinsert : (s.fds.fdTable.clistInsertAfter s.fds.fdTable.tail entry).node j =
          s.fds.fdTable.node j :=
        h.table.insert_node fun hmem => (List.mem_cons.mp hmem).elim hne hj
      rcases fileOpen_cases s.vfs s.fds path modRw entry recycled with
        ⟨v', heq⟩ | ⟨v', found, heq⟩ | ⟨v', file, heq⟩
      · simp only [heq, and_self]
      · rw [h.table.members_eq] at hfresh
        simp only [heq]
        rw [delete_last_node (h.table.insert hfresh).1 hj]
        exact ⟨hinsert, Function.update_of_ne hne ..⟩
      · simp only [heq]
        exact ⟨hinsert, Function.update_of_ne hne ..⟩
    | others v =>
      obtain rfl := Option.some.inj hexec
      exact ⟨rfl, rfl⟩
    | fileRead fd size => cases hfd
    | fileWrite fd buff => cases hfd
    | fileIoctl fd cmd subcmd => cases hfd

/-- The files of an initrd are left at their start by every call. -/
theorem exec_rewound (hexec : s.exec writeFn call = some s') (h : FdInv s) (hr : r ∈ s.returned)
    (hfs : r.2.2.fs = .initrd) : s'.fds.file r.2.1 = s.fds.file r.2.1 := by
  by_cases hfd : call.fd = some r.1
  · obtain ⟨-, -, x, hx, heq | ⟨-, pos, heq, hpos⟩⟩ := exec_moved hfd hexec
    · rw [heq]
    · obtain rfl := Option.some.inj (hx.symm.trans (h.find_eq hr).1)
      obtain ⟨-, old, hold⟩ := h.filled r hr
      have hsame := hpos (by rw [hold]; exact hfs)
      rw [heq, hsame]
      exact Function.update_self ..
  · exact h.independent (fdStep_of_exec hexec) hr hfd

theorem fileOpen_opened (v : FsState) (t : FdTable) (path : List Byte) (modRw : BitVec 16)
    (entry : Word) (recycled : File) :
    (FdTable.fileOpen v t path modRw entry recycled).1 = -1 ∨
      ∃ n found f, FdTable.openInto (FdTable.fileOpen v t path modRw entry recycled).2.1 n found =
          some f ∧ (FdTable.fileOpen v t path modRw entry recycled).2.2.file entry =
            { f with fd := t.nextFd, mode := modRw, pos := 0 } := by
  unfold FdTable.fileOpen
  split
  · exact .inl rfl
  · simp only
    split
    · next heq => exact .inr ⟨_, _, _, heq, Function.update_self ..⟩
    · exact .inl rfl

theorem exec_returned (hexec : s.exec writeFn call = some s') (hr : r ∈ s'.returned) :
    r ∈ s.returned ∨ r.2.1 ∈ call.entry ∧ s'.fds.file r.2.1 = r.2.2 ∧ r.2.2.pos = 0 ∧
      ∃ n found f, FdTable.openInto s'.vfs n found = some f ∧ f.fs = r.2.2.fs ∧
        f.node = r.2.2.node ∧ f.device = r.2.2.device := by
  cases hfd : call.fd with
  | some fd =>
    obtain ⟨-, heq, -⟩ := exec_moved hfd hexec
    exact .inl (heq ▸ hr)
  | none =>
    cases call with
    | fileOpen path modRw entry recycled =>
      obtain ⟨-, hexec⟩ := Option.ite_none_right_eq_some.mp hexec
      obtain rfl := Option.some.inj hexec
      have hopened := fileOpen_opened s.vfs s.fds path modRw entry recycled
      by_cases hmax : (FdTable.fileOpen s.vfs s.fds path modRw entry recycled).1 = -1
      · simp only [if_pos hmax] at hr
        exact .inl hr
      · simp only [if_neg hmax, List.mem_cons] at hr
        obtain ⟨n, found, f, hopen, hfile⟩ := hopened.resolve_left hmax
        rcases hr with rfl | hr
        · exact .inr ⟨rfl, rfl, by rw [hfile], n, found, f, hopen, by rw [hfile], by rw [hfile],
            by rw [hfile]⟩
        · exact .inl hr
    | others v =>
      obtain rfl := Option.some.inj hexec
      exact .inl hr
    | fileRead fd size => cases hfd
    | fileWrite fd buff => cases hfd
    | fileIoctl fd cmd subcmd => cases hfd

end Task

section Binding

variable {t : Tree} {L : Nat} {c : Word} {v v' : FsState} {n : Nat} {f f' found : File}

/-- What stands behind an open file: a record that is a file, or a device. -/
inductive Bound (t : Tree) (v : FsState) (f : File) : Prop
  | initrd (ino : Word) (r : Record) (contents : List Byte) (hfs : f.fs = .initrd)
    (hnode : v.nodes[f.node]? = some (t.nodeFor ino)) (hr : t.record ino = some r)
    (hbody : r.body = .file contents)
  | device (k : Nat) (dev : Dev) (hfs : f.fs = .devfs) (hdevice : f.device = some k)
    (hdev : v.devs[k]? = some dev)

theorem Bound.grows (h : Bound t v f) (hv : Grows v v') : Bound t v' f := by
  cases h with
  | initrd ino r contents hfs hnode hr hbody =>
    exact .initrd ino r contents hfs (hv.nodes hnode) hr hbody
  | device k dev hfs hdevice hdev => exact .device k dev hfs hdevice (hv.devs hdev)

theorem Bound.congr (h : Bound t v f) (hfs : f.fs = f'.fs) (hnode : f.node = f'.node)
    (hdevice : f.device = f'.device) : Bound t v f' := by
  cases h with
  | initrd ino r contents hi hn hr hbody =>
    exact .initrd ino r contents (hfs ▸ hi) (hnode ▸ hn) hr hbody
  | device k dev hd hk hdev => exact .device k dev (hfs ▸ hd) (hdevice ▸ hk) hdev

theorem Mounted.bound (hm : Mounted t c L v) (h : FdTable.openInto v n found = some f) :
    Bound t v f := by
  obtain ⟨r, hopen, rfl⟩ := Option.map_eq_some_iff.mp h
  obtain ⟨node, hn, hopen⟩ := Option.bind_eq_some_iff.mp hopen
  have hdevice : node.fs = .devfs →
      (if node.inode.toNat < v.devs.length then some (FileSystem.devfs, some node.inode.toNat)
        else none) = some r →
      Bound t v { found with node := n, fs := r.1, device := r.2.or found.device } := by
    rintro - hopen
    obtain ⟨hlt, heq⟩ := Option.ite_none_right_eq_some.mp hopen
    obtain rfl := Option.some.inj heq
    exact .device node.inode.toNat _ rfl rfl (List.getElem?_eq_getElem hlt)
  cases hm.kinds node (List.mem_of_getElem? hn) with
  | mount => exact hdevice rfl hopen
  | device j dev hj => exact hdevice rfl hopen
  | record ino hino =>
    obtain ⟨r', hr'⟩ := Option.isSome_iff_exists.mp hino
    obtain ⟨htype, heq⟩ := Option.ite_none_left_eq_some.mp hopen
    obtain rfl := Option.some.inj heq
    have hhead := (hm.wellFormed.records ino r' hr').fileHead_eq
    cases hbody : r'.body with
    | file contents => exact .initrd ino r' contents rfl hn hr' hbody
    | dir children =>
      refine absurd ?_ htype
      have htype : (fileHead v.image ino).type = initrdfsDir := by
        rw [hhead, hbody]
        rfl
      show (fileHead v.image ino).type ≠ initrdfsFile
      rw [htype]
      decide

end Binding

section Runs

variable {t : Tree} {L : Nat} {writeFn : FdTable.WriteFn} {s s' : Shared ι} {i j : ι} {x : FdTask}
  {call : FdCall} {e : SharedCall ι} {tr : List (SharedCall ι × Shared ι)}

/-- Every task alone has its table in order, no two share a slot, and the files stay bound. -/
structure SharedInv (t : Tree) (L : Nat) (s : Shared ι) : Prop where
  mounted : ∃ c, Mounted t c L s.vfs
  tasks : ∀ i, FdInv (s.view i)
  apart : ∀ i j, i ≠ j → ∀ a ∈ (s.view i).entries, a ∉ (s.view j).entries
  bound : ∀ i, ∀ r ∈ s.returned i, Bound t s.vfs r.2.2
  rewound : ∀ i, ∀ r ∈ s.returned i, r.2.2.fs = .initrd → s.file r.2.1 = r.2.2 ∧ r.2.2.pos = 0

def Shared.Few (s : Shared ι) : Prop := ∀ i, (s.returned i).length < 2 ^ 32 - 1

theorem exec_vfs (hexec : (s.view i).exec writeFn call = some x) (hfresh : s.Fresh call) :
    x.vfs = s.vfs ∨ ∃ path, x.vfs = (resolvePath s.vfs path).2 := by
  cases call with
  | fileOpen path modRw entry recycled =>
    obtain ⟨-, hexec⟩ := Option.ite_none_right_eq_some.mp hexec
    obtain rfl := Option.some.inj hexec
    refine .inr ⟨path, ?_⟩
    simp only [FdTable.fileOpen]
    rcases hresolve : resolvePath s.vfs path with ⟨_ | n, v⟩
    · simp only [Shared.view, hresolve]
    · simp only [Shared.view, hresolve]
      split <;> rfl
  | others v => exact hfresh.elim
  | fileRead fd size => exact .inl (exec_moved rfl hexec).1
  | fileWrite fd buff => exact .inl (exec_moved rfl hexec).1
  | fileIoctl fd cmd subcmd => exact .inl (exec_moved rfl hexec).1

theorem SharedInv.entries_of_exec (hexec : (s.view i).exec writeFn call = some x) {a : Word}
    (ha : a ∈ x.entries) : a ∈ (s.view i).entries ∨ a ∈ call.entry := by
  obtain ⟨r, hr, rfl⟩ := List.mem_map.mp (List.mem_reverse.mp ha)
  exact (exec_returned hexec hr).imp FdTask.entry_mem And.left

theorem Shared.Fresh.not_mem (hfresh : s.Fresh call) (h : SharedInv t L s) {a : Word}
    (hentry : a ∈ call.entry) (j : ι) : a ∉ (s.view j).entries := by
  cases call with
  | fileOpen path modRw entry recycled =>
    obtain rfl := Option.some.inj hentry
    have hnot := hfresh j
    rwa [(h.tasks j).table.members_eq] at hnot
  | others v => cases hentry
  | fileRead fd size => cases hentry
  | fileWrite fd buff => cases hentry
  | fileIoctl fd cmd subcmd => cases hentry

theorem SharedInv.frame (h : SharedInv t L s) (hfresh : s.Fresh call)
    (hexec : (s.view i).exec writeFn call = some x) (hj : j ≠ i) {a : Word}
    (ha : a ∈ (s.view j).entries) : x.fds.fdTable.node a = s.node a ∧ x.fds.file a = s.file a := by
  exact exec_frame hexec (h.tasks i) (h.apart j i hj a ha) fun hentry => hfresh.not_mem h hentry j ha

theorem SharedInv.read_eq (h : SharedInv t L s) {r : Word × Word × File} (hr : r ∈ s.returned i)
    (size : Word) : s.read i r.1 size =
      some (some (readFile s.vfs (s.file r.2.1) (s.file r.2.1).pos size).1) := by
  obtain ⟨hfind, hne⟩ := (h.tasks i).find_eq hr
  rw [Shared.read, FdTable.fileRead, hfind]
  simp only [Option.map_some, if_neg hne]
  rfl

theorem SharedInv.read_initrd (h : SharedInv t L s) {r : Word × Word × File}
    (hr : r ∈ s.returned i) (hfs : r.2.2.fs = .initrd) {ino : Word} {r' : Record}
    {contents : List Byte} (hnode : s.vfs.nodes[r.2.2.node]? = some (t.nodeFor ino))
    (hrec : t.record ino = some r') (hbody : r'.body = .file contents) (size : Word) :
    s.read i r.1 size = some (some (contents.take size.toNat)) := by
  obtain ⟨hfile, hpos⟩ := h.rewound i r hr hfs
  obtain ⟨c, hm⟩ := h.mounted
  have hat : RecordAt s.vfs.image (t.nodeFor ino).inode r' := hm.wellFormed.records ino r' hrec
  rw [h.read_eq hr, hfile, hpos, readFile, hfs]
  simp only [hnode]
  rw [hat.initrdRead_eq hbody 0 size (by simpa using size.isLt)]
  rfl

theorem SharedInv.read_device (h : SharedInv t L s) {r : Word × Word × File}
    (hr : r ∈ s.returned i) (hfs : r.2.2.fs = .devfs) {k : Nat} {dev : Dev}
    (hdevice : r.2.2.device = some k) (hdev : s.vfs.devs[k]? = some dev) (size : Word) :
    s.read i r.1 size = some (some (dev.readFn (s.file r.2.1).pos size).1) := by
  obtain ⟨-, pos, hfile⟩ := (h.tasks i).filled r hr
  replace hfile : s.file r.2.1 = { r.2.2 with pos := pos } := hfile
  rw [h.read_eq hr, hfile, readFile, hfs]
  simp only [hdevice, Option.bind_some, hdev]

variable [DecidableEq ι]

theorem view_put_self (s : Shared ι) (i : ι) (x : FdTask) : (s.put i x).view i = x := by
  simp only [Shared.view, Shared.put, Function.update_self]

theorem Shared.put_returned (s : Shared ι) (x : FdTask) (hj : j ≠ i) :
    (s.put i x).returned j = s.returned j := Function.update_of_ne hj ..

theorem Shared.put_table (s : Shared ι) (x : FdTask) (hj : j ≠ i) :
    (s.put i x).table j = s.table j := Function.update_of_ne hj ..

theorem sharedRuns_returned (hstep : (sharedRuns t L writeFn).step s e s') (j : ι) :
    s.returned j <:+ s'.returned j := by
  cases e with
  | task i call =>
    obtain ⟨-, x, hexec, rfl⟩ := hstep
    by_cases hj : j = i
    · subst hj
      have hsuffix := (fdStep_of_exec hexec).returned_suffix
      show s.returned j <:+ Function.update s.returned j x.returned j
      rwa [Function.update_self]
    · rw [s.put_returned x hj]
  | vfs call =>
    obtain ⟨v, -, rfl⟩ := hstep
    exact List.suffix_rfl

theorem sharedRuns_grows (hstep : (sharedRuns t L writeFn).step s e s') : Grows s.vfs s'.vfs := by
  cases e with
  | task i call =>
    obtain ⟨hfresh, x, hexec, rfl⟩ := hstep
    show Grows s.vfs x.vfs
    rcases exec_vfs hexec hfresh with heq | ⟨path, heq⟩
    · rw [heq]
      exact .refl _
    · rw [heq]
      exact grows_resolvePath _ _
  | vfs call =>
    obtain ⟨v, hv, rfl⟩ := hstep
    exact grows_step hv

theorem Shared.Few.of_step (hfew : s'.Few) (hstep : (sharedRuns t L writeFn).step s e s') :
    s.Few := fun i => (sharedRuns_returned hstep i).length_le.trans_lt (hfew i)

theorem SharedInv.start (h : (sharedRuns t L writeFn).start s) : SharedInv t L s := by
  obtain ⟨hvfs, htasks⟩ := h
  have hnone : ∀ i, s.returned i = [] := fun i => (htasks i).2.2.2
  refine ⟨Mounted.start hvfs, fun i => .start (htasks i), fun i j _ a ha => ?_, fun i r hr => ?_,
    fun i r hr => ?_⟩
  · rw [FdTask.entries, show (s.view i).returned = [] from hnone i] at ha
    cases ha
  · rw [hnone i] at hr
    cases hr
  · rw [hnone i] at hr
    cases hr

theorem SharedInv.task (h : SharedInv t L s) (hfresh : s.Fresh call)
    (hexec : (s.view i).exec writeFn call = some x) (hfew : (s.put i x).Few) :
    SharedInv t L (s.put i x) := by
  have hgrows : Grows s.vfs x.vfs := by
    rcases exec_vfs hexec hfresh with heq | ⟨path, heq⟩
    · rw [heq]
      exact .refl _
    · rw [heq]
      exact grows_resolvePath _ _
  obtain ⟨c, hm⟩ := h.mounted
  have hm' : Mounted t c L x.vfs := by
    rcases exec_vfs hexec hfresh with heq | ⟨path, heq⟩
    · rw [heq]
      exact hm
    · rw [heq]
      exact (hm.resolvePath path).mounted
  have hslots : ∀ j, ∀ a ∈ ((s.put i x).view j).entries,
      a ∈ (s.view j).entries ∨ j = i ∧ a ∈ call.entry := by
    intro j a ha
    by_cases hj : j = i
    · subst hj
      rw [view_put_self] at ha
      exact (SharedInv.entries_of_exec hexec ha).imp_right fun hentry => ⟨rfl, hentry⟩
    · rw [FdTask.entries, show ((s.put i x).view j).returned = _ from s.put_returned x hj] at ha
      exact .inl ha
  have hx : FdInv x := (h.tasks i).step (fdStep_of_exec hexec) (by
    have hlen := hfew i
    rwa [show (s.put i x).returned i = x.returned from Function.update_self ..] at hlen)
  refine ⟨⟨c, hm'⟩, fun j => ?_, fun j k hjk a ha hak => ?_, fun j r hr => ?_, fun j r hr hfs => ?_⟩
  · by_cases hj : j = i
    · subst hj
      rwa [view_put_self]
    · have htable := s.put_table x hj
      refine (h.tasks j).frame ?_ ?_ ?_ ?_ (s.put_returned x hj)
        (fun a ha => (h.frame hfresh hexec hj ha).1) fun a ha => (h.frame hfresh hexec hj ha).2
      · exact congrArg FdHead.slots htable
      · exact congrArg FdHead.head htable
      · exact congrArg FdHead.tail htable
      · exact congrArg FdHead.nextFd htable
  · rcases hslots j a ha with hold | ⟨rfl, hnew⟩
    · rcases hslots k a hak with hold' | ⟨-, hnew'⟩
      · exact h.apart j k hjk a hold hold'
      · exact hfresh.not_mem h hnew' j hold
    · rcases hslots k a hak with hold' | ⟨rfl, -⟩
      · exact hfresh.not_mem h hnew k hold'
      · exact hjk rfl
  · by_cases hj : j = i
    · subst hj
      rw [show (s.put j x).returned j = x.returned from Function.update_self ..] at hr
      rcases exec_returned hexec hr with hold | ⟨-, -, -, n, found, f, hopen, hfs, hnode, hdevice⟩
      · exact (h.bound j r hold).grows hgrows
      · exact (hm'.bound hopen).congr hfs hnode hdevice
    · rw [s.put_returned x hj] at hr
      exact (h.bound j r hr).grows hgrows
  · by_cases hj : j = i
    · subst hj
      rw [show (s.put j x).returned j = x.returned from Function.update_self ..] at hr
      show x.fds.file r.2.1 = _ ∧ _
      rcases exec_returned hexec hr with hold | ⟨-, hfile, hpos, -⟩
      · rw [exec_rewound hexec (h.tasks j) hold hfs]
        exact h.rewound j r hold hfs
      · exact ⟨hfile, hpos⟩
    · rw [s.put_returned x hj] at hr
      show x.fds.file r.2.1 = _ ∧ _
      have hmem : r.2.1 ∈ (s.view j).entries :=
        FdTask.entry_mem (show r ∈ (s.view j).returned from hr)
      rw [(h.frame hfresh hexec hj hmem).2]
      exact h.rewound j r hr hfs

theorem SharedInv.step (h : SharedInv t L s) (hstep : (sharedRuns t L writeFn).step s e s')
    (hfew : s'.Few) : SharedInv t L s' := by
  cases e with
  | task i call =>
    obtain ⟨hfresh, x, hexec, rfl⟩ := hstep
    exact h.task hfresh hexec hfew
  | vfs call =>
    have hgrows := sharedRuns_grows hstep
    obtain ⟨v, hv, rfl⟩ := hstep
    obtain ⟨c, hm⟩ := h.mounted
    exact ⟨⟨c, hm.step hv⟩, fun i => (h.tasks i).frame rfl rfl rfl rfl rfl (fun _ _ => rfl)
      fun _ _ => rfl, h.apart, fun i r hr => (h.bound i r hr).grows hgrows, h.rewound⟩

theorem sharedInv_of_reachable (h : (sharedRuns t L writeFn).Reachable s) (hfew : s.Few) :
    SharedInv t L s := by
  revert hfew
  exact h.invariant (I := fun s => s.Few → SharedInv t L s) (fun _ hs _ => .start hs)
    fun s e s' ih hstep hfew => (ih (hfew.of_step hstep)).step hstep hfew

/-- The calls of the task `i` about its descriptor `fd`. -/
def SharedCall.Uses (i : ι) (fd : Word) : SharedCall ι → Prop
  | .task j call => j = i ∧ call.fd = some fd
  | .vfs _ => False

theorem SharedInv.untouched (h : SharedInv t L s) (hstep : (sharedRuns t L writeFn).step s e s')
    {r : Word × Word × File} (hr : r ∈ s.returned i) (he : ¬e.Uses i r.1) :
    s'.file r.2.1 = s.file r.2.1 := by
  cases e with
  | task j call =>
    obtain ⟨hfresh, x, hexec, rfl⟩ := hstep
    by_cases hj : i = j
    · subst hj
      exact (h.tasks i).independent (fdStep_of_exec hexec) hr fun hfd => he ⟨rfl, hfd⟩
    · exact (h.frame hfresh hexec hj (FdTask.entry_mem (show r ∈ (s.view i).returned from hr))).2
  | vfs call =>
    obtain ⟨v, -, rfl⟩ := hstep
    rfl

theorem trace_returned (htr : (sharedRuns t L writeFn).Trace s tr) (i : ι) :
    s.returned i <:+ (final s tr).returned i := by
  induction tr generalizing s with
  | nil => exact List.suffix_rfl
  | cons y tr ih => exact (sharedRuns_returned htr.1 i).trans (ih htr.2)

theorem trace_grows (htr : (sharedRuns t L writeFn).Trace s tr) :
    Grows s.vfs (final s tr).vfs := by
  induction tr generalizing s with
  | nil => exact .refl _
  | cons y tr ih => exact (sharedRuns_grows htr.1).trans (ih htr.2)

theorem trace_untouched (h : SharedInv t L s) (htr : (sharedRuns t L writeFn).Trace s tr)
    (hfew : (final s tr).Few) {r : Word × Word × File} (hr : r ∈ s.returned i)
    (hnone : ∀ y ∈ tr, ¬y.1.Uses i r.1) : (final s tr).file r.2.1 = s.file r.2.1 := by
  induction tr generalizing s with
  | nil => rfl
  | cons y tr ih =>
    obtain ⟨hfirst, hrest⟩ := List.forall_mem_cons.mp hnone
    have hmid : y.2.Few := fun j => (trace_returned htr.2 j).length_le.trans_lt (hfew j)
    have hnext := h.step htr.1 hmid
    exact (ih hnext htr.2 hfew ((sharedRuns_returned htr.1 i).mem hr) hrest).trans
      (h.untouched htr.1 hr hfirst)

/-- What a descriptor of the task `i` stands for in `s`, and still does in `s'`. -/
structure StandsFor (t : Tree) (s s' : Shared ι) (i : ι) (fd entry : Word) (f : File) : Prop where
  found : (s'.view i).fds.findFileByFd fd = some entry
  own : ∀ j, i ≠ j → entry ∉ (s'.view j).entries
  initrd : f.fs = .initrd → ∃ ino r contents, s.vfs.nodes[f.node]? = some (t.nodeFor ino) ∧
    t.record ino = some r ∧ r.body = .file contents ∧
      ∀ size, s'.read i fd size = some (some (contents.take size.toNat))
  device : f.fs = .devfs → ∃ k dev, f.device = some k ∧ s.vfs.devs[k]? = some dev ∧
    ∀ size, s'.read i fd size = some (some (dev.readFn (s'.file entry).pos size).1)

/-- Any number of tasks open, read and write files, in any order: a descriptor of a task leads
to its own `file_t` for good, whose position only calls of that task about it change, and
reads what it was bound to when it was opened. -/
theorem files_shared (hs : (sharedRuns t L writeFn).Reachable s)
    (htr : (sharedRuns t L writeFn).Trace s tr) (hfew : (final s tr).Few) {fd entry : Word}
    {f : File} (hr : (fd, entry, f) ∈ s.returned i) :
    StandsFor t s (final s tr) i fd entry f ∧
      ((∀ y ∈ tr, ¬y.1.Uses i fd) → (final s tr).file entry = s.file entry) := by
  have hfew₀ : s.Few := fun j => (trace_returned htr j).length_le.trans_lt (hfew j)
  have h := sharedInv_of_reachable hs hfew₀
  have h' := sharedInv_of_reachable (htr.final_reachable hs) hfew
  have hr' := (trace_returned htr i).mem hr
  have hgrows := trace_grows htr
  refine ⟨⟨((h'.tasks i).find_eq hr').1, fun j hj => ?_, fun hfs => ?_, fun hfs => ?_⟩,
    fun hnone => trace_untouched h htr hfew hr hnone⟩
  · exact h'.apart i j hj entry
      (FdTask.entry_mem (show (fd, entry, f) ∈ ((final s tr).view i).returned from hr'))
  · cases h.bound i _ hr with
    | initrd ino r contents _ hnode hrec hbody =>
      exact ⟨ino, r, contents, hnode, hrec, hbody,
        h'.read_initrd hr' hfs (hgrows.nodes hnode) hrec hbody⟩
    | device k dev hdevfs => exact absurd (hfs.symm.trans hdevfs) (by decide)
  · cases h.bound i _ hr with
    | initrd ino r contents hinitrd => exact absurd (hfs.symm.trans hinitrd) (by decide)
    | device k dev _ hdevice hdev =>
      exact ⟨k, dev, hdevice, hdev, h'.read_device hr' hfs hdevice (hgrows.devs hdev)⟩

end Runs

def fileAndDev : List (Word × Record) :=
  [(8, recordOf [102] (.file [7])), (23, recordOf devName (.dir [])),
    (39, recordOf [slash] (.dir [8, 23]))]

def fileAndDevImage : Memory :=
  imageOfBytes (bytes32 headMagic ++ bytes32 39 ++ fileAndDev.flatMap fun e => e.2.encode)

def fileAndDevTree : Tree :=
  .ofRecords 39 fileAndDev ⟨_, [8, 23], rfl, rfl⟩
    (by simp [fileAndDev, Body.children, List.lookup_cons])
    (by simp [fileAndDev, Body.children, List.lookup_cons]; decide)

theorem fileAndDev_wellFormed : WellFormed fileAndDevImage fileAndDevTree := by
  refine wellFormed_ofRecords (by decide) (by decide) fun e he => ?_
  rw [fileAndDev, List.mem_cons, List.mem_cons, List.mem_singleton] at he
  rcases he with rfl | rfl | rfl
  · exact ⟨by unfold BytesAt; decide, by decide, by decide⟩
  · exact ⟨by unfold BytesAt; decide, by decide, by decide⟩
  · exact ⟨by unfold BytesAt; decide, by decide, by decide⟩

def twoTasks : Shared Bool where
  vfs := devfsMount (resolvePath (initrdInit (unmounted [devA]) fileAndDevImage) (slash :: devName)).2 1
  node := fun _ => ⟨0, 0⟩
  file := fun _ => zeroedFile
  table := fun _ => ⟨0, 0, 0, 0⟩
  returned := fun _ => []

theorem twoTasks_start (writeFn : FdTable.WriteFn) :
    (sharedRuns fileAndDevTree 1 writeFn).start twoTasks :=
  ⟨⟨_, 1, _, .start ⟨unmounted [devA], fileAndDevImage, rfl, fileAndDev_wellFormed, rfl⟩,
    Prod.ext (by decide) rfl, by decide, by decide, rfl⟩, fun _ => ⟨rfl, rfl, rfl, rfl⟩⟩

def opensF (s : Shared Bool) (i : Bool) (entry : Word) : Option (Shared Bool) :=
  ((s.view i).exec (fun _ offset _ => (0, offset))
    (.fileOpen [slash, 102] 0 entry zeroedFile)).map (s.put i)

theorem step_of_opensF {s s' : Shared Bool} {i : Bool} {entry : Word}
    (h : opensF s i entry = some s') (hfresh : ∀ j, entry ∉ (s.view j).fds.fdTable.members) :
    (sharedRuns fileAndDevTree 1 fun _ offset _ => (0, offset)).step s
      (.task i (.fileOpen [slash, 102] 0 entry zeroedFile)) s' := by
  obtain ⟨x, hx, rfl⟩ := Option.map_eq_some_iff.mp h
  exact ⟨hfresh, x, hx, rfl⟩

/-- Both tasks open `/f`; the first one reads it then. -/
theorem files_shared_example : ∃ s : Shared Bool,
    (sharedRuns fileAndDevTree 1 fun _ offset _ => (0, offset)).Reachable s ∧
      (s.returned false).length = 1 ∧ (s.returned true).length = 1 ∧
      s.read false 0 4 = some (some [7]) := by
  have hopened : (opensF twoTasks false 16).any (fun s =>
      s.returned false = [(0, 16, ⟨0, 0, 0, 2, .initrd, none⟩)] ∧ s.returned true = [] ∧
        s.vfs.nodes[2]?.map FsNode.inode = some 8 ∧
          ∀ j, 32 ∉ (s.view j).fds.fdTable.members) = true := by decide +kernel
  obtain ⟨s, hs, hp⟩ := (Option.any_eq_true ..).mp hopened
  obtain ⟨hfirst, hnone, hino, hfresh⟩ := of_decide_eq_true hp
  have hboth : ((opensF twoTasks false 16).bind fun s => opensF s true 32).any (fun s =>
      (s.returned false).length = 1 ∧ (s.returned true).length = 1) = true := by decide +kernel
  rw [hs, Option.bind_some] at hboth
  obtain ⟨s', hs', hp'⟩ := (Option.any_eq_true ..).mp hboth
  obtain ⟨hone, hone'⟩ := of_decide_eq_true hp'
  have hreach := System.Reachable.step (.start (twoTasks_start _))
    (step_of_opensF hs (by decide))
  have htr : (sharedRuns fileAndDevTree 1 fun _ offset _ => (0, offset)).Trace s
      [(.task true (.fileOpen [slash, 102] 0 32 zeroedFile), s')] :=
    ⟨step_of_opensF hs' hfresh, trivial⟩
  have hfew : s'.Few := fun i => by cases i <;> omega
  have hr : (0, 16, ⟨0, 0, 0, 2, .initrd, none⟩) ∈ s.returned false := hfirst ▸ List.mem_singleton_self _
  obtain ⟨hstands, -⟩ := files_shared hreach htr hfew hr
  obtain ⟨ino, r, contents, hnode, hrec, hbody, hread⟩ := hstands.initrd rfl
  replace hnode : s.vfs.nodes[2]? = some (fileAndDevTree.nodeFor ino) := hnode
  rw [hnode] at hino
  obtain rfl : ino = 8 := Option.some.inj hino
  obtain rfl : recordOf [102] (.file [7]) = r := Option.some.inj hrec
  obtain rfl : [7] = contents := Body.file.inj hbody
  exact ⟨s', htr.final_reachable hreach, hone, hone', hread 4⟩

end RubiKernel.Vfs
