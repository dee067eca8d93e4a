import Mathlib.Data.List.Find
import RubiKernel.Clist.Runs
import RubiKernel.Lib.Lts
import RubiKernel.Vfs.Read

/-! The cyclic list `fd_table` behind the descriptors of a task: a descriptor stands for
one `file_t` for good, whatever is opened, read and written meanwhile. Opening and reading
over it is opening and reading over the list of the open files, `FileTable`. -/

namespace RubiKernel.Vfs

open Cyclic Lts

/-- `memset(.., 0, ..)`; the pointers are set before anything reads them. -/
def zeroedFile : File where
  fd := 0
  mode := 0
  pos := 0
  node := 0
  fs := .initrd
  device := none

/-- `fd_table` and `next_fd` of a task, with the files behind the pointers. -/
structure FdTable where
  fdTable : Clist
  file : Word → File
  nextFd : Word

namespace FdTable

/-- `file = (struct file_t *)entry->data` -/
def fileOf (t : FdTable) (entry : Word) : Word := (t.fdTable.node entry).data

/-- NULL is 0; `none` when the search does not end. -/
def findFileByFd (t : FdTable) (fd : Word) : Option Word :=
  (t.fdTable.clistFind fun entry => (t.file (t.fileOf entry)).fd = fd).map fun entry =>
    if entry = 0 then 0 else t.fileOf entry

/-- `node->open(node, file)`: `initrd_open` leaves `private_data` as it is. -/
def openInto (v : FsState) (n : Nat) (file : File) : Option File :=
  (openNode v n).map fun r => { file with node := n, fs := r.1, device := r.2.or file.device }

/-- `entry` is the slot that `syscall_malloc` returns, and `recycled` what it holds. The
descriptor, or -1. -/
def fileOpen (v : FsState) (t : FdTable) (path : List Byte) (modRw : BitVec 16) (entry : Word)
    (recycled : File) : Word × FsState × FdTable :=
  match resolvePath v path with
  | (none, v) => (-1, v, t)
  | (some n, v) =>
    let found := if t.fdTable.tail = 0 ∨ t.fdTable.slots = 0 then zeroedFile else recycled
    let fdTable := t.fdTable.clistInsertAfter t.fdTable.tail entry
    match openInto v n found with
    | some file =>
      (t.nextFd, v,
        { fdTable := fdTable
          file := Function.update t.file entry { file with fd := t.nextFd, mode := modRw, pos := 0 }
          nextFd := t.nextFd + 1 })
    | none =>
      (-1, v,
        { fdTable := fdTable.clistDelete entry
          file := Function.update t.file entry found
          nextFd := t.nextFd })

def setPos (t : FdTable) (file pos : Word) : FdTable :=
  { t with file := Function.update t.file file { t.file file with pos := pos } }

/-- The bytes delivered, or `none` for -1. -/
def fileRead (t : FdTable) (v : FsState) (fd size : Word) : Option (Option (List Byte) × FdTable) :=
  (t.findFileByFd fd).map fun file =>
    if file = 0 then (none, t)
    else
      let r := readFile v (t.file file) (t.file file).pos size
      (some r.1, t.setPos file r.2)

/-- What `write_fn` of a device returns for an offset and some bytes, with the offset it
leaves. -/
abbrev WriteFn := Nat → Word → List Byte → Word × Word

/-- `file->write(file, &offset, size, buff)` -/
def writeFile (writeFn : WriteFn) (file : File) (offset : Word) (buff : List Byte) : Word × Word :=
  match file.fs, file.device with
  | .devfs, some k => writeFn k offset buff
  | _, _ => (0, offset)

def fileWrite (t : FdTable) (writeFn : WriteFn) (fd : Word) (buff : List Byte) :
    Option (Word × FdTable) :=
  (t.findFileByFd fd).map fun file =>
    if file = 0 then (-1, t)
    else
      let r := writeFile writeFn (t.file file) (t.file file).pos buff
      (r.1, t.setPos file r.2)

/-- `initrd_ioctl` and `devfs_ioctl` return 0; what a device does is its own matter. -/
def fileIoctl (t : FdTable) (fd : Word) : Option Word :=
  (t.findFileByFd fd).map fun file => if file = 0 then -1 else 0

end FdTable

/-- A task with its files. `returned` has what each `file_open` that did not fail has
returned so far, the last one first: the descriptor, and the `file_t` as it was filled in. -/
structure FdTask where
  vfs : FsState
  fds : FdTable
  returned : List (Word × Word × File)

inductive FdCall
  | fileOpen (path : List Byte) (modRw : BitVec 16) (entry : Word) (recycled : File)
  | fileRead (fd size : Word)
  | fileWrite (fd : Word) (buff : List Byte)
  | fileIoctl (fd cmd subcmd : Word)
  /-- Other tasks and devices change the nodes and the devices. -/
  | others (v : FsState)

def FdCall.fd : FdCall → Option Word
  | .fileRead fd _ => some fd
  | .fileWrite fd _ => some fd
  | .fileIoctl fd _ _ => some fd
  | .fileOpen .. => none
  | .others _ => none

def FdTask.exec (writeFn : FdTable.WriteFn) (s : FdTask) : FdCall → Option FdTask
  | .fileOpen path modRw entry recycled =>
    if entry ∉ 0 :: s.fds.fdTable.members then
      let r := FdTable.fileOpen s.vfs s.fds path modRw entry recycled
      some
        { vfs := r.2.1
          fds := r.2.2
          returned := if r.1 = -1 then s.returned else (r.1, entry, r.2.2.file entry) :: s.returned }
    else none
  | .fileRead fd size => (s.fds.fileRead s.vfs fd size).map fun r => { s with fds := r.2 }
  | .fileWrite fd buff => (s.fds.fileWrite writeFn fd buff).map fun r => { s with fds := r.2 }
  | .fileIoctl fd _ _ => (s.fds.fileIoctl fd).map fun _ => s
  | .others v => some { s with vfs := v }

/-- From `task_create` on, which leaves `tail` and the memory of the slots as they are. -/
def fdRuns (writeFn : FdTable.WriteFn) : System FdTask FdCall where
  start s := s.fds.fdTable.slots = 0 ∧ s.fds.fdTable.head = 0 ∧ s.fds.nextFd = 0 ∧ s.returned = []
  step s call s' := s.exec writeFn call = some s'

variable {writeFn : FdTable.WriteFn} {ct : Clist} {l : List Word} {n x fd pos : Word} {v : FsState}
  {t : FdTable} {s s' : FdTask} {call : FdCall} {r : Word × Word × File}

/-- The nodes of a list from first to last; an empty one may have any tail. -/
def ListOf (ct : Clist) (l : List Word) : Prop :=
  ct.RingOf l ∧ ct.EndsAt l ∨ l = [] ∧ ct.slots = 0 ∧ ct.head = 0

theorem ListOf.members_eq (h : ListOf ct l) : ct.members = l := by
  rcases h with ⟨hring, -⟩ | ⟨rfl, hslots, -⟩
  · exact hring.members_eq
  · rw [Clist.members, hslots]
    rfl

theorem ListOf.distinct (h : ListOf ct l) : (0 :: l).Nodup := by
  rcases h with ⟨hring, -⟩ | ⟨rfl, -⟩
  · exact hring.distinct
  · exact List.nodup_singleton 0

theorem ListOf.data (h : ListOf ct l) (hx : x ∈ l) : (ct.node x).data = x := by
  rcases h with ⟨hring, -⟩ | ⟨rfl, -⟩
  · exact hring.data x hx
  · cases hx

theorem ListOf.clistFind_eq (h : ListOf ct l) (func : Word → Bool) :
    ct.clistFind func = some ((l.find? func).getD 0) := by
  rcases h with ⟨hring, -⟩ | ⟨rfl, -, hhead⟩
  · exact hring.clistFind_eq func
  · rw [Clist.clistFind, if_pos hhead]
    rfl

theorem ListOf.insert (h : ListOf ct l) (hn : n ∉ 0 :: l) :
    (ct.clistInsertAfter ct.tail n).RingOf (l ++ [n]) ∧
      (ct.clistInsertAfter ct.tail n).EndsAt (l ++ [n]) := by
  have hn₀ : n ≠ 0 := fun hz => hn (by simp [hz])
  rcases h with ⟨hring, hends⟩ | ⟨rfl, hslots, -⟩
  · rcases List.eq_nil_or_concat' l with rfl | ⟨l, x, rfl⟩
    · exact hring.insert_empty hn₀
    · rw [Clist.endsAt_concat.mp hends, List.append_assoc]
      exact ⟨hring.clistInsertAfter hn, hends.insert hring⟩
  · rw [Clist.clistInsertAfter, if_pos (.inr hslots)]
    exact ⟨Clist.ringOf_clistInit ct hn₀, rfl⟩

theorem ListOf.delete_last (hring : ct.RingOf (l ++ [n])) (hends : ct.EndsAt (l ++ [n])) :
    ListOf (ct.clistDelete n) l := by
  rcases List.eq_nil_or_concat' l with rfl | ⟨l, x, rfl⟩
  · exact .inl ⟨hring.clistDelete_single, hring.clistDelete_single_endsAt⟩
  · rw [List.append_assoc] at hring hends
    exact .inl ⟨hring.clistDelete_tail, hends.delete_tail hring⟩

def FdTask.entries (s : FdTask) : List Word := (s.returned.map fun r => r.2.1).reverse

structure FdInv (s : FdTask) : Prop where
  table : ListOf s.fds.fdTable s.entries
  next : s.fds.nextFd.toNat = s.returned.length
  below : ∀ r ∈ s.returned, r.1.toNat < s.returned.length
  distinct : (s.returned.map Prod.fst).Nodup
  filled : ∀ r ∈ s.returned, r.2.2.fd = r.1 ∧ ∃ pos, s.fds.file r.2.1 = { r.2.2 with pos := pos }

theorem FdTask.entry_mem (hr : r ∈ s.returned) : r.2.1 ∈ s.entries := by
  rw [FdTask.entries, List.mem_reverse]
  exact List.mem_map_of_mem hr

theorem FdInv.find_cases (h : FdInv s) (fd : Word) :
    s.fds.findFileByFd fd = some 0 ∧ fd ∉ s.returned.map Prod.fst ∨
      ∃ r ∈ s.returned, r.1 = fd ∧ r.2.1 ≠ 0 ∧ s.fds.findFileByFd fd = some r.2.1 := by
  have hdata : ∀ x ∈ s.entries, s.fds.fileOf x = x := fun x hx => h.table.data hx
  have hfd : ∀ r ∈ s.returned, (s.fds.file (s.fds.fileOf r.2.1)).fd = r.1 := by
    intro r hr
    obtain ⟨hfd, pos, hfile⟩ := h.filled r hr
    rw [hdata _ (FdTask.entry_mem hr), hfile]
    exact hfd
  rw [FdTable.findFileByFd, h.table.clistFind_eq, Option.map_some]
  cases hfind : s.entries.find? fun entry => (s.fds.file (s.fds.fileOf entry)).fd = fd with
  | none =>
    refine .inl ⟨rfl, fun hmem => ?_⟩
    obtain ⟨r, hr, rfl⟩ := List.mem_map.mp hmem
    have hne := List.find?_eq_none.mp hfind r.2.1 (FdTask.entry_mem hr)
    simp [hfd r hr] at hne
  | some x =>
    have hx := List.mem_of_find?_eq_some hfind
    have hxfd := List.find?_some hfind
    have hx₀ : x ≠ 0 := by
      rintro rfl
      exact (List.nodup_cons.mp h.table.distinct).1 hx
    obtain ⟨r, hr, rfl⟩ := List.mem_map.mp (List.mem_reverse.mp hx)
    rw [decide_eq_true_eq, hfd r hr] at hxfd
    refine .inr ⟨r, hr, hxfd, hx₀, ?_⟩
    rw [Option.getD_some, if_neg hx₀, hdata _ hx]

theorem FdInv.find_eq (h : FdInv s) (hr : r ∈ s.returned) :
    s.fds.findFileByFd r.1 = some r.2.1 ∧ r.2.1 ≠ 0 := by
  rcases h.find_cases r.1 with ⟨-, hnot⟩ | ⟨r', hr', hfd, hne, hfind⟩
  · exact absurd (List.mem_map_of_mem hr) hnot
  · rw [List.inj_on_of_nodup_map h.distinct hr' hr hfd] at hne hfind
    exact ⟨hfind, hne⟩

theorem FdInv.find_none (h : FdInv s) (hfd : fd ∉ s.returned.map Prod.fst) :
    s.fds.findFileByFd fd = some 0 := by
  rcases h.find_cases fd with ⟨hfind, -⟩ | ⟨r, hr, rfl, -⟩
  · exact hfind
  · exact absurd (List.mem_map_of_mem hr) hfd

theorem FdInv.start (h : (fdRuns writeFn).start s) : FdInv s := by
  obtain ⟨hslots, hhead, hnext, hreturned⟩ := h
  refine ⟨.inr ⟨?_, hslots, hhead⟩, ?_, ?_, ?_, ?_⟩
  · rw [FdTask.entries, hreturned]
    rfl
  · rw [hnext, hreturned]
    rfl
  · simp [hreturned]
  · simp [hreturned]
  · simp [hreturned]

theorem FdInv.setPos (h : FdInv s) (file pos : Word) :
    FdInv { s with fds := s.fds.setPos file pos } := by
  refine ⟨h.table, h.next, h.below, h.distinct, fun r hr => ?_⟩
  obtain ⟨hfd, p, hp⟩ := h.filled r hr
  refine ⟨hfd, ?_⟩
  by_cases hfile : r.2.1 = file
  · refine ⟨pos, ?_⟩
    simp only [FdTable.setPos, hfile, Function.update_self]
    rw [← hfile, hp]
  · exact ⟨p, (Function.update_of_ne hfile ..).trans hp⟩

theorem FdTask.update_file (hn : n ∉ s.entries) (f : File) :
    ∀ r ∈ s.returned, Function.update s.fds.file n f r.2.1 = s.fds.file r.2.1 := by
  intro r hr
  refine Function.update_of_ne ?_ ..
  rintro rfl
  exact hn (FdTask.entry_mem hr)

theorem fileOpen_cases (v : FsState) (t : FdTable) (path : List Byte) (modRw : BitVec 16)
    (entry : Word) (recycled : File) :
    (∃ v', FdTable.fileOpen v t path modRw entry recycled = (-1, v', t)) ∨
      (∃ v' found, FdTable.fileOpen v t path modRw entry recycled = (-1, v',
        { fdTable := (t.fdTable.clistInsertAfter t.fdTable.tail entry).clistDelete entry
          file := Function.update t.file entry found
          nextFd := t.nextFd })) ∨
      ∃ v', ∃ file : File, FdTable.fileOpen v t path modRw entry recycled = (t.nextFd, v',
        { fdTable := t.fdTable.clistInsertAfter t.fdTable.tail entry
          file := Function.update t.file entry { file with fd := t.nextFd, mode := modRw, pos := 0 }
          nextFd := t.nextFd + 1 }) := by
  unfold FdTable.fileOpen
  split
  · exact .inl ⟨_, rfl⟩
  · simp only
    split
    · exact .inr (.inr ⟨_, _, rfl⟩)
    · exact .inr (.inl ⟨_, _, rfl⟩)

/-- What a call does: it gives a new descriptor to a slot not in use, or it changes at most
the position of the file it is about, and memory not in use. -/
inductive FdStep (s : FdTask) (call : FdCall) (s' : FdTask) : Prop
  | opened (file : Word) (f : File) (hfile : file ∉ 0 :: s.fds.fdTable.members)
      (hfd : s.fds.nextFd ≠ -1 → s'.returned = (s.fds.nextFd, file, f) :: s.returned)
      (hnone : s.fds.nextFd = -1 → s'.returned = s.returned) (hf : f.fd = s.fds.nextFd)
      (hfds : s'.fds =
        { fdTable := s.fds.fdTable.clistInsertAfter s.fds.fdTable.tail file
          file := Function.update s.fds.file file f
          nextFd := s.fds.nextFd + 1 })
  | refused (file : Word) (f : File) (hfile : file ∉ 0 :: s.fds.fdTable.members)
      (hreturned : s'.returned = s.returned)
      (hfds : s'.fds =
        { fdTable := (s.fds.fdTable.clistInsertAfter s.fds.fdTable.tail file).clistDelete file
          file := Function.update s.fds.file file f
          nextFd := s.fds.nextFd })
  | moved (fd file pos : Word) (hcall : call.fd = some fd)
      (hfile : s.fds.findFileByFd fd = some file) (hfile₀ : file ≠ 0)
      (hreturned : s'.returned = s.returned) (hfds : s'.fds = s.fds.setPos file pos)
  | same (hreturned : s'.returned = s.returned) (hfds : s'.fds = s.fds)

theorem fdStep_of_exec (h : s.exec writeFn call = some s') : FdStep s call s' := by
  cases call with
  | fileOpen path modRw entry recycled =>
    obtain ⟨hentry, h⟩ := Option.ite_none_right_eq_some.mp h
    rcases fileOpen_cases s.vfs s.fds path modRw entry recycled with
      ⟨v', heq⟩ | ⟨v', found, heq⟩ | ⟨v', file, heq⟩
    · obtain rfl := Option.some.inj h
      simp only [heq]
      exact .same (by simp) rfl
    · obtain rfl := Option.some.inj h
      simp only [heq]
      exact .refused entry found hentry (by simp) rfl
    · obtain rfl := Option.some.inj h
      simp only [heq]
      exact .opened entry { file with fd := s.fds.nextFd, mode := modRw, pos := 0 } hentry
        (fun hne => by rw [if_neg hne, Function.update_self]) (fun hmax => if_pos hmax) rfl rfl
  | fileRead fd size =>
    obtain ⟨r, hr, rfl⟩ := Option.map_eq_some_iff.mp h
    obtain ⟨file, hfile, rfl⟩ := Option.map_eq_some_iff.mp hr
    by_cases hfile₀ : file = 0
    · exact .same rfl (by simp [hfile₀])
    · exact .moved fd file (readFile s.vfs (s.fds.file file) (s.fds.file file).pos size).2 rfl hfile
        hfile₀ rfl (by simp only [if_neg hfile₀])
  | fileWrite fd buff =>
    obtain ⟨r, hr, rfl⟩ := Option.map_eq_some_iff.mp h
    obtain ⟨file, hfile, rfl⟩ := Option.map_eq_some_iff.mp hr
    by_cases hfile₀ : file = 0
    · exact .same rfl (by simp [hfile₀])
    · exact .moved fd file
        (FdTable.writeFile writeFn (s.fds.file file) (s.fds.file file).pos buff).2 rfl hfile hfile₀
        rfl (by simp only [if_neg hfile₀])
  | fileIoctl fd cmd subcmd =>
    obtain ⟨-, -, rfl⟩ := Option.map_eq_some_iff.mp h
    exact .same rfl rfl
  | others v =>
    obtain rfl := Option.some.inj h
    exact .same rfl rfl

theorem FdInv.refused (h : FdInv s) (hn : n ∉ 0 :: s.fds.fdTable.members) (f : File)
    (hreturned : s'.returned = s.returned)
    (hfds : s'.fds =
      { fdTable := (s.fds.fdTable.clistInsertAfter s.fds.fdTable.tail n).clistDelete n
        file := Function.update s.fds.file n f
        nextFd := s.fds.nextFd }) : FdInv s' := by
  rw [h.table.members_eq] at hn
  obtain ⟨hring, hends⟩ := h.table.insert hn
  have hentries : s'.entries = s.entries := by rw [FdTask.entries, FdTask.entries, hreturned]
  refine ⟨?_, ?_, ?_, ?_, fun r hr => ?_⟩
  · rw [hfds, hentries]
    exact .delete_last hring hends
  · rw [hfds, hreturned]
    exact h.next
  · rw [hreturned]
    exact h.below
  · rw [hreturned]
    exact h.distinct
  · rw [hreturned] at hr
    rw [hfds]
    obtain ⟨hfd, pos, hfile⟩ := h.filled r hr
    exact ⟨hfd, pos, (FdTask.update_file (fun hmem => hn (by simp [hmem])) f r hr).trans hfile⟩

theorem FdInv.opened (h : FdInv s) (hn : n ∉ 0 :: s.fds.fdTable.members) {f : File}
    (hfew : s.returned.length + 1 < 2 ^ 32) (hf : f.fd = s.fds.nextFd)
    (hreturned : s'.returned = (s.fds.nextFd, n, f) :: s.returned)
    (hfds : s'.fds =
      { fdTable := s.fds.fdTable.clistInsertAfter s.fds.fdTable.tail n
        file := Function.update s.fds.file n f
        nextFd := s.fds.nextFd + 1 }) : FdInv s' := by
  rw [h.table.members_eq] at hn
  have hentries : s'.entries = s.entries ++ [n] := by
    rw [FdTask.entries, hreturned, List.map_cons, List.reverse_cons]
    rfl
  have hnext := h.next
  refine ⟨?_, ?_, ?_, ?_, fun r hr => ?_⟩
  · rw [hfds, hentries]
    exact .inl (h.table.insert hn)
  · rw [hfds, hreturned, List.length_cons, BitVec.toNat_add, hnext]
    exact Nat.mod_eq_of_lt hfew
  · rw [hreturned, List.length_cons]
    refine List.forall_mem_cons.mpr ⟨?_, fun r hr => (h.below r hr).trans (Nat.lt_succ_self _)⟩
    show s.fds.nextFd.toNat < _
    omega
  · rw [hreturned, List.map_cons, List.nodup_cons]
    refine ⟨fun hmem => ?_, h.distinct⟩
    obtain ⟨r, hr, heq⟩ := List.mem_map.mp hmem
    have hlt := h.below r hr
    rw [heq, hnext] at hlt
    exact lt_irrefl _ hlt
  · rw [hreturned] at hr
    rw [hfds]
    rcases List.mem_cons.mp hr with rfl | hr
    · exact ⟨hf, f.pos, Function.update_self ..⟩
    · obtain ⟨hfd, pos, hfile⟩ := h.filled r hr
      exact ⟨hfd, pos, (FdTask.update_file (fun hmem => hn (by simp [hmem])) f r hr).trans hfile⟩

theorem FdInv.nextFd_ne (h : FdInv s) (hfew : s.returned.length < 2 ^ 32 - 1) :
    s.fds.nextFd ≠ -1 := by
  intro heq
  have hnext := h.next
  rw [heq] at hnext
  exact absurd (hnext.symm.trans rfl : s.returned.length = 2 ^ 32 - 1) hfew.ne

theorem FdInv.step (h : FdInv s) (hstep : FdStep s call s')
    (hfew : s'.returned.length < 2 ^ 32 - 1) : FdInv s' := by
  cases hstep with
  | opened file f hfile hfd hnone hf hfds =>
    by_cases hmax : s.fds.nextFd = -1
    · rw [hnone hmax] at hfew
      exact absurd hmax (h.nextFd_ne hfew)
    · have hreturned := hfd hmax
      rw [hreturned, List.length_cons] at hfew
      exact h.opened hfile (by omega) hf hreturned hfds
  | refused file f hfile hreturned hfds => exact h.refused hfile f hreturned hfds
  | moved fd file pos hcall hfile hfile₀ hreturned hfds =>
    have hmoved := h.setPos file pos
    obtain ⟨v', fds', returned'⟩ := s'
    obtain rfl : returned' = s.returned := hreturned
    obtain rfl : fds' = s.fds.setPos file pos := hfds
    exact ⟨hmoved.table, hmoved.next, hmoved.below, hmoved.distinct, hmoved.filled⟩
  | same hreturned hfds =>
    obtain ⟨v', fds', returned'⟩ := s'
    obtain rfl : returned' = s.returned := hreturned
    obtain rfl : fds' = s.fds := hfds
    exact ⟨h.table, h.next, h.below, h.distinct, h.filled⟩

theorem FdStep.returned_suffix (hstep : FdStep s call s') : s.returned <:+ s'.returned := by
  cases hstep with
  | opened file f hfile hfd hnone =>
    by_cases hmax : s.fds.nextFd = -1
    · rw [hnone hmax]
    · rw [hfd hmax]
      exact List.suffix_cons ..
  | refused file f hfile hreturned => rw [hreturned]
  | moved fd file pos hcall hfile hfile₀ hreturned => rw [hreturned]
  | same hreturned => rw [hreturned]

theorem fdInv_of_reachable (h : (fdRuns writeFn).Reachable s)
    (hfew : s.returned.length < 2 ^ 32 - 1) : FdInv s := by
  revert hfew
  refine h.invariant (I := fun s => s.returned.length < 2 ^ 32 - 1 → FdInv s)
    (fun _ hs _ => .start hs) fun s call s' ih hstep hfew => ?_
  have hstep := fdStep_of_exec hstep
  exact (ih (hstep.returned_suffix.length_le.trans_lt hfew)).step hstep hfew

theorem FdInv.independent (h : FdInv s) (hstep : FdStep s call s') (hr : r ∈ s.returned)
    (hcall : call.fd ≠ some r.1) : s'.fds.file r.2.1 = s.fds.file r.2.1 := by
  cases hstep with
  | opened file f hfile hfd hnone hf hfds =>
    rw [h.table.members_eq] at hfile
    rw [hfds]
    exact FdTask.update_file (fun hmem => hfile (by simp [hmem])) f r hr
  | refused file f hfile hreturned hfds =>
    rw [h.table.members_eq] at hfile
    rw [hfds]
    exact FdTask.update_file (fun hmem => hfile (by simp [hmem])) f r hr
  | moved fd file pos hfd hfile hfile₀ hreturned hfds =>
    rw [hfds]
    refine Function.update_of_ne ?_ ..
    rintro rfl
    rcases h.find_cases fd with ⟨hnull, -⟩ | ⟨r', hr', rfl, -, hfind⟩
    · exact hfile₀ (Option.some.inj (hfile.symm.trans hnull))
    · have hsame := Option.some.inj (hfind.symm.trans hfile)
      have hnodup : (s.returned.map fun r => r.2.1).Nodup := by
        have hdistinct := (List.nodup_cons.mp h.table.distinct).2
        rwa [FdTask.entries, List.nodup_reverse] at hdistinct
      obtain rfl := List.inj_on_of_nodup_map hnodup hr' hr hsame
      exact hcall hfd
  | same hreturned hfds => rw [hfds]

/-- A file as the calls see it: under `initrd` nothing reads the `private_data` that
`openInto` leaves. -/
def seen (file : File) : File :=
  { file with device := if file.fs = .devfs then file.device else none }

def FdTable.toFileTable (t : FdTable) : FileTable where
  files := t.fdTable.members.map (seen ∘ t.file)
  nextFd := t.nextFd

theorem readFile_seen (v : FsState) (file : File) (offset size : Word) :
    readFile v (seen file) offset size = readFile v file offset size := by
  cases hfs : file.fs <;> simp [readFile, seen, hfs]

theorem seen_openInto (v : FsState) (x : Nat) (file : File) (fd : Word) (mode : BitVec 16) :
    (FdTable.openInto v x file).map (fun f => seen { f with fd := fd, mode := mode, pos := 0 }) =
      (openNode v x).map fun r => ⟨fd, mode, 0, x, r.1, r.2⟩ := by
  rw [FdTable.openInto, Option.map_map]
  unfold openNode
  cases v.nodes[x]? with
  | none => rfl
  | some node =>
    cases hfs : node.fs <;> simp only [hfs, Option.bind_some]
    · split
      · rfl
      · rfl
    · split
      · rfl
      · rfl

theorem map_update_of_notMem (hn : n ∉ l) (file : Word → File) (f : File) :
    l.map (seen ∘ Function.update file n f) = l.map (seen ∘ file) := by
  refine List.map_congr_left fun x hx => congrArg seen (Function.update_of_ne ?_ ..)
  rintro rfl
  exact hn hx

theorem ListOf.toFileTable_insert (h : ListOf t.fdTable l) (hn : n ∉ 0 :: l) (f : File)
    (nextFd : Word) :
    FdTable.toFileTable ⟨t.fdTable.clistInsertAfter t.fdTable.tail n, Function.update t.file n f,
        nextFd⟩ = ⟨t.toFileTable.files ++ [seen f], nextFd⟩ := by
  obtain ⟨hring, -⟩ := h.insert hn
  simp only [FdTable.toFileTable, hring.members_eq, h.members_eq, List.map_append,
    map_update_of_notMem fun hmem => hn (List.mem_cons_of_mem 0 hmem), List.map_singleton,
    Function.comp_apply, Function.update_self]

theorem ListOf.toFileTable_refused (h : ListOf t.fdTable l) (hn : n ∉ 0 :: l) (f : File) :
    FdTable.toFileTable ⟨(t.fdTable.clistInsertAfter t.fdTable.tail n).clistDelete n,
        Function.update t.file n f, t.nextFd⟩ = t.toFileTable := by
  obtain ⟨hring, hends⟩ := h.insert hn
  rw [FdTable.toFileTable, FdTable.toFileTable, (ListOf.delete_last hring hends).members_eq,
    h.members_eq, map_update_of_notMem fun hmem => hn (List.mem_cons_of_mem 0 hmem)]

/-- What `file_open` inserts after the tail comes last in the list, and a refused file leaves
the list again. -/
theorem ListOf.fileOpen_eq (h : ListOf t.fdTable l) (hn : n ∉ 0 :: l) (v : FsState)
    (path : List Byte) (modRw : BitVec 16) (recycled : File) :
    Prod.map id (Prod.map id FdTable.toFileTable) (FdTable.fileOpen v t path modRw n recycled) =
      fileOpen v t.toFileTable path modRw := by
  unfold FdTable.fileOpen Vfs.fileOpen
  rcases resolvePath v path with ⟨_ | x, v'⟩
  · rfl
  · simp only
    generalize (if t.fdTable.tail = 0 ∨ t.fdTable.slots = 0 then zeroedFile else recycled) = found
    have hseen := seen_openInto v' x found t.nextFd modRw
    cases hopen : openNode v' x with
    | none =>
      rw [hopen, Option.map_none, Option.map_eq_none_iff] at hseen
      simp only [hseen, Prod.map_apply, id_eq, h.toFileTable_refused hn]
    | some r =>
      rw [hopen, Option.map_some, Option.map_eq_some_iff] at hseen
      obtain ⟨file, hfile, hseen⟩ := hseen
      simp only [hfile, Prod.map_apply, id_eq, h.toFileTable_insert hn, hseen]
      rfl

theorem ListOf.findFileByFd_eq (h : ListOf t.fdTable l) (fd : Word) :
    t.findFileByFd fd = some (((findFileByFd t.toFileTable fd).bind (l[·]?)).getD 0) := by
  have hfind : (l.find? fun entry => (t.file (t.fileOf entry)).fd = fd) =
      (findFileByFd t.toFileTable fd).bind (l[·]?) := by
    rw [findFileByFd, FdTable.toFileTable, h.members_eq, List.findIdx?_map,
      ← List.find?_eq_bind_findIdx?_getElem?]
    refine List.find?_congr fun x hx => ?_
    rw [FdTable.fileOf, h.data hx]
    rfl
  rw [FdTable.findFileByFd, h.clistFind_eq, Option.map_some, ← hfind]
  cases hx : l.find? fun entry => (t.file (t.fileOf entry)).fd = fd with
  | none => rfl
  | some x =>
    have hmem := List.mem_of_find?_eq_some hx
    have hx₀ : x ≠ 0 := by
      rintro rfl
      exact (List.nodup_cons.mp h.distinct).1 hmem
    rw [Option.getD_some, if_neg hx₀, FdTable.fileOf, h.data hmem]

theorem ListOf.toFileTable_setPos (h : ListOf t.fdTable l) {k : Nat} (hk : l[k]? = some x)
    (pos : Word) :
    (t.setPos x pos).toFileTable =
      { t.toFileTable with files := t.toFileTable.files.set k { seen (t.file x) with pos := pos } } := by
  obtain ⟨hlt, rfl⟩ := List.getElem?_eq_some_iff.mp hk
  have hnodup := (List.nodup_cons.mp h.distinct).2
  simp only [FdTable.toFileTable, FdTable.setPos, h.members_eq]
  rw [Function.comp_update, hnodup.map_update, if_pos (List.getElem_mem hlt),
    hnodup.idxOf_getElem]
  rfl

theorem ListOf.fileRead_eq (h : ListOf t.fdTable l) (v : FsState) (fd size : Word) :
    (t.fileRead v fd size).map (Prod.map id FdTable.toFileTable) =
      some (fileRead v t.toFileTable fd size) := by
  rw [FdTable.fileRead, h.findFileByFd_eq, Option.map_some, Option.map_some]
  unfold Vfs.fileRead
  cases hk : findFileByFd t.toFileTable fd with
  | none => rfl
  | some k =>
    have hlt : k < l.length := by
      obtain ⟨hlt, -⟩ := List.findIdx?_eq_some_iff_getElem.mp hk
      rwa [FdTable.toFileTable, h.members_eq, List.length_map] at hlt
    have hget : l[k]? = some l[k] := List.getElem?_eq_getElem hlt
    have hne : l[k] ≠ 0 := fun hz =>
      (List.nodup_cons.mp h.distinct).1 (hz ▸ List.getElem_mem hlt)
    have hfile : t.toFileTable.files[k]? = some (seen (t.file l[k])) := by
      rw [FdTable.toFileTable, h.members_eq, List.getElem?_map, hget]
      rfl
    simp only [Option.bind_some, hget, Option.getD_some, if_neg hne, hfile, Prod.map_apply, id_eq,
      h.toFileTable_setPos hget, readFile_seen]
    rfl

/-- Over the cyclic list the calls return what they return over the list of the open files. -/
theorem fd_table_refines (h : (fdRuns writeFn).Reachable s)
    (hfew : s.returned.length < 2 ^ 32 - 1) :
    (∀ path modRw entry recycled, entry ∉ 0 :: s.fds.fdTable.members →
      Prod.map id (Prod.map id FdTable.toFileTable)
          (FdTable.fileOpen s.vfs s.fds path modRw entry recycled) =
        fileOpen s.vfs s.fds.toFileTable path modRw) ∧
    ∀ fd size, (s.fds.fileRead s.vfs fd size).map (Prod.map id FdTable.toFileTable) =
      some (fileRead s.vfs s.fds.toFileTable fd size) := by
  have htable := (fdInv_of_reachable h hfew).table
  refine ⟨fun path modRw entry recycled hentry => ?_, fun fd size => htable.fileRead_eq _ fd size⟩
  rw [htable.members_eq] at hentry
  exact htable.fileOpen_eq hentry s.vfs path modRw recycled

/-- The runs of a task that opens and reads, alone. -/
def fdReads (writeFn : FdTable.WriteFn) : System FdTask FdCall :=
  (fdRuns writeFn).restrict fun _ call s' =>
    s'.returned.length < 2 ^ 32 - 1 ∧
      match call with
      | .fileOpen .. => True
      | .fileRead .. => True
      | _ => False

theorem fileRuns_of_fdReads (h : (fdReads writeFn).Reachable s) :
    fileRuns.Reachable (s.vfs, s.fds.toFileTable) := by
  suffices hboth : (fdRuns writeFn).Reachable s ∧ s.returned.length < 2 ^ 32 - 1 ∧
      fileRuns.Reachable (s.vfs, s.fds.toFileTable) from hboth.2.2
  induction h with
  | @start s hs =>
    obtain ⟨hslots, -, hnext, hreturned⟩ := id hs
    refine ⟨.start hs, by simp [hreturned], .start ?_⟩
    show s.fds.toFileTable = noFiles
    rw [FdTable.toFileTable, Clist.members, hslots, hnext]
    rfl
  | @step s call s' _ hstep ih =>
    obtain ⟨hreach, hfew, hruns⟩ := ih
    obtain ⟨hstep, hfew', hcall⟩ := hstep
    refine ⟨hreach.step hstep, hfew', ?_⟩
    obtain ⟨hopens, hreads⟩ := fd_table_refines hreach hfew
    have hnext := (fdInv_of_reachable hreach hfew).next
    cases call with
    | fileOpen path modRw entry recycled =>
      obtain ⟨hentry, hexec⟩ := Option.ite_none_right_eq_some.mp hstep
      obtain rfl := Option.some.inj hexec
      refine hruns.step (e := FileCall.fileOpen path modRw) (And.intro ?_ ?_)
      · show s.fds.nextFd.toNat + 1 < 2 ^ 32
        omega
      · rw [← hopens path modRw entry recycled hentry]
        rfl
    | fileRead fd size =>
      obtain ⟨r, hr, rfl⟩ := Option.map_eq_some_iff.mp hstep
      have hread := hreads fd size
      rw [hr, Option.map_some] at hread
      refine hruns.step (e := FileCall.fileRead fd size) ?_
      show _ = (s.vfs, (fileRead s.vfs s.fds.toFileTable fd size).2)
      rw [← Option.some.inj hread]
      rfl
    | fileWrite | fileIoctl | others => exact hcall.elim

/-- The descriptors returned so far are distinct and stand for the files that were filled in
for them, whose positions alone change; no other number stands for a file. -/
structure Descriptors (s : FdTask) : Prop where
  distinct : (s.returned.map Prod.fst).Nodup
  found : ∀ fd file f, (fd, file, f) ∈ s.returned → s.fds.findFileByFd fd = some file ∧ file ≠ 0 ∧
    f.fd = fd ∧ ∃ pos, s.fds.file file = { f with pos := pos }
  other : ∀ fd, fd ∉ s.returned.map Prod.fst → s.fds.findFileByFd fd = some 0

/-- While fewer than `2 ^ 32 - 1` files were opened, whatever the devices do. -/
theorem file_descriptors (h : (fdRuns writeFn).Reachable s)
    (hfew : s.returned.length < 2 ^ 32 - 1) :
    Descriptors s ∧ ∀ call s', (fdRuns writeFn).step s call s' →
      s.returned <:+ s'.returned ∧
        ∀ fd file f, (fd, file, f) ∈ s.returned → call.fd ≠ some fd →
          s'.fds.file file = s.fds.file file := by
  have hinv := fdInv_of_reachable h hfew
  refine ⟨⟨hinv.distinct, fun fd file f hr => ?_, fun fd => hinv.find_none⟩, fun call s' hstep => ?_⟩
  · obtain ⟨hfind, hne⟩ := hinv.find_eq hr
    obtain ⟨hfd, hfile⟩ := hinv.filled _ hr
    exact ⟨hfind, hne, hfd, hfile⟩
  · have hstep := fdStep_of_exec hstep
    exact ⟨hstep.returned_suffix, fun fd file f hr hcall => hinv.independent hstep hr hcall⟩

def newTask : FdTask where
  vfs := initrdInit (unmounted []) oneFileImage
  fds :=
    { fdTable := ⟨0, 0, 0xC1001000, fun _ => ⟨0, 0⟩⟩
      file := fun _ => zeroedFile
      nextFd := 0 }
  returned := []

/-- `/f` is opened twice and read through the first descriptor; the root is refused between. -/
def openTwo : List FdCall :=
  [.fileOpen [slash, 102] 0 0xC1000000 zeroedFile, .fileOpen [slash] 0 0xC1000100 zeroedFile,
    .fileOpen [slash, 102] 0 0xC1000100 { zeroedFile with fd := 7 }, .fileRead 0 1]

theorem file_descriptors_example : ∃ s, (fdRuns fun _ offset _ => (0, offset)).Reachable s ∧
    s.returned.map Prod.fst = [1, 0] ∧ Descriptors s := by
  have hrun : (replay (FdTask.exec fun _ offset _ => (0, offset)) newTask openTwo).any (fun tr =>
      (final newTask tr).returned.map Prod.fst = [1, 0]) = true := by decide +kernel
  obtain ⟨tr, -, htrace, hfds⟩ := System.Trace.exists_of_replay
    (M := fdRuns fun _ offset _ => (0, offset)) (fun _ _ _ h => h) hrun
  have hstart : (fdRuns fun _ offset _ => (0, offset)).start newTask := ⟨rfl, rfl, rfl, rfl⟩
  have hs := htrace.final_reachable (.start hstart)
  have hfew : (final newTask tr).returned.length < 2 ^ 32 - 1 := by
    rw [← List.length_map Prod.fst, hfds]
    decide
  exact ⟨_, hs, hfds, (file_descriptors hs hfew).1⟩

end RubiKernel.Vfs
