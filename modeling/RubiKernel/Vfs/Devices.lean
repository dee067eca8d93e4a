import RubiKernel.Vfs.Resolve

/-! `resolve_path` below the mounted `/dev`. The search there goes as far as the number of
devices at the mount, the inodes of devices and of initrd nodes are looked up in one list,
and a device is a directory as well, with the first device in it. -/

namespace RubiKernel.Vfs

open Memory Fields Lts

variable {t : Tree} {v v' : FsState} {c ino num : Word} {r : Record} {node : FsNode} {dev : Dev}
  {dir : Dirent} {devs : List Dev} {part rest cur s : List Byte} {L n j k count i : Nat}

def devName : List Byte := [100, 101, 118]

def devPath (rest : List Byte) : List Byte := slash :: (devName ++ slash :: rest)

inductive DevCall
  | resolve (path : List Byte)
  | opennode (n : Nat) (num : Word)
  | devCreate (dev : Dev)

/-- From the mount on, with `L` devices then: paths are resolved, entries opened that
`readdir` lists, and devices registered as long as they can be counted. -/
def devRuns (t : Tree) (L : Nat) : System FsState DevCall where
  start v := ∃ v₀ n v₁, (initrdRuns t).Reachable v₀ ∧
    resolvePath v₀ (slash :: devName) = (some n, v₁) ∧ v₁.devs.length = L ∧ L + 1 < 2 ^ 32 ∧
      v = devfsMount v₁ n
  step v call v' :=
    match call with
    | .resolve path => v' = (resolvePath v path).2
    | .opennode n num => (readdir v n num).isSome ∧ v' = (opennode v n num).2
    | .devCreate dev => v' = devCreate v dev ∧ v'.devs.length + 1 < 2 ^ 32

def deviceNode (dev : Dev) (j : Nat) : FsNode where
  name := dev.name
  flags := fsChrdevice
  length := 0
  inode := BitVec.ofNat 32 j
  impl := 1
  fs := .devfs

def Tree.mountNode (t : Tree) (c : Word) (L : Nat) : FsNode :=
  { t.nodeFor c with
    flags := fsDirectory ||| fsMountpoint
    length := BitVec.ofNat 32 L
    impl := 1
    fs := .devfs }

/-- `FS_CHRDEVICE` has the bit of `FS_DIRECTORY`. -/
theorem deviceNode_isDir (dev : Dev) (j : Nat) :
    (deviceNode dev j).flags &&& fsDirectory = fsDirectory :=
  (by decide : fsChrdevice &&& fsDirectory = fsDirectory)

theorem mountNode_isDir (t : Tree) (c : Word) (L : Nat) :
    (t.mountNode c L).flags &&& fsDirectory = fsDirectory :=
  (by decide : (fsDirectory ||| fsMountpoint) &&& fsDirectory = fsDirectory)

inductive NodeKind (t : Tree) (c : Word) (L : Nat) (devs : List Dev) : FsNode → Prop
  | mount : NodeKind t c L devs (t.mountNode c L)
  | record (ino : Word) : (t.record ino).isSome → NodeKind t c L devs (t.nodeFor ino)
  | device (j : Nat) (dev : Dev) : devs[j]? = some dev → NodeKind t c L devs (deviceNode dev j)

structure Mounted (t : Tree) (c : Word) (L : Nat) (v : FsState) : Prop where
  wellFormed : WellFormed v.image t
  child : t.child t.root devName = some c
  count : L ≤ v.devs.length
  few : v.devs.length + 1 < 2 ^ 32
  kinds : ∀ node ∈ v.nodes, NodeKind t c L v.devs node
  unique : (v.nodes.map FsNode.inode).Nodup
  root : v.nodes[0]? = some (t.nodeFor t.root)
  mount : t.mountNode c L ∈ v.nodes

theorem getElem?_devs_append (h : devs[j]? = some dev) (dev' : Dev) :
    (devs ++ [dev'])[j]? = some dev := by
  rw [List.getElem?_append_left (List.getElem?_eq_some_iff.mp h).1, h]

theorem NodeKind.devCreate (h : NodeKind t c L devs node) (dev : Dev) :
    NodeKind t c L (devs ++ [dev]) node := by
  cases h with
  | mount => exact .mount
  | record ino hino => exact .record ino hino
  | device j dev' hj => exact .device j dev' (getElem?_devs_append hj dev)

theorem Mounted.devCreate (hm : Mounted t c L v) (dev : Dev)
    (hfew : (v.devs ++ [dev]).length + 1 < 2 ^ 32) : Mounted t c L (devCreate v dev) where
  wellFormed := hm.wellFormed
  child := hm.child
  count := by
    have hcount := hm.count
    show L ≤ (v.devs ++ [dev]).length
    rw [List.length_append]
    omega
  few := hfew
  kinds node hnode := (hm.kinds node hnode).devCreate dev
  unique := hm.unique
  root := hm.root
  mount := hm.mount

theorem Mounted.push (hm : Mounted t c L v) (hfresh : node.inode ∉ v.nodes.map FsNode.inode)
    (hkind : NodeKind t c L v.devs node) :
    Mounted t c L { v with nodes := v.nodes ++ [node] } where
  wellFormed := hm.wellFormed
  child := hm.child
  count := hm.count
  few := hm.few
  kinds := by
    intro x hx
    rcases List.mem_append.mp hx with hx | hx
    · exact hm.kinds x hx
    · rwa [List.mem_singleton.mp hx]
  unique := nodup_inodes hm.unique hfresh
  root := by
    rw [List.getElem?_append_left (List.getElem?_eq_some_iff.mp hm.root).1, hm.root]
  mount := List.mem_append_left _ hm.mount

theorem Mounted.find (hm : Mounted t c L v) (hnode : node ∈ v.nodes) :
    ∃ n, findFsNodeByIno v node.inode = some n ∧ v.nodes[n]? = some node := by
  cases hfind : findFsNodeByIno v node.inode with
  | none => exact absurd (List.mem_map_of_mem hnode) (findFsNodeByIno_none hfind)
  | some n =>
    obtain ⟨node', hn, hino⟩ := findFsNodeByIno_some hfind
    have heq := List.inj_on_of_nodup_map hm.unique (List.mem_of_getElem? hn) hnode hino
    exact ⟨n, rfl, heq ▸ hn⟩

theorem Mounted.initrdCreateNode (hm : Mounted t c L v) (hr : t.record ino = some r) :
    Mounted t c L (initrdCreateNode v ino).2 ∧
      ∃ node, (initrdCreateNode v ino).2.nodes[(initrdCreateNode v ino).1]? = some node := by
  rcases hm.wellFormed.initrdCreateNode_cases hr with ⟨n, node, heq, hn, -⟩ | ⟨hfresh, heq⟩
  · rw [heq]
    exact ⟨hm, node, hn⟩
  · rw [heq]
    have hkind : NodeKind t c L v.devs (t.nodeFor ino) :=
      .record ino (Option.isSome_iff_exists.mpr ⟨r, hr⟩)
    exact ⟨hm.push hfresh hkind, _, List.getElem?_concat_length⟩

theorem Mounted.devfsCreateNode (hm : Mounted t c L v) (hj : v.devs[j]? = some dev) :
    ∃ n v' node, devfsCreateNode v (BitVec.ofNat 32 j) = (some n, v') ∧ Mounted t c L v' ∧
      v'.devs = v.devs ∧ v'.nodes[n]? = some node ∧ node.inode = BitVec.ofNat 32 j ∧
        (v' = v ∨ v'.nodes = v.nodes ++ [deviceNode dev j] ∧ node = deviceNode dev j ∧
          BitVec.ofNat 32 j ∉ v.nodes.map FsNode.inode) := by
  have hlt := (List.getElem?_eq_some_iff.mp hj).1
  have hfew := hm.few
  have hnat : (BitVec.ofNat 32 j).toNat = j := Word.toNat_ofNat (by omega)
  unfold Vfs.devfsCreateNode
  cases hfind : findFsNodeByIno v (BitVec.ofNat 32 j) with
  | some n =>
    obtain ⟨node, hn, hino⟩ := findFsNodeByIno_some hfind
    exact ⟨n, v, node, rfl, hm, rfl, hn, hino, .inl rfl⟩
  | none =>
    have hfresh := findFsNodeByIno_none hfind
    simp only [hnat, hj]
    have hm' : Mounted t c L { v with nodes := v.nodes ++ [deviceNode dev j] } :=
      hm.push hfresh (.device j dev hj)
    exact ⟨_, _, deviceNode dev j, rfl, hm', rfl, List.getElem?_concat_length, rfl,
      .inr ⟨rfl, rfl, hfresh⟩⟩

/-- `devfs_readdir` lists the devices. -/
def devEntries (v : FsState) : List Dirent :=
  v.devs.zipIdx.map fun e => ⟨e.1.name, BitVec.ofNat 32 e.2⟩

theorem devfsReaddir_eq (hdir : node.flags &&& fsDirectory = fsDirectory) (hj : j < 2 ^ 32) :
    devfsReaddir v node (BitVec.ofNat 32 j) = (devEntries v)[j]? := by
  rw [devfsReaddir, if_neg (not_not.mpr hdir), Word.toNat_ofNat hj, devEntries, List.getElem?_map,
    List.getElem?_zipIdx]
  split
  · next hge => rw [List.getElem?_eq_none hge, Option.map_none, Option.map_none]
  · rw [Option.map_map, Nat.zero_add]
    rfl

theorem findIdx?_devEntries (v : FsState) (part : List Byte) :
    (devEntries v).findIdx? (·.name = part) = v.devs.findIdx? (·.name = part) := by
  conv_rhs => rw [← List.zipIdx_map_fst 0 v.devs]
  rw [devEntries, List.findIdx?_map, List.findIdx?_map]
  rfl

theorem findChild_devfs (hn : v.nodes[n]? = some node) (hfs : node.fs = .devfs)
    (hdir : node.flags &&& fsDirectory = fsDirectory) (hcount : node.length.toNat + 1 < 2 ^ 32)
    (part : List Byte) :
    findChild v n part =
      match v.devs.findIdx? (·.name = part) with
      | some j =>
        if j < node.length.toNat + 1 then devfsCreateNode v (BitVec.ofNat 32 j) else (some n, v)
      | none => if v.devs.length < node.length.toNat + 1 then (none, v) else (some n, v) := by
  have hturns : (node.length + 1).toNat = node.length.toNat + 1 := by
    rw [BitVec.toNat_add]
    exact Nat.mod_eq_of_lt hcount
  have hread : ∀ j < 2 ^ 32, readdir v n (BitVec.ofNat 32 j) = (devEntries v)[j]? := by
    intro j hj
    rw [readdir, hn, Option.bind_some, hfs]
    exact devfsReaddir_eq hdir hj
  have hopen (j : Nat) :
      opennode v n (BitVec.ofNat 32 j) = devfsCreateNode v (BitVec.ofNat 32 j) := by
    rw [opennode, hn]
    simp only [hfs]
  have hlen : (devEntries v).length = v.devs.length := by
    rw [devEntries, List.length_map, List.length_zipIdx]
  rw [findChild, hn]
  simp only [hturns]
  rw [← findIdx?_devEntries]
  cases hj : (devEntries v).findIdx? (·.name = part) with
  | none =>
    rw [searchDir_none hread (by omega) hj (Nat.zero_le _), hlen, Nat.zero_add]
  | some j =>
    rw [searchDir_some hread (by omega) hj (Nat.zero_le _), hopen, Nat.zero_add]

structure Kept (t : Tree) (c : Word) (L : Nat) (r : Option Nat × FsState) : Prop where
  mounted : Mounted t c L r.2
  node : ∀ n, r.1 = some n → ∃ node, r.2.nodes[n]? = some node

theorem Mounted.kept (hm : Mounted t c L v) (hn : v.nodes[n]? = some node) :
    Kept t c L (some n, v) :=
  ⟨hm, fun _ h => Option.some.inj h ▸ ⟨node, hn⟩⟩

theorem Mounted.keptNull (hm : Mounted t c L v) : Kept t c L (none, v) := ⟨hm, fun _ h => nomatch h⟩

theorem Mounted.keptDevice (hm : Mounted t c L v) (hread : devfsReaddir v node num = some dir) :
    Kept t c L (Vfs.devfsCreateNode v num) := by
  obtain ⟨dev, hdev⟩ : ∃ dev, v.devs[num.toNat]? = some dev := by
    unfold devfsReaddir at hread
    split at hread
    · cases hread
    · split at hread
      · cases hread
      · obtain ⟨dev, hdev, -⟩ := Option.map_eq_some_iff.mp hread
        exact ⟨dev, hdev⟩
  obtain ⟨n, v', node', heq, hm', -, hn, -, -⟩ := hm.devfsCreateNode hdev
  rw [BitVec.ofNat_toNat, BitVec.setWidth_eq] at heq
  rw [heq]
  exact hm'.kept hn

theorem Mounted.opennode (hm : Mounted t c L v) (hread : readdir v n num = some dir) :
    Kept t c L (Vfs.opennode v n num) := by
  obtain ⟨node, hn, hread⟩ := Option.bind_eq_some_iff.mp hread
  rw [Vfs.opennode, hn]
  cases hm.kinds node (List.mem_of_getElem? hn) with
  | mount => exact hm.keptDevice hread
  | device j dev hj => exact hm.keptDevice hread
  | record ino hino =>
    obtain ⟨r, hr⟩ := Option.isSome_iff_exists.mp hino
    replace hread : initrdReaddir v (t.nodeFor ino) num = some dir := hread
    have hentry := hm.wellFormed.initrdReaddir_eq (t.nodeFor ino) hr num.isLt
    have hopen := hm.wellFormed.initrdOpenddir_eq (t.nodeFor ino) hr num.isLt
    rw [BitVec.ofNat_toNat, BitVec.setWidth_eq] at hentry hopen
    rw [← hentry, hread] at hopen
    obtain ⟨r', hr', -, -⟩ := t.mem_entries (List.mem_of_getElem? (hentry.symm.trans hread))
    obtain ⟨hm', node', hn'⟩ := hm.initrdCreateNode hr'
    show Kept t c L (initrdOpenddir v (t.nodeFor ino) num)
    rw [hopen]
    exact hm'.kept hn'

theorem Mounted.searchDir (hm : Mounted t c L v) (hn : v.nodes[n]? = some node) :
    Kept t c L (searchDir v n part count i) := by
  induction count generalizing i with
  | zero => exact hm.kept hn
  | succ count ih =>
    rw [Vfs.searchDir]
    cases hread : readdir v n (BitVec.ofNat 32 i) with
    | none => exact hm.keptNull
    | some dir =>
      show Kept t c L (if dir.name = part then _ else _)
      split
      · exact hm.opennode hread
      · exact ih

theorem Mounted.findChild (hm : Mounted t c L v) (hn : v.nodes[n]? = some node)
    (part : List Byte) : Kept t c L (findChild v n part) := by
  rw [Vfs.findChild, hn]
  exact hm.searchDir hn

theorem Mounted.walk (hm : Mounted t c L v) (hn : v.nodes[n]? = some node) :
    Kept t c L (walk v n k cur) := by
  induction k generalizing v n node cur with
  | zero => exact hm.kept hn
  | succ k ih =>
    cases cur with
    | nil => exact hm.kept hn
    | cons b cur =>
      have hchild := hm.findChild hn ((b :: cur).takeWhile (· ≠ slash))
      rw [Vfs.walk]
      split
      · exact hm.keptNull
      · rcases hfind : Vfs.findChild v n ((b :: cur).takeWhile (· ≠ slash)) with ⟨_ | n', v'⟩
        · rw [hfind] at hchild
          exact hchild.mounted.keptNull
        · rw [hfind] at hchild
          obtain ⟨node', hn'⟩ := hchild.node n' rfl
          exact ih hchild.mounted hn'

theorem Mounted.resolvePath (hm : Mounted t c L v) (path : List Byte) :
    Kept t c L (resolvePath v path) := by
  unfold Vfs.resolvePath
  split
  · exact hm.keptNull
  · split
    · exact hm.keptNull
    · split
      · exact hm.keptNull
      · exact hm.walk hm.root

theorem Mounted.start (h : (devRuns t L).start v) : ∃ c, Mounted t c L v := by
  obtain ⟨v₀, n, v₁, hreach, hresolve, hcount, hfew, rfl⟩ := h
  have hc := cached_of_reachable hreach
  have hone := hc.resolvePath_one devName (by decide) (by decide)
  obtain ⟨hc', -⟩ := hc.resolvePath_eq devName
  rw [hresolve] at hone hc'
  obtain ⟨c, hlookup, hn⟩ := Option.map_eq_some_iff.mp hone.symm
  replace hn : v₁.nodes[n]? = some (t.nodeFor c) := hn.symm
  obtain ⟨c', hchild, hlookup⟩ := Option.bind_eq_some_iff.mp hlookup
  obtain rfl : c' = c := Option.some.inj hlookup
  have hnodes : (devfsMount v₁ n).nodes = v₁.nodes.set n (t.mountNode c' L) := by
    rw [devfsMount, List.modify_eq_set_getElem?, hn, hcount]
    rfl
  obtain ⟨hlt, hget⟩ := List.getElem?_eq_some_iff.mp hn
  refine ⟨c', hc'.wellFormed, hchild, hcount.ge, hcount ▸ hfew, ?_, ?_, ?_, ?_⟩
  · intro node hnode
    rw [hnodes] at hnode
    rcases List.mem_or_eq_of_mem_set hnode with hnode | rfl
    · obtain ⟨hino, heq⟩ := hc'.nodes node hnode
      exact heq ▸ .record node.inode hino
    · exact .mount
  · have hlt' : n < (v₁.nodes.map FsNode.inode).length := by rwa [List.length_map]
    have hsame : (t.mountNode c' L).inode = (v₁.nodes.map FsNode.inode)[n] := by
      rw [List.getElem_map, hget]
      rfl
    rw [hnodes, List.map_set, hsame, List.set_getElem_self]
    exact hc'.unique
  · have hne : n ≠ 0 := by
      rintro rfl
      obtain ⟨-, -, -, hrank⟩ := t.child_record hchild
      rw [nodeFor_inj (Option.some.inj (hn.symm.trans hc'.rootNode))] at hrank
      exact lt_irrefl _ hrank
    rw [hnodes, List.getElem?_set_ne hne]
    exact hc'.rootNode
  · rw [hnodes]
    exact List.mem_set hlt _

theorem Mounted.step {call : DevCall} (hm : Mounted t c L v)
    (hstep : (devRuns t L).step v call v') : Mounted t c L v' := by
  cases call with
  | resolve path =>
    obtain rfl : v' = _ := hstep
    exact (hm.resolvePath path).mounted
  | opennode n num =>
    obtain ⟨hread, rfl⟩ := hstep
    obtain ⟨dir, hread⟩ := Option.isSome_iff_exists.mp hread
    exact (hm.opennode hread).mounted
  | devCreate dev =>
    obtain ⟨rfl, hfew⟩ := hstep
    exact hm.devCreate dev hfew

theorem mounted_of_reachable (h : (devRuns t L).Reachable v) : ∃ c, Mounted t c L v :=
  h.invariant (fun _ hstart => Mounted.start hstart) fun _ _ _ ⟨c, hm⟩ hstep => ⟨c, hm.step hstep⟩

theorem walk_nil : walk v n k [] = (some n, v) := by
  cases k <;> rfl

theorem walk_word (hp : part ≠ []) (hp' : slash ∉ part) : walk v n (k + 1) part =
    if nodeNameSize ≤ part.length then (none, v) else findChild v n part := by
  obtain ⟨b, cur, rfl⟩ := List.exists_cons_of_ne_nil hp
  simp only [walk, takeWhile_word hp', dropWhile_word hp', List.dropWhile_nil, walk_nil, ge_iff_le]
  split
  · rfl
  · rcases findChild v n (b :: cur) with ⟨_ | n', v'⟩ <;> rfl

theorem walk_word_sep (hp : part ≠ []) (hp' : slash ∉ part) (hshort : part.length < nodeNameSize)
    (hchild : findChild v n part = (some j, v')) :
    walk v n (k + 1) (part ++ slash :: rest) = walk v' j k (rest.dropWhile (· = slash)) := by
  obtain ⟨b, cur, rfl⟩ := List.exists_cons_of_ne_nil hp
  have htake : ((b :: cur) ++ slash :: rest).takeWhile (· ≠ slash) = b :: cur :=
    takeWhile_word_sep hp'
  have hdrop : (((b :: cur) ++ slash :: rest).dropWhile (· ≠ slash)).dropWhile (· = slash) =
      rest.dropWhile (· = slash) := by
    rw [dropWhile_word_sep hp', List.dropWhile_cons_of_pos (by simp)]
  rw [List.cons_append] at htake hdrop ⊢
  rw [walk]
  simp only [htake, hdrop, hchild, if_neg (Nat.not_le.mpr hshort), ge_iff_le]

theorem Mounted.resolve_dev (hm : Mounted t c L v) :
    ∃ m, v.nodes[m]? = some (t.mountNode c L) ∧
      ∀ rest, rest.head? ≠ some slash → Vfs.resolvePath v (devPath rest) = Vfs.walk v m 7 rest := by
  obtain ⟨m, hfind, hm'⟩ := hm.find hm.mount
  refine ⟨m, hm', fun rest hrest => ?_⟩
  obtain ⟨r, hr⟩ := Option.isSome_iff_exists.mp t.root_isSome
  have hnodes : v.nodes ≠ [] := List.ne_nil_of_mem hm.mount
  have hchild : Vfs.findChild v 0 devName = (some m, v) := by
    have hcreate : Vfs.initrdCreateNode v c = (m, v) := by
      rw [Vfs.initrdCreateNode, show findFsNodeByIno v c = some m from hfind]
    rw [findChild_eq hm.wellFormed hr hm.root, hm.child]
    simp only [hcreate]
  rw [devPath, Vfs.resolvePath, if_neg (not_not.mpr rfl), if_neg hnodes,
    walk_word_sep (by decide) (by decide) (by decide) hchild, dropWhile_eq_self hrest]

theorem Mounted.length_mount (hm : Mounted t c L v) : (t.mountNode c L).length.toNat = L := by
  have hcount := hm.count
  have hfew := hm.few
  exact Word.toNat_ofNat (by omega)

theorem Mounted.findChild_mount (hm : Mounted t c L v) (hn : v.nodes[n]? = some (t.mountNode c L))
    (part : List Byte) :
    Vfs.findChild v n part =
      match v.devs.findIdx? (·.name = part) with
      | some j => if j ≤ L then Vfs.devfsCreateNode v (BitVec.ofNat 32 j) else (some n, v)
      | none => if v.devs.length = L then (none, v) else (some n, v) := by
  have hcount := hm.count
  have hfew := hm.few
  have hlength := hm.length_mount
  have hend : v.devs.length ≤ L ↔ v.devs.length = L := by omega
  rw [findChild_devfs hn rfl (mountNode_isDir t c L) (by omega)]
  simp only [hlength, Nat.lt_succ_iff, hend]

theorem nodeFor_flags (t : Tree) (ino : Word) : (t.nodeFor ino).flags ≠ fsChrdevice := by
  simp only [Tree.nodeFor]
  split <;> decide

theorem mountNode_flags (t : Tree) (c : Word) (L : Nat) :
    (t.mountNode c L).flags ≠ fsChrdevice :=
  (by decide : fsDirectory ||| fsMountpoint ≠ fsChrdevice)

theorem Mounted.device_of_flags (hm : Mounted t c L v) (hnode : node ∈ v.nodes)
    (hflags : node.flags = fsChrdevice) (hj : v.devs[j]? = some dev)
    (hino : node.inode = BitVec.ofNat 32 j) : node = deviceNode dev j := by
  cases hm.kinds node hnode with
  | mount => exact absurd hflags (mountNode_flags t c L)
  | record ino _ => exact absurd hflags (nodeFor_flags t ino)
  | device k dev' hk =>
    have hfew := hm.few
    have hlt := (List.getElem?_eq_some_iff.mp hj).1
    have hlt' := (List.getElem?_eq_some_iff.mp hk).1
    have hnat := congrArg BitVec.toNat hino
    replace hnat : (BitVec.ofNat 32 k).toNat = (BitVec.ofNat 32 j).toNat := hnat
    rw [Word.toNat_ofNat (by omega), Word.toNat_ofNat (by omega)] at hnat
    subst hnat
    obtain rfl := Option.some.inj (hk.symm.trans hj)
    rfl

theorem Mounted.create_clean (hm : Mounted t c L v) (hj : v.devs[j]? = some dev)
    (hclean : ∀ node ∈ v.nodes, node.inode = BitVec.ofNat 32 j → node.flags = fsChrdevice) :
    ∃ n v', Vfs.devfsCreateNode v (BitVec.ofNat 32 j) = (some n, v') ∧ Mounted t c L v' ∧
      v'.devs = v.devs ∧ v'.nodes[n]? = some (deviceNode dev j) := by
  obtain ⟨n, v', node, hcreate, hm', hdevs, hn, hino, hcases⟩ := hm.devfsCreateNode hj
  refine ⟨n, v', hcreate, hm', hdevs, hn.trans (congrArg some ?_)⟩
  rcases hcases with rfl | ⟨-, heq, -⟩
  · have hmem := List.mem_of_getElem? hn
    exact hm.device_of_flags hmem (hclean node hmem hino) hj hino
  · exact heq

/-- The node found is that of a device exactly when no other node has the inode. -/
theorem Mounted.create_iff (hm : Mounted t c L v) (hj : v.devs[j]? = some dev) :
    (∃ k dev', nodeOf (Vfs.devfsCreateNode v (BitVec.ofNat 32 j)) =
        some (some (deviceNode dev' k))) ↔
      ∀ node ∈ v.nodes, node.inode = BitVec.ofNat 32 j → node.flags = fsChrdevice := by
  constructor
  · rintro ⟨k, dev', hdevice⟩ node hnode hnodeIno
    obtain ⟨n, v', node', hcreate, -, -, hn, hino, hcases⟩ := hm.devfsCreateNode hj
    rw [hcreate] at hdevice
    have heq := Option.some.inj (hn.symm.trans (Option.some.inj hdevice))
    rcases hcases with rfl | ⟨-, -, hfresh⟩
    · have hsame := List.inj_on_of_nodup_map hm.unique (List.mem_of_getElem? hn) hnode
        (hino.trans hnodeIno.symm)
      rw [← hsame, heq]
      rfl
    · exact absurd (hnodeIno ▸ List.mem_map_of_mem hnode) hfresh
  · intro hclean
    obtain ⟨n, v', hcreate, -, -, hn⟩ := hm.create_clean hj hclean
    rw [hcreate]
    exact ⟨j, dev, congrArg some hn⟩

theorem Mounted.clean_first (hm : Mounted t c L v) (hnode : node ∈ v.nodes)
    (hino : node.inode = BitVec.ofNat 32 0) : node.flags = fsChrdevice := by
  have hbehind {ino : Word} (h : (t.record ino).isSome) : ino ≠ BitVec.ofNat 32 0 := by
    rintro rfl
    obtain ⟨r, hr⟩ := Option.isSome_iff_exists.mp h
    exact absurd (hm.wellFormed.records _ r hr).behind (by decide)
  cases hm.kinds node hnode with
  | mount =>
    obtain ⟨r, hr, -⟩ := t.child_record hm.child
    exact absurd hino (hbehind (Option.isSome_iff_exists.mpr ⟨r, hr⟩))
  | record ino h => exact absurd hino (hbehind h)
  | device j dev hj => rfl

/-- A name leads to the node of the device with that name, or to none without such a
device. -/
def FindsDevice (v : FsState) (s : List Byte) : Prop :=
  ((resolvePath v (devPath s)).1.isSome ↔ ∃ dev ∈ v.devs, dev.name = s) ∧
    ∀ node, nodeOf (resolvePath v (devPath s)) = some node →
      ∃ j dev, v.devs[j]? = some dev ∧ dev.name = s ∧ node = some (deviceNode dev j)

/-- The search among `L + 1` devices comes to the device, whose inode is no other node's,
or to the end of the list. -/
def EndsWell (v : FsState) (L : Nat) : Option Nat → Prop
  | some j => j ≤ L ∧
    ∀ node ∈ v.nodes, node.inode = BitVec.ofNat 32 j → node.flags = fsChrdevice
  | none => v.devs.length = L

instance (v : FsState) (L : Nat) : (j : Option Nat) → Decidable (EndsWell v L j)
  | some j => inferInstanceAs (Decidable (j ≤ L ∧
      ∀ node ∈ v.nodes, node.inode = BitVec.ofNat 32 j → node.flags = fsChrdevice))
  | none => inferInstanceAs (Decidable (v.devs.length = L))

def InReach (v : FsState) (L : Nat) (s : List Byte) : Prop :=
  nodeNameSize ≤ s.length ∨ EndsWell v L (v.devs.findIdx? (·.name = s))

instance (v : FsState) (L : Nat) (s : List Byte) : Decidable (InReach v L s) :=
  inferInstanceAs (Decidable (nodeNameSize ≤ s.length ∨ EndsWell v L _))

theorem Mounted.findsDevice_iff (hm : Mounted t c L v) (hs : s ≠ []) (hs' : slash ∉ s) :
    FindsDevice v s ↔ InReach v L s := by
  obtain ⟨m, hmount, hresolve⟩ := hm.resolve_dev
  have hhead : s.head? ≠ some slash := fun h => hs' (List.mem_of_head? h)
  rw [FindsDevice, InReach, hresolve s hhead, walk_word hs hs']
  by_cases hlong : nodeNameSize ≤ s.length
  · have hno : ¬∃ dev ∈ v.devs, dev.name = s := by
      rintro ⟨dev, -, rfl⟩
      exact absurd (hlong.trans_lt dev.fits) (by decide)
    rw [if_pos hlong]
    exact iff_of_true ⟨iff_of_false (by simp) hno, fun _ h => nomatch h⟩ (.inl hlong)
  rw [if_neg hlong, or_iff_right hlong, hm.findChild_mount hmount]
  cases hfind : v.devs.findIdx? (·.name = s) with
  | none =>
    have hnames := List.findIdx?_eq_none_iff.mp hfind
    have hno : ¬∃ dev ∈ v.devs, dev.name = s := by
      rintro ⟨dev, hdev, hname⟩
      exact of_decide_eq_false (hnames dev hdev) hname
    by_cases hend : v.devs.length = L
    · simp only [if_pos hend]
      exact iff_of_true ⟨iff_of_false (by simp) hno, fun _ h => nomatch h⟩ hend
    · simp only [if_neg hend]
      exact iff_of_false (fun h => hno (h.1.mp rfl)) hend
  | some j =>
    obtain ⟨hlt, hname, -⟩ := List.findIdx?_eq_some_iff_getElem.mp hfind
    have hj : v.devs[j]? = some v.devs[j] := List.getElem?_eq_getElem hlt
    have hname : v.devs[j].name = s := of_decide_eq_true hname
    by_cases hle : j ≤ L
    · simp only [if_pos hle]
      constructor
      · rintro ⟨-, hright⟩
        obtain ⟨n', v', node', hcreate, -⟩ := hm.devfsCreateNode hj
        obtain ⟨k, dev, -, -, heq⟩ := hright v'.nodes[n']? (by rw [hcreate]; rfl)
        refine ⟨hle, (hm.create_iff hj).mp ⟨k, dev, ?_⟩⟩
        rw [hcreate, ← heq]
        rfl
      · rintro ⟨-, hclean⟩
        obtain ⟨n', v', hcreate, -, -, hn'⟩ := hm.create_clean hj hclean
        rw [hcreate]
        exact ⟨iff_of_true rfl ⟨_, List.getElem_mem hlt, hname⟩, fun x hx =>
          ⟨j, _, hj, hname, (Option.some.inj hx).symm.trans hn'⟩⟩
    · simp only [if_neg hle]
      refine iff_of_false (fun ⟨_, hright⟩ => ?_) fun h => hle h.1
      obtain ⟨k, dev, -, -, heq⟩ := hright _ rfl
      replace heq : v.nodes[m]? = some (deviceNode dev k) := heq
      exact mountNode_flags t c L
        (congrArg FsNode.flags (Option.some.inj (hmount.symm.trans heq)))

/-- The inodes below the number of devices are those of device nodes. -/
def NoClash (v : FsState) : Prop :=
  ∀ node ∈ v.nodes, node.flags ≠ fsChrdevice → v.devs.length ≤ node.inode.toNat

/-- The nodes below which every name is found, a name of no device at the node itself. -/
inductive Catchall (t : Tree) (c : Word) (L : Nat) (v : FsState) : FsNode → Prop
  | device (j : Nat) (dev : Dev) : v.devs[j]? = some dev → Catchall t c L v (deviceNode dev j)
  | mount : L < v.devs.length → NoClash v → Catchall t c L v (t.mountNode c L)

theorem NoClash.clean (h : NoClash v) (hm : Mounted t c L v) (hlt : j < v.devs.length) :
    ∀ node ∈ v.nodes, node.inode = BitVec.ofNat 32 j → node.flags = fsChrdevice := by
  intro node hnode hino
  have hfew := hm.few
  refine not_not.mp fun hflags => ?_
  have hle := h node hnode hflags
  rw [hino, Word.toNat_ofNat (by omega)] at hle
  omega

theorem Mounted.findChild_catchall (hm : Mounted t c L v) (hn : v.nodes[n]? = some node)
    (h : Catchall t c L v node) (part : List Byte) :
    ∃ n' v' node', Vfs.findChild v n part = (some n', v') ∧ Mounted t c L v' ∧
      v'.nodes[n']? = some node' ∧ Catchall t c L v' node' := by
  have hcreate {j : Nat} (hlt : j < v.devs.length)
      (hclean : ∀ node ∈ v.nodes, node.inode = BitVec.ofNat 32 j → node.flags = fsChrdevice) :
      ∃ n' v' node', Vfs.devfsCreateNode v (BitVec.ofNat 32 j) = (some n', v') ∧
        Mounted t c L v' ∧ v'.nodes[n']? = some node' ∧ Catchall t c L v' node' := by
    obtain ⟨n', v', heq, hm', hdevs, hn'⟩ := hm.create_clean (List.getElem?_eq_getElem hlt) hclean
    refine ⟨n', v', _, heq, hm', hn', .device j _ ?_⟩
    rw [hdevs]
    exact List.getElem?_eq_getElem hlt
  have hself : ∃ n' v' node', (some n, v) = (some n', v') ∧ Mounted t c L v' ∧
      v'.nodes[n']? = some node' ∧ Catchall t c L v' node' := ⟨n, v, node, rfl, hm, hn, h⟩
  cases h with
  | device k dev hk =>
    have hlt := (List.getElem?_eq_some_iff.mp hk).1
    have hcount : (0 : Word).toNat + 1 < 2 ^ 32 := by decide
    rw [findChild_devfs hn rfl (deviceNode_isDir dev k) hcount]
    cases hfind : v.devs.findIdx? (·.name = part) with
    | none =>
      show ∃ n' v' node', (if v.devs.length < 1 then _ else _) = _ ∧ _
      rwa [if_neg (by omega)]
    | some j =>
      obtain ⟨hj, -⟩ := List.findIdx?_eq_some_iff_getElem.mp hfind
      show ∃ n' v' node', (if j < 1 then _ else _) = _ ∧ _
      split
      · next hzero =>
        obtain rfl : j = 0 := by omega
        exact hcreate hj fun node hnode hino => hm.clean_first hnode hino
      · exact hself
  | mount hlt hclash =>
    rw [hm.findChild_mount hn]
    cases hfind : v.devs.findIdx? (·.name = part) with
    | none =>
      show ∃ n' v' node', (if v.devs.length = L then _ else _) = _ ∧ _
      rwa [if_neg hlt.ne']
    | some j =>
      obtain ⟨hj, -⟩ := List.findIdx?_eq_some_iff_getElem.mp hfind
      show ∃ n' v' node', (if j ≤ L then _ else _) = _ ∧ _
      split
      · exact hcreate hj (hclash.clean hm hj)
      · exact hself

/-- A path below such a node leads nowhere only with a long component. -/
theorem Mounted.walk_catchall (hm : Mounted t c L v) (hn : v.nodes[n]? = some node)
    (h : Catchall t c L v node) (hcur : cur.head? ≠ some slash) :
    (Vfs.walk v n k cur).1 = none ↔
      ∃ part ∈ (fields slash cur).take k, nodeNameSize ≤ part.length := by
  induction k generalizing v n node cur with
  | zero => simp [Vfs.walk]
  | succ k ih =>
    cases cur with
    | nil => simp [Vfs.walk]
    | cons b cur =>
      have hb : b ≠ slash := fun h => hcur (h ▸ rfl)
      rw [fields_cons hb, List.take_succ_cons, Vfs.walk, List.exists_mem_cons_iff]
      split
      · next hlong => exact iff_of_true rfl (.inl hlong)
      · next hshort =>
        obtain ⟨n', v', node', hchild, hm', hn', h'⟩ :=
          hm.findChild_catchall hn h ((b :: cur).takeWhile (· ≠ slash))
        rw [or_iff_right hshort, hchild]
        exact ih hm' hn' h' (head?_dropWhile_ne _)

theorem Mounted.below_device (hm : Mounted t c L v) (hdev : dev ∈ v.devs)
    (h : InReach v L dev.name ∨ NoClash v) (s : List Byte) :
    (Vfs.resolvePath v (devPath (dev.name ++ slash :: s))).1 = none ↔
      ∃ part ∈ (fields slash s).take 6, nodeNameSize ≤ part.length := by
  obtain ⟨m, hmount, hresolve⟩ := hm.resolve_dev
  have hshort : dev.name.length < nodeNameSize := dev.fits.trans (by decide)
  have hsome : (v.devs.findIdx? (·.name = dev.name)).isSome = true :=
    List.findIdx?_isSome.trans (List.any_eq_true.mpr ⟨dev, hdev, by simp⟩)
  obtain ⟨j, hfind⟩ := Option.isSome_iff_exists.mp hsome
  obtain ⟨hlt, -⟩ := List.findIdx?_eq_some_iff_getElem.mp hfind
  have hchild := hm.findChild_mount hmount dev.name
  rw [InReach, or_iff_right (Nat.not_le.mpr hshort), hfind] at h
  rw [hfind] at hchild
  rw [hresolve _ (head?_word_append dev.named dev.noSlash), ← fields_dropWhile]
  by_cases hle : j ≤ L
  · have hclean : ∀ node ∈ v.nodes, node.inode = BitVec.ofNat 32 j →
        node.flags = fsChrdevice := h.elim (fun hends => hends.2) fun hclash => hclash.clean hm hlt
    obtain ⟨n', v', hcreate, hm', hdevs, hn'⟩ :=
      hm.create_clean (List.getElem?_eq_getElem hlt) hclean
    have hdevice : Catchall t c L v' (deviceNode v.devs[j] j) := by
      refine .device j _ ?_
      rw [hdevs]
      exact List.getElem?_eq_getElem hlt
    rw [walk_word_sep dev.named dev.noSlash hshort (hchild.trans ((if_pos hle).trans hcreate))]
    exact hm'.walk_catchall hn' hdevice (head?_dropWhile_ne _)
  · have hclash : NoClash v := h.resolve_left fun hends => hle hends.1
    rw [walk_word_sep dev.named dev.noSlash hshort (hchild.trans (if_neg hle))]
    exact hm.walk_catchall hmount (.mount (by omega) hclash) (head?_dropWhile_ne _)

theorem Mounted.inReach_first (hm : Mounted t c L v) (hfirst : v.devs[0]? = some dev) :
    InReach v L dev.name := by
  have hfind : v.devs.findIdx? (·.name = dev.name) = some 0 := by
    obtain ⟨hlt, rfl⟩ := List.getElem?_eq_some_iff.mp hfirst
    exact List.findIdx?_eq_some_iff_getElem.mpr ⟨hlt, by simp, fun j hj => absurd hj (by omega)⟩
  rw [InReach, hfind]
  exact .inr ⟨Nat.zero_le L, fun node hnode hino => hm.clean_first hnode hino⟩

/-- Resolution below `/dev`: a name finds its device exactly when it is in reach, a path
below a device is refused exactly for a long component, and all is as it should be exactly
without a device. -/
theorem devfs_resolve_iff (h : (devRuns t L).Reachable v) :
    (∀ s, s ≠ [] → slash ∉ s → (FindsDevice v s ↔ InReach v L s)) ∧
    (∀ dev ∈ v.devs, InReach v L dev.name ∨ NoClash v → ∀ s, s ≠ [] →
      ((resolvePath v (devPath (dev.name ++ slash :: s))).1 = none ↔
        ∃ part ∈ (fields slash s).take 6, nodeNameSize ≤ part.length)) ∧
    (((∀ s, s ≠ [] → slash ∉ s → FindsDevice v s) ∧ ∀ dev ∈ v.devs, ∀ s, s ≠ [] →
        (resolvePath v (devPath (dev.name ++ slash :: s))).1 = none) ↔ v.devs = []) := by
  obtain ⟨c, hm⟩ := mounted_of_reachable h
  refine ⟨fun s hs hs' => hm.findsDevice_iff hs hs', fun dev hdev hfound s _ =>
    hm.below_device hdev hfound s, ?_, fun hnil => ⟨fun s hs hs' => ?_, fun dev hdev => ?_⟩⟩
  · rintro ⟨-, hbelow⟩
    cases hdevs : v.devs with
    | nil => rfl
    | cons dev devs =>
      have hfirst : v.devs[0]? = some dev := by
        rw [hdevs]
        rfl
      have hmem := List.mem_of_getElem? hfirst
      have hnull := hbelow dev hmem [120] (by decide)
      rw [hm.below_device hmem (.inl (hm.inReach_first hfirst))] at hnull
      exact absurd hnull (by decide)
  · have hcount := hm.count
    rw [hnil, List.length_nil] at hcount
    refine (hm.findsDevice_iff hs hs').mpr (.inr ?_)
    rw [hnil, List.findIdx?_nil]
    exact (congrArg List.length hnil).trans (Nat.le_zero.mp hcount).symm
  · rw [hnil] at hdev
    cases hdev

def devDir : List (Word × Record) :=
  [(8, recordOf devName (.dir [])), (24, recordOf [slash] (.dir [8]))]

def devImage : Memory :=
  imageOfBytes (bytes32 headMagic ++ bytes32 24 ++ devDir.flatMap fun e => e.2.encode)

def devTree : Tree :=
  .ofRecords 24 devDir ⟨_, [8], rfl, rfl⟩
    (by simp [devDir, Body.children, List.lookup_cons]) (by simp [devDir, Body.children])

theorem devDir_wellFormed : WellFormed devImage devTree := by
  refine wellFormed_ofRecords (by decide) (by decide) fun e he => ?_
  rw [devDir, List.mem_cons, List.mem_singleton] at he
  rcases he with rfl | rfl
  · exact ⟨by unfold BytesAt; decide, by decide, by decide⟩
  · exact ⟨by unfold BytesAt; decide, by decide, by decide⟩

def devA : Dev := ⟨[97], by decide, by decide, by decide, by decide, fun offset _ => ([], offset)⟩

def booted : FsState :=
  devfsMount (resolvePath (initrdInit (unmounted [devA]) devImage) (slash :: devName)).2 1

theorem booted_reachable : (devRuns devTree 1).Reachable booted :=
  .start ⟨_, 1, _, .start ⟨unmounted [devA], devImage, rfl, devDir_wellFormed, rfl⟩,
    Prod.ext (by decide) rfl, by decide, by decide, rfl⟩

theorem devfs_resolve_iff_example : FindsDevice booted [97] ∧ FindsDevice booted [98] ∧
    ¬((resolvePath booted (devPath (devA.name ++ slash :: [120]))).1 = none) := by
  obtain ⟨hname, hbelow, -⟩ := devfs_resolve_iff booted_reachable
  have hmem : devA ∈ booted.devs := List.mem_cons_self
  refine ⟨(hname [97] (by decide) (by decide)).mpr (by decide),
    (hname [98] (by decide) (by decide)).mpr (by decide), ?_⟩
  rw [hbelow devA hmem (.inl (by decide)) [120] (by decide)]
  decide

/-- After one more device, `/dev/c` leads to `/dev`; and `/dev/a/x` to the device `a`. -/
theorem devfs_resolve_wrong :
    (¬∀ t L v, (devRuns t L).Reachable v → ∀ s, s ≠ [] → slash ∉ s → FindsDevice v s) ∧
    ¬∀ t L v, (devRuns t L).Reachable v → ∀ dev ∈ v.devs, ∀ s, s ≠ [] →
      (resolvePath v (devPath (dev.name ++ slash :: s))).1 = none := by
  constructor
  · intro hall
    have hstep : (devRuns devTree 1).step booted (.devCreate devA) (devCreate booted devA) :=
      ⟨rfl, by decide⟩
    have hfinds := hall _ _ _ (booted_reachable.step hstep) [99] (by decide) (by decide)
    exact absurd (hfinds.1.mp (by decide)) (by decide)
  · intro hall
    have hmem : devA ∈ booted.devs := List.mem_cons_self
    exact absurd (hall _ _ _ booted_reachable devA hmem [120] (by decide)) (by decide)

end RubiKernel.Vfs
