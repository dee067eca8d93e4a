import RubiKernel.Lib.Fields
import RubiKernel.Lib.Lts
import RubiKernel.Vfs.Image

/-! `resolve_path` on the nodes of an initrd: it follows the components of a path in
the tree, but the first eight of them only, and a path that starts with two
separators has an empty component. -/

namespace RubiKernel.Vfs

open Memory Fields Lts

variable {image : Memory} {t : Tree} {v v' : FsState} {ino c : Word} {r : Record}
  {children : List Word} {part cur : List Byte} {parts parts' : List (List Byte)} {n m i j k : Nat}
  {count : Nat} {es : List Dirent} {node : FsNode}

def Tree.nodeFor (t : Tree) (ino : Word) : FsNode where
  name := t.name ino
  flags :=
    match (t.record ino).map Record.body with
    | some (.dir _) => fsDirectory
    | _ => fsFile
  length := BitVec.ofNat 32 (((t.record ino).map fun r => r.body.size).getD 0)
  inode := ino
  impl := 0
  fs := .initrd

theorem searchDir_some (hread : ∀ j < 2 ^ 32, readdir v n (BitVec.ofNat 32 j) = es[j]?)
    (hlt : i + count ≤ 2 ^ 32) (hj : es.findIdx? (·.name = part) = some j) (hij : i ≤ j) :
    searchDir v n part count i =
      if j < i + count then opennode v n (BitVec.ofNat 32 j) else (some n, v) := by
  obtain ⟨hlen, hname, hfirst⟩ := List.findIdx?_eq_some_iff_getElem.mp hj
  induction count generalizing i with
  | zero =>
    rw [searchDir, if_neg (by omega)]
  | succ count ih =>
    have hi : i < es.length := by omega
    rw [searchDir, hread i (by omega), List.getElem?_eq_getElem hi]
    rcases hij.eq_or_lt with rfl | hij
    · simp only [of_decide_eq_true hname, if_true]
      rw [if_pos (by omega)]
    · have hne := hfirst i hij
      rw [decide_eq_true_eq] at hne
      simp only [hne, if_false]
      rw [ih (i := i + 1) (by omega) hij, Nat.add_right_comm, Nat.add_assoc]

/-- Without such an entry it stops at the end of the directory, if it comes so far. -/
theorem searchDir_none (hread : ∀ j < 2 ^ 32, readdir v n (BitVec.ofNat 32 j) = es[j]?)
    (hlt : i + count ≤ 2 ^ 32) (hnone : es.findIdx? (·.name = part) = none)
    (hi : i ≤ es.length) :
    searchDir v n part count i = if es.length < i + count then (none, v) else (some n, v) := by
  have hnames := List.findIdx?_eq_none_iff.mp hnone
  induction count generalizing i with
  | zero =>
    rw [searchDir, if_neg (by omega)]
  | succ count ih =>
    rw [searchDir, hread i (by omega)]
    rcases hi.eq_or_lt with rfl | hi
    · rw [List.getElem?_eq_none le_rfl, if_pos (by omega)]
    · have hne := hnames es[i] (List.getElem_mem hi)
      rw [decide_eq_false_iff_not] at hne
      rw [List.getElem?_eq_getElem hi]
      simp only [hne, if_false]
      rw [ih (i := i + 1) (by omega) hi, Nat.add_right_comm, Nat.add_assoc]

theorem WellFormed.entryAt_eq (hw : WellFormed image t) (hr : t.record ino = some r)
    (hj : j < 2 ^ 32) :
    entryAt image ino (BitVec.ofNat 32 j) = (t.entries ino)[j]?.map Dirent.ino := by
  have hat := hw.records _ _ hr
  cases hbody : r.body with
  | file contents =>
    rw [hat.entryAt_file hbody, Tree.entries_file hr hbody]
    rfl
  | dir children =>
    rw [hat.entryAt_dir hbody hj, Tree.entries_eq hr hbody, List.getElem?_map, Option.map_map]
    exact Option.map_id'.symm

theorem WellFormed.initrdReaddir_eq (hw : WellFormed v.image t) (node : FsNode)
    (hr : t.record node.inode = some r) (hj : j < 2 ^ 32) :
    initrdReaddir v node (BitVec.ofNat 32 j) = (t.entries node.inode)[j]? := by
  rw [Vfs.initrdReaddir_eq, hw.entryAt_eq hr hj]
  cases hdir : (t.entries node.inode)[j]? with
  | none => rfl
  | some dir =>
    obtain ⟨r', hr', hname, -⟩ := t.mem_entries (List.mem_of_getElem? hdir)
    rw [Option.map_some, Option.map_some, (hw.records _ _ hr').nameOf_eq, ← hname]

theorem WellFormed.initrdOpenddir_eq (hw : WellFormed v.image t) (node : FsNode)
    (hr : t.record node.inode = some r) (hj : j < 2 ^ 32) :
    initrdOpenddir v node (BitVec.ofNat 32 j) =
      match (t.entries node.inode)[j]? with
      | some dir => (some (initrdCreateNode v dir.ino).1, (initrdCreateNode v dir.ino).2)
      | none => (none, v) := by
  rw [Vfs.initrdOpenddir_eq, ← hw.initrdReaddir_eq node hr hj, Vfs.initrdReaddir_eq]
  cases entryAt v.image node.inode (BitVec.ofNat 32 j) <;> rfl

theorem RecordAt.nodeFor_eq (h : RecordAt image ino r) (hr : t.record ino = some r) :
    t.nodeFor ino = recordNode image ino := by
  simp only [Tree.nodeFor, recordNode, Tree.name, hr, Option.map_some, Option.getD_some,
    h.nameOf_eq, h.fileHead_eq]
  cases r.body <;> rfl

/-- Every node is that of a record, and the first one that of the root. -/
structure Cached (t : Tree) (v : FsState) : Prop where
  wellFormed : WellFormed v.image t
  nodes : ∀ node ∈ v.nodes, (t.record node.inode).isSome ∧ node = t.nodeFor node.inode
  unique : (v.nodes.map FsNode.inode).Nodup
  root : v.nodes.head? = some (t.nodeFor t.root)

/-- The node at the pointer that a call returns, in the state after it; `none` when
the pointer is NULL. -/
def nodeOf (r : Option Nat × FsState) : Option (Option FsNode) := r.1.map fun n => r.2.nodes[n]?

theorem WellFormed.initrdCreateNode_cases (hw : WellFormed v.image t)
    (hr : t.record ino = some r) :
    (∃ n node, initrdCreateNode v ino = (n, v) ∧ v.nodes[n]? = some node ∧ node.inode = ino) ∨
      ino ∉ v.nodes.map FsNode.inode ∧ initrdCreateNode v ino =
        (v.nodes.length, { v with nodes := v.nodes ++ [t.nodeFor ino] }) := by
  rw [(hw.records ino r hr).nodeFor_eq hr]
  refine (Vfs.initrdCreateNode_cases v ino).imp_left ?_
  rintro ⟨n, heq, hfind⟩
  obtain ⟨node, hn, hino⟩ := findFsNodeByIno_some hfind
  exact ⟨n, node, heq, hn, hino⟩

theorem Cached.create (hc : Cached t v) (hr : t.record ino = some r) :
    Cached t (initrdCreateNode v ino).2 ∧
      (initrdCreateNode v ino).2.nodes[(initrdCreateNode v ino).1]? = some (t.nodeFor ino) := by
  rcases hc.wellFormed.initrdCreateNode_cases hr with ⟨n, node, heq, hn, rfl⟩ | ⟨hfresh, heq⟩
  · rw [heq]
    exact ⟨hc, hn.trans (congrArg some (hc.nodes node (List.mem_of_getElem? hn)).2)⟩
  · rw [heq]
    refine ⟨⟨hc.wellFormed, ?_, nodup_inodes hc.unique hfresh, ?_⟩, List.getElem?_concat_length⟩
    · intro node hmem
      rcases List.mem_append.mp hmem with hmem | hmem
      · exact hc.nodes node hmem
      · obtain rfl := List.mem_singleton.mp hmem
        exact ⟨Option.isSome_iff_exists.mpr ⟨r, hr⟩, rfl⟩
    · rw [List.head?_append, hc.root, Option.some_or]

theorem child_eq_getElem (hj : (t.entries ino).findIdx? (·.name = part) = some j) :
    ∃ dir, (t.entries ino)[j]? = some dir ∧ t.child ino part = some dir.ino := by
  obtain ⟨hlt, hname, hfirst⟩ := List.findIdx?_eq_some_iff_getElem.mp hj
  refine ⟨(t.entries ino)[j], List.getElem?_eq_getElem hlt, ?_⟩
  have hfind : (t.entries ino).find? (·.name = part) = some (t.entries ino)[j] :=
    List.find?_eq_some_iff_getElem.mpr ⟨hname, j, hlt, rfl, fun k hk => by simpa using hfirst k hk⟩
  rw [Tree.child, hfind, Option.map_some]

theorem child_eq_none (hj : (t.entries ino).findIdx? (·.name = part) = none) :
    t.child ino part = none := by
  have hnames := List.findIdx?_eq_none_iff.mp hj
  rw [Tree.child, List.find?_eq_none.mpr fun dir hdir => Bool.eq_false_iff.mp (hnames dir hdir),
    Option.map_none]

theorem entries_length (hr : t.record ino = some r) :
    (t.entries ino).length ≤ r.body.size := by
  cases hbody : r.body with
  | file contents => simp [Tree.entries, hr, hbody]
  | dir children =>
    rw [Tree.entries_eq hr hbody, List.length_map]
    exact le_rfl

theorem findChild_eq (hw : WellFormed v.image t) (hr : t.record ino = some r)
    (hn : v.nodes[n]? = some (t.nodeFor ino)) (part : List Byte) :
    findChild v n part =
      match t.child ino part with
      | some c => (some (initrdCreateNode v c).1, (initrdCreateNode v c).2)
      | none => (none, v) := by
  have hat := hw.records ino r hr
  have hsize := hat.size_lt
  have hlen := entries_length hr
  have hcount : ((t.nodeFor ino).length + 1).toNat = r.body.size + 1 := by
    have hlength : (t.nodeFor ino).length = BitVec.ofNat 32 r.body.size := by
      simp [Tree.nodeFor, hr]
    rw [hlength, BitVec.toNat_add, hat.size_toNat]
    exact Nat.mod_eq_of_lt hsize
  have hread : ∀ j < 2 ^ 32, readdir v n (BitVec.ofNat 32 j) = (t.entries ino)[j]? := by
    intro j hj
    rw [readdir, hn]
    exact hw.initrdReaddir_eq (t.nodeFor ino) hr hj
  rw [findChild, hn]
  simp only [hcount]
  cases hj : (t.entries ino).findIdx? (·.name = part) with
  | none =>
    rw [searchDir_none hread (by omega) hj (Nat.zero_le _), if_pos (by omega), child_eq_none hj]
  | some j =>
    obtain ⟨dir, hdir, hchild⟩ := child_eq_getElem hj
    have hjlen : j < (t.entries ino).length := (List.getElem?_eq_some_iff.mp hdir).1
    have hopen := hw.initrdOpenddir_eq (t.nodeFor ino) hr (show j < 2 ^ 32 by omega)
    rw [show (t.nodeFor ino).inode = ino from rfl, hdir] at hopen
    rw [searchDir_some hread (by omega) hj (Nat.zero_le _), if_pos (by omega), hchild, opennode, hn]
    exact hopen

theorem Tree.child_record (hc : t.child ino part = some c) :
    ∃ r, t.record c = some r ∧ r.name = part ∧ t.rank c < t.rank ino := by
  obtain ⟨r, hr, hname, hrank⟩ := t.mem_entries (t.child_some hc)
  exact ⟨r, hr, hname.symm, hrank⟩

theorem Tree.child_bad (hbad : part = [] ∨ nodeNameSize ≤ part.length) :
    t.child ino part = none := by
  cases hc : t.child ino part with
  | none => rfl
  | some c =>
    obtain ⟨r, -, rfl, -⟩ := t.child_record hc
    rcases hbad with hempty | hlong
    · exact absurd hempty r.named
    · exact absurd hlong (Nat.not_le.mpr r.short)

theorem Tree.lookup_append (t : Tree) (ino : Word) (parts parts' : List (List Byte)) :
    t.lookup ino (parts ++ parts') = (t.lookup ino parts).bind fun c => t.lookup c parts' := by
  induction parts generalizing ino with
  | nil => rfl
  | cons part parts ih =>
    rw [List.cons_append, Tree.lookup, Tree.lookup]
    cases t.child ino part with
    | none => rfl
    | some c => exact ih c

theorem Tree.lookup_rank (h : t.lookup ino parts = some c) :
    t.rank c + parts.length ≤ t.rank ino := by
  induction parts generalizing ino with
  | nil =>
    obtain rfl := Option.some.inj h
    exact le_rfl
  | cons part parts ih =>
    obtain ⟨d, hd, h⟩ := Option.bind_eq_some_iff.mp h
    obtain ⟨-, -, -, hrank⟩ := t.child_record hd
    have hrest := ih h
    rw [List.length_cons]
    omega

theorem Cached.walk_eq (hc : Cached t v) (hr : (t.record ino).isSome)
    (hn : v.nodes[n]? = some (t.nodeFor ino)) (hcur : cur.head? ≠ some slash) :
    Cached t (walk v n k cur).2 ∧
      nodeOf (walk v n k cur) =
        (t.lookup ino ((fields slash cur).take k)).map fun c => some (t.nodeFor c) := by
  have hhere : nodeOf (some n, v) = some (some (t.nodeFor ino)) := congrArg some hn
  induction k generalizing v n ino cur with
  | zero => exact ⟨hc, hhere⟩
  | succ k ih =>
    cases cur with
    | nil => exact ⟨hc, hhere⟩
    | cons b cur =>
      obtain ⟨r, hr⟩ := Option.isSome_iff_exists.mp hr
      have hb : b ≠ slash := fun h => hcur (h ▸ rfl)
      rw [fields_cons hb, List.take_succ_cons, Tree.lookup, walk]
      split
      · next hlong =>
        rw [t.child_bad (.inr hlong)]
        exact ⟨hc, rfl⟩
      · rw [findChild_eq hc.wellFormed hr hn]
        cases hchild : t.child ino ((b :: cur).takeWhile (· ≠ slash)) with
        | none => exact ⟨hc, rfl⟩
        | some c =>
          obtain ⟨r', hr', -, -⟩ := t.child_record hchild
          obtain ⟨hc', hn'⟩ := hc.create hr'
          exact ih hc' (Option.isSome_iff_exists.mpr ⟨r', hr'⟩) hn' (head?_dropWhile_ne _)
            (congrArg some hn')

theorem Cached.rootNode (hc : Cached t v) : v.nodes[0]? = some (t.nodeFor t.root) := by
  rw [← List.head?_eq_getElem?, hc.root]

theorem Tree.root_isSome (t : Tree) : (t.record t.root).isSome := by
  obtain ⟨r, -, hr, -⟩ := t.rootDir
  rw [hr]
  rfl

theorem Cached.nodes_ne_nil (hc : Cached t v) : v.nodes ≠ [] := by
  intro hnil
  have hroot := hc.root
  rw [hnil] at hroot
  cases hroot

theorem Cached.resolvePath_eq (hc : Cached t v) (cur : List Byte) :
    Cached t (resolvePath v (slash :: cur)).2 ∧
      nodeOf (resolvePath v (slash :: cur)) =
        if cur.head? = some slash then none
        else (t.lookup t.root ((fields slash cur).take 8)).map fun c => some (t.nodeFor c) := by
  have hresolve : resolvePath v (slash :: cur) = walk v 0 8 cur := by
    rw [resolvePath, if_neg (not_not.mpr rfl), if_neg hc.nodes_ne_nil]
  rw [hresolve]
  split
  · next hslash =>
    obtain ⟨rest, rfl⟩ := List.head?_eq_some_iff.mp hslash
    obtain ⟨r, hr⟩ := Option.isSome_iff_exists.mp t.root_isSome
    have hempty : (slash :: rest).takeWhile (· ≠ slash) = [] := by simp
    rw [walk, hempty, if_neg (by decide), findChild_eq hc.wellFormed hr hc.rootNode,
      t.child_bad (.inl rfl)]
    exact ⟨hc, rfl⟩
  · next hslash => exact hc.walk_eq t.root_isSome hc.rootNode hslash

theorem Cached.resolvePath_one (hc : Cached t v) (part : List Byte) (hp : part ≠ [])
    (hp' : slash ∉ part) : nodeOf (resolvePath v (slash :: part)) =
      (t.lookup t.root [part]).map fun c => some (t.nodeFor c) := by
  have hhead : part.head? ≠ some slash := fun h => hp' (List.mem_of_head? h)
  rw [(hc.resolvePath_eq part).2, if_neg hhead, fields_word hp hp', List.take_of_length_le]
  simp

inductive Call
  | resolve (path : List Byte)
  | opennode (n : Nat) (num : Word)

/-- Path resolution and opening of nodes on the initrd with the tree `t`, from the
boot on. -/
def initrdRuns (t : Tree) : System FsState Call where
  start v := ∃ v₀ image, v₀.nodes = [] ∧ WellFormed image t ∧ v = initrdInit v₀ image
  step v call v' :=
    match call with
    | .resolve path => v' = (resolvePath v path).2
    | .opennode n num => v' = (opennode v n num).2

theorem Cached.start (hnodes : v.nodes = []) (hw : WellFormed image t) :
    Cached t (initrdInit v image) := by
  obtain ⟨r, children, hr, hbody⟩ := t.rootDir
  have hat := hw.records _ _ hr
  rw [hat.initrdInit_eq hw.magic hw.offset hbody hnodes, ← hat.nodeFor_eq hr]
  refine ⟨hw, ?_, List.nodup_singleton _, rfl⟩
  intro node hnode
  obtain rfl := List.mem_singleton.mp hnode
  exact ⟨t.root_isSome, rfl⟩

theorem Cached.opennode (hc : Cached t v) (n : Nat) (num : Word) :
    Cached t (Vfs.opennode v n num).2 := by
  unfold Vfs.opennode
  split
  · exact hc
  · next node hn =>
    obtain ⟨hsome, hnode⟩ := hc.nodes node (List.mem_of_getElem? hn)
    obtain ⟨r, hr⟩ := Option.isSome_iff_exists.mp hsome
    have hfs : node.fs = .initrd := by
      rw [hnode]
      rfl
    have hopen := hc.wellFormed.initrdOpenddir_eq node hr num.isLt
    rw [BitVec.ofNat_toNat, BitVec.setWidth_eq] at hopen
    rw [hfs]
    simp only [hopen]
    cases hdir : (t.entries node.inode)[num.toNat]? with
    | none => exact hc
    | some dir =>
      obtain ⟨r', hr', -, -⟩ := t.mem_entries (List.mem_of_getElem? hdir)
      exact (hc.create hr').1

theorem Cached.step {call : Call} (hc : Cached t v) (hstep : (initrdRuns t).step v call v') :
    Cached t v' := by
  cases call with
  | resolve path =>
    obtain rfl : v' = _ := hstep
    cases path with
    | nil => exact hc
    | cons b cur =>
      by_cases hb : b = slash
      · rw [hb]
        exact (hc.resolvePath_eq cur).1
      · rwa [resolvePath, if_pos hb]
  | opennode n num =>
    obtain rfl : v' = _ := hstep
    exact hc.opennode n num

theorem cached_of_reachable (h : (initrdRuns t).Reachable v) : Cached t v :=
  h.invariant (fun _ ⟨_, _, hnodes, hw, hv⟩ => hv ▸ Cached.start hnodes hw)
    fun _ _ _ hc hstep => hc.step hstep

/-- The node that an absolute path names: every component is followed in turn. -/
def Tree.target (t : Tree) (path : List Byte) : Option Word := t.lookup t.root (fields slash path)

/-- A path is followed to its end unless it starts with two separators or has more
than eight components; then the end must be missing anyway, or be so after eight. -/
def Followed (t : Tree) (path : List Byte) : Prop :=
  if [slash, slash] <+: path then t.target path = none
  else (fields slash path).length ≤ 8 ∨ t.lookup t.root ((fields slash path).take 8) = none

theorem nodeFor_inj {a b : Word} (h : t.nodeFor a = t.nodeFor b) : a = b := congrArg FsNode.inode h

theorem Tree.lookup_take_iff (t : Tree) (ino : Word) (parts : List (List Byte)) (k : Nat) :
    t.lookup ino (parts.take k) = t.lookup ino parts ↔
      parts.length ≤ k ∨ t.lookup ino (parts.take k) = none := by
  have hsplit := t.lookup_append ino (parts.take k) (parts.drop k)
  rw [List.take_append_drop] at hsplit
  constructor
  · intro heq
    refine or_iff_not_imp_right.mpr fun hsome => ?_
    obtain ⟨c, hc⟩ := Option.ne_none_iff_exists'.mp hsome
    rw [← heq, hc, Option.bind_some] at hsplit
    have hrank := t.lookup_rank hsplit.symm
    rw [List.length_drop] at hrank
    omega
  · rintro (hlen | hnone)
    · rw [List.take_of_length_le hlen]
    · rw [hnone, hsplit, hnone, Option.bind_none]

/-- Path resolution finds the node an absolute path names exactly for the paths it
follows. -/
theorem resolve_path_iff (h : (initrdRuns t).Reachable v) (path : List Byte)
    (habs : path.head? = some slash) :
    nodeOf (resolvePath v path) = (t.target path).map (fun c => some (t.nodeFor c)) ↔
      Followed t path := by
  have hc := cached_of_reachable h
  obtain ⟨cur, rfl⟩ := List.head?_eq_some_iff.mp habs
  rw [(hc.resolvePath_eq cur).2, Followed, Tree.target, fields_sep]
  have hslashes : [slash, slash] <+: slash :: cur ↔ cur.head? = some slash := by
    rw [List.cons_prefix_cons, List.head?_eq_some_iff]
    constructor
    · rintro ⟨-, rest, rfl⟩
      exact ⟨rest, rfl⟩
    · rintro ⟨rest, rfl⟩
      exact ⟨rfl, rest, rfl⟩
  simp only [hslashes]
  split
  · rw [eq_comm, Option.map_eq_none_iff]
  · rw [← t.lookup_take_iff]
    exact (Option.map_injective fun _ _ h => nodeFor_inj (Option.some.inj h)).eq_iff

def imageOfBytes (bytes : List Byte) : Memory := fun a => bytes.getD a.toNat 0

theorem bytesAt_imageOfBytes {bytes : List Byte} (hlen : bytes.length ≤ 2 ^ 32) :
    BytesAt (imageOfBytes bytes) 0 bytes := by
  intro i hi
  have hnat : (0 + BitVec.ofNat 32 i).toNat = i := by
    rw [zero_add, Word.toNat_ofNat (hi.trans_le hlen)]
  rw [imageOfBytes, hnat, List.getElem_eq_getD 0]

def oneFile : List (Word × Record) :=
  [(8, recordOf [102] (.file [7])), (23, recordOf [slash] (.dir [8]))]

def oneFileImage : Memory :=
  imageOfBytes (bytes32 headMagic ++ bytes32 23 ++ oneFile.flatMap fun e => e.2.encode)

def oneFileTree : Tree :=
  .ofRecords 23 oneFile ⟨_, [8], rfl, rfl⟩
    (by simp [oneFile, Body.children, List.lookup_cons]) (by simp [oneFile, Body.children])

theorem oneFile_wellFormed : WellFormed oneFileImage oneFileTree := by
  refine wellFormed_ofRecords (by decide) (by decide) fun e he => ?_
  rw [oneFile, List.mem_cons, List.mem_singleton] at he
  rcases he with rfl | rfl
  · exact ⟨by unfold BytesAt; decide, by decide, by decide⟩
  · exact ⟨by unfold BytesAt; decide, by decide, by decide⟩

def unmounted (devs : List Dev) : FsState where
  image := fun _ => 0
  nodes := []
  devs := devs
  recycled := ⟨[], 0, 0, 0, 0, .initrd⟩

theorem oneFile_reachable :
    (initrdRuns oneFileTree).Reachable (initrdInit (unmounted []) oneFileImage) :=
  .start ⟨unmounted [], oneFileImage, rfl, oneFile_wellFormed, rfl⟩

/-- The files `/a/i` and `/a/b/c/d/e/f/g/h`. -/
def deep : List (Word × Record) :=
  [(8, recordOf [104] (.file [7])), (23, recordOf [105] (.file [1, 2])),
    (39, recordOf [103] (.dir [8])), (57, recordOf [102] (.dir [39])),
    (75, recordOf [101] (.dir [57])), (93, recordOf [100] (.dir [75])),
    (111, recordOf [99] (.dir [93])), (129, recordOf [98] (.dir [111])),
    (147, recordOf [97] (.dir [129, 23])), (169, recordOf [slash] (.dir [147]))]

def deepImage : Memory :=
  imageOfBytes (bytes32 headMagic ++ bytes32 169 ++ deep.flatMap fun e => e.2.encode)

def deepTree : Tree :=
  .ofRecords 169 deep ⟨_, [147], rfl, rfl⟩
    (by simp [deep, Body.children, List.lookup_cons]) (by decide +kernel)

theorem deep_wellFormed : WellFormed deepImage deepTree := by
  refine wellFormed_ofRecords (by decide +kernel) (by decide +kernel) fun e he => ?_
  simp only [deep, List.mem_cons, List.not_mem_nil, or_false] at he
  rcases he with rfl | rfl | rfl | rfl | rfl | rfl | rfl | rfl | rfl | rfl
  all_goals exact ⟨by unfold BytesAt; decide +kernel, by decide, by decide⟩

/-- `/a/i` is resolved before `/a/b//c/d/e/f/g/h/`. -/
theorem resolve_path_iff_example : ∃ v, (initrdRuns deepTree).Reachable v ∧ v.nodes.length = 3 ∧
    nodeOf (resolvePath v
        [slash, 97, slash, 98, slash, slash, 99, slash, 100, slash, 101, slash, 102, slash, 103,
          slash, 104, slash]) = some (some (deepTree.nodeFor 8)) := by
  have hstart : (initrdRuns deepTree).Reachable (initrdInit (unmounted []) deepImage) :=
    .start ⟨unmounted [], deepImage, rfl, deep_wellFormed, rfl⟩
  have hstep : (initrdRuns deepTree).step (initrdInit (unmounted []) deepImage)
      (.resolve [slash, 97, slash, 105]) _ := rfl
  refine ⟨_, hstart.step hstep, by decide +kernel, ?_⟩
  refine ((resolve_path_iff (hstart.step hstep) _ rfl).mpr ?_).trans ?_
  · unfold Followed
    decide +kernel
  · decide +kernel

theorem resolve_path_double_slash : ¬∀ t v path, (initrdRuns t).Reachable v →
    path.head? = some slash →
      nodeOf (resolvePath v path) = (t.target path).map fun c => some (t.nodeFor c) := by
  intro hall
  have hright := hall _ _ [slash, slash, 102] oneFile_reachable rfl
  exact absurd hright (by decide)

end RubiKernel.Vfs
