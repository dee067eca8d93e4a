import RubiKernel.Vfs.Resolve

/-! `initrd_readdir` and `initrd_openddir` decode an entry of a directory alike, whatever
was opened before, and the list of nodes has one node for each record. -/

namespace RubiKernel.Vfs

open Memory Lts

inductive Listed (image : Memory) : Word → Prop
  | root : Listed image (read32 image 4)
  | entry {ino num c} : Listed image ino → entryAt image ino num = some c → Listed image c

/-- The names fit into the nodes, with their terminators. -/
def NamesFit (image : Memory) : Prop :=
  ∀ ino, Listed image ino → (fileHead image ino).nameSize.toNat < nodeNameSize

inductive DirCall
  | readdir (n : Nat) (num : Word)
  | openddir (n : Nat) (num : Word)

def listingRuns : System FsState DirCall where
  start v := ∃ v₀ image, v₀.nodes = [] ∧ NamesFit image ∧ v = initrdInit v₀ image
  step v call v' :=
    match call with
    | .readdir n _ => n < v.nodes.length ∧ v' = v
    | .openddir n num => ∃ node, v.nodes[n]? = some node ∧ v' = (initrdOpenddir v node num).2

variable {image : Memory} {t : Tree} {v v' : FsState} {node : FsNode} {ino num : Word} {n m : Nat}
  {tr : List (DirCall × FsState)} {call : DirCall}

structure Filled (v : FsState) : Prop where
  fit : NamesFit v.image
  listed : ∀ node ∈ v.nodes, Listed v.image node.inode
  nodes : ∀ node ∈ v.nodes, node = recordNode v.image node.inode
  unique : (v.nodes.map FsNode.inode).Nodup

theorem Filled.create (h : Filled v) (hino : Listed v.image ino) :
    Filled (initrdCreateNode v ino).2 ∧
      (initrdCreateNode v ino).2.nodes[(initrdCreateNode v ino).1]? =
        some (recordNode v.image ino) := by
  rcases initrdCreateNode_cases v ino with ⟨n, heq, hfind⟩ | ⟨hfresh, heq⟩
  · obtain ⟨node, hn, rfl⟩ := findFsNodeByIno_some hfind
    rw [heq]
    exact ⟨h, hn.trans (congrArg some (h.nodes node (List.mem_of_getElem? hn)))⟩
  · rw [heq]
    refine ⟨⟨h.fit, fun node hnode => ?_, fun node hnode => ?_, nodup_inodes h.unique hfresh⟩,
      List.getElem?_concat_length⟩
    · rcases List.mem_append.mp hnode with hnode | hnode
      · exact h.listed node hnode
      · rwa [List.mem_singleton.mp hnode]
    · rcases List.mem_append.mp hnode with hnode | hnode
      · exact h.nodes node hnode
      · rw [List.mem_singleton.mp hnode]
        rfl

theorem Listed.entries (h : Listed v.image node.inode) {dir : Dirent}
    (hread : initrdReaddir v node num = some dir) : Listed v.image dir.ino := by
  rw [initrdReaddir_eq] at hread
  obtain ⟨ino, hentry, rfl⟩ := Option.map_eq_some_iff.mp hread
  exact h.entry hentry

theorem Filled.openddir (h : Filled v) (hnode : node ∈ v.nodes) {num ino : Word}
    (hentry : entryAt v.image node.inode num = some ino) :
    ∃ n v', initrdOpenddir v node num = (some n, v') ∧ Filled v' ∧
      v'.nodes[n]? = some (recordNode v.image ino) := by
  obtain ⟨hfilled, hn⟩ := h.create ((h.listed node hnode).entry hentry)
  refine ⟨_, _, ?_, hfilled, hn⟩
  rw [initrdOpenddir_eq, hentry]

theorem Filled.start (h : listingRuns.start v) : Filled v := by
  obtain ⟨v₀, image, hnodes, hfit, rfl⟩ := h
  have hempty : Filled { v₀ with image := image } :=
    ⟨hfit, by simp [hnodes], by simp [hnodes], by simp [hnodes]⟩
  unfold initrdInit
  simp only
  split
  · exact hempty
  · split
    · exact hempty
    · split
      · exact hempty
      · split
        · exact hempty
        · exact (hempty.create .root).1

theorem Filled.step (h : Filled v) (hstep : listingRuns.step v call v') : Filled v' := by
  cases call with
  | readdir n num =>
    obtain ⟨-, rfl⟩ := hstep
    exact h
  | openddir n num =>
    obtain ⟨node, hn, rfl⟩ := hstep
    cases hentry : entryAt v.image node.inode num with
    | none =>
      rw [initrdOpenddir_eq, hentry]
      exact h
    | some ino =>
      obtain ⟨n, v', heq, hfilled, -⟩ := h.openddir (List.mem_of_getElem? hn) hentry
      rwa [heq]

theorem Filled.trace (h : Filled v) (htrace : listingRuns.Trace v tr) : Filled (final v tr) := by
  induction tr generalizing v with
  | nil => exact h
  | cons x tr ih => exact ih (h.step htrace.1) htrace.2

theorem filled_of_reachable (h : listingRuns.Reachable v) : Filled v :=
  h.invariant (fun _ => Filled.start) fun _ _ _ h hstep => h.step hstep

theorem extends_step (hstep : listingRuns.step v call v') : Extends v v' := by
  cases call with
  | readdir n num =>
    obtain ⟨-, rfl⟩ := hstep
    exact .refl v'
  | openddir n num =>
    obtain ⟨node, -, rfl⟩ := hstep
    exact extends_initrdOpenddir v node num

theorem extends_trace (h : listingRuns.Trace v tr) : Extends v (final v tr) := by
  induction tr generalizing v with
  | nil => exact .refl v
  | cons x tr ih => exact (extends_step h.1).trans (ih h.2)

theorem Filled.create_again (h : Filled v) (hn : v.nodes[n]? = some node) :
    initrdCreateNode v node.inode = (n, v) := by
  rcases initrdCreateNode_cases v node.inode with ⟨m, heq, hfind⟩ | ⟨hfresh, -⟩
  · obtain ⟨node', hm, hino⟩ := findFsNodeByIno_some hfind
    obtain rfl : node' = node := by
      rw [h.nodes node' (List.mem_of_getElem? hm), h.nodes node (List.mem_of_getElem? hn), hino]
    have hnodup : v.nodes.Nodup := h.unique.of_map
    have hmn : m = n := by
      obtain ⟨hlt, hget⟩ := List.getElem?_eq_some_iff.mp hm
      obtain ⟨hlt', hget'⟩ := List.getElem?_eq_some_iff.mp hn
      exact (hnodup.getElem_inj_iff).mp (hget.trans hget'.symm)
    rw [heq, hmn]
  · exact absurd (List.mem_map_of_mem (List.mem_of_getElem? hn)) hfresh

/-- What `initrd_readdir` lists, `initrd_openddir` opens. -/
def Agree (v : FsState) (node : FsNode) (num : Word) : Prop :=
  ∀ x s, initrdReaddir v node num = some ⟨s, x⟩ ↔
    ∃ n v' node', initrdOpenddir v node num = (some n, v') ∧ v'.nodes[n]? = some node' ∧
      node'.inode = x ∧ node'.name = s

/-- After any calls from `v` on, where the entry `num` of the node at `n` has just been
opened as the node at `m`, that entry, and every other one with the same record, is opened
as the node at `m` again. -/
def Stable (v : FsState) (n : Nat) (node : FsNode) (num : Word) (m : Nat) : Prop :=
  ∀ tr, listingRuns.Trace v tr →
    (final v tr).nodes[n]? = some node ∧
      initrdReaddir (final v tr) node num = initrdReaddir v node num ∧
      (final v tr).nodes[m]? = v.nodes[m]? ∧
      (initrdOpenddir (final v tr) node num).1 = some m ∧
      ∀ node' ∈ (final v tr).nodes, ∀ num',
        (initrdReaddir (final v tr) node' num').map Dirent.ino =
          (initrdReaddir v node num).map Dirent.ino →
            (initrdOpenddir (final v tr) node' num').1 = some m

theorem Filled.agree (h : Filled v) (hnode : node ∈ v.nodes) (num : Word) : Agree v node num := by
  intro x s
  rw [initrdReaddir_eq]
  cases hentry : entryAt v.image node.inode num with
  | none => simp [initrdOpenddir_eq, hentry]
  | some ino =>
    obtain ⟨n, v', heq, -, hn⟩ := h.openddir hnode hentry
    simp only [Option.map_some, heq]
    constructor
    · rintro ⟨⟩
      exact ⟨n, v', _, rfl, hn, rfl, rfl⟩
    · rintro ⟨m, w, node', hmw, hm, rfl, rfl⟩
      obtain ⟨⟨⟩, rfl⟩ := Prod.mk.inj hmw
      obtain rfl := Option.some.inj (hn.symm.trans hm)
      rfl

theorem Filled.openddir_again (h : Filled v) (hm : v.nodes[m]? = some (recordNode v.image ino))
    (hentry : entryAt v.image node.inode num = some ino) :
    (initrdOpenddir v node num).1 = some m := by
  rw [initrdOpenddir_eq, hentry]
  exact congrArg (fun r => some r.1) (h.create_again hm)

theorem Filled.stable (h : Filled v) (hn : v.nodes[n]? = some node)
    (hopen : initrdOpenddir v node num = (some m, v')) : Stable v' n node num m := by
  intro tr htrace
  cases hentry : entryAt v.image node.inode num with
  | none =>
    rw [initrdOpenddir_eq, hentry] at hopen
    cases hopen
  | some ino =>
    obtain ⟨m', w, heq, hfilled, hm⟩ := h.openddir (List.mem_of_getElem? hn) hentry
    obtain ⟨hmm, rfl⟩ := Prod.mk.inj (heq.symm.trans hopen)
    obtain rfl := Option.some.inj hmm
    have hbefore := extends_initrdOpenddir v node num
    rw [heq] at hbefore
    have hafter := extends_trace htrace
    have himage := (hbefore.trans hafter).image
    have hend := hfilled.trace htrace
    have hm' := hafter.nodes hm
    have hread : ∀ u : FsState, u.image = v.image →
        initrdReaddir u node num = some ⟨nameOf v.image ino, ino⟩ := by
      intro u hu
      rw [initrdReaddir_eq, hu, hentry, Option.map_some]
    refine ⟨(hbefore.trans hafter).nodes hn, ?_, hm'.trans hm.symm, ?_, ?_⟩
    · rw [hread _ himage, hread _ hbefore.image]
    · exact hend.openddir_again (himage ▸ hm') (himage ▸ hentry)
    · intro node' _ num' hsame
      rw [hread _ hbefore.image, initrdReaddir_eq, Option.map_map, Option.map_some] at hsame
      obtain ⟨ino', hentry', rfl⟩ := Option.map_eq_some_iff.mp hsame
      exact hend.openddir_again (himage ▸ hm') hentry'

/-- For every image, and whatever was read and opened before. -/
theorem initrd_readdir_openddir (h : listingRuns.Reachable v) :
    (∀ node ∈ v.nodes, node.name.length < nodeNameSize ∧ ∀ num, Agree v node num) ∧
      (v.nodes.map FsNode.inode).Nodup ∧
      ∀ n node num m v', v.nodes[n]? = some node → initrdOpenddir v node num = (some m, v') →
        Stable v' n node num m := by
  have hfilled := filled_of_reachable h
  refine ⟨fun node hnode => ⟨?_, hfilled.agree hnode⟩, hfilled.unique,
    fun _ _ _ _ _ => hfilled.stable⟩
  have hfit := hfilled.fit _ (hfilled.listed node hnode)
  rw [hfilled.nodes node hnode]
  exact (nameOf_length_le ..).trans_lt hfit

theorem namesFit_of_wellFormed (hw : WellFormed image t) : NamesFit image := by
  have hrecord : ∀ ino, Listed image ino → (t.record ino).isSome := by
    intro ino h
    induction h with
    | root =>
      rw [hw.offset]
      exact t.root_isSome
    | @entry ino num c _ hentry ih =>
      obtain ⟨r, hr⟩ := Option.isSome_iff_exists.mp ih
      have hptr := hw.entryAt_eq hr num.isLt
      rw [BitVec.ofNat_toNat, BitVec.setWidth_eq, hentry] at hptr
      obtain ⟨dir, hdir, rfl⟩ := Option.map_eq_some_iff.mp hptr.symm
      obtain ⟨r', hr', -, -⟩ := t.mem_entries (List.mem_of_getElem? hdir)
      rw [hr']
      rfl
  intro ino h
  obtain ⟨r, hr⟩ := Option.isSome_iff_exists.mp (hrecord ino h)
  rw [(hw.records ino r hr).fileHead_eq]
  exact r.nameSize_toNat.trans_lt r.short

theorem initrd_readdir_openddir_example :
    Agree (initrdInit (unmounted []) oneFileImage) (oneFileTree.nodeFor 23) 0 ∧
      Stable (initrdOpenddir (initrdInit (unmounted []) oneFileImage) (oneFileTree.nodeFor 23) 0).2
        0 (oneFileTree.nodeFor 23) 0 1 := by
  have hfit : NamesFit oneFileImage := namesFit_of_wellFormed oneFile_wellFormed
  obtain ⟨hnodes, -, hstable⟩ := initrd_readdir_openddir
    (.start ⟨unmounted [], oneFileImage, rfl, hfit, rfl⟩)
  refine ⟨(hnodes (oneFileTree.nodeFor 23) ?_).2 0, hstable 0 _ 0 1 _ ?_ ?_⟩
  · decide
  · decide
  · exact Prod.ext (by decide) rfl

end RubiKernel.Vfs
