import RubiKernel.Vfs.Devices
import RubiKernel.Vfs.Listing

/-! `nodes_list` as a cache that both file systems share: a node is looked up by its inode,
which is the offset of a record in one of them and the place of a device in the other. -/

namespace RubiKernel.Vfs

open Lts Memory

/-- `strays` has the nodes that neither file system has made as they are: those that
`devfs_create_node` leaves behind without a device, and mount points. -/
structure NodeCache where
  vfs : FsState
  strays : List Nat

inductive OpenCall
  | initrdOpenddir (dir : Nat) (num : Word)
  /-- The heap holds `recycled` where the next node is allocated. -/
  | devfsOpenddir (num : Word) (recycled : FsNode)
  | devCreate (dev : Dev)
  | devfsMount (n : Nat)

/-- `devfs_openddir`, which does not look at its node. -/
def devfsOpenddir (v : FsState) (num : Word) (recycled : FsNode) : Option Nat × FsState :=
  devfsCreateNode { v with recycled := recycled } num

def NodeCache.exec (s : NodeCache) : OpenCall → Option NodeCache
  | .initrdOpenddir dir num =>
    s.vfs.nodes[dir]?.bind fun node =>
      if node.fs = .initrd then some { s with vfs := (initrdOpenddir s.vfs node num).2 }
      else none
  | .devfsOpenddir num recycled =>
    let r := devfsOpenddir s.vfs num recycled
    some
      { vfs := r.2
        strays := if r.1 = none then s.vfs.nodes.length :: s.strays else s.strays }
  | .devCreate dev => some { s with vfs := devCreate s.vfs dev }
  | .devfsMount n => some { vfs := devfsMount s.vfs n, strays := n :: s.strays }

/-- From `initrd_init` on. -/
def openings : System NodeCache OpenCall where
  start s := ∃ v image, v.nodes = [] ∧ NamesFit image ∧ s = ⟨initrdInit v image, []⟩
  step s call s' := s.exec call = some s'

/-- A node of the initrd, or the mount point that was made of one. -/
def OfInitrd (node : FsNode) : Prop :=
  node.fs = .initrd ∨ node.flags = fsDirectory ||| fsMountpoint

instance {node : FsNode} : Decidable (OfInitrd node) := inferInstanceAs (Decidable (_ ∨ _))

/-- `devfs_openddir` returns a node with the name of the device, which binds a file to it;
`initrd_openddir` one for the record that the pointer of the directory leads to. -/
def RightNode (s : NodeCache) (call : OpenCall) (_ : NodeCache) : Prop :=
  match call with
  | .initrdOpenddir dir num =>
    ∀ node ∈ s.vfs.nodes[dir]?, ∀ ino ∈ entryAt s.vfs.image node.inode num,
      ∃ n ∈ (initrdOpenddir s.vfs node num).1,
        ∃ x ∈ (initrdOpenddir s.vfs node num).2.nodes[n]?,
          x.inode = ino ∧ x.name = nameOf s.vfs.image ino ∧ OfInitrd x
  | .devfsOpenddir num recycled =>
    ∀ dev ∈ s.vfs.devs[num.toNat]?,
      ∃ n ∈ (devfsOpenddir s.vfs num recycled).1,
        ∃ x ∈ (devfsOpenddir s.vfs num recycled).2.nodes[n]?,
          x.name = dev.name ∧
            openNode (devfsOpenddir s.vfs num recycled).2 n = some (.devfs, some num.toNat)
  | _ => True

/-- A node that is cached under the number belongs to the file system that asks; if it is a
stray, it has the right name as well. -/
def OwnNode (s : NodeCache) (call : OpenCall) (_ : NodeCache) : Prop :=
  match call with
  | .initrdOpenddir dir num =>
    ∀ node ∈ s.vfs.nodes[dir]?, ∀ ino ∈ entryAt s.vfs.image node.inode num,
      ∀ n ∈ findFsNodeByIno s.vfs ino, ∀ x ∈ s.vfs.nodes[n]?,
        OfInitrd x ∧ (n ∈ s.strays → x.name = nameOf s.vfs.image ino)
  | .devfsOpenddir num _ =>
    ∀ dev ∈ s.vfs.devs[num.toNat]?, ∀ n ∈ findFsNodeByIno s.vfs num, ∀ x ∈ s.vfs.nodes[n]?,
      x.fs = .devfs ∧ (n ∈ s.strays → x.name = dev.name)
  | _ => True

-- Else the instance that tries every `ino` is found.
instance {p : Word → Prop} [DecidablePred p] {o : Option Word} : Decidable (∀ ino ∈ o, p ino) :=
  Option.decidableForallMem o

instance {s s' : NodeCache} : (call : OpenCall) → Decidable (RightNode s call s')
  | .initrdOpenddir dir _ =>
    inferInstanceAs (Decidable (∀ node ∈ s.vfs.nodes[dir]?, ∀ ino ∈ entryAt _ _ _, _))
  | .devfsOpenddir num _ => inferInstanceAs (Decidable (∀ dev ∈ s.vfs.devs[num.toNat]?, _))
  | .devCreate _ => inferInstanceAs (Decidable True)
  | .devfsMount _ => inferInstanceAs (Decidable True)

instance {s s' : NodeCache} : (call : OpenCall) → Decidable (OwnNode s call s')
  | .initrdOpenddir dir _ =>
    inferInstanceAs (Decidable (∀ node ∈ s.vfs.nodes[dir]?, ∀ ino ∈ entryAt _ _ _, _))
  | .devfsOpenddir num _ => inferInstanceAs (Decidable (∀ dev ∈ s.vfs.devs[num.toNat]?, _))
  | .devCreate _ => inferInstanceAs (Decidable True)
  | .devfsMount _ => inferInstanceAs (Decidable True)

inductive Made (v : FsState) : FsNode → Prop
  | record (ino : Word) : Made v (recordNode v.image ino)
  | device (j : Nat) (dev : Dev) (hj : v.devs[j]? = some dev) (hlt : j < 2 ^ 32) :
    Made v (deviceNode dev j)

def CacheInv (s : NodeCache) : Prop :=
  ∀ n x, s.vfs.nodes[n]? = some x → n ∉ s.strays → Made s.vfs x

variable {v : FsState} {s s' : NodeCache} {call : OpenCall} {x node recycled : FsNode} {dev : Dev}
  {num ino : Word} {n : Nat} {tr : List (OpenCall × NodeCache)}

theorem Made.of_devfs (h : Made v x) (hfs : x.fs = .devfs) :
    ∃ dev, v.devs[x.inode.toNat]? = some dev ∧ x.name = dev.name := by
  cases h with
  | record ino => cases hfs
  | device j dev hj hlt =>
    refine ⟨dev, ?_, rfl⟩
    show v.devs[(BitVec.ofNat 32 j).toNat]? = some dev
    rwa [Word.toNat_ofNat hlt]

theorem Made.of_initrd (h : Made v x) (hown : OfInitrd x) : x = recordNode v.image x.inode := by
  cases h with
  | record ino => rfl
  | device j dev =>
    rcases hown with hfs | hflags
    · cases hfs
    · exact absurd hflags (by decide : fsChrdevice ≠ fsDirectory ||| fsMountpoint)

theorem openNode_device (hx : v.nodes[n]? = some x) (hdev : v.devs[x.inode.toNat]? = some dev) :
    openNode v n = some (.devfs, some x.inode.toNat) ↔ x.fs = .devfs := by
  have hlt := (List.getElem?_eq_some_iff.mp hdev).1
  rw [openNode, hx, Option.bind_some]
  cases hfs : x.fs with
  | initrd => simp
  | devfs => simp [hlt]

section devfsOpenddir

variable (recycled : FsNode)

theorem devfsOpenddir_found (h : findFsNodeByIno v num = some n) :
    devfsOpenddir v num recycled = (some n, { v with recycled := recycled }) := by
  have hfind : findFsNodeByIno { v with recycled := recycled } num = some n := h
  rw [devfsOpenddir, devfsCreateNode, hfind]

theorem devfsOpenddir_made (h : findFsNodeByIno v num = none)
    (hdev : v.devs[num.toNat]? = some dev) :
    devfsOpenddir v num recycled = (some v.nodes.length,
      { v with nodes := v.nodes ++ [deviceNode dev num.toNat], recycled := recycled }) := by
  have hfind : findFsNodeByIno { v with recycled := recycled } num = none := h
  rw [devfsOpenddir, devfsCreateNode, hfind]
  simp [hdev, deviceNode]

theorem devfsOpenddir_missing (h : findFsNodeByIno v num = none)
    (hdev : v.devs[num.toNat]? = none) :
    devfsOpenddir v num recycled =
      (none, { v with nodes := v.nodes ++ [recycled], recycled := recycled }) := by
  have hfind : findFsNodeByIno { v with recycled := recycled } num = none := h
  rw [devfsOpenddir, devfsCreateNode, hfind]
  simp only [hdev]

end devfsOpenddir

/-- Only a stray can belong to the file system and have another name. -/
theorem named_own_iff {named own stray : Prop} (h : ¬stray → own → named) :
    named ∧ own ↔ own ∧ (stray → named) := by
  constructor
  · rintro ⟨hnamed, hown⟩
    exact ⟨hown, fun _ => hnamed⟩
  · rintro ⟨hown, hstray⟩
    by_cases hn : stray
    · exact ⟨hstray hn, hown⟩
    · exact ⟨h hn hown, hown⟩

theorem CacheInv.device_iff (h : CacheInv s) (hdev : s.vfs.devs[num.toNat]? = some dev)
    (recycled : FsNode) :
    (∃ n ∈ (devfsOpenddir s.vfs num recycled).1,
      ∃ x ∈ (devfsOpenddir s.vfs num recycled).2.nodes[n]?, x.name = dev.name ∧
        openNode (devfsOpenddir s.vfs num recycled).2 n = some (.devfs, some num.toNat)) ↔
      ∀ n ∈ findFsNodeByIno s.vfs num, ∀ x ∈ s.vfs.nodes[n]?,
        x.fs = .devfs ∧ (n ∈ s.strays → x.name = dev.name) := by
  cases hfind : findFsNodeByIno s.vfs num with
  | none =>
    refine iff_of_true ?_ nofun
    rw [devfsOpenddir_made recycled hfind hdev]
    have hlast := List.getElem?_concat_length (l := s.vfs.nodes) (a := deviceNode dev num.toNat)
    have hino : (deviceNode dev num.toNat).inode = num := by simp [deviceNode]
    refine ⟨_, rfl, _, hlast, rfl, ?_⟩
    have hdev' : s.vfs.devs[(deviceNode dev num.toNat).inode.toNat]? = some dev := by
      rwa [hino]
    have hopen := openNode_device (v := { s.vfs with
      nodes := s.vfs.nodes ++ [deviceNode dev num.toNat], recycled := recycled }) hlast hdev'
    rw [hino] at hopen
    exact hopen.mpr rfl
  | some n =>
    obtain ⟨x, hx, rfl⟩ := findFsNodeByIno_some hfind
    have hopen := openNode_device hx hdev
    rw [devfsOpenddir_found recycled hfind]
    simp only [Option.mem_some_iff, exists_eq_left', forall_eq', hx]
    show _ ∧ openNode s.vfs n = _ ↔ _
    rw [hopen]
    refine named_own_iff fun hn hfs => ?_
    obtain ⟨dev', hdev', hname⟩ := (h n x hx hn).of_devfs hfs
    obtain rfl := Option.some.inj (hdev'.symm.trans hdev)
    exact hname

theorem CacheInv.record_iff (h : CacheInv s)
    (hentry : entryAt s.vfs.image node.inode num = some ino) :
    (∃ n ∈ (initrdOpenddir s.vfs node num).1,
      ∃ x ∈ (initrdOpenddir s.vfs node num).2.nodes[n]?,
        x.inode = ino ∧ x.name = nameOf s.vfs.image ino ∧ OfInitrd x) ↔
      ∀ n ∈ findFsNodeByIno s.vfs ino, ∀ x ∈ s.vfs.nodes[n]?,
        OfInitrd x ∧ (n ∈ s.strays → x.name = nameOf s.vfs.image ino) := by
  rw [initrdOpenddir_eq, hentry]
  rcases initrdCreateNode_cases s.vfs ino with ⟨n, heq, hfind⟩ | ⟨hfresh, heq⟩
  · obtain ⟨x, hx, rfl⟩ := findFsNodeByIno_some hfind
    simp only [heq, hfind, Option.mem_some_iff, exists_eq_left', forall_eq', hx, true_and]
    exact named_own_iff fun hn hown => congrArg FsNode.name ((h n x hx hn).of_initrd hown)
  · have hnone : findFsNodeByIno s.vfs ino = none := by
      cases hfind : findFsNodeByIno s.vfs ino with
      | none => rfl
      | some n =>
        obtain ⟨x, hx, rfl⟩ := findFsNodeByIno_some hfind
        exact absurd (List.mem_map_of_mem (List.mem_of_getElem? hx)) hfresh
    simp only [heq, hnone]
    exact iff_of_true
      ⟨_, rfl, _, List.getElem?_concat_length, rfl, rfl, .inl rfl⟩ nofun

theorem CacheInv.rightNode_iff (h : CacheInv s) :
    RightNode s call s' ↔ OwnNode s call s' := by
  cases call with
  | initrdOpenddir dir num =>
    exact forall₂_congr fun node _ => forall₂_congr fun ino hentry => h.record_iff hentry
  | devfsOpenddir num recycled => exact forall₂_congr fun dev hdev => h.device_iff hdev recycled
  | devCreate dev => exact Iff.rfl
  | devfsMount n => exact Iff.rfl

theorem CacheInv.push (h : CacheInv s) {strays : List Nat} {v : FsState}
    (hnodes : v.nodes = s.vfs.nodes ++ [x]) (hmade : ∀ y, Made s.vfs y → Made v y)
    (hsub : ∀ n ∈ s.strays, n ∈ strays) (hx : s.vfs.nodes.length ∉ strays → Made v x) :
    CacheInv ⟨v, strays⟩ := by
  intro n y hy hn
  replace hy : v.nodes[n]? = some y := hy
  rw [hnodes, List.getElem?_append] at hy
  split at hy
  · exact hmade y (h n y hy fun hmem => hn (hsub n hmem))
  · next hle =>
    rw [List.getElem?_singleton] at hy
    obtain ⟨hzero, heq⟩ := Option.ite_none_right_eq_some.mp hy
    obtain rfl := Option.some.inj heq
    obtain rfl : n = s.vfs.nodes.length := by omega
    exact hx hn

theorem Made.frame (h : Made v x) (nodes : List FsNode) (recycled : FsNode) :
    Made { v with nodes := nodes, recycled := recycled } x := by
  cases h with
  | record ino => exact .record ino
  | device j dev hj hlt => exact .device j dev hj hlt

theorem Made.devCreate (h : Made v x) (dev : Dev) : Made (devCreate v dev) x := by
  cases h with
  | record ino => exact .record ino
  | device j dev' hj hlt => exact .device j dev' (getElem?_devs_append hj dev) hlt

theorem CacheInv.initrdCreateNode (h : CacheInv s) (ino : Word) :
    CacheInv ⟨(initrdCreateNode s.vfs ino).2, s.strays⟩ := by
  rcases initrdCreateNode_cases s.vfs ino with ⟨n, heq, -⟩ | ⟨-, heq⟩
  · rw [heq]
    exact h
  · rw [heq]
    exact h.push rfl (fun _ hy => hy.frame _ _) (fun _ hn => hn) fun _ => .record ino

theorem CacheInv.start (h : openings.start s) : CacheInv s := by
  obtain ⟨v, image, hnodes, -, rfl⟩ := h
  have hempty : CacheInv ⟨{ v with image := image }, []⟩ := by
    intro n x hx
    simp [hnodes] at hx
  unfold initrdInit
  simp only
  split
  · exact hempty
  · split
    · exact hempty
    · split
      · exact hempty
      · split
        · exact hempty
        · exact hempty.initrdCreateNode _

theorem CacheInv.step (h : CacheInv s) (hstep : openings.step s call s') : CacheInv s' := by
  cases call with
  | initrdOpenddir dir num =>
    obtain ⟨node, -, hstep⟩ := Option.bind_eq_some_iff.mp hstep
    obtain ⟨-, heq⟩ := Option.ite_none_right_eq_some.mp hstep
    obtain rfl := Option.some.inj heq
    rw [initrdOpenddir_eq]
    cases entryAt s.vfs.image node.inode num with
    | none => exact h
    | some ino => exact h.initrdCreateNode ino
  | devfsOpenddir num recycled =>
    obtain rfl := Option.some.inj hstep
    cases hfind : findFsNodeByIno s.vfs num with
    | some n =>
      rw [devfsOpenddir_found recycled hfind]
      exact fun n x hx hn => (h n x hx hn).frame _ _
    | none =>
      cases hdev : s.vfs.devs[num.toNat]? with
      | some dev =>
        rw [devfsOpenddir_made recycled hfind hdev]
        exact h.push rfl (fun _ hy => hy.frame _ _) (fun _ hn => hn) fun _ =>
          .device num.toNat dev hdev num.isLt
      | none =>
        rw [devfsOpenddir_missing recycled hfind hdev]
        exact h.push rfl (fun _ hy => hy.frame _ _) (fun _ hn => List.mem_cons_of_mem _ hn)
          fun hlast => absurd List.mem_cons_self hlast
  | devCreate dev =>
    obtain rfl := Option.some.inj hstep
    exact fun n x hx hn => (h n x hx hn).devCreate dev
  | devfsMount m =>
    obtain rfl := Option.some.inj hstep
    intro n x hx hn
    rw [List.mem_cons, not_or] at hn
    replace hx : (s.vfs.nodes.modify m _)[n]? = some x := hx
    rw [List.getElem?_modify_ne _ _ (Ne.symm hn.1)] at hx
    exact (h n x hx hn.2).frame _ _

/-- In a run of opens the nodes of the file systems are kept apart exactly when a node that is
cached under a number always belongs to the file system that asks. -/
theorem nodes_not_confused_iff (hstart : openings.start s) (htr : openings.Trace s tr) :
    Every RightNode s tr ↔ Every OwnNode s tr :=
  System.Trace.every_iff (fun _ _ _ hinv _ => hinv.rightNode_iff)
    (fun _ _ _ hinv hstep _ => hinv.step hstep) (CacheInv.start hstart) htr

def opening (devs : List Dev) : NodeCache := ⟨initrdInit (unmounted devs) devImage, []⟩

theorem opening_start (devs : List Dev) : openings.start (opening devs) :=
  ⟨unmounted devs, devImage, rfl, namesFit_of_wellFormed devDir_wellFormed, rfl⟩

/-- `dev` is opened, used as the mount point and opened again; and `/dev/a`, with an attempt
to open the entry behind it. -/
theorem nodes_not_confused_iff_example : ∃ tr, openings.Trace (opening [devA]) tr ∧
    tr.length = 5 ∧ Every RightNode (opening [devA]) tr := by
  have hrun : (replay NodeCache.exec (opening [devA])
      [.initrdOpenddir 0 0, .devfsMount 1, .devfsOpenddir 0 (recordNode devImage 24),
        .devfsOpenddir 1 (recordNode devImage 24), .initrdOpenddir 0 0]).any (fun tr =>
      tr.length = 5 ∧ Every OwnNode (opening [devA]) tr) = true := by decide +kernel
  obtain ⟨tr, -, htr, hlength, hown⟩ :=
    System.Trace.exists_of_replay (M := openings) (fun _ _ _ h => h) hrun
  exact ⟨tr, htr, hlength, (nodes_not_confused_iff (opening_start [devA]) htr).mpr hown⟩

/-- With nine devices, the last one has the inode of `dev`. -/
theorem nodes_confused : ¬∀ s tr, openings.start s → openings.Trace s tr → Every RightNode s tr := by
  intro hall
  have hrun : (replay NodeCache.exec (opening (List.replicate 9 devA))
      [.initrdOpenddir 0 0, .devfsOpenddir 8 (recordNode devImage 24)]).any (fun tr =>
      ¬Every RightNode (opening (List.replicate 9 devA)) tr) = true := by decide +kernel
  obtain ⟨tr, -, htr, hwrong⟩ :=
    System.Trace.exists_of_replay (M := openings) (fun _ _ _ h => h) hrun
  exact hwrong (hall _ tr (opening_start _) htr)

end RubiKernel.Vfs
