import Mathlib.Data.List.Nodup
import RubiKernel.Vfs.Defs

/-! The entries of the directories of an initrd, and the nodes that `initrd_create_node`
makes of them, for whatever bytes the image has. -/

namespace RubiKernel.Vfs

open Memory

variable {v : FsState} {node : FsNode} {ino : Word} {n : Nat}

def entryAt (image : Memory) (ino num : Word) : Option Word :=
  if (fileHead image ino).magic = fileMagic ∧ (fileHead image ino).type = initrdfsDir ∧
      num < (fileHead image ino).size then
    some (childPtr image ino num)
  else none

/-- What `initrd_create_node` fills in from a record. -/
def recordNode (image : Memory) (offset : Word) : FsNode where
  name := nameOf image offset
  flags := if (fileHead image offset).type = initrdfsFile then fsFile
    else if (fileHead image offset).type = initrdfsDir then fsDirectory else 0
  length := (fileHead image offset).size
  inode := offset
  impl := 0
  fs := .initrd

/-- The checks that `initrd_readdir` and `initrd_openddir` make, one of them twice. -/
theorem checks_eq {β : Type} (image : Memory) (ino num : Word) (refuse : β) (accept : Word → β) :
    (if (fileHead image ino).magic ≠ fileMagic then refuse
      else if (fileHead image ino).type ≠ initrdfsDir then refuse
      else if num ≥ (fileHead image ino).size then refuse
      else if (fileHead image ino).magic ≠ fileMagic then refuse
      else accept (childPtr image ino num)) =
      match entryAt image ino num with
      | some c => accept c
      | none => refuse := by
  unfold entryAt
  by_cases hmagic : (fileHead image ino).magic = fileMagic
  · by_cases htype : (fileHead image ino).type = initrdfsDir
    · by_cases hnum : num < (fileHead image ino).size
      · simp [hmagic, htype, hnum]
      · simp [hmagic, htype, BitVec.not_lt.mp hnum, hnum]
    · simp [hmagic, htype]
  · simp [hmagic]

theorem initrdReaddir_eq (v : FsState) (node : FsNode) (num : Word) :
    initrdReaddir v node num =
      (entryAt v.image node.inode num).map fun ino => ⟨nameOf v.image ino, ino⟩ := by
  have hchecks := checks_eq v.image node.inode num none fun ino =>
    some (Dirent.mk (nameOf v.image ino) ino)
  refine hchecks.trans ?_
  cases entryAt v.image node.inode num with
  | none => rfl
  | some ino => rfl

theorem initrdOpenddir_eq (v : FsState) (node : FsNode) (num : Word) :
    initrdOpenddir v node num =
      match entryAt v.image node.inode num with
      | some ino => (some (initrdCreateNode v ino).1, (initrdCreateNode v ino).2)
      | none => (none, v) :=
  checks_eq v.image node.inode num (none, v) fun ino =>
    (some (initrdCreateNode v ino).1, (initrdCreateNode v ino).2)

theorem findFsNodeByIno_some (h : findFsNodeByIno v ino = some n) :
    ∃ node, v.nodes[n]? = some node ∧ node.inode = ino := by
  obtain ⟨hlt, hino, -⟩ := List.findIdx?_eq_some_iff_getElem.mp h
  exact ⟨v.nodes[n], List.getElem?_eq_getElem hlt, of_decide_eq_true hino⟩

theorem findFsNodeByIno_none (h : findFsNodeByIno v ino = none) :
    ino ∉ v.nodes.map FsNode.inode := by
  intro hmem
  obtain ⟨node, hnode, rfl⟩ := List.mem_map.mp hmem
  have hne := List.findIdx?_eq_none_iff.mp h node hnode
  simp at hne

theorem initrdCreateNode_cases (v : FsState) (ino : Word) :
    (∃ n, initrdCreateNode v ino = (n, v) ∧ findFsNodeByIno v ino = some n) ∨
      ino ∉ v.nodes.map FsNode.inode ∧ initrdCreateNode v ino =
        (v.nodes.length, { v with nodes := v.nodes ++ [recordNode v.image ino] }) := by
  rw [initrdCreateNode]
  cases hfind : findFsNodeByIno v ino with
  | some n => exact .inl ⟨n, rfl, rfl⟩
  | none => exact .inr ⟨findFsNodeByIno_none hfind, rfl⟩

structure Extends (v v' : FsState) : Prop where
  image : v'.image = v.image
  nodes : ∀ {n : Nat} {node}, v.nodes[n]? = some node → v'.nodes[n]? = some node

theorem Extends.refl (v : FsState) : Extends v v := ⟨rfl, id⟩

theorem Extends.trans {v₁ v₂ v₃ : FsState} (h : Extends v₁ v₂) (h' : Extends v₂ v₃) : Extends v₁ v₃ :=
  ⟨h'.image.trans h.image, fun hn => h'.nodes (h.nodes hn)⟩

theorem extends_initrdCreateNode (v : FsState) (ino : Word) : Extends v (initrdCreateNode v ino).2 := by
  rcases initrdCreateNode_cases v ino with ⟨n, heq, -⟩ | ⟨-, heq⟩
  · rw [heq]
    exact .refl v
  · rw [heq]
    refine ⟨rfl, fun hn => ?_⟩
    rw [List.getElem?_append_left (List.getElem?_eq_some_iff.mp hn).1, hn]

theorem extends_initrdOpenddir (v : FsState) (node : FsNode) (num : Word) :
    Extends v (initrdOpenddir v node num).2 := by
  rw [initrdOpenddir_eq]
  cases entryAt v.image node.inode num with
  | none => exact .refl v
  | some ino => exact extends_initrdCreateNode v ino

theorem nameOf_length_le (image : Memory) (offset : Word) :
    (nameOf image offset).length ≤ (fileHead image offset).nameSize.toNat := by
  refine (List.takeWhile_prefix _).length_le.trans ?_
  rw [List.length_map, List.length_range]

theorem nodup_inodes (h : (v.nodes.map FsNode.inode).Nodup)
    (hfresh : node.inode ∉ v.nodes.map FsNode.inode) :
    ((v.nodes ++ [node]).map FsNode.inode).Nodup := by
  rw [List.map_append, List.map_singleton, ← List.concat_eq_append]
  exact h.concat hfresh

end RubiKernel.Vfs
