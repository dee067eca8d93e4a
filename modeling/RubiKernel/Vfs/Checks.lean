import RubiKernel.Vfs.Nodes

/-! The checks of the driver on a record: the range of `initrd_read`, and the record of an
entry in `initrd_readdir` and `initrd_openddir`, for whatever bytes the image has. -/

namespace RubiKernel.Vfs

open Memory

variable {image : Memory} {ino offset size num : Word}

def contentsOf (image : Memory) (ino : Word) : List Byte :=
  (List.range (fileHead image ino).size.toNat).map fun i =>
    image (payloadAt image ino + BitVec.ofNat 32 i)

theorem length_contentsOf : (contentsOf image ino).length = (fileHead image ino).size.toNat := by
  rw [contentsOf, List.length_map, List.length_range]

theorem take_drop_contentsOf (n : Nat) :
    ((contentsOf image ino).drop offset.toNat).take n =
      (List.range (min n ((fileHead image ino).size.toNat - offset.toNat))).map fun i =>
        image (payloadAt image ino + offset + BitVec.ofNat 32 i) := by
  have hlen : (contentsOf image ino).length = _ := length_contentsOf
  refine List.ext_getElem (by simp [hlen]) fun i hi _ => ?_
  have haddr : payloadAt image ino + offset + BitVec.ofNat 32 i =
      payloadAt image ino + BitVec.ofNat 32 (offset.toNat + i) := by
    rw [BitVec.ofNat_add, BitVec.ofNat_toNat, BitVec.setWidth_eq, BitVec.add_assoc]
  simp only [List.getElem_take, List.getElem_drop, List.getElem_map, List.getElem_range, contentsOf,
    haddr]

/-- The number of bytes `initrd_read` copies. -/
def readCount (n offset size : Word) : Nat :=
  if offset ≥ n then 0 else (if offset + size ≥ n then n - offset else size).toNat

theorem initrdRead_eq (v : FsState) (node : FsNode) (offset size : Word) :
    initrdRead v node offset size =
      (List.range (readCount (fileHead v.image node.inode).size offset size)).map fun i =>
        v.image (payloadAt v.image node.inode + offset + BitVec.ofNat 32 i) := by
  simp only [initrdRead, readCount]
  split
  · rfl
  · rfl

/-- The count is clamped to the end of the file unless the end of the range wraps
around. -/
theorem readCount_eq_iff (n offset size : Word) :
    readCount n offset size = min size.toNat (n.toNat - offset.toNat) ↔
      n ≤ offset ∨ offset.toNat + size.toNat < 2 ^ 32 := by
  have hn := n.isLt
  have hsum := BitVec.toNat_add offset size
  unfold readCount
  simp only [ge_iff_le, BitVec.le_def, hsum]
  by_cases hpast : n.toNat ≤ offset.toNat
  · simp only [hpast, if_true, true_or, iff_true]
    omega
  · have hsub : (n - offset).toNat = n.toNat - offset.toNat :=
      BitVec.toNat_sub_of_le (BitVec.le_def.mpr (by omega))
    simp only [hpast, if_false, false_or]
    rcases Nat.lt_or_ge (offset.toNat + size.toNat) (2 ^ 32) with hno | hwrap
    · rw [Nat.mod_eq_of_lt hno]
      simp only [hno, iff_true]
      split
      · omega
      · omega
    · -- the wrapped end lies below the offset, and the size asked for is copied
      have hend : (offset.toNat + size.toNat) % 2 ^ 32 = offset.toNat + size.toNat - 2 ^ 32 := by
        have hsize := size.isLt
        omega
      have hlow : ¬n.toNat ≤ offset.toNat + size.toNat - 2 ^ 32 := by
        have hsize := size.isLt
        omega
      rw [hend, if_neg hlow]
      omega

/-- `initrd_read` delivers the bytes of the file from the offset on, as many as there are
up to the size, exactly when the end of the range does not wrap around. -/
theorem initrd_read_iff (v : FsState) (node : FsNode) (offset size : Word) :
    initrdRead v node offset size =
        ((contentsOf v.image node.inode).drop offset.toNat).take size.toNat ↔
      (fileHead v.image node.inode).size ≤ offset ∨ offset.toNat + size.toNat < 2 ^ 32 := by
  rw [← readCount_eq_iff, initrdRead_eq, take_drop_contentsOf]
  constructor
  · intro h
    simpa using congrArg List.length h
  · intro h
    rw [h]

def smallImage : Memory := fun a =>
  (bytes32 fileMagic ++ (bytes32 3 ++ (bytes32 1 ++ ([initrdfsFile] ++ [97, 1, 2, 3])))).getD
    (a - 8).toNat 0

def smallNode : FsNode := recordNode smallImage 8

/-- A range that ends behind the last address is taken for a short one. -/
theorem initrd_read_past_end : ¬∀ v node offset size, initrdRead v node offset size =
    ((contentsOf v.image node.inode).drop offset.toNat).take size.toNat := by
  intro hall
  have h := congrArg List.length
    (hall ⟨smallImage, [smallNode], [], smallNode⟩ smallNode 1 0xFFFFFFFF)
  have hcount : readCount (fileHead smallImage smallNode.inode).size 1 0xFFFFFFFF = 0xFFFFFFFF := by
    decide
  have hsize : (fileHead smallImage smallNode.inode).size.toNat = 3 := by decide
  rw [initrdRead_eq, List.length_map, List.length_range, hcount, List.length_take,
    List.length_drop, length_contentsOf, hsize] at h
  exact absurd h (by decide)

/-- What makes a record one whose name fits in a node. -/
structure ValidRecord (image : Memory) (ino : Word) : Prop where
  magic : (fileHead image ino).magic = fileMagic
  fits : (fileHead image ino).nameSize.toNat < nodeNameSize

/-- The places in `name` that the copy of the name of a record and its terminator go to. -/
def nameStores (image : Memory) (ino : Word) : List Nat :=
  List.range ((fileHead image ino).nameSize.toNat + 1)

theorem ValidRecord.stores_inside (h : ValidRecord image ino) {i : Nat}
    (hi : i ∈ nameStores image ino) : i < nodeNameSize := by
  have hfits := h.fits
  rw [nameStores, List.mem_range] at hi
  omega

/-- An entry is delivered only when its record is valid, with the stores inside the name
field; otherwise both functions return 0 and make no node. -/
structure ChecksChild (v : FsState) (node : FsNode) (num : Word) : Prop where
  delivered : ∀ ino, entryAt v.image node.inode num = some ino →
    (initrdReaddir v node num).isSome ∨ (initrdOpenddir v node num).1.isSome →
      ValidRecord v.image ino ∧ ∀ i ∈ nameStores v.image ino, i < nodeNameSize
  refused : (¬∃ ino, entryAt v.image node.inode num = some ino ∧ ValidRecord v.image ino) →
    initrdReaddir v node num = none ∧ initrdOpenddir v node num = (none, v)

/-- Neither function looks at the record of the entry: what is not valid is refused
exactly when the directory has no entry like that for the index. -/
theorem child_checked_iff (v : FsState) (node : FsNode) (num : Word) :
    ChecksChild v node num ↔
      ∀ ino, entryAt v.image node.inode num = some ino → ValidRecord v.image ino := by
  constructor
  · intro h ino hentry
    refine (h.delivered ino hentry (.inl ?_)).1
    rw [initrdReaddir_eq, hentry]
    rfl
  · intro hvalid
    refine ⟨fun ino hentry _ => ?_, fun hnone => ?_⟩
    · have hrecord := hvalid ino hentry
      exact ⟨hrecord, fun i hi => hrecord.stores_inside hi⟩
    · have hentry : entryAt v.image node.inode num = none := by
        refine Option.eq_none_iff_forall_ne_some.mpr fun ino hentry => ?_
        exact hnone ⟨ino, hentry, hvalid ino hentry⟩
      rw [initrdReaddir_eq, initrdOpenddir_eq, hentry]
      exact ⟨rfl, rfl⟩

def danglingImage : Memory := fun a =>
  (bytes32 fileMagic ++ (bytes32 1 ++ (bytes32 1 ++ ([initrdfsDir] ++ ([slash] ++ bytes32 64))))).getD
    (a - 8).toNat 0

theorem dangling_child_delivered : ¬∀ v node num, ChecksChild v node num := by
  intro hall
  have hchild := hall ⟨danglingImage, [], [], recordNode danglingImage 8⟩
    (recordNode danglingImage 8) 0
  have hentry : entryAt danglingImage 8 0 = some 64 := by decide
  obtain ⟨hrecord, -⟩ := hchild.delivered 64 hentry (.inl (by decide))
  exact absurd hrecord.magic (by decide)

end RubiKernel.Vfs
