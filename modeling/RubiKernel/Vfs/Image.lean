import Mathlib.Data.List.TakeWhile
import RubiKernel.Vfs.Nodes

/-! Well-formed initrd images: a tree of files and directories, each one a record laid
out as `initrd.h` says, and what the driver reads from a record. -/

namespace RubiKernel.Vfs

open Memory

/-- A directory has the offsets of its entries. -/
inductive Body
  | file (contents : List Byte)
  | dir (children : List Word)

structure Record where
  name : List Byte
  body : Body
  named : name ≠ []
  short : name.length < nodeNameSize
  noNul : (0 : Byte) ∉ name

def Body.type : Body → Byte
  | .file _ => initrdfsFile
  | .dir _ => initrdfsDir

def Body.size : Body → Nat
  | .file contents => contents.length
  | .dir children => children.length

def Body.payload : Body → List Byte
  | .file contents => contents
  | .dir children => children.flatMap bytes32

def Record.encode (r : Record) : List Byte :=
  bytes32 fileMagic ++ (bytes32 (BitVec.ofNat 32 r.body.size) ++
    (bytes32 (BitVec.ofNat 32 r.name.length) ++ ([r.body.type] ++ (r.name ++ r.body.payload))))

def Body.children : Body → List Word
  | .file _ => []
  | .dir children => children

/-- The record with the name `name`, when it can be one. -/
def recordOf (name : List Byte) (b : Body) : Record :=
  if h : name ≠ [] ∧ name.length < nodeNameSize ∧ (0 : Byte) ∉ name then
    ⟨name, b, h.1, h.2.1, h.2.2⟩
  else ⟨[slash], b, by decide, by decide, by decide⟩

@[simp] theorem recordOf_body (name : List Byte) (b : Body) : (recordOf name b).body = b := by
  unfold recordOf
  split <;> rfl

/-- The record lies at `ino`, behind the header of the image. -/
structure RecordAt (image : Memory) (ino : Word) (r : Record) : Prop where
  bytes : BytesAt image ino r.encode
  behind : 8 ≤ ino.toNat
  inside : ino.toNat + r.encode.length ≤ 2 ^ 32

/-- The records by their offsets. The directories are nested, and the names in one are
distinct. -/
structure Tree where
  root : Word
  record : Word → Option Record
  rank : Word → Nat
  rootDir : ∃ r children, record root = some r ∧ r.body = .dir children
  below : ∀ ino r children, record ino = some r → r.body = .dir children →
    ∀ c ∈ children, (record c).isSome ∧ rank c < rank ino
  distinct : ∀ ino r children, record ino = some r → r.body = .dir children →
    (children.map fun c => (record c).map Record.name).Nodup

/-- The tree of a list of records in which every directory lies behind its entries. -/
def Tree.ofRecords (root : Word) (records : List (Word × Record))
    (rootDir : ∃ r children, records.lookup root = some r ∧ r.body = .dir children)
    (below : ∀ e ∈ records, ∀ c ∈ e.2.body.children,
      (records.lookup c).isSome ∧ c.toNat < e.1.toNat)
    (distinct : ∀ e ∈ records,
      (e.2.body.children.map fun c => (records.lookup c).map Record.name).Nodup) : Tree where
  root := root
  record ino := records.lookup ino
  rank := BitVec.toNat
  rootDir := rootDir
  below ino r children hr hbody := by
    obtain ⟨l₁, l₂, hl, -⟩ := List.lookup_eq_some_iff.mp hr
    have hbelow := below (ino, r) (hl ▸ by simp)
    rwa [hbody] at hbelow
  distinct ino r children hr hbody := by
    obtain ⟨l₁, l₂, hl, -⟩ := List.lookup_eq_some_iff.mp hr
    have hdistinct := distinct (ino, r) (hl ▸ by simp)
    rwa [hbody] at hdistinct

structure WellFormed (image : Memory) (t : Tree) : Prop where
  magic : read32 image 0 = headMagic
  offset : read32 image 4 = t.root
  records : ∀ ino r, t.record ino = some r → RecordAt image ino r

theorem wellFormed_ofRecords {image : Memory} {root : Word} {records : List (Word × Record)}
    {rootDir below distinct} (hmagic : read32 image 0 = headMagic)
    (hoffset : read32 image 4 = root) (h : ∀ e ∈ records, RecordAt image e.1 e.2) :
    WellFormed image (.ofRecords root records rootDir below distinct) where
  magic := hmagic
  offset := hoffset
  records ino r hr := by
    obtain ⟨l₁, l₂, hl, -⟩ := List.lookup_eq_some_iff.mp hr
    exact h (ino, r) (hl ▸ by simp)

variable {image : Memory} {t : Tree} {v : FsState} {ino c : Word} {r : Record} {children : List Word}
  {contents part : List Byte} {i : Nat}

theorem Record.encode_length (r : Record) :
    r.encode.length = 13 + r.name.length + r.body.payload.length := by
  simp only [Record.encode, bytes32, List.length_append, List.length_cons, List.length_nil]
  omega

theorem payload_dir_length (children : List Word) :
    (Body.dir children).payload.length = 4 * children.length := by
  simp [Body.payload, bytes32, Nat.mul_comm]

theorem Body.size_le (b : Body) : b.size ≤ b.payload.length := by
  cases b with
  | file contents => exact le_rfl
  | dir children =>
    rw [payload_dir_length]
    show children.length ≤ _
    omega

theorem RecordAt.size_lt (h : RecordAt image ino r) : r.body.size + 1 < 2 ^ 32 := by
  have hinside := h.inside
  have hbehind := h.behind
  have hsize := r.body.size_le
  rw [r.encode_length] at hinside
  omega

theorem RecordAt.size_toNat (h : RecordAt image ino r) :
    (BitVec.ofNat 32 r.body.size).toNat = r.body.size := by
  have hlt := h.size_lt
  exact Word.toNat_ofNat (by omega)

theorem Record.nameSize_toNat (r : Record) :
    (BitVec.ofNat 32 r.name.length).toNat = r.name.length := by
  exact Word.toNat_ofNat (r.short.trans (by decide))

theorem fileHead_of_bytesAt (head : FileHead) {rest : List Byte}
    (h : BytesAt image ino (bytes32 head.magic ++ (bytes32 head.size ++ (bytes32 head.nameSize ++
      ([head.type] ++ rest))))) :
    fileHead image ino = head ∧ BytesAt image (ino + 13) rest := by
  obtain ⟨hmagic, h⟩ := bytesAt_append.mp h
  obtain ⟨hsize, h⟩ := bytesAt_append.mp h
  obtain ⟨hname, h⟩ := bytesAt_append.mp h
  obtain ⟨htype, hrest⟩ := bytesAt_append.mp h
  simp only [add_ofNat_add] at hname htype hrest
  have hbyte : image (ino + 12) = head.type := by
    have hzero := htype 0 (by simp)
    rw [add_ofNat_add] at hzero
    exact hzero
  refine ⟨?_, hrest⟩
  rw [fileHead, hmagic.read32, show read32 image (ino + 4) = head.size from hsize.read32,
    show read32 image (ino + 8) = head.nameSize from hname.read32, hbyte]

theorem RecordAt.fields (h : RecordAt image ino r) :
    fileHead image ino = ⟨fileMagic, BitVec.ofNat 32 r.body.size,
        BitVec.ofNat 32 r.name.length, r.body.type⟩ ∧
      BytesAt image (ino + 13) r.name ∧
      BytesAt image (ino + BitVec.ofNat 32 (13 + r.name.length)) r.body.payload := by
  obtain ⟨hhead, hrest⟩ := fileHead_of_bytesAt
    ⟨fileMagic, BitVec.ofNat 32 r.body.size, BitVec.ofNat 32 r.name.length, r.body.type⟩ h.bytes
  obtain ⟨hchars, hpayload⟩ := bytesAt_append.mp hrest
  rw [show (ino + 13 : Word) = ino + BitVec.ofNat 32 13 from rfl, add_ofNat_add] at hpayload
  exact ⟨hhead, hchars, hpayload⟩

theorem RecordAt.fileHead_eq (h : RecordAt image ino r) :
    fileHead image ino = ⟨fileMagic, BitVec.ofNat 32 r.body.size,
      BitVec.ofNat 32 r.name.length, r.body.type⟩ := h.fields.1

theorem RecordAt.payloadAt_eq (h : RecordAt image ino r) :
    payloadAt image ino = ino + BitVec.ofNat 32 (13 + r.name.length) := by
  rw [payloadAt, h.fileHead_eq]
  exact add_ofNat_add ino 13 r.name.length

theorem cString_of_noNul {s : List Byte} (hs : (0 : Byte) ∉ s) : cString s = s := by
  refine List.takeWhile_eq_self_iff.mpr fun b hb => ?_
  rw [decide_eq_true_eq]
  rintro rfl
  exact hs hb

theorem RecordAt.nameOf_eq (h : RecordAt image ino r) : nameOf image ino = r.name := by
  obtain ⟨-, hchars, -⟩ := h.fields
  rw [nameOf, h.fileHead_eq, r.nameSize_toNat, hchars.map_range, cString_of_noNul r.noNul]

theorem RecordAt.childPtr_eq (h : RecordAt image ino r) (hbody : r.body = .dir children)
    (hi : i < children.length) : childPtr image ino (BitVec.ofNat 32 i) = children[i] := by
  obtain ⟨-, -, hpayload⟩ := h.fields
  rw [hbody] at hpayload
  have hmul : (4 : Word) * BitVec.ofNat 32 i = BitVec.ofNat 32 (4 * i) := by
    rw [BitVec.ofNat_mul]
    rfl
  rw [childPtr, h.payloadAt_eq, hmul]
  exact hpayload.read32_words hi

theorem RecordAt.entryAt_file (h : RecordAt image ino r) (hbody : r.body = .file contents)
    (num : Word) : entryAt image ino num = none := by
  have htype : ¬(Body.file contents).type = initrdfsDir :=
    (by decide : ¬initrdfsFile = initrdfsDir)
  rw [entryAt, h.fileHead_eq, hbody, if_neg fun hc => htype hc.2.1]

theorem RecordAt.entryAt_dir (h : RecordAt image ino r) (hbody : r.body = .dir children)
    (hi : i < 2 ^ 32) : entryAt image ino (BitVec.ofNat 32 i) = children[i]? := by
  have htype : r.body.type = initrdfsDir := by
    rw [hbody]
    rfl
  have hsize : (BitVec.ofNat 32 r.body.size).toNat = children.length := by
    rw [h.size_toNat, hbody]
    rfl
  rw [entryAt, h.fileHead_eq]
  simp only [htype, true_and, BitVec.lt_def, hsize, Word.toNat_ofNat hi]
  split
  · next hlt => rw [h.childPtr_eq hbody hlt, List.getElem?_eq_getElem hlt]
  · next hlt => rw [List.getElem?_eq_none (Nat.not_lt.mp hlt)]

theorem RecordAt.initrdInit_eq (h : RecordAt image ino r) (hmagic : read32 image 0 = headMagic)
    (hoffset : read32 image 4 = ino) (hbody : r.body = .dir children) (hnodes : v.nodes = []) :
    initrdInit v image = { v with image := image, nodes := [recordNode image ino] } := by
  have htype : ¬r.body.type = initrdfsFile := by
    rw [hbody]
    exact (by decide : ¬initrdfsDir = initrdfsFile)
  have hfind : findFsNodeByIno { v with image := image } ino = none := by
    rw [findFsNodeByIno, hnodes]
    rfl
  simp only [initrdInit, hmagic, hoffset, h.fileHead_eq, ne_eq, not_true_eq_false, if_false, hfind,
    Option.isSome_none, Bool.false_eq_true, htype]
  rw [initrdCreateNode, hfind, hnodes]
  rfl

theorem RecordAt.contents_at (h : RecordAt image ino r) (hbody : r.body = .file contents) :
    BytesAt image (payloadAt image ino) contents := by
  obtain ⟨-, -, hpayload⟩ := h.fields
  rw [h.payloadAt_eq]
  rw [hbody] at hpayload
  exact hpayload

def Tree.name (t : Tree) (ino : Word) : List Byte := ((t.record ino).map Record.name).getD []

def Tree.entries (t : Tree) (ino : Word) : List Dirent :=
  match (t.record ino).map Record.body with
  | some (.dir children) => children.map fun c => ⟨t.name c, c⟩
  | _ => []

def Tree.child (t : Tree) (ino : Word) (part : List Byte) : Option Word :=
  ((t.entries ino).find? (·.name = part)).map (·.ino)

def Tree.lookup (t : Tree) (ino : Word) : List (List Byte) → Option Word
  | [] => some ino
  | part :: parts => (t.child ino part).bind fun c => t.lookup c parts

theorem Tree.entries_eq (hr : t.record ino = some r) (hbody : r.body = .dir children) :
    t.entries ino = children.map fun c => ⟨t.name c, c⟩ := by
  simp only [Tree.entries, hr, Option.map_some, hbody]

theorem Tree.entries_file (hr : t.record ino = some r) (hbody : r.body = .file contents) :
    t.entries ino = [] := by
  simp only [Tree.entries, hr, Option.map_some, hbody]

theorem Tree.mem_entries {dir : Dirent} (hmem : dir ∈ t.entries ino) :
    ∃ r, t.record dir.ino = some r ∧ dir.name = r.name ∧ t.rank dir.ino < t.rank ino := by
  cases hr : t.record ino with
  | none => simp [Tree.entries, hr] at hmem
  | some r =>
    cases hbody : r.body with
    | file contents => simp [Tree.entries, hr, hbody] at hmem
    | dir children =>
      rw [Tree.entries_eq hr hbody] at hmem
      obtain ⟨d, hd, rfl⟩ := List.mem_map.mp hmem
      obtain ⟨hsome, hrank⟩ := t.below _ _ _ hr hbody d hd
      obtain ⟨r', hr'⟩ := Option.isSome_iff_exists.mp hsome
      refine ⟨r', hr', ?_, hrank⟩
      rw [Tree.name, hr', Option.map_some, Option.getD_some]

theorem Tree.child_some (hc : t.child ino part = some c) :
    ⟨part, c⟩ ∈ t.entries ino := by
  obtain ⟨dir, hdir, rfl⟩ := Option.map_eq_some_iff.mp hc
  have hname := List.find?_some hdir
  rw [decide_eq_true_eq] at hname
  rw [← hname]
  exact List.mem_of_find?_eq_some hdir

theorem Tree.child_isSome :
    (t.child ino part).isSome ↔ ∃ dir ∈ t.entries ino, dir.name = part := by
  rw [Tree.child, Option.isSome_map, List.find?_isSome]
  simp only [decide_eq_true_eq]

end RubiKernel.Vfs
