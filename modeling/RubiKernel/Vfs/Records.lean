import RubiKernel.Vfs.Builder
import RubiKernel.Vfs.Resolve

/-! A record of the builder under any name, as the driver finds it: the size of the name
counts its characters, and the name is written in UTF-8. -/

namespace RubiKernel.Builder

open Memory Vfs

variable {name : List Char} {size : Nat} {type : Byte} {payload record : List Byte}
  {image : Memory} {ino : Word} {c : Char}

/-- The bytes that `name_size` of the record counts, from the end of the head on. -/
def nameBytes (image : Memory) (ino : Word) : List Byte :=
  (List.range (fileHead image ino).nameSize.toNat).map fun i =>
    image (ino + 13 + BitVec.ofNat 32 i)

structure LaidOut (image : Memory) (ino : Word) (name : List Char) (payload : List Byte) :
    Prop where
  name : nameBytes image ino = encodeName name
  payload : BytesAt image (payloadAt image ino) payload

theorem length_utf8EncodeChar (c : Char) :
    ((String.utf8EncodeChar c).map UInt8.toBitVec).length = c.utf8Size := by
  rw [List.length_map, String.length_utf8EncodeChar]

theorem utf8Size_eq_one_iff : c.utf8Size = 1 ↔ c.toNat < 128 := by
  have hascii : c.utf8Size = 1 ↔ c.val ≤ 0x7f := Char.utf8Size_eq_one_iff
  rw [hascii, UInt32.le_iff_toNat_le]
  exact Nat.lt_succ_iff.symm

theorem length_encodeName_cons (c : Char) (name : List Char) :
    (encodeName (c :: name)).length = c.utf8Size + (encodeName name).length := by
  rw [encodeName, List.flatMap_cons, List.length_append, length_utf8EncodeChar]
  rfl

theorem length_le_encodeName (name : List Char) : name.length ≤ (encodeName name).length := by
  induction name with
  | nil => exact Nat.le_refl 0
  | cons c name ih =>
    have hpos := c.utf8Size_pos
    rw [length_encodeName_cons, List.length_cons]
    omega

theorem length_encodeName_iff (name : List Char) :
    (encodeName name).length = name.length ↔ ∀ c ∈ name, c.toNat < 128 := by
  induction name with
  | nil => simp [encodeName]
  | cons c name ih =>
    have hpos := c.utf8Size_pos
    have hle := length_le_encodeName name
    rw [length_encodeName_cons, List.length_cons, List.forall_mem_cons, ← ih,
      ← utf8Size_eq_one_iff]
    omega

theorem packI_eq_some {n : Nat} {bytes : List Byte} (h : packI n = some bytes) :
    bytes = bytes32 (BitVec.ofNat 32 n) := by
  rw [packI] at h
  split at h
  · exact (Option.some.inj h).symm
  · cases h

theorem packRecord_eq_some (h : packRecord size name type payload = some record) :
    record = bytes32 Vfs.fileMagic ++ (bytes32 (BitVec.ofNat 32 size) ++
      (bytes32 (BitVec.ofNat 32 name.length) ++ ([type] ++ (encodeName name ++ payload)))) := by
  simp only [packRecord, Option.bind_eq_bind, Option.bind_eq_some_iff] at h
  obtain ⟨magic, hmagic, sizes, hsize, names, hname, heq⟩ := h
  rw [← Option.some.inj heq, packI_eq_some hmagic, packI_eq_some hsize, packI_eq_some hname]
  rfl

theorem packed_fields (h : packRecord size name type payload = some record)
    (hat : BytesAt image ino record) :
    (fileHead image ino).nameSize = BitVec.ofNat 32 name.length ∧
      BytesAt image (ino + 13) (encodeName name) ∧
      BytesAt image (ino + 13 + BitVec.ofNat 32 (encodeName name).length) payload := by
  rw [packRecord_eq_some h] at hat
  obtain ⟨hhead, hrest⟩ := fileHead_of_bytesAt
    ⟨Vfs.fileMagic, BitVec.ofNat 32 size, BitVec.ofNat 32 name.length, type⟩ hat
  obtain ⟨hname, hpayload⟩ := bytesAt_append.mp hrest
  exact ⟨by rw [hhead], hname, hpayload⟩

/-- The driver finds the name and the payload of a record where the builder has written
them exactly when the name is ASCII. -/
theorem packed_record_iff (hshort : (encodeName name).length < nodeNameSize)
    (hpack : packRecord size name type payload = some record)
    (hat : BytesAt image ino record) :
    LaidOut image ino name payload ↔ ∀ c ∈ name, c.toNat < 128 := by
  obtain ⟨hsize, hname, hpayload⟩ := packed_fields hpack hat
  have hle := length_le_encodeName name
  have hnat : (fileHead image ino).nameSize.toNat = name.length := by
    have hlt : name.length < 2 ^ 32 := (hle.trans_lt hshort).trans (by decide)
    rw [hsize, Word.toNat_ofNat hlt]
  rw [← length_encodeName_iff]
  constructor
  · intro h
    have hlen := congrArg List.length h.name
    rw [nameBytes, List.length_map, List.length_range, hnat] at hlen
    exact hlen.symm
  · intro hlen
    refine ⟨?_, ?_⟩
    · rw [nameBytes, hnat, ← hlen, hname.map_range]
    · rw [payloadAt, hsize, ← hlen]
      exact hpayload

def sampleRecord (name : List Char) : Option (List Byte) := packRecord 2 name fsFile [1, 2]

theorem packed_record_iff_example :
    ∃ record, sampleRecord ['i', 'n', 'i', 't'] = some record ∧
      LaidOut (imageOfBytes record) 0 ['i', 'n', 'i', 't'] [1, 2] := by
  obtain ⟨record, hpack⟩ :=
    Option.isSome_iff_exists.mp (show (sampleRecord ['i', 'n', 'i', 't']).isSome by decide)
  have hlen : record.length ≤ 2 ^ 32 := by
    rw [packRecord_eq_some hpack]
    decide
  exact ⟨record, hpack,
    (packed_record_iff (by decide) hpack (bytesAt_imageOfBytes hlen)).mpr (by simp)⟩

/-- A letter of two bytes: the name loses its last byte, which the payload begins with. -/
theorem long_letter_misplaced : ¬∀ name size type payload record image ino,
    0 < (encodeName name).length → (encodeName name).length < nodeNameSize →
    packRecord size name type payload = some record → BytesAt image ino record →
    LaidOut image ino name payload := by
  intro hall
  obtain ⟨record, hpack⟩ :=
    Option.isSome_iff_exists.mp (show (sampleRecord [Char.ofNat 233]).isSome by decide)
  have hlen : record.length ≤ 2 ^ 32 := by
    rw [packRecord_eq_some hpack]
    decide
  have hat := bytesAt_imageOfBytes hlen
  have h := (hall _ _ _ _ record _ _ (by decide) (by decide) hpack hat).name
  have hsize := (packed_fields hpack hat).1
  have hcount := congrArg List.length h
  rw [nameBytes, hsize, List.length_map, List.length_range] at hcount
  exact absurd hcount (by decide)

end RubiKernel.Builder
