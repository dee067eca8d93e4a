import RubiKernel.Lib.Layout
import RubiKernel.Vfs.Image

/-! `tools/initrd_builder.py`: the image written for a directory, and the records it
consists of. -/

namespace RubiKernel.Builder

open Memory Layout Vfs

def headerMagic : Nat := 0xABCDABCD

def fileMagic : Nat := 0xAABBCCDD

def fsFile : Byte := 1

def fsDirectory : Byte := 2

/-- A name is a `str`, by its code points. -/
structure HostFile where
  name : List Char
  contents : List Byte

structure HostDir where
  name : List Char
  files : List HostFile

/-- The input directory as `os.walk` visits it, down to the files of its
sub-directories; what lies deeper is skipped. -/
structure HostTree where
  files : List HostFile
  subdirs : List HostDir

def encodeName (name : List Char) : List Byte :=
  name.flatMap fun c => (String.utf8EncodeChar c).map UInt8.toBitVec

/-- `struct.pack` of a number, which has to fit. -/
def packI (n : Nat) : Option (List Byte) :=
  if n < 2 ^ 32 then some (bytes32 (BitVec.ofNat 32 n)) else none

def packPointers : List Nat → Option (List Byte)
  | [] => some []
  | p :: ps => do return (← packI p) ++ (← packPointers ps)

/-- A file head, the name and what follows it. -/
def packRecord (size : Nat) (name : List Char) (type : Byte) (payload : List Byte) :
    Option (List Byte) := do
  return (← packI fileMagic) ++ ((← packI size) ++ ((← packI name.length) ++
    ([type] ++ (encodeName name ++ payload))))

/-- The keys of `final_nodes`, each by its `os.path.dirname` and its file. -/
def finalNodes (inp : HostTree) : List (List Char × HostFile) :=
  inp.files.map (Prod.mk []) ++ inp.subdirs.flatMap fun d => d.files.map (Prod.mk d.name)

/-- The loop over `final_nodes`: `data`, and the offsets by their `os.path.dirname`. -/
def packFiles (data : List Byte) : List (List Char × HostFile) →
    Option (List Byte × List (List Char × Nat))
  | [] => some (data, [])
  | (dir, f) :: rest => do
    let record ← packRecord f.contents.length f.name fsFile f.contents
    let r ← packFiles (data ++ record) rest
    return (r.1, (dir, data.length) :: r.2)

/-- The loop over `dirs`: `data`, and the offsets of the directories. -/
def packDirs (nodes : List (List Char × Nat)) (data : List Byte) : List HostDir →
    Option (List Byte × List Nat)
  | [] => some (data, [])
  | d :: rest => do
    let ptrs := (nodes.filter (·.1 = d.name)).map Prod.snd
    let record ← packRecord ptrs.length d.name fsDirectory (← packPointers ptrs)
    let r ← packDirs nodes (data ++ record) rest
    return (r.1, data.length :: r.2)

/-- The bytes of the image; without a sub-directory there is no `dirs["/"]`. -/
def build (inp : HostTree) : Option (List Byte) :=
  if inp.subdirs = [] then none
  else do
    let (data, nodes) ← packFiles ((← packI headerMagic) ++ (← packI 1337)) (finalNodes inp)
    let (data, ptrs) ← packDirs nodes data inp.subdirs
    let root ← packRecord ptrs.length [Char.ofNat 47] fsDirectory (← packPointers ptrs)
    return ((← packI headerMagic) ++ (← packI data.length)) ++ (data ++ root).drop 8

variable {name : List Char} {n base : Nat} {ps : List Nat} {data : List Byte} {b : Body}
  {f : HostFile} {d : HostDir} {inp : HostTree} {nodes : List (List Char × Nat)}
  {fs : List (List Char × HostFile)} {ds : List HostDir}

/-- A name of some ASCII characters without a separator. -/
structure Plain (name : List Char) : Prop where
  nonempty : name ≠ []
  short : name.length < nodeNameSize
  ascii : ∀ c ∈ name, c.toNat < 128
  noNul : ∀ c ∈ name, c.toNat ≠ 0
  noSlash : ∀ c ∈ name, c.toNat ≠ 47

theorem Plain.encodeName_eq (h : Plain name) :
    encodeName name = name.map fun c => BitVec.ofNat 8 c.toNat := by
  have hchar : ∀ c ∈ name, (String.utf8EncodeChar c).map UInt8.toBitVec =
      [BitVec.ofNat 8 c.toNat] := by
    intro c hc
    have hle : c.val ≤ 0x7f := UInt32.le_iff_toNat_le.mpr (Nat.le_of_lt_succ (h.ascii c hc))
    have hsize : c.utf8Size = 1 := if_pos hle
    rw [String.utf8EncodeChar_eq_singleton hsize, List.map_singleton]
    rfl
  rw [encodeName, List.flatMap_congr hchar, List.map_eq_flatMap]

theorem Plain.length_encodeName (h : Plain name) : (encodeName name).length = name.length := by
  rw [h.encodeName_eq, List.length_map]

theorem Plain.not_mem (h : Plain name) {k : Nat} (hk : k < 128)
    (hne : ∀ c ∈ name, c.toNat ≠ k) : BitVec.ofNat 8 k ∉ encodeName name := by
  rw [h.encodeName_eq]
  intro hmem
  obtain ⟨c, hc, heq⟩ := List.mem_map.mp hmem
  have hnat := congrArg BitVec.toNat heq
  have hascii := h.ascii c hc
  rw [BitVec.toNat_ofNat, BitVec.toNat_ofNat] at hnat
  exact hne c hc (by omega)

theorem Plain.encodeName_inj {name' : List Char} (h : Plain name) (h' : Plain name')
    (heq : encodeName name = encodeName name') : name = name' := by
  have hlen := congrArg List.length heq
  rw [h.length_encodeName, h'.length_encodeName] at hlen
  refine List.ext_getElem hlen fun i hi hi' => ?_
  rw [h.encodeName_eq, h'.encodeName_eq] at heq
  have hbyte := List.getElem_of_eq heq (i := i) (by simpa using hi)
  rw [List.getElem_map, List.getElem_map] at hbyte
  have hnat := congrArg BitVec.toNat hbyte
  have hascii := h.ascii _ (List.getElem_mem hi)
  have hascii' := h'.ascii _ (List.getElem_mem hi')
  rw [BitVec.toNat_ofNat, BitVec.toNat_ofNat] at hnat
  exact Char.toNat_inj.mp (by omega)

theorem Plain.recordOf_name (h : Plain name) (b : Body) :
    (recordOf (encodeName name) b).name = encodeName name := by
  have hlen := h.length_encodeName
  have hnonempty : encodeName name ≠ [] := by
    rw [ne_eq, ← List.length_eq_zero_iff, hlen, List.length_eq_zero_iff]
    exact h.nonempty
  have hshort : (encodeName name).length < nodeNameSize := hlen ▸ h.short
  rw [recordOf, dif_pos ⟨hnonempty, hshort, h.not_mem (by decide) h.noNul⟩]

theorem packI_of_lt (h : n < 2 ^ 32) : packI n = some (bytes32 (BitVec.ofNat 32 n)) := if_pos h

theorem packPointers_of_lt (h : ∀ p ∈ ps, p < 2 ^ 32) :
    packPointers ps = some ((ps.map (BitVec.ofNat 32)).flatMap bytes32) := by
  induction ps with
  | nil => rfl
  | cons p ps ih =>
    obtain ⟨hp, hps⟩ := List.forall_mem_cons.mp h
    rw [packPointers, packI_of_lt hp, ih hps]
    rfl

theorem packRecord_eq (hname : (recordOf (encodeName name) b).name = encodeName name)
    (hlen : (encodeName name).length = name.length) (hsize : b.size < 2 ^ 32) :
    packRecord b.size name b.type b.payload = some (recordOf (encodeName name) b).encode := by
  have hshort := (recordOf (encodeName name) b).short
  rw [hname, hlen] at hshort
  have hlt : name.length < 2 ^ 32 := hshort.trans (by decide)
  rw [packRecord, packI_of_lt (by decide), packI_of_lt hsize, packI_of_lt hlt, Record.encode,
    hname, recordOf_body, hlen]
  rfl

theorem Plain.packRecord_eq (h : Plain name) (hsize : b.size < 2 ^ 32) :
    packRecord b.size name b.type b.payload = some (recordOf (encodeName name) b).encode :=
  Builder.packRecord_eq (h.recordOf_name b) h.length_encodeName hsize

def fileRecord (e : List Char × HostFile) : Record :=
  recordOf (encodeName e.2.name) (.file e.2.contents)

def dirRecord (nodes : List (List Char × Nat)) (d : HostDir) : Record :=
  recordOf (encodeName d.name)
    (.dir (((nodes.filter (·.1 = d.name)).map Prod.snd).map (BitVec.ofNat 32)))

theorem payload_le_encode (r : Record) : r.body.payload.length ≤ r.encode.length := by
  rw [r.encode_length]
  omega

theorem packFiles_eq (data : List Byte) (hplain : ∀ e ∈ fs, Plain e.2.name)
    (hlen : data.length + (fs.map fun e => (fileRecord e).encode.length).sum < 2 ^ 32) :
    packFiles data fs = some (data ++ fs.flatMap fun e => (fileRecord e).encode,
      (layout (fun e => (fileRecord e).encode.length) data.length fs).map
        fun e => (e.1.1, e.2)) := by
  induction fs generalizing data with
  | nil => simp [packFiles, layout]
  | cons e fs ih =>
    obtain ⟨he, hplain⟩ := List.forall_mem_cons.mp hplain
    rw [List.map_cons, List.sum_cons] at hlen
    have hsize := payload_le_encode (fileRecord e)
    rw [fileRecord, recordOf_body] at hsize
    have hrecord := he.packRecord_eq (b := .file e.2.contents) (by
      show e.2.contents.length < _
      have hle : e.2.contents.length ≤ (fileRecord e).encode.length := hsize
      omega)
    have hrest := ih (data ++ (fileRecord e).encode) hplain (by
      rw [List.length_append]
      omega)
    rw [List.length_append] at hrest
    obtain ⟨dir, f⟩ := e
    rw [packFiles, show packRecord f.contents.length f.name fsFile f.contents =
      some (fileRecord (dir, f)).encode from hrecord]
    simp only [Option.bind_eq_bind, Option.bind_some, hrest]
    simp [layout]

theorem packDir_eq (ps : List Nat)
    (hname : (recordOf (encodeName name) (.dir (ps.map (BitVec.ofNat 32)))).name = encodeName name)
    (hlen : (encodeName name).length = name.length)
    (hps : ∀ p ∈ ps, p < 2 ^ 32) (hcount : ps.length < 2 ^ 32) :
    (packPointers ps).bind (packRecord ps.length name fsDirectory) =
      some (recordOf (encodeName name) (.dir (ps.map (BitVec.ofNat 32)))).encode := by
  have hsize : (Body.dir (ps.map (BitVec.ofNat 32))).size = ps.length := List.length_map _
  have hrecord := packRecord_eq hname hlen (hsize ▸ hcount)
  rw [hsize] at hrecord
  rw [packPointers_of_lt hps]
  exact hrecord

theorem packDirs_eq (data : List Byte) (hplain : ∀ d ∈ ds, Plain d.name)
    (hnodes : ∀ e ∈ nodes, e.2 < 2 ^ 32)
    (hlen : data.length + (ds.map fun d => (dirRecord nodes d).encode.length).sum < 2 ^ 32) :
    packDirs nodes data ds = some (data ++ ds.flatMap fun d => (dirRecord nodes d).encode,
      (layout (fun d => (dirRecord nodes d).encode.length) data.length ds).map Prod.snd) := by
  induction ds generalizing data with
  | nil => simp [packDirs, layout]
  | cons d ds ih =>
    obtain ⟨hd, hplain⟩ := List.forall_mem_cons.mp hplain
    rw [List.map_cons, List.sum_cons] at hlen
    have hsize := payload_le_encode (dirRecord nodes d)
    rw [dirRecord, recordOf_body, payload_dir_length, List.length_map] at hsize
    have hrecord := packDir_eq ((nodes.filter (·.1 = d.name)).map Prod.snd)
      (hd.recordOf_name _) hd.length_encodeName (by
        intro p hp
        obtain ⟨e, he, rfl⟩ := List.mem_map.mp hp
        exact hnodes e (List.mem_of_mem_filter he)) (by
        have hle : 4 * ((nodes.filter (·.1 = d.name)).map Prod.snd).length ≤
          (dirRecord nodes d).encode.length := hsize
        omega)
    have hrest := ih (data ++ (dirRecord nodes d).encode) hplain (by
      rw [List.length_append]
      omega)
    rw [List.length_append] at hrest
    obtain ⟨payload, hpayload, hpack⟩ := Option.bind_eq_some_iff.mp hrecord
    simp only [packDirs, Option.bind_eq_bind, hpayload, Option.bind_some, hpack]
    rw [show (recordOf (encodeName d.name) (.dir (((nodes.filter (·.1 = d.name)).map
      Prod.snd).map (BitVec.ofNat 32)))).encode = (dirRecord nodes d).encode from rfl, hrest]
    simp [layout]

def fileEntries (inp : HostTree) : List ((List Char × HostFile) × Nat) :=
  layout (fun e => (fileRecord e).encode.length) 8 (finalNodes inp)

def fileNodes (inp : HostTree) : List (List Char × Nat) :=
  (fileEntries inp).map fun e => (e.1.1, e.2)

def dirBase (inp : HostTree) : Nat :=
  8 + ((finalNodes inp).map fun e => (fileRecord e).encode.length).sum

def dirEntries (inp : HostTree) : List (HostDir × Nat) :=
  layout (fun d => (dirRecord (fileNodes inp) d).encode.length) (dirBase inp) inp.subdirs

def rootOffset (inp : HostTree) : Nat :=
  dirBase inp + (inp.subdirs.map fun d => (dirRecord (fileNodes inp) d).encode.length).sum

def rootRecord (inp : HostTree) : Record :=
  recordOf [slash] (.dir (((dirEntries inp).map Prod.snd).map (BitVec.ofNat 32)))

def allRecords (inp : HostTree) : List Record :=
  (finalNodes inp).map fileRecord ++ inp.subdirs.map (dirRecord (fileNodes inp)) ++ [rootRecord inp]

/-- The input of the builder: some sub-directories with files, under plain names. -/
structure Packable (inp : HostTree) : Prop where
  nonempty : inp.subdirs ≠ []
  files : ∀ e ∈ finalNodes inp, Plain e.2.name
  dirs : ∀ d ∈ inp.subdirs, Plain d.name

def fileBytes (inp : HostTree) : List Byte :=
  (finalNodes inp).flatMap fun e => (fileRecord e).encode

def dirBytes (inp : HostTree) : List Byte :=
  inp.subdirs.flatMap fun d => (dirRecord (fileNodes inp) d).encode

theorem allRecords_encode (inp : HostTree) : (allRecords inp).flatMap Record.encode =
    fileBytes inp ++ dirBytes inp ++ (rootRecord inp).encode := by
  simp only [allRecords, fileBytes, dirBytes, List.flatMap_append, List.flatMap_map,
    List.flatMap_singleton]

theorem length_fileBytes (inp : HostTree) : 8 + (fileBytes inp).length = dirBase inp := by
  rw [fileBytes, List.length_flatMap, dirBase]

theorem length_dirBytes (inp : HostTree) :
    8 + (fileBytes inp ++ dirBytes inp).length = rootOffset inp := by
  rw [List.length_append, ← Nat.add_assoc, length_fileBytes, dirBytes, List.length_flatMap,
    rootOffset]

theorem offset_lt_of_mem_fileNodes {e : List Char × Nat} (he : e ∈ fileNodes inp) :
    8 ≤ e.2 ∧ e.2 < dirBase inp := by
  obtain ⟨x, hx, rfl⟩ := List.mem_map.mp he
  have hbounds := bounds_of_mem_layout hx
  have hpos := (fileRecord x.1).encode_length
  unfold dirBase
  simp only at hbounds ⊢
  omega

theorem offset_lt_of_mem_dirEntries {e : HostDir × Nat} (he : e ∈ dirEntries inp) :
    dirBase inp ≤ e.2 ∧ e.2 < rootOffset inp := by
  have hbounds := bounds_of_mem_layout he
  have hpos := (dirRecord (fileNodes inp) e.1).encode_length
  unfold rootOffset
  omega

def header (n : Nat) : List Byte := bytes32 Vfs.headMagic ++ bytes32 (BitVec.ofNat 32 n)

theorem packRoot_eq (hroot : rootOffset inp + (rootRecord inp).encode.length < 2 ^ 32) :
    (packPointers ((dirEntries inp).map Prod.snd)).bind
        (packRecord ((dirEntries inp).map Prod.snd).length [Char.ofNat 47] fsDirectory) =
      some (rootRecord inp).encode := by
  have hptrs := payload_le_encode (rootRecord inp)
  rw [rootRecord, recordOf_body, payload_dir_length, List.length_map] at hptrs
  have hcount : 4 * ((dirEntries inp).map Prod.snd).length ≤ (rootRecord inp).encode.length := hptrs
  refine packDir_eq _ rfl (by decide) (fun p hp => ?_) (by omega)
  obtain ⟨e, he, rfl⟩ := List.mem_map.mp hp
  have hlt := (offset_lt_of_mem_dirEntries he).2
  omega

theorem build_eq (h : Packable inp)
    (hsize : rootOffset inp + (rootRecord inp).encode.length < 2 ^ 32) :
    build inp = some (header (rootOffset inp) ++ (allRecords inp).flatMap Record.encode) := by
  have hroot : rootOffset inp < 2 ^ 32 := by omega
  have hbase : dirBase inp ≤ rootOffset inp := Nat.le_add_right _ _
  have hlen₁ : (header 1337 ++ fileBytes inp).length = dirBase inp := by
    rw [List.length_append, ← length_fileBytes]
    rfl
  have hlen₂ : (header 1337 ++ fileBytes inp ++ dirBytes inp).length = rootOffset inp := by
    rw [List.append_assoc, List.length_append, ← length_dirBytes]
    rfl
  have hfiles : packFiles (header 1337) (finalNodes inp) =
      some (header 1337 ++ fileBytes inp, fileNodes inp) :=
    packFiles_eq _ h.files (lt_of_le_of_lt hbase hroot)
  have hdirs : packDirs (fileNodes inp) (header 1337 ++ fileBytes inp) inp.subdirs =
      some (header 1337 ++ fileBytes inp ++ dirBytes inp, (dirEntries inp).map Prod.snd) := by
    have hnodes : ∀ e ∈ fileNodes inp, e.2 < 2 ^ 32 := fun e he =>
      (offset_lt_of_mem_fileNodes he).2.trans_le (hbase.trans hroot.le)
    rw [packDirs_eq _ h.dirs hnodes (by rwa [hlen₁]), hlen₁]
    rfl
  obtain ⟨payload, hpayload, hrecord⟩ := Option.bind_eq_some_iff.mp (packRoot_eq hsize)
  have hdrop : (header 1337 ++ fileBytes inp ++ dirBytes inp ++ (rootRecord inp).encode).drop 8 =
      (allRecords inp).flatMap Record.encode := by
    rw [allRecords_encode, List.append_assoc, List.append_assoc, List.append_assoc]
    exact (List.drop_left : List.drop (header 1337).length (header 1337 ++ _) = _)
  have hmagic : BitVec.ofNat 32 headerMagic = Vfs.headMagic := rfl
  rw [build, if_neg h.nonempty]
  simp only [packI_of_lt (show headerMagic < 2 ^ 32 by decide),
    packI_of_lt (show 1337 < 2 ^ 32 by decide), Option.bind_eq_bind, Option.bind_some, hmagic]
  rw [show bytes32 Vfs.headMagic ++ bytes32 (BitVec.ofNat 32 1337) = header 1337 from rfl, hfiles]
  simp only [Option.bind_some, hdirs, hpayload, hrecord, hlen₂, packI_of_lt hroot, hdrop]
  rfl

end RubiKernel.Builder
