import RubiKernel.Vfs.Leftover
import RubiKernel.Vfs.Listing
import RubiKernel.Vfs.RoundTrip

/-! The file records that `tools/initrd_builder.py` writes, and which of them the kernel
can reach: the files one level below the input directory, but not those in it. -/

namespace RubiKernel.Builder

open Memory Layout Fields Vfs

/-- The offsets in `final_nodes` after the loop over it. -/
def fileOffsets (inp : HostTree) : List Nat :=
  ((packFiles (header 1337) (finalNodes inp)).map fun r => r.2.map Prod.snd).getD []

/-- The relative path of a file, for the kernel. -/
def kernelPath (e : List Char × HostFile) : List Byte :=
  if e.1 = [] then dirPath (encodeName e.2.name) else filePath (encodeName e.1) (encodeName e.2.name)

/-- A directory that the root leads to lists the record at `o` under the name of the file,
and the path of the file leads to the record. -/
structure Reached (v : FsState) (e : List Char × HostFile) (o : Word) : Prop where
  listed : ∃ ino num, Listed v.image ino ∧
    initrdReaddir v (recordNode v.image ino) num = some ⟨encodeName e.2.name, o⟩
  resolved : ∃ node, nodeOf (resolvePath v (kernelPath e)) = some (some node) ∧ node.inode = o

/-- Every file record of the image is reached, after any calls of `resolve_path`. -/
def AllReached (inp : HostTree) (data : List Byte) : Prop :=
  ∀ image v₀ paths, BytesAt image 0 data → v₀.nodes = [] →
    ∀ x ∈ (finalNodes inp).zip (fileOffsets inp),
      Reached (resolved (initrdInit v₀ image) paths) x.1 (BitVec.ofNat 32 x.2)

variable {inp : HostTree} {n : Nat} {ps ptrs : List Nat} {bytes data data' payload : List Byte}
  {name : List Char} {type : Byte} {fs : List (List Char × HostFile)} {ds : List HostDir}
  {nodes : List (List Char × Nat)} {image : Memory} {v : FsState} {node : FsNode} {ino c o : Word}
  {p part : List Byte} {f : HostFile} {e : List Char × HostFile}

theorem eq_of_packI (h : packI n = some bytes) :
    n < 2 ^ 32 ∧ bytes32 (BitVec.ofNat 32 n) = bytes := by
  obtain ⟨hlt, heq⟩ := Option.ite_none_right_eq_some.mp h
  exact ⟨hlt, Option.some.inj heq⟩

theorem lt_of_packPointers (h : packPointers ps = some bytes) : ∀ p ∈ ps, p < 2 ^ 32 := by
  induction ps generalizing bytes with
  | nil => exact List.forall_mem_nil _
  | cons p ps ih =>
    obtain ⟨b, hb, h⟩ := Option.bind_eq_some_iff.mp h
    obtain ⟨bs, hbs, -⟩ := Option.bind_eq_some_iff.mp h
    exact List.forall_mem_cons.mpr ⟨(eq_of_packI hb).1, ih hbs⟩

theorem packRecord_pos (h : packRecord n name type payload = some bytes) :
    n < 2 ^ 32 ∧ 0 < bytes.length := by
  simp only [packRecord, packI_of_lt (show fileMagic < 2 ^ 32 by decide), Option.bind_eq_bind,
    Option.bind_some] at h
  obtain ⟨size, hsize, h⟩ := Option.bind_eq_some_iff.mp h
  obtain ⟨nameSize, -, h⟩ := Option.bind_eq_some_iff.mp h
  obtain rfl := Option.some.inj h
  refine ⟨(eq_of_packI hsize).1, ?_⟩
  simp only [List.length_append, List.length_cons]
  omega

theorem packFiles_bounds (h : packFiles data fs = some (data', nodes)) :
    data.length ≤ data'.length ∧ nodes.length = fs.length ∧ ∀ e ∈ nodes, e.2 < data'.length := by
  induction fs generalizing data data' nodes with
  | nil =>
    obtain ⟨rfl, rfl⟩ := Prod.mk.inj (Option.some.inj h)
    exact ⟨le_rfl, rfl, List.forall_mem_nil _⟩
  | cons e fs ih =>
    obtain ⟨record, hrecord, h⟩ := Option.bind_eq_some_iff.mp h
    obtain ⟨⟨data₁, nodes₁⟩, hrest, h⟩ := Option.bind_eq_some_iff.mp h
    obtain ⟨rfl, rfl⟩ := Prod.mk.inj (Option.some.inj h)
    have hpos := (packRecord_pos hrecord).2
    obtain ⟨hle, hlen, hlt⟩ := ih hrest
    rw [List.length_append] at hle
    have hlt₁ : data.length < data₁.length := by omega
    exact ⟨hlt₁.le, by simp [hlen], List.forall_mem_cons.mpr ⟨hlt₁, hlt⟩⟩

theorem packDirs_bounds (h : packDirs nodes data ds = some (data', ptrs)) :
    data.length ≤ data'.length ∧ ∀ p ∈ ptrs, data.length ≤ p ∧ p < data'.length := by
  induction ds generalizing data data' ptrs with
  | nil =>
    obtain ⟨rfl, rfl⟩ := Prod.mk.inj (Option.some.inj h)
    exact ⟨le_rfl, List.forall_mem_nil _⟩
  | cons d ds ih =>
    obtain ⟨payload, -, h⟩ := Option.bind_eq_some_iff.mp h
    obtain ⟨record, hrecord, h⟩ := Option.bind_eq_some_iff.mp h
    obtain ⟨⟨data₁, ptrs₁⟩, hrest, h⟩ := Option.bind_eq_some_iff.mp h
    obtain ⟨rfl, rfl⟩ := Prod.mk.inj (Option.some.inj h)
    have hpos := (packRecord_pos hrecord).2
    obtain ⟨hle, hptrs⟩ := ih hrest
    rw [List.length_append] at hle hptrs
    have hlt₁ : data.length < data₁.length := by omega
    refine ⟨hlt₁.le, List.forall_mem_cons.mpr ⟨⟨le_rfl, hlt₁⟩, fun p hp => ?_⟩⟩
    obtain ⟨hle, hlt⟩ := hptrs p hp
    exact ⟨by omega, hlt⟩

def rootOf (ptrs : List Nat) : Record := recordOf [slash] (.dir (ptrs.map (BitVec.ofNat 32)))

/-- What the image of a directory consists of: the root, behind `body`, points behind the
files. -/
structure Layered (inp : HostTree) (data body : List Byte) (ptrs : List Nat) : Prop where
  data_eq : data = header body.length ++ ((body ++ (rootOf ptrs).encode).drop 8)
  fits : body.length < 2 ^ 32
  start : 8 ≤ body.length
  offsets : (fileOffsets inp).length = (finalNodes inp).length
  ptrs : ∀ p ∈ ptrs, p < body.length ∧ ∀ o ∈ fileOffsets inp, o < p
  files : ∀ o ∈ fileOffsets inp, o < body.length

theorem layered_of_build (h : build inp = some data) : ∃ body ptrs, Layered inp data body ptrs := by
  rw [build] at h
  split at h
  · cases h
  · simp only [packI_of_lt (show headerMagic < 2 ^ 32 by decide),
      packI_of_lt (show 1337 < 2 ^ 32 by decide), Option.bind_eq_bind, Option.bind_some] at h
    obtain ⟨⟨data₁, nodes⟩, hfiles, h⟩ := Option.bind_eq_some_iff.mp h
    obtain ⟨⟨data₂, ptrs⟩, hdirs, h⟩ := Option.bind_eq_some_iff.mp h
    obtain ⟨payload, hpayload, h⟩ := Option.bind_eq_some_iff.mp h
    obtain ⟨root, hroot, h⟩ := Option.bind_eq_some_iff.mp h
    obtain ⟨offset, hoffset, h⟩ := Option.bind_eq_some_iff.mp h
    obtain ⟨hfits, rfl⟩ := eq_of_packI hoffset
    obtain rfl := Option.some.inj h
    have hoffsets : fileOffsets inp = nodes.map Prod.snd :=
      congrArg (fun r => (r.map fun r => r.2.map Prod.snd).getD []) hfiles
    obtain ⟨hle₁, hcount, hbefore⟩ := packFiles_bounds hfiles
    obtain ⟨hle₂, hbetween⟩ := packDirs_bounds hdirs
    have hrootOf : root = (rootOf ptrs).encode := by
      have hpack : (packPointers ptrs).bind (packRecord ptrs.length [Char.ofNat 47] fsDirectory) =
          some (rootOf ptrs).encode :=
        packDir_eq ptrs rfl (by decide) (lt_of_packPointers hpayload) (packRecord_pos hroot).1
      rw [hpayload] at hpack
      exact Option.some.inj (hroot.symm.trans hpack)
    have hmem : ∀ o ∈ fileOffsets inp, o < data₁.length := by
      intro o ho
      rw [hoffsets] at ho
      obtain ⟨e, he, rfl⟩ := List.mem_map.mp ho
      exact hbefore e he
    refine ⟨data₂, ptrs, ?_, hfits, hle₁.trans hle₂, ?_, fun p hp => ?_,
      fun o ho => (hmem o ho).trans_le hle₂⟩
    · rw [hrootOf]
      rfl
    · rw [hoffsets, List.length_map, hcount]
    · obtain ⟨hle, hlt⟩ := hbetween p hp
      exact ⟨hlt, fun o ho => (hmem o ho).trans_le hle⟩

theorem rootOf_body (ptrs : List Nat) : (rootOf ptrs).body = .dir (ptrs.map (BitVec.ofNat 32)) :=
  recordOf_body ..

theorem Layered.recordAt {body : List Byte} (h : Layered inp data body ptrs)
    (himage : BytesAt image 0 data) (hdata : data.length ≤ 2 ^ 32) :
    read32 image 0 = headMagic ∧ read32 image 4 = BitVec.ofNat 32 body.length ∧
      RecordAt image (BitVec.ofNat 32 body.length) (rootOf ptrs) := by
  have hstart := h.start
  have hdrop : (body ++ (rootOf ptrs).encode).drop 8 = body.drop 8 ++ (rootOf ptrs).encode :=
    List.drop_append_of_le_length hstart
  have hlen : (header body.length ++ body.drop 8).length = body.length := by
    rw [List.length_append, List.length_drop]
    show 8 + _ = _
    omega
  have hdata_eq : data = header body.length ++ body.drop 8 ++ (rootOf ptrs).encode := by
    rw [h.data_eq, hdrop, List.append_assoc]
  rw [hdata_eq] at himage hdata
  rw [List.length_append, hlen] at hdata
  obtain ⟨hfront, hroot⟩ := bytesAt_append.mp himage
  obtain ⟨hmagic, hoffset⟩ := bytesAt_append.mp (bytesAt_append.mp hfront).1
  rw [hlen, zero_add] at hroot
  have hnat : (BitVec.ofNat 32 body.length).toNat = body.length := Word.toNat_ofNat h.fits
  exact ⟨hmagic.read32, hoffset.read32, hroot, by rwa [hnat], by rwa [hnat]⟩

theorem searchDir_inode {n count i : Nat} (hn : v.nodes[n]? = some (recordNode v.image ino))
    (h : nodeOf (searchDir v n part count i) = some (some node)) :
    node.inode = ino ∨ ∃ num, entryAt v.image ino num = some node.inode := by
  induction count generalizing i with
  | zero =>
    left
    obtain rfl : recordNode v.image ino = node :=
      Option.some.inj (hn.symm.trans (Option.some.inj h))
    rfl
  | succ count ih =>
    rw [searchDir] at h
    cases hread : readdir v n (BitVec.ofNat 32 i) with
    | none =>
      rw [hread] at h
      cases h
    | some dir =>
      simp only [hread] at h
      split at h
      · right
        have hopen : opennode v n (BitVec.ofNat 32 i) =
            initrdOpenddir v (recordNode v.image ino) (BitVec.ofNat 32 i) := by
          rw [opennode, hn]
          rfl
        rw [hopen, initrdOpenddir_eq] at h
        cases hentry : entryAt v.image (recordNode v.image ino).inode (BitVec.ofNat 32 i) with
        | none =>
          rw [hentry] at h
          cases h
        | some c =>
          rw [hentry] at h
          have hnode' := (initrdCreateNode_node v c).symm.trans (Option.some.inj h)
          obtain rfl := Option.some.inj hnode'
          exact ⟨_, by rw [created_inode]; exact hentry⟩
      · exact ih h

theorem resolvePath_one_inode (hroot : v.nodes[0]? = some (recordNode v.image ino))
    (hp : slash ∉ p) (h : nodeOf (resolvePath v (dirPath p)) = some (some node)) :
    node.inode = ino ∨ ∃ num, entryAt v.image ino num = some node.inode := by
  have hnodes : v.nodes ≠ [] := by
    rintro hnil
    rw [hnil] at hroot
    cases hroot
  rw [dirPath, resolvePath, if_neg (not_not.mpr rfl), if_neg hnodes] at h
  cases p with
  | nil =>
    left
    obtain rfl : recordNode v.image ino = node :=
      Option.some.inj (hroot.symm.trans (Option.some.inj h))
    rfl
  | cons b p =>
    rw [walk, takeWhile_word hp, dropWhile_word hp] at h
    split at h
    · cases h
    · obtain ⟨count, hchild⟩ : ∃ count, findChild v 0 (b :: p) = searchDir v 0 (b :: p) count 0 :=
        ⟨_, by rw [findChild, hroot]⟩
      have hend : nodeOf (searchDir v 0 (b :: p) count 0) = some (some node) := by
        rw [hchild] at h
        generalize searchDir v 0 (b :: p) count 0 = r at h ⊢
        rcases r with ⟨_ | n, v'⟩
        · cases h
        · exact h
      exact searchDir_inode hroot hend

theorem files_eq_nil_of_allReached (hbuild : build inp = some data) (hdata : data.length ≤ 2 ^ 32)
    (hnames : ∀ f ∈ inp.files, slash ∉ encodeName f.name) (h : AllReached inp data) :
    inp.files = [] := by
  obtain ⟨body, ptrs, hlayered⟩ := layered_of_build hbuild
  refine List.eq_nil_iff_forall_not_mem.mpr fun f hf => ?_
  have hmem : ([], f) ∈ finalNodes inp := List.mem_append_left _ (List.mem_map_of_mem hf)
  obtain ⟨k, hk, hget⟩ := List.getElem_of_mem hmem
  have hk' : k < (fileOffsets inp).length := by rwa [hlayered.offsets]
  have hzip : (([], f), (fileOffsets inp)[k]) ∈ (finalNodes inp).zip (fileOffsets inp) := by
    rw [← hget, ← List.getElem_zip (h := by rw [List.length_zip]; omega)]
    exact List.getElem_mem _
  have himage : BytesAt (imageOfBytes data) 0 data := bytesAt_imageOfBytes hdata
  obtain ⟨hmagic, hoffset, hroot⟩ := hlayered.recordAt himage hdata
  have hreached := h (imageOfBytes data) (unmounted []) [] himage rfl _ hzip
  rw [resolved, List.foldl_nil,
    hroot.initrdInit_eq hmagic hoffset (rootOf_body ptrs) (v := unmounted []) rfl] at hreached
  obtain ⟨node, hnode, hino⟩ := hreached.resolved
  rw [kernelPath, if_pos rfl] at hnode
  -- The root points to itself and to the directories, which lie behind the files.
  have hbehind : ∀ q, (∀ o ∈ fileOffsets inp, o < q) → q ≤ body.length →
      BitVec.ofNat 32 (fileOffsets inp)[k] ≠ BitVec.ofNat 32 q := by
    intro q hq hle heq
    have hlt := hq _ (List.getElem_mem hk')
    have hfits := hlayered.fits
    have hnat := congrArg BitVec.toNat heq
    rw [Word.toNat_ofNat (by omega), Word.toNat_ofNat (by omega)] at hnat
    omega
  rcases resolvePath_one_inode rfl (hnames f hf) hnode with hself | ⟨num, hentry⟩
  · exact hbehind _ hlayered.files le_rfl (hino.symm.trans hself)
  · have hptr := hroot.entryAt_dir (rootOf_body ptrs) num.isLt
    rw [BitVec.ofNat_toNat, BitVec.setWidth_eq] at hptr
    rw [hino] at hentry
    obtain ⟨q, hq, heq⟩ := List.mem_map.mp (List.mem_of_getElem? (hptr.symm.trans hentry))
    obtain ⟨hlt, hfiles⟩ := hlayered.ptrs q hq
    exact hbehind q hfiles hlt.le heq.symm

theorem Input.fileOffsets_eq (h : Input inp) :
    fileOffsets inp = (fileEntries inp).map Prod.snd := by
  obtain ⟨hbase, hroot⟩ := h.offsets
  have hfiles : packFiles (header 1337) (finalNodes inp) =
      some (header 1337 ++ fileBytes inp, fileNodes inp) :=
    packFiles_eq _ h.files (show dirBase inp < 2 ^ 32 by omega)
  rw [fileOffsets, hfiles, fileNodes, Option.map_some, Option.getD_some, List.map_map]
  rfl

theorem Input.zip_fileOffsets (h : Input inp) :
    (finalNodes inp).zip (fileOffsets inp) = fileEntries inp := by
  have hfst : (fileEntries inp).map Prod.fst = finalNodes inp := layout_map_fst ..
  have hzip := List.zip_unzip (fileEntries inp)
  rw [List.unzip_eq_map] at hzip
  rwa [h.fileOffsets_eq, ← hfst]

theorem exists_readdir {t : Tree} {r : Record} {dir : Dirent} (hw : WellFormed v.image t)
    (hr : t.record ino = some r) (hdir : dir ∈ t.entries ino) :
    ∃ num, initrdReaddir v (recordNode v.image ino) num = some dir := by
  obtain ⟨i, hi, rfl⟩ := List.getElem_of_mem hdir
  have hlen := entries_length hr
  have hsize := (hw.records _ _ hr).size_lt
  refine ⟨BitVec.ofNat 32 i, ?_⟩
  rw [hw.initrdReaddir_eq (recordNode v.image ino) hr (by omega)]
  exact List.getElem?_eq_getElem hi

theorem Input.lookup_file_eq (h : Input inp) {d : HostDir} {o : Nat} (hd : d ∈ inp.subdirs)
    (hx : (f, o) ∈ filesOf inp d) :
    (tree h).lookup (tree h).root [encodeName d.name, encodeName f.name] =
      some (BitVec.ofNat 32 o) := by
  have hfst := h.map_fst_filesOf hd
  have hmem : ∀ {x}, x ∈ filesOf inp d → x.1 ∈ d.files := fun hx => by
    rw [← hfst]
    exact List.mem_map_of_mem hx
  obtain ⟨c, hc⟩ := Option.isSome_iff_exists.mp
    (h.lookup_file_isSome.mpr ⟨d, hd, f, hmem hx, rfl, rfl⟩)
  obtain ⟨d', hd', x, hx', hp, hq, rfl⟩ := h.lookup_file_some hc
  obtain rfl := h.dir_inj hd' hd hp
  have hname := (h.plain_file hd (hmem hx')).encodeName_inj (h.plain_file hd (hmem hx)) hq
  have hfile := List.inj_on_of_nodup_map (h.fileNames d' hd) (hmem hx') (hmem hx) hname
  have hnodup : ((filesOf inp d').map Prod.fst).Nodup := hfst ▸ (h.fileNames d' hd).of_map
  have heq := List.inj_on_of_nodup_map hnodup hx' hx hfile
  rw [hc, heq]

theorem Input.reached (h : Input inp) (hempty : inp.files = []) (hc : Cached (tree h) v)
    {x : (List Char × HostFile) × Nat} (hx : x ∈ fileEntries inp) :
    Reached v x.1 (BitVec.ofNat 32 x.2) := by
  obtain ⟨e, o⟩ := x
  have he : e ∈ finalNodes inp := mem_of_mem_layout hx
  rw [finalNodes, hempty, List.map_nil, List.nil_append] at he
  obtain ⟨d, hd, he⟩ := List.mem_flatMap.mp he
  obtain ⟨f, hf, rfl⟩ := List.mem_map.mp he
  have hfile : (f, o) ∈ filesOf inp d :=
    List.mem_map.mpr ⟨_, List.mem_filter.mpr ⟨hx, by simp⟩, rfl⟩
  obtain ⟨o', ho'⟩ := exists_mem_layout hd
    (fun d => (dirRecord (fileNodes inp) d).encode.length) (dirBase inp)
  have hdir : (d, o') ∈ dirEntries inp := ho'
  have hw := hc.wellFormed
  constructor
  · obtain ⟨num₁, hread₁⟩ := exists_readdir hw h.lookup_root
      (h.entries_root ▸ List.mem_map_of_mem hdir)
    obtain ⟨num₂, hread₂⟩ := exists_readdir hw (h.lookup_dir hdir)
      (h.entries_dir hdir ▸ List.mem_map_of_mem hfile)
    have hroot : Listed v.image (BitVec.ofNat 32 (rootOffset inp)) := by
      have hlisted : Listed v.image (read32 v.image 4) := .root
      rwa [hw.offset] at hlisted
    exact ⟨_, num₂, Listed.entries hroot hread₁, hread₂⟩
  · obtain ⟨hp, hp'⟩ := (h.dirs d hd).encoded
    obtain ⟨hq, hq'⟩ := (h.plain_file hd hf).encoded
    have hnode := resolve_filePath hc hp hp' hq hq'
    rw [h.lookup_file_eq hd hfile, Option.map_some] at hnode
    refine ⟨(tree h).nodeFor (BitVec.ofNat 32 o), ?_, rfl⟩
    rw [kernelPath, if_neg (h.dirs d hd).nonempty]
    exact hnode

theorem Input.allReached (h : Input inp) (hempty : inp.files = []) (hbuild : build inp = some data) :
    AllReached inp data := by
  have hsize := h.offsets.2
  obtain rfl := Option.some.inj ((build_eq h.toPackable (by omega)).symm.trans hbuild)
  intro image v₀ paths himage hnodes x hx
  rw [h.zip_fileOffsets] at hx
  exact h.reached hempty (h.cached hnodes (h.wellFormed himage) paths) hx

/-- Every file record is reached only if no file lies in the input directory itself, and
then it is, when the names and the image fit. -/
theorem build_reached_iff (hbuild : build inp = some data) (hdata : data.length ≤ 2 ^ 32)
    (hnames : ∀ f ∈ inp.files, slash ∉ encodeName f.name) :
    (AllReached inp data → inp.files = []) ∧
      (Input inp → (AllReached inp data ↔ inp.files = [])) := by
  have hnil := files_eq_nil_of_allReached hbuild hdata hnames
  exact ⟨hnil, fun h => ⟨hnil, fun hempty => h.allReached hempty hbuild⟩⟩

theorem build_reached_iff_example :
    ∃ data, build threeDirs = some data ∧ AllReached threeDirs data := by
  have hsize : rootOffset threeDirs + (rootRecord threeDirs).encode.length < 2 ^ 32 := by decide
  have hbuild := build_eq threeDirs_input.toPackable hsize
  have hdata : (header (rootOffset threeDirs) ++
      (allRecords threeDirs).flatMap Record.encode).length ≤ 2 ^ 32 := by decide +kernel
  have hnames : ∀ f ∈ threeDirs.files, slash ∉ encodeName f.name := by simp [threeDirs]
  exact ⟨_, hbuild, ((build_reached_iff hbuild hdata hnames).2 threeDirs_input).mpr rfl⟩

def strayFile : HostTree := ⟨[⟨['f'], [7]⟩], [⟨['d'], []⟩]⟩

theorem build_loses_stray : ∃ data, build strayFile = some data ∧ ¬AllReached strayFile data := by
  have hinput : Packable strayFile := by
    refine ⟨List.cons_ne_nil _ _, ?_, ?_⟩
    · intro e he
      obtain rfl := List.mem_singleton.mp he
      exact plain_singleton (by decide) (by decide) (by decide)
    · intro d hd
      obtain rfl := List.mem_singleton.mp hd
      exact plain_singleton (by decide) (by decide) (by decide)
  have hsize : rootOffset strayFile + (rootRecord strayFile).encode.length < 2 ^ 32 := by decide
  have hdata : (header (rootOffset strayFile) ++
      (allRecords strayFile).flatMap Record.encode).length ≤ 2 ^ 32 := by decide
  refine ⟨_, build_eq hinput hsize, fun h => ?_⟩
  have hnil := files_eq_nil_of_allReached (build_eq hinput hsize) hdata (by
    intro f hf
    obtain rfl := List.mem_singleton.mp hf
    decide) h
  exact List.cons_ne_nil _ _ hnil

end RubiKernel.Builder
