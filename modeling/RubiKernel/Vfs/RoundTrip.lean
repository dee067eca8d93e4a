import RubiKernel.Lib.Assoc
import RubiKernel.Vfs.Builder
import RubiKernel.Vfs.Read

/-! The image of a directory as the kernel finds it: the paths that resolve are those of the
sub-directories and of the files in them, and every file is read back. -/

namespace RubiKernel.Builder

open Memory Layout Fields Assoc Vfs

/-- The bytes of the headers, the names, the contents and the pointers. -/
def imageSize (inp : HostTree) : Nat :=
  8 + ((finalNodes inp).map fun e => 13 + e.2.name.length + e.2.contents.length).sum +
    (inp.subdirs.map fun d => 13 + d.name.length + 4 * d.files.length).sum +
    (14 + 4 * inp.subdirs.length)

/-- A directory that fits, with the names in a directory distinct. -/
structure Input (inp : HostTree) : Prop extends Packable inp where
  dirNames : (inp.subdirs.map HostDir.name).Nodup
  fileNames : ∀ d ∈ inp.subdirs, (d.files.map HostFile.name).Nodup
  small : imageSize inp < 2 ^ 31

variable {inp : HostTree} {d : HostDir} {f : HostFile} {ds : List HostDir} {r : Record} {o : Nat}
  {ino c : Word} {p q : List Byte} {image : Memory} {v : FsState}

theorem filter_files (hnodup : (ds.map HostDir.name).Nodup) (hd : d ∈ ds) :
    (ds.flatMap fun d => d.files.map (Prod.mk d.name)).filter (·.1 = d.name) =
      d.files.map (Prod.mk d.name) := by
  have hself (e : HostDir) : (e.files.map (Prod.mk e.name)).filter (·.1 = e.name) =
      e.files.map (Prod.mk e.name) := by simp
  have hother {e : HostDir} (hne : e.name ≠ d.name) :
      (e.files.map (Prod.mk e.name)).filter (·.1 = d.name) = [] := by simpa using fun _ _ => hne
  induction ds with
  | nil => cases hd
  | cons e ds ih =>
    obtain ⟨he, hnodup⟩ := List.nodup_cons.mp hnodup
    rw [List.flatMap_cons, List.filter_append]
    rcases List.mem_cons.mp hd with rfl | hd
    · have hrest :
          (ds.flatMap fun e => e.files.map (Prod.mk e.name)).filter (·.1 = d.name) = [] := by
        rw [List.filter_flatMap, List.flatMap_eq_nil_iff]
        exact fun e hmem => hother fun heq => he (heq ▸ List.mem_map_of_mem hmem)
      rw [hself, hrest, List.append_nil]
    · have hne : e.name ≠ d.name := fun heq => he (heq ▸ List.mem_map_of_mem hd)
      rw [hother hne, List.nil_append, ih hnodup hd]

theorem Input.filter_finalNodes (h : Input inp) (hd : d ∈ inp.subdirs) :
    (finalNodes inp).filter (·.1 = d.name) = d.files.map (Prod.mk d.name) := by
  have hne := (h.dirs d hd).nonempty
  have hfiles : (inp.files.map (Prod.mk [])).filter (·.1 = d.name) = [] := by
    simpa using fun _ _ => hne.symm
  rw [finalNodes, List.filter_append, hfiles, List.nil_append, filter_files h.dirNames hd]

def filesOf (inp : HostTree) (d : HostDir) : List (HostFile × Nat) :=
  ((fileEntries inp).filter (·.1.1 = d.name)).map fun e => (e.1.2, e.2)

theorem Input.map_fst_filesOf (h : Input inp) (hd : d ∈ inp.subdirs) :
    (filesOf inp d).map Prod.fst = d.files := by
  have hmap : (filesOf inp d).map Prod.fst =
      (((fileEntries inp).map Prod.fst).filter (·.1 = d.name)).map Prod.snd := by
    rw [filesOf, List.filter_map, List.map_map, List.map_map]
    rfl
  rw [hmap, fileEntries, layout_map_fst, h.filter_finalNodes hd, List.map_map]
  exact List.map_id _

theorem filter_fileNodes (inp : HostTree) (d : HostDir) :
    ((fileNodes inp).filter (·.1 = d.name)).map Prod.snd = (filesOf inp d).map Prod.snd := by
  rw [fileNodes, filesOf, List.filter_map, List.map_map, List.map_map]
  rfl

theorem dirRecord_body (inp : HostTree) (d : HostDir) : (dirRecord (fileNodes inp) d).body =
    .dir ((filesOf inp d).map fun e => BitVec.ofNat 32 e.2) := by
  rw [dirRecord, recordOf_body, filter_fileNodes, List.map_map]
  rfl

theorem rootRecord_body (inp : HostTree) : (rootRecord inp).body =
    .dir ((dirEntries inp).map fun e => BitVec.ofNat 32 e.2) := by
  rw [rootRecord, recordOf_body, List.map_map]
  rfl

theorem Input.length_fileRecord (h : Input inp) {e : List Char × HostFile}
    (he : e ∈ finalNodes inp) :
    (fileRecord e).encode.length = 13 + e.2.name.length + e.2.contents.length := by
  have hplain := h.files e he
  rw [Record.encode_length, fileRecord, hplain.recordOf_name, hplain.length_encodeName,
    recordOf_body]
  rfl

theorem Input.length_dirRecord (h : Input inp) (hd : d ∈ inp.subdirs) :
    (dirRecord (fileNodes inp) d).encode.length = 13 + d.name.length + 4 * d.files.length := by
  have hplain := h.dirs d hd
  have hname : (dirRecord (fileNodes inp) d).name = encodeName d.name := hplain.recordOf_name _
  have hcount := congrArg List.length (h.map_fst_filesOf hd)
  rw [List.length_map] at hcount
  rw [Record.encode_length, hname, hplain.length_encodeName, dirRecord_body, payload_dir_length,
    List.length_map, hcount]

theorem length_rootRecord (inp : HostTree) :
    (rootRecord inp).encode.length = 14 + 4 * inp.subdirs.length := by
  have hname : (rootRecord inp).name = [slash] := rfl
  have hcount := congrArg List.length (layout_map_fst
    (fun d => (dirRecord (fileNodes inp) d).encode.length) (dirBase inp) inp.subdirs)
  rw [List.length_map] at hcount
  rw [Record.encode_length, hname, rootRecord_body, payload_dir_length, List.length_map, dirEntries,
    hcount]
  rfl

theorem Input.imageSize_eq (h : Input inp) :
    imageSize inp = rootOffset inp + (rootRecord inp).encode.length := by
  rw [imageSize, rootOffset, dirBase, length_rootRecord,
    List.map_congr_left fun e he => h.length_fileRecord he,
    List.map_congr_left fun d hd => h.length_dirRecord hd]

theorem Input.offsets (h : Input inp) :
    dirBase inp ≤ rootOffset inp ∧ rootOffset inp + (rootRecord inp).encode.length < 2 ^ 31 :=
  ⟨Nat.le_add_right .., h.imageSize_eq ▸ h.small⟩

def placed (inp : HostTree) : List (Record × Nat) :=
  layout (fun r => r.encode.length) 8 (allRecords inp)

theorem placed_eq (inp : HostTree) :
    placed inp = (fileEntries inp).map (Prod.map fileRecord id) ++
        (dirEntries inp).map (Prod.map (dirRecord (fileNodes inp)) id) ++
          [(rootRecord inp, rootOffset inp)] := by
  have hbase : 8 + (((finalNodes inp).map fileRecord).map fun r => r.encode.length).sum =
      dirBase inp := by
    rw [List.map_map]
    rfl
  have hroot : 8 + (((finalNodes inp).map fileRecord ++
      inp.subdirs.map (dirRecord (fileNodes inp))).map fun r => r.encode.length).sum =
      rootOffset inp := by
    rw [List.map_append, List.sum_append, ← Nat.add_assoc, hbase, List.map_map]
    rfl
  rw [placed, allRecords, layout_append, hroot, layout_append, hbase, layout_map, layout_map]
  rfl

theorem sum_allRecords (inp : HostTree) :
    8 + ((allRecords inp).map fun r => r.encode.length).sum =
      rootOffset inp + (rootRecord inp).encode.length := by
  have hlen := congrArg List.length (allRecords_encode inp)
  rw [List.length_flatMap, List.length_append] at hlen
  rw [hlen, ← Nat.add_assoc, length_dirBytes]

theorem Input.offset_bounds (h : Input inp) (hmem : (r, o) ∈ placed inp) :
    8 ≤ o ∧ o + r.encode.length ≤ imageSize inp := by
  rw [h.imageSize_eq, ← sum_allRecords]
  exact bounds_of_mem_layout hmem

def records (inp : HostTree) : List (Word × Record) :=
  (placed inp).map fun e => (BitVec.ofNat 32 e.2, e.1)

theorem Input.nodup_records (h : Input inp) : ((records inp).map Prod.fst).Nodup := by
  have hsmall := h.small
  have hkeys : (records inp).map Prod.fst =
      ((placed inp).map Prod.snd).map (BitVec.ofNat 32) := by
    rw [records, List.map_map, List.map_map]
    rfl
  have hpos : ∀ r ∈ allRecords inp, 0 < r.encode.length := fun r _ => by
    rw [r.encode_length]
    omega
  rw [hkeys]
  refine List.Nodup.map_on (fun o ho o' ho' heq => ?_) (nodup_layout hpos)
  obtain ⟨⟨r, o⟩, hmem, rfl⟩ := List.mem_map.mp ho
  obtain ⟨⟨r', o'⟩, hmem', rfl⟩ := List.mem_map.mp ho'
  have hbounds := h.offset_bounds hmem
  have hbounds' := h.offset_bounds hmem'
  have hnat := congrArg BitVec.toNat heq
  rwa [Word.toNat_ofNat (by omega), Word.toNat_ofNat (by omega)] at hnat

theorem Input.lookup_eq_some (h : Input inp) : (records inp).lookup ino = some r ↔
    ∃ o, (r, o) ∈ placed inp ∧ ino = BitVec.ofNat 32 o := by
  rw [Assoc.lookup_eq_some h.nodup_records, records, List.mem_map]
  constructor
  · rintro ⟨⟨r', o⟩, hmem, heq⟩
    obtain ⟨rfl, rfl⟩ := Prod.mk.inj heq
    exact ⟨o, hmem, rfl⟩
  · rintro ⟨o, hmem, rfl⟩
    exact ⟨(r, o), hmem, rfl⟩

theorem Input.lookup_file (h : Input inp) {e : (List Char × HostFile) × Nat}
    (he : e ∈ fileEntries inp) :
    (records inp).lookup (BitVec.ofNat 32 e.2) = some (fileRecord e.1) := by
  refine h.lookup_eq_some.mpr ⟨e.2, ?_, rfl⟩
  rw [placed_eq]
  exact List.mem_append_left _ (List.mem_append_left _ (List.mem_map_of_mem he))

theorem Input.lookup_dir (h : Input inp) {e : HostDir × Nat} (he : e ∈ dirEntries inp) :
    (records inp).lookup (BitVec.ofNat 32 e.2) = some (dirRecord (fileNodes inp) e.1) := by
  refine h.lookup_eq_some.mpr ⟨e.2, ?_, rfl⟩
  rw [placed_eq]
  exact List.mem_append_left _ (List.mem_append_right _ (List.mem_map_of_mem he))

theorem Input.lookup_root (h : Input inp) :
    (records inp).lookup (BitVec.ofNat 32 (rootOffset inp)) = some (rootRecord inp) := by
  refine h.lookup_eq_some.mpr ⟨rootOffset inp, ?_, rfl⟩
  rw [placed_eq]
  exact List.mem_append_right _ List.mem_cons_self

theorem cases_of_mem_records {e : Word × Record} (he : e ∈ records inp) :
    (∃ x ∈ fileEntries inp, e = (BitVec.ofNat 32 x.2, fileRecord x.1)) ∨
      (∃ x ∈ dirEntries inp, e = (BitVec.ofNat 32 x.2, dirRecord (fileNodes inp) x.1)) ∨
        e = (BitVec.ofNat 32 (rootOffset inp), rootRecord inp) := by
  rw [records, placed_eq] at he
  simp only [List.map_append, List.map_map, List.mem_append, List.mem_map, List.map_cons,
    List.map_nil, List.mem_singleton] at he
  rcases he with (⟨x, hx, rfl⟩ | ⟨x, hx, rfl⟩) | rfl
  · exact .inl ⟨x, hx, rfl⟩
  · exact .inr (.inl ⟨x, hx, rfl⟩)
  · exact .inr (.inr rfl)

theorem Input.rootDir (h : Input inp) : ∃ r children,
    (records inp).lookup (BitVec.ofNat 32 (rootOffset inp)) = some r ∧ r.body = .dir children :=
  ⟨_, _, h.lookup_root, rootRecord_body inp⟩

theorem Input.below (h : Input inp) : ∀ e ∈ records inp, ∀ c ∈ e.2.body.children,
    ((records inp).lookup c).isSome ∧ c.toNat < e.1.toNat := by
  obtain ⟨hbase, hroot⟩ := h.offsets
  have hlt {o o' : Nat} (hlt : o < o') (hle : o' ≤ rootOffset inp) :
      (BitVec.ofNat 32 o).toNat < (BitVec.ofNat 32 o').toNat := by
    rwa [Word.toNat_ofNat (by omega), Word.toNat_ofNat (by omega)]
  intro e he c hc
  rcases cases_of_mem_records he with ⟨x, hx, rfl⟩ | ⟨x, hx, rfl⟩ | rfl
  · rw [fileRecord, recordOf_body] at hc
    cases hc
  · rw [dirRecord_body] at hc
    obtain ⟨y, hy, rfl⟩ := List.mem_map.mp hc
    obtain ⟨z, hz, rfl⟩ := List.mem_map.mp hy
    have hz := List.mem_of_mem_filter hz
    have hfile := offset_lt_of_mem_fileNodes (List.mem_map_of_mem hz)
    have hdir := offset_lt_of_mem_dirEntries hx
    exact ⟨by rw [h.lookup_file hz]; rfl, hlt (by omega) hdir.2.le⟩
  · rw [rootRecord_body] at hc
    obtain ⟨y, hy, rfl⟩ := List.mem_map.mp hc
    exact ⟨by rw [h.lookup_dir hy]; rfl, hlt (offset_lt_of_mem_dirEntries hy).2 le_rfl⟩

theorem Input.name_file (h : Input inp) {x : HostFile × Nat} (hx : x ∈ filesOf inp d) :
    ((records inp).lookup (BitVec.ofNat 32 x.2)).map Record.name = some (encodeName x.1.name) := by
  obtain ⟨e, he, rfl⟩ := List.mem_map.mp hx
  have he := List.mem_of_mem_filter he
  have hplain := h.files e.1 (mem_of_mem_layout he)
  rw [h.lookup_file he, Option.map_some, fileRecord, hplain.recordOf_name]

theorem Input.name_dir (h : Input inp) {e : HostDir × Nat} (he : e ∈ dirEntries inp) :
    ((records inp).lookup (BitVec.ofNat 32 e.2)).map Record.name = some (encodeName e.1.name) := by
  have hplain := h.dirs e.1 (mem_of_mem_layout he)
  rw [h.lookup_dir he, Option.map_some, dirRecord, hplain.recordOf_name]

theorem nodup_encodeName {l : List (List Char)} (hnodup : l.Nodup)
    (hplain : ∀ name ∈ l, Plain name) : (l.map fun name => some (encodeName name)).Nodup := by
  refine hnodup.map_on fun name hname name' hname' heq => ?_
  exact (hplain name hname).encodeName_inj (hplain name' hname') (Option.some.inj heq)

theorem Input.plain_file (h : Input inp) (hd : d ∈ inp.subdirs) (hf : f ∈ d.files) :
    Plain f.name :=
  h.files (d.name, f)
    (List.mem_append_right _ (List.mem_flatMap.mpr ⟨d, hd, List.mem_map_of_mem hf⟩))

theorem Input.distinct (h : Input inp) : ∀ e ∈ records inp,
    (e.2.body.children.map fun c => ((records inp).lookup c).map Record.name).Nodup := by
  intro e he
  rcases cases_of_mem_records he with ⟨x, hx, rfl⟩ | ⟨x, hx, rfl⟩ | rfl
  · rw [fileRecord, recordOf_body]
    exact List.nodup_nil
  · have hx := mem_of_mem_layout hx
    have hnames := List.map_congr_left fun y (hy : y ∈ filesOf inp x.1) => h.name_file hy
    have hfiles : ((filesOf inp x.1).map fun y => some (encodeName y.1.name)) =
        (x.1.files.map HostFile.name).map fun name => some (encodeName name) := by
      rw [← h.map_fst_filesOf hx, List.map_map, List.map_map]
      rfl
    rw [dirRecord_body]
    show (((filesOf inp x.1).map _).map _).Nodup
    rw [List.map_map]
    refine (hnames.trans hfiles) ▸ nodup_encodeName (h.fileNames _ hx) fun name hname => ?_
    obtain ⟨f, hf, rfl⟩ := List.mem_map.mp hname
    exact h.plain_file hx hf
  · have hnames := List.map_congr_left fun y (hy : y ∈ dirEntries inp) => h.name_dir hy
    have hdirs : ((dirEntries inp).map fun y => some (encodeName y.1.name)) =
        (inp.subdirs.map HostDir.name).map fun name => some (encodeName name) := by
      rw [← layout_map_fst (fun d => (dirRecord (fileNodes inp) d).encode.length) (dirBase inp)
        inp.subdirs, List.map_map, List.map_map]
      rfl
    rw [rootRecord_body]
    show (((dirEntries inp).map _).map _).Nodup
    rw [List.map_map]
    refine (hnames.trans hdirs) ▸ nodup_encodeName h.dirNames fun name hname => ?_
    obtain ⟨d, hd, rfl⟩ := List.mem_map.mp hname
    exact h.dirs d hd

def tree (h : Input inp) : Tree :=
  .ofRecords (BitVec.ofNat 32 (rootOffset inp)) (records inp) h.rootDir h.below h.distinct

theorem Input.wellFormed (h : Input inp)
    (himage : BytesAt image 0 (header (rootOffset inp) ++ (allRecords inp).flatMap Record.encode)) :
    WellFormed image (tree h) := by
  have hsmall := h.small
  obtain ⟨hheader, hrecords⟩ := bytesAt_append.mp himage
  obtain ⟨hmagic, hoffset⟩ := bytesAt_append.mp hheader
  refine wellFormed_ofRecords hmagic.read32 hoffset.read32 fun e he => ?_
  obtain ⟨⟨r, o⟩, hmem, rfl⟩ := List.mem_map.mp he
  have hbounds := h.offset_bounds hmem
  have ho : (BitVec.ofNat 32 o).toNat = o := Word.toNat_ofNat (by omega)
  refine ⟨bytesAt_of_mem_layout hrecords hmem, ho.symm ▸ hbounds.1, ?_⟩
  show (BitVec.ofNat 32 o).toNat + r.encode.length ≤ 2 ^ 32
  omega

theorem Input.entries_root (h : Input inp) : (tree h).entries (tree h).root =
    (dirEntries inp).map fun e => ⟨encodeName e.1.name, BitVec.ofNat 32 e.2⟩ := by
  rw [Tree.entries_eq h.lookup_root (rootRecord_body inp), List.map_map]
  refine List.map_congr_left fun e he => ?_
  exact congrArg (Dirent.mk · _) (congrArg (Option.getD · []) (h.name_dir he))

theorem Input.entries_dir (h : Input inp) {e : HostDir × Nat} (he : e ∈ dirEntries inp) :
    (tree h).entries (BitVec.ofNat 32 e.2) =
      (filesOf inp e.1).map fun x => ⟨encodeName x.1.name, BitVec.ofNat 32 x.2⟩ := by
  rw [Tree.entries_eq (h.lookup_dir he) (dirRecord_body inp e.1), List.map_map]
  refine List.map_congr_left fun x hx => ?_
  exact congrArg (Dirent.mk · _) (congrArg (Option.getD · []) (h.name_file hx))

theorem Input.child_root (h : Input inp) (hc : (tree h).child (tree h).root p = some c) :
    ∃ e ∈ dirEntries inp, encodeName e.1.name = p ∧ c = BitVec.ofNat 32 e.2 := by
  have hmem := (tree h).child_some hc
  rw [h.entries_root] at hmem
  obtain ⟨e, he, heq⟩ := List.mem_map.mp hmem
  obtain ⟨hname, rfl⟩ := Dirent.mk.inj heq
  exact ⟨e, he, hname, rfl⟩

theorem Input.child_dir (h : Input inp) {e : HostDir × Nat} (he : e ∈ dirEntries inp)
    (hc : (tree h).child (BitVec.ofNat 32 e.2) q = some c) :
    ∃ x ∈ filesOf inp e.1, encodeName x.1.name = q ∧ c = BitVec.ofNat 32 x.2 := by
  have hmem := (tree h).child_some hc
  rw [h.entries_dir he] at hmem
  obtain ⟨x, hx, heq⟩ := List.mem_map.mp hmem
  obtain ⟨hname, rfl⟩ := Dirent.mk.inj heq
  exact ⟨x, hx, hname, rfl⟩

theorem Input.child_root_isSome (h : Input inp) (hd : d ∈ inp.subdirs) :
    ((tree h).child (tree h).root (encodeName d.name)).isSome := by
  obtain ⟨o, ho⟩ := exists_mem_layout hd
    (fun d => (dirRecord (fileNodes inp) d).encode.length) (dirBase inp)
  rw [Tree.child_isSome, h.entries_root]
  exact ⟨_, List.mem_map_of_mem ho, rfl⟩

theorem Input.child_dir_isSome (h : Input inp) {e : HostDir × Nat} (he : e ∈ dirEntries inp)
    (hf : f ∈ e.1.files) :
    ((tree h).child (BitVec.ofNat 32 e.2) (encodeName f.name)).isSome := by
  rw [← h.map_fst_filesOf (mem_of_mem_layout he)] at hf
  obtain ⟨x, hx, rfl⟩ := List.mem_map.mp hf
  rw [Tree.child_isSome, h.entries_dir he]
  exact ⟨_, List.mem_map_of_mem hx, rfl⟩

theorem Input.dir_inj (h : Input inp) {d' : HostDir} (hd : d ∈ inp.subdirs)
    (hd' : d' ∈ inp.subdirs) (heq : encodeName d.name = encodeName d'.name) : d = d' :=
  List.inj_on_of_nodup_map h.dirNames hd hd' ((h.dirs d hd).encodeName_inj (h.dirs d' hd') heq)

theorem Input.lookup_dir_isSome (h : Input inp) :
    ((tree h).lookup (tree h).root [p]).isSome ↔ ∃ d ∈ inp.subdirs, encodeName d.name = p := by
  rw [Tree.lookup]
  constructor
  · intro hsome
    obtain ⟨c, hlookup⟩ := Option.isSome_iff_exists.mp hsome
    obtain ⟨c', hc', -⟩ := Option.bind_eq_some_iff.mp hlookup
    obtain ⟨e, he, hname, -⟩ := h.child_root hc'
    exact ⟨e.1, mem_of_mem_layout he, hname⟩
  · rintro ⟨d, hd, rfl⟩
    obtain ⟨c, hc⟩ := Option.isSome_iff_exists.mp (h.child_root_isSome hd)
    rw [hc]
    rfl

theorem Input.lookup_file_some (h : Input inp)
    (hc : (tree h).lookup (tree h).root [p, q] = some c) :
    ∃ d ∈ inp.subdirs, ∃ x ∈ filesOf inp d,
      encodeName d.name = p ∧ encodeName x.1.name = q ∧ c = BitVec.ofNat 32 x.2 := by
  obtain ⟨c₁, hc₁, hc⟩ := Option.bind_eq_some_iff.mp hc
  obtain ⟨c₂, hc₂, hc⟩ := Option.bind_eq_some_iff.mp hc
  obtain rfl : c₂ = c := Option.some.inj hc
  obtain ⟨e, he, hd, rfl⟩ := h.child_root hc₁
  obtain ⟨x, hx, hf, rfl⟩ := h.child_dir he hc₂
  exact ⟨e.1, mem_of_mem_layout he, x, hx, hd, hf, rfl⟩

theorem Input.lookup_file_isSome (h : Input inp) :
    ((tree h).lookup (tree h).root [p, q]).isSome ↔
      ∃ d ∈ inp.subdirs, ∃ f ∈ d.files, encodeName d.name = p ∧ encodeName f.name = q := by
  constructor
  · intro hsome
    obtain ⟨c, hc⟩ := Option.isSome_iff_exists.mp hsome
    obtain ⟨d, hd, x, hx, hp, hq, -⟩ := h.lookup_file_some hc
    refine ⟨d, hd, x.1, ?_, hp, hq⟩
    rw [← h.map_fst_filesOf hd]
    exact List.mem_map_of_mem hx
  · rintro ⟨d, hd, f, hf, rfl, rfl⟩
    obtain ⟨c₁, hc₁⟩ := Option.isSome_iff_exists.mp (h.child_root_isSome hd)
    obtain ⟨e, he, hname, rfl⟩ := h.child_root hc₁
    obtain rfl := h.dir_inj (mem_of_mem_layout he) hd hname
    obtain ⟨c₂, hc₂⟩ := Option.isSome_iff_exists.mp (h.child_dir_isSome he hf)
    rw [Tree.lookup, hc₁, Option.bind_some, Tree.lookup, hc₂]
    rfl

theorem Input.record_file (h : Input inp) (hd : d ∈ inp.subdirs) (hf : f ∈ d.files) :
    ∃ c r, (tree h).lookup (tree h).root [encodeName d.name, encodeName f.name] = some c ∧
      (tree h).record c = some r ∧ r.body = .file f.contents := by
  obtain ⟨c, hc⟩ := Option.isSome_iff_exists.mp
    (h.lookup_file_isSome.mpr ⟨d, hd, f, hf, rfl, rfl⟩)
  obtain ⟨d', hd', x, hx, hp, hq, rfl⟩ := h.lookup_file_some hc
  obtain rfl := h.dir_inj hd' hd hp
  have hx₁ : x.1 ∈ d'.files := by
    rw [← h.map_fst_filesOf hd]
    exact List.mem_map_of_mem hx
  have hname := (h.plain_file hd hx₁).encodeName_inj (h.plain_file hd hf) hq
  obtain rfl := List.inj_on_of_nodup_map (h.fileNames d' hd) hx₁ hf hname
  obtain ⟨e, he, rfl⟩ := List.mem_map.mp hx
  refine ⟨_, _, hc, h.lookup_file (List.mem_of_mem_filter he), ?_⟩
  rw [fileRecord, recordOf_body]

/-- The path of a directory, and that of a file in it. -/
def dirPath (p : List Byte) : List Byte := slash :: p

def filePath (p q : List Byte) : List Byte := slash :: (p ++ slash :: q)

/-- What the kernel finds in the state `v`: the directories, the files and their contents. -/
structure Found (inp : HostTree) (v : FsState) : Prop where
  dirs : ∀ p, p ≠ [] → slash ∉ p → ((resolvePath v (dirPath p)).1.isSome ↔
    ∃ d ∈ inp.subdirs, encodeName d.name = p)
  files : ∀ p q, p ≠ [] → slash ∉ p → q ≠ [] → slash ∉ q →
    ((resolvePath v (filePath p q)).1.isSome ↔
      ∃ d ∈ inp.subdirs, ∃ f ∈ d.files, encodeName d.name = p ∧ encodeName f.name = q)
  contents : ∀ d ∈ inp.subdirs, ∀ f ∈ d.files, ∀ (ft : FileTable) (mode : BitVec 16) (size : Word),
    (∀ x ∈ ft.files, x.fd ≠ ft.nextFd) → f.contents.length ≤ size.toNat →
      ∃ v' ft', fileOpen v ft (filePath (encodeName d.name) (encodeName f.name)) mode =
          (ft.nextFd, v', ft') ∧
        (fileRead v' ft' ft.nextFd size).1 = some f.contents

theorem isSome_nodeOf (x : Option Nat × FsState) : x.1.isSome = (nodeOf x).isSome :=
  Option.isSome_map.symm

theorem resolve_filePath {t : Tree} (hc : Cached t v) (hp : p ≠ []) (hp' : slash ∉ p) (hq : q ≠ [])
    (hq' : slash ∉ q) : nodeOf (resolvePath v (filePath p q)) =
      (t.lookup t.root [p, q]).map fun c => some (t.nodeFor c) := by
  have hhead : (p ++ slash :: q).head? ≠ some slash := head?_word_append hp hp'
  rw [filePath, (hc.resolvePath_eq _).2, if_neg hhead, fields_word_sep hp hp', fields_word hq hq',
    List.take_of_length_le]
  simp

theorem Plain.encoded {name : List Char} (h : Plain name) :
    encodeName name ≠ [] ∧ slash ∉ encodeName name := by
  refine ⟨fun hnil => h.nonempty ?_, h.not_mem (by decide) h.noSlash⟩
  rw [← List.length_eq_zero_iff, ← h.length_encodeName, hnil, List.length_nil]

theorem Input.found (h : Input inp) (hc : Cached (tree h) v) : Found inp v := by
  refine ⟨fun p hp hp' => ?_, fun p q hp hp' hq hq' => ?_,
    fun d hd f hf ft mode size hfresh hsize => ?_⟩
  · rw [isSome_nodeOf, dirPath, hc.resolvePath_one p hp hp', Option.isSome_map, h.lookup_dir_isSome]
  · rw [isSome_nodeOf, resolve_filePath hc hp hp' hq hq', Option.isSome_map, h.lookup_file_isSome]
  · obtain ⟨c, r, hlookup, hr, hbody⟩ := h.record_file hd hf
    obtain ⟨hp, hp'⟩ := (h.dirs d hd).encoded
    obtain ⟨hq, hq'⟩ := (h.plain_file hd hf).encoded
    have hnode := resolve_filePath hc hp hp' hq hq'
    rw [hlookup, Option.map_some] at hnode
    obtain ⟨v', ft', hopen, hc', hopened⟩ := hc.fileOpen_file mode rfl hnode hr hbody hfresh
    refine ⟨v', ft', hopen, ?_⟩
    have hat : RecordAt v'.image ((tree h).nodeFor c).inode r := hc'.wellFormed.records c r hr
    have hread := hat.initrdRead_eq hbody 0 size (by simpa using size.isLt)
    rw [hopened.fileRead_eq, hread]
    simpa using hsize

def resolved (v : FsState) (paths : List (List Byte)) : FsState :=
  paths.foldl (fun v path => (resolvePath v path).2) v

theorem Input.cached (h : Input inp) {v₀ : FsState} (hnodes : v₀.nodes = [])
    (hw : WellFormed image (tree h)) (paths : List (List Byte)) :
    Cached (tree h) (resolved (initrdInit v₀ image) paths) := by
  have hstart := Cached.start hnodes hw
  generalize initrdInit v₀ image = v at hstart
  induction paths generalizing v with
  | nil => exact hstart
  | cons path paths ih =>
    have hstep : (initrdRuns (tree h)).step v (.resolve path) (resolvePath v path).2 := rfl
    exact ih _ (hstart.step hstep)

/-- The round trip: the kernel finds on the image what the builder was given, after
any calls of `resolve_path` before. -/
theorem image_round_trip (h : Input inp) :
    ∃ data, build inp = some data ∧ data.length = imageSize inp ∧
      ∀ image v₀ paths, BytesAt image 0 data → v₀.nodes = [] →
        Found inp (resolved (initrdInit v₀ image) paths) := by
  have hsize := h.offsets.2
  have hlen := sum_allRecords inp
  rw [← h.imageSize_eq] at hlen
  refine ⟨_, build_eq h.toPackable (by omega), ?_, ?_⟩
  · rw [← hlen, List.length_append, List.length_flatMap]
    rfl
  · exact fun image v₀ paths himage hnodes => h.found (h.cached hnodes (h.wellFormed himage) paths)

/-- `a` with the files `f` and `g`, the second one empty, `b` with nothing in it, and `c` with
another `f`. -/
def threeDirs : HostTree :=
  ⟨[], [⟨['a'], [⟨['f'], [7, 8, 9]⟩, ⟨['g'], []⟩]⟩, ⟨['b'], []⟩, ⟨['c'], [⟨['f'], [1]⟩]⟩]⟩

theorem plain_singleton {c : Char} (hascii : c.toNat < 128) (hnul : c.toNat ≠ 0)
    (hslash : c.toNat ≠ 47) : Plain [c] :=
  ⟨List.cons_ne_nil _ _, (by decide : 1 < nodeNameSize), List.forall_mem_singleton.mpr hascii,
    List.forall_mem_singleton.mpr hnul, List.forall_mem_singleton.mpr hslash⟩

theorem threeDirs_input : Input threeDirs where
  nonempty := List.cons_ne_nil _ _
  files := by
    have hnodes : (finalNodes threeDirs).map (fun e => e.2.name) = [['f'], ['g'], ['f']] := rfl
    intro e he
    have hname := List.mem_map_of_mem (f := fun e => e.2.name) he
    simp only [hnodes, List.mem_cons, List.not_mem_nil, or_false] at hname
    rcases hname with hname | hname | hname <;> rw [hname]
    all_goals exact plain_singleton (by decide) (by decide) (by decide)
  dirs := by
    intro d hd
    simp only [threeDirs, List.mem_cons, List.not_mem_nil, or_false] at hd
    rcases hd with rfl | rfl | rfl
    all_goals exact plain_singleton (by decide) (by decide) (by decide)
  dirNames := by decide
  fileNames := by
    intro d hd
    simp only [threeDirs, List.mem_cons, List.not_mem_nil, or_false] at hd
    rcases hd with rfl | rfl | rfl
    all_goals decide
  small := by decide

/-- After `/a/g` and a path that is not there. -/
theorem image_round_trip_example : ∃ data, build threeDirs = some data ∧
    Found threeDirs (resolved (initrdInit (unmounted []) (imageOfBytes data))
      [[slash, 97, slash, 103], [slash, 98, slash, 102]]) := by
  obtain ⟨data, hbuild, hlen, hfound⟩ := image_round_trip threeDirs_input
  have hfits : data.length ≤ 2 ^ 32 := hlen ▸ by decide
  exact ⟨data, hbuild, hfound _ _ _ (bytesAt_imageOfBytes hfits) rfl⟩

end RubiKernel.Builder
