import RubiKernel.Vfs.Resolve

/-! Reading an open file of an initrd. `initrd_read` never moves the offset, so every
read starts at the beginning of the file again. -/

namespace RubiKernel.Vfs

open Memory Fields Lts

variable {image : Memory} {t : Tree} {v v' : FsState} {ft ft' : FileTable} {ino fd offset size : Word}
  {r : Record} {contents path : List Byte} {mode : BitVec 16} {n pos s : Nat} {ns : List Nat}
  {pieces : List (List Byte)} {node : FsNode} {sizes : List Word}

/-- `initrd_read` when the end of the range is no address overflow. -/
theorem RecordAt.initrdRead_eq (h : RecordAt v.image node.inode r) (hbody : r.body = .file contents)
    (offset size : Word) (hno : offset.toNat + size.toNat < 2 ^ 32) :
    initrdRead v node offset size = (contents.drop offset.toNat).take size.toNat := by
  have hsize : (BitVec.ofNat 32 r.body.size).toNat = contents.length := by
    rw [h.size_toNat, hbody]
    rfl
  have hend : (offset + size).toNat = offset.toNat + size.toNat := by
    rw [BitVec.toNat_add, Nat.mod_eq_of_lt hno]
  have hbytes := h.contents_at hbody
  simp only [initrdRead, h.fileHead_eq, ge_iff_le, BitVec.le_def, hsize, hend]
  split
  · next hpast => rw [List.drop_eq_nil_of_le hpast, List.take_nil]
  · next hpast =>
    have hret : (if contents.length ≤ offset.toNat + size.toNat
        then BitVec.ofNat 32 r.body.size - offset else size).toNat =
        min size.toNat (contents.length - offset.toNat) := by
      split
      · rw [BitVec.toNat_sub_of_le (BitVec.le_def.mpr (by omega)), hsize]
        omega
      · omega
    rw [hret]
    refine List.ext_getElem (by simp) fun i hi _ => ?_
    rw [List.length_map, List.length_range] at hi
    have hbyte := hbytes (offset.toNat + i) (by omega)
    rw [← add_ofNat_add, BitVec.ofNat_toNat, BitVec.setWidth_eq] at hbyte
    simp [hbyte]

def readInTurn (v : FsState) (ft : FileTable) (fd : Word) : List Word → List (Option (List Byte))
  | [] => []
  | size :: sizes => (fileRead v ft fd size).1 :: readInTurn v (fileRead v ft fd size).2 fd sizes

/-- The pieces are what reads of `ns` bytes each deliver from `pos` on: together the
next bytes of the file, and nothing any more at its end. -/
def Delivers (contents : List Byte) (pos : Nat) (ns : List Nat)
    (pieces : List (List Byte)) : Prop :=
  pieces.flatten = (contents.drop pos).take ns.sum ∧
    ∀ i (h : i < pieces.length), contents.length ≤ pos + (ns.take i).sum → pieces[i] = []

/-- Every read finds at its position what the file starts with. -/
def Restarts (contents : List Byte) (pos : Nat) (ns : List Nat) : Prop :=
  ∀ i (h : i < ns.length),
    contents.take ns[i] = (contents.drop (pos + (ns.take i).sum)).take ns[i]

theorem delivers_cons (contents : List Byte) (pos s : Nat) (ns : List Nat)
    (pieces : List (List Byte)) :
    Delivers contents pos (s :: ns) (contents.take s :: pieces) ↔
      contents.take s = (contents.drop pos).take s ∧ Delivers contents (pos + s) ns pieces := by
  have hsplit : (contents.drop pos).take (s + ns.sum) =
      (contents.drop pos).take s ++ (contents.drop (pos + s)).take ns.sum := by
    rw [List.take_add, List.drop_drop]
  have hend : (∀ i (h : i < (contents.take s :: pieces).length),
      contents.length ≤ pos + ((s :: ns).take i).sum → (contents.take s :: pieces)[i] = []) ↔
      (contents.length ≤ pos → contents.take s = []) ∧
        ∀ i (h : i < pieces.length),
          contents.length ≤ pos + s + (ns.take i).sum → pieces[i] = [] := by
    constructor
    · intro h
      refine ⟨fun hp => h 0 (by simp) hp, fun i hi hp => ?_⟩
      exact h (i + 1) (Nat.succ_lt_succ hi) (by simpa [Nat.add_assoc] using hp)
    · rintro ⟨hzero, hsucc⟩ i hi hp
      cases i with
      | zero => exact hzero hp
      | succ i => exact hsucc i (Nat.lt_of_succ_lt_succ hi) (by simpa [Nat.add_assoc] using hp)
  rw [Delivers, Delivers, hend, List.flatten_cons, List.sum_cons, hsplit]
  constructor
  · rintro ⟨hflat, hfirst, hrest⟩
    rcases Nat.lt_or_ge pos contents.length with hlt | hge
    swap
    · -- everything has been delivered before
      have hdrop : contents.drop pos = [] := List.drop_eq_nil_of_le hge
      have hdrop' : contents.drop (pos + s) = [] := List.drop_eq_nil_of_le (by omega)
      rw [hfirst hge, hdrop, hdrop'] at hflat
      rw [hfirst hge, hdrop, hdrop']
      exact ⟨List.take_nil.symm, by simpa using hflat, hrest⟩
    · have hlen := congrArg List.length hflat
      simp only [List.length_append, List.length_take, List.length_drop] at hlen
      have hsame : (contents.take s).length = ((contents.drop pos).take s).length := by
        simp only [List.length_take, List.length_drop]
        omega
      obtain ⟨htake, hflat⟩ := List.append_inj hflat hsame
      exact ⟨htake, hflat, hrest⟩
  · rintro ⟨htake, hflat, hrest⟩
    refine ⟨by rw [hflat, ← htake], fun hge => ?_, hrest⟩
    rw [htake, List.drop_eq_nil_of_le hge, List.take_nil]

theorem restarts_cons (contents : List Byte) (pos s : Nat) (ns : List Nat) :
    Restarts contents pos (s :: ns) ↔
      contents.take s = (contents.drop pos).take s ∧ Restarts contents (pos + s) ns := by
  constructor
  · intro h
    refine ⟨h 0 (Nat.succ_pos _), fun i hi => ?_⟩
    have hsucc := h (i + 1) (Nat.succ_lt_succ hi)
    rwa [List.take_succ_cons, List.sum_cons, ← Nat.add_assoc] at hsucc
  · rintro ⟨hzero, hsucc⟩ i hi
    cases i with
    | zero => exact hzero
    | succ i =>
      rw [List.take_succ_cons, List.sum_cons, ← Nat.add_assoc]
      exact hsucc i (Nat.lt_of_succ_lt_succ hi)

theorem delivers_iff (contents : List Byte) (pos : Nat) (ns : List Nat) :
    Delivers contents pos ns (ns.map contents.take) ↔ Restarts contents pos ns := by
  induction ns generalizing pos with
  | nil => simp [Delivers, Restarts]
  | cons s ns ih => rw [List.map_cons, delivers_cons, restarts_cons, ih]

theorem not_restarts_behind (hpos : 0 < pos) (hread : ∃ s ∈ ns, s ≠ 0) (n : Nat) :
    ¬Restarts (1 :: List.replicate n 0) pos ns := by
  obtain ⟨s, hs, hne⟩ := hread
  obtain ⟨i, hi, rfl⟩ := List.getElem_of_mem hs
  intro h
  have hmem : (1 : Byte) ∈ (1 :: List.replicate n 0).take ns[i] := by
    obtain ⟨k, hk⟩ := Nat.exists_eq_succ_of_ne_zero hne
    rw [hk, List.take_succ_cons]
    exact List.mem_cons_self
  rw [h i hi] at hmem
  obtain ⟨p, hp⟩ : ∃ p, pos + (ns.take i).sum = p + 1 :=
    Nat.exists_eq_succ_of_ne_zero (by omega)
  rw [hp, List.drop_succ_cons] at hmem
  have hzero := List.eq_of_mem_replicate (List.mem_of_mem_drop (List.mem_of_mem_take hmem))
  exact absurd hzero (by decide)

/-- Reads are right for every file of a length only if there is just one of them. -/
theorem restarts_of_length_iff (n : Nat) (ns : List Nat) :
    (∀ contents : List Byte, contents.length = n → Restarts contents 0 ns) ↔
      n = 0 ∨ ns.countP (· ≠ 0) ≤ 1 := by
  constructor
  · intro h
    refine or_iff_not_imp_left.mpr fun hn => ?_
    obtain ⟨m, rfl⟩ := Nat.exists_eq_succ_of_ne_zero hn
    have hone := h (1 :: List.replicate m 0) (by simp)
    clear h
    induction ns with
    | nil => simp
    | cons s ns ih =>
      obtain ⟨-, hrest⟩ := (restarts_cons _ _ _ _).mp hone
      by_cases hs : s = 0
      · subst hs
        simpa using ih hrest
      · rw [List.countP_cons_of_pos (by simpa using hs)]
        have hnone : ns.countP (· ≠ 0) = 0 := by
          refine List.countP_eq_zero.mpr fun s' hs' hne => ?_
          exact not_restarts_behind (by omega) ⟨s', hs', by simpa using hne⟩ m hrest
        omega
  · rintro (rfl | hone) contents hlen
    · rw [List.length_eq_zero_iff.mp hlen]
      intro i hi
      simp
    · clear hlen
      induction ns with
      | nil => simp [Restarts]
      | cons s ns ih =>
        rw [restarts_cons]
        refine ⟨rfl, ?_⟩
        by_cases hs : s = 0
        · subst hs
          exact ih (by simpa using hone)
        · rw [List.countP_cons_of_pos (by simpa using hs)] at hone
          have hnone : ns.countP (· ≠ 0) = 0 := by omega
          intro i hi
          have hzero := List.countP_eq_zero.mp hnone ns[i] (List.getElem_mem hi)
          rw [decide_eq_true_eq, not_not] at hzero
          rw [hzero, List.take_zero, List.take_zero]

/-- An open file of an initrd, as `file_open` has left it. -/
structure Opened (v : FsState) (ft : FileTable) (fd : Word) (node : FsNode) : Prop where
  entry : ∃ k file, findFileByFd ft fd = some k ∧ ft.files[k]? = some file ∧ file.pos = 0 ∧
    file.fs = .initrd ∧ v.nodes[file.node]? = some node

/-- A read leaves the table as it is, since the offset has not moved. -/
theorem Opened.fileRead_eq (h : Opened v ft fd node) (size : Word) :
    fileRead v ft fd size = (some (initrdRead v node 0 size), ft) := by
  obtain ⟨k, file, hfind, hfile, hpos, hfs, hnode⟩ := h.entry
  have hread : readFile v file file.pos size = (initrdRead v node 0 size, file.pos) := by
    rw [readFile, hfs, hpos]
    simp only [hnode]
  have hset : ft.files.set k file = ft.files := by
    obtain ⟨hk, rfl⟩ := List.getElem?_eq_some_iff.mp hfile
    exact List.set_getElem_self hk
  simp only [fileRead, hfind, hfile, hread, hset]

theorem Opened.readInTurn_eq (h : Opened v ft fd node) (hat : RecordAt v.image node.inode r)
    (hbody : r.body = .file contents) (sizes : List Word) :
    readInTurn v ft fd sizes = ((sizes.map BitVec.toNat).map contents.take).map some := by
  induction sizes with
  | nil => rfl
  | cons size sizes ih =>
    have hread := hat.initrdRead_eq hbody 0 size (by
      have hlt := size.isLt
      show 0 + size.toNat < 2 ^ 32
      omega)
    rw [readInTurn, h.fileRead_eq, hread, ih]
    rfl

def noFiles : FileTable := ⟨[], 0⟩

inductive FileCall
  | fileOpen (path : List Byte) (mode : BitVec 16)
  | fileRead (fd size : Word)

/-- A task that opens and reads files, until `next_fd` would start again. -/
def fileRuns : System (FsState × FileTable) FileCall where
  start s := s.2 = noFiles
  step s call s' :=
    match call with
    | .fileOpen path mode =>
      s.2.nextFd.toNat + 1 < 2 ^ 32 ∧ s' = (fileOpen s.1 s.2 path mode).2
    | .fileRead fd size => s' = (s.1, (fileRead s.1 s.2 fd size).2)

def FdsBelow (ft : FileTable) : Prop := ∀ f ∈ ft.files, f.fd.toNat < ft.nextFd.toNat

theorem FdsBelow.fileOpen (h : FdsBelow ft) (hroom : ft.nextFd.toNat + 1 < 2 ^ 32) :
    FdsBelow (fileOpen v ft path mode).2.2 := by
  have hnext : (ft.nextFd + 1).toNat = ft.nextFd.toNat + 1 := by
    rw [BitVec.toNat_add]
    exact Nat.mod_eq_of_lt hroom
  unfold Vfs.fileOpen
  split
  · exact h
  · split
    · exact h
    · intro f hf
      show f.fd.toNat < (ft.nextFd + 1).toNat
      rw [hnext]
      rcases List.mem_append.mp hf with hf | hf
      · exact (h f hf).trans (Nat.lt_succ_self _)
      · rw [List.mem_singleton.mp hf]
        exact Nat.lt_succ_self _

theorem FdsBelow.fileRead (h : FdsBelow ft) : FdsBelow (fileRead v ft fd size).2 := by
  unfold Vfs.fileRead
  split
  · exact h
  · split
    · exact h
    · next file hfile =>
      intro f hf
      rcases List.mem_or_eq_of_mem_set hf with hf | rfl
      · exact h f hf
      · exact h file (List.mem_of_getElem? hfile)

theorem nextFd_fresh {s : FsState × FileTable} (h : fileRuns.Reachable s) :
    ∀ f ∈ s.2.files, f.fd ≠ s.2.nextFd := by
  have hbelow : FdsBelow s.2 := by
    refine h.invariant (I := fun s => FdsBelow s.2) (fun s hs => ?_) fun s call s' hs hstep => ?_
    · rw [show s.2 = noFiles from hs]
      exact fun f hf => nomatch hf
    · cases call with
      | fileOpen path mode =>
        obtain ⟨hroom, rfl⟩ := hstep
        exact hs.fileOpen hroom
      | fileRead fd size =>
        obtain rfl : s' = _ := hstep
        exact hs.fileRead
  exact fun f hf heq => lt_irrefl _ (heq ▸ hbelow f hf)

theorem Cached.fileOpen_file (hc : Cached t v) (mode : BitVec 16) (habs : path.head? = some slash)
    (hnode : nodeOf (resolvePath v path) = some (some (t.nodeFor ino))) (hr : t.record ino = some r)
    (hbody : r.body = .file contents) (hfresh : ∀ f ∈ ft.files, f.fd ≠ ft.nextFd) :
    ∃ v' ft', fileOpen v ft path mode = (ft.nextFd, v', ft') ∧ Cached t v' ∧
      Opened v' ft' ft.nextFd (t.nodeFor ino) := by
  obtain ⟨cur, rfl⟩ := List.head?_eq_some_iff.mp habs
  obtain ⟨hc', -⟩ := hc.resolvePath_eq cur
  obtain ⟨n, hn, hnode⟩ := Option.map_eq_some_iff.mp hnode
  obtain ⟨v', hresolve⟩ : ∃ v', resolvePath v (slash :: cur) = (some n, v') := ⟨_, Prod.ext hn rfl⟩
  rw [hresolve] at hc' hnode
  have hat := hc'.wellFormed.records ino r hr
  have hopen : openNode v' n = some (.initrd, none) := by
    have htype : (fileHead v'.image ino).type = initrdfsFile := by
      rw [hat.fileHead_eq, hbody]
      rfl
    rw [openNode, hnode, Option.bind_some]
    exact if_neg (not_not.mpr htype)
  have hfind : findFileByFd
      ⟨ft.files ++ [⟨ft.nextFd, mode, 0, n, .initrd, none⟩], ft.nextFd + 1⟩ ft.nextFd =
        some ft.files.length := by
    rw [findFileByFd, List.findIdx?_append, List.findIdx?_eq_none_iff.mpr (by simpa using hfresh)]
    simp
  refine ⟨v', ⟨ft.files ++ [⟨ft.nextFd, mode, 0, n, .initrd, none⟩], ft.nextFd + 1⟩, ?_, hc', ?_⟩
  · simp only [fileOpen, hresolve, hopen]
  · exact ⟨⟨_, _, hfind, List.getElem?_concat_length, rfl, rfl, hnode⟩⟩

/-- Reads of a freshly opened file deliver it piece by piece exactly when every one of
them finds at its position what the file starts with; for all files of a length, when
only one of them asks for anything. -/
theorem file_read_in_turn_iff (h : (initrdRuns t).Reachable v) (habs : path.head? = some slash)
    (hnode : nodeOf (resolvePath v path) = some (some (t.nodeFor ino))) (hr : t.record ino = some r)
    (hbody : r.body = .file contents) (hfresh : ∀ f ∈ ft.files, f.fd ≠ ft.nextFd)
    (hopen : fileOpen v ft path mode = (fd, v', ft')) (sizes : List Word) :
    ((∃ pieces, readInTurn v' ft' fd sizes = pieces.map some ∧
        Delivers contents 0 (sizes.map BitVec.toNat) pieces) ↔
      Restarts contents 0 (sizes.map BitVec.toNat)) ∧
    ((∀ other : List Byte, other.length = contents.length →
        Restarts other 0 (sizes.map BitVec.toNat)) ↔
      contents.length = 0 ∨ (sizes.map BitVec.toNat).countP (· ≠ 0) ≤ 1) := by
  refine ⟨?_, restarts_of_length_iff _ _⟩
  obtain ⟨v'', ft'', heq, hc, hopened⟩ :=
    (cached_of_reachable h).fileOpen_file mode habs hnode hr hbody hfresh
  rw [heq] at hopen
  obtain ⟨rfl, rfl, rfl⟩ : ft.nextFd = fd ∧ v'' = v' ∧ ft'' = ft' := by
    simpa only [Prod.mk.injEq] using hopen
  have hat : RecordAt v''.image (t.nodeFor ino).inode r := hc.wellFormed.records ino r hr
  rw [hopened.readInTurn_eq hat hbody, ← delivers_iff]
  constructor
  · rintro ⟨pieces, hpieces, hdelivers⟩
    rwa [← List.map_injective_iff.mpr (Option.some_injective _) hpieces] at hdelivers
  · exact fun hdelivers => ⟨_, rfl, hdelivers⟩

theorem noFiles_fresh : ∀ f ∈ noFiles.files, f.fd ≠ noFiles.nextFd :=
  nextFd_fresh (s := (unmounted [], noFiles)) (.start rfl)

theorem oneFile_node :
    nodeOf (resolvePath (initrdInit (unmounted []) oneFileImage) [slash, 102]) =
      some (some (oneFileTree.nodeFor 8)) := by decide

theorem oneFile_opened :
    ∃ v' ft', fileOpen (initrdInit (unmounted []) oneFileImage) noFiles [slash, 102] 0 =
      (0, v', ft') ∧ Cached oneFileTree v' ∧ Opened v' ft' 0 (oneFileTree.nodeFor 8) :=
  (cached_of_reachable oneFile_reachable).fileOpen_file 0 rfl oneFile_node rfl rfl noFiles_fresh

theorem file_read_in_turn_iff_example :
    ∃ v' ft', fileOpen (initrdInit (unmounted []) oneFileImage) noFiles [slash, 102] 0 =
        (0, v', ft') ∧
      ∃ pieces, readInTurn v' ft' 0 [4, 0] = pieces.map some ∧ Delivers [7] 0 [4, 0] pieces := by
  obtain ⟨v', ft', hopen, -, -⟩ := oneFile_opened
  obtain ⟨hiff, hall⟩ :=
    file_read_in_turn_iff oneFile_reachable rfl oneFile_node rfl rfl noFiles_fresh hopen [4, 0]
  exact ⟨v', ft', hopen, hiff.mpr (hall.mpr (.inr (by decide)) _ rfl)⟩

/-- The second read of one byte delivers the only byte of the file again. -/
theorem file_read_restarts : ¬∀ t v path ino r contents ft fd v' ft' sizes,
    (initrdRuns t).Reachable v → path.head? = some slash →
    nodeOf (resolvePath v path) = some (some (t.nodeFor ino)) → t.record ino = some r →
    r.body = .file contents → (∀ f ∈ ft.files, f.fd ≠ ft.nextFd) →
    fileOpen v ft path 0 = (fd, v', ft') →
    ∃ pieces, readInTurn v' ft' fd sizes = pieces.map some ∧
      Delivers contents 0 (sizes.map BitVec.toNat) pieces := by
  intro hall
  obtain ⟨v', ft', hopen, hc, hopened⟩ := oneFile_opened
  obtain ⟨pieces, hpieces, hdelivers⟩ :=
    hall _ _ _ _ _ _ _ _ _ _ [1, 1] oneFile_reachable rfl oneFile_node rfl rfl noFiles_fresh hopen
  have hat := hc.wellFormed.records 8 _ rfl
  rw [hopened.readInTurn_eq hat rfl] at hpieces
  rw [← List.map_injective_iff.mpr (Option.some_injective _) hpieces, delivers_iff] at hdelivers
  exact absurd (hdelivers 1 (by decide)) (by decide)

end RubiKernel.Vfs
