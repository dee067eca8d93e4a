import RubiKernel.Vfs.Cache

/-! `nodes_list` as a map from inodes to nodes, and what a `devfs_openddir` without a device
leaves in it. -/

namespace RubiKernel.Vfs

variable {v v' : FsState} {x node : FsNode} {num ino : Word} {calls : List (FsNode × Word)}

def cached (v : FsState) (ino : Word) : Option FsNode :=
  (findFsNodeByIno v ino).bind (v.nodes[·]?)

def created (v : FsState) (ino : Word) : FsNode := (cached v ino).getD (recordNode v.image ino)

def opened (v : FsState) (node : FsNode) (num : Word) : Option FsNode :=
  (initrdOpenddir v node num).1.bind ((initrdOpenddir v node num).2.nodes[·]?)

/-- `initrd_openddir` again and again: the nodes it returns, and the state it leaves. -/
def openddirs (v : FsState) : List (FsNode × Word) → List (Option FsNode) × FsState
  | [] => ([], v)
  | (node, num) :: calls =>
    let r := openddirs (initrdOpenddir v node num).2 calls
    (opened v node num :: r.1, r.2)

/-- Without a device at `num`: the call fails, and all is as if it had not been made. -/
structure LeavesCache (v : FsState) (num : Word) (recycled : FsNode) : Prop where
  null : (devfsOpenddir v num recycled).1 = none
  nodes : (devfsOpenddir v num recycled).2.nodes = v.nodes
  find : ∀ calls ino, cached (openddirs (devfsOpenddir v num recycled).2 calls).2 ino =
    cached (openddirs v calls).2 ino
  openddir : ∀ calls,
    (openddirs (devfsOpenddir v num recycled).2 calls).1 = (openddirs v calls).1

theorem cached_eq_find? (v : FsState) (ino : Word) :
    cached v ino = v.nodes.find? (·.inode = ino) :=
  List.find?_eq_bind_findIdx?_getElem?.symm

theorem cached_push (hnodes : v'.nodes = v.nodes ++ [x]) (ino : Word) :
    cached v' ino = (cached v ino).or (if x.inode = ino then some x else none) := by
  rw [cached_eq_find?, cached_eq_find?, hnodes, List.find?_append, List.find?_singleton]
  simp only [decide_eq_true_eq]

theorem cached_initrdCreateNode (v : FsState) (ino ino' : Word) :
    cached (initrdCreateNode v ino).2 ino' =
      if ino = ino' then some (created v ino') else cached v ino' := by
  rcases initrdCreateNode_cases v ino with ⟨n, heq, hfind⟩ | ⟨hfresh, heq⟩
  · obtain ⟨x, hx, -⟩ := findFsNodeByIno_some hfind
    rw [heq]
    split
    · next heq =>
      subst heq
      rw [created, cached, hfind, Option.bind_some, hx, Option.getD_some]
    · rfl
  · rw [heq, cached_push rfl]
    show (cached v ino').or (if ino = ino' then some (recordNode v.image ino) else none) = _
    split
    · next heq =>
      subst heq
      rw [created]
      cases cached v ino <;> rfl
    · rw [Option.or_none]

theorem initrdCreateNode_node (v : FsState) (ino : Word) :
    (initrdCreateNode v ino).2.nodes[(initrdCreateNode v ino).1]? = some (created v ino) := by
  rcases initrdCreateNode_cases v ino with ⟨n, heq, hfind⟩ | ⟨hfresh, heq⟩
  · obtain ⟨x, hx, -⟩ := findFsNodeByIno_some hfind
    rw [heq, created, cached, hfind, Option.bind_some, hx, Option.getD_some]
  · have hnone : cached v ino = none := by
      rw [cached_eq_find?, List.find?_eq_none]
      intro x hx hino
      exact hfresh (of_decide_eq_true hino ▸ List.mem_map_of_mem hx)
    rw [heq, created, hnone]
    exact List.getElem?_concat_length

theorem created_inode (v : FsState) (ino : Word) : (created v ino).inode = ino := by
  rw [created, cached_eq_find?]
  cases hfind : v.nodes.find? (·.inode = ino) with
  | none => rfl
  | some x => simpa using List.find?_some hfind

theorem opened_eq (v : FsState) (node : FsNode) (num : Word) :
    opened v node num = (entryAt v.image node.inode num).map (created v) := by
  rw [opened, initrdOpenddir_eq]
  cases entryAt v.image node.inode num with
  | none => rfl
  | some ino => exact initrdCreateNode_node v ino

theorem initrdOpenddir_image (v : FsState) (node : FsNode) (num : Word) :
    (initrdOpenddir v node num).2.image = v.image :=
  (extends_initrdOpenddir v node num).image

/-- To open an entry does not change what the entries lead to. -/
theorem created_initrdOpenddir (v : FsState) (node : FsNode) (num : Word) :
    created (initrdOpenddir v node num).2 = created v := by
  funext ino
  rw [created, initrdOpenddir_image, initrdOpenddir_eq]
  cases entryAt v.image node.inode num with
  | none => rfl
  | some ino' =>
    show (cached (initrdCreateNode v ino').2 ino).getD _ = _
    rw [cached_initrdCreateNode]
    split
    · rfl
    · rfl

theorem openddirs_fst (v : FsState) (calls : List (FsNode × Word)) :
    (openddirs v calls).1 = calls.map fun call => opened v call.1 call.2 := by
  induction calls generalizing v with
  | nil => rfl
  | cons call calls ih =>
    rw [openddirs, List.map_cons, ih]
    refine congrArg _ (List.map_congr_left fun call' _ => ?_)
    rw [opened_eq, opened_eq, created_initrdOpenddir, initrdOpenddir_image]

theorem cached_openddirs (v : FsState) (calls : List (FsNode × Word)) (ino : Word) :
    cached (openddirs v calls).2 ino =
      if ∃ call ∈ calls, entryAt v.image call.1.inode call.2 = some ino then some (created v ino)
      else cached v ino := by
  induction calls generalizing v with
  | nil => simp [openddirs]
  | cons call calls ih =>
    rw [openddirs, ih, created_initrdOpenddir, initrdOpenddir_image, initrdOpenddir_eq]
    simp only [List.exists_mem_cons_iff]
    split
    · next h => rw [if_pos (.inr h)]
    · next h =>
      cases hentry : entryAt v.image call.1.inode call.2 with
      | none => rw [if_neg (by simp [h])]
      | some ino' =>
        show cached (initrdCreateNode v ino').2 ino = _
        rw [cached_initrdCreateNode]
        simp only [Option.some.injEq, h, or_false]

theorem find_leftover_iff (himage : v'.image = v.image) (hnodes : v'.nodes = v.nodes ++ [x]) :
    (∀ calls ino, cached (openddirs v' calls).2 ino = cached (openddirs v calls).2 ino) ↔
      (cached v x.inode).isSome := by
  have hpush := cached_push hnodes
  constructor
  · intro hsame
    have hx : cached v' x.inode = cached v x.inode := hsame [] x.inode
    rw [← hx, hpush, if_pos rfl]
    cases cached v x.inode <;> rfl
  · intro hsome
    have hcached : cached v' = cached v := by
      funext ino
      rw [hpush]
      split
      · next heq =>
        subst heq
        obtain ⟨y, hy⟩ := Option.isSome_iff_exists.mp hsome
        rw [hy, Option.or_some, Option.getD_some]
      · rw [Option.or_none]
    intro calls ino
    rw [cached_openddirs, cached_openddirs, created, created, himage, hcached]

theorem openddir_leftover_iff (himage : v'.image = v.image) (hnodes : v'.nodes = v.nodes ++ [x]) :
    (∀ calls, (openddirs v' calls).1 = (openddirs v calls).1) ↔
      ∀ (node : FsNode) num, entryAt v.image node.inode num = some x.inode →
        cached v x.inode = none → x = recordNode v.image x.inode := by
  have hcreated (ino : Word) : created v' ino =
      if x.inode = ino ∧ cached v ino = none then x else created v ino := by
    rw [created, created, himage, cached_push hnodes]
    cases cached v ino with
    | none =>
      by_cases hino : x.inode = ino
      · simp [hino]
      · simp [hino]
    | some y => simp
  constructor
  · intro hsame node num hentry hnone
    have hopen := hsame [(node, num)]
    rw [openddirs_fst, openddirs_fst] at hopen
    replace hopen : opened v' node num = opened v node num := List.head_eq_of_cons_eq hopen
    rw [opened_eq, opened_eq, himage, hentry, Option.map_some, Option.map_some, hcreated,
      if_pos ⟨rfl, hnone⟩, created, hnone] at hopen
    exact Option.some.inj hopen
  · intro hright calls
    rw [openddirs_fst, openddirs_fst]
    refine List.map_congr_left fun call _ => ?_
    rw [opened_eq, opened_eq, himage]
    refine Option.map_congr fun ino hentry => ?_
    rw [hcreated]
    split
    · next heq =>
      obtain ⟨rfl, hnone⟩ := heq
      rw [created, hnone]
      exact hright call.1 call.2 hentry hnone
    · rfl

/-- A `devfs_openddir` without a device returns `NULL` and leaves a node in the list, with the
bytes that the heap had there: the list is never as it was. Lookups are as before exactly when
its inode was cached, and the entries of the initrd exactly when no record takes it for its
node, unless it is just that. -/
theorem devfs_openddir_missing (hdev : v.devs.length ≤ num.toNat)
    (hfind : findFsNodeByIno v num = none) (recycled : FsNode) :
    ¬LeavesCache v num recycled ∧ (devfsOpenddir v num recycled).1 = none ∧
    (devfsOpenddir v num recycled).2.nodes = v.nodes ++ [recycled] ∧
    ((∀ calls ino, cached (openddirs (devfsOpenddir v num recycled).2 calls).2 ino =
        cached (openddirs v calls).2 ino) ↔ (cached v recycled.inode).isSome) ∧
    ((∀ calls, (openddirs (devfsOpenddir v num recycled).2 calls).1 = (openddirs v calls).1) ↔
      ∀ (node : FsNode) n, entryAt v.image node.inode n = some recycled.inode →
        cached v recycled.inode = none → recycled = recordNode v.image recycled.inode) := by
  have heq := devfsOpenddir_missing recycled hfind (List.getElem?_eq_none hdev)
  refine ⟨fun h => ?_, ?_, ?_, find_leftover_iff ?_ ?_, openddir_leftover_iff ?_ ?_⟩
  · have hnodes := h.nodes
    rw [heq] at hnodes
    exact List.cons_ne_nil _ _ (List.append_right_eq_self.mp hnodes)
  all_goals rw [heq]

/-- Bytes of a node in the heap that has the inode of `dev`. -/
def twin : FsNode := { recordNode devImage 24 with inode := 8 }

/-- With one device, `/dev` is not opened yet; the bytes of the root do no harm. -/
theorem devfs_openddir_missing_example :
    ¬LeavesCache (opening [devA]).vfs 1 twin ∧ ∀ calls ino,
      cached (openddirs (devfsOpenddir (opening [devA]).vfs 1 (recordNode devImage 24)).2 calls).2
        ino = cached (openddirs (opening [devA]).vfs calls).2 ino :=
  ⟨(devfs_openddir_missing (by decide) (by decide) twin).1,
    (devfs_openddir_missing (by decide) (by decide) (recordNode devImage 24)).2.2.2.1.mpr
      (by decide)⟩

/-- The leftover is then opened in the place of `/dev`. -/
theorem devfs_openddir_leaves_twin : ¬∀ v num recycled, v.devs.length ≤ num.toNat →
    findFsNodeByIno v num = none → LeavesCache v num recycled := by
  intro hall
  have h := hall (opening [devA]).vfs 1 twin (by decide) (by decide)
  have hopen := h.openddir [(recordNode devImage 24, 0)]
  exact absurd hopen (by decide +kernel)

end RubiKernel.Vfs
