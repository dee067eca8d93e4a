import RubiKernel.Lib.Memory
import RubiKernel.Types

/-! `vfs/node.c`, `vfs/file.c` and the two file systems, `vfs/fs/initrd.c` and
`vfs/fs/devfs.c`. A pointer to a node is its place in `nodes_list`, from which
nothing is ever deleted. -/

namespace RubiKernel.Vfs

open Memory

def nodeNameSize : Nat := 128

def fsFile : Word := 1

def fsDirectory : Word := 2

def fsChrdevice : Word := 3

def fsMountpoint : Word := 8

def headMagic : Word := 0xABCDABCD

def fileMagic : Word := 0xAABBCCDD

def initrdfsFile : Byte := 1

def initrdfsDir : Byte := 2

def slash : Byte := 47

/-- The characters before the terminator. -/
def cString (bytes : List Byte) : List Byte := bytes.takeWhile (· ≠ 0)

/-- Whose functions a node or a file has. -/
inductive FileSystem
  | initrd
  | devfs
  deriving DecidableEq

/-- The fields of `fs_node_t` that are ever read; `close`, `finddir` and `ptr` are 0
in every node. -/
structure FsNode where
  name : List Byte
  flags : Word
  length : Word
  inode : Word
  impl : Word
  fs : FileSystem
  deriving DecidableEq

structure Dirent where
  name : List Byte
  ino : Word
  deriving DecidableEq

/-- A device, by the string that its driver copies to `name` and what `read_fn` stores
for an offset and a size, with the offset it leaves. -/
structure Dev where
  name : List Byte
  named : name ≠ []
  fits : name.length < 8
  noNul : (0 : Byte) ∉ name
  noSlash : slash ∉ name
  readFn : Word → Word → List Byte × Word

/-- `ird_stat.head`, as the bytes from it on, `nodes_list` and `dev_list`; `recycled`
is what the heap holds where the next node is allocated. -/
structure FsState where
  image : Memory
  nodes : List FsNode
  devs : List Dev
  recycled : FsNode

def findFsNodeByIno (v : FsState) (ino : Word) : Option Nat := v.nodes.findIdx? (·.inode = ino)

structure FileHead where
  magic : Word
  size : Word
  nameSize : Word
  type : Byte
  deriving DecidableEq

def fileHead (image : Memory) (offset : Word) : FileHead where
  magic := read32 image offset
  size := read32 image (offset + 4)
  nameSize := read32 image (offset + 8)
  type := image (offset + 12)

/-- What lies behind the name of a record: the bytes of a file, or the pointers of
a directory. -/
def payloadAt (image : Memory) (offset : Word) : Word :=
  offset + 13 + (fileHead image offset).nameSize

/-- The name of a record, copied and terminated. -/
def nameOf (image : Memory) (offset : Word) : List Byte :=
  cString ((List.range (fileHead image offset).nameSize.toNat).map fun i =>
    image (offset + 13 + BitVec.ofNat 32 i))

def initrdCreateNode (v : FsState) (offset : Word) : Nat × FsState :=
  match findFsNodeByIno v offset with
  | some n => (n, v)
  | none =>
    let data := fileHead v.image offset
    let node :=
      { name := nameOf v.image offset
        flags := if data.type = initrdfsFile then fsFile
          else if data.type = initrdfsDir then fsDirectory else 0
        length := data.size
        inode := offset
        impl := 0
        fs := .initrd }
    (v.nodes.length, { v with nodes := v.nodes ++ [node] })

def initrdInit (v : FsState) (image : Memory) : FsState :=
  let v := { v with image := image }
  let offset := read32 image 4
  if read32 image 0 ≠ headMagic then v
  else if (fileHead image offset).magic ≠ fileMagic then v
  else if (findFsNodeByIno v offset).isSome then v
  else if (fileHead image offset).type = initrdfsFile then v
  else (initrdCreateNode v offset).2

def childPtr (image : Memory) (offset num : Word) : Word :=
  read32 image (payloadAt image offset + 4 * num)

/-- `none` for 0. The check of the child's record looks at the directory's again. -/
def initrdReaddir (v : FsState) (node : FsNode) (num : Word) : Option Dirent :=
  let entry := fileHead v.image node.inode
  if entry.magic ≠ fileMagic then none
  else if entry.type ≠ initrdfsDir then none
  else if num ≥ entry.size then none
  else
    let ino := childPtr v.image node.inode num
    if entry.magic ≠ fileMagic then none else some ⟨nameOf v.image ino, ino⟩

def initrdOpenddir (v : FsState) (node : FsNode) (num : Word) : Option Nat × FsState :=
  let entry := fileHead v.image node.inode
  if entry.magic ≠ fileMagic then (none, v)
  else if entry.type ≠ initrdfsDir then (none, v)
  else if num ≥ entry.size then (none, v)
  else
    let nextNum := childPtr v.image node.inode num
    if entry.magic ≠ fileMagic then (none, v)
    else
      let r := initrdCreateNode v nextNum
      (some r.1, r.2)

/-- The bytes stored at `buff`. -/
def initrdRead (v : FsState) (node : FsNode) (offset size : Word) : List Byte :=
  let entry := fileHead v.image node.inode
  if offset ≥ entry.size then []
  else
    let ret := if offset + size ≥ entry.size then entry.size - offset else size
    (List.range ret.toNat).map fun i =>
      v.image (payloadAt v.image node.inode + offset + BitVec.ofNat 32 i)

def devCreate (v : FsState) (dev : Dev) : FsState := { v with devs := v.devs ++ [dev] }

def devfsCreateNode (v : FsState) (id : Word) : Option Nat × FsState :=
  match findFsNodeByIno v id with
  | some n => (some n, v)
  | none =>
    match v.devs[id.toNat]? with
    | none => (none, { v with nodes := v.nodes ++ [v.recycled] })
    | some dev =>
      let node :=
        { name := dev.name
          flags := fsChrdevice
          length := 0
          inode := id
          impl := 1
          fs := .devfs }
      (some v.nodes.length, { v with nodes := v.nodes ++ [node] })

def devfsMount (v : FsState) (n : Nat) : FsState :=
  { v with
    nodes := v.nodes.modify n fun node =>
      { node with
        flags := fsDirectory ||| fsMountpoint
        length := BitVec.ofNat 32 v.devs.length
        impl := 1
        fs := .devfs } }

def devfsReaddir (v : FsState) (node : FsNode) (num : Word) : Option Dirent :=
  if node.flags &&& fsDirectory ≠ fsDirectory then none
  else if num.toNat ≥ v.devs.length then none
  else v.devs[num.toNat]?.map fun dev => ⟨dev.name, num⟩

/-- `node->readdir(node, num, &dir)`. -/
def readdir (v : FsState) (n : Nat) (num : Word) : Option Dirent :=
  v.nodes[n]?.bind fun node =>
    match node.fs with
    | .initrd => initrdReaddir v node num
    | .devfs => devfsReaddir v node num

/-- `node->opennode(node, num)`. -/
def opennode (v : FsState) (n : Nat) (num : Word) : Option Nat × FsState :=
  match v.nodes[n]? with
  | none => (none, v)
  | some node =>
    match node.fs with
    | .initrd => initrdOpenddir v node num
    | .devfs => devfsCreateNode v num

/-- The loop of `resolve_path` over the entries of a directory, `count` turns of it
from the entry `i` on. -/
def searchDir (v : FsState) (n : Nat) (part : List Byte) : Nat → Nat → Option Nat × FsState
  | 0, _ => (some n, v)
  | count + 1, i =>
    match readdir v n (BitVec.ofNat 32 i) with
    | some dir =>
      if dir.name = part then opennode v n (BitVec.ofNat 32 i) else searchDir v n part count (i + 1)
    | none => (none, v)

def findChild (v : FsState) (n : Nat) (part : List Byte) : Option Nat × FsState :=
  match v.nodes[n]? with
  | none => (none, v)
  | some node => searchDir v n part (node.length + 1).toNat 0

/-- The loop of `resolve_path` over the components, with the turns that are left. -/
def walk (v : FsState) (n : Nat) : Nat → List Byte → Option Nat × FsState
  | 0, _ => (some n, v)
  | _ + 1, [] => (some n, v)
  | k + 1, c :: cur =>
    let part := (c :: cur).takeWhile (· ≠ slash)
    if part.length ≥ nodeNameSize then (none, v)
    else
      let rest := ((c :: cur).dropWhile (· ≠ slash)).dropWhile (· = slash)
      match findChild v n part with
      | (none, v) => (none, v)
      | (some n, v) => walk v n k rest

def resolvePath (v : FsState) : List Byte → Option Nat × FsState
  | [] => (none, v)
  | c :: cur =>
    if c ≠ slash then (none, v)
    else if v.nodes = [] then (none, v)
    else walk v 0 8 cur

/-- An open file; `device` is the device that `private_data` points to. -/
structure File where
  fd : Word
  mode : BitVec 16
  pos : Word
  node : Nat
  fs : FileSystem
  device : Option Nat
  deriving DecidableEq

/-- `fd_table` and `next_fd` of a task, the open files in their order; `FdTable` has them in the
cyclic list of the source. -/
structure FileTable where
  files : List File
  nextFd : Word

/-- `node->open(node, file)`: the file system and the device that the file gets. -/
def openNode (v : FsState) (n : Nat) : Option (FileSystem × Option Nat) :=
  v.nodes[n]?.bind fun node =>
    match node.fs with
    | .initrd =>
      if (fileHead v.image node.inode).type ≠ initrdfsFile then none else some (.initrd, none)
    | .devfs =>
      if node.inode.toNat < v.devs.length then some (.devfs, some node.inode.toNat) else none

/-- The descriptor, or -1. -/
def fileOpen (v : FsState) (t : FileTable) (path : List Byte) (mode : BitVec 16) :
    Word × FsState × FileTable :=
  match resolvePath v path with
  | (none, v) => (-1, v, t)
  | (some n, v) =>
    match openNode v n with
    | none => (-1, v, t)
    | some (fs, device) =>
      (t.nextFd, v,
        { files := t.files ++ [⟨t.nextFd, mode, 0, n, fs, device⟩]
          nextFd := t.nextFd + 1 })

def findFileByFd (t : FileTable) (fd : Word) : Option Nat := t.files.findIdx? (·.fd = fd)

/-- `file->read(file, &offset, size, buff)`: the bytes stored at `buff`, their number
being the value returned, and `offset` after the call. -/
def readFile (v : FsState) (file : File) (offset size : Word) : List Byte × Word :=
  match file.fs with
  | .initrd =>
    match v.nodes[file.node]? with
    | none => ([], offset)
    | some node => (initrdRead v node offset size, offset)
  | .devfs =>
    match file.device.bind fun k => v.devs[k]? with
    | none => ([], offset)
    | some dev => dev.readFn offset size

/-- The bytes delivered, or `none` for -1. -/
def fileRead (v : FsState) (t : FileTable) (fd size : Word) : Option (List Byte) × FileTable :=
  match findFileByFd t fd with
  | none => (none, t)
  | some k =>
    match t.files[k]? with
    | none => (none, t)
    | some file =>
      let r := readFile v file file.pos size
      (some r.1, { t with files := t.files.set k { file with pos := r.2 } })

end RubiKernel.Vfs
