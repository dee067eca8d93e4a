import RubiKernel.Elf.Program
import RubiKernel.Vfs.RoundTrip
import RubiKernel.Vfs.Shared

/-! From a directory on the host to a program that runs: the image that the builder writes, the
kernel over it, the calls of `test8`, and what the loader makes of the file. -/

universe u

namespace RubiKernel.Vfs

open Fields Lts Memory

section Mount

variable {t : Tree} {c d x ino : Word} {L : Nat} {v : FsState} {node : FsNode} {r : Record}
  {p q : List Byte} {n : Nat}

end Mount

section Opening

variable {ι : Type u} {t : Tree} {c x : Word} {L n : Nat} {v : FsState} {s : Shared ι} {i : ι}
  {y : FdTask} {r : Record} {path contents : List Byte} {modRw : BitVec 16} {entry : Word}
  {recycled : File} {writeFn : FdTable.WriteFn}

variable [DecidableEq ι] {s₁ : Shared ι} {tr : List (SharedCall ι × Shared ι)} {fd : Word}
  {file : File}

end Opening

end RubiKernel.Vfs

namespace RubiKernel.Builder

open Vfs

variable {inp : HostTree} {d : HostDir} {f : HostFile} {c : Word}

end RubiKernel.Builder

namespace RubiKernel.Elf

open Builder Lts Memory Mmu Vfs

variable {ι : Type u} [DecidableEq ι] {inp : HostTree} {d : HostDir} {f : HostFile}
  {data : List Byte} {L : Nat} {writeFn : FdTable.WriteFn} {s s₁ : Shared ι} {i : ι}
  {modRw : BitVec 16} {entry : Word} {recycled : File} {tr : List (SharedCall ι × Shared ι)}

end RubiKernel.Elf
