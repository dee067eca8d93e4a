import RubiKernel.Elf.Content
import RubiKernel.Elf.Release

/-! Programs as `prog/linker.ld` lays them out, and what becomes of one: it is loaded
from any memory that begins with its file, and its pages come back in the end. -/

namespace RubiKernel.Elf

open Memory Mmu

def firstPage (h : ProgramHeader) : Nat := h.pVaddr.toNat / 4096

/-- The headers and what they take of the file lie in its first `size` bytes, and every section
is a segment of its own at the start of a page, with all of its bytes in the file or none. -/
structure Linked (header : ElfHeader) (segments : List ProgramHeader) (size : Nat) : Prop where
  magic : header.eiMagic = elfMagic
  long : 52 ≤ size
  headers : ∀ i < header.ePhnum.toNat,
    header.ePhoff.toNat + i * header.ePhentsize.toNat + 32 ≤ size
  inside : ∀ h ∈ segments, h.pOffset.toNat + h.pFilesz.toNat ≤ size
  whole : ∀ h ∈ segments, h.pFilesz = 0 ∨ h.pFilesz = h.pMemsz
  aligned : ∀ h ∈ segments, h.pVaddr.toNat % 4096 = 0
  low : ∀ h ∈ segments, firstPage h + pagesCount h ≤ 32
  apart : segments.Pairwise fun g h =>
    firstPage g + pagesCount g ≤ firstPage h ∨ firstPage h + pagesCount h ≤ firstPage g

/-- A program in the first `size` bytes of a memory. -/
def Program (image : Memory) (size : Nat) : Prop := Linked (elfHeader image) (segments image) size

variable {image image' : Memory} {size k : Nat} {c : Machine} {h g : ProgramHeader} {a : Word}
  {s : Loader}

section Locality

def SameUpTo (size : Nat) (image image' : Memory) : Prop :=
  ∀ a : Word, a.toNat < size → image' a = image a

theorem SameUpTo.read32 (hsame : SameUpTo size image image') (hsize : size ≤ 2 ^ 32)
    (ha : a.toNat + 4 ≤ size) : read32 image' a = read32 image a := by
  refine read32_congr _ fun i hi => hsame _ ?_
  rw [BitVec.toNat_add, BitVec.toNat_ofNat]
  omega

theorem SameUpTo.elfHeader (hsame : SameUpTo size image image') (hsize : size ≤ 2 ^ 32)
    (hlen : 52 ≤ size) : elfHeader image' = elfHeader image := by
  have hword : ∀ a : Word, a.toNat + 4 ≤ 52 → Memory.read32 image' a = Memory.read32 image a :=
    fun a ha => hsame.read32 hsize (by omega)
  simp only [Elf.elfHeader, read16_eq]
  rw [hword 0 (by decide), hword 24 (by decide), hword 28 (by decide), hword 42 (by decide),
    hword 44 (by decide)]

theorem SameUpTo.programHeader (hsame : SameUpTo size image image') (hsize : size ≤ 2 ^ 32)
    (hheader : Elf.elfHeader image' = Elf.elfHeader image) {i : Nat}
    (hi : (Elf.elfHeader image).ePhoff.toNat + i * (Elf.elfHeader image).ePhentsize.toNat + 32 ≤
      size) : programHeader image' i = programHeader image i := by
  have hword : ∀ b : Word, b.toNat + 4 ≤ 32 →
      Memory.read32 image' ((Elf.elfHeader image).ePhoff +
          BitVec.ofNat 32 (i * (Elf.elfHeader image).ePhentsize.toNat) + b) =
        Memory.read32 image ((Elf.elfHeader image).ePhoff +
          BitVec.ofNat 32 (i * (Elf.elfHeader image).ePhentsize.toNat) + b) := by
    intro b hb
    refine hsame.read32 hsize ?_
    rw [BitVec.toNat_add, BitVec.toNat_add, BitVec.toNat_ofNat]
    omega
  simp only [Elf.programHeader, hheader]
  rw [hword 4 (by decide), hword 8 (by decide), hword 16 (by decide), hword 20 (by decide)]

theorem Program.segments_eq (hp : Program image size) (hsize : size ≤ 2 ^ 32)
    (hsame : SameUpTo size image image') : segments image' = segments image := by
  have hheader := hsame.elfHeader hsize hp.long
  have hall : programHeaders image' = programHeaders image := by
    rw [programHeaders, programHeaders, hheader]
    exact List.map_congr_left fun i hi =>
      hsame.programHeader hsize hheader (hp.headers i (List.mem_range.mp hi))
  rw [segments, segments, hall]

theorem Program.congr (hp : Program image size) (hsize : size ≤ 2 ^ 32)
    (hsame : SameUpTo size image image') : Program image' size := by
  rw [Program, hsame.elfHeader hsize hp.long, hp.segments_eq hsize hsame]
  exact hp

end Locality

section Layout

variable {pre post : List ProgramHeader} {v : Byte} {b : Word × Byte}

theorem Program.memsz_lt (hp : Program image size) (hh : h ∈ segments image) :
    h.pVaddr.toNat = 4096 * firstPage h ∧ h.pMemsz.toNat / 4096 < pagesCount h ∧
      firstPage h + pagesCount h ≤ 32 := by
  have haligned := hp.aligned h hh
  refine ⟨?_, ?_, hp.low h hh⟩
  · rw [firstPage]
    omega
  · rw [pagesCount_eq]
    exact Nat.lt_succ_self _

theorem Program.pteIndex_byte (hp : Program image size) (hh : h ∈ segments image)
    (hk : k / 4096 < pagesCount h) :
    (h.pVaddr + BitVec.ofNat 32 k) >>> 22 = 0 ∧
      pteIndex (h.pVaddr + BitVec.ofNat 32 k) = firstPage h + k / 4096 := by
  obtain ⟨haddr, -, hlow⟩ := hp.memsz_lt hh
  have hsum : (h.pVaddr + BitVec.ofNat 32 k).toNat = h.pVaddr.toNat + k := by
    rw [BitVec.toNat_add, BitVec.toNat_ofNat]
    omega
  rw [low_iff, pteIndex_eq, hsum]
  omega

theorem Program.pteIndex_pages (hp : Program image size) (hh : h ∈ segments image) :
    (pageAddrs h).map pteIndex = List.range' (firstPage h) (pagesCount h) := by
  rw [pageAddrs, List.map_map, List.range'_eq_map_range]
  refine List.map_congr_left fun i hi => ?_
  have haddr : BitVec.ofNat 32 i * pageSize = BitVec.ofNat 32 (i * 4096) :=
    (BitVec.ofNat_mul ..).symm
  have hi := List.mem_range.mp hi
  have hdiv : i * 4096 / 4096 = i := Nat.mul_div_cancel _ (by decide)
  have hbyte := (hp.pteIndex_byte hh (k := i * 4096) (by omega)).2
  rw [hdiv] at hbyte
  rwa [Function.comp_apply, haddr]

theorem Program.asksFor_iff (hp : Program image size) (hh : h ∈ segments image) :
    asksFor h a ↔ firstPage h ≤ pteIndex a ∧ pteIndex a < firstPage h + pagesCount h := by
  rw [asksFor, hp.pteIndex_pages hh, List.mem_range'_1]

theorem Program.asksFor_byte (hp : Program image size) (hh : h ∈ segments image)
    (hk : k < h.pMemsz.toNat) : asksFor h (h.pVaddr + BitVec.ofNat 32 k) := by
  have hlast := (hp.memsz_lt hh).2.1
  have hdiv : k / 4096 ≤ h.pMemsz.toNat / 4096 := Nat.div_le_div_right hk.le
  rw [hp.asksFor_iff hh, (hp.pteIndex_byte hh (by omega)).2]
  omega

theorem Program.segmentBytes_eq (hp : Program image size) (hh : h ∈ segments image) :
    segmentBytes image h = (List.range h.pMemsz.toNat).map fun k =>
      (h.pVaddr + BitVec.ofNat 32 k, prescribed image h k) := by
  have hlen : (if h.pFilesz = 0 then h.pMemsz else h.pFilesz) = h.pMemsz := by
    split
    · rfl
    · next hne => exact (hp.whole h hh).resolve_left hne
  rw [segmentBytes, hlen]
  refine List.map_congr_left fun k hk => Prod.ext rfl ?_
  show (if h.pFilesz = 0 then 0 else image _) = prescribed image h k
  rw [prescribed]
  by_cases hzero : h.pFilesz = 0
  · rw [if_pos hzero, hzero]
    exact (if_neg (Nat.not_lt_zero k)).symm
  · rw [if_neg hzero, (hp.whole h hh).resolve_left hzero, if_pos (List.mem_range.mp hk)]

theorem Program.bytesMapped (hp : Program image size) : BytesMapped image (segments image) := by
  intro pre h hpre b hb
  have hh : h ∈ segments image := hpre.subset (by simp)
  rw [hp.segmentBytes_eq hh] at hb
  obtain ⟨k, hk, rfl⟩ := List.mem_map.mp hb
  have hk := List.mem_range.mp hk
  have hlast := (hp.memsz_lt hh).2.1
  have hdiv : k / 4096 ≤ h.pMemsz.toNat / 4096 := Nat.div_le_div_right hk.le
  exact ⟨(hp.pteIndex_byte hh (by omega)).1, h, by simp, hp.asksFor_byte hh hk⟩

/-- What a segment stores stays when no segment after it asks for the page. -/
theorem Program.lastByte_eq (hp : Program image size) (hsplit : segments image = pre ++ h :: post)
    (hpost : ∀ g ∈ post, ¬asksFor g a) (hv : (a, v) ∈ segmentBytes image h) :
    lastByte image (segments image) a = some v := by
  have hkeep : ∀ (l : List ProgramHeader) (o : Option Byte), (∀ g ∈ l, g ∈ segments image) →
      (∀ g ∈ l, ¬asksFor g a) → l.foldl (fun b g => ((segmentBytes image g).lookup a).or
        (if asksFor g a then none else b)) o = o := by
    intro l o hmem hnot
    induction l with
    | nil => rfl
    | cons g l ih =>
      obtain ⟨hg, hl⟩ := List.forall_mem_cons.mp hmem
      obtain ⟨hga, hla⟩ := List.forall_mem_cons.mp hnot
      have hkey : a ∉ (segmentBytes image g).map Prod.fst := by
        rw [hp.segmentBytes_eq hg, List.map_map]
        intro hkey
        obtain ⟨k, hk, rfl⟩ := List.mem_map.mp hkey
        exact hga (hp.asksFor_byte hg (List.mem_range.mp hk))
      rw [List.foldl_cons, Assoc.lookup_eq_none hkey, if_neg hga, Option.none_or]
      exact ih hl hla
  have hlookup := (Assoc.lookup_eq_some (segmentBytes_keys image h)).mpr hv
  rw [lastByte, hsplit, List.foldl_append, List.foldl_cons, hlookup, Option.some_or]
  exact hkeep post _ (fun g hg => by simp [hsplit, hg]) hpost

theorem Program.apart_after (hp : Program image size)
    (hsplit : segments image = pre ++ h :: post) (ha : asksFor h a) : ∀ g ∈ post, ¬asksFor g a := by
  intro g hg hga
  have hapart := hp.apart
  rw [hsplit] at hapart
  have hpair := (List.pairwise_cons.mp (List.pairwise_append.mp hapart).2.1).1 g hg
  rw [hp.asksFor_iff (by simp [hsplit])] at ha
  rw [hp.asksFor_iff (by simp [hsplit, hg])] at hga
  omega

theorem Program.loadsRight (hp : Program image size) : LoadsRight image := by
  refine ⟨hp.bytesMapped, fun h hh k hk => ?_⟩
  obtain ⟨pre, post, hsplit⟩ := List.append_of_mem hh
  refine hp.lastByte_eq hsplit (hp.apart_after hsplit (hp.asksFor_byte hh hk)) ?_
  rw [hp.segmentBytes_eq hh]
  exact List.mem_map.mpr ⟨k, List.mem_range.mpr hk, rfl⟩

end Layout

section Life

theorem Program.entries (hp : Program image size) :
    (((segments image).flatMap pageAddrs).map pteIndex).Nodup ∧
      ∀ i ∈ ((segments image).flatMap pageAddrs).map pteIndex, i < 32 := by
  have hpages : ((segments image).flatMap pageAddrs).map pteIndex =
      (segments image).flatMap fun h => List.range' (firstPage h) (pagesCount h) := by
    rw [List.map_flatMap]
    exact List.flatMap_congr fun h hh => hp.pteIndex_pages hh
  rw [hpages]
  constructor
  · rw [List.nodup_flatMap]
    refine ⟨fun h _ => List.nodup_range', hp.apart.imp fun {g h} hgh => ?_⟩
    intro i hg hh
    rw [List.mem_range'_1] at hg hh
    omega
  · intro i hi
    obtain ⟨h, hh, hi⟩ := List.mem_flatMap.mp hi
    have hlow := hp.low h hh
    rw [List.mem_range'_1] at hi
    omega

theorem Program.length_le (hp : Program image size) :
    ((segments image).flatMap pageAddrs).length ≤ 32 := by
  obtain ⟨hnodup, hlt⟩ := hp.entries
  have hsub := hnodup.subperm fun i hi => List.mem_range.mpr (hlt i hi)
  have hlen := hsub.length_le
  rwa [List.length_map, List.length_range] at hlen

theorem Program.loadable (hp : Program image size) : Loadable image := by
  refine ⟨hp.magic, hp.length_le, fun h hh => ?_⟩
  obtain ⟨haddr, hlast, hlow⟩ := hp.memsz_lt hh
  omega

theorem Program.conserves (hp : Program image size) (hready : Ready image c) :
    Conserves c ((segments image).flatMap pageAddrs) := by
  obtain ⟨hnodup, hlt⟩ := hp.entries
  refine ⟨fun a ha => hlt _ (List.mem_map_of_mem ha), ?_, .inl hready⟩
  rwa [granted_eq_self (hp.loadable.not_kernelLinear List.prefix_rfl) hready]

/-- The loader returns without a store out of its bounds, the new task reads what the headers in
`file` prescribe, and `task_delete` gives back the pages. -/
structure Started (file image : Memory) (c : Machine) (s : Loader) : Prop where
  loaded : elfExec image c = some s
  running : s.halted = false
  inBounds : LogOk s.log
  reads : ∀ h ∈ segments file, ∀ k < h.pMemsz.toNat,
    readUser s (h.pVaddr + BitVec.ofNat 32 k) = some (prescribed file h k)
  restored : Restored c s

theorem Program.started (hp : Program image size) (hready : Ready image c) :
    ∃ s, Started image image c s := by
  have hl := hp.loadable
  have hlow := hl.not_kernelLinear (c := c) List.prefix_rfl
  obtain ⟨hmapped, hlast⟩ := hp.loadsRight
  have hstores := (hl.storesOk_iff hready).mpr hmapped
  obtain ⟨ht, hc⟩ := contents_segments hstores hlow hready
  refine ⟨_, hl.elfExec, ht.running, ?_, fun h hh k hk => hc.readUser ht (hlast h hh k hk), ?_⟩
  · rcases agree_segments image c (segments image) with ⟨-, hlog, -⟩ | ⟨-, -, hbad⟩
    · refine hlog.mpr ⟨⟨hl.pages, fun a ha => ?_⟩, hstores⟩
      rw [granted_eq_self hlow hready] at ha
      exact hp.entries.2 _ (List.mem_map_of_mem ha)
    · exact absurd hstores hbad
  · obtain ⟨bound, hh⟩ := running_segments image c (segments image) ht.running
    exact hh.conserved hlow (hp.conserves hready)

end Life

end RubiKernel.Elf
