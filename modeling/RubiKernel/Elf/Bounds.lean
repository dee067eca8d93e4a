import RubiKernel.Elf.Defs
import RubiKernel.Mmu.Free

/-! Where the stores of `elf_exec` go. None of the sizes in the headers is checked,
so the stores stay in the memory of the new task exactly for the headers that ask
for few enough pages in the right places. -/

namespace RubiKernel.Elf

open Memory Mmu

def pageAddrs (h : ProgramHeader) : List Word :=
  (List.range (pagesCount h)).map fun i => h.pVaddr + BitVec.ofNat 32 i * pageSize

/-- The bytes stored for a segment: those of the file, or zeros when there are none. -/
def segmentBytes (image : Memory) (h : ProgramHeader) : List (Word × Byte) :=
  (List.range (if h.pFilesz = 0 then h.pMemsz else h.pFilesz).toNat).map fun i =>
    (h.pVaddr + BitVec.ofNat 32 i,
      if h.pFilesz = 0 then 0 else image (h.pOffset + BitVec.ofNat 32 i))

def segments (image : Memory) : List ProgramHeader :=
  (programHeaders image).filter (·.pMemsz ≠ 0)

/-- A store inside what the loader has allocated or bound before it. -/
def InBounds (earlier : List Store) : Store → Prop
  | .pages i => i < 32
  | .pte i => i < 32
  | .byte a => a >>> 22 = 0 ∧ .pte (pteIndex a) ∈ earlier

/-- Every store of a log, the last one first, was in bounds. -/
def LogOk : List Store → Prop
  | [] => True
  | e :: earlier => InBounds earlier e ∧ LogOk earlier

instance {earlier : List Store} : (e : Store) → Decidable (InBounds earlier e)
  | .pages _ => inferInstanceAs (Decidable (_ < _))
  | .pte _ => inferInstanceAs (Decidable (_ < _))
  | .byte _ => inferInstanceAs (Decidable (_ ∧ _))

instance LogOk.decidable : (log : List Store) → Decidable (LogOk log)
  | [] => inferInstanceAs (Decidable True)
  | e :: earlier =>
    have := LogOk.decidable earlier
    inferInstanceAs (Decidable (InBounds earlier e ∧ LogOk earlier))

variable {kernelMap : Word → Option Word} {image : Memory} {c : Machine} {s : Loader}
  {h : ProgramHeader} {hs : List ProgramHeader} {a : Word} {v : Byte} {log log' : List Store}
  {reqs : List Word} {S T : Prop}

def loadPages (s : Loader) (h : ProgramHeader) : Loader := (pageAddrs h).foldl requestPage s

def storeBytes (kernelMap : Word → Option Word) (s : Loader) (bytes : List (Word × Byte)) : Loader :=
  bytes.foldl (fun s b => storeByte kernelMap s b.1 b.2) s

theorem loadSegment_eq (hmem : h.pMemsz ≠ 0) :
    loadSegment kernelMap image s h = storeBytes kernelMap (loadPages s h) (segmentBytes image h) := by
  simp only [loadSegment, hmem, if_false, memcpy, memset, storeBytes, loadPages, pageAddrs,
    segmentBytes, List.foldl_map]
  by_cases hfile : h.pFilesz = 0
  · simp [hfile]
  · simp only [hfile, if_false]

theorem elfExec_eq (hmagic : (elfHeader image).eiMagic = elfMagic) :
    elfExec image c = some ((segments image).foldl (fun s h =>
      storeBytes c.kernelMap (loadPages s h) (segmentBytes image h)) (newTask c)) := by
  rw [elfExec, if_pos hmagic, segments, List.foldl_filter]
  congr 2
  funext s h
  by_cases hmem : h.pMemsz = 0
  · simp [hmem, loadSegment]
  · simp only [loadSegment_eq hmem, ne_eq, hmem, not_false_eq_true, decide_true, if_true]

theorem storeByte_mapped {p : Word} (hrun : s.halted = false)
    (htr : translate kernelMap s.pageTable a = some p) :
    storeByte kernelMap s a v =
      { s with ram := Function.update s.ram p v, log := .byte a :: s.log } := by
  simp [storeByte, hrun, htr]

theorem storeByte_fault (hrun : s.halted = false)
    (htr : translate kernelMap s.pageTable a = none) :
    storeByte kernelMap s a v = { s with halted := true, log := .byte a :: s.log } := by
  simp [storeByte, hrun, htr]

structure Tracks (c : Machine) (reqs : List Word) (s : Loader) : Prop where
  running : s.halted = false
  pages : s.pages = reqs
  unlocked : s.mm.kernelPagesOperations = c.mm.kernelPagesOperations
  free : freeFrames s.mm + (granted c.mm reqs).length = freeFrames c.mm
  logged : ∀ i, .pte i ∈ s.log ↔ ∃ a ∈ granted c.mm reqs, pteIndex a = i
  present : ∀ i, .pte i ∈ s.log → (s.pageTable i).present = true
  initial : ∀ i, .pte i ∉ s.log → s.pageTable i = (newTask c).pageTable i

theorem Tracks.kernelLinear_iff (ht : Tracks c reqs s) :
    kernelLinear s.mm a ↔ kernelLinear c.mm a := by
  simp only [kernelLinear, ht.unlocked]

def Grants (c : Machine) (reqs : List Word) (a : Word) : Prop :=
  ¬kernelLinear c.mm a ∧ (granted c.mm reqs).length < freeFrames c.mm

theorem Tracks.requestPage_cases (ht : Tracks c reqs s) (a : Word) :
    (Grants c reqs a ∧ ∃ i, TaskFrame (frameOf i) ∧
      Bitmap.get s.mm.pagesBitmap (frameOf i) = false ∧
      requestPage s a =
        { s with
          pages := s.pages ++ [a]
          mm := { s.mm with pagesBitmap := Bitmap.put s.mm.pagesBitmap (frameOf i) true }
          pageTable := Function.update s.pageTable (pteIndex a) (boundEntry i)
          log := .pte (pteIndex a) :: .pages s.pages.length :: s.log }) ∨
    ¬Grants c reqs a ∧
      requestPage s a = { s with pages := s.pages ++ [a], log := .pages s.pages.length :: s.log } := by
  have hlen : (granted c.mm reqs).length < freeFrames c.mm ↔ 0 < freeFrames s.mm := by
    have hfree := ht.free
    omega
  have hiff := ht.kernelLinear_iff (a := a)
  unfold Grants
  rw [hlen, ← hiff]
  rcases allocPage_cases s.mm s.pageTable a with ⟨hfull, heq⟩ | ⟨i, hframe, -, hclear, hbind⟩
  · have hnot : ¬bindsPage s.mm s.pageTable a := fun hb => hb.1 (by rw [heq])
    refine .inr ⟨?_, ?_⟩
    · simp [freeFrames_eq_zero hfull]
    · simp [requestPage, ht.running, hnot, heq]
  · have hpos := freeFrames_pos hframe hclear
    have hne : i ≠ 0 := by
      rintro rfl
      exact absurd hframe.1 (by decide)
    rcases hbind with ⟨hguard, heq⟩ | ⟨hguard, heq⟩
    · have hnot : ¬bindsPage s.mm s.pageTable a := fun hb =>
        hb.2 (by rw [heq]; exact (bindRefused_iff hframe).mpr hguard)
      refine .inr ⟨fun hgrant => hgrant.1 hguard, ?_⟩
      simp [requestPage, ht.running, hnot, heq]
    · have hbinds : bindsPage s.mm s.pageTable a := by
        unfold bindsPage
        rw [heq]
        exact ⟨hne, fun href => hguard ((bindRefused_iff hframe).mp href)⟩
      refine .inl ⟨⟨hguard, hpos⟩, i, hframe, hclear, ?_⟩
      simp [requestPage, ht.running, hbinds, heq]

theorem granted_of_grants (hgrant : Grants c reqs a) :
    granted c.mm (reqs ++ [a]) = granted c.mm reqs ++ [a] := by
  rw [granted_concat]
  congr 1
  exact if_pos hgrant

theorem granted_of_not_grants (hgrant : ¬Grants c reqs a) :
    granted c.mm (reqs ++ [a]) = granted c.mm reqs := by
  rw [granted_concat]
  refine (congrArg _ (if_neg hgrant)).trans (List.append_nil _)

theorem Tracks.requestPage (ht : Tracks c reqs s) (a : Word) :
    Tracks c (reqs ++ [a]) (requestPage s a) := by
  rcases ht.requestPage_cases a with ⟨hgrant, i, hframe, hclear, heq⟩ | ⟨hgrant, heq⟩
  · have hput := freeFrames_put hframe hclear
    have hfree := ht.free
    rw [heq]
    constructor
    · exact ht.running
    · simp [ht.pages]
    · exact ht.unlocked
    · rw [granted_of_grants hgrant, List.length_append, List.length_singleton]
      simp only
      omega
    · intro j
      simp only [granted_of_grants hgrant, List.mem_cons, Store.pte.injEq, reduceCtorEq, false_or,
        ht.logged j, List.mem_append, List.not_mem_nil, or_false, or_and_right, exists_or,
        exists_eq_left]
      rw [or_comm, eq_comm]
    · intro j hj
      simp only [List.mem_cons, Store.pte.injEq, reduceCtorEq, false_or] at hj
      by_cases hja : j = pteIndex a
      · simp [hja, boundEntry]
      · simp only [Function.update_of_ne hja]
        exact ht.present j (hj.resolve_left hja)
    · intro j hj
      simp only [List.mem_cons, Store.pte.injEq, reduceCtorEq, false_or, not_or] at hj
      simp only [Function.update_of_ne hj.1]
      exact ht.initial j hj.2
  · rw [heq]
    refine ⟨ht.running, by simp [ht.pages], ht.unlocked, ?_, fun j => ?_, fun j hj => ?_,
      fun j hj => ht.initial j (by simpa using hj)⟩
    · rw [granted_of_not_grants hgrant]
      exact ht.free
    · simp [granted_of_not_grants hgrant, ht.logged j]
    · exact ht.present j (by simpa using hj)

theorem Tracks.requestPage_logOk (ht : Tracks c reqs s) (a : Word) :
    LogOk (Elf.requestPage s a).log ↔
      (reqs.length < 32 ∧ (Grants c reqs a → pteIndex a < 32)) ∧ LogOk s.log := by
  have hlen := congrArg List.length ht.pages
  rcases ht.requestPage_cases a with ⟨hgrant, i, hframe, hclear, heq⟩ | ⟨hgrant, heq⟩
  · rw [heq]
    simp only [LogOk, InBounds, hlen, hgrant, forall_const]
    tauto
  · rw [heq]
    simp only [LogOk, InBounds, hlen, hgrant, false_imp_iff, and_true]

/-- The requests fit into the 32 page pointers, and the granted ones into the 32
entries of the table. -/
def PagesOk (c : Machine) (reqs : List Word) : Prop :=
  reqs.length ≤ 32 ∧ ∀ a ∈ granted c.mm reqs, pteIndex a < 32

/-- The address is in a page that one of the requests has bound. -/
def Bound (c : Machine) (reqs : List Word) (a : Word) : Prop :=
  a >>> 22 = 0 ∧ ∃ b ∈ granted c.mm reqs, pteIndex b = pteIndex a

theorem pagesOk_concat :
    PagesOk c (reqs ++ [a]) ↔
      (reqs.length < 32 ∧ (Grants c reqs a → pteIndex a < 32)) ∧ PagesOk c reqs := by
  unfold PagesOk
  rw [List.length_append, List.length_singleton]
  by_cases hgrant : Grants c reqs a
  · simp only [granted_of_grants hgrant, List.forall_mem_append, List.forall_mem_singleton, hgrant,
      forall_const]
    constructor
    · rintro ⟨hlen, hold, hnew⟩
      exact ⟨⟨by omega, hnew⟩, by omega, hold⟩
    · rintro ⟨⟨hlen, hnew⟩, -, hold⟩
      exact ⟨by omega, hold, hnew⟩
  · simp only [granted_of_not_grants hgrant, hgrant, false_imp_iff, and_true]
    constructor
    · rintro ⟨hlen, hold⟩
      exact ⟨by omega, by omega, hold⟩
    · rintro ⟨hlen, -, hold⟩
      exact ⟨by omega, hold⟩

/-- Nothing is mapped but what the loader binds. -/
def Strict (c : Machine) : Prop :=
  (∀ i, (c.junk i).present = false) ∧ ∀ a, c.kernelMap a = none

/-- The log is in bounds exactly when the requests fit and the stores so far, by
`S`, went to bound pages. A fault has broken `S`; on a strict machine nothing else
breaks it. -/
def Agree (c : Machine) (reqs : List Word) (S : Prop) (s : Loader) : Prop :=
  (Tracks c reqs s ∧ (LogOk s.log ↔ PagesOk c reqs ∧ S) ∧ (Strict c → S)) ∨
    s.halted = true ∧ ¬LogOk s.log ∧ ¬S

theorem Agree.imp (hag : Agree c reqs S s) (hiff : S ↔ T) : Agree c reqs T s := by
  rwa [← propext hiff]

theorem Agree.start : Agree c [] True (newTask c) := by
  refine .inl ⟨⟨rfl, rfl, rfl, ?_, ?_, ?_, fun _ _ => rfl⟩, ?_, fun _ => trivial⟩
  · simp [newTask, granted]
  · simp [newTask, granted]
  · simp [newTask]
  · simp [newTask, LogOk, PagesOk, granted]

theorem Agree.requestPage (hag : Agree c reqs S s) (a : Word) :
    Agree c (reqs ++ [a]) S (requestPage s a) := by
  rcases hag with ⟨ht, hlog, hstrict⟩ | ⟨hhalt, hbad⟩
  · refine .inl ⟨ht.requestPage a, ?_, hstrict⟩
    rw [ht.requestPage_logOk a, hlog, pagesOk_concat]
    exact and_assoc.symm
  · refine .inr ?_
    rw [Elf.requestPage, if_pos hhalt]
    exact ⟨hhalt, hbad⟩

theorem Agree.requestPages (hag : Agree c reqs S s) (as : List Word) :
    Agree c (reqs ++ as) S (as.foldl Elf.requestPage s) := by
  induction as generalizing reqs s with
  | nil => rwa [List.append_nil]
  | cons a as ih =>
    have hstep := ih (hag.requestPage a)
    rwa [List.append_assoc] at hstep

theorem Tracks.inBounds_byte (ht : Tracks c reqs s) (a : Word) :
    InBounds s.log (.byte a) ↔ Bound c reqs a := by
  rw [InBounds, ht.logged, Bound]

theorem Tracks.translate_of_bound (ht : Tracks c reqs s) (hbound : Bound c reqs a) :
    translate kernelMap s.pageTable a =
      some ((s.pageTable (pteIndex a)).physAddr ||| (a &&& 0xFFF)) := by
  have hpresent := ht.present _ ((ht.logged _).mpr hbound.2)
  simp only [translate, hbound.1, hpresent, if_true, PageTableEntry.physAddr]

theorem Tracks.congr {ram : Memory} {log : List Store} (ht : Tracks c reqs s)
    (hlog : ∀ i, .pte i ∈ log ↔ .pte i ∈ s.log) : Tracks c reqs { s with ram := ram, log := log } :=
  ⟨ht.running, ht.pages, ht.unlocked, ht.free, fun i => (hlog i).trans (ht.logged i),
    fun i hi => ht.present i ((hlog i).mp hi),
    fun i hi => ht.initial i fun h => hi ((hlog i).mpr h)⟩

theorem Tracks.bound_of_translate {p : Word} (ht : Tracks c reqs s) (hstrict : Strict c)
    (htr : translate c.kernelMap s.pageTable a = some p) : Bound c reqs a := by
  unfold translate at htr
  split at htr
  · next hlow =>
    refine ⟨hlow, (ht.logged _).mp ?_⟩
    by_contra hnot
    have habsent : (s.pageTable (pteIndex a)).present = false := by
      rw [ht.initial _ hnot]
      simp only [newTask]
      split
      · rfl
      · exact hstrict.1 _
    simp [habsent] at htr
  · rw [hstrict.2] at htr
    cases htr

theorem Agree.storeByte (hag : Agree c reqs S s) (a : Word) (v : Byte) :
    Agree c reqs (S ∧ Bound c reqs a) (storeByte c.kernelMap s a v) := by
  rcases hag with ⟨ht, hlog, hstrict⟩ | ⟨hhalt, hbad, hS⟩
  · have hnew : LogOk (.byte a :: s.log) ↔ PagesOk c reqs ∧ S ∧ Bound c reqs a := by
      rw [LogOk, ht.inBounds_byte, hlog]
      tauto
    cases htr : translate c.kernelMap s.pageTable a with
    | some p =>
      rw [storeByte_mapped ht.running htr]
      exact .inl ⟨ht.congr (by simp), hnew, fun h => ⟨hstrict h, ht.bound_of_translate h htr⟩⟩
    | none =>
      rw [storeByte_fault ht.running htr]
      have hnot : ¬Bound c reqs a := fun hbound => by
        rw [ht.translate_of_bound hbound] at htr
        cases htr
      refine .inr ⟨rfl, ?_, fun hS => hnot hS.2⟩
      exact fun hok => hnot (hnew.mp hok).2.2
  · refine .inr ?_
    rw [Elf.storeByte, if_pos hhalt]
    exact ⟨hhalt, hbad, fun h => hS h.1⟩

theorem Agree.storeBytes (hag : Agree c reqs S s) (bytes : List (Word × Byte)) :
    Agree c reqs (S ∧ ∀ b ∈ bytes, Bound c reqs b.1) (storeBytes c.kernelMap s bytes) := by
  induction bytes generalizing s S with
  | nil => exact hag.imp (by simp)
  | cons b bytes ih =>
    exact (ih (hag.storeByte b.1 b.2)).imp (by rw [List.forall_mem_cons, and_assoc])

/-- Every byte stored for a segment is in a page bound for it or for one before. -/
def StoresOk (image : Memory) (c : Machine) (hs : List ProgramHeader) : Prop :=
  ∀ pre h, pre ++ [h] <+: hs → ∀ b ∈ segmentBytes image h,
    Bound c ((pre ++ [h]).flatMap pageAddrs) b.1

theorem storesOk_concat : StoresOk image c (hs ++ [h]) ↔
    StoresOk image c hs ∧ ∀ b ∈ segmentBytes image h,
      Bound c ((hs ++ [h]).flatMap pageAddrs) b.1 := by
  constructor
  · intro hok
    exact ⟨fun pre g hpre => hok pre g (hpre.trans (List.prefix_append ..)),
      hok hs h List.prefix_rfl⟩
  · rintro ⟨hold, hnew⟩ pre g hpre
    rcases List.prefix_concat_iff.mp hpre with heq | hpre
    · obtain ⟨rfl, hlast⟩ := List.append_inj' heq rfl
      obtain rfl := List.singleton_inj.mp hlast
      exact hnew
    · exact hold pre g hpre

theorem agree_segments (image : Memory) (c : Machine) (hs : List ProgramHeader) :
    Agree c (hs.flatMap pageAddrs) (StoresOk image c hs) (hs.foldl (fun s h =>
      storeBytes c.kernelMap (loadPages s h) (segmentBytes image h)) (newTask c)) := by
  induction hs using List.reverseRecOn with
  | nil => exact Agree.start.imp (by simp [StoresOk])
  | append_singleton hs h ih =>
    have hpages := ih.requestPages (pageAddrs h)
    have hreqs : (hs ++ [h]).flatMap pageAddrs = hs.flatMap pageAddrs ++ pageAddrs h := by simp
    rw [List.foldl_append, List.foldl_cons, List.foldl_nil, hreqs]
    refine (hpages.storeBytes (segmentBytes image h)).imp ?_
    rw [storesOk_concat, hreqs]

/-- When the stores of `elf_exec` stay in bounds: the headers ask for at most 32
pages, those that are bound have their entries among the 32 of the table, and
every byte goes to a page bound for its own segment or for one before. -/
def FitsTask (image : Memory) (c : Machine) : Prop :=
  PagesOk c ((segments image).flatMap pageAddrs) ∧ StoresOk image c (segments image)

theorem elf_exec_in_bounds_iff (hmagic : (elfHeader image).eiMagic = elfMagic) :
    (∃ s, elfExec image c = some s ∧ LogOk s.log) ↔ FitsTask image c := by
  simp only [elfExec_eq hmagic, Option.some.injEq, exists_eq_left']
  rcases agree_segments image c (segments image) with ⟨-, hlog, -⟩ | ⟨-, hbad, hS⟩
  · exact hlog
  · exact iff_of_false hbad fun hfits => hS hfits.2

theorem elf_exec_in_bounds_iff_example :
    FitsTask (oneSegment ⟨0x100, 0x1000, 4, 4⟩) emptyMachine := by
  refine (elf_exec_in_bounds_iff (by decide +kernel)).mp ?_
  have hrun : (elfExec (oneSegment ⟨0x100, 0x1000, 4, 4⟩) emptyMachine).any
      (fun s => LogOk s.log) = true := by decide +kernel
  obtain ⟨s, hs, hok⟩ := (Option.any_eq_true ..).mp hrun
  exact ⟨s, hs, of_decide_eq_true hok⟩

/-- A segment of four bytes in the kernel's code. -/
theorem elf_exec_out_of_bounds : ¬∀ image c, (elfHeader image).eiMagic = elfMagic →
    ∃ s, elfExec image c = some s ∧ LogOk s.log := by
  intro hall
  obtain ⟨s, hs, hok⟩ := hall (oneSegment ⟨0x100, 0xC0100000, 4, 4⟩) emptyMachine
    (by decide +kernel)
  have hrun : (elfExec (oneSegment ⟨0x100, 0xC0100000, 4, 4⟩) emptyMachine).any
      (fun s => LogOk s.log) = false := by decide +kernel
  rw [hs] at hrun
  simp [hok] at hrun

end RubiKernel.Elf
