import RubiKernel.Elf.Bounds
import RubiKernel.Lib.Assoc

/-! What the new task finds at the addresses of its segments. A byte is there when
the last segment that stores at its address, or asks for its page again, stores it. -/

namespace RubiKernel.Elf

open Memory Mmu

/-- The physical address behind a linear one whose page is bound. -/
def physOf (pt : PageTable) (a : Word) : Word := (pt (pteIndex a)).physAddr ||| (a &&& 0xFFF)

def readUser (s : Loader) (a : Word) : Option Byte :=
  (translate (fun _ => none) s.pageTable a).map s.ram

def prescribed (image : Memory) (h : ProgramHeader) (k : Nat) : Byte :=
  if k < h.pFilesz.toNat then image (h.pOffset + BitVec.ofNat 32 k) else 0

def asksFor (h : ProgramHeader) (a : Word) : Prop := pteIndex a ∈ (pageAddrs h).map pteIndex

instance {h : ProgramHeader} {a : Word} : Decidable (asksFor h a) :=
  inferInstanceAs (Decidable (_ ∈ _))

/-- What the last segment that stores at `a` stores there, when no segment after
it asks for the page of `a`. -/
def lastByte (image : Memory) (hs : List ProgramHeader) (a : Word) : Option Byte :=
  hs.foldl (fun b h => ((segmentBytes image h).lookup a).or (if asksFor h a then none else b)) none

variable {image : Memory} {c : Machine} {s : Loader} {h : ProgramHeader} {hs : List ProgramHeader}
  {a b : Word} {v : Byte} {reqs : List Word} {known : Word → Option Byte} {pt : PageTable}

theorem physOf_toNat (pt : PageTable) (a : Word) :
    (physOf pt a).toNat = 4096 * (pt (pteIndex a)).pagePhysAddr.toNat + a.toNat % 4096 := by
  have hlow : (a &&& 0xFFF).toNat = a.toNat % 4096 := by
    rw [BitVec.toNat_and]
    exact Nat.and_two_pow_sub_one_eq_mod _ 12
  have hshift : 4096 * (pt (pteIndex a)).pagePhysAddr.toNat =
      (pt (pteIndex a)).pagePhysAddr.toNat <<< 12 := by
    rw [Nat.shiftLeft_eq]
    omega
  rw [physOf, BitVec.toNat_or, physAddr_toNat, hlow, hshift]
  exact (Nat.shiftLeft_add_eq_or_of_lt (by omega) _).symm

theorem frameOf_physOf (pt : PageTable) (a : Word) :
    frameOf (physOf pt a) = (pt (pteIndex a)).pagePhysAddr.toNat := by
  rw [frameOf, physOf_toNat]
  omega

theorem physOf_inj (ha : a >>> 22 = 0) (hb : b >>> 22 = 0)
    (hunique : (pt (pteIndex a)).pagePhysAddr = (pt (pteIndex b)).pagePhysAddr →
      pteIndex a = pteIndex b) (heq : physOf pt a = physOf pt b) : a = b := by
  have hframe := congrArg frameOf heq
  rw [frameOf_physOf, frameOf_physOf] at hframe
  have hindex := hunique (BitVec.eq_of_toNat_eq hframe)
  have hnat := congrArg BitVec.toNat heq
  rw [physOf_toNat, physOf_toNat, hframe] at hnat
  rw [low_iff] at ha hb
  rw [pteIndex_eq, pteIndex_eq] at hindex
  refine BitVec.eq_of_toNat_eq ?_
  omega

/-- The bound entries refer to distinct marked pages, the pages without a mark are
as they were, and the bound bytes are the known ones or as they were. -/
structure Contents (c : Machine) (known : Word → Option Byte) (s : Loader) : Prop where
  mapped : ∀ i, .pte i ∈ s.log → TaskFrame (s.pageTable i).pagePhysAddr.toNat ∧
    Bitmap.get s.mm.pagesBitmap (s.pageTable i).pagePhysAddr.toNat = true
  unique : ∀ i j, .pte i ∈ s.log → .pte j ∈ s.log →
    (s.pageTable i).pagePhysAddr = (s.pageTable j).pagePhysAddr → i = j
  fresh : ∀ p, TaskFrame (frameOf p) → Bitmap.get s.mm.pagesBitmap (frameOf p) = false →
    s.ram p = c.ram p
  bytes : ∀ a : Word, a >>> 22 = 0 → .pte (pteIndex a) ∈ s.log →
    s.ram (physOf s.pageTable a) = (known a).getD (c.ram (physOf s.pageTable a))
  stored : ∀ a v, known a = some v → a >>> 22 = 0 ∧ .pte (pteIndex a) ∈ s.log

theorem Contents.start : Contents c (fun _ => none) (newTask c) := by
  constructor <;> simp [newTask]

structure Binds (s s' : Loader) (a i : Word) : Prop where
  entry : s'.pageTable (pteIndex a) = boundEntry i
  other : ∀ j, j ≠ pteIndex a → s'.pageTable j = s.pageTable j
  ram : s'.ram = s.ram
  bits : ∀ f, Bitmap.get s'.mm.pagesBitmap f =
    if f = frameOf i then true else Bitmap.get s.mm.pagesBitmap f
  log : ∀ j, .pte j ∈ s'.log ↔ j = pteIndex a ∨ .pte j ∈ s.log

theorem Tracks.binds (ht : Tracks c reqs s) (hgrant : Grants c reqs a) :
    ∃ i, TaskFrame (frameOf i) ∧ Bitmap.get s.mm.pagesBitmap (frameOf i) = false ∧
      Binds s (Elf.requestPage s a) a i := by
  rcases ht.requestPage_cases a with ⟨-, i, hframe, hclear, heq⟩ | ⟨hnot, -⟩
  · refine ⟨i, hframe, hclear, ?_⟩
    rw [heq]
    exact
      { entry := Function.update_self ..
        other := fun j hj => Function.update_of_ne hj ..
        ram := rfl
        bits := fun f => Bitmap.get_put (by decide)
        log := fun j => by simp }
  · exact absurd hgrant hnot

theorem Binds.physOf {s' : Loader} {i : Word} (h : Binds s s' a i) (hb : pteIndex b ≠ pteIndex a) :
    physOf s'.pageTable b = physOf s.pageTable b := by
  rw [Elf.physOf, h.other _ hb, Elf.physOf]

theorem Contents.entry_ne {i : Word} (hc : Contents c known s)
    (hclear : Bitmap.get s.mm.pagesBitmap (frameOf i) = false) {j : Nat} (hj : .pte j ∈ s.log) :
    (s.pageTable j).pagePhysAddr ≠ (boundEntry i).pagePhysAddr := by
  intro heq
  have hmarked := (hc.mapped j hj).2
  rw [heq, frameOf_boundEntry i, hclear] at hmarked
  cases hmarked

theorem Contents.requestPage (hc : Contents c known s) (ht : Tracks c reqs s)
    (hgrant : Grants c reqs a) :
    Contents c (fun b => if pteIndex a = pteIndex b then none else known b) (requestPage s a) := by
  obtain ⟨i, hframe, hclear, hbinds⟩ := ht.binds hgrant
  have hnew := frameOf_boundEntry i
  have hlog : ∀ j, .pte j ∈ (Elf.requestPage s a).log → j ≠ pteIndex a → .pte j ∈ s.log :=
    fun j hj hja => ((hbinds.log j).mp hj).resolve_left hja
  constructor
  · intro j hj
    by_cases hja : j = pteIndex a
    · rw [hja, hbinds.entry, hnew, hbinds.bits, if_pos rfl]
      exact ⟨hframe, rfl⟩
    · rw [hbinds.other j hja, hbinds.bits, (hc.mapped j (hlog j hj hja)).2, ite_self]
      exact ⟨(hc.mapped j (hlog j hj hja)).1, rfl⟩
  · intro j k hj hk hjk
    by_cases hja : j = pteIndex a <;> by_cases hka : k = pteIndex a
    · rw [hja, hka]
    · rw [hja, hbinds.entry, hbinds.other k hka] at hjk
      exact absurd hjk.symm (hc.entry_ne hclear (hlog k hk hka))
    · rw [hka, hbinds.entry, hbinds.other j hja] at hjk
      exact absurd hjk (hc.entry_ne hclear (hlog j hj hja))
    · rw [hbinds.other j hja, hbinds.other k hka] at hjk
      exact hc.unique j k (hlog j hj hja) (hlog k hk hka) hjk
  · intro p hp hfree
    rw [hbinds.bits] at hfree
    split at hfree
    · cases hfree
    · rw [hbinds.ram]
      exact hc.fresh p hp hfree
  · intro b hb hj
    by_cases hba : pteIndex b = pteIndex a
    · have hphys : frameOf (Elf.physOf (Elf.requestPage s a).pageTable b) = frameOf i := by
        rw [frameOf_physOf, hba, hbinds.entry, hnew]
      rw [hbinds.ram, if_pos hba.symm]
      exact hc.fresh _ (hphys ▸ hframe) (hphys ▸ hclear)
    · rw [hbinds.ram, hbinds.physOf hba, if_neg (Ne.symm hba)]
      exact hc.bytes b hb (hlog _ hj hba)
  · intro b v hv
    split at hv
    · cases hv
    · obtain ⟨hlow, hlogged⟩ := hc.stored b v hv
      exact ⟨hlow, (hbinds.log _).mpr (Or.inr hlogged)⟩

theorem Contents.requestPages {as : List Word} (hc : Contents c known s) (ht : Tracks c reqs s)
    (hlow : ∀ a ∈ as, ¬kernelLinear c.mm a) (hlen : reqs.length + as.length ≤ freeFrames c.mm) :
    Tracks c (reqs ++ as) (as.foldl Elf.requestPage s) ∧
      Contents c (fun b => if pteIndex b ∈ as.map pteIndex then none else known b)
        (as.foldl Elf.requestPage s) := by
  induction as generalizing reqs s known with
  | nil => simpa using ⟨ht, hc⟩
  | cons a as ih =>
    obtain ⟨ha, hlow⟩ := List.forall_mem_cons.mp hlow
    rw [List.length_cons] at hlen
    have hle : (granted c.mm reqs).length ≤ reqs.length := by
      unfold granted
      rw [List.length_take]
      exact (Nat.min_le_right _ _).trans (List.length_filter_le ..)
    have hgrant : Grants c reqs a := ⟨ha, by omega⟩
    have hrest := ih (hc.requestPage ht hgrant) (ht.requestPage a) hlow
      (by rw [List.length_append, List.length_singleton]; omega)
    rw [List.append_assoc] at hrest
    refine ⟨hrest.1, ?_⟩
    have hknown : (fun b => if pteIndex b ∈ (a :: as).map pteIndex then none else known b) =
        fun b => if pteIndex b ∈ as.map pteIndex then none
          else if pteIndex a = pteIndex b then none else known b := by
      funext b
      rw [List.map_cons]
      by_cases h₁ : pteIndex b ∈ as.map pteIndex
      · rw [if_pos (List.mem_cons_of_mem _ h₁), if_pos h₁]
      · by_cases h₂ : pteIndex a = pteIndex b
        · rw [if_pos (by simp [h₂]), if_neg h₁, if_pos h₂]
        · rw [if_neg (by simpa [Ne.symm h₂] using h₁), if_neg h₁, if_neg h₂]
    rw [hknown]
    exact hrest.2

theorem Contents.storeByte (hc : Contents c known s) (ht : Tracks c reqs s)
    (hbound : Bound c reqs a) (v : Byte) :
    Tracks c reqs (storeByte c.kernelMap s a v) ∧
      Contents c (Function.update known a (some v)) (storeByte c.kernelMap s a v) := by
  have htr : translate c.kernelMap s.pageTable a = some (physOf s.pageTable a) :=
    ht.translate_of_bound hbound
  have hidx : .pte (pteIndex a) ∈ s.log := (ht.logged _).mpr hbound.2
  rw [storeByte_mapped ht.running htr]
  refine ⟨ht.congr (by simp), ⟨?_, ?_, ?_, ?_, ?_⟩⟩
  · intro i hi
    exact hc.mapped i (by simpa using hi)
  · intro i j hi hj
    exact hc.unique i j (by simpa using hi) (by simpa using hj)
  · intro p hp hfree
    have hne : p ≠ physOf s.pageTable a := by
      rintro rfl
      rw [frameOf_physOf, (hc.mapped _ hidx).2] at hfree
      cases hfree
    simp only [Function.update_of_ne hne]
    exact hc.fresh p hp hfree
  · intro b hb hlogged
    replace hlogged : .pte (pteIndex b) ∈ s.log := by simpa using hlogged
    by_cases hba : b = a
    · simp [hba]
    · have hne : physOf s.pageTable b ≠ physOf s.pageTable a := fun heq =>
        hba (physOf_inj hb hbound.1 (hc.unique _ _ hlogged hidx) heq)
      simp only [Function.update_of_ne hne, Function.update_of_ne hba]
      exact hc.bytes b hb hlogged
  · intro b w hw
    by_cases hba : b = a
    · subst hba
      exact ⟨hbound.1, by simpa using hidx⟩
    · rw [Function.update_of_ne hba] at hw
      obtain ⟨hlow, hlogged⟩ := hc.stored b w hw
      exact ⟨hlow, by simpa using hlogged⟩

theorem Contents.storeBytes {bytes : List (Word × Byte)} (hc : Contents c known s)
    (ht : Tracks c reqs s) (hbound : ∀ b ∈ bytes, Bound c reqs b.1) :
    Tracks c reqs (storeBytes c.kernelMap s bytes) ∧
      Contents c (bytes.foldl (fun (f : Word → Option Byte) e => Function.update f e.1 (some e.2))
        known) (storeBytes c.kernelMap s bytes) := by
  induction bytes generalizing s known with
  | nil => exact ⟨ht, hc⟩
  | cons b bytes ih =>
    obtain ⟨hb, hbound⟩ := List.forall_mem_cons.mp hbound
    obtain ⟨ht', hc'⟩ := hc.storeByte ht hb b.2
    exact ih hc' ht' hbound

theorem segmentBytes_keys (image : Memory) (h : ProgramHeader) :
    ((segmentBytes image h).map Prod.fst).Nodup := by
  rw [segmentBytes, List.map_map]
  refine List.Nodup.map_on (fun i hi j hj heq => ?_) List.nodup_range
  have hlt : ∀ x : Word, x.toNat < 2 ^ 32 := fun x => x.isLt
  have hi := (List.mem_range.mp hi).trans (hlt _)
  have hj := (List.mem_range.mp hj).trans (hlt _)
  have hnat := congrArg BitVec.toNat heq
  simp only [Function.comp_apply, BitVec.toNat_add, BitVec.toNat_ofNat] at hnat
  omega

def loadSegments (image : Memory) (c : Machine) (hs : List ProgramHeader) : Loader :=
  hs.foldl (fun s h => storeBytes c.kernelMap (loadPages s h) (segmentBytes image h)) (newTask c)

theorem loadSegments_concat (image : Memory) (c : Machine) (hs : List ProgramHeader)
    (h : ProgramHeader) :
    loadSegments image c (hs ++ [h]) =
      storeBytes c.kernelMap (loadPages (loadSegments image c hs) h) (segmentBytes image h) := by
  simp [loadSegments]

theorem contents_segments (hstores : StoresOk image c hs)
    (hlow : ∀ a ∈ hs.flatMap pageAddrs, ¬kernelLinear c.mm a)
    (hlen : (hs.flatMap pageAddrs).length ≤ freeFrames c.mm) :
    Tracks c (hs.flatMap pageAddrs) (loadSegments image c hs) ∧
      Contents c (lastByte image hs) (loadSegments image c hs) := by
  induction hs using List.reverseRecOn with
  | nil =>
    refine ⟨?_, .start⟩
    rcases Agree.start (c := c) with ⟨ht, -⟩ | ⟨-, -, hfalse⟩
    · exact ht
    · exact absurd trivial hfalse
  | append_singleton hs h ih =>
    have hreqs : (hs ++ [h]).flatMap pageAddrs = hs.flatMap pageAddrs ++ pageAddrs h := by simp
    rw [storesOk_concat] at hstores
    rw [hreqs] at hlow hlen hstores ⊢
    obtain ⟨hlow₁, hlow₂⟩ := List.forall_mem_append.mp hlow
    rw [List.length_append] at hlen
    obtain ⟨ht, hc⟩ := ih hstores.1 hlow₁ (by omega)
    obtain ⟨ht, hc⟩ := hc.requestPages ht hlow₂ hlen
    obtain ⟨ht, hc⟩ := hc.storeBytes ht hstores.2
    rw [Assoc.foldl_update _ (segmentBytes_keys image h)] at hc
    have hlast : lastByte image (hs ++ [h]) = fun a =>
        ((segmentBytes image h).lookup a).or (if asksFor h a then none else lastByte image hs a) := by
      funext a
      simp [lastByte]
    rw [loadSegments_concat, hlast]
    exact ⟨ht, hc⟩

/-- The images of the loader's purpose: few pages, low in the address space. -/
structure Loadable (image : Memory) : Prop where
  magic : (elfHeader image).eiMagic = elfMagic
  pages : ((segments image).flatMap pageAddrs).length ≤ 32
  first32 : ∀ h ∈ segments image, h.pVaddr.toNat + h.pMemsz.toNat ≤ 32 * 4096

def Ready (image : Memory) (c : Machine) : Prop :=
  ((segments image).flatMap pageAddrs).length ≤ freeFrames c.mm

/-- The loader returns, and every byte of every segment reads as its header says. -/
def Loaded (image : Memory) (c : Machine) : Prop :=
  ∃ s, elfExec image c = some s ∧ s.halted = false ∧
    ∀ h ∈ segments image, ∀ k < h.pMemsz.toNat,
      readUser s (h.pVaddr + BitVec.ofNat 32 k) = some (prescribed image h k)

/-- Every stored byte has a page that its own segment, or one before, asks for. -/
def BytesMapped (image : Memory) (hs : List ProgramHeader) : Prop :=
  ∀ pre h, pre ++ [h] <+: hs → ∀ b ∈ segmentBytes image h,
    b.1 >>> 22 = 0 ∧ ∃ g ∈ pre ++ [h], asksFor g b.1

instance : Decidable (BytesMapped image hs) :=
  decidable_of_iff (∀ pre ∈ hs.inits, ∀ h ∈ pre.getLast?, (segmentBytes image h).all fun b =>
    b.1 >>> 22 = 0 ∧ ∃ g ∈ pre, asksFor g b.1) (by
      simp only [List.all_eq_true, decide_eq_true_eq]
      constructor
      · intro hall pre h hpre
        exact hall _ ((List.mem_inits ..).mpr hpre) h (by simp)
      · intro hall pre hpre h hh
        obtain ⟨pre, rfl⟩ := List.getLast?_eq_some_iff.mp hh
        exact hall pre h ((List.mem_inits ..).mp hpre))

/-- Every stored byte has its page, and for every byte of a segment the last
segment that stores at its address or asks for its page stores what the header
prescribes. -/
def LoadsRight (image : Memory) : Prop :=
  BytesMapped image (segments image) ∧
    ∀ h ∈ segments image, ∀ k < h.pMemsz.toNat,
      lastByte image (segments image) (h.pVaddr + BitVec.ofNat 32 k) = some (prescribed image h k)

instance : Decidable (LoadsRight image) :=
  inferInstanceAs (Decidable (BytesMapped _ _ ∧ ∀ h ∈ _, ∀ k < _, _))

theorem pagesCount_eq (h : ProgramHeader) : pagesCount h = h.pMemsz.toNat / 4096 + 1 := by
  have hlt := h.pMemsz.isLt
  rw [pagesCount, BitVec.toNat_add, BitVec.toNat_udiv, show pageSize.toNat = 4096 from rfl]
  show (h.pMemsz.toNat / 4096 + 1) % 2 ^ 32 = _
  omega

theorem Loadable.not_kernelLinear (hl : Loadable image) (hpre : hs <+: segments image) :
    ∀ a ∈ hs.flatMap pageAddrs, ¬kernelLinear c.mm a := by
  rintro a ha ⟨hgt, -⟩
  obtain ⟨h, hh, ha⟩ := List.mem_flatMap.mp ha
  obtain ⟨i, hi, rfl⟩ := List.mem_map.mp ha
  have hfirst := hl.first32 h (hpre.subset hh)
  have hi := List.mem_range.mp hi
  rw [pagesCount_eq] at hi
  have hgt := BitVec.lt_def.mp hgt
  rw [BitVec.toNat_add, BitVec.toNat_mul, BitVec.toNat_ofNat, show pageSize.toNat = 4096 from rfl,
    show virtBase.toNat = 0xC0000000 from rfl] at hgt
  omega

theorem granted_eq_self (hlow : ∀ a ∈ reqs, ¬kernelLinear c.mm a)
    (hlen : reqs.length ≤ freeFrames c.mm) : granted c.mm reqs = reqs := by
  unfold granted
  rw [List.filter_eq_self.mpr (by simpa using hlow), List.take_of_length_le hlen]

theorem Ready.length_le (hready : Ready image c) (hpre : hs <+: segments image) :
    (hs.flatMap pageAddrs).length ≤ freeFrames c.mm := by
  obtain ⟨tl, heq⟩ := hpre
  unfold Ready at hready
  rw [← heq, List.flatMap_append, List.length_append] at hready
  omega

theorem Loadable.storesOk_iff (hl : Loadable image) (hready : Ready image c) :
    StoresOk image c (segments image) ↔ BytesMapped image (segments image) := by
  refine forall_congr' fun pre => forall_congr' fun h => forall_congr' fun hpre =>
    forall_congr' fun b => forall_congr' fun _ => ?_
  rw [Bound, granted_eq_self (hl.not_kernelLinear hpre) (hready.length_le hpre)]
  simp only [List.mem_flatMap, asksFor, List.mem_map]
  refine and_congr_right fun _ => ⟨?_, ?_⟩
  · rintro ⟨p, ⟨g, hg, hp⟩, heq⟩
    exact ⟨g, hg, p, hp, heq⟩
  · rintro ⟨g, hg, p, hp, heq⟩
    exact ⟨p, ⟨g, hg, hp⟩, heq⟩

theorem Loadable.elfExec (hl : Loadable image) :
    elfExec image c = some (loadSegments image c (segments image)) := elfExec_eq hl.magic

theorem readUser_of_logged (ht : Tracks c reqs s) (hlow : a >>> 22 = 0)
    (hlogged : .pte (pteIndex a) ∈ s.log) : readUser s a = some (s.ram (physOf s.pageTable a)) := by
  have htr : translate (fun _ => none) s.pageTable a = some (physOf s.pageTable a) :=
    ht.translate_of_bound ⟨hlow, (ht.logged _).mp hlogged⟩
  rw [readUser, htr, Option.map_some]

theorem Contents.readUser (hc : Contents c known s) (ht : Tracks c reqs s)
    (hknown : known a = some v) : readUser s a = some v := by
  obtain ⟨hlow, hlogged⟩ := hc.stored a v hknown
  rw [readUser_of_logged ht hlow hlogged, hc.bytes a hlow hlogged, hknown, Option.getD_some]

/-- Nothing is mapped at first, no page is used, and every byte is `g`. -/
def bareMachine (g : Byte) : Machine where
  mm := zeroMemory
  ram := fun _ => g
  junk := fun _ => default
  kernelMap := fun _ => none

theorem bareMachine_strict (g : Byte) : Strict (bareMachine g) := ⟨fun _ => rfl, fun _ => rfl⟩

theorem bareMachine_ready (hl : Loadable image) (g : Byte) : Ready image (bareMachine g) := by
  have hpages := hl.pages
  have hclear : ∀ f, TaskFrame f → Bitmap.get zeroMemory.pagesBitmap f = false := fun f _ => by
    simp [Bitmap.get, zeroMemory]
  show _ ≤ freeFrames zeroMemory
  rw [freeFrames_clear hclear]
  omega

/-- A read that does not depend on what the frames held is of a known byte. -/
theorem Contents.known_of_readUser {g : Byte} (hc : Contents (bareMachine g) known s)
    (ht : Tracks (bareMachine g) reqs s) (hread : Elf.readUser s a = some v) (hne : g ≠ v) :
    known a = some v := by
  have htr : ∃ p, translate (bareMachine g).kernelMap s.pageTable a = some p := by
    obtain ⟨p, hp, -⟩ := Option.map_eq_some_iff.mp hread
    exact ⟨p, hp⟩
  obtain ⟨p, hp⟩ := htr
  obtain ⟨hlow, hbound⟩ := ht.bound_of_translate (bareMachine_strict g) hp
  have hlogged := (ht.logged _).mpr hbound
  rw [readUser_of_logged ht hlow hlogged, hc.bytes a hlow hlogged] at hread
  cases hknown : known a with
  | none =>
    rw [hknown] at hread
    exact absurd (Option.some.inj hread) hne
  | some w =>
    rw [hknown] at hread
    exact hread

/-- Loading is right whatever the fresh frames held exactly when the headers say
everything the loader does not do by itself. -/
theorem elf_exec_loads_iff (hl : Loadable image) :
    (∀ c, Ready image c → Loaded image c) ↔ LoadsRight image := by
  constructor
  · intro hall
    have hstores : BytesMapped image (segments image) := by
      have hready := bareMachine_ready hl 0
      obtain ⟨s, hs, hrun, -⟩ := hall _ hready
      rw [hl.elfExec] at hs
      obtain rfl := Option.some.inj hs
      rw [← hl.storesOk_iff hready]
      rcases agree_segments image (bareMachine 0) (segments image) with
        ⟨-, -, hstrict⟩ | ⟨hhalt, -⟩
      · exact hstrict (bareMachine_strict 0)
      · exact absurd (hhalt.symm.trans hrun) (by decide)
    refine ⟨hstores, fun h hh k hk => ?_⟩
    have hready := bareMachine_ready hl (prescribed image h k + 1)
    obtain ⟨s, hs, -, hread⟩ := hall _ hready
    rw [hl.elfExec] at hs
    obtain rfl := Option.some.inj hs
    obtain ⟨ht, hc⟩ := contents_segments ((hl.storesOk_iff hready).mpr hstores)
      (hl.not_kernelLinear List.prefix_rfl) hready
    refine hc.known_of_readUser ht (hread h hh k hk) fun heq => ?_
    have hone : (1 : Byte) = 0 := add_eq_left.mp heq
    exact absurd hone (by decide)
  · rintro ⟨hstores, hlast⟩ c hready
    obtain ⟨ht, hc⟩ := contents_segments ((hl.storesOk_iff hready).mpr hstores)
      (hl.not_kernelLinear List.prefix_rfl) hready
    exact ⟨_, hl.elfExec, ht.running, fun h hh k hk => hc.readUser ht (hlast h hh k hk)⟩

/-- Four bytes of code and eight zeros. -/
theorem elf_exec_loads_iff_example :
    LoadsRight (twoSegments ⟨0x100, 0x1000, 4, 4⟩ ⟨0, 0x3000, 0, 8⟩) ∧
      ∀ c, Ready (twoSegments ⟨0x100, 0x1000, 4, 4⟩ ⟨0, 0x3000, 0, 8⟩) c →
        Loaded (twoSegments ⟨0x100, 0x1000, 4, 4⟩ ⟨0, 0x3000, 0, 8⟩) c := by
  have hright : LoadsRight (twoSegments ⟨0x100, 0x1000, 4, 4⟩ ⟨0, 0x3000, 0, 8⟩) := by
    decide +kernel
  exact ⟨hright, (elf_exec_loads_iff
    ⟨by decide +kernel, by decide +kernel, by decide +kernel⟩).mpr hright⟩

/-- One byte of the file and one of zeros: the second one is what the frame held. -/
theorem elf_exec_leaves_garbage : ¬∀ image, Loadable image →
    ((segments image).Pairwise fun g h =>
      g.pVaddr.toNat + g.pMemsz.toNat ≤ h.pVaddr.toNat ∨
        h.pVaddr.toNat + h.pMemsz.toNat ≤ g.pVaddr.toNat) →
    ∀ c, Ready image c → Loaded image c := by
  intro hall
  have hl : Loadable (oneSegment ⟨0x100, 0x1000, 1, 2⟩) :=
    ⟨by decide +kernel, by decide +kernel, by decide +kernel⟩
  obtain ⟨s, hs, -, hread⟩ := hall _ hl (by decide +kernel) _ (bareMachine_ready hl 1)
  have hgarbage : (elfExec (oneSegment ⟨0x100, 0x1000, 1, 2⟩) (bareMachine 1)).map
      (fun s => readUser s 0x1001) = some (some 1) := by decide +kernel
  have hbyte : readUser s 0x1001 = some 0 :=
    hread ⟨0x100, 0x1000, 1, 2⟩ (by decide +kernel) 1 (by decide)
  rw [hs, Option.map_some, hbyte] at hgarbage
  exact absurd hgarbage (by decide)

end RubiKernel.Elf
