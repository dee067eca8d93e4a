import Mathlib.Data.BitVec
import Mathlib.Data.Fintype.Basic
import RubiKernel.Lib.Bits
import RubiKernel.Types

/-! `DT/dt.c`: the segment descriptors, from the logical table to the raw one. -/

namespace RubiKernel.Gdt

def gdtEntriesCount : Nat := 8

def gdtKcodeSegment : Fin gdtEntriesCount := ⟨1, by decide⟩

def gdtKdataSegment : Fin gdtEntriesCount := ⟨2, by decide⟩

def gdtKstackSegment : Fin gdtEntriesCount := ⟨3, by decide⟩

/-- `struct GDT_raw_entry_t`, its first member in the lowest bits. -/
structure GdtRawEntry where
  limitLow : BitVec 16
  baseLow : BitVec 16
  baseMiddle : BitVec 8
  type : BitVec 4
  s : BitVec 1
  dpl : BitVec 2
  p : BitVec 1
  limitHigh : BitVec 4
  a : BitVec 1
  zero : BitVec 1
  db : BitVec 1
  g : BitVec 1
  baseHigh : BitVec 8
  deriving DecidableEq

structure GdtNormalEntry where
  base : Word
  limit : Word
  type : BitVec 4
  s : BitVec 1
  dpl : BitVec 2
  p : BitVec 1
  a : BitVec 1
  db : BitVec 1
  g : BitVec 1
  deriving DecidableEq

def Rejected (source : GdtNormalEntry) : Prop :=
  source.limit > 65536 ∧ source.limit &&& 0xFFF ≠ 0xFFF

instance (source : GdtNormalEntry) : Decidable (Rejected source) :=
  inferInstanceAs (Decidable (_ ∧ _))

/-- What `encode_gdt_entry` leaves in `*target` and `*source`. -/
def encodeGdtEntry (target : GdtRawEntry) (source : GdtNormalEntry) :
    GdtRawEntry × GdtNormalEntry :=
  if Rejected source then (target, source)
  else
    let (target, source) :=
      if source.limit > 65536 ∧ source.g = 0 then
        ({ target with g := 1 }, { source with limit := source.limit >>> 12 })
      else if source.g ≠ 0 then ({ target with g := 1 }, source)
      else ({ target with g := 0 }, source)
    ({ target with
        limitLow := (source.limit &&& 0xFFFF).setWidth 16
        limitHigh := ((source.limit >>> 16) &&& 0xF).setWidth 4
        baseLow := (source.base &&& 0xFFFF).setWidth 16
        baseMiddle := ((source.base >>> 16) &&& 0xFF).setWidth 8
        baseHigh := ((source.base >>> 24) &&& 0xFF).setWidth 8
        type := source.type
        s := source.s
        dpl := source.dpl
        p := source.p
        a := source.s
        zero := 0
        db := source.db },
      source)

def GdtRawEntry.pack (e : GdtRawEntry) : BitVec 64 :=
  e.baseHigh ++ e.g ++ e.db ++ e.zero ++ e.a ++ e.limitHigh ++ e.p ++ e.dpl ++ e.s ++ e.type ++
    e.baseMiddle ++ e.baseLow ++ e.limitLow

structure GdtTables where
  gdt : Fin gdtEntriesCount → GdtRawEntry
  normalGdt : Fin gdtEntriesCount → GdtNormalEntry

def GdtTables.encodeAt (t : GdtTables) (i : Fin gdtEntriesCount) : GdtTables :=
  let (target, source) := encodeGdtEntry (t.gdt i) (t.normalGdt i)
  { gdt := Function.update t.gdt i target, normalGdt := Function.update t.normalGdt i source }

def gdtFlush (t : GdtTables) : GdtTables :=
  (List.finRange gdtEntriesCount).foldl GdtTables.encodeAt t

/-- The entries that `gdt_init` writes, and the ones it leaves at 0. -/
def gdtInit : GdtTables where
  gdt _ := ⟨0, 0, 0, 0, 0, 0, 0, 0, 0, 0, 0, 0, 0⟩
  normalGdt i :=
    if i = gdtKcodeSegment then ⟨0, 0xFFFFFFFF, 0b1010, 1, 0, 1, 0, 1, 1⟩
    else if i = gdtKdataSegment then ⟨0, 0xFFFFFFFF, 0b0010, 1, 0, 1, 0, 1, 1⟩
    else if i = gdtKstackSegment then ⟨0, 0xFFFFFFFF, 0b0010, 1, 0, 1, 0, 1, 0⟩
    else ⟨0, 0, 0, 0, 0, 0, 0, 0, 0⟩

/-- A segment as the processor reads it from its descriptor. -/
structure Segment where
  base : BitVec 32
  limit : BitVec 20
  type : BitVec 4
  s : BitVec 1
  dpl : BitVec 2
  p : BitVec 1
  avl : BitVec 1
  db : BitVec 1
  g : BitVec 1
  deriving DecidableEq

def decode (d : BitVec 64) : Segment where
  base := d.extractLsb' 56 8 ++ d.extractLsb' 32 8 ++ d.extractLsb' 16 16
  limit := d.extractLsb' 48 4 ++ d.extractLsb' 0 16
  type := d.extractLsb' 40 4
  s := d.extractLsb' 44 1
  dpl := d.extractLsb' 45 2
  p := d.extractLsb' 47 1
  avl := d.extractLsb' 52 1
  db := d.extractLsb' 54 1
  g := d.extractLsb' 55 1

/-- The last byte of the segment, counted from its base. -/
def Segment.effectiveLimit (x : Segment) : Nat :=
  if x.g = 1 then x.limit.toNat * 4096 + 4095 else x.limit.toNat

structure Lossless (source : GdtNormalEntry) (x : Segment) : Prop where
  base : x.base = source.base
  type : x.type = source.type
  s : x.s = source.s
  dpl : x.dpl = source.dpl
  p : x.p = source.p
  a : x.avl = source.a
  db : x.db = source.db
  limit : source.g = 0 → x.effectiveLimit = source.limit.toNat

variable {target : GdtRawEntry} {source : GdtNormalEntry} {t : GdtTables}
  {i : Fin gdtEntriesCount}

theorem decode_pack (e : GdtRawEntry) : decode e.pack =
    { base := e.baseHigh ++ e.baseMiddle ++ e.baseLow
      limit := e.limitHigh ++ e.limitLow
      type := e.type
      s := e.s
      dpl := e.dpl
      p := e.p
      avl := e.a
      db := e.db
      g := e.g } := by
  simp (disch := decide) only [decode, GdtRawEntry.pack, BitVec.extractLsb'_append_eq_of_le,
    BitVec.extractLsb'_append_eq_of_add_le, Nat.reduceSub, BitVec.extractLsb'_eq_self]

/-- The entry as `encode_gdt_entry` leaves it: a limit that is too large for bytes is
counted in pages. -/
def scaled (source : GdtNormalEntry) : GdtNormalEntry :=
  if source.limit > 65536 ∧ source.g = 0 then { source with limit := source.limit >>> 12 }
  else source

theorem encode_accepted (h : ¬Rejected source) :
    encodeGdtEntry target source =
      ({ limitLow := ((scaled source).limit &&& 0xFFFF).setWidth 16
         limitHigh := (((scaled source).limit >>> 16) &&& 0xF).setWidth 4
         baseLow := (source.base &&& 0xFFFF).setWidth 16
         baseMiddle := ((source.base >>> 16) &&& 0xFF).setWidth 8
         baseHigh := ((source.base >>> 24) &&& 0xFF).setWidth 8
         type := source.type
         s := source.s
         dpl := source.dpl
         p := source.p
         a := source.s
         zero := 0
         db := source.db
         g := if source.limit > 65536 ∨ source.g ≠ 0 then 1 else 0 }, scaled source) := by
  rw [encodeGdtEntry, if_neg h]
  by_cases hscale : source.limit > 65536 ∧ source.g = 0
  · obtain ⟨hlarge, hg⟩ := hscale
    simp only [scaled, hlarge, hg, and_self, true_or, if_true]
  · by_cases hg : source.g = 0
    · have hsmall : ¬source.limit > 65536 := fun hlarge => hscale ⟨hlarge, hg⟩
      simp only [scaled, hsmall, hg, false_and, if_false, ne_eq, not_true_eq_false, or_self]
    · simp only [scaled, hg, and_false, if_false, ne_eq, not_false_eq_true, if_true, or_true]

theorem encode_rejected (h : Rejected source) : encodeGdtEntry target source = (target, source) :=
  if_pos h

theorem base_pieces (x : Word) :
    x.extractLsb' 24 8 ++ x.extractLsb' 16 8 ++ x.extractLsb' 0 16 = x := by
  have hhigh : x.extractLsb' 24 8 ++ x.extractLsb' 16 8 = x.extractLsb' 16 16 :=
    BitVec.extractLsb'_append_extractLsb'_eq_extractLsb' rfl
  have hall : x.extractLsb' 16 16 ++ x.extractLsb' 0 16 = x.extractLsb' 0 32 :=
    BitVec.extractLsb'_append_extractLsb'_eq_extractLsb' rfl
  rw [hhigh, hall, BitVec.extractLsb'_eq_self]

theorem limit_pieces (x : Word) :
    x.extractLsb' 16 4 ++ x.extractLsb' 0 16 = x.extractLsb' 0 20 :=
  BitVec.extractLsb'_append_extractLsb'_eq_extractLsb' rfl

theorem decode_encode (h : ¬Rejected source) :
    decode (encodeGdtEntry target source).1.pack =
      { base := source.base
        limit := (scaled source).limit.extractLsb' 0 20
        type := source.type
        s := source.s
        dpl := source.dpl
        p := source.p
        avl := source.s
        db := source.db
        g := if source.limit > 65536 ∨ source.g ≠ 0 then 1 else 0 } := by
  have h16 : (0xFFFF : Word).setWidth 16 = BitVec.allOnes 16 := by decide
  have h8 : (0xFF : Word).setWidth 8 = BitVec.allOnes 8 := by decide
  have h4 : (0xF : Word).setWidth 4 = BitVec.allOnes 4 := by decide
  rw [encode_accepted h, decode_pack]
  simp only [Bits.masked_field _ _ _ _ h8, Bits.masked_field _ _ _ _ h4, Bits.low_field _ _ _ h16,
    base_pieces, limit_pieces]

theorem effectiveLimit_encode (target : GdtRawEntry) (h : ¬Rejected source)
    (hg : source.g = 0) :
    (decode (encodeGdtEntry target source).1.pack).effectiveLimit = source.limit.toNat := by
  rw [decode_encode h, Segment.effectiveLimit]
  by_cases hlarge : source.limit > 65536
  · have hlow : source.limit.toNat % 2 ^ 12 = 2 ^ 12 - 1 :=
      Bits.low_ones (not_not.mp fun hne => h ⟨hlarge, hne⟩) rfl
    have hlimit := source.limit.isLt
    simp only [scaled, hlarge, hg, and_self, true_or, if_true, BitVec.extractLsb'_toNat,
      BitVec.toNat_ushiftRight, Nat.shiftRight_eq_div_pow]
    omega
  · have hsmall : source.limit.toNat ≤ 65536 := BitVec.not_lt.mp hlarge
    simp only [scaled, hlarge, hg, false_and, if_false, ne_eq, not_true_eq_false, or_self,
      BitVec.extractLsb'_toNat, Nat.shiftRight_zero]
    rw [if_neg (by decide), Nat.mod_eq_of_lt (by omega)]

/-- An entry survives its encoding exactly when its `a` is the same as its `s`. -/
theorem encode_lossless_iff (h : ¬Rejected source) :
    Lossless source (decode (encodeGdtEntry target source).1.pack) ↔ source.a = source.s := by
  constructor
  · intro hlossless
    have ha := hlossless.a
    rw [decode_encode h] at ha
    exact ha.symm
  · intro ha
    have hlimit := effectiveLimit_encode target h
    rw [decode_encode h] at hlimit ⊢
    exact ⟨rfl, rfl, rfl, rfl, rfl, ha.symm, rfl, hlimit⟩

/-- A segment for user code, which uses the bit that is reserved for the system. -/
theorem encode_lossless_iff_example :
    ¬Rejected ⟨0x400000, 0x3FFFFF, 0b1010, 1, 3, 1, 1, 1, 0⟩ ∧
      Lossless ⟨0x400000, 0x3FFFFF, 0b1010, 1, 3, 1, 1, 1, 0⟩
        (decode (encodeGdtEntry (gdtInit.gdt gdtKcodeSegment)
          ⟨0x400000, 0x3FFFFF, 0b1010, 1, 3, 1, 1, 1, 0⟩).1.pack) :=
  have h : ¬Rejected ⟨0x400000, 0x3FFFFF, 0b1010, 1, 3, 1, 1, 1, 0⟩ := by decide
  ⟨h, (encode_lossless_iff h).mpr rfl⟩

theorem encode_kcode_segment :
    ¬Rejected (gdtInit.normalGdt gdtKcodeSegment) ∧
      ¬Lossless (gdtInit.normalGdt gdtKcodeSegment)
        (decode (encodeGdtEntry (gdtInit.gdt gdtKcodeSegment)
          (gdtInit.normalGdt gdtKcodeSegment)).1.pack) :=
  ⟨by decide, fun h => absurd h.a (by decide)⟩

def Rescaled (source : GdtNormalEntry) : Prop :=
  source.limit > 65536 ∧ source.limit &&& 0xFFF = 0xFFF ∧ source.g = 0

theorem encode_source (target : GdtRawEntry) (source : GdtNormalEntry) :
    (encodeGdtEntry target source).2 = source ↔ ¬Rescaled source := by
  by_cases hrejected : Rejected source
  · rw [encode_rejected hrejected]
    exact iff_of_true rfl fun hrescaled => hrejected.2 hrescaled.2.1
  · rw [encode_accepted hrejected]
    by_cases hscale : source.limit > 65536 ∧ source.g = 0
    · have hlow := not_not.mp fun hne => hrejected ⟨hscale.1, hne⟩
      refine iff_of_false (fun heq => ?_) (not_not.mpr ⟨hscale.1, hlow, hscale.2⟩)
      have hlimit : (source.limit >>> 12).toNat = source.limit.toNat := by
        rw [scaled, if_pos hscale] at heq
        exact congrArg (fun e => e.limit.toNat) heq
      have hlarge : 65536 < source.limit.toNat := hscale.1
      rw [BitVec.toNat_ushiftRight, Nat.shiftRight_eq_div_pow] at hlimit
      omega
    · rw [scaled, if_neg hscale]
      exact iff_of_true rfl fun hrescaled => hscale ⟨hrescaled.1, hrescaled.2.2⟩

/-- A limit that was counted in pages already is counted in pages of pages, or in bytes. -/
theorem encode_rescaled (h : ¬Rejected source) (hscale : source.limit > 65536 ∧ source.g = 0)
    (hnext : ¬Rejected (scaled source)) :
    (encodeGdtEntry (encodeGdtEntry target source).1 (scaled source)).1 ≠
      (encodeGdtEntry target source).1 := by
  intro heq
  have hdecode := congrArg (fun raw => decode raw.pack) heq
  simp only [decode_encode h, decode_encode hnext] at hdecode
  have hg := congrArg Segment.g hdecode
  have hlimit := congrArg (fun x => x.limit.toNat) hdecode
  have hmember : (scaled source).limit = source.limit >>> 12 ∧ (scaled source).g = 0 := by
    rw [scaled, if_pos hscale]
    exact ⟨rfl, hscale.2⟩
  by_cases hlarge : (scaled source).limit > 65536
  · have hagain : (scaled (scaled source)).limit = (scaled source).limit >>> 12 := by
      rw [scaled, if_pos ⟨hlarge, hmember.2⟩]
    have hpages : 65536 < (scaled source).limit.toNat := hlarge
    have hbytes := source.limit.isLt
    simp only [hagain, hmember.1, BitVec.extractLsb'_toNat, BitVec.toNat_ushiftRight,
      Nat.shiftRight_eq_div_pow, Nat.reducePow, Nat.div_one] at hlimit hpages
    have hpage : source.limit.toNat / 4096 < 1048576 := by omega
    have hless : source.limit.toNat / 4096 / 4096 < source.limit.toNat / 4096 := by omega
    rw [Nat.mod_eq_of_lt hpage, Nat.mod_eq_of_lt (hless.trans hpage)] at hlimit
    exact hless.ne hlimit
  · simp only [hlarge, hmember.2, hscale.1, ne_eq, not_true_eq_false, or_self, true_or, if_false,
      if_true] at hg
    exact absurd hg (by decide)

theorem encode_again (target : GdtRawEntry) (source : GdtNormalEntry) :
    (encodeGdtEntry (encodeGdtEntry target source).1 (encodeGdtEntry target source).2).1 =
        (encodeGdtEntry target source).1 ↔
      ¬Rescaled source ∨ Rejected (scaled source) := by
  by_cases hrejected : Rejected source
  · rw [encode_rejected hrejected]
    exact iff_of_true (by rw [encode_rejected hrejected])
      (.inl fun hrescaled => hrejected.2 hrescaled.2.1)
  · have hsource : (encodeGdtEntry target source).2 = scaled source := by
      rw [encode_accepted hrejected]
    by_cases hscale : source.limit > 65536 ∧ source.g = 0
    · have hlow := not_not.mp fun hne => hrejected ⟨hscale.1, hne⟩
      rw [hsource, or_iff_right (not_not.mpr ⟨hscale.1, hlow, hscale.2⟩)]
      constructor
      · exact fun heq => not_not.mp fun hnext => encode_rescaled hrejected hscale hnext heq
      · intro hnext
        rw [encode_rejected hnext]
    · have hsame : scaled source = source := if_neg hscale
      rw [hsource, hsame]
      refine iff_of_true ?_ (.inl fun hrescaled => hscale ⟨hrescaled.1, hrescaled.2.2⟩)
      rw [encode_accepted hrejected, encode_accepted hrejected]

def GdtTables.entry (t : GdtTables) (i : Fin gdtEntriesCount) : GdtRawEntry × GdtNormalEntry :=
  (t.gdt i, t.normalGdt i)

theorem encodeAt_entry (t : GdtTables) (i j : Fin gdtEntriesCount) :
    (t.encodeAt j).entry i =
      if i = j then encodeGdtEntry (t.gdt i) (t.normalGdt i) else t.entry i := by
  by_cases h : i = j
  · subst h
    simp only [GdtTables.entry, GdtTables.encodeAt, Function.update_self, if_true]
  · simp only [GdtTables.entry, GdtTables.encodeAt, Function.update_of_ne h, if_neg h]

theorem foldl_encodeAt {l : List (Fin gdtEntriesCount)} (hl : l.Nodup) (t : GdtTables) :
    (l.foldl GdtTables.encodeAt t).entry i =
      if i ∈ l then encodeGdtEntry (t.gdt i) (t.normalGdt i) else t.entry i := by
  induction l generalizing t with
  | nil => rw [if_neg List.not_mem_nil, List.foldl_nil]
  | cons j l ih =>
    obtain ⟨hj, hl⟩ := List.nodup_cons.mp hl
    have hstep := encodeAt_entry t i j
    rw [List.foldl_cons, ih hl]
    by_cases h : i = j
    · subst h
      rw [if_neg hj, hstep, if_pos rfl, if_pos List.mem_cons_self]
    · rw [if_neg h, GdtTables.entry, Prod.mk.injEq] at hstep
      simp only [List.mem_cons, h, false_or, GdtTables.entry, hstep.1, hstep.2]

theorem gdtFlush_entry (t : GdtTables) (i : Fin gdtEntriesCount) :
    (gdtFlush t).entry i = encodeGdtEntry (t.gdt i) (t.normalGdt i) := by
  rw [gdtFlush, foldl_encodeAt (List.nodup_finRange _), if_pos (List.mem_finRange i)]

theorem gdtFlush_gdt (t : GdtTables) (i : Fin gdtEntriesCount) :
    (gdtFlush t).gdt i = (encodeGdtEntry (t.gdt i) (t.normalGdt i)).1 := by
  rw [← gdtFlush_entry, GdtTables.entry]

theorem gdtFlush_normalGdt (t : GdtTables) (i : Fin gdtEntriesCount) :
    (gdtFlush t).normalGdt i = (encodeGdtEntry (t.gdt i) (t.normalGdt i)).2 := by
  rw [← gdtFlush_entry, GdtTables.entry]

/-- What a second flush changes, and what the first one stored into the logical table. -/
theorem gdtFlush_twice_iff (t : GdtTables) :
    ((gdtFlush (gdtFlush t)).gdt = (gdtFlush t).gdt ↔
        ∀ i, ¬Rescaled (t.normalGdt i) ∨ Rejected (scaled (t.normalGdt i))) ∧
      ((gdtFlush t).normalGdt = t.normalGdt ↔ ∀ i, ¬Rescaled (t.normalGdt i)) := by
  constructor
  · rw [funext_iff]
    refine forall_congr' fun i => ?_
    rw [gdtFlush_gdt (gdtFlush t), gdtFlush_gdt t, gdtFlush_normalGdt t]
    exact encode_again _ _
  · rw [funext_iff]
    refine forall_congr' fun i => ?_
    rw [gdtFlush_normalGdt]
    exact encode_source _ _

/-- The stack segment of the kernel, which a second flush cuts to 256 pages. -/
theorem gdtFlush_kstack_segment :
    ¬((gdtFlush (gdtFlush gdtInit)).gdt = (gdtFlush gdtInit).gdt) ∧
      (decode ((gdtFlush gdtInit).gdt gdtKstackSegment).pack).limit = 0xFFFFF ∧
      (decode ((gdtFlush (gdtFlush gdtInit)).gdt gdtKstackSegment).pack).limit = 0xFF := by
  refine ⟨fun heq => ?_, ?_, ?_⟩
  · have hstack := congrFun heq gdtKstackSegment
    rw [gdtFlush_gdt (gdtFlush gdtInit), gdtFlush_gdt gdtInit, gdtFlush_normalGdt gdtInit] at hstack
    exact absurd hstack (by decide)
  · rw [gdtFlush_gdt]
    decide
  · rw [gdtFlush_gdt (gdtFlush gdtInit), gdtFlush_gdt gdtInit, gdtFlush_normalGdt gdtInit]
    decide

end RubiKernel.Gdt
