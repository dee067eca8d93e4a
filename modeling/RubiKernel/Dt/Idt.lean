import RubiKernel.Lib.Assoc
import RubiKernel.Lib.Bits
import RubiKernel.Lib.Memory
import RubiKernel.Types

/-! `idt_init` of `DT/dt.c`, and the gates that the processor finds in the table. -/

namespace RubiKernel.Dt

open Memory

def idtEntriesCount : Nat := 256

def interruptGate : Byte := 0x8E

def gdtKcodeSelector : BitVec 16 := 0x8

structure IdtEntry where
  offsetLowerbits : BitVec 16
  selector : BitVec 16
  zero : Byte
  typeAttr : Byte
  offsetHigherbits : BitVec 16
  deriving DecidableEq

/-- The eight bytes of an entry, as the two words of them. -/
def IdtEntry.words (e : IdtEntry) : List Word :=
  [e.selector ++ e.offsetLowerbits, e.offsetHigherbits ++ e.typeAttr ++ e.zero]

abbrev IdtTable := Byte → IdtEntry

/-- What `idt_fill_entry` stores. -/
def IdtEntry.fill (handler : Word) : IdtEntry where
  offsetLowerbits := (handler &&& 0xFFFF).setWidth 16
  selector := gdtKcodeSelector
  zero := 0
  typeAttr := interruptGate
  offsetHigherbits := (handler >>> 16).setWidth 16

def idtFillEntry (t : IdtTable) (offset : Byte) (handler : Word) : IdtTable :=
  Function.update t offset (.fill handler)

inductive IntHandler
  | divisionByZero
  | doubleFail
  | segmentNotPresent
  | generalProtect
  | aligmentCheck
  | pageFault
  | timer
  | keyboard
  | syscall
  deriving DecidableEq

/-- The calls of `idt_fill_entry` in `idt_init`. -/
def idtFilled : List (Byte × IntHandler) :=
  [(0x0, .divisionByZero), (0x8, .doubleFail), (0xB, .segmentNotPresent), (0xD, .generalProtect),
    (0x11, .aligmentCheck), (0xE, .pageFault), (0x20, .timer), (0x21, .keyboard), (0x80, .syscall)]

def idtInit (address : IntHandler → Word) (t : IdtTable) : IdtTable :=
  idtFilled.foldl (fun t x => idtFillEntry t x.1 (address x.2)) t

def idtPtr (idtAddress : Word) : List Word :=
  [BitVec.ofNat 32 (8 * idtEntriesCount) + ((idtAddress &&& 0xFFFF) <<< 16), idtAddress >>> 16]

structure Idtr where
  limit : BitVec 16
  base : Word

/-- `lidt` takes six bytes. -/
def lidt (mem : Memory) (a : Word) : Idtr where
  limit := read16 mem a
  base := read32 mem (a + 2)

/-- A gate of 32 bits, as the processor uses it. -/
structure Gate where
  selector : BitVec 16
  offset : Word
  /-- An interrupt gate clears the interrupt flag, a trap gate does not. -/
  clearsIf : Bool
  deriving DecidableEq

/-- The gate of a vector; `none` when the processor faults instead. -/
def gateAt (mem : Memory) (idtr : Idtr) (v : Byte) : Option Gate :=
  let low := read32 mem (idtr.base + 8 * v.setWidth 32)
  let high := read32 mem (idtr.base + 8 * v.setWidth 32 + 4)
  if 8 * v.toNat + 7 ≤ idtr.limit.toNat ∧ high.getLsbD 15 ∧ high.extractLsb' 9 4 = 0b0111 then
    some
      { selector := low.extractLsb' 16 16
        offset := high.extractLsb' 16 16 ++ low.extractLsb' 0 16
        clearsIf := !high.getLsbD 8 }
  else none

/-- `idt_table` in memory. -/
def TableAt (mem : Memory) (a : Word) (t : IdtTable) : Prop :=
  ∀ v : Byte, BytesAt mem (a + 8 * v.setWidth 32) ((t v).words.flatMap bytes32)

def noGates : IdtTable := fun _ => ⟨0, 0, 0, 0, 0⟩

def handlerOf (v : Byte) : Option IntHandler := idtFilled.lookup v

variable {mem : Memory} {a p x : Word} {t : IdtTable} {v : Byte} {h : IntHandler} {idtr : Idtr}
  {address : IntHandler → Word} {e : IdtEntry}

theorem idtPtr_low (x : Word) : BitVec.ofNat 32 (8 * idtEntriesCount) + ((x &&& 0xFFFF) <<< 16) =
    x.extractLsb' 0 16 ++ (0x800 : BitVec 16) := by
  have hlow : (x &&& 0xFFFF).toNat = x.toNat % 2 ^ 16 := Bits.low_toNat x (by decide : 16 ≤ 32)
  refine BitVec.eq_of_toNat_eq ?_
  rw [BitVec.toNat_append, BitVec.toNat_add, BitVec.toNat_shiftLeft, hlow, BitVec.extractLsb'_toNat,
    ← Nat.shiftLeft_add_eq_or_of_lt (BitVec.isLt _), Nat.shiftLeft_eq, Nat.shiftLeft_eq,
    Nat.shiftRight_zero]
  show (2048 + _ % 2 ^ 32) % 2 ^ 32 = _ + 2048
  omega

/-- `idt_ptr` says where the table is; its limit is one byte too far. -/
theorem lidt_idtPtr (hp : BytesAt mem p ((idtPtr x).flatMap bytes32)) :
    lidt mem p = ⟨BitVec.ofNat 16 (8 * idtEntriesCount), x⟩ := by
  have hlow : read32 mem p = _ := (bytesAt_append.mp hp).1.read32
  have hhigh : read32 mem (p + 4) = x >>> 16 := hp.read32_words (by decide : 1 < 2)
  have hhalves : x.extractLsb' 16 16 ++ x.extractLsb' 0 16 = x.extractLsb' 0 32 :=
    BitVec.extractLsb'_append_extractLsb'_eq_extractLsb' rfl
  rw [BitVec.extractLsb'_eq_self] at hhalves
  rw [lidt, read16_eq, read32_between, hlow, hhigh, idtPtr_low, BitVec.setWidth_append_eq_right,
    BitVec.setWidth_ushiftRight_eq_extractLsb, BitVec.setWidth_ushiftRight_eq_extractLsb,
    BitVec.extractLsb'_append_eq_left, hhalves]
  rfl

def IdtEntry.gate (e : IdtEntry) : Option Gate :=
  if e.typeAttr.getLsbD 7 ∧ e.typeAttr.extractLsb' 1 4 = 0b0111 then
    some ⟨e.selector, e.offsetHigherbits ++ e.offsetLowerbits, !e.typeAttr.getLsbD 0⟩
  else none

theorem gateAt_eq (ht : TableAt mem idtr.base t) (hlimit : 8 * v.toNat + 7 ≤ idtr.limit.toNat) :
    gateAt mem idtr v = (t v).gate := by
  have hv := ht v
  have hlow : read32 mem (idtr.base + 8 * v.setWidth 32) =
      (t v).selector ++ (t v).offsetLowerbits := (bytesAt_append.mp hv).1.read32
  have hhigh : read32 mem (idtr.base + 8 * v.setWidth 32 + 4) =
      (t v).offsetHigherbits ++ (t v).typeAttr ++ (t v).zero :=
    hv.read32_words (by decide : 1 < 2)
  have hbit : ∀ i < 8, (((t v).offsetHigherbits ++ (t v).typeAttr ++ (t v).zero) : Word).getLsbD
      (i + 8) = (t v).typeAttr.getLsbD i := by
    intro i hi
    rw [BitVec.getLsbD_append, BitVec.getLsbD_append]
    simp [hi]
  have htype : (((t v).offsetHigherbits ++ (t v).typeAttr ++ (t v).zero) : Word).extractLsb' 9 4 =
      (t v).typeAttr.extractLsb' 1 4 := by
    simp (disch := decide) only [BitVec.extractLsb'_append_eq_of_le,
      BitVec.extractLsb'_append_eq_of_add_le, Nat.reduceSub]
  have hoffset : (((t v).offsetHigherbits ++ (t v).typeAttr ++ (t v).zero) : Word).extractLsb' 16 16 =
      (t v).offsetHigherbits := by
    simp (disch := decide) only [BitVec.extractLsb'_append_eq_of_le, Nat.reduceSub,
      BitVec.extractLsb'_eq_self]
  simp only [gateAt, hlow, hhigh, hlimit, hbit 7 (by decide), hbit 0 (by decide), htype, hoffset,
    BitVec.extractLsb'_append_eq_left, BitVec.extractLsb'_append_eq_right, true_and]
  rfl

theorem IdtEntry.fill_gate (x : Word) :
    (IdtEntry.fill x).gate = some ⟨gdtKcodeSelector, x, true⟩ := by
  have h16 : (0xFFFF : Word).setWidth 16 = BitVec.allOnes 16 := by decide
  have htype : interruptGate.getLsbD 7 ∧ interruptGate.extractLsb' 1 4 = 0b0111 := by decide
  have hhalves : x.extractLsb' 16 16 ++ x.extractLsb' 0 16 = x.extractLsb' 0 32 :=
    BitVec.extractLsb'_append_extractLsb'_eq_extractLsb' rfl
  rw [BitVec.extractLsb'_eq_self] at hhalves
  rw [IdtEntry.fill, IdtEntry.gate, if_pos htype]
  simp only [Bits.low_field _ _ _ h16, BitVec.setWidth_ushiftRight_eq_extractLsb, hhalves]
  rfl

theorem idtFilled_nodup : (idtFilled.map Prod.fst).Nodup := by decide

theorem idtInit_eq (address : IntHandler → Word) (t : IdtTable) : idtInit address t =
    Assoc.updates t (idtFilled.map fun x => (x.1, IdtEntry.fill (address x.2))) := by
  rw [idtInit, Assoc.updates, List.foldl_map]
  rfl

theorem idtInit_gate (address : IntHandler → Word) (t : IdtTable) (v : Byte) :
    (idtInit address t v).gate =
      (handlerOf v).elim (t v).gate fun h => some ⟨gdtKcodeSelector, address h, true⟩ := by
  have hkeys : (idtFilled.map fun x => (x.1, IdtEntry.fill (address x.2))).map Prod.fst =
      idtFilled.map Prod.fst := List.map_map
  rw [idtInit_eq]
  cases hv : handlerOf v with
  | some h =>
    have hmem := (Assoc.lookup_eq_some idtFilled_nodup).mp hv
    have hentry : (v, IdtEntry.fill (address h)) ∈
        idtFilled.map fun x => (x.1, IdtEntry.fill (address x.2)) :=
      List.mem_map_of_mem (f := fun x => (x.1, IdtEntry.fill (address x.2))) hmem
    rw [Assoc.updates_of_mem (hkeys ▸ idtFilled_nodup) hentry]
    exact IdtEntry.fill_gate (address h)
  | none =>
    rcases Assoc.updates_cases (f := t) (k := v)
      (l := idtFilled.map fun x => (x.1, IdtEntry.fill (address x.2))) rfl with hlast | ⟨-, hold⟩
    · obtain ⟨x, hx, heq⟩ := List.mem_map.mp hlast
      obtain rfl : x.1 = v := congrArg Prod.fst heq
      rw [handlerOf, (Assoc.lookup_eq_some idtFilled_nodup).mpr hx] at hv
      cases hv
    · rw [hold]
      rfl

end RubiKernel.Dt
