import Mathlib.Logic.Function.Basic
import RubiKernel.Lib.Bits
import RubiKernel.Lib.Keeps
import RubiKernel.Types

/-! `dev/pci.c`: the configuration space behind two ports, and how `pci_fill_dev` finds
out the sizes of the memory and port areas of a device. -/

namespace RubiKernel.Pci

open Bits

def pciConfigAddress : BitVec 16 := 0xCF8

def pciConfigData : BitVec 16 := 0xCFC

/-- The address that was written to `PCI_CONFIG_ADDRESS`, and the register at each one. -/
structure ConfigSpace where
  address : Word
  regs : Word → Word

/-- What the hardware keeps in the register at an address that held a word when another
one is written to it. -/
abbrev Hardware := Word → Word → Word → Word

variable (hw : Hardware)

def outdw (port : BitVec 16) (value : Word) : StateM ConfigSpace Unit :=
  modify fun s =>
    if port = pciConfigAddress then { s with address := value }
    else if port = pciConfigData then
      { s with
        regs := Function.update s.regs s.address (hw s.address (s.regs s.address) value) }
    else s

def indw (port : BitVec 16) : StateM ConfigSpace Word := do
  let s ← get
  return if port = pciConfigAddress then s.address else if port = pciConfigData then s.regs s.address
    else 0

def configAddress (bus device func reg : Word) : Word :=
  1 <<< 31 ||| (bus &&& 0xFF) <<< 16 ||| (device &&& 0x1F) <<< 11 ||| (func &&& 0x07) <<< 8 |||
    (reg &&& 0xFC)

def pciConfigRead (bus device func reg : Word) : StateM ConfigSpace Word := do
  let offset := reg % 0x04
  let reg := reg &&& ~~~0x3
  outdw hw pciConfigAddress (configAddress bus device func reg)
  return (← indw pciConfigData) >>> (8 * offset)

def pciConfigReadDword (bus device func reg : Word) : StateM ConfigSpace Word :=
  pciConfigRead hw bus device func reg

def pciConfigReadWord (bus device func reg : Word) : StateM ConfigSpace (BitVec 16) := do
  return ((← pciConfigRead hw bus device func reg) &&& 0xFFFF).setWidth 16

def pciConfigWriteDword (bus device func reg value : Word) : StateM ConfigSpace Unit := do
  let reg := reg &&& ~~~0x3
  outdw hw pciConfigAddress (configAddress bus device func reg)
  outdw hw pciConfigData value

/-- The part of `struct base_addres_register_t` that is filled here. -/
structure BaseAddressRegister where
  size : Word
  rawValue : Word

structure PciDev where
  bus : Byte
  slot : Byte
  func : Byte
  vendor : BitVec 16
  device : BitVec 16
  commandReg : BitVec 16
  statusReg : BitVec 16
  revision : BitVec 16
  devClass : BitVec 16
  cacheLatency : BitVec 16
  headerBist : BitVec 16
  baseAddrs : Fin 6 → BaseAddressRegister
  cardbusCisPointer : Word
  subsystemVendor : BitVec 16
  subsystemId : BitVec 16
  expansionRomBaseAddr : Word
  interrupts : BitVec 16
  grantLatency : BitVec 16

def PciDev.setBaseAddr (dev : PciDev) (i : Fin 6) (bar : BaseAddressRegister) : PciDev :=
  { dev with baseAddrs := Function.update dev.baseAddrs i bar }

@[simp] theorem PciDev.setBaseAddr_baseAddrs (dev : PciDev) (i : Fin 6)
    (bar : BaseAddressRegister) : (dev.setBaseAddr i bar).baseAddrs = Function.update dev.baseAddrs i bar := rfl

def baseAddr (i : Fin 6) : Word := 8 * 2 + BitVec.ofNat 32 i * 4

/-- The body of the loop over the base address registers. -/
def pciFillBaseAddr (bus slot function : Word) (dev : PciDev) (i : Fin 6) :
    StateM ConfigSpace PciDev := do
  let rawValue ← pciConfigReadDword hw bus slot function (baseAddr i)
  if rawValue ≠ 0 then
    pciConfigWriteDword hw bus slot function (baseAddr i) 0xFFFFFFFF
    let size ← pciConfigReadDword hw bus slot function (baseAddr i)
    let size := if rawValue.getLsbD 0 then size &&& 0xFFFFFFFC else size &&& 0xFFFFFFF0
    let size := ~~~size + 1
    pciConfigWriteDword hw bus slot function (baseAddr i) rawValue
    return dev.setBaseAddr i ⟨size, rawValue⟩
  else
    return dev.setBaseAddr i ⟨(dev.baseAddrs i).size, rawValue⟩

def pciFillDev (bus slot function : Byte) (dev : PciDev) : StateM ConfigSpace PciDev := do
  let b := bus.setWidth 32
  let s := slot.setWidth 32
  let f := function.setWidth 32
  let dev := { dev with bus := 0, slot := 0 }
  let vendor ← pciConfigReadWord hw b s f (0 * 2)
  let dev := { dev with vendor := vendor }
  if vendor ≠ 0xFFFF then
    let dev := { dev with bus := bus, slot := slot, func := function }
    let device ← pciConfigReadWord hw b s f (1 * 2)
    let commandReg ← pciConfigReadWord hw b s f (2 * 2)
    let statusReg ← pciConfigReadWord hw b s f (3 * 2)
    let revision ← pciConfigReadWord hw b s f (4 * 2)
    let devClass ← pciConfigReadWord hw b s f (5 * 2)
    let cacheLatency ← pciConfigReadWord hw b s f (6 * 2)
    let headerBist ← pciConfigReadWord hw b s f (7 * 2)
    let dev := { dev with
      device := device
      commandReg := commandReg
      statusReg := statusReg
      revision := revision
      devClass := devClass
      cacheLatency := cacheLatency
      headerBist := headerBist }
    let dev ← (List.finRange 6).foldlM (pciFillBaseAddr hw b s f) dev
    let cardbusCisPointer ← pciConfigReadDword hw b s f (8 * 2 + 6 * 4)
    let subsystemVendor ← pciConfigReadWord hw b s f (8 * 2 + 7 * 4 + 0 * 2)
    let subsystemId ← pciConfigReadWord hw b s f (8 * 2 + 7 * 4 + 1 * 2)
    let expansionRomBaseAddr ← pciConfigReadDword hw b s f (8 * 2 + 7 * 4 + 2 * 2 + 0 * 4)
    let interrupts ← pciConfigReadWord hw b s f 0x3C
    let grantLatency ← pciConfigReadWord hw b s f (0x3C + 2)
    return { dev with
      cardbusCisPointer := cardbusCisPointer
      subsystemVendor := subsystemVendor
      subsystemId := subsystemId
      expansionRomBaseAddr := expansionRomBaseAddr
      interrupts := interrupts
      grantLatency := grantLatency }
  else
    return dev

/-- The base address register of a device: none, or one for an area of `2 ^ k` bytes with
its fixed low bits, of which the lowest tells memory from ports. -/
inductive Bar
  | hardwired
  | memory (low : BitVec 4) (k : Nat) (kind : low.getLsbD 0 = false) (size : 4 ≤ k)
  | ports (low : BitVec 2) (k : Nat) (kind : low.getLsbD 0 = true) (size : 2 ≤ k)

/-- What the register keeps of a word that is written to it. -/
def Bar.store : Bar → Word → Word
  | .hardwired, _ => 0
  | .memory low k _ _, v => (v &&& highMask 32 k) ||| low.setWidth 32
  | .ports low k _ _, v => (v &&& highMask 32 k) ||| low.setWidth 32

def Bar.sizeLog : Bar → Option Nat
  | .hardwired => none
  | .memory _ k _ _ => some k
  | .ports _ k _ _ => some k

/-- The register at `a` is `bar`, and holds an address of its area other than 0. -/
structure Implements (regs : Word → Word) (a : Word) (bar : Bar) : Prop where
  store : ∀ old v, hw a old v = bar.store v
  kept : bar.store (regs a) = regs a
  base : ∀ k, bar.sizeLog = some k → regs a &&& highMask 32 k ≠ 0

/-- The lower half of the first register is the vendor; there is no vendor 0xFFFF. -/
def vendorAt (regs : Word → Word) (bus slot function : Word) : BitVec 16 :=
  (regs (configAddress bus slot function 0) &&& 0xFFFF).setWidth 16

def Recorded (regs : Word → Word) (a : Word) (bar : Bar) (r : BaseAddressRegister) : Prop :=
  r.rawValue = regs a ∧ ∀ k, bar.sizeLog = some k → r.size.toNat = 2 ^ k

variable {hw} {regs : Word → Word} {a : Word} {bar : Bar} {k : Nat} {i : Fin 6}
  {bus device func reg value : Word}

theorem pciConfigRead_run (s : ConfigSpace) :
    (pciConfigRead hw bus device func reg).run s =
      (s.regs (configAddress bus device func (reg &&& ~~~0x3)) >>> (8 * (reg % 0x04)),
        { s with address := configAddress bus device func (reg &&& ~~~0x3) }) := rfl

theorem pciConfigWriteDword_run (s : ConfigSpace) :
    (pciConfigWriteDword hw bus device func reg value).run s =
      ((), { address := configAddress bus device func (reg &&& ~~~0x3),
             regs := Function.update s.regs (configAddress bus device func (reg &&& ~~~0x3))
              (hw (configAddress bus device func (reg &&& ~~~0x3))
                (s.regs (configAddress bus device func (reg &&& ~~~0x3))) value) }) := rfl

theorem baseAddr_aligned (i : Fin 6) :
    baseAddr i &&& ~~~0x3 = baseAddr i ∧ baseAddr i % 0x04 = 0 := by
  revert i
  decide

theorem readBaseAddr_run (s : ConfigSpace) :
    (pciConfigReadDword hw bus device func (baseAddr i)).run s =
      (s.regs (configAddress bus device func (baseAddr i)),
        { s with address := configAddress bus device func (baseAddr i) }) := by
  obtain ⟨hreg, hoffset⟩ := baseAddr_aligned i
  rw [pciConfigReadDword, pciConfigRead_run, hreg, hoffset]
  rfl

theorem writeBaseAddr_run (s : ConfigSpace) :
    (pciConfigWriteDword hw bus device func (baseAddr i) value).run s =
      ((), { address := configAddress bus device func (baseAddr i),
             regs := Function.update s.regs (configAddress bus device func (baseAddr i))
              (hw (configAddress bus device func (baseAddr i))
                (s.regs (configAddress bus device func (baseAddr i))) value) }) := by
  rw [pciConfigWriteDword_run, (baseAddr_aligned i).1]

section Size

theorem Implements.raw_ne_zero (h : Implements hw regs a bar) (hk : bar.sizeLog = some k) :
    regs a ≠ 0 := fun hzero => by
  have hbase := h.base k hk
  rw [hzero] at hbase
  exact hbase BitVec.zero_and

theorem Implements.sizeLog_lt (h : Implements hw regs a bar) (hk : bar.sizeLog = some k) :
    k < 32 := by
  by_contra hlarge
  have hbase := h.base k hk
  rw [highMask_eq_zero (Nat.le_of_not_lt hlarge)] at hbase
  exact hbase BitVec.and_zero

theorem probed_size {n : Nat} (low : BitVec n) (hn : n ≤ k) (hk : k < 32) :
    (~~~(((0xFFFFFFFF &&& highMask 32 k) ||| low.setWidth 32) &&& highMask 32 n) + 1).toNat =
      2 ^ k := by
  have hones : (0xFFFFFFFF : Word) &&& highMask 32 k = highMask 32 k := BitVec.allOnes_and
  rw [masked_or_and_highMask low hn, hones, not_highMask_add_one_toNat hk]

def sizeOf (rawValue kept : Word) : Word :=
  ~~~(if rawValue.getLsbD 0 then kept &&& 0xFFFFFFFC else kept &&& 0xFFFFFFF0) + 1

theorem Implements.sizeOf_toNat (h : Implements hw regs a bar) (hk : bar.sizeLog = some k) :
    (sizeOf (regs a) (bar.store 0xFFFFFFFF)).toNat = 2 ^ k := by
  have hlt := h.sizeLog_lt hk
  have hkept := h.kept
  cases bar with
  | hardwired => exact absurd hk (Option.some_ne_none k).symm
  | memory low k' kind size =>
    obtain rfl : k' = k := Option.some.inj hk
    have hmask : (0xFFFFFFF0 : Word) = highMask 32 4 := by decide
    have hkind : (regs a).getLsbD 0 = false := by
      rw [← hkept, Bar.store, getLsbD_masked_or low _ (by omega) (by decide), kind]
    rw [sizeOf, hkind, hmask, Bar.store]
    exact probed_size low size hlt
  | ports low k' kind size =>
    obtain rfl : k' = k := Option.some.inj hk
    have hmask : (0xFFFFFFFC : Word) = highMask 32 2 := by decide
    have hkind : (regs a).getLsbD 0 = true := by
      rw [← hkept, Bar.store, getLsbD_masked_or low _ (by omega) (by decide), kind]
    rw [sizeOf, hkind, hmask, Bar.store]
    exact probed_size low size hlt

end Size

theorem keeps_fillBaseAddr (h : Implements hw regs (configAddress bus device func (baseAddr i)) bar)
    (dev : PciDev) :
    Keeps (fun s => s.regs = regs) (pciFillBaseAddr hw bus device func dev i) fun dev' =>
      ∃ r, dev' = dev.setBaseAddr i r ∧
        Recorded regs (configAddress bus device func (baseAddr i)) bar r := by
  rintro s rfl
  by_cases hraw : s.regs (configAddress bus device func (baseAddr i)) = 0
  · have hnone : ∀ k, bar.sizeLog ≠ some k := fun k hk => h.raw_ne_zero hk hraw
    have hrun : (pciFillBaseAddr hw bus device func dev i).run s =
        (dev.setBaseAddr i ⟨(dev.baseAddrs i).size, 0⟩,
          { s with address := configAddress bus device func (baseAddr i) }) := by
      rw [pciFillBaseAddr, run_bind_of (readBaseAddr_run s), if_neg (not_not.mpr hraw), hraw]
      rfl
    rw [hrun]
    exact ⟨⟨_, rfl, hraw.symm, fun k hk => absurd hk (hnone k)⟩, rfl⟩
  · have hrun : (pciFillBaseAddr hw bus device func dev i).run s =
        (dev.setBaseAddr i
          ⟨sizeOf (s.regs (configAddress bus device func (baseAddr i))) (bar.store 0xFFFFFFFF),
            s.regs (configAddress bus device func (baseAddr i))⟩,
          { s with address := configAddress bus device func (baseAddr i) }) := by
      rw [pciFillBaseAddr, run_bind_of (readBaseAddr_run s), if_pos hraw,
        run_bind_of (writeBaseAddr_run _), run_bind_of (readBaseAddr_run _),
        run_bind_of (writeBaseAddr_run _)]
      simp only [h.store, h.kept, Function.update_self, Function.update_idem,
        Function.update_eq_self]
      rfl
    rw [hrun]
    exact ⟨⟨_, rfl, rfl, fun k hk => h.sizeOf_toNat hk⟩, rfl⟩

theorem keeps_readDword (hw : Hardware) (bus device func reg : Word) :
    Keeps (fun s => s.regs = regs) (pciConfigReadDword hw bus device func reg) fun _ => True :=
  fun _ hs => ⟨trivial, hs⟩

theorem keeps_readWord (hw : Hardware) (bus device func reg : Word) :
    Keeps (fun s => s.regs = regs) (pciConfigReadWord hw bus device func reg) fun _ => True :=
  fun _ hs => ⟨trivial, hs⟩

theorem keeps_readVendor (hw : Hardware) (bus device func : Word) :
    Keeps (fun s => s.regs = regs) (pciConfigReadWord hw bus device func (0 * 2)) fun v =>
      v = vendorAt regs bus device func := by
  rintro s rfl
  exact ⟨rfl, rfl⟩

theorem keeps_fillBaseAddrs {bars : Fin 6 → Bar}
    (h : ∀ i, Implements hw regs (configAddress bus device func (baseAddr i)) (bars i))
    (dev : PciDev) :
    Keeps (fun s => s.regs = regs)
      ((List.finRange 6).foldlM (pciFillBaseAddr hw bus device func) dev) fun dev' =>
        ∀ i, Recorded regs (configAddress bus device func (baseAddr i)) (bars i) (dev'.baseAddrs i) := by
  have hloop := Keeps.foldlM (I := fun s : ConfigSpace => s.regs = regs) (a := dev)
    (l := List.finRange 6) (f := pciFillBaseAddr hw bus device func)
    (fun done dev' => ∀ i ∈ done,
      Recorded regs (configAddress bus device func (baseAddr i)) (bars i) (dev'.baseAddrs i))
    (fun i hi => absurd hi List.not_mem_nil) fun done i dev' hdone => by
      intro s hs
      obtain ⟨⟨r, hr, hrecorded⟩, hregs⟩ := keeps_fillBaseAddr (h i) dev' s hs
      refine ⟨fun j hj => ?_, hregs⟩
      rw [hr, PciDev.setBaseAddr_baseAddrs]
      by_cases hji : j = i
      · subst hji
        rwa [Function.update_self]
      · have hdoneBefore := (List.mem_append.mp hj).resolve_right (hji ∘ List.mem_singleton.mp)
        rw [Function.update_of_ne hji]
        exact hdone j hdoneBefore
  intro s hs
  obtain ⟨hall, hregs⟩ := hloop s hs
  exact ⟨fun i => hall i (List.mem_finRange i), hregs⟩

/-- A probe changes no register, and finds the address and the size of each area. -/
theorem pciFillDev_probes (bus slot function : Byte) {bars : Fin 6 → Bar} {s : ConfigSpace}
    (h : ∀ i, Implements hw s.regs (configAddress (bus.setWidth 32) (slot.setWidth 32)
      (function.setWidth 32) (baseAddr i)) (bars i)) (dev : PciDev) :
    ((pciFillDev hw bus slot function dev).run s).2.regs = s.regs ∧
      (vendorAt s.regs (bus.setWidth 32) (slot.setWidth 32) (function.setWidth 32) ≠ 0xFFFF → ∀ i,
        Recorded s.regs (configAddress (bus.setWidth 32) (slot.setWidth 32)
          (function.setWidth 32) (baseAddr i)) (bars i)
          (((pciFillDev hw bus slot function dev).run s).1.baseAddrs i)) := by
  have hkeeps : Keeps (fun t => t.regs = s.regs) (pciFillDev hw bus slot function dev) fun dev' =>
      vendorAt s.regs (bus.setWidth 32) (slot.setWidth 32) (function.setWidth 32) ≠ 0xFFFF → ∀ i,
        Recorded s.regs (configAddress (bus.setWidth 32) (slot.setWidth 32)
          (function.setWidth 32) (baseAddr i)) (bars i) (dev'.baseAddrs i) := by
    unfold pciFillDev
    refine (keeps_readVendor hw _ _ _).bind fun vendor hvendor => ?_
    refine .ite (fun _ => ?_) fun habsent => .pure fun hpresent => ?_
    · iterate 7 refine (keeps_readWord hw _ _ _ _).bind fun _ _ => ?_
      refine (keeps_fillBaseAddrs h _).bind fun dev' hrecorded => ?_
      refine (keeps_readDword hw _ _ _ _).bind fun _ _ => ?_
      iterate 2 refine (keeps_readWord hw _ _ _ _).bind fun _ _ => ?_
      refine (keeps_readDword hw _ _ _ _).bind fun _ _ => ?_
      iterate 2 refine (keeps_readWord hw _ _ _ _).bind fun _ _ => ?_
      exact .pure fun _ => hrecorded
    · exact absurd (hvendor.symm.trans (not_not.mp habsent)) hpresent
  obtain ⟨hrecorded, hregs⟩ := hkeeps s rfl
  exact ⟨hregs, hrecorded⟩

def cardBars (i : Fin 6) : Bar :=
  if i = 0 then .memory 0b1000 12 rfl (by decide)
  else if i = 1 then .ports 0b01 5 rfl (by decide)
  else .hardwired

def card : ConfigSpace where
  address := 0
  regs a :=
    if a = configAddress 0 3 0 0 then 0x100E8086
    else if a = configAddress 0 3 0 0x10 then 0xFEBC0008
    else if a = configAddress 0 3 0 0x14 then 0xC041
    else 0

def cardHardware : Hardware := fun a _ v =>
  if a = configAddress 0 3 0 0x10 then (cardBars 0).store v
  else if a = configAddress 0 3 0 0x14 then (cardBars 1).store v
  else 0

theorem card_implements (i : Fin 6) :
    Implements cardHardware card.regs (configAddress 0 3 0 (baseAddr i)) (cardBars i) := by
  match i with
  | 0 =>
    refine ⟨fun _ _ => rfl, by decide, fun k hk => ?_⟩
    obtain rfl : 12 = k := Option.some.inj hk
    decide
  | 1 =>
    refine ⟨fun _ _ => rfl, by decide, fun k hk => ?_⟩
    obtain rfl : 5 = k := Option.some.inj hk
    decide
  | 2 | 3 | 4 | 5 =>
    exact ⟨fun _ _ => rfl, by decide, fun k hk => absurd hk (Option.some_ne_none k).symm⟩

def blankDev : PciDev :=
  ⟨0, 0, 0, 0, 0, 0, 0, 0, 0, 0, 0, fun _ => ⟨0, 0⟩, 0, 0, 0, 0, 0, 0⟩

theorem pciFillDev_probes_example :
    ((pciFillDev cardHardware 0 3 0 blankDev).run card).2.regs = card.regs ∧
      (((pciFillDev cardHardware 0 3 0 blankDev).run card).1.baseAddrs 0).size.toNat = 2 ^ 12 ∧
      (((pciFillDev cardHardware 0 3 0 blankDev).run card).1.baseAddrs 1).size.toNat = 2 ^ 5 := by
  obtain ⟨hregs, hrecorded⟩ := pciFillDev_probes 0 3 0 card_implements blankDev
  have hpresent := hrecorded (by decide)
  exact ⟨hregs, (hpresent 0).2 12 rfl, (hpresent 1).2 5 rfl⟩

end RubiKernel.Pci
