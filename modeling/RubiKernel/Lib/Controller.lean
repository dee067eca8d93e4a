import Mathlib.Data.BitVec
import Mathlib.Data.Fintype.Basic

/-! An interrupt controller of the kind of the 8259A in its fully nested mode: it latches the
requests on eight lines, of which line 0 comes first, and holds back those that are masked and
those that are not above the ones in service. -/

namespace RubiKernel

/-- What the data port takes the next byte for. -/
inductive Controller.Expects
  | mask
  | icw2
  | icw3
  | icw4
  deriving DecidableEq

/-- `single` and `icw4` are the bits of the first initialisation word that say which of the
others follow. -/
structure Controller where
  expects : Controller.Expects
  single : Bool
  icw4 : Bool
  base : BitVec 8
  autoEoi : Bool
  imr : BitVec 8
  irr : Fin 8 → Bool
  isr : Fin 8 → Bool

namespace Controller

/-- The end of the interrupt that is served: the first line in service leaves it. -/
def eoi (c : Controller) : Controller :=
  { c with isr := fun k => c.isr k && decide (∃ j < k, c.isr j) }

/-- The command port. Of the commands, the start of an initialisation and the EOI that names
no line are modelled. -/
def command (c : Controller) (x : BitVec 8) : Controller :=
  if x.getLsbD 4 then
    { c with
      expects := .icw2
      single := x.getLsbD 1
      icw4 := x.getLsbD 0
      autoEoi := false
      imr := 0
      irr := fun _ => false }
  else if x.extractLsb' 3 5 = 0b00100 then c.eoi
  else c

/-- The data port. The third word says which lines have a controller behind them. -/
def data (c : Controller) (x : BitVec 8) : Controller :=
  match c.expects with
  | .mask => { c with imr := x }
  | .icw2 =>
    { c with
      base := x &&& 0xF8
      expects := if c.single then if c.icw4 then .icw4 else .mask else .icw3 }
  | .icw3 => { c with expects := if c.icw4 then .icw4 else .mask }
  | .icw4 => { c with autoEoi := x.getLsbD 1, expects := .mask }

def request (c : Controller) (k : Fin 8) : Controller :=
  { c with irr := Function.update c.irr k true }

/-- The processor is asked to serve the line. -/
structure Offers (c : Controller) (k : Fin 8) : Prop where
  ready : c.expects = .mask
  requested : c.irr k = true
  unmasked : c.imr.getLsbD k = false
  above : ∀ j ≤ k, c.isr j = false
  first : ∀ j < k, c.irr j = true → c.imr.getLsbD j = true

theorem offers_iff {c : Controller} {k : Fin 8} : c.Offers k ↔
    c.expects = .mask ∧ c.irr k = true ∧ c.imr.getLsbD k = false ∧ (∀ j ≤ k, c.isr j = false) ∧
      ∀ j < k, c.irr j = true → c.imr.getLsbD j = true :=
  ⟨fun h => ⟨h.1, h.2, h.3, h.4, h.5⟩, fun ⟨h₁, h₂, h₃, h₄, h₅⟩ => ⟨h₁, h₂, h₃, h₄, h₅⟩⟩

instance (c : Controller) (k : Fin 8) : Decidable (c.Offers k) := decidable_of_iff' _ offers_iff

/-- The vector that the processor gets for a line. -/
def vector (c : Controller) (k : Fin 8) : BitVec 8 := c.base ||| BitVec.ofNat 8 k

def accept (c : Controller) (k : Fin 8) : Controller :=
  { c with
    irr := Function.update c.irr k false
    isr := if c.autoEoi then c.isr else Function.update c.isr k true }

variable {c : Controller} {j k : Fin 8}

theorem Offers.unique (hj : c.Offers j) (hk : c.Offers k) : j = k := by
  rcases lt_trichotomy j k with hlt | heq | hgt
  · exact absurd ((hk.first j hlt hj.requested).symm.trans hj.unmasked) (by decide)
  · exact heq
  · exact absurd ((hj.first k hgt hk.requested).symm.trans hk.unmasked) (by decide)

theorem not_offers_of_masked (h : c.imr = BitVec.allOnes 8) (k : Fin 8) : ¬c.Offers k := by
  intro hk
  have hmask := hk.unmasked
  rw [h, BitVec.getLsbD_allOnes, decide_eq_false_iff_not] at hmask
  exact hmask k.isLt

theorem eoi_idle (h : ∀ k, c.isr k = false) : c.eoi.isr = c.isr := by
  funext k
  show (c.isr k && _) = c.isr k
  rw [h k, Bool.false_and]

theorem eoi_single (h : c.isr = Function.update (fun _ => false) k true) :
    c.eoi.isr = fun _ => false := by
  funext i
  show (c.isr i && _) = false
  by_cases hi : i = k
  · have hnone : ¬∃ j < i, c.isr j = true := by
      rintro ⟨j, hj, hserved⟩
      rw [h, Function.update_of_ne (hi ▸ hj.ne)] at hserved
      cases hserved
    rw [decide_eq_false hnone, Bool.and_false]
  · rw [h, Function.update_of_ne hi, Bool.false_and]

end Controller

end RubiKernel
