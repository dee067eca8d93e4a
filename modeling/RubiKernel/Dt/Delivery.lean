import RubiKernel.Dev.Interrupt
import RubiKernel.Dt.Idt
import RubiKernel.Lib.Controller
import RubiKernel.Lib.Lts

/-! `pic_init` and `pic_enable` of `DT/int.c` and the handlers of the timer and the keyboard:
requests of the devices, as they come through the controllers and the gates to the handlers. -/

namespace RubiKernel.Dt

open Memory Lts Dev

def pic1DataPort : Word := 0x21

def pic2CmdPort : Word := 0xA0

def pic2DataPort : Word := 0xA1

def pic1IntOffset : Byte := 0x20

def pic2IntOffset : Byte := 0x28

def icw1Init : Byte := 0x10

def icw1Icw4 : Byte := 0x01

/-- The processor and the controllers. `running` is the handler that has been entered and has
not sent its EOI yet. -/
structure Board where
  pic1 : Controller
  pic2 : Controller
  interruptFlag : Bool
  running : Option IntHandler

def Board.outb (m : Board) (port : Word) (value : Byte) : Board :=
  if port = pic1CmdPort then { m with pic1 := m.pic1.command value }
  else if port = pic1DataPort then { m with pic1 := m.pic1.data value }
  else if port = pic2CmdPort then { m with pic2 := m.pic2.command value }
  else if port = pic2DataPort then { m with pic2 := m.pic2.data value }
  else m

/-- The bytes that `pic_init` sends. -/
def picInit : List (Word × Byte) :=
  [(pic1CmdPort, icw1Init ||| icw1Icw4), (pic2CmdPort, icw1Init ||| icw1Icw4),
    (pic1DataPort, pic1IntOffset), (pic2DataPort, pic2IntOffset), (pic1DataPort, 0x00),
    (pic2DataPort, 0x00), (pic1DataPort, 0x01), (pic2DataPort, 0x01), (pic1DataPort, 0xFF),
    (pic2DataPort, 0xFF)]

def Board.picEnable (m : Board) : Board := m.outb pic1DataPort 0xFC

/-- `idt_init`, with the interrupts off before it and on behind it. -/
def Board.idtInit (m : Board) : Board :=
  { picInit.foldl (fun m x => m.outb x.1 x.2) { m with interruptFlag := false } with
    interruptFlag := true }

/-- The processor goes through the gate of the vector `v`. -/
def Board.Enters (mem : Memory) (idtr : Idtr) (address : IntHandler → Word) (m : Board) (v : Byte)
    (m' : Board) : Prop :=
  ∃ gate h, gateAt mem idtr v = some gate ∧ gate.selector = gdtKcodeSelector ∧
    gate.offset = address h ∧
    m' = { m with interruptFlag := !gate.clearsIf && m.interruptFlag, running := some h }

/-- `setIf` stands for `cli`, `sti` and `iret` in a task or in the kernel on its behalf, and
`yield` for the `int $0x20` of `sched_yield`. Behind its EOI, a handler is such code too. -/
inductive PicEvent
  | request (line : Fin 8)
  | requestSlave (line : Fin 8)
  | accept (line : Fin 8)
  | yield
  | setIf (flag : Bool)
  | eoi
  | picEnable
  deriving DecidableEq

def Board.Step (mem : Memory) (idtr : Idtr) (address : IntHandler → Word) (m : Board) :
    PicEvent → Board → Prop
  | .request k, m' => m' = { m with pic1 := m.pic1.request k }
  | .requestSlave k, m' =>
    -- the second controller is behind line 2 of the first one
    m' = { m with
      pic2 := m.pic2.request k
      pic1 := if ∃ j, (m.pic2.request k).Offers j then m.pic1.request 2 else m.pic1 }
  | .accept k, m' =>
    m.interruptFlag = true ∧ m.pic1.Offers k ∧
      Board.Enters mem idtr address { m with pic1 := m.pic1.accept k } (m.pic1.vector k) m'
  | .yield, m' => m.running = none ∧ Board.Enters mem idtr address m 0x20 m'
  | .setIf flag, m' => m.running = none ∧ m' = { m with interruptFlag := flag }
  | .eoi, m' =>
    (m.running = some .timer ∨ m.running = some .keyboard) ∧
      m' = { m.outb pic1CmdPort picEoi with running := none }
  | .picEnable, m' => m.running = none ∧ m' = m.picEnable

/-- From `idt_init` on, in which the interrupts of the firmware have ended. -/
def board (mem : Memory) (idtr : Idtr) (address : IntHandler → Word) : System Board PicEvent where
  start m := ∃ m₀ : Board, (∀ k, m₀.pic1.isr k = false) ∧ m₀.running = none ∧ m = m₀.idtInit
  step m e m' := m.Step mem idtr address e m'

/-- The request of a line is latched until it is accepted. -/
def PicEvent.latch (line : Fin 8) (requested : Bool) : PicEvent → Bool
  | .request k => requested || decide (k = line)
  | .accept k => requested && decide (k ≠ line)
  | _ => requested

/-- The line was requested and has not been accepted since. -/
def Pending (line : Fin 8) (es : List PicEvent) : Prop :=
  es.foldl (PicEvent.latch line) false = true

/-- The handler of a line that `pic_enable` does not mask. -/
def lineHandler (k : Fin 8) : Option IntHandler :=
  if k = 0 then some .timer else if k = 1 then some .keyboard else none

structure Serving (m : Board) : Prop where
  idle : m.running = none → ∀ k, m.pic1.isr k = false
  timer : m.running = some .timer → m.interruptFlag = false ∧
    ((∀ k, m.pic1.isr k = false) ∨ m.pic1.isr = Function.update (fun _ => false) 0 true)
  keyboard : m.running = some .keyboard → m.interruptFlag = false ∧
    m.pic1.isr = Function.update (fun _ => false) 1 true
  handlers : ∀ h ∈ m.running, h = .timer ∨ h = .keyboard

structure BoardInv (m : Board) (es : List PicEvent) : Prop extends Serving m where
  ready : m.pic1.expects = .mask
  base : m.pic1.base = pic1IntOffset
  normal : m.pic1.autoEoi = false
  mask : m.pic1.imr = if .picEnable ∈ es then 0xFC else 0xFF
  slave : m.pic2.imr = 0xFF
  pending : ∀ k, m.pic1.irr k = es.foldl (PicEvent.latch k) false

section

variable {mem : Memory} {idtr : Idtr} {address : IntHandler → Word} {m m' m₀ : Board}
  {es : List PicEvent} {e : PicEvent} {k : Fin 8} {v : Byte} {h : IntHandler}

theorem idtInit_pic1 (m : Board) : m.idtInit.pic1 =
    { expects := .mask
      single := false
      icw4 := true
      base := pic1IntOffset
      autoEoi := false
      imr := 0xFF
      irr := fun _ => false
      isr := m.pic1.isr } := rfl

theorem Serving.of_none (hr : m.running = none) (hisr : ∀ k, m.pic1.isr k = false) :
    Serving m := by
  refine ⟨fun _ => hisr, fun h => ?_, fun h => ?_, fun h hh => ?_⟩
  · cases hr.symm.trans h
  · cases hr.symm.trans h
  · cases hr.symm.trans hh

theorem Serving.of_timer (hr : m.running = some .timer) (hif : m.interruptFlag = false)
    (hisr : (∀ k, m.pic1.isr k = false) ∨ m.pic1.isr = Function.update (fun _ => false) 0 true) :
    Serving m := by
  refine ⟨fun h => ?_, fun _ => ⟨hif, hisr⟩, fun h => ?_, fun h hh => ?_⟩
  · cases hr.symm.trans h
  · cases hr.symm.trans h
  · exact .inl (Option.some.inj (hh.symm.trans hr))

theorem Serving.of_keyboard (hr : m.running = some .keyboard) (hif : m.interruptFlag = false)
    (hisr : m.pic1.isr = Function.update (fun _ => false) 1 true) : Serving m := by
  refine ⟨fun h => ?_, fun h => ?_, fun _ => ⟨hif, hisr⟩, fun h hh => ?_⟩
  · cases hr.symm.trans h
  · cases hr.symm.trans h
  · exact .inr (Option.some.inj (hh.symm.trans hr))

theorem Serving.frame (hs : Serving m) (hr : m'.running = m.running)
    (hif : m'.interruptFlag = m.interruptFlag) (hisr : m'.pic1.isr = m.pic1.isr) : Serving m' :=
  ⟨by rw [hr, hisr]; exact hs.idle, by rw [hr, hif, hisr]; exact hs.timer,
    by rw [hr, hif, hisr]; exact hs.keyboard, by rw [hr]; exact hs.handlers⟩

theorem BoardInv.start (hm : (board mem idtr address).start m) : BoardInv m [] := by
  obtain ⟨m₀, hisr, hrunning, rfl⟩ := hm
  exact ⟨.of_none hrunning hisr, rfl, rfl, rfl, rfl, rfl, fun _ => rfl⟩

theorem BoardInv.running_none (hi : BoardInv m es) (hif : m.interruptFlag = true) :
    m.running = none := by
  cases hr : m.running with
  | none => rfl
  | some h =>
    rcases hi.handlers h hr with rfl | rfl
    · exact absurd ((hi.timer hr).1.symm.trans hif) (by decide)
    · exact absurd ((hi.keyboard hr).1.symm.trans hif) (by decide)

theorem BoardInv.masked (hi : BoardInv m es) (k : Fin 8) :
    m.pic1.imr.getLsbD k = false ↔ .picEnable ∈ es ∧ (k = 0 ∨ k = 1) := by
  rw [hi.mask]
  by_cases hes : .picEnable ∈ es
  · rw [if_pos hes, and_iff_right hes]
    revert k
    decide
  · rw [if_neg hes]
    refine iff_of_false ?_ fun h => hes h.1
    revert k
    decide

theorem BoardInv.offers_iff (hi : BoardInv m es) (hif : m.interruptFlag = true) (k : Fin 8) :
    m.pic1.Offers k ↔ .picEnable ∈ es ∧ Pending k es ∧ (k = 0 ∨ k = 1 ∧ ¬Pending 0 es) := by
  have hidle := hi.idle (hi.running_none hif)
  constructor
  · intro ho
    obtain ⟨hes, hk⟩ := (hi.masked k).mp ho.unmasked
    refine ⟨hes, (hi.pending k).symm.trans ho.requested, hk.imp_right fun hone => ⟨hone, fun h0 => ?_⟩⟩
    have hmask := ho.first 0 (by rw [hone]; decide) ((hi.pending 0).trans h0)
    exact absurd (((hi.masked 0).mpr ⟨hes, .inl rfl⟩).symm.trans hmask) (by decide)
  · rintro ⟨hes, hpending, hk⟩
    have hmask := (hi.masked k).mpr ⟨hes, hk.imp_right fun h => h.1⟩
    refine ⟨hi.ready, (hi.pending k).trans hpending, hmask, fun j _ => hidle j, fun j hj hreq => ?_⟩
    rcases hk with rfl | ⟨rfl, hnone⟩
    · exact absurd hj (Fin.not_lt_zero j)
    · obtain rfl : j = 0 := by omega
      exact absurd ((hi.pending 0).symm.trans hreq) hnone

def Filled (mem : Memory) (idtr : Idtr) (address : IntHandler → Word) : Prop :=
  ∀ v h, handlerOf v = some h → gateAt mem idtr v = some ⟨gdtKcodeSelector, address h, true⟩

theorem Filled.enters_iff (hf : Filled mem idtr address) (hinj : Function.Injective address)
    (hv : handlerOf v = some h) : m.Enters mem idtr address v m' ↔
      m' = { m with interruptFlag := false, running := some h } := by
  rw [Board.Enters, hf v h hv]
  constructor
  · rintro ⟨gate, h', hgate, -, haddr, rfl⟩
    obtain rfl := Option.some.inj hgate
    obtain rfl := hinj haddr
    rfl
  · rintro rfl
    exact ⟨_, h, rfl, rfl, rfl, rfl⟩

theorem handlerOf_line (hk : k = 0 ∨ k = 1) :
    handlerOf (pic1IntOffset ||| BitVec.ofNat 8 k) = lineHandler k := by
  rcases hk with rfl | rfl <;> rfl

theorem Filled.accept (hf : Filled mem idtr address) (hinj : Function.Injective address)
    (hi : BoardInv m es) : m.Step mem idtr address (.accept k) m' ↔
      m.interruptFlag = true ∧ m.pic1.Offers k ∧ ∃ h ∈ lineHandler k,
        m' = { m with pic1 := m.pic1.accept k, interruptFlag := false, running := some h } := by
  refine and_congr_right fun hif => and_congr_right fun ho => ?_
  obtain ⟨-, -, hk⟩ := (hi.offers_iff hif k).mp ho
  obtain ⟨h, hline⟩ : ∃ h, lineHandler k = some h := by
    rcases hk with rfl | ⟨rfl, -⟩
    · exact ⟨.timer, rfl⟩
    · exact ⟨.keyboard, rfl⟩
  have hv : handlerOf (m.pic1.vector k) = some h := by
    rw [Controller.vector, hi.base, handlerOf_line (hk.imp_right And.left), hline]
  rw [hf.enters_iff hinj hv, hline]
  simp

theorem mask_of_ne (he : e ≠ .picEnable) (es : List PicEvent) :
    (if .picEnable ∈ es ++ [e] then (0xFC : Byte) else 0xFF) =
      if .picEnable ∈ es then 0xFC else 0xFF :=
  if_congr (by simp [he.symm]) rfl rfl

theorem foldl_latch (es : List PicEvent) (e : PicEvent) (k : Fin 8) :
    (es ++ [e]).foldl (PicEvent.latch k) false =
      e.latch k (es.foldl (PicEvent.latch k) false) := by
  rw [List.foldl_append, List.foldl_cons, List.foldl_nil]

theorem BoardInv.keep (hi : BoardInv m es) (he : e ≠ .picEnable)
    (hlatch : ∀ k b, e.latch k b = b) (hs : Serving m')
    (hpic : m'.pic1 = { m.pic1 with isr := m'.pic1.isr }) (hslave : m'.pic2.imr = m.pic2.imr) :
    BoardInv m' (es ++ [e]) := by
  refine ⟨hs, ?_, ?_, ?_, ?_, hslave.trans hi.slave, fun k => ?_⟩
  · rw [hpic]
    exact hi.ready
  · rw [hpic]
    exact hi.base
  · rw [hpic]
    exact hi.normal
  · rw [hpic, mask_of_ne he]
    exact hi.mask
  · rw [hpic, foldl_latch, hlatch]
    exact hi.pending k

theorem BoardInv.eoi (hi : BoardInv m es) (hr : m.running = some .timer ∨ m.running = some .keyboard)
    (k : Fin 8) : (m.outb pic1CmdPort picEoi).pic1.isr k = false := by
  show m.pic1.eoi.isr k = false
  rcases hr with hr | hr
  · rcases (hi.timer hr).2 with hnone | hone
    · rw [Controller.eoi_idle hnone]
      exact hnone k
    · rw [Controller.eoi_single hone]
  · rw [Controller.eoi_single (hi.keyboard hr).2]

theorem BoardInv.step (hi : BoardInv m es) (hf : Filled mem idtr address)
    (hinj : Function.Injective address) (hstep : m.Step mem idtr address e m') :
    BoardInv m' (es ++ [e]) := by
  cases e with
  | request k =>
    obtain rfl : m' = _ := hstep
    refine ⟨hi.toServing.frame rfl rfl rfl, hi.ready, hi.base, hi.normal, ?_, hi.slave, fun j => ?_⟩
    · rw [mask_of_ne (by simp)]
      exact hi.mask
    · rw [foldl_latch, ← hi.pending j]
      show Function.update m.pic1.irr k true j = (m.pic1.irr j || decide (k = j))
      by_cases hj : j = k
      · rw [hj, Function.update_self, decide_eq_true rfl, Bool.or_true]
      · rw [Function.update_of_ne hj, decide_eq_false (Ne.symm hj), Bool.or_false]
  | requestSlave k =>
    have hmasked : (m.pic2.request k).imr = BitVec.allOnes 8 := hi.slave
    have hnone : ¬∃ j, (m.pic2.request k).Offers j := fun ⟨j, hj⟩ =>
      Controller.not_offers_of_masked hmasked j hj
    replace hstep : m' = _ := hstep
    rw [if_neg hnone] at hstep
    subst hstep
    exact hi.keep (by simp) (fun _ _ => rfl) (hi.toServing.frame rfl rfl rfl) rfl rfl
  | accept k =>
    obtain ⟨hif, ho, h, hline, rfl⟩ := (hf.accept hinj hi).mp hstep
    have hidle : m.pic1.isr = fun _ => false := funext (hi.idle (hi.running_none hif))
    have hisr : (m.pic1.accept k).isr = Function.update (fun _ => false) k true := by
      show (if m.pic1.autoEoi then m.pic1.isr else Function.update m.pic1.isr k true) = _
      rw [hi.normal, hidle]
      rfl
    refine ⟨?_, hi.ready, hi.base, hi.normal, ?_, hi.slave, fun j => ?_⟩
    · obtain ⟨-, -, hk⟩ := (hi.offers_iff hif k).mp ho
      rcases hk with rfl | ⟨rfl, -⟩
      · obtain rfl : h = .timer := Option.some.inj hline.symm
        exact .of_timer rfl rfl (.inr hisr)
      · obtain rfl : h = .keyboard := Option.some.inj hline.symm
        exact .of_keyboard rfl rfl hisr
    · rw [mask_of_ne (by simp)]
      exact hi.mask
    · rw [foldl_latch, ← hi.pending j]
      show Function.update m.pic1.irr k false j = (m.pic1.irr j && decide (k ≠ j))
      by_cases hj : j = k
      · rw [hj, Function.update_self, decide_eq_false (not_not.mpr rfl), Bool.and_false]
      · rw [Function.update_of_ne hj, decide_eq_true (Ne.symm hj), Bool.and_true]
  | yield =>
    obtain ⟨hr, hstep⟩ := hstep
    have hv : handlerOf 0x20 = some .timer := rfl
    obtain rfl := (hf.enters_iff hinj hv).mp hstep
    exact hi.keep (by decide) (fun _ _ => rfl) (.of_timer rfl rfl (.inl (hi.idle hr))) rfl rfl
  | setIf flag =>
    obtain ⟨hr, rfl⟩ := hstep
    exact hi.keep (by simp) (fun _ _ => rfl) (.of_none hr (hi.idle hr)) rfl rfl
  | eoi =>
    obtain ⟨hr, rfl⟩ := hstep
    exact hi.keep (by decide) (fun _ _ => rfl) (.of_none rfl (hi.eoi hr)) rfl rfl
  | picEnable =>
    obtain ⟨hr, rfl⟩ := hstep
    have hpic : m.picEnable.pic1 = { m.pic1 with imr := 0xFC } := by
      show m.pic1.data 0xFC = _
      simp only [Controller.data, hi.ready]
    refine ⟨.of_none hr ?_, ?_, ?_, ?_, ?_, hi.slave, fun k => ?_⟩
    · rw [hpic]
      exact hi.idle hr
    · rw [hpic]
      exact hi.ready
    · rw [hpic]
      exact hi.base
    · rw [hpic]
      exact hi.normal
    · rw [hpic, if_pos (by simp)]
    · rw [hpic, foldl_latch]
      exact hi.pending k

theorem BoardInv.run {tr : List (PicEvent × Board)} (hi : BoardInv m es)
    (hf : Filled mem idtr address) (hinj : Function.Injective address)
    (htr : (board mem idtr address).Trace m tr) :
    BoardInv (final m tr) (es ++ tr.map Prod.fst) := by
  induction tr generalizing m es with
  | nil => rwa [List.map_nil, List.append_nil]
  | cons x tr ih =>
    have hrest := ih (hi.step hf hinj htr.1) htr.2
    rwa [List.append_assoc, List.singleton_append] at hrest

theorem filled_of_table {t : IdtTable} {a p : Word} (ht : TableAt mem a (idtInit address t))
    (hp : BytesAt mem p ((idtPtr a).flatMap bytes32)) : Filled mem (lidt mem p) address := by
  intro v h hv
  rw [lidt_idtPtr hp, gateAt_eq (t := idtInit address t) ht, idtInit_gate, hv]
  · rfl
  · have hlt := v.isLt
    show _ ≤ 2048
    omega

end

/-- What can come next after the events `es`. -/
structure Delivered (mem : Memory) (idtr : Idtr) (address : IntHandler → Word) (m : Board)
    (es : List PicEvent) : Prop where
  /-- A request of the timer or the keyboard is served, the timer's first, when the interrupts
  are on; the other lines are masked. -/
  accepted : ∀ k, (∃ m', m.Step mem idtr address (.accept k) m') ↔
    m.interruptFlag = true ∧ .picEnable ∈ es ∧ Pending k es ∧ (k = 0 ∨ k = 1 ∧ ¬Pending 0 es)
  /-- The handler of the line is entered with the interrupts off. -/
  entered : ∀ k m', m.Step mem idtr address (.accept k) m' →
    (k = 0 ∧ m'.running = some .timer ∨ k = 1 ∧ m'.running = some .keyboard) ∧
      m'.interruptFlag = false
  /-- A yield enters the handler of the timer, and takes nobody's request away. -/
  yielded : m.running = none → ∃ m', m.Step mem idtr address .yield m' ∧
    m'.running = some .timer ∧ m'.interruptFlag = false ∧ m'.pic1 = m.pic1
  /-- Handlers do not nest. -/
  alone : m.interruptFlag = true → m.running = none
  /-- No line is left in service behind the EOI of a handler. -/
  ended : ∀ m', m.Step mem idtr address .eoi m' → ∀ k, m'.pic1.isr k = false

/-- In any order of requests, interrupts, yields and EOIs, with any tasks switched to behind the
EOIs, the requests of the timer and the keyboard reach their handlers, each once. -/
theorem interrupts_delivered {mem : Memory} {address : IntHandler → Word} {t : IdtTable} {a p : Word}
    {m : Board} {tr : List (PicEvent × Board)} (hinj : Function.Injective address)
    (ht : TableAt mem a (idtInit address t)) (hp : BytesAt mem p ((idtPtr a).flatMap bytes32))
    (hm : (board mem (lidt mem p) address).start m)
    (htr : (board mem (lidt mem p) address).Trace m tr) :
    Delivered mem (lidt mem p) address (final m tr) (tr.map Prod.fst) := by
  have hf := filled_of_table ht hp
  have hi := (BoardInv.start hm).run hf hinj htr
  rw [List.nil_append] at hi
  refine ⟨fun k => ?_, fun k m' hstep => ?_, fun hr => ?_, hi.running_none, fun m' hstep => ?_⟩
  · constructor
    · rintro ⟨m', hstep⟩
      obtain ⟨hif, ho, -⟩ := (hf.accept hinj hi).mp hstep
      exact ⟨hif, (hi.offers_iff hif k).mp ho⟩
    · rintro ⟨hif, hrest⟩
      have ho := (hi.offers_iff hif k).mpr hrest
      rcases hrest.2.2 with rfl | ⟨rfl, -⟩
      · exact ⟨_, (hf.accept hinj hi).mpr ⟨hif, ho, .timer, rfl, rfl⟩⟩
      · exact ⟨_, (hf.accept hinj hi).mpr ⟨hif, ho, .keyboard, rfl, rfl⟩⟩
  · obtain ⟨hif, ho, h, hline, rfl⟩ := (hf.accept hinj hi).mp hstep
    obtain ⟨-, -, hk⟩ := (hi.offers_iff hif k).mp ho
    refine ⟨?_, rfl⟩
    rcases hk with rfl | ⟨rfl, -⟩
    · exact .inl ⟨rfl, hline.symm⟩
    · exact .inr ⟨rfl, hline.symm⟩
  · have hv : handlerOf 0x20 = some .timer := rfl
    exact ⟨_, ⟨hr, (hf.enters_iff hinj hv).mpr rfl⟩, rfl, rfl, rfl⟩
  · obtain ⟨hr, rfl⟩ := hstep
    exact hi.eoi hr

def tableMemory (t : IdtTable) : Memory := fun a =>
  if a.toNat < 2048 then ((t (BitVec.ofNat 8 (a.toNat / 8))).words.flatMap bytes32).getD (a.toNat % 8) 0
  else ((idtPtr 0).flatMap bytes32).getD (a.toNat - 2048) 0

theorem tableAt_tableMemory (t : IdtTable) : TableAt (tableMemory t) 0 t := by
  intro v i hi
  have hlen : i < 8 := hi
  have hv := v.isLt
  have haddr : (0 + 8 * v.setWidth 32 + BitVec.ofNat 32 i : Word).toNat = 8 * v.toNat + i := by
    rw [zero_add, BitVec.toNat_add, BitVec.toNat_mul, BitVec.toNat_setWidth, BitVec.toNat_ofNat]
    show (8 * (v.toNat % 2 ^ 32) % 2 ^ 32 + i % 2 ^ 32) % 2 ^ 32 = _
    omega
  have hvec : BitVec.ofNat 8 ((8 * v.toNat + i) / 8) = v := by
    rw [show (8 * v.toNat + i) / 8 = v.toNat by omega, BitVec.ofNat_toNat, BitVec.setWidth_eq]
  rw [tableMemory, haddr, if_pos (by omega), hvec, show (8 * v.toNat + i) % 8 = i by omega]
  exact (List.getElem_eq_getD 0).symm

theorem idtPtr_tableMemory (t : IdtTable) :
    BytesAt (tableMemory t) 2048 ((idtPtr 0).flatMap bytes32) := by
  intro i hi
  have hlen : i < 8 := hi
  have haddr : (2048 + BitVec.ofNat 32 i : Word).toNat = 2048 + i := by
    rw [BitVec.toNat_add, BitVec.toNat_ofNat]
    show (2048 + i % 2 ^ 32) % 2 ^ 32 = _
    omega
  rw [tableMemory, haddr, if_neg (by omega), Nat.add_sub_cancel_left]
  exact (List.getElem_eq_getD 0).symm

def handlerAddress (h : IntHandler) : Word := 0xC0100000 + 0x20 * BitVec.ofNat 32 h.ctorIdx

theorem handlerAddress_injective : Function.Injective handlerAddress := by
  intro h h'
  cases h <;> cases h' <;> decide

def firmwareBoard : Board where
  pic1 := ⟨.mask, false, true, 0x08, false, 0xFF, fun _ => false, fun _ => false⟩
  pic2 := ⟨.mask, false, true, 0x70, false, 0xFF, fun _ => false, fun _ => false⟩
  interruptFlag := false
  running := none

/-- A key is pressed before `pic_enable`, and is served behind it. -/
theorem interrupts_delivered_key : ∃ m m',
    (board (tableMemory (idtInit handlerAddress noGates))
        (lidt (tableMemory (idtInit handlerAddress noGates)) 2048) handlerAddress).Trace
      firmwareBoard.idtInit
      [(.request 1, { firmwareBoard.idtInit with pic1 := firmwareBoard.idtInit.pic1.request 1 }),
        (.picEnable, m), (.accept 1, m')] ∧ m'.running = some .keyboard := by
  let s : Board := { firmwareBoard.idtInit with pic1 := firmwareBoard.idtInit.pic1.request 1 }
  have hstart : (board (tableMemory (idtInit handlerAddress noGates))
      (lidt (tableMemory (idtInit handlerAddress noGates)) 2048) handlerAddress).start
        firmwareBoard.idtInit := ⟨firmwareBoard, fun _ => rfl, rfl, rfl⟩
  have htr : (board (tableMemory (idtInit handlerAddress noGates))
      (lidt (tableMemory (idtInit handlerAddress noGates)) 2048) handlerAddress).Trace
        firmwareBoard.idtInit [(.request 1, s), (.picEnable, s.picEnable)] :=
    ⟨rfl, ⟨rfl, rfl⟩, trivial⟩
  have hdelivered := interrupts_delivered handlerAddress_injective (tableAt_tableMemory _)
    (idtPtr_tableMemory _) hstart htr
  obtain ⟨m', hm'⟩ := (hdelivered.accepted 1).mpr ⟨rfl, by simp, rfl, .inr ⟨rfl, Bool.false_ne_true⟩⟩
  refine ⟨s.picEnable, m', ⟨rfl, ⟨rfl, rfl⟩, hm', trivial⟩, ?_⟩
  rcases (hdelivered.entered 1 m' hm').1 with ⟨h, -⟩ | ⟨-, h⟩
  · cases h
  · exact h

end RubiKernel.Dt
