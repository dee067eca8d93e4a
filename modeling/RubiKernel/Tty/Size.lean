import RubiKernel.Tty.Console

/-! How much `tty_read` stores. Its loop takes a character before it looks at the size,
and a size of 0 is counted down to the largest one. -/

namespace RubiKernel.Tty

open Lts

structure Session where
  console : Console
  reader : Reader

inductive Turn
  | call (c : Call)
  | turn

/-- `tty_read` takes turns until it returns. -/
def Session.exec (b : InputBuff) (s : Session) : Turn → Option Session
  | .call c => some { s with console := s.console.exec b c }
  | .turn =>
    if s.reader.returned then none
    else
      let (driver, reader) := ttyReadTurn b s.console.driver s.reader
      some { console := { s.console with driver := driver }, reader := reader }

/-- The call on a terminal in any state, with any offset of its file. -/
def readSystem (b : InputBuff) (size : Word) : System Session Turn where
  start s := ∃ offset, s.reader = ttyRead offset size
  step s e t := s.exec b e = some t

/-- `(size_t)ptr - (size_t)buf`. -/
def Reader.result (r : Reader) : Word := BitVec.ofNat 32 r.stored.length

/-- At most `size` bytes are stored, and the result is their number. -/
def Within (size : Word) (_ : Session) (_ : Turn) (t : Session) : Prop :=
  t.reader.stored.length ≤ size.toNat ∧
    (t.reader.returned = true → t.reader.result.toNat = t.reader.stored.length)

instance (size : Word) (s : Session) (e : Turn) (t : Session) : Decidable (Within size s e t) :=
  inferInstanceAs (Decidable (_ ∧ (_ → _)))

/-- There is no character at `offset`. -/
def Nothing (b : InputBuff) (d : Driver) (offset : Word) : Prop :=
  d.inputPtr ≤ b.addr + offset ∨ d.mem (b.addr + offset) = 0

instance (b : InputBuff) (d : Driver) (offset : Word) : Decidable (Nothing b d offset) :=
  inferInstanceAs (Decidable (_ ∨ _))

/-- A call without room meets no character. -/
def Spare (b : InputBuff) (size : Word) (s : Session) : Turn → Session → Prop
  | .call _, _ => True
  | .turn, _ => size = 0 → Nothing b s.console.driver s.reader.offset

instance (b : InputBuff) (size : Word) (s : Session) :
    (e : Turn) → (t : Session) → Decidable (Spare b size s e t)
  | .call _, _ => inferInstanceAs (Decidable True)
  | .turn, _ => inferInstanceAs (Decidable (_ → _))

structure Counted (size : Word) (r : Reader) : Prop where
  stored : r.stored.length ≤ size.toNat
  rest : r.returned = false → r.stored.length + r.size.toNat = size.toNat
  room : r.returned = false → size ≠ 0 → r.size ≠ 0

variable {b : InputBuff} {d : Driver} {r : Reader} {s t : Session} {size offset : Word}
  {tr : List (Turn × Session)}

theorem readCh_nothing (d : Driver) (offset : Word) :
    (ttyReadCh b d offset).2.2 = 0 ↔ Nothing b d offset := by
  rw [readCh_taken, taken, Nothing]
  by_cases heof : d.inputPtr ≤ b.addr + offset
  · rw [if_pos heof]
    exact iff_of_true rfl (.inl heof)
  · rw [if_neg heof, Option.map_some, Option.getD_some]
    exact (or_iff_right heof).symm

theorem turn_nothing (hrun : r.returned = false) (hch : (ttyReadCh b d r.offset).2.2 = 0) :
    (ttyReadTurn b d r).2 =
      { r with
        offset := (ttyReadCh b d r.offset).2.1
        returned := ¬r.size > 0 } := by
  have hline : ∀ mode : Bool, if mode = true then (0 : Byte) ≠ newline else True := by decide
  simp only [ttyReadTurn, hrun, Bool.false_eq_true, if_false, hch, ne_eq, not_true_eq_false,
    hline, and_true]

theorem turn_char (hrun : r.returned = false) (hch : (ttyReadCh b d r.offset).2.2 ≠ 0) :
    (ttyReadTurn b d r).2.stored = r.stored ++ [(ttyReadCh b d r.offset).2.2] ∧
      (ttyReadTurn b d r).2.size = r.size - 1 ∧
      ((ttyReadTurn b d r).2.returned = false → r.size - 1 ≠ 0) := by
  simp only [ttyReadTurn, hrun, Bool.false_eq_true, if_false, hch, ne_eq, not_false_eq_true,
    if_true]
  refine ⟨trivial, trivial, fun hgo hzero => ?_⟩
  rw [decide_eq_false_iff_not, not_not, hzero] at hgo
  exact absurd hgo.1 (BitVec.lt_irrefl 0)

theorem Reader.result_toNat (h : r.stored.length ≤ size.toNat) :
    r.result.toNat = r.stored.length :=
  Word.toNat_ofNat (h.trans_lt size.isLt)

theorem Counted.within (h : Counted size t.reader) {e : Turn} : Within size s e t :=
  ⟨h.stored, fun _ => Reader.result_toNat h.stored⟩

theorem Counted.nothing (h : Counted size r) (hrun : r.returned = false)
    (hch : (ttyReadCh b d r.offset).2.2 = 0) : Counted size (ttyReadTurn b d r).2 := by
  rw [turn_nothing hrun hch]
  exact ⟨h.stored, fun _ => h.rest hrun, fun _ => h.room hrun⟩

theorem Counted.char (h : Counted size r) (hrun : r.returned = false) (hsize : size ≠ 0)
    (hch : (ttyReadCh b d r.offset).2.2 ≠ 0) : Counted size (ttyReadTurn b d r).2 := by
  obtain ⟨hstored, hleft, hgo⟩ := turn_char hrun hch
  have hrest := h.rest hrun
  have hroom := BitVec.toNat_ne.mp (h.room hrun hsize)
  have hsub : (r.size - 1).toNat = r.size.toNat - 1 :=
    BitVec.toNat_sub_of_le (BitVec.le_def.mpr (Nat.one_le_iff_ne_zero.mpr hroom))
  have hzero : (0 : Word).toNat = 0 := rfl
  have hlen : (ttyReadTurn b d r).2.stored.length = r.stored.length + 1 := by
    rw [hstored, List.length_append, List.length_singleton]
  constructor
  · rw [hlen]
    omega
  · intro _
    rw [hlen, hleft, hsub]
    omega
  · intro hreturned _
    rw [hleft]
    exact hgo hreturned

theorem exec_turn (h : s.exec b .turn = some t) : s.reader.returned = false ∧
    t.reader = (ttyReadTurn b s.console.driver s.reader).2 := by
  rw [Session.exec, Option.ite_none_left_eq_some, Bool.not_eq_true] at h
  obtain ⟨hrun, hnext⟩ := h
  obtain rfl := Option.some.inj hnext
  exact ⟨hrun, rfl⟩

/-- A turn without room stores a byte behind the buffer. -/
theorem turn_overrun (hrun : r.returned = false)
    (hch : (ttyReadCh b d r.offset).2.2 ≠ 0) :
    ¬(ttyReadTurn b d r).2.stored.length ≤ (0 : Word).toNat := by
  rw [(turn_char hrun hch).1, List.length_append, List.length_singleton]
  exact Nat.not_succ_le_zero _

theorem Counted.step_iff (h : Counted size s.reader) {e : Turn} (hstep : s.exec b e = some t) :
    (Within size s e t ↔ Spare b size s e t) ∧ (Within size s e t → Counted size t.reader) := by
  cases e with
  | call c =>
    have hcounted : Counted size t.reader := by
      obtain rfl := Option.some.inj hstep
      exact h
    exact ⟨iff_of_true hcounted.within trivial, fun _ => hcounted⟩
  | turn =>
    obtain ⟨hrun, ht⟩ := exec_turn hstep
    by_cases hch : (ttyReadCh b s.console.driver s.reader.offset).2.2 = 0
    · have hcounted : Counted size t.reader := ht ▸ h.nothing hrun hch
      exact ⟨iff_of_true hcounted.within fun _ => (readCh_nothing _ _).mp hch, fun _ => hcounted⟩
    · by_cases hsize : size = 0
      · subst hsize
        have hover : ¬Within 0 s .turn t := fun hwithin => turn_overrun hrun hch (ht ▸ hwithin.1)
        refine ⟨iff_of_false hover fun hspare => ?_, fun hwithin => absurd hwithin hover⟩
        exact hch ((readCh_nothing _ _).mpr (hspare rfl))
      · have hcounted : Counted size t.reader := ht ▸ h.char hrun hsize hch
        exact ⟨iff_of_true hcounted.within fun hzero => absurd hzero hsize, fun _ => hcounted⟩

theorem Counted.start (offset size : Word) : Counted size (ttyRead offset size) :=
  ⟨Nat.zero_le _, fun _ => Nat.zero_add _, fun _ hsize => hsize⟩

/-- `tty_read` keeps to its size exactly when there is room, or no character to store. -/
theorem ttyRead_within_iff (hstart : (readSystem b size).start s)
    (htr : (readSystem b size).Trace s tr) :
    Every (Within size) s tr ↔ Every (Spare b size) s tr := by
  obtain ⟨offset, hreader⟩ := hstart
  exact htr.every_iff (I := fun s => Counted size s.reader)
    (fun s e t h hstep => (h.step_iff hstep).1) (fun s e t h hstep => (h.step_iff hstep).2)
    (hreader ▸ Counted.start offset size)

def session (size : Word) : Session := ⟨⟨console.driver, []⟩, ttyRead 0 size⟩

def polledKeys : List Turn := [.turn, .call (.key 30), .turn, .call (.key 48), .turn]

theorem ttyRead_within_iff_example : ∃ tr,
    replay (Session.exec consoleBuff) (session 2) polledKeys = some tr ∧
      Every (Within 2) (session 2) tr := by
  obtain ⟨tr, hrun, htr, hspare⟩ : ∃ tr,
      replay (Session.exec consoleBuff) (session 2) polledKeys = some tr ∧
        (readSystem consoleBuff 2).Trace (session 2) tr ∧
          Every (Spare consoleBuff 2) (session 2) tr :=
    System.Trace.exists_of_replay (fun _ _ _ h => h) (by decide)
  exact ⟨tr, hrun, (ttyRead_within_iff ⟨0, rfl⟩ htr).mpr hspare⟩

/-- A size of 0 while an `a` is in the buffer. -/
theorem ttyRead_overrun : ∃ tr,
    replay (Session.exec consoleBuff) (session 0) [.call (.key 30), .turn] = some tr ∧
      (readSystem consoleBuff 0).Trace (session 0) tr ∧ ¬Every (Within 0) (session 0) tr :=
  System.Trace.exists_of_replay (fun _ _ _ h => h) (by decide)

end RubiKernel.Tty
