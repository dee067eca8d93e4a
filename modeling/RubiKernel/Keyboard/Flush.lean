import RubiKernel.Keyboard.Echo

/-! The record that `IOCTL_FLUSH` pops: its slot is copied into a buffer that is too
small for it, and the function is read through a pointer to the slot, which is freed. -/

namespace RubiKernel.Keyboard

open Clist Queue Lts

inductive Command
  | echo (n : Word)
  | flush (junk : Word) (cmdStatus : Byte)

/-- The driver, and the slots of its queue that are allocated. -/
structure Owned where
  driver : KbDriver
  live : List Word

/-- A new slot is none of those in use; `clist_delete` frees the slot it takes out. -/
def Owned.exec (s : Owned) : Command → Option Owned
  | .echo n =>
    if n ∉ 0 :: s.live then some { driver := s.driver.ioctlEcho n, live := n :: s.live } else none
  | .flush junk cmdStatus =>
    let entry := s.driver.keyboardQu.clist.head
    some
      { driver := (s.driver.ioctlFlush junk cmdStatus).1
        live := if entry ≠ 0 then s.live.erase entry else s.live }

def commands : System Owned Command where
  start s := runs.start s.driver.keyboardQu.clist ∧ s.live = []
  step s c t := s.exec c = some t

/-- A flush is safe: what is copied fits, the function is read from a slot that is
allocated, and an empty queue is left alone. -/
structure FlushSafe (empty : Prop) (live : List Word) (flush : Flush) : Prop where
  copied : flush.copied ≤ queueHeadSize
  read : flush.kbq ∈ live
  quiet : empty → flush.effect = ⟨none, none⟩

def Safe (s : Owned) : Command → Owned → Prop
  | .echo _, _ => True
  | .flush junk cmdStatus, t =>
    FlushSafe (s.driver.keyboardQu.clist.head = 0) t.live (s.driver.ioctlFlush junk cmdStatus).2

def NoFlush (_ : Owned) : Command → Owned → Prop
  | .echo _, _ => True
  | .flush _ _, _ => False

/-- What a flush does wrong: with a record, it copies too much and reads from the freed
slot; without one, it calls a function all the same. -/
structure FlushWrong (empty : Prop) (live : List Word) (flush : Flush) : Prop where
  copied : ¬empty → queueHeadSize < flush.copied
  read : ¬empty → flush.kbq ∉ live
  called : empty → flush.effect.called ≠ none

def Wrong (s : Owned) : Command → Owned → Prop
  | .echo _, _ => True
  | .flush junk cmdStatus, t =>
    FlushWrong (s.driver.keyboardQu.clist.head = 0) t.live (s.driver.ioctlFlush junk cmdStatus).2

/-- The allocated slots are those of the ring `l`, each with a pointer to itself. -/
structure Owns (s : Owned) (l : List Word) : Prop where
  ring : RingOf s.driver.keyboardQu.clist l
  self : ∀ i ∈ l, s.driver.keyboardQu.data i = i
  live : s.live.Perm l

variable {s t : Owned} {l : List Word} {n junk : Word} {cmdStatus : Byte} {c : Command}
  {tr : List (Command × Owned)}

theorem Owns.echo (h : Owns s l) (hn : n ∉ 0 :: s.live) :
    ∃ l', Owns { driver := s.driver.ioctlEcho n, live := n :: s.live } l' := by
  have hfresh : n ∉ 0 :: l := fun hmem => hn ((h.live.cons 0).mem_iff.mpr hmem)
  obtain ⟨l', hring, hperm⟩ :=
    h.ring.clistInsertAfter_perm (h.ring.tail.imp_right And.right) hfresh
  refine ⟨l', hring, fun i hi => ?_, (h.live.cons n).trans hperm.symm⟩
  show Function.update s.driver.keyboardQu.data n n i = i
  rcases List.mem_cons.mp (hperm.mem_iff.mp hi) with rfl | hi
  · exact Function.update_self _ _ _
  · have hne : i ≠ n := by
      rintro rfl
      exact hfresh (List.mem_cons_of_mem 0 hi)
    rw [Function.update_of_ne hne]
    exact h.self i hi

theorem ioctlFlush_nonempty {d : KbDriver} (hhead : d.keyboardQu.clist.head ≠ 0) (junk : Word)
    (cmdStatus : Byte) :
    (d.ioctlFlush junk cmdStatus).1.keyboardQu =
        { d.keyboardQu with clist := d.keyboardQu.clist.clistDelete d.keyboardQu.clist.head } ∧
      (d.ioctlFlush junk cmdStatus).2.copied = kbQueueSize ∧
      (d.ioctlFlush junk cmdStatus).2.kbq = d.keyboardQu.data d.keyboardQu.clist.head := by
  simp only [KbDriver.ioctlFlush, queuePop, if_pos hhead]
  exact ⟨trivial, if_pos rfl, rfl⟩

theorem ioctlFlush_empty {d : KbDriver} (hhead : d.keyboardQu.clist.head = 0) (junk : Word)
    (cmdStatus : Byte) : (d.ioctlFlush junk cmdStatus).1.keyboardQu = d.keyboardQu := by
  simp only [KbDriver.ioctlFlush, queuePop, hhead, ne_eq, not_true_eq_false, if_false]

theorem ioctlFlush_called (d : KbDriver) (junk : Word) (cmdStatus : Byte) :
    (d.ioctlFlush junk cmdStatus).2.effect.called = some d.kb.kbStatus := rfl

theorem Owns.head_mem (h : Owns s l) (hhead : s.driver.keyboardQu.clist.head ≠ 0) :
    s.driver.keyboardQu.clist.head ∈ l := by
  have hfirst := h.ring.head
  cases l with
  | nil => exact absurd hfirst hhead
  | cons i l =>
    rw [hfirst]
    exact List.mem_cons_self

theorem Owns.of_data {l' : List Word} (h : Owns s l)
    (hdata : t.driver.keyboardQu.data = s.driver.keyboardQu.data)
    (hring : RingOf t.driver.keyboardQu.clist l') (hsub : l' ⊆ l) (hlive : t.live.Perm l') :
    Owns t l' := by
  refine ⟨hring, fun i hi => ?_, hlive⟩
  rw [hdata]
  exact h.self i (hsub hi)

theorem Owns.flush (h : Owns s l) (hstep : s.exec (.flush junk cmdStatus) = some t) :
    ∃ l', Owns t l' := by
  obtain rfl := Option.some.inj hstep
  by_cases hhead : s.driver.keyboardQu.clist.head = 0
  · have hqu := ioctlFlush_empty hhead junk cmdStatus
    refine ⟨l, h.of_data (by rw [hqu]) (by rw [hqu]; exact h.ring) (List.Subset.refl l) ?_⟩
    rw [if_neg (not_not.mpr hhead)]
    exact h.live
  · obtain ⟨hqu, -, -⟩ := ioctlFlush_nonempty hhead junk cmdStatus
    obtain ⟨l', hring, hperm⟩ := h.ring.clistDelete (h.head_mem hhead)
    have hsub : l' ⊆ l := fun i hi => hperm.mem_iff.mpr (List.mem_cons_of_mem _ hi)
    have herase := (h.live.trans hperm).erase s.driver.keyboardQu.clist.head
    rw [List.erase_cons_head] at herase
    refine ⟨l', h.of_data (by rw [hqu]) (by rw [hqu]; exact hring) hsub ?_⟩
    rwa [if_pos hhead]

theorem Owns.start (hs : commands.start s) : Owns s [] := by
  refine ⟨ringOf_start hs.1, fun i hi => absurd hi List.not_mem_nil, ?_⟩
  rw [hs.2]

theorem Owns.step (h : Owns s l) (hstep : s.exec c = some t) : ∃ l', Owns t l' := by
  cases c with
  | echo n =>
    obtain ⟨hn, heq⟩ := Option.ite_none_right_eq_some.mp hstep
    obtain rfl := Option.some.inj heq
    exact h.echo hn
  | flush junk cmdStatus => exact h.flush hstep

/-- The slot that is popped is its own record, and is freed before it is read. -/
theorem Owns.wrong (h : Owns s l) (hstep : s.exec c = some t) : Wrong s c t := by
  cases c with
  | echo n => trivial
  | flush junk cmdStatus =>
    obtain rfl := Option.some.inj hstep
    refine ⟨fun hhead => ?_, fun hhead => ?_, fun _ => ?_⟩
    · rw [(ioctlFlush_nonempty hhead junk cmdStatus).2.1]
      decide
    · have hnodup := h.live.nodup_iff.mpr h.ring.nodup
      rw [(ioctlFlush_nonempty hhead junk cmdStatus).2.2, h.self _ (h.head_mem hhead)]
      simp only [hhead, ne_eq, not_false_eq_true, if_true]
      exact hnodup.not_mem_erase
    · rw [ioctlFlush_called]
      exact Option.some_ne_none _

theorem flush_wrong (hs : commands.start s) (htr : commands.Trace s tr) : Every Wrong s tr :=
  htr.every_of_invariant (I := fun s => ∃ l, Owns s l) (fun _ _ _ ⟨_, h⟩ hstep => h.step hstep)
    (fun _ _ _ ⟨_, h⟩ hstep => h.wrong hstep) ⟨[], .start hs⟩

theorem FlushWrong.not_safe {empty : Prop} {live : List Word} {flush : Flush}
    (h : FlushWrong empty live flush) : ¬FlushSafe empty live flush := fun hsafe => by
  by_cases hempty : empty
  · exact h.called hempty (by rw [hsafe.quiet hempty])
  · exact absurd hsafe.copied (Nat.not_le.mpr (h.copied hempty))

/-- A history is safe exactly when it has no flush. -/
theorem flush_safe_iff (hs : commands.start s) (htr : commands.Trace s tr) :
    Every Safe s tr ↔ Every NoFlush s tr := by
  refine htr.every_iff (I := fun s => ∃ l, Owns s l) (fun s c t ⟨l, h⟩ hstep => ?_)
    (fun _ _ _ ⟨_, h⟩ hstep _ => h.step hstep) ⟨[], .start hs⟩
  have hwrong := h.wrong hstep
  cases c with
  | echo n => exact Iff.rfl
  | flush junk cmdStatus => exact iff_of_false hwrong.not_safe id

instance {empty : Prop} [Decidable empty] (live : List Word) (flush : Flush) :
    Decidable (FlushSafe empty live flush) :=
  decidable_of_iff
    (flush.copied ≤ queueHeadSize ∧ flush.kbq ∈ live ∧ (empty → flush.effect = ⟨none, none⟩))
    ⟨fun ⟨copied, read, quiet⟩ => ⟨copied, read, quiet⟩,
      fun ⟨copied, read, quiet⟩ => ⟨copied, read, quiet⟩⟩

instance (s : Owned) : (c : Command) → (t : Owned) → Decidable (Safe s c t)
  | .echo _, _ => inferInstanceAs (Decidable True)
  | .flush _ _, _ => inferInstanceAs (Decidable (FlushSafe _ _ _))

instance (s : Owned) : (c : Command) → (t : Owned) → Decidable (NoFlush s c t)
  | .echo _, _ => inferInstanceAs (Decidable True)
  | .flush _ _, _ => inferInstanceAs (Decidable False)

def bootOwned : Owned := ⟨bootDriver, []⟩

theorem bootOwned_start : commands.start bootOwned := ⟨⟨rfl, rfl, rfl⟩, rfl⟩

/-- Two commands are queued. -/
theorem flush_safe_iff_example : ∃ tr,
    replay Owned.exec bootOwned [.echo 0x1000, .echo 0x2000] = some tr ∧ Every Safe bootOwned tr := by
  obtain ⟨tr, hrun, htr, hnone⟩ : ∃ tr,
      replay Owned.exec bootOwned [.echo 0x1000, .echo 0x2000] = some tr ∧
        commands.Trace bootOwned tr ∧ Every NoFlush bootOwned tr :=
    System.Trace.exists_of_replay (fun _ _ _ h => h) (by decide)
  exact ⟨tr, hrun, (flush_safe_iff bootOwned_start htr).mpr hnone⟩

/-- One command is queued and flushed: 16 bytes for 12, and a function from a freed slot.
A flush of the empty queue calls what it finds. -/
theorem flush_unsafe :
    (∃ tr, replay Owned.exec bootOwned [.echo 0x1000, .flush 0 0] = some tr ∧
      commands.Trace bootOwned tr ∧ ¬Every Safe bootOwned tr) ∧
    (∃ tr, replay Owned.exec bootOwned [.flush 0 0] = some tr ∧
      commands.Trace bootOwned tr ∧ ¬Every Safe bootOwned tr) :=
  ⟨System.Trace.exists_of_replay (fun _ _ _ h => h) (by decide),
    System.Trace.exists_of_replay (fun _ _ _ h => h) (by decide)⟩

end RubiKernel.Keyboard
