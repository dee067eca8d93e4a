import RubiKernel.Scheduler.Safety

/-! `DT/int_handle.asm` and `asm_lib.asm`: how a task is interrupted and resumed, and
what of the processor's state survives in between. -/

namespace RubiKernel.Scheduler

open Lts Memory

/-- The registers of the processor; tasks run in kernel mode, on the stack at `esp`. -/
structure Cpu where
  gpRegisters : GpRegisters
  eip : Word
  cs : BitVec 16
  eflags : Word
  cr3 : Word
  deriving DecidableEq

def push (r : Memory × Word) (w : Word) : Memory × Word := (write32 r.1 (r.2 - 4) w, r.2 - 4)

/-- `int_timer` up to the call of `cint_timer`: the processor pushes its frame, with
`pad` above the selector, and `pushad` the registers. The result is `reg_addr`. -/
def intTimer (mem : Memory) (cpu : Cpu) (pad : BitVec 16) : Memory × Word :=
  let r := push (mem, cpu.gpRegisters.esp) cpu.eflags
  let r := push r (pad ++ cpu.cs)
  let r := push r cpu.eip
  let esp := r.2
  let r := push r cpu.gpRegisters.eax
  let r := push r cpu.gpRegisters.ecx
  let r := push r cpu.gpRegisters.edx
  let r := push r cpu.gpRegisters.ebx
  let r := push r esp
  let r := push r cpu.gpRegisters.ebp
  let r := push r cpu.gpRegisters.esi
  push r cpu.gpRegisters.edi

/-- `popad` and `iret` on the stack at `esp`; `popad` skips the saved `esp`. -/
def popadIret (mem : Memory) (esp cr3 : Word) : Cpu where
  gpRegisters := { readGpRegisters mem esp with esp := esp + 32 + 12 }
  eip := read32 mem (esp + 32)
  cs := read16 mem (esp + 32 + 4)
  eflags := read32 mem (esp + 32 + 8)
  cr3 := cr3

def switchKcontext (mem : Memory) (esp cr3 : Word) : Cpu := popadIret mem esp cr3

/-- Carry, parity, adjust, zero, sign, direction and overflow. -/
def statusFlags : Word := 0b110011010101

/-- The eleven words at `e` that `popad` and `iret` take. -/
structure FrameAt (mem : Memory) (e : Word) (r : GpRegisters) (eip cs eflags : Word) : Prop where
  gpRegisters : readGpRegisters mem e = r
  eip : read32 mem (e + 32) = eip
  cs : read32 mem (e + 36) = cs
  eflags : read32 mem (e + 40) = eflags

variable {mem : Memory} {cpu : Cpu} {pad : BitVec 16} {x : Task} {e eip cs eflags : Word}
  {r : GpRegisters}

theorem add_add_eq {a b c : Word} (h : a + b = c) : e + a + b = e + c := by
  rw [BitVec.add_assoc, h]

theorem FrameAt.popadIret_eq (h : FrameAt mem e r eip cs eflags) (cr3 : Word) :
    popadIret mem e cr3 =
      { gpRegisters := { r with esp := e + 32 + 12 }
        eip := eip
        cs := cs.setWidth 16
        eflags := eflags
        cr3 := cr3 } := by
  have hcs : read16 mem (e + 32 + 4) = cs.setWidth 16 := by
    rw [add_add_eq (show (32 : Word) + 4 = 36 from rfl), read16_eq, h.cs]
  have hflags : read32 mem (e + 32 + 8) = eflags := by
    rw [add_add_eq (show (32 : Word) + 8 = 40 from rfl), h.eflags]
  rw [popadIret, h.gpRegisters, h.eip, hcs, hflags]

theorem sub_add_frame (esp : Word) : esp - 44 + 32 + 12 = esp := by
  rw [add_add_eq (show (32 : Word) + 12 = 44 from rfl)]
  exact sub_add_cancel ..

theorem intTimer_esp : (intTimer mem cpu pad).2 = cpu.gpRegisters.esp - 44 := by
  simp only [intTimer, push, sub_eq_add_neg, BitVec.add_assoc, BitVec.reduceNeg, BitVec.reduceAdd]

theorem intTimer_frame (mem : Memory) (cpu : Cpu) (pad : BitVec 16) :
    FrameAt (intTimer mem cpu pad).1 (cpu.gpRegisters.esp - 44)
      { cpu.gpRegisters with esp := cpu.gpRegisters.esp - 12 } cpu.eip (pad ++ cpu.cs)
      cpu.eflags := by
  refine ⟨?_, ?_, ?_, ?_⟩ <;>
    simp (disch := decide) only [intTimer, push, readGpRegisters, sub_eq_add_neg, BitVec.add_assoc,
      BitVec.reduceNeg, BitVec.reduceAdd, read32_write32, read32_write32_of_apart]

/-- When `sched_schedule` returns, `int_timer` resumes the task as it was. -/
theorem popadIret_intTimer :
    popadIret (intTimer mem cpu pad).1 (intTimer mem cpu pad).2 cpu.cr3 = cpu := by
  rw [intTimer_esp, (intTimer_frame mem cpu pad).popadIret_eq, sub_add_frame, BitVec.setWidth_append_eq_right]

theorem pushContext_frame :
    FrameAt (pushContext mem x).1 (x.opRegisters.uEsp - 44)
      { x.gpRegisters with esp := x.opRegisters.uEsp - 12 } x.opRegisters.eip
      (x.opRegisters.cs.setWidth 32) ((x.flags.setWidth 16).setWidth 32 ||| 0x200) := by
  refine ⟨?_, ?_, ?_, ?_⟩ <;>
    simp (disch := decide) only [pushContext, writeGpRegisters, readGpRegisters, sub_eq_add_neg,
      BitVec.add_assoc, BitVec.reduceNeg, BitVec.reduceAdd, read32_write32, read32_write32_of_apart]

/-- What the scheduler keeps of a task while others run. -/
def context (x : Task) : OpRegisters × Word × GpRegisters := (x.opRegisters, x.flags, x.gpRegisters)

def resumedCpu (c : OpRegisters × Word × GpRegisters) : Cpu where
  gpRegisters := { c.2.2 with esp := c.1.uEsp }
  eip := c.1.eip
  cs := c.1.cs
  eflags := (c.2.1.setWidth 16).setWidth 32 ||| 0x200
  cr3 := c.1.cr3

theorem switchKcontext_pushContext :
    switchKcontext (pushContext mem x).1 (pushContext mem x).2.opRegisters.uEsp
      (pushContext mem x).2.opRegisters.cr3 = resumedCpu (context x) := by
  have hesp : (pushContext mem x).2.opRegisters.uEsp = x.opRegisters.uEsp - 44 := by
    simp only [pushContext, sub_eq_add_neg, BitVec.add_assoc, BitVec.reduceNeg, BitVec.reduceAdd]
  rw [hesp, switchKcontext, pushContext_frame.popadIret_eq, sub_add_frame]
  simp [resumedCpu, context, pushContext]

/-- What is kept of a task that `int_timer` has interrupted: the flags are read two
bytes off, so their lower half is what stood above the selector. -/
theorem context_saveContext :
    context (saveContext (intTimer mem cpu pad).1 ((intTimer mem cpu pad).2 + 32)
      (intTimer mem cpu pad).2 x) =
      ({ x.opRegisters with
          eip := cpu.eip
          cs := cpu.cs
          uEsp := cpu.gpRegisters.esp },
        (cpu.eflags.setWidth 16 ++ pad : Word) ||| 0x200,
        { cpu.gpRegisters with esp := cpu.gpRegisters.esp - 12 }) := by
  have hframe := intTimer_frame mem cpu pad
  have hesp := sub_add_frame cpu.gpRegisters.esp
  rw [intTimer_esp]
  generalize cpu.gpRegisters.esp - 44 = e at hframe hesp
  have hcs : read16 (intTimer mem cpu pad).1 (e + 32 + 4) = cpu.cs := by
    rw [add_add_eq (show (32 : Word) + 4 = 36 from rfl), read16_eq, hframe.cs]
    exact BitVec.setWidth_append_eq_right
  have hflags : read32 (intTimer mem cpu pad).1 (e + 32 + 6) = cpu.eflags.setWidth 16 ++ pad := by
    have haddr : e + 32 + 6 = e + 36 + 2 := by
      rw [add_add_eq (show (32 : Word) + 6 = 38 from rfl),
        add_add_eq (show (36 : Word) + 2 = 38 from rfl)]
    rw [haddr, read32_between, add_add_eq (show (36 : Word) + 4 = 40 from rfl), hframe.cs,
      hframe.eflags]
    congr 1
    ext i hi
    simp only [BitVec.getElem_setWidth, BitVec.getLsbD_ushiftRight, BitVec.getLsbD_append]
    grind
  rw [context, saveContext, hframe.gpRegisters, hframe.eip, hcs, hflags, hesp]

def Sys.resumed (s : Sys) : Option Cpu :=
  match s.outcome with
  | .ret => none
  | .switch esp cr3 => some (switchKcontext s.kernel.mem esp cr3)

/-- A task of which the scheduler keeps `c`, while others run or as it is resumed. -/
def Suspended (task : Word) (c : OpRegisters × Word × GpRegisters) (s : Sys) : Prop :=
  s.kernel.currentTask ≠ task ∧ context (s.kernel.tasks task) = c ∨
    s.kernel.currentTask = task ∧ s.resumed = some (resumedCpu c)

def Event.Creates (task : Word) : Event → Prop
  | .taskCreate a => a.slot = task
  | _ => False

instance {task : Word} : (e : Event) → Decidable (e.Creates task)
  | .taskCreate a => inferInstanceAs (Decidable (a.slot = task))
  | .setRunning _ => inferInstanceAs (Decidable False)
  | .schedule .. => inferInstanceAs (Decidable False)
  | .yield => inferInstanceAs (Decidable False)
  | .exit => inferInstanceAs (Decidable False)
  | .ksend .. => inferInstanceAs (Decidable False)
  | .krecive _ => inferInstanceAs (Decidable False)
  | .resume => inferInstanceAs (Decidable False)

section

variable {s t : Sys} {e : Event} {k k₁ : Kernel} {task next retAddr regAddr : Word}
  {c : OpRegisters × Word × GpRegisters}

theorem setStatus_context (k : Kernel) (u v : Word) (status : BitVec 16) :
    context ((k.modifyTask u fun x => { x with status := status }).tasks v) = context (k.tasks v) :=
  k.modifyTask_tasks_field context rfl v

theorem suspend_context_of_ne {u : Word} (h : k.currentTask ≠ u) :
    context ((suspend k retAddr regAddr).tasks u) = context (k.tasks u) := by
  rw [suspend]
  split
  · rw [Kernel.modifyTask_tasks_of_ne _ _ h.symm, countTick_tasks_of_ne _ h.symm]
  · rfl

theorem suspended_switchTo (h : context (k₁.tasks task) = c) :
    Suspended task c { s with
      kernel := (switchTo k₁ next).1
      entering := false
      outcome := (switchTo k₁ next).2 } := by
  by_cases hnext : next = task
  · subst hnext
    exact Or.inr ⟨rfl, congrArg some (switchKcontext_pushContext.trans (by rw [h]))⟩
  · exact Or.inl ⟨hnext, (congrArg context (switchTo_tasks_of_ne _ _ (Ne.symm hnext))).trans h⟩

theorem suspended_schedSchedule {l : List Word} {k' : Kernel} {o : Outcome}
    (h : context (k.tasks task) = c) (hring : k.taskList.RingOf l)
    (hcurrent : k.currentTask = 0 ∨ k.currentTask ∈ l) (haway : k.currentTask ≠ task)
    (heq : schedSchedule k retAddr regAddr = some (k', o)) :
    Suspended task c { s with kernel := k', entering := false, outcome := o } := by
  rcases schedSchedule_cases hring hcurrent retAddr regAddr with
    ⟨-, -, heq'⟩ | ⟨heq', -⟩ | ⟨next, k₁, heq', hreaped, -⟩
  · obtain ⟨rfl, rfl⟩ := Prod.mk.inj (Option.some.inj (heq'.symm.trans heq))
    exact Or.inl ⟨haway, (congrArg context (countTick_tasks_of_ne _ haway.symm)).trans h⟩
  · obtain ⟨rfl, rfl⟩ := Prod.mk.inj (Option.some.inj (heq'.symm.trans heq))
    exact Or.inl ⟨by rwa [suspend_currentTask], (suspend_context_of_ne haway).trans h⟩
  · obtain ⟨rfl, rfl⟩ := Prod.mk.inj (Option.some.inj (heq'.symm.trans heq))
    refine suspended_switchTo ?_
    rw [hreaped.field context fun _ => rfl]
    exact (suspend_context_of_ne haway).trans h

theorem suspended_current {l : List Word} {k' : Kernel} {o : Outcome}
    (hring : k.taskList.RingOf l) (hcurrent : k.currentTask ∈ l)
    (heq : schedSchedule k retAddr regAddr = some (k', o)) (ho : o ≠ .ret) :
    ∃ x, Suspended k.currentTask (context (saveContext k.mem retAddr regAddr x))
      { s with kernel := k', entering := false, outcome := o } := by
  rcases schedSchedule_cases hring (Or.inr hcurrent) retAddr regAddr with
    ⟨-, -, heq'⟩ | ⟨heq', -⟩ | ⟨next, k₁, heq', hreaped, -⟩
  · obtain ⟨-, rfl⟩ := Prod.mk.inj (Option.some.inj (heq'.symm.trans heq))
    exact absurd rfl ho
  · obtain ⟨-, rfl⟩ := Prod.mk.inj (Option.some.inj (heq'.symm.trans heq))
    exact absurd rfl ho
  · obtain ⟨rfl, rfl⟩ := Prod.mk.inj (Option.some.inj (heq'.symm.trans heq))
    refine ⟨(countTick k).tasks k.currentTask, suspended_switchTo ?_⟩
    rw [hreaped.field context fun _ => rfl, suspend, if_pos (hring.ne_zero hcurrent),
      Kernel.modifyTask_tasks_self]

theorem Suspended.step (h : context (s.kernel.tasks task) = c) (hinv : Inv s)
    (haway : s.kernel.currentTask ≠ task) (hcreates : ¬e.Creates task)
    (hstep : system.step s e t) : Suspended task c t := by
  have hyield := fun k => schedYield_field k context (fun _ => rfl) task
  have hdeliver := fun u msg => deliver_field s.kernel u msg context (fun _ _ _ _ => rfl) task
  have htake := fun u => takeMessage_field s.kernel u context (fun _ _ => rfl) task
  cases hinv.step_cases hstep with
  | taskCreate a =>
    exact Or.inl ⟨haway, (congrArg context (taskCreate_tasks_of_ne (Ne.symm hcreates))).trans h⟩
  | setRunning u => exact Or.inl ⟨haway, (setStatus_context ..).trans h⟩
  | @schedule mem retAddr regAddr k' o heq =>
    obtain ⟨l, hring, -, hcurrent⟩ := hinv.ring
    exact suspended_schedSchedule (k := { s.kernel with mem := mem }) h hring hcurrent haway heq
  | yield => exact Or.inl ⟨by simpa using haway, (hyield _).trans h⟩
  | exit =>
    exact Or.inl ⟨by simpa using haway,
      (hyield _).trans ((setStatus_context ..).trans h)⟩
  | refused => exact Or.inl ⟨haway, h⟩
  | sent => exact Or.inl ⟨haway, (hdeliver ..).trans h⟩
  | blocked =>
    exact Or.inl ⟨by simpa using haway,
      (hyield _).trans ((setStatus_context ..).trans h)⟩
  | received => exact Or.inl ⟨haway, (htake _).trans h⟩
  | resumed => exact Or.inl ⟨haway, (htake _).trans h⟩

theorem Suspended.trace {tr : List (Event × Sys)} (h : Suspended task c s) (hinv : Inv s)
    (htrace : system.Trace s tr)
    (hothers : Every (fun u e _ => u.kernel.currentTask ≠ task ∧ ¬e.Creates task) s tr) :
    Suspended task c (final s tr) := by
  induction tr generalizing s with
  | nil => exact h
  | cons x tr ih =>
    obtain ⟨⟨haway, hcreates⟩, hothers⟩ := hothers
    obtain ⟨-, hc⟩ := h.resolve_right fun hback => haway hback.1
    exact ih (.step hc hinv haway hcreates htrace.1) (hinv.step htrace.1) htrace.2 hothers

end

/-- The timer interrupts the current task of `s` with the registers `cpu`; the scheduler
leaves it, and at the end of `tr` switches back to it. -/
structure RoundTrip (s : Sys) (mem : Memory) (cpu : Cpu) (pad : BitVec 16) (s₁ : Sys)
    (tr : List (Event × Sys)) : Prop where
  reachable : system.Reachable s
  task : s.kernel.currentTask ≠ 0
  interrupt : system.step s (.schedule (intTimer mem cpu pad).1 ((intTimer mem cpu pad).2 + 32)
    (intTimer mem cpu pad).2) s₁
  leaves : s₁.outcome ≠ .ret
  trace : system.Trace s₁ tr
  others : Every (fun u e _ => u.kernel.currentTask ≠ s.kernel.currentTask ∧
    ¬e.Creates s.kernel.currentTask) s₁ tr
  back : (final s₁ tr).kernel.currentTask = s.kernel.currentTask

/-- The task goes on with the registers and the status flags it had. -/
def Resumes (cpu cpu' : Cpu) : Prop :=
  cpu'.gpRegisters = cpu.gpRegisters ∧ cpu'.eip = cpu.eip ∧ cpu'.cs = cpu.cs ∧
    cpu'.eflags &&& statusFlags = cpu.eflags &&& statusFlags

instance {cpu cpu' : Cpu} : Decidable (Resumes cpu cpu') :=
  inferInstanceAs (Decidable (_ ∧ _ ∧ _ ∧ _))

theorem restored_statusFlags (flags : BitVec 16) :
    ((((flags ++ pad : Word) ||| 0x200).setWidth 16).setWidth 32 ||| 0x200) &&& statusFlags =
      pad.setWidth 32 &&& statusFlags := by
  have hmask : (0x200 : Word) &&& statusFlags = 0 := by decide
  have hlow : ((0x200 : Word).setWidth 16).setWidth 32 = 0x200 := by decide
  rw [BitVec.setWidth_or, BitVec.setWidth_append_eq_right, BitVec.setWidth_or, hlow,
    BitVec.or_assoc, BitVec.or_self, BitVec.and_or_distrib_right, hmask]
  exact BitVec.or_zero

theorem RoundTrip.resumed {s s₁ : Sys} {tr : List (Event × Sys)}
    (h : RoundTrip s mem cpu pad s₁ tr) :
    ∃ cr3, (final s₁ tr).resumed = some
      { cpu with
        eflags :=
          (((cpu.eflags.setWidth 16 ++ pad : Word) ||| 0x200).setWidth 16).setWidth 32 ||| 0x200
        cr3 := cr3 } := by
  have hinv := inv_of_reachable h.reachable
  obtain ⟨l, hring, -, hcurrent⟩ := hinv.ring
  obtain ⟨⟨k', o⟩, heq, rfl⟩ := Option.map_eq_some_iff.mp h.interrupt
  obtain ⟨x, hsuspended⟩ := suspended_current (s := s)
    (k := { s.kernel with mem := (intTimer mem cpu pad).1 }) hring (hcurrent.resolve_left h.task)
    heq h.leaves
  rw [context_saveContext] at hsuspended
  have hend := hsuspended.trace (hinv.step h.interrupt) h.trace h.others
  exact ⟨_, (hend.resolve_left fun haway => haway.1 h.back).2⟩

/-- A task is resumed as it was exactly when its status flags equal those bits above
the selector in its frame; where the processor pushes zeros there, when they are clear. -/
theorem int_timer_round_trip_iff {s s₁ : Sys} {tr : List (Event × Sys)}
    (h : RoundTrip s mem cpu pad s₁ tr) :
    (∃ cpu', (final s₁ tr).resumed = some cpu' ∧ Resumes cpu cpu') ↔
      pad.setWidth 32 &&& statusFlags = cpu.eflags &&& statusFlags := by
  obtain ⟨cr3, hresumed⟩ := h.resumed
  rw [hresumed]
  constructor
  · rintro ⟨cpu', hcpu', -, -, -, hflags⟩
    obtain rfl := Option.some.inj hcpu'
    rwa [restored_statusFlags] at hflags
  · intro hpad
    refine ⟨_, rfl, rfl, rfl, rfl, ?_⟩
    rw [restored_statusFlags, hpad]

def working (eflags : Word) : Cpu where
  gpRegisters :=
    { edi := 1, esi := 2, ebp := 0xC1012F80, esp := 0xC1012F00, ebx := 3, edx := 4, ecx := 5, eax := 6 }
  eip := 0xC0100010
  cs := 8
  eflags := eflags
  cr3 := 0x300000

def toDq : List Event := [.schedule (fun _ => 0) 0 0, .yield]

def backToDq : List Event :=
  [.yield, .schedule (fun _ => 0) 0 0, .yield, .schedule (fun _ => 0) 0 0]

/-- The run with a timer interrupt between the two lists goes from `dq` back to `dq`. -/
theorem roundTrip_of_run (eflags : Word) (hrun : (replay exec zeroedSys toDq).any (fun tr₀ =>
    (final zeroedSys tr₀).kernel.currentTask = 0xC1010000 ∧
      (exec (final zeroedSys tr₀) (.schedule (intTimer (fun _ => 0) (working eflags) 0).1
        ((intTimer (fun _ => 0) (working eflags) 0).2 + 32)
        (intTimer (fun _ => 0) (working eflags) 0).2)).any (fun s₁ => s₁.outcome ≠ .ret ∧
          (replay exec s₁ backToDq).any (fun tr =>
            Every (fun u e _ => u.kernel.currentTask ≠ 0xC1010000 ∧ ¬e.Creates 0xC1010000) s₁ tr ∧
              (final s₁ tr).kernel.currentTask = 0xC1010000) = true) = true) = true) :
    ∃ s s₁ tr, RoundTrip s (fun _ => 0) (working eflags) 0 s₁ tr := by
  obtain ⟨tr₀, -, htrace₀, hcurrent, hrest⟩ :=
    System.Trace.exists_of_replay (M := system) (fun _ _ _ h => h) hrun
  obtain ⟨s₁, hs₁, hrest⟩ := (Option.any_eq_true ..).mp hrest
  obtain ⟨hleaves, hrest⟩ := of_decide_eq_true hrest
  obtain ⟨tr, -, htrace, hothers, hback⟩ :=
    System.Trace.exists_of_replay (M := system) (fun _ _ _ h => h) hrest
  refine ⟨final zeroedSys tr₀, s₁, tr, htrace₀.final_reachable (.start zeroedSys_start), ?_, hs₁,
    hleaves, htrace, ?_, hback.trans hcurrent.symm⟩
  · rw [hcurrent]
    decide
  · rwa [hcurrent]

theorem int_timer_round_trip_iff_example : ∃ s s₁ tr,
    RoundTrip s (fun _ => 0) (working 0x202) 0 s₁ tr ∧
      ∃ cpu', (final s₁ tr).resumed = some cpu' ∧ Resumes (working 0x202) cpu' := by
  obtain ⟨s, s₁, tr, h⟩ := roundTrip_of_run 0x202 (by decide +kernel)
  exact ⟨s, s₁, tr, h, (int_timer_round_trip_iff h).mpr (by decide)⟩

theorem int_timer_loses_carry : ¬∀ s mem cpu pad s₁ tr, RoundTrip s mem cpu pad s₁ tr →
    ∃ cpu', (final s₁ tr).resumed = some cpu' ∧ Resumes cpu cpu' := by
  intro hall
  obtain ⟨s, s₁, tr, h⟩ := roundTrip_of_run 0x203 (by decide +kernel)
  obtain ⟨cpu', hcpu', -, -, -, hflags⟩ := hall _ _ _ _ _ _ h
  obtain ⟨cr3, hresumed⟩ := h.resumed
  obtain rfl := Option.some.inj (hresumed.symm.trans hcpu')
  rw [restored_statusFlags] at hflags
  exact absurd hflags (by decide)

end RubiKernel.Scheduler
