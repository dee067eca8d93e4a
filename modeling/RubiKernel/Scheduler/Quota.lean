import RubiKernel.Scheduler.RoundRobin

/-! How long a task keeps the processor: from when it is switched in to when the timer takes
it away again. A task that was just created has the time and the request to be rescheduled
that its memory held before. -/

namespace RubiKernel.Scheduler

open Lts Memory

def clock (t : Task) : Word × Byte := (t.time, t.reschedule)

def Cleared (t : Task) : Prop := clock t = (0, 0)

instance {t : Task} : Decidable (Cleared t) := inferInstanceAs (Decidable (_ = _))

/-- What `task_create` finds in the new slot; `clist_init` clears it. -/
def found (k : Kernel) (a : Spawn) : Task :=
  if k.taskList.tail = 0 ∨ k.taskList.slots = 0 then default else a.recycled

/-- A new task finds nothing of a turn in its memory. -/
def FoundCleared (s : Sys) (e : Event) (_ : Sys) : Prop :=
  match e with
  | .taskCreate a => Cleared (found s.kernel a)
  | _ => True

instance {s t : Sys} : (e : Event) → Decidable (FoundCleared s e t)
  | .taskCreate _ => inferInstanceAs (Decidable (Cleared _))
  | .setRunning _ => inferInstanceAs (Decidable True)
  | .schedule .. => inferInstanceAs (Decidable True)
  | .yield => inferInstanceAs (Decidable True)
  | .exit => inferInstanceAs (Decidable True)
  | .ksend .. => inferInstanceAs (Decidable True)
  | .krecive _ => inferInstanceAs (Decidable True)
  | .resume => inferInstanceAs (Decidable True)

/-- The turn of the current task: the ticks since it was switched in, and whether it has
yielded, ended or waited. -/
structure Turn where
  ticks : Nat
  gaveUp : Bool
  deriving DecidableEq

def Turn.first : Turn := ⟨0, false⟩

def Turn.tick (u : Turn) : Turn := { u with ticks := u.ticks + 1 }

def Turn.next (u : Turn) (e : Event) (t : Sys) : Turn :=
  if e.enters then if t.outcome = .ret then u.tick else .first
  else { u with gaveUp := u.gaveUp || t.entering }

/-- Every step of a trace satisfies `P`, with the turn in which it finds the current task. -/
def Along (P : Turn → Sys → Event → Sys → Prop) : Turn → Sys → List (Event × Sys) → Prop
  | _, _, [] => True
  | u, s, (e, t) :: tr => P u s e t ∧ Along P (u.next e t) t tr

instance Along.decidable {P : Turn → Sys → Event → Sys → Prop} [∀ u s e t, Decidable (P u s e t)] :
    (u : Turn) → (s : Sys) → (tr : List (Event × Sys)) → Decidable (Along P u s tr)
  | _, _, [] => inferInstanceAs (Decidable True)
  | u, s, (e, t) :: tr =>
    have := Along.decidable (P := P) (u.next e t) t tr
    inferInstanceAs (Decidable (P u s e t ∧ Along P (u.next e t) t tr))

/-- The scheduler takes the processor from the current task. -/
def Preempts (s : Sys) (e : Event) (t : Sys) : Prop :=
  e.enters ∧ s.kernel.currentTask ≠ 0 ∧ t.outcome ≠ .ret

instance {s t : Sys} {e : Event} : Decidable (Preempts s e t) :=
  inferInstanceAs (Decidable (_ ∧ _ ∧ _))

/-- A task that has not given up the processor loses it only with the last tick of its quota. -/
def FullQuota (u : Turn) (s : Sys) (e : Event) (t : Sys) : Prop :=
  Preempts s e t → u.gaveUp = true ∨ u.ticks + 1 = taskQuota.toNat

instance {u : Turn} {s t : Sys} {e : Event} : Decidable (FullQuota u s e t) :=
  inferInstanceAs (Decidable (_ → _ ∨ _))

/-- No other task of the list can run. -/
def NoOther (s : Sys) : Prop :=
  ∀ t ∈ s.kernel.taskList.members, t ≠ s.kernel.currentTask →
    (s.kernel.tasks t).status ≠ taskRunning

instance {s : Sys} : Decidable (NoOther s) :=
  List.decidableBAll (fun t => t ≠ s.kernel.currentTask → (s.kernel.tasks t).status ≠ taskRunning)
    s.kernel.taskList.members

/-- The tick with which the quota of a task is over, not given up, finds another task that
can run. -/
def Contested (u : Turn) (s : Sys) (e : Event) (_ : Sys) : Prop :=
  e.enters → s.kernel.currentTask ≠ 0 → u.gaveUp = false →
    ¬continues ((countTick s.kernel).tasks s.kernel.currentTask) → ¬NoOther s

instance {u : Turn} {s t : Sys} {e : Event} : Decidable (Contested u s e t) :=
  inferInstanceAs (Decidable (_ → _ → _ → _ → _))

variable {s t : Sys} {u : Turn} {e : Event} {k k' : Kernel} {a : Spawn} {l : List Word}
  {tr : List (Event × Sys)} {mem : Memory} {retAddr regAddr : Word} {o : Outcome}

/-- The tasks that wait for their turn have nothing counted, and the current one what it has
used of the quota at hand. -/
structure QuotaInv (u : Turn) (s : Sys) : Prop extends Inv s where
  waiting : ∀ v ∈ s.kernel.taskList.members, v ≠ s.kernel.currentTask → Cleared (s.kernel.tasks v)
  running : s.kernel.currentTask ≠ 0 → u.gaveUp = true ∨
    (s.kernel.tasks s.kernel.currentTask).reschedule = 0 ∧
      (s.kernel.tasks s.kernel.currentTask).time.toNat < taskQuota.toNat ∧
        u.ticks = (s.kernel.tasks s.kernel.currentTask).time.toNat

theorem taskCreate_clock : clock ((taskCreate k a).tasks a.slot) = clock (found k a) := by
  simp only [taskCreate, Function.update_self]
  rfl

theorem suspend_clock (k : Kernel) (hne : k.currentTask ≠ 0) :
    Cleared ((suspend k retAddr regAddr).tasks k.currentTask) := by
  rw [suspend, if_pos hne, Kernel.modifyTask_tasks_self]
  rfl

theorem suspend_tasks_of_ne (k : Kernel) (retAddr regAddr : Word) {v : Word}
    (hv : v ≠ k.currentTask) : (suspend k retAddr regAddr).tasks v = k.tasks v := by
  rw [suspend]
  split
  · rw [Kernel.modifyTask_tasks_of_ne _ _ hv, countTick_tasks_of_ne k hv]
  · rfl

theorem switchTo_clock (k : Kernel) (next v : Word) :
    clock ((switchTo k next).1.tasks v) = clock (k.tasks v) := by
  show clock ((k.modifyTask next fun _ => (pushContext k.mem (k.tasks next)).2).tasks v) = _
  exact k.modifyTask_tasks_field clock rfl v

theorem schedYield_clock {v : Word} (hv : v ≠ k.currentTask) :
    clock ((schedYield k).tasks v) = clock (k.tasks v) := by
  rw [schedYield]
  split
  · rw [Kernel.modifyTask_tasks_of_ne _ _ hv]
  · rfl

theorem setStatus_clock (k : Kernel) (status : BitVec 16) (task v : Word) :
    clock ((k.modifyTask task fun t => { t with status := status }).tasks v) =
      clock (k.tasks v) :=
  k.modifyTask_tasks_field clock rfl v

theorem stop_clock (status : BitVec 16) {v : Word} (hv : v ≠ k.currentTask) :
    clock ((schedYield (k.modifyTask k.currentTask fun t => { t with status := status })).tasks v) =
      clock (k.tasks v) :=
  (schedYield_clock (by exact hv)).trans (setStatus_clock k status k.currentTask v)

/-- A step outside the scheduler that keeps the list and the current task: only the current
task may have something new counted, and then it is about to enter the scheduler. -/
theorem QuotaInv.keep (h : QuotaInv u s) (hinv : Inv t)
    (hlist : t.kernel.taskList = s.kernel.taskList)
    (hcurrent : t.kernel.currentTask = s.kernel.currentTask)
    (hclock : ∀ v, v ≠ s.kernel.currentTask ∨ t.entering = false →
      clock (t.kernel.tasks v) = clock (s.kernel.tasks v)) :
    QuotaInv { u with gaveUp := u.gaveUp || t.entering } t := by
  refine ⟨hinv, fun v hv hne => ?_, fun hne => ?_⟩
  · rw [hlist] at hv
    rw [hcurrent] at hne
    rw [Cleared, hclock v (.inl hne)]
    exact h.waiting v hv hne
  · rw [hcurrent] at hne ⊢
    cases hentering : t.entering with
    | true => exact .inl (Bool.or_true _)
    | false =>
      obtain ⟨htime, hresched⟩ := Prod.mk.inj (hclock s.kernel.currentTask (.inr hentering))
      rw [htime, hresched, Bool.or_false]
      exact h.running hne

theorem QuotaInv.taskCreate (h : QuotaInv u s) (hfresh : s.fresh a)
    (hcleared : Cleared (found s.kernel a)) :
    QuotaInv { u with gaveUp := u.gaveUp || s.entering }
      { s with
        kernel := Scheduler.taskCreate s.kernel a
        receiving := Function.update s.receiving a.slot none } := by
  obtain ⟨l, hring, -, -⟩ := h.ring
  have hmem := hring.members_eq
  have hslot : a.slot ∉ 0 :: l := by rwa [← hmem]
  obtain ⟨l', hring', hperm⟩ := taskCreate_ringOf hring hslot
  have hold : ∀ v ∈ s.kernel.taskList.members,
      (Scheduler.taskCreate s.kernel a).tasks v = s.kernel.tasks v := fun v hv =>
    taskCreate_tasks_of_ne fun heq => hfresh (heq ▸ List.mem_cons_of_mem 0 hv)
  refine ⟨h.toInv.taskCreate hfresh, fun v hv hne => ?_, fun hne => ?_⟩
  · rw [hring'.members_eq, hperm.mem_iff, List.mem_cons, ← hmem] at hv
    rcases hv with rfl | hv
    · exact taskCreate_clock.trans hcleared
    · show Cleared ((Scheduler.taskCreate s.kernel a).tasks v)
      rw [hold v hv]
      exact h.waiting v hv hne
  · have hsame := hold _ (h.current_mem hne)
    simp only [taskCreate_currentTask, hsame]
    exact (h.running hne).imp_left fun hgave => by rw [hgave, Bool.true_or]

theorem taskQuota_toNat : taskQuota.toNat = 3 := rfl

theorem toNat_tick {x : Word} (hx : x.toNat < taskQuota.toNat) : (x + 1).toNat = x.toNat + 1 := by
  rw [taskQuota_toNat] at hx
  rw [BitVec.toNat_add]
  show (x.toNat + 1) % 2 ^ 32 = _
  omega

theorem QuotaInv.tick (h : QuotaInv u s) (hne : s.kernel.currentTask ≠ 0)
    (hcont : continues ((countTick s.kernel).tasks s.kernel.currentTask))
    (hinv : Inv t) (hkernel : t.kernel = { countTick s.kernel with mem := mem }) :
    QuotaInv u.tick t := by
  have hlist : t.kernel.taskList = s.kernel.taskList := by rw [hkernel]; rfl
  have hcurrent : t.kernel.currentTask = s.kernel.currentTask := by rw [hkernel]; rfl
  have htasks : t.kernel.tasks = (countTick s.kernel).tasks := by rw [hkernel]
  refine ⟨hinv, fun v hv hvne => ?_, fun _ => ?_⟩
  · rw [hlist] at hv
    rw [hcurrent] at hvne
    rw [htasks, countTick_tasks_of_ne _ hvne]
    exact h.waiting v hv hvne
  · rw [hcurrent, htasks]
    refine (h.running hne).imp_right ?_
    rintro ⟨hresched, htime, hticks⟩
    obtain ⟨hless, hzero⟩ := hcont
    refine ⟨hzero, BitVec.lt_def.mp hless, ?_⟩
    rw [countTick, Kernel.modifyTask_tasks_self, toNat_tick htime]
    exact congrArg (· + 1) hticks

theorem QuotaInv.over (h : QuotaInv u s) (hne : s.kernel.currentTask ≠ 0)
    (hover : ¬continues ((countTick s.kernel).tasks s.kernel.currentTask)) :
    u.gaveUp = true ∨ u.ticks + 1 = taskQuota.toNat := by
  refine (h.running hne).imp_right ?_
  rintro ⟨hresched, htime, hticks⟩
  have hless : ¬(s.kernel.tasks s.kernel.currentTask).time.toNat + 1 < taskQuota.toNat := by
    intro hless
    refine hover ⟨?_, ?_⟩
    · rwa [BitVec.lt_def, countTick, Kernel.modifyTask_tasks_self, toNat_tick htime]
    · rw [countTick, Kernel.modifyTask_tasks_self]
      exact hresched
  omega

/-- A task that has given up the processor, while no other task can run, keeps it. -/
theorem QuotaInv.again (h : QuotaInv u s) (hgave : s.kernel.currentTask ≠ 0 → u.gaveUp = true)
    (hinv : Inv t) (hkernel : t.kernel = suspend { s.kernel with mem := mem } retAddr regAddr) :
    QuotaInv u.tick t := by
  have hlist : t.kernel.taskList = s.kernel.taskList := by rw [hkernel, suspend_taskList]
  have hcurrent : t.kernel.currentTask = s.kernel.currentTask := by
    rw [hkernel, suspend_currentTask]
  refine ⟨hinv, fun v hv hvne => ?_, fun hne => ?_⟩
  · rw [hlist] at hv
    rw [hcurrent] at hvne
    have hsame := suspend_tasks_of_ne { s.kernel with mem := mem } retAddr regAddr hvne
    rw [hkernel, hsame]
    exact h.waiting v hv hvne
  · rw [hcurrent] at hne
    exact .inl (hgave hne)

theorem QuotaInv.switch (h : QuotaInv u s) {next : Word} {k₁ : Kernel}
    (hreaped : Reaped (suspend { s.kernel with mem := mem } retAddr regAddr) k₁)
    (hnext : next ∈ s.kernel.taskList.members) (hinv : Inv t)
    (hkernel : t.kernel = (switchTo k₁ next).1) : QuotaInv .first t := by
  obtain ⟨l, hring, -, hcurrent⟩ := h.ring
  have hmem := hring.members_eq
  -- everybody is cleared, and nobody new is there
  have hclear : ∀ v ∈ l, Cleared (t.kernel.tasks v) := fun v hv => by
    rw [Cleared, hkernel, switchTo_clock, hreaped.field clock fun _ => rfl]
    by_cases hcur : v = s.kernel.currentTask
    · rw [hcur]
      exact suspend_clock { s.kernel with mem := mem } (hcur ▸ hring.ne_zero hv)
    · have hsame := suspend_tasks_of_ne { s.kernel with mem := mem } retAddr regAddr hcur
      rw [hsame]
      exact h.waiting v (hmem ▸ hv) hcur
  have hsub : ∀ v ∈ t.kernel.taskList.members, v ∈ l := by
    rw [hkernel, switchTo_taskList]
    rcases hreaped.gone (l := l) (by rwa [suspend_taskList]) with
      ⟨hring₁, -⟩ | ⟨d, l₁, hring₁, hperm, -, -⟩
    · rw [hring₁.members_eq]
      exact fun _ hv => hv
    · rw [hring₁.members_eq]
      exact fun v hv => hperm.mem_iff.mpr (List.mem_cons_of_mem d hv)
  have hcur : t.kernel.currentTask = next := by rw [hkernel, switchTo_currentTask]
  refine ⟨hinv, fun v hv _ => hclear v (hsub v hv), fun _ => .inr ?_⟩
  obtain ⟨htime, hresched⟩ := Prod.mk.inj (hclear next (hmem ▸ hnext))
  rw [hcur]
  refine ⟨hresched, ?_, ?_⟩
  · rw [htime]
    decide
  · rw [htime]
    rfl

theorem QuotaInv.schedule (h : QuotaInv u s)
    (hcontested : s.kernel.currentTask ≠ 0 → u.gaveUp = false →
      ¬continues ((countTick s.kernel).tasks s.kernel.currentTask) → ¬NoOther s)
    (heq : schedSchedule { s.kernel with mem := mem } retAddr regAddr = some (k, o)) :
    (s.kernel.currentTask ≠ 0 → o ≠ .ret → u.gaveUp = true ∨ u.ticks + 1 = taskQuota.toNat) ∧
      QuotaInv (if o = .ret then u.tick else .first)
        { s with kernel := k, entering := false, outcome := o } := by
  obtain ⟨l, hring, -, hcurrent⟩ := h.ring
  have hmem := hring.members_eq
  have hinv := h.toInv.schedule heq
  by_cases hcont : s.kernel.currentTask ≠ 0 ∧
      continues ((countTick s.kernel).tasks s.kernel.currentTask)
  · -- the quota goes on
    obtain ⟨rfl, rfl⟩ := Prod.mk.inj (Option.some.inj ((if_pos hcont).symm.trans heq))
    exact ⟨fun _ hret => absurd rfl hret, h.tick hcont.1 hcont.2 hinv rfl⟩
  · have hover : s.kernel.currentTask ≠ 0 →
        ¬continues ((countTick s.kernel).tasks s.kernel.currentTask) := fun hne hc => hcont ⟨hne, hc⟩
    rcases schedSchedule_cases (k := { s.kernel with mem := mem }) hring hcurrent retAddr regAddr
      with ⟨hne, hc, -⟩ | ⟨heq', hnone⟩ | ⟨next, k₁, heq', hreaped, hnext, -⟩
    · exact absurd ⟨hne, hc⟩ hcont
    · obtain ⟨rfl, rfl⟩ := Prod.mk.inj (Option.some.inj (heq'.symm.trans heq))
      refine ⟨fun _ hret => absurd rfl hret, h.again (fun hne => ?_) hinv rfl⟩
      have halone : NoOther s := fun v hv => hnone hne v (hmem ▸ hv)
      exact Bool.eq_true_of_not_eq_false fun hkept => hcontested hne hkept (hover hne) halone
    · obtain ⟨rfl, rfl⟩ := Prod.mk.inj (Option.some.inj (heq'.symm.trans heq))
      exact ⟨fun hne _ => h.over hne (hover hne), h.switch hreaped (hmem ▸ hnext) hinv rfl⟩

/-- Only an entry into the scheduler takes the processor from the current task, and it does
so at the end of a quota. -/
theorem QuotaInv.step (h : QuotaInv u s) (hstep : system.step s e t) (hfound : FoundCleared s e t)
    (hcontested : Contested u s e t) : FullQuota u s e t ∧ QuotaInv (u.next e t) t := by
  have hinv := h.toInv.step hstep
  cases h.step_cases hstep with
  | taskCreate a hfresh => exact ⟨nofun, h.taskCreate hfresh hfound⟩
  | setRunning task =>
    exact ⟨nofun, h.keep hinv rfl rfl fun v _ => setStatus_clock s.kernel taskRunning task v⟩
  | schedule heq =>
    obtain ⟨hpreempts, hnext⟩ := h.schedule (hcontested rfl) heq
    exact ⟨fun hp => hpreempts hp.2.1 hp.2.2, hnext⟩
  | yield =>
    refine ⟨nofun, h.keep hinv (by simp) (by simp) fun v hv => ?_⟩
    exact schedYield_clock (hv.resolve_right Bool.noConfusion)
  | exit =>
    refine ⟨nofun, h.keep hinv (by simp) (by simp) fun v hv => ?_⟩
    exact stop_clock taskKilling (hv.resolve_right Bool.noConfusion)
  | refused => exact ⟨nofun, h.keep hinv rfl rfl fun _ _ => rfl⟩
  | sent tid msg task =>
    exact ⟨nofun, h.keep hinv rfl rfl fun v _ => deliver_field _ _ _ clock (fun _ _ _ _ => rfl) v⟩
  | blocked =>
    refine ⟨nofun, h.keep hinv (by simp) (by simp) fun v hv => ?_⟩
    exact stop_clock taskInterruptable (hv.resolve_right Bool.noConfusion)
  | received =>
    exact ⟨nofun, h.keep hinv rfl rfl fun v _ => takeMessage_field _ _ clock (fun _ _ => rfl) v⟩
  | resumed =>
    exact ⟨nofun, h.keep hinv rfl rfl fun v _ => takeMessage_field _ _ clock (fun _ _ => rfl) v⟩

theorem QuotaInv.run (h : QuotaInv u s) (htr : system.Trace s tr)
    (hfound : Every FoundCleared s tr) (hcontested : Along Contested u s tr) :
    Along FullQuota u s tr := by
  induction tr generalizing u s with
  | nil => trivial
  | cons x tr ih =>
    obtain ⟨hfull, hnext⟩ := h.step htr.1 hfound.1 hcontested.1
    exact ⟨hfull, ih hnext htr.2 hfound.2 hcontested.2⟩

section

variable {ifinity dq pcii : Spawn}

theorem spawn_cleared {v : Word} (hold : v ≠ a.slot → Cleared (k.tasks v))
    (hnew : Cleared (found k a)) : Cleared ((spawn k a).tasks v) := by
  rw [Cleared, spawn, Kernel.modifyTask_tasks_field _ clock (by rfl)]
  by_cases hv : v = a.slot
  · rw [hv, taskCreate_clock]
    exact hnew
  · rw [taskCreate_tasks_of_ne hv]
    exact hold hv

theorem found_of_nil (hk : k.taskList.RingOf []) : Cleared (found k a) := by
  have hslots : k.taskList.slots = 0 := BitVec.eq_of_toNat_eq hk.slots
  rw [found, if_pos (.inr hslots)]
  rfl

theorem found_cleared (ha : Cleared a.recycled) : Cleared (found k a) := by
  rw [found]
  split
  · rfl
  · exact ha

theorem QuotaInv.start (hk : Booted k) (hslots : (0 :: [ifinity.slot, dq.slot, pcii.slot]).Nodup)
    (hdq : Cleared dq.recycled) (hpcii : Cleared pcii.recycled) :
    QuotaInv .first (started k ifinity dq pcii) := by
  obtain ⟨l, hring, hperm⟩ := createKernelTasks_ringOf hk hslots
  have hcurrent : (createKernelTasks k ifinity dq pcii).currentTask = 0 := hk.currentTask
  refine ⟨.start ⟨k, ifinity, dq, pcii, hk, hslots, rfl⟩, fun v hv _ => ?_,
    fun hne => absurd hcurrent hne⟩
  have hv : v ∈ [pcii.slot, dq.slot, ifinity.slot] := by
    rw [← hperm.mem_iff, ← hring.members_eq]
    exact hv
  show Cleared ((createKernelTasks k ifinity dq pcii).tasks v)
  exact spawn_cleared (fun hp => spawn_cleared (fun hd => spawn_cleared (fun hi => by grind)
    (found_of_nil hk.taskList)) (found_cleared hdq)) (found_cleared hpcii)

end

/-- While every task that is created finds its memory cleared, and the quota of no task ends
with nobody else to run, a task keeps the processor for its full quota. -/
theorem full_quota {ifinity dq pcii : Spawn} (hk : Booted k)
    (hslots : (0 :: [ifinity.slot, dq.slot, pcii.slot]).Nodup)
    (hdq : Cleared dq.recycled) (hpcii : Cleared pcii.recycled)
    (htr : system.Trace (started k ifinity dq pcii) tr)
    (hfound : Every FoundCleared (started k ifinity dq pcii) tr)
    (hcontested : Along Contested .first (started k ifinity dq pcii) tr) :
    Along FullQuota .first (started k ifinity dq pcii) tr :=
  (QuotaInv.start hk hslots hdq hpcii).run htr hfound hcontested

/-- Two turns that are given up, and the first turn of a new task. -/
def newTaskRun : List Event :=
  [.taskCreate (kernelTask 0xC1030000), .setRunning 0xC1030000, .schedule (fun _ => 0) 0 0, .yield,
    .schedule (fun _ => 0) 0 0, .yield, .schedule (fun _ => 0) 0 0, .schedule (fun _ => 0) 0 0,
    .schedule (fun _ => 0) 0 0, .schedule (fun _ => 0) 0 0]

theorem full_quota_example : ∃ tr, replay exec zeroedSys newTaskRun = some tr ∧
    tr.map (fun x => x.2.kernel.currentTask) =
      [0, 0, 0xC1010000, 0xC1010000, 0xC1020000, 0xC1020000, 0xC1030000, 0xC1030000, 0xC1030000,
        0xC1000000] ∧
      Along FullQuota .first zeroedSys tr := by
  have hrun : ((replay exec zeroedSys newTaskRun).any fun tr =>
      tr.map (fun x => x.2.kernel.currentTask) =
        [0, 0, 0xC1010000, 0xC1010000, 0xC1020000, 0xC1020000, 0xC1030000, 0xC1030000, 0xC1030000,
          0xC1000000] ∧ Every FoundCleared zeroedSys tr ∧ Along Contested .first zeroedSys tr) =
          true := by
    decide +kernel
  obtain ⟨tr, hreplay, htr, hcurrent, hfound, hcontested⟩ := System.Trace.exists_of_replay
    (M := system) (fun _ _ _ h => h) hrun
  refine ⟨tr, hreplay, hcurrent, full_quota ⟨⟨rfl, rfl, Or.inr ⟨rfl, rfl⟩, rfl, by simp, by simp⟩,
    rfl, rfl⟩ (by decide) rfl rfl htr hfound hcontested⟩

/-- A new task is preempted at the first tick when the memory of its slot held the time 2. -/
theorem full_quota_fails : ∃ tr, system.start zeroedSys ∧ system.Trace zeroedSys tr ∧
    ¬Along FullQuota .first zeroedSys tr := by
  have hrun : ((replay exec zeroedSys
      [.taskCreate { kernelTask 0xC1030000 with recycled := { (default : Task) with time := 2 } },
        .setRunning 0xC1030000, .schedule (fun _ => 0) 0 0, .yield, .schedule (fun _ => 0) 0 0,
        .yield, .schedule (fun _ => 0) 0 0, .schedule (fun _ => 0) 0 0]).any
      fun tr => ¬Along FullQuota .first zeroedSys tr) = true := by
    decide +kernel
  obtain ⟨tr, -, htr, hfails⟩ := System.Trace.exists_of_replay (M := system)
    (fun _ _ _ h => h) hrun
  exact ⟨tr, zeroedSys_start, htr, hfails⟩

/-- The second task waits and the third has ended: the quota of the first is over three ticks
later, with nobody to switch to. A message for the second comes, and the first is preempted at
the sixth tick. -/
theorem full_quota_alone : ∃ tr, system.start zeroedSys ∧ system.Trace zeroedSys tr ∧
    Every FoundCleared zeroedSys tr ∧ ¬Along FullQuota .first zeroedSys tr := by
  have hrun : ((replay exec zeroedSys
      [.schedule (fun _ => 0) 0 0, .krecive 1, .schedule (fun _ => 0) 0 0, .exit,
        .schedule (fun _ => 0) 0 0, .schedule (fun _ => 0) 0 0, .schedule (fun _ => 0) 0 0,
        .schedule (fun _ => 0) 0 0, .ksend 1 ⟨0, 0, 0⟩, .schedule (fun _ => 0) 0 0,
        .schedule (fun _ => 0) 0 0, .schedule (fun _ => 0) 0 0]).any
      fun tr => Every FoundCleared zeroedSys tr ∧ ¬Along FullQuota .first zeroedSys tr) = true := by
    decide +kernel
  obtain ⟨tr, -, htr, hfound, hfails⟩ := System.Trace.exists_of_replay (M := system)
    (fun _ _ _ h => h) hrun
  exact ⟨tr, zeroedSys_start, htr, hfound, hfails⟩

end RubiKernel.Scheduler
