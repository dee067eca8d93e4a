import Mathlib.Data.Nat.ModEq
import Mathlib.Data.List.Nodup
import RubiKernel.Scheduler.System

/-! The numbers of the tasks. `tid_counter` has 32 bits and `tid` takes the low 16 of
them, so a number comes back after 65536 tasks, whether or not the task that had it
is still there. -/

namespace RubiKernel.Scheduler

open Lts

/-- The number of a task belongs to no other task, and finds it. -/
structure Identified (k : Kernel) : Prop where
  distinct : (k.taskList.members.map fun t => (k.tasks t).tid).Nodup
  found : ∀ t ∈ k.taskList.members, taskFindById k (k.tasks t).tid = some t
  reached : ∀ t ∈ k.taskList.members, ∀ msg, ksend k (k.tasks t).tid msg =
    some (if (k.tasks t).msgCountIn = taskMsgBuffSize then k else deliver k t msg)

/-- The kernel with what its past says: how many tasks there were, and how many before
each of them. -/
structure Census where
  kernel : Kernel
  created : Nat
  born : Word → Nat

def Census.create (s : Census) (a : Spawn) : Census where
  kernel := taskCreate s.kernel a
  created := s.created + 1
  born := Function.update s.born a.slot s.created

def Census.delete (s : Census) (task : Word) : Census :=
  { s with kernel := taskDelete s.kernel task }

section

variable (s : Census) (a : Spawn) (task : Word)

@[simp] theorem Census.create_kernel : (s.create a).kernel = taskCreate s.kernel a := rfl

@[simp] theorem Census.create_created : (s.create a).created = s.created + 1 := rfl

@[simp] theorem Census.create_born_self : (s.create a).born a.slot = s.created :=
  Function.update_self ..

@[simp] theorem Census.delete_kernel : (s.delete task).kernel = taskDelete s.kernel task := rfl

@[simp] theorem Census.delete_created : (s.delete task).created = s.created := rfl

@[simp] theorem Census.delete_born : (s.delete task).born = s.born := rfl

end

theorem Census.create_born_of_ne {s : Census} {a : Spawn} {t : Word} (h : t ≠ a.slot) :
    (s.create a).born t = s.born t :=
  Function.update_of_ne h ..

inductive TaskCall
  | create (a : Spawn)
  | delete (task : Word)

/-- The slot that `kmalloc` returns is not NULL and in no use; a task is deleted by its
own pointer, or NULL is. -/
def TaskCall.exec (s : Census) : TaskCall → Option Census
  | .create a => if a.slot ∉ 0 :: s.kernel.taskList.members then some (s.create a) else none
  | .delete task => if task ∈ 0 :: s.kernel.taskList.members then some (s.delete task) else none

def taskRuns : System Census TaskCall where
  start s := Booted s.kernel ∧ s.created = 0
  step s call t := call.exec s = some t

/-- No task that is still there was created a multiple of 65536 tasks before the one
the call creates. -/
def Unrepeated (s : Census) (call : TaskCall) (_ : Census) : Prop :=
  match call with
  | .create _ => ∀ t ∈ s.kernel.taskList.members, ¬2 ^ 16 ∣ s.created - s.born t
  | .delete _ => True

instance {s t : Census} : (call : TaskCall) → Decidable (Unrepeated s call t)
  | .create _ => decidable_of_iff
      (s.kernel.taskList.members.all fun t => ¬2 ^ 16 ∣ s.created - s.born t)
      (by simp [Unrepeated])
  | .delete _ => inferInstanceAs (Decidable True)

variable {k : Kernel} {l : List Word} {s s' : Census} {a b : Spawn} {call : TaskCall} {t : Word}
  {c n : Nat} {u : Word}

theorem find?_of_nodup (h : (l.map fun t => (k.tasks t).tid).Nodup) (ht : t ∈ l) :
    (l.find? fun u => (k.tasks u).tid = (k.tasks t).tid) = some t := by
  cases hfind : l.find? fun u => (k.tasks u).tid = (k.tasks t).tid with
  | none => simpa using List.find?_eq_none.mp hfind t ht
  | some u =>
    have hu := List.mem_of_find?_eq_some hfind
    have htid := List.find?_some hfind
    rw [List.inj_on_of_nodup_map h hu ht (by simpa using htid)]

theorem identified_iff (h : k.taskList.RingOf l) :
    Identified k ↔ (l.map fun t => (k.tasks t).tid).Nodup := by
  refine ⟨fun hid => h.members_eq ▸ hid.distinct, fun hnodup => ?_⟩
  have hfound : ∀ t ∈ l, taskFindById k (k.tasks t).tid = some t := fun t ht => by
    rw [taskFindById_eq h (List.ne_nil_of_mem ht), find?_of_nodup hnodup ht, Option.getD_some]
  refine ⟨h.members_eq ▸ hnodup, h.members_eq ▸ hfound, fun t ht msg => ?_⟩
  rw [h.members_eq] at ht
  simp only [ksend, hfound t ht, Option.map_some, h.ne_zero ht, false_or]

/-- The numbers follow the count of the tasks, which `c` was at the start. -/
structure CensusInv (c : Nat) (s : Census) : Prop where
  ring : ∃ l, s.kernel.taskList.RingOf l
  counter : s.kernel.tidCounter = BitVec.ofNat 32 (c + s.created)
  tid : ∀ t ∈ s.kernel.taskList.members,
    (s.kernel.tasks t).tid = BitVec.ofNat 16 (c + s.born t) ∧ s.born t < s.created

theorem CensusInv.start (h : taskRuns.start s) : CensusInv s.kernel.tidCounter.toNat s where
  ring := ⟨[], h.1.taskList⟩
  counter := by simp [h.2]
  tid := by simp [h.1.taskList.members_eq]

@[simp] theorem taskCreate_tid (k : Kernel) (a : Spawn) :
    ((taskCreate k a).tasks a.slot).tid = k.tidCounter.setWidth 16 := by
  simp [taskCreate]

@[simp] theorem taskDelete_tid (k : Kernel) (task t : Word) :
    ((taskDelete k task).tasks t).tid = (k.tasks t).tid :=
  taskDelete_field k Task.tid (fun _ => rfl) t

@[simp] theorem taskDelete_tidCounter (k : Kernel) (task : Word) :
    (taskDelete k task).tidCounter = k.tidCounter := by
  unfold taskDelete
  split <;> rfl

inductive CensusStep (s : Census) : TaskCall → Census → Prop
  | create (a : Spawn) (hfresh : a.slot ∉ 0 :: s.kernel.taskList.members) :
    CensusStep s (.create a) (s.create a)
  | null : CensusStep s (.delete 0) s
  | delete (task : Word) (hmem : task ∈ s.kernel.taskList.members) (hne : task ≠ 0) :
    CensusStep s (.delete task) (s.delete task)

theorem censusStep_of_exec (h : taskRuns.step s call s') : CensusStep s call s' := by
  cases call with
  | create a =>
    obtain ⟨hfresh, heq⟩ := Option.ite_none_right_eq_some.mp h
    exact Option.some.inj heq ▸ .create a hfresh
  | delete task =>
    obtain ⟨hmem, heq⟩ := Option.ite_none_right_eq_some.mp h
    obtain rfl := Option.some.inj heq
    by_cases hne : task = 0
    · subst hne
      exact .null
    · exact .delete task ((List.mem_cons.mp hmem).resolve_left hne) hne

theorem taskDelete_ringOf {task : Word} (h : k.taskList.RingOf l) (ht : task ∈ l) :
    ∃ l', (taskDelete k task).taskList.RingOf l' ∧ l.Perm (task :: l') := by
  rw [taskDelete, if_neg (h.ne_zero ht)]
  exact h.clistDelete ht

theorem CensusInv.step (h : CensusInv c s) (hstep : CensusStep s call s') : CensusInv c s' := by
  obtain ⟨l, hl⟩ := h.ring
  have hmem := hl.members_eq
  cases hstep with
  | create a hfresh =>
    obtain ⟨l', hl', hperm⟩ := taskCreate_ringOf hl (hmem ▸ hfresh)
    refine ⟨⟨l', hl'⟩, ?_, fun t ht => ?_⟩
    · rw [Census.create_kernel, Census.create_created, ← add_assoc, BitVec.ofNat_add, ← h.counter]
      rfl
    · rw [Census.create_kernel, hl'.members_eq, hperm.mem_iff, List.mem_cons] at ht
      rcases ht with rfl | ht
      · simp [h.counter, BitVec.setWidth_ofNat_of_le]
      · have hne : t ≠ a.slot := by
          rintro rfl
          exact hfresh (List.mem_cons_of_mem _ (hmem ▸ ht))
        obtain ⟨htid, hborn⟩ := h.tid t (hmem ▸ ht)
        rw [Census.create_kernel, taskCreate_tasks_of_ne hne, Census.create_born_of_ne hne]
        exact ⟨htid, hborn.trans (Nat.lt_succ_self _)⟩
  | null => exact h
  | delete task hin hne =>
    obtain ⟨l', hl', hperm⟩ := taskDelete_ringOf hl (hmem ▸ hin)
    refine ⟨⟨l', hl'⟩, by simpa using h.counter, fun t ht => ?_⟩
    rw [Census.delete_kernel, hl'.members_eq] at ht
    rw [Census.delete_kernel, taskDelete_tid]
    exact h.tid t (hmem ▸ hperm.mem_iff.mpr (List.mem_cons_of_mem _ ht))

theorem ofNat_eq_iff (h : n < s.created) :
    BitVec.ofNat 16 (c + n) = BitVec.ofNat 16 (c + s.created) ↔ 2 ^ 16 ∣ s.created - n := by
  rw [← BitVec.toNat_inj, BitVec.toNat_ofNat, BitVec.toNat_ofNat, ← Nat.ModEq,
    Nat.modEq_iff_dvd' (by omega), Nat.add_sub_add_left]

theorem CensusInv.identified_iff_unrepeated (h : CensusInv c s) (hid : Identified s.kernel)
    (hstep : CensusStep s call s') : Identified s'.kernel ↔ Unrepeated s call s' := by
  obtain ⟨l, hl⟩ := h.ring
  have hmem := hl.members_eq
  have hnodup := (identified_iff hl).mp hid
  cases hstep with
  | create a hfresh =>
    obtain ⟨l', hl', hperm⟩ := taskCreate_ringOf hl (hmem ▸ hfresh)
    have hold : ∀ t ∈ l, ((taskCreate s.kernel a).tasks t).tid = (s.kernel.tasks t).tid :=
      fun t ht => by
        rw [taskCreate_tasks_of_ne]
        rintro rfl
        exact hfresh (List.mem_cons_of_mem _ (hmem ▸ ht))
    have hnew : ((taskCreate s.kernel a).tasks a.slot).tid = BitVec.ofNat 16 (c + s.created) := by
      simp [h.counter, BitVec.setWidth_ofNat_of_le]
    -- The tasks there were keep their numbers; the new one's is no other's.
    rw [Census.create_kernel, identified_iff hl', (hperm.map _).nodup_iff, List.map_cons,
      List.nodup_cons, List.map_congr_left hold, and_iff_left hnodup, hnew, List.mem_map, not_exists]
    simp only [not_and, Unrepeated, hmem]
    refine forall₂_congr fun t ht => not_congr ?_
    obtain ⟨htid, hborn⟩ := h.tid t (hmem ▸ ht)
    rw [htid, ofNat_eq_iff hborn]
  | null => exact iff_of_true hid trivial
  | delete task hin hne =>
    obtain ⟨l', hl', hperm⟩ := taskDelete_ringOf hl (hmem ▸ hin)
    refine iff_of_true ((identified_iff hl').mpr ?_) trivial
    simp only [taskDelete_tid]
    exact (List.nodup_cons.mp ((hperm.map _).nodup_iff.mp hnodup)).2

/-- The numbers identify the tasks all along a run exactly when no task is created a
multiple of 65536 tasks after one that is still there. -/
theorem tids_identify_iff {tr : List (TaskCall × Census)} (hs : taskRuns.start s)
    (h : taskRuns.Trace s tr) :
    Every (fun _ _ s' => Identified s'.kernel) s tr ↔ Every Unrepeated s tr := by
  refine System.Trace.every_iff
    (I := fun s' => CensusInv s.kernel.tidCounter.toNat s' ∧ Identified s'.kernel)
    (fun _ _ _ hinv hstep => hinv.1.identified_iff_unrepeated hinv.2 (censusStep_of_exec hstep))
    (fun _ _ _ hinv hstep hid => ⟨hinv.1.step (censusStep_of_exec hstep), hid⟩) ?_ h
  exact ⟨.start hs, (identified_iff hs.1.taskList).mpr List.nodup_nil⟩

def noTasks : Census := ⟨emptyKernel, 0, fun _ => 0⟩

theorem noTasks_start : taskRuns.start noTasks :=
  ⟨⟨⟨rfl, rfl, Or.inr ⟨rfl, rfl⟩, rfl, by simp, by simp⟩, rfl, rfl⟩, rfl⟩

/-- Two tasks, the second of which is deleted before a third comes. -/
theorem tids_identify_iff_example : ∃ tr,
    replay (fun s call => TaskCall.exec s call) noTasks
      [.create (kernelTask 0xC1000000), .create (kernelTask 0xC1010000), .delete 0xC1010000,
        .create (kernelTask 0xC1010000)] = some tr ∧
    Every (fun _ _ s' => Identified s'.kernel) noTasks tr := by
  have hrun : (replay (fun s call => TaskCall.exec s call) noTasks
      [.create (kernelTask 0xC1000000), .create (kernelTask 0xC1010000), .delete 0xC1010000,
        .create (kernelTask 0xC1010000)]).any (fun tr => Every Unrepeated noTasks tr) = true := by
    decide +kernel
  obtain ⟨tr, htr, htrace, hall⟩ :=
    System.Trace.exists_of_replay (M := taskRuns) (fun _ _ _ h => h) hrun
  exact ⟨tr, htr, (tids_identify_iff noTasks_start htrace).mpr hall⟩

theorem step_create (hfresh : a.slot ∉ 0 :: s.kernel.taskList.members) :
    taskRuns.step s (.create a) (s.create a) :=
  if_pos hfresh

theorem step_delete (ht : t ∈ s.kernel.taskList.members) :
    taskRuns.step s (.delete t) (s.delete t) :=
  if_pos (List.mem_cons_of_mem 0 ht)

def rounds (a : Spawn) (n : Nat) : List TaskCall :=
  (List.replicate n [.create a, .delete a.slot]).flatten

theorem CensusInv.rounds (h : CensusInv c s) (hfresh : a.slot ∉ 0 :: s.kernel.taskList.members)
    (n : Nat) : ∃ tr, taskRuns.Trace s tr ∧ tr.map Prod.fst = rounds a n ∧
      CensusInv c (final s tr) ∧ (final s tr).created = s.created + n ∧
      (final s tr).kernel.taskList.members.Perm s.kernel.taskList.members ∧
      ∀ t ∈ s.kernel.taskList.members, (final s tr).born t = s.born t := by
  induction n generalizing s with
  | zero => exact ⟨[], trivial, rfl, h, rfl, .rfl, fun _ _ => rfl⟩
  | succ n ih =>
    obtain ⟨l, hl⟩ := h.ring
    have hmem := hl.members_eq
    obtain ⟨l₁, hl₁, hperm₁⟩ := taskCreate_ringOf hl (hmem ▸ hfresh)
    have hin : a.slot ∈ l₁ := hperm₁.mem_iff.mpr List.mem_cons_self
    obtain ⟨l₂, hl₂, hperm₂⟩ := taskDelete_ringOf hl₁ hin
    have hperm : l₂.Perm l := (List.perm_cons a.slot).mp (hperm₂.symm.trans hperm₁)
    have hcreate := step_create hfresh
    have hdelete := step_delete (s := s.create a) (hl₁.members_eq.symm ▸ hin)
    have hinv := (h.step (censusStep_of_exec hcreate)).step (censusStep_of_exec hdelete)
    have hmem₂ : ((s.create a).delete a.slot).kernel.taskList.members = l₂ := hl₂.members_eq
    obtain ⟨tr, htr, hlabels, hfinal, hcreated, hmembers, hborn⟩ := ih hinv (by
      rw [hmem₂, List.mem_cons, hperm.mem_iff, ← List.mem_cons, ← hmem]
      exact hfresh)
    rw [hmem₂] at hmembers hborn
    refine ⟨(.create a, s.create a) :: (.delete a.slot, (s.create a).delete a.slot) :: tr,
      ⟨hcreate, hdelete, htr⟩, ?_, hfinal, ?_, hmembers.trans (hmem ▸ hperm), fun t ht => ?_⟩
    · rw [List.map_cons, List.map_cons, hlabels, Scheduler.rounds, Scheduler.rounds,
        List.replicate_succ, List.flatten_cons]
      rfl
    · simp only [final, hcreated, Census.delete_created, Census.create_created]
      omega
    · have hne : t ≠ a.slot := by
        rintro rfl
        exact hfresh (List.mem_cons_of_mem _ ht)
      simp only [final]
      rw [hborn t (hperm.mem_iff.mpr (hmem ▸ ht)), Census.delete_born, Census.create_born_of_ne hne]

theorem CensusInv.not_identified (h : CensusInv c s) (ht : t ∈ s.kernel.taskList.members)
    (hu : u ∈ s.kernel.taskList.members) (hborn : s.born u = s.born t + 2 ^ 16) :
    ¬Identified s.kernel := by
  intro hid
  have htid : (s.kernel.tasks t).tid = (s.kernel.tasks u).tid := by
    rw [(h.tid t ht).1, (h.tid u hu).1, hborn, ← add_assoc, BitVec.ofNat_add _ (2 ^ 16)]
    exact (BitVec.add_zero _).symm
  obtain rfl := List.inj_on_of_nodup_map hid.distinct ht hu htid
  omega

/-- With never more than two tasks at a time: the first stays while 65535 others come
and go, and the next one gets its number. -/
theorem tids_repeat : ∃ tr, taskRuns.Trace noTasks tr ∧
    tr.map Prod.fst = .create (kernelTask 0xC1000000) :: rounds (kernelTask 0xC1010000) 65535 ++
      [.create (kernelTask 0xC1010000)] ∧
    ¬Identified (final noTasks tr).kernel := by
  have hfresh₀ : (kernelTask 0xC1000000).slot ∉ 0 :: noTasks.kernel.taskList.members := by decide
  have hfirst := step_create hfresh₀
  have hinv := (CensusInv.start noTasks_start).step (censusStep_of_exec hfirst)
  have hmem : (noTasks.create (kernelTask 0xC1000000)).kernel.taskList.members = [0xC1000000] := by
    decide
  obtain ⟨tr, htr, hlabels, hfinal, hcreated, hmembers, hborn⟩ :=
    hinv.rounds (a := kernelTask 0xC1010000) (by rw [hmem]; decide) 65535
  rw [hmem] at hmembers hborn
  generalize hs : final (noTasks.create (kernelTask 0xC1000000)) tr = s at *
  have hfresh : (kernelTask 0xC1010000).slot ∉ 0 :: s.kernel.taskList.members := by
    rw [List.mem_cons, hmembers.mem_iff, ← List.mem_cons]
    decide
  have hlast := step_create hfresh
  have hinv' := hfinal.step (censusStep_of_exec hlast)
  obtain ⟨l, hl⟩ := hfinal.ring
  obtain ⟨l', hl', hperm⟩ := taskCreate_ringOf hl (hl.members_eq ▸ hfresh)
  have hmem' : (s.create (kernelTask 0xC1010000)).kernel.taskList.members = l' := hl'.members_eq
  have hold : (0xC1000000 : Word) ∈ s.kernel.taskList.members := hmembers.mem_iff.mpr (by simp)
  refine ⟨(_, noTasks.create (kernelTask 0xC1000000)) ::
      (tr ++ [(.create (kernelTask 0xC1010000), s.create (kernelTask 0xC1010000))]),
    ⟨hfirst, htr.append ⟨by rwa [hs], trivial⟩⟩, ?_, ?_⟩
  · simp [hlabels]
  · simp only [final, final_append]
    refine hinv'.not_identified (t := 0xC1000000) (u := (kernelTask 0xC1010000).slot) ?_ ?_ ?_
    · exact hmem' ▸ hperm.mem_iff.mpr (List.mem_cons_of_mem _ (hl.members_eq ▸ hold))
    · exact hmem' ▸ hperm.mem_iff.mpr List.mem_cons_self
    · have hborn₀ : (noTasks.create (kernelTask 0xC1000000)).born 0xC1000000 = 0 :=
        Census.create_born_self ..
      have hcreated₀ : (noTasks.create (kernelTask 0xC1000000)).created = 1 := rfl
      rw [Census.create_born_self, Census.create_born_of_ne (by decide), hborn _ (by simp), hcreated,
        hborn₀, hcreated₀]
      omega

end RubiKernel.Scheduler
