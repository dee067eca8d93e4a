import RubiKernel.Elf.Release
import RubiKernel.Mmu.Reserved

/-! The pages of the kernel over runs of `alloc_page`, `unbind_page`, `elf_exec` and
`task_delete`. An entry that is not bound refers to page 0, and to unbind it frees that. -/

universe u

namespace RubiKernel.Elf

open Memory Mmu Lts

variable {m : MemoryManager} {pt : PageTable} {pages : List Word} {image : Memory} {c : Machine}
  {s : Loader} {a : Word} {k : Nat}

/-- The pages that `unbind_page` does not turn down. -/
def unguarded (m : MemoryManager) (pages : List Word) : List Word :=
  pages.filter fun a => ¬kernelLinear m a

theorem taskDeletePages_unguarded (m : MemoryManager) (pt : PageTable) (pages : List Word) :
    taskDeletePages m pt pages = taskDeletePages m pt (unguarded m pages) := by
  induction pages generalizing m pt with
  | nil => rfl
  | cons a pages ih =>
    by_cases hguard : kernelLinear m a
    · have hsame : unbindPage m pt a simplePageBitmapCallback = (m, pt) := if_pos hguard
      have hskip : unguarded m (a :: pages) = unguarded m pages := by simp [unguarded, hguard]
      rw [hskip, ← ih, taskDeletePages, List.foldl_cons, hsame]
      rfl
    · have htake : unguarded m (a :: pages) =
          a :: unguarded (unbindPage m pt a simplePageBitmapCallback).1 pages := by
        simp [unguarded, hguard, unbindPage_kernelLinear]
      rw [htake]
      exact ih _ _

/-- Every page is unbound once, and from an entry that refers to a page for tasks. -/
structure OwnPages (pt : PageTable) (pages : List Word) : Prop where
  entries : ∀ a ∈ pages, 8192 ≤ tableFrame pt (pteIndex a)
  once : (pages.map pteIndex).Nodup

theorem ownPages_iff : OwnPages pt pages ↔ ∀ k < 8192, ¬Freed pt pages k := by
  constructor
  · rintro ⟨hentries, honce⟩ k hk ⟨-, ⟨a, ha, rfl⟩ | ⟨-, htwice⟩⟩
    · exact absurd (hentries a ha) (Nat.not_le.mpr hk)
    · exact htwice honce
  · intro h
    constructor
    · intro a ha
      by_contra hlow
      exact h _ (Nat.not_le.mp hlow) ⟨by omega, .inl ⟨a, ha, rfl⟩⟩
    · by_contra htwice
      exact h 0 (by decide) ⟨by decide, .inr ⟨rfl, htwice⟩⟩

theorem reserved_taskDeletePages_iff (hm : Reserved m) :
    Reserved (taskDeletePages m pt pages).1 ↔ OwnPages pt (unguarded m pages) := by
  have hlow : ∀ a ∈ unguarded m pages, ¬kernelLinear m a := fun a ha =>
    of_decide_eq_true (List.mem_filter.mp ha).2
  rw [taskDeletePages_unguarded, reserved_iff, ownPages_iff]
  refine forall₂_congr fun k hk => ?_
  rw [taskDeletePages_get hlow]
  exact and_iff_right (reserved_iff.mp hm k hk)

theorem reserved_elfExec (hm : Reserved c.mm) (hs : elfExec image c = some s)
    (hrun : s.halted = false) : Reserved s.mm := by
  have hmagic : (elfHeader image).eiMagic = elfMagic := by
    by_contra hbad
    rw [elfExec, if_neg hbad] at hs
    cases hs
  rw [elfExec_eq hmagic] at hs
  obtain rfl := Option.some.inj hs
  obtain ⟨bound, hh⟩ := running_segments image c (segments image) hrun
  exact reserved_iff.mpr fun k hk => (hh.marked k).mpr (.inl (reserved_iff.mp hm k hk))

/-- The memory manager, and the page table and the recorded pages of each task. -/
structure Tasks (ι : Type u) where
  mm : MemoryManager
  tables : ι → PageTable
  pages : ι → List Word

inductive TaskCall (ι : Type u)
  | alloc (t : ι) (linearAddr : Word)
  | unbind (t : ι) (linearAddr : Word)
  | exec (t : ι) (image : Memory) (c : Machine)
  | delete (t : ι)

section

variable {ι : Type u} [DecidableEq ι]

/-- After `init_memory_manager`, whatever the tables hold. An `elf_exec` that faults does
not return. -/
def tasks : System (Tasks ι) (TaskCall ι) where
  start s :=
    (∃ kernelPageTable m, s.mm = initMemoryManager kernelPageTable m) ∧ s.pages = fun _ => []
  step s call s' :=
    match call with
    | .alloc t linearAddr =>
      let r := allocPage s.mm (s.tables t) linearAddr
      s' = { s with mm := r.1.1, tables := Function.update s.tables t r.1.2 }
    | .unbind t linearAddr =>
      let r := unbindPage s.mm (s.tables t) linearAddr simplePageBitmapCallback
      s' = { s with mm := r.1, tables := Function.update s.tables t r.2 }
    | .exec t image c =>
      c.mm = s.mm ∧ ∃ l, elfExec image c = some l ∧ l.halted = false ∧
        s' = ⟨l.mm, Function.update s.tables t l.pageTable, Function.update s.pages t l.pages⟩
    | .delete t =>
      let r := taskDeletePages s.mm (s.tables t) (s.pages t)
      s' = ⟨r.1, Function.update s.tables t r.2, Function.update s.pages t []⟩

/-- What is unbound was bound to a page for tasks, and is unbound once. -/
def UnbindsOwn (s : Tasks ι) : TaskCall ι → Tasks ι → Prop
  | .alloc .., _ => True
  | .unbind t a, _ => OwnPages (s.tables t) (unguarded s.mm [a])
  | .exec .., _ => True
  | .delete t, _ => OwnPages (s.tables t) (unguarded s.mm (s.pages t))

theorem reserved_step_iff {s s' : Tasks ι} {call : TaskCall ι} (hm : Reserved s.mm)
    (hstep : tasks.step s call s') : Reserved s'.mm ↔ UnbindsOwn s call s' := by
  cases call with
  | alloc t a =>
    obtain rfl : s' = _ := hstep
    refine iff_of_true (reserved_iff.mpr fun k hk => ?_) trivial
    exact allocPage_get (reserved_iff.mp hm k hk)
  | unbind t a =>
    obtain rfl : s' = _ := hstep
    exact (reserved_taskDeletePages_iff hm : _ ↔ OwnPages _ (unguarded s.mm [a]))
  | exec t image c =>
    obtain ⟨hc, l, hl, hrun, rfl⟩ := hstep
    exact iff_of_true (reserved_elfExec (hc ▸ hm) hl hrun) trivial
  | delete t =>
    obtain rfl : s' = _ := hstep
    exact reserved_taskDeletePages_iff hm

/-- The bits of the kernel's pages stay set all along a run exactly when no step of it
unbinds a page that is not bound. -/
theorem kernel_pages_reserved_iff {s : Tasks ι} {tr : List (TaskCall ι × Tasks ι)}
    (hs : tasks.start s) (htr : tasks.Trace s tr) :
    (Reserved s.mm ∧ Every (fun _ _ t => Reserved t.mm) s tr) ↔ Every UnbindsOwn s tr := by
  have hstart : Reserved s.mm := by
    obtain ⟨⟨kernelPageTable, m, hmm⟩, -⟩ := hs
    rw [hmm]
    exact reserved_init
  rw [and_iff_right hstart]
  exact System.Trace.every_iff (M := tasks) (I := fun s => Reserved s.mm)
    (fun _ _ _ hm hstep => reserved_step_iff hm hstep) (fun _ _ _ _ _ hm => hm) hstart htr

theorem unguarded_of_low (h : ∀ a ∈ pages, a ≤ virtBase) : unguarded m pages = pages :=
  List.filter_eq_self.mpr fun a ha => decide_eq_true fun hguard =>
    absurd hguard.1 (BitVec.not_lt.mpr (h a ha))

theorem unbindsOwn_alloc {s : Tasks ι} (t : ι) (hfree : 0 < freeFrames s.mm) :
    ∃ s₁ s₂ : Tasks ι, tasks.Trace s [(.alloc t 0x1000, s₁), (.unbind t 0x1000, s₂)] ∧
      UnbindsOwn s₁ (.unbind t 0x1000) s₂ := by
  refine ⟨_, _, ⟨rfl, rfl, trivial⟩, ?_⟩
  rcases allocPage_cases s.mm (s.tables t) 0x1000 with
    ⟨hall, -⟩ | ⟨i, hframe, -, -, ⟨hguard, -⟩ | ⟨-, heq⟩⟩
  · rw [freeFrames_eq_zero hall] at hfree
    cases hfree
  · exact absurd hguard.1 (by decide)
  · simp only [UnbindsOwn, Function.update_self, heq]
    rw [unguarded_of_low (by simp [virtBase])]
    refine ⟨?_, List.nodup_singleton _⟩
    rw [List.forall_mem_singleton, tableFrame, Function.update_self, frameOf_boundEntry]
    exact hframe.1

def sharedPage : Memory := twoSegments ⟨0x100, 0x1000, 4, 4⟩ ⟨0x200, 0x1800, 4, 4⟩

/-- The page of two segments is recorded twice, and unbinding it for the second time frees
page 0. -/
theorem shared_page_unbound_twice {s : Tasks ι} (t : ι) (hm : Reserved s.mm)
    (hfree : 2 ≤ freeFrames s.mm) :
    ∃ (c : Machine) (s₁ s₂ : Tasks ι),
      tasks.Trace s [(.exec t sharedPage c, s₁), (.delete t, s₂)] ∧ ¬Reserved s₂.mm := by
  have hl : Loadable sharedPage := ⟨by decide +kernel, by decide +kernel, by decide +kernel⟩
  have hreqs : (segments sharedPage).flatMap pageAddrs = [0x1000, 0x1800] := by decide +kernel
  let c : Machine := ⟨s.mm, fun _ => 0, fun _ => default, fun _ => none⟩
  have hready : Ready sharedPage c := by
    rw [Ready, hreqs]
    exact hfree
  have hstores := (hl.storesOk_iff hready).mpr (by decide +kernel)
  obtain ⟨ht, -⟩ := contents_segments hstores (hl.not_kernelLinear List.prefix_rfl) hready
  have hexec : tasks.step s (.exec t sharedPage c) _ := ⟨rfl, _, hl.elfExec, ht.running, rfl⟩
  refine ⟨c, _, _, ⟨hexec, rfl, trivial⟩, fun hres => ?_⟩
  have hkept := (reserved_step_iff hm hexec).mpr trivial
  have honce := ((@reserved_step_iff ι _ _ _ (.delete t) hkept rfl).mp hres).once
  simp only [Function.update_self, ht.pages, hreqs] at honce
  rw [unguarded_of_low (by simp [virtBase])] at honce
  exact absurd honce (by decide)

end

def bootedTasks : Tasks Bool where
  mm := initMemoryManager 0 zeroMemory
  tables := fun _ _ => default
  pages := fun _ => []

theorem bootedTasks_start : tasks.start bootedTasks := ⟨⟨0, zeroMemory, rfl⟩, rfl⟩

theorem bootedTasks_clear (f : Nat) (hf : TaskFrame f) :
    Bitmap.get bootedTasks.mm.pagesBitmap f = false := by
  have hlow := hf.1
  rw [Bool.eq_false_iff]
  intro hget
  rcases initMemoryManager_bits.mp hget with hkernel | ⟨-, hzero⟩
  · omega
  · simp [Bitmap.get, zeroMemory] at hzero

theorem kernel_pages_reserved_iff_example : ∃ s₁ s₂ : Tasks Bool,
    tasks.Trace bootedTasks [(.alloc true 0x1000, s₁), (.unbind true 0x1000, s₂)] ∧
      Reserved s₁.mm ∧ Reserved s₂.mm := by
  obtain ⟨s₁, s₂, htr, hown⟩ := unbindsOwn_alloc (s := bootedTasks) true
    (by rw [freeFrames_clear bootedTasks_clear]; decide)
  obtain ⟨-, h₁, h₂, -⟩ := (kernel_pages_reserved_iff bootedTasks_start htr).mpr
    ⟨trivial, hown, trivial⟩
  exact ⟨s₁, s₂, htr, h₁, h₂⟩

theorem page_zero_freed : ¬∀ (s : Tasks Bool) (tr : List (TaskCall Bool × Tasks Bool)),
    tasks.start s → tasks.Trace s tr → Every (fun _ _ t => Reserved t.mm) s tr := by
  intro hall
  obtain ⟨c, s₁, s₂, htr, hlost⟩ := shared_page_unbound_twice (s := bootedTasks) true
    reserved_init (by rw [freeFrames_clear bootedTasks_clear]; decide)
  exact hlost (hall _ _ bootedTasks_start htr).2.1

end RubiKernel.Elf
