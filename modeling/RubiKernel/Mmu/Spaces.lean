import RubiKernel.Lib.Lts
import RubiKernel.Mmu.Extended
import RubiKernel.Mmu.Window

/-! The address spaces of the kernel and its tasks: `elf_exec` copies the directory of the
kernel, tasks bind pages in a table of their own, and `alloc_pci_mem` binds the memory of
a device in the directory of the kernel. The abstract system has the spaces as functions. -/

universe u v w

namespace RubiKernel.Mmu

open Lts

/-- The fields of `task_mem_t` that its address space depends on. -/
structure AddressSpace where
  pageDir : PageDirectory
  pageTable : Word

/-- The memory manager, the page tables by their frames, and the loaded tasks. -/
structure Spaces (ι : Type u) where
  mm : MemoryManager
  tableAt : BitVec 20 → Option PageTable
  task : ι → Option AddressSpace

inductive SpaceCall (ι : Type u)
  | exec (t : ι) (pt : Word) (junk : PageTable)
  | alloc (t : ι) (linearAddr : Word)
  | unbind (t : ι) (linearAddr : Word)
  | delete (t : ι)
  | deleteKernelTask
  | pci (rawValue pt : Word)
  | heapStore (t : ι) (junk : PageTable)

def tableFrame (pt : Word) : BitVec 20 := (phys pt >>> 12).setWidth 20

/-- `create_page_table(32)` clears 32 entries; the rest of the page has other heap blocks. -/
def newTable (junk : PageTable) : PageTable := fun i => if i < 32 then default else junk i

/-- `create_page_table(PAGES_PER_TABLE)` -/
def emptyTable : PageTable := fun _ => default

namespace Spaces

variable {ι : Type u} [DecidableEq ι]

/-- `elf_exec` up to the loading: a copy of the kernel's directory with a new table. -/
def elfExec (s : Spaces ι) (t : ι) (pt : Word) (junk : PageTable) : Spaces ι :=
  { s with
    tableAt := Function.update s.tableAt (tableFrame pt) (some (newTable junk))
    task := Function.update s.task t
      (some ⟨bindTable s.mm s.mm.kernelPageDirectory pt 0, pt⟩) }

/-- `task_delete`, after the pages: the table and the directory are freed. -/
def taskDelete (s : Spaces ι) (t : ι) (pt : Word) : Spaces ι :=
  { s with
    tableAt := Function.update s.tableAt (tableFrame pt) none
    task := Function.update s.task t none }

def setTable (s : Spaces ι) (m : MemoryManager) (pt : Word) (table : PageTable) : Spaces ι :=
  { s with mm := m, tableAt := Function.update s.tableAt (tableFrame pt) (some table) }

/-- `alloc_pci_mem` with the table it creates, and the address it returns. -/
def allocPciMem (s : Spaces ι) (rawValue pt : Word) : Spaces ι × Word :=
  if rawValue ≠ 0 ∧ rawValue.getLsbD 0 = false then
    let r := allocPageExtended s.mm emptyTable (rawValue &&& 0xFFFFFFF0)
    let mm := r.1.1
    ({ s with
        mm := { mm with kernelPageDirectory := bindTable mm mm.kernelPageDirectory pt r.2 }
        tableAt := Function.update s.tableAt (tableFrame pt) (some r.1.2) }, r.2)
  else (s, 0)

def walk (s : Spaces ι) (pd : PageDirectory) (va : Word) : Option Word := walkTables s.tableAt pd va

end Spaces

/-- A page-aligned block of the heap that no page table is in. -/
def Fresh {ι : Type u} (s : Spaces ι) (pt : Word) : Prop :=
  0xC1000000 ≤ pt.toNat ∧ pt.toNat < 0xC2000000 ∧ pt.toNat % 4096 = 0 ∧
    s.tableAt (tableFrame pt) = none

section

variable (ι : Type u) [DecidableEq ι]

/-- From `init_memory_manager` on. A task has pages in the 32 entries of its table only. -/
def spaces : System (Spaces ι) (SpaceCall ι) where
  start s :=
    KernelMap s.tableAt s.mm.kernelPageDirectory ∧ KernelOnly s.mm.kernelPageDirectory ∧
      s.mm.kernelPagesOperations = false ∧ (s.mm.extendedKernelPagesBitmap = fun _ => 0) ∧
      s.task = fun _ => none
  step s call s' :=
    match call with
    | .exec t pt junk => s.task t = none ∧ Fresh s pt ∧ s' = s.elfExec t pt junk
    | .alloc t linearAddr =>
      pteIndex linearAddr < 32 ∧ ∃ sp table, s.task t = some sp ∧
        s.tableAt (tableFrame sp.pageTable) = some table ∧
        let r := allocPage s.mm table linearAddr
        s' = s.setTable r.1.1 sp.pageTable r.1.2
    | .unbind t linearAddr =>
      pteIndex linearAddr < 32 ∧ ∃ sp table, s.task t = some sp ∧
        s.tableAt (tableFrame sp.pageTable) = some table ∧
        let r := unbindPage s.mm table linearAddr simplePageBitmapCallback
        s' = s.setTable r.1 sp.pageTable r.2
    | .delete t => ∃ sp, s.task t = some sp ∧ s' = s.taskDelete t sp.pageTable
    | .deleteKernelTask =>
      s' = { s with
        mm := { s.mm with kernelPageDirectory := unbindTable s.mm s.mm.kernelPageDirectory 0 } }
    | .pci rawValue pt => Fresh s pt ∧ s' = (s.allocPciMem rawValue pt).1
    | .heapStore t junk =>
      ∃ sp table, s.task t = some sp ∧ s.tableAt (tableFrame sp.pageTable) = some table ∧
        s' = s.setTable s.mm sp.pageTable fun i => if i < 32 then table i else junk i

end

/-- Addresses that the entries of a task's table after its 32 map, whatever they hold. -/
def Hidden (va : Word) : Prop := 0x20000 ≤ va.toNat ∧ va.toNat < 0x400000

instance {va : Word} : Decidable (Hidden va) := inferInstanceAs (Decidable (_ ∧ _))

abbrev Space := Word → Option Word

@[ext]
structure Maps (ι : Type u) where
  kernel : Space
  task : ι → Option Space

def Space.setPage (m : Space) (page : Nat) (frame : Option Word) : Space := fun va =>
  if va.toNat / 4096 = page then frame.map (· + (va &&& 0xFFF)) else m va

def Maps.setTask {ι : Type u} [DecidableEq ι] (a : Maps ι) (t : ι) (m : Option Space) : Maps ι :=
  { a with task := Function.update a.task t m }

theorem Maps.setTask_task {ι : Type u} [DecidableEq ι] (a : Maps ι) (t u : ι) (m : Option Space) :
    (a.setTask t m).task u = if u = t then m else a.task u := Function.update_apply ..

def devicePage : Nat := 0xC2001

/-- The page of a device that is bound: physical pages of the kernel are refused. -/
def deviceFrame (rawValue : Word) : Option Word :=
  if rawValue &&& 0xFFFFFFF0 < phys kernelPagesEnd then none else some (rawValue &&& 0xFFFFF000)

/-- A new task starts with the space of the kernel, and its calls change its own space only. A
device is mapped in the space of the kernel only, at the one page there is. -/
def maps (ι : Type u) [DecidableEq ι] : System (Maps ι) (SpaceCall ι) where
  start a :=
    (a.kernel = fun va => if virtBase ≤ va ∧ va < kernelPagesEnd then some (phys va) else none) ∧
      a.task = fun _ => none
  step a call a' :=
    match call with
    | .exec t _ _ =>
      a.task t = none ∧ a' = a.setTask t (some a.kernel)
    | .alloc t linearAddr =>
      ∃ m, a.task t = some m ∧ (a' = a ∨ ∃ frame, TaskFrame (frameOf frame) ∧
        a' = a.setTask t (some (m.setPage (pteIndex linearAddr) (some frame))))
    | .unbind t linearAddr =>
      ∃ m, a.task t = some m ∧
        (a' = a ∨ a' = a.setTask t (some (m.setPage (pteIndex linearAddr) none)))
    | .delete t => a' = a.setTask t none
    | .deleteKernelTask => a' = a
    | .pci rawValue _ =>
      a' = if rawValue ≠ 0 ∧ rawValue.getLsbD 0 = false then
        { a with kernel := a.kernel.setPage devicePage (deviceFrame rawValue) } else a
    | .heapStore .. => a' = a

namespace Spaces

variable {ι : Type u} {s s' : Spaces ι} {t u : ι} {sp : AddressSpace}
  {f : BitVec 20} {pd : PageDirectory} {va : Word} {x : Option PageTable}

def space (s : Spaces ι) (pd : PageDirectory) : Space := fun va =>
  if Hidden va then none else s.walk pd va

def abs (s : Spaces ι) : Maps ι where
  kernel := s.space s.mm.kernelPageDirectory
  task t := (s.task t).map fun sp => s.space sp.pageDir

/-- A table that is there, and belongs to no task. -/
def Shared (s : Spaces ι) (f : BitVec 20) : Prop :=
  (∃ table, s.tableAt f = some table) ∧
    ∀ t sp, s.task t = some sp → f ≠ tableFrame sp.pageTable

/-- The entries of a directory after the first refer to tables that no task binds in. -/
def SharesRest (s : Spaces ι) (pd : PageDirectory) : Prop :=
  ∀ i < 1024, i ≠ 0 → (pd i).present = true → s.Shared (pd i).pageTableAddr

structure Inv (s : Spaces ι) : Prop where
  operations : s.mm.kernelPagesOperations = false
  extended : s.mm.extendedKernelPagesBitmap = fun _ => 0
  kernel_low : (s.mm.kernelPageDirectory 0).present = false
  kernel_rest : s.SharesRest s.mm.kernelPageDirectory
  device : ∀ table, (s.mm.kernelPageDirectory 776).present = true →
    s.tableAt (s.mm.kernelPageDirectory 776).pageTableAddr = some table →
      ∀ j < 1024, j ≠ 1 → (table j).present = false
  task_low : ∀ t sp, s.task t = some sp → sp.pageDir 0 = boundTable sp.pageTable ∧
    ∃ table, s.tableAt (tableFrame sp.pageTable) = some table
  task_rest : ∀ t sp, s.task t = some sp → s.SharesRest sp.pageDir
  task_unique : ∀ t u sp sp', s.task t = some sp → s.task u = some sp' →
    tableFrame sp.pageTable = tableFrame sp'.pageTable → t = u

theorem pde_lt (va : Word) : (va >>> 22).toNat < 1024 := by
  have hlt := va.isLt
  rw [pde_toNat]
  omega

theorem Shared.of_update {g : BitVec 20} (hg : s.Shared g) (hf : ¬s.Shared f)
    (htable : s'.tableAt = Function.update s.tableAt f x)
    (htask : ∀ t sp, s'.task t = some sp →
      s.task t = some sp ∨ tableFrame sp.pageTable = f) : s'.Shared g := by
  have hne : g ≠ f := fun h => hf (h ▸ hg)
  obtain ⟨⟨table, hsome⟩, hother⟩ := hg
  refine ⟨⟨table, ?_⟩, fun t sp ht => ?_⟩
  · rw [htable, Function.update_of_ne hne, hsome]
  · rcases htask t sp ht with ht | ht
    · exact hother t sp ht
    · exact ht ▸ hne

theorem SharesRest.of_update (h : s.SharesRest pd) (hf : ¬s.Shared f)
    (htable : s'.tableAt = Function.update s.tableAt f x)
    (htask : ∀ t sp, s'.task t = some sp →
      s.task t = some sp ∨ tableFrame sp.pageTable = f) : s'.SharesRest pd :=
  fun i hi hne hpresent => (h i hi hne hpresent).of_update hf htable htask

theorem walk_of_absent (h : (pd (va >>> 22).toNat).present = false) : s.walk pd va = none := by
  rw [walk, walkTables, h]
  rfl

theorem walk_congr (htable : (pd (va >>> 22).toNat).present = true →
      s'.tableAt (pd (va >>> 22).toNat).pageTableAddr =
        s.tableAt (pd (va >>> 22).toNat).pageTableAddr) : s'.walk pd va = s.walk pd va := by
  cases hpresent : (pd (va >>> 22).toNat).present with
  | false => rw [walk_of_absent hpresent, walk_of_absent hpresent]
  | true => rw [walk, walk, walkTables, walkTables, htable hpresent]

theorem SharesRest.walk_eq (h : s.SharesRest pd) (hf : ¬s.Shared f)
    (htable : s'.tableAt = Function.update s.tableAt f x) (hva : (va >>> 22).toNat ≠ 0) :
    s'.walk pd va = s.walk pd va := by
  refine walk_congr fun hpresent => ?_
  have hshared := h _ (pde_lt va) hva hpresent
  have hne : (pd (va >>> 22).toNat).pageTableAddr ≠ f := fun heq => hf (heq ▸ hshared)
  rw [htable, Function.update_of_ne hne]

theorem Inv.not_shared_task (ht : s.task t = some sp) : ¬s.Shared (tableFrame sp.pageTable) :=
  fun h => h.2 t sp ht rfl

theorem not_shared_fresh {pt : Word} (hfresh : Fresh s pt) : ¬s.Shared (tableFrame pt) := by
  rintro ⟨⟨table, hsome⟩, -⟩
  rw [hfresh.2.2.2] at hsome
  cases hsome

theorem Inv.kernel_space (h : Inv s) (hf : ¬s.Shared f)
    (htable : s'.tableAt = Function.update s.tableAt f x)
    (hdirectory : s'.mm.kernelPageDirectory = s.mm.kernelPageDirectory) :
    s'.space s'.mm.kernelPageDirectory = s.space s.mm.kernelPageDirectory := by
  funext va
  rw [space, space, hdirectory]
  by_cases hva : (va >>> 22).toNat = 0
  · have habsent : (s.mm.kernelPageDirectory (va >>> 22).toNat).present = false := by
      rw [hva, h.kernel_low]
    rw [walk_of_absent habsent, walk_of_absent habsent]
  · rw [h.kernel_rest.walk_eq hf htable hva]

theorem Inv.task_space (h : Inv s) (hf : ¬s.Shared f)
    (htable : s'.tableAt = Function.update s.tableAt f x) (ht : s.task t = some sp)
    (hne : tableFrame sp.pageTable ≠ f) : s'.space sp.pageDir = s.space sp.pageDir := by
  funext va
  rw [space, space]
  by_cases hva : (va >>> 22).toNat = 0
  · have hsame : s'.walk sp.pageDir va = s.walk sp.pageDir va := by
      refine walk_congr fun _ => ?_
      rw [hva, (h.task_low t sp ht).1, htable]
      exact Function.update_of_ne hne ..
    rw [hsame]
  · rw [(h.task_rest t sp ht).walk_eq hf htable hva]

theorem Inv.device_of_update (h : Inv s) (hf : ¬s.Shared f)
    (htable : s'.tableAt = Function.update s.tableAt f x)
    (hdirectory : s'.mm.kernelPageDirectory 776 = s.mm.kernelPageDirectory 776)
    (table : PageTable) (hpresent : (s'.mm.kernelPageDirectory 776).present = true)
    (hdevice : s'.tableAt (s'.mm.kernelPageDirectory 776).pageTableAddr = some table) :
    ∀ j < 1024, j ≠ 1 → (table j).present = false := by
  rw [hdirectory] at hpresent hdevice
  have hshared := h.kernel_rest 776 (by decide) (by decide) hpresent
  have hne : (s.mm.kernelPageDirectory 776).pageTableAddr ≠ f := fun heq => hf (heq ▸ hshared)
  rw [htable, Function.update_of_ne hne] at hdevice
  exact h.device table hpresent hdevice

theorem Inv.setTable {m : MemoryManager} {table' : PageTable} (h : Inv s)
    (ht : s.task t = some sp) (hdirectory : m.kernelPageDirectory = s.mm.kernelPageDirectory)
    (hoperations : m.kernelPagesOperations = s.mm.kernelPagesOperations)
    (hextended : m.extendedKernelPagesBitmap = s.mm.extendedKernelPagesBitmap) :
    Inv (s.setTable m sp.pageTable table') := by
  have hf := Inv.not_shared_task ht
  have hrest : ∀ {pd}, s.SharesRest pd → (s.setTable m sp.pageTable table').SharesRest pd :=
    fun hpd => hpd.of_update hf rfl fun u sp' hu => .inl hu
  constructor
  · exact hoperations.trans h.operations
  · exact hextended.trans h.extended
  · exact hdirectory ▸ h.kernel_low
  · exact hdirectory ▸ hrest h.kernel_rest
  · exact h.device_of_update hf rfl (congrFun hdirectory 776)
  · intro u sp' hu
    obtain ⟨hlow, table'', htable''⟩ := h.task_low u sp' hu
    refine ⟨hlow, ?_⟩
    by_cases heq : tableFrame sp'.pageTable = tableFrame sp.pageTable
    · exact ⟨table', by rw [heq]; exact Function.update_self ..⟩
    · exact ⟨table'', (Function.update_of_ne heq ..).trans htable''⟩
  · exact fun u sp' hu => hrest (h.task_rest u sp' hu)
  · exact h.task_unique

theorem walk_of_present {table : PageTable} (hpresent : (pd (va >>> 22).toNat).present = true)
    (htable : s.tableAt (pd (va >>> 22).toNat).pageTableAddr = some table) :
    s.walk pd va =
      if (table (pteIndex va)).present then
        some (frameAddr (table (pteIndex va)).pagePhysAddr + (va &&& 0xFFF))
      else none := by
  rw [walk, walkTables, if_pos hpresent, htable, Option.bind_some]

theorem walk_own {table : PageTable} (hlow : sp.pageDir 0 = boundTable sp.pageTable)
    (htable : s.tableAt (tableFrame sp.pageTable) = some table) (hva : (va >>> 22).toNat = 0) :
    s.walk sp.pageDir va =
      if (table (pteIndex va)).present then
        some (frameAddr (table (pteIndex va)).pagePhysAddr + (va &&& 0xFFF))
      else none := by
  refine walk_of_present ?_ ?_
  · rw [hva, hlow]
    rfl
  · rw [hva, hlow]
    exact htable

theorem pteIndex_lt_of_visible (hva : (va >>> 22).toNat = 0) (hvisible : ¬Hidden va) :
    pteIndex va = va.toNat / 4096 ∧ pteIndex va < 32 := by
  rw [pde_toNat] at hva
  rw [pteIndex_eq]
  unfold Hidden at hvisible
  omega

theorem Inv.space_setEntry {m : MemoryManager} {table : PageTable} {i : Nat} {e : PageTableEntry}
    (h : Inv s) (ht : s.task t = some sp)
    (htable : s.tableAt (tableFrame sp.pageTable) = some table) (hi : i < 32) :
    space (s.setTable m sp.pageTable (Function.update table i e)) sp.pageDir =
      Space.setPage (s.space sp.pageDir) i
        (if e.present then some (frameAddr e.pagePhysAddr) else none) := by
  have hlow := (h.task_low t sp ht).1
  funext va
  rw [space, Space.setPage, space]
  by_cases hvisible : Hidden va
  · have hpage : va.toNat / 4096 ≠ i := by
      unfold Hidden at hvisible
      omega
    rw [if_pos hvisible, if_neg hpage, if_pos hvisible]
  · rw [if_neg hvisible, if_neg hvisible]
    by_cases hva : (va >>> 22).toNat = 0
    · obtain ⟨hpage, -⟩ := pteIndex_lt_of_visible hva hvisible
      rw [walk_own hlow (Function.update_self ..) hva, walk_own hlow htable hva, ← hpage]
      by_cases hpte : pteIndex va = i
      · rw [if_pos hpte, hpte, Function.update_self]
        cases e.present <;> rfl
      · rw [if_neg hpte, Function.update_of_ne hpte]
    · have hpage : va.toNat / 4096 ≠ i := by
        rw [pde_toNat] at hva
        omega
      rw [if_neg hpage]
      exact (h.task_rest t sp ht).walk_eq (Inv.not_shared_task ht) rfl hva

/-- What the entries of a task's table after its 32 hold does not show. -/
theorem Inv.space_heapStore {table junk : PageTable} (h : Inv s) (ht : s.task t = some sp)
    (htable : s.tableAt (tableFrame sp.pageTable) = some table) :
    space (s.setTable s.mm sp.pageTable fun i => if i < 32 then table i else junk i) sp.pageDir =
      s.space sp.pageDir := by
  have hlow := (h.task_low t sp ht).1
  funext va
  rw [space, space]
  by_cases hvisible : Hidden va
  · rw [if_pos hvisible, if_pos hvisible]
  · rw [if_neg hvisible, if_neg hvisible]
    by_cases hva : (va >>> 22).toNat = 0
    · obtain ⟨-, hlt⟩ := pteIndex_lt_of_visible hva hvisible
      rw [walk_own hlow (Function.update_self ..) hva, walk_own hlow htable hva, if_pos hlt]
    · exact (h.task_rest t sp ht).walk_eq (Inv.not_shared_task ht) rfl hva

theorem walk_congr_directory {pd' : PageDirectory}
    (h : pd (va >>> 22).toNat = pd' (va >>> 22).toNat) : s.walk pd va = s.walk pd' va := by
  rw [walk, walk, walkTables, walkTables, h]

theorem bindTable_zero (m : MemoryManager) (pd : PageDirectory) (pt : Word) :
    bindTable m pd pt 0 = Function.update pd 0 (boundTable pt) := by
  have hopen : ¬kernelLinear m 0 := fun h => absurd h.1 (by decide)
  rw [bindTable, if_neg hopen]
  rfl

theorem Inv.fresh_ne {pt : Word} (h : Inv s) (hfresh : Fresh s pt) (ht : s.task t = some sp) :
    tableFrame sp.pageTable ≠ tableFrame pt := by
  obtain ⟨-, table, htable⟩ := h.task_low t sp ht
  intro heq
  rw [heq, hfresh.2.2.2] at htable
  cases htable

def copyWith (pd : PageDirectory) (pt : Word) : AddressSpace :=
  ⟨Function.update pd 0 (boundTable pt), pt⟩

theorem copyWith_low {pt : Word} :
    (copyWith pd pt).pageDir 0 = boundTable (copyWith pd pt).pageTable :=
  show Function.update pd 0 (boundTable pt) 0 = boundTable pt from Function.update_self ..

theorem copyWith_rest {pt : Word} {i : Nat} (hi : i ≠ 0) : (copyWith pd pt).pageDir i = pd i :=
  show Function.update pd 0 (boundTable pt) i = pd i from Function.update_of_ne hi ..

theorem abs_task (s : Spaces ι) (t : ι) :
    (abs s).task t = (s.task t).map fun sp => s.space sp.pageDir := rfl

variable [DecidableEq ι]

theorem Inv.abs_setTable {m : MemoryManager} {table' : PageTable} (h : Inv s)
    (ht : s.task t = some sp) (hdirectory : m.kernelPageDirectory = s.mm.kernelPageDirectory) :
    abs (s.setTable m sp.pageTable table') =
      (abs s).setTask t (some (space (s.setTable m sp.pageTable table') sp.pageDir)) := by
  have hf := Inv.not_shared_task ht
  refine Maps.ext (h.kernel_space hf rfl hdirectory) (funext fun u => ?_)
  rw [abs_task, Maps.setTask_task]
  by_cases hu : u = t
  · subst hu
    rw [if_pos rfl, Spaces.setTable, ht]
    rfl
  · rw [if_neg hu, abs_task]
    refine Option.map_congr fun sp' hsp' => h.task_space (t := u) hf rfl hsp' ?_
    exact fun heq => hu (h.task_unique u t sp' sp hsp' ht heq)

theorem setTask_self (ht : s.task t = some sp) :
    (abs s).setTask t (some (s.space sp.pageDir)) = abs s := by
  have hsome : (abs s).task t = some (s.space sp.pageDir) := by
    rw [abs_task, ht]
    rfl
  rw [← hsome, Maps.setTask, Function.update_eq_self]

theorem elfExec_task (s : Spaces ι) (t : ι) (pt : Word) (junk : PageTable) :
    (s.elfExec t pt junk).task =
      Function.update s.task t (some (copyWith s.mm.kernelPageDirectory pt)) := by
  rw [Spaces.elfExec, bindTable_zero]
  rfl

section

variable {pt : Word} {junk : PageTable} (h : Inv s) (hnone : s.task t = none)
  (hfresh : Fresh s pt)

include h hfresh

theorem Inv.elfExec : Inv (s.elfExec t pt junk) := by
  have hf := not_shared_fresh hfresh
  have htask : ∀ u sp, (s.elfExec t pt junk).task u = some sp →
      u ≠ t ∧ s.task u = some sp ∨
        u = t ∧ sp = copyWith s.mm.kernelPageDirectory pt := by
    intro u sp hu
    rw [elfExec_task] at hu
    by_cases heq : u = t
    · subst heq
      rw [Function.update_self] at hu
      exact .inr ⟨rfl, (Option.some.inj hu).symm⟩
    · rw [Function.update_of_ne heq] at hu
      exact .inl ⟨heq, hu⟩
  have hmono : ∀ u sp, (s.elfExec t pt junk).task u = some sp →
      s.task u = some sp ∨ tableFrame sp.pageTable = tableFrame pt := by
    intro u sp hu
    rcases htask u sp hu with ⟨-, hu⟩ | ⟨-, rfl⟩
    · exact .inl hu
    · exact .inr rfl
  have hkernel : (s.elfExec t pt junk).SharesRest s.mm.kernelPageDirectory :=
    h.kernel_rest.of_update hf rfl hmono
  constructor
  · exact h.operations
  · exact h.extended
  · exact h.kernel_low
  · exact hkernel
  · exact h.device_of_update hf rfl rfl
  · intro u sp hu
    rcases htask u sp hu with ⟨-, hu⟩ | ⟨-, rfl⟩
    · obtain ⟨hlow, table, htable⟩ := h.task_low u sp hu
      exact ⟨hlow, table, (Function.update_of_ne (h.fresh_ne hfresh hu) ..).trans htable⟩
    · exact ⟨copyWith_low, _, Function.update_self ..⟩
  · intro u sp hu
    rcases htask u sp hu with ⟨-, hu⟩ | ⟨-, rfl⟩
    · exact (h.task_rest u sp hu).of_update hf rfl hmono
    · intro i hi hne hpresent
      rw [copyWith_rest hne] at hpresent ⊢
      exact hkernel i hi hne hpresent
  · intro u v sp sp' hu hv heq
    rcases htask u sp hu with ⟨-, hu'⟩ | ⟨hu', rfl⟩
    · rcases htask v sp' hv with ⟨-, hv'⟩ | ⟨-, rfl⟩
      · exact h.task_unique u v sp sp' hu' hv' heq
      · exact absurd heq (h.fresh_ne hfresh hu')
    · rcases htask v sp' hv with ⟨-, hv'⟩ | ⟨hv', rfl⟩
      · exact absurd heq.symm (h.fresh_ne hfresh hv')
      · exact hu'.trans hv'.symm

include hnone

theorem Inv.abs_elfExec : abs (s.elfExec t pt junk) =
    (abs s).setTask t (some (abs s).kernel) := by
  have hf := not_shared_fresh hfresh
  refine Maps.ext (h.kernel_space hf rfl rfl) (funext fun u => ?_)
  rw [abs_task, elfExec_task, Maps.setTask_task]
  by_cases hu : u = t
  · subst hu
    rw [if_pos rfl, Function.update_self]
    refine congrArg some (funext fun va => ?_)
    show (if Hidden va then none else (s.elfExec u pt junk).walk _ va) =
      if Hidden va then none else s.walk s.mm.kernelPageDirectory va
    refine ite_congr rfl (fun _ => rfl) fun hvisible => ?_
    by_cases hva : (va >>> 22).toNat = 0
    · have habsent : (s.mm.kernelPageDirectory (va >>> 22).toNat).present = false := by
        rw [hva, h.kernel_low]
      obtain ⟨-, hlt⟩ := pteIndex_lt_of_visible hva hvisible
      have htable : (s.elfExec u pt junk).tableAt (tableFrame pt) = some (newTable junk) :=
        Function.update_self ..
      rw [walk_of_absent habsent, walk_own copyWith_low htable hva, newTable, if_pos hlt]
      rfl
    · have hsame : (s.elfExec u pt junk).walk s.mm.kernelPageDirectory va =
          s.walk s.mm.kernelPageDirectory va := h.kernel_rest.walk_eq hf rfl hva
      rw [← hsame]
      exact walk_congr_directory (copyWith_rest hva)
  · rw [if_neg hu, Function.update_of_ne hu, abs_task]
    exact Option.map_congr fun sp hsp => h.task_space hf rfl hsp (h.fresh_ne hfresh hsp)

end

section

variable (h : Inv s) (ht : s.task t = some sp)

include h ht

theorem Inv.taskDelete : Inv (s.taskDelete t sp.pageTable) := by
  have hf := Inv.not_shared_task ht
  have htask : ∀ u sp', (s.taskDelete t sp.pageTable).task u = some sp' →
      u ≠ t ∧ s.task u = some sp' := by
    intro u sp' hu
    rw [Spaces.taskDelete] at hu
    dsimp only at hu
    by_cases heq : u = t
    · subst heq
      rw [Function.update_self] at hu
      cases hu
    · rw [Function.update_of_ne heq] at hu
      exact ⟨heq, hu⟩
  have hmono : ∀ u sp', (s.taskDelete t sp.pageTable).task u = some sp' →
      s.task u = some sp' ∨ tableFrame sp'.pageTable = tableFrame sp.pageTable :=
    fun u sp' hu => .inl (htask u sp' hu).2
  constructor
  · exact h.operations
  · exact h.extended
  · exact h.kernel_low
  · exact h.kernel_rest.of_update hf rfl hmono
  · exact h.device_of_update hf rfl rfl
  · intro u sp' hu
    obtain ⟨hne, hu⟩ := htask u sp' hu
    obtain ⟨hlow, table, htable⟩ := h.task_low u sp' hu
    have hframe : tableFrame sp'.pageTable ≠ tableFrame sp.pageTable :=
      fun heq => hne (h.task_unique u t sp' sp hu ht heq)
    exact ⟨hlow, table, (Function.update_of_ne hframe ..).trans htable⟩
  · exact fun u sp' hu => (h.task_rest u sp' (htask u sp' hu).2).of_update hf rfl hmono
  · exact fun u v sp₁ sp₂ hu hv => h.task_unique u v sp₁ sp₂ (htask u sp₁ hu).2 (htask v sp₂ hv).2

theorem Inv.abs_taskDelete : abs (s.taskDelete t sp.pageTable) =
    (abs s).setTask t none := by
  have hf := Inv.not_shared_task ht
  refine Maps.ext (h.kernel_space hf rfl rfl) (funext fun u => ?_)
  rw [abs_task, Maps.setTask_task, Spaces.taskDelete]
  dsimp only
  by_cases hu : u = t
  · subst hu
    rw [if_pos rfl, Function.update_self]
    rfl
  · rw [if_neg hu, Function.update_of_ne hu, abs_task]
    refine Option.map_congr fun sp' hsp' => h.task_space (t := u) hf rfl hsp' ?_
    exact fun heq => hu (h.task_unique u t sp' sp hsp' ht heq)

end

end Spaces

def deviceTable (physAddr : Word) : PageTable :=
  if physAddr < phys kernelPagesEnd then emptyTable
  else Function.update emptyTable 1 (boundEntry physAddr)

theorem deviceTable_absent {physAddr : Word} {j : Nat} (hj : j ≠ 1) :
    (deviceTable physAddr j).present = false := by
  unfold deviceTable
  split
  · rfl
  · rw [Function.update_of_ne hj]
    rfl

theorem allocPageExtended_device {m : MemoryManager} (hoperations : m.kernelPagesOperations = false)
    (hextended : m.extendedKernelPagesBitmap = fun _ => 0) (physAddr : Word) :
    ∃ bits, allocPageExtended m emptyTable physAddr =
      (({ m with pagesBitmap := bits }, deviceTable physAddr), kernelExtendedStart) := by
  have hfound : foundPage m = kernelExtendedStart := by
    rw [foundPage_congr (m := zeroMemory) hextended, foundPage]
    decide +kernel
  have hcallback : ∃ bits, extendedKernelBitmapCallback m physAddr kernelExtendedStart 1 =
      { m with pagesBitmap := bits } := by
    unfold extendedKernelBitmapCallback
    split
    · exact ⟨_, setPageToBitmap_eq⟩
    · exact ⟨m.pagesBitmap, rfl⟩
  have hrefused : bindRefused m kernelExtendedStart physAddr ↔ physAddr < phys kernelPagesEnd := by
    have hlinear : ¬kernelLinear m kernelExtendedStart := fun h => absurd h.2.1 (by decide)
    simp [bindRefused, hlinear, hoperations]
  unfold foundPage at hfound
  unfold allocPageExtended
  cases hfind : extendedPages.find? fun i =>
      getPageFromBitmap m.extendedKernelPagesBitmap (i - kernelExtendedStart) = 0 with
  | none =>
    rw [hfind] at hfound
    exact absurd hfound (by decide)
  | some i =>
    rw [hfind] at hfound
    obtain rfl : i = kernelExtendedStart := hfound
    dsimp only
    rw [bindPage, deviceTable]
    by_cases hlow : physAddr < phys kernelPagesEnd
    · rw [if_pos (hrefused.mpr hlow), if_pos hlow]
      exact ⟨m.pagesBitmap, rfl⟩
    · obtain ⟨bits, hbits⟩ := hcallback
      rw [if_neg (mt hrefused.mp hlow), if_neg hlow, hbits]
      exact ⟨bits, rfl⟩

namespace Spaces

variable {ι : Type u} {s : Spaces ι} {rawValue pt va : Word} {bits : Nat → Word}

def bindDevice (s : Spaces ι) (bits : Nat → Word) (rawValue pt : Word) : Spaces ι :=
  { s with
    mm := { s.mm with
      pagesBitmap := bits
      kernelPageDirectory := Function.update s.mm.kernelPageDirectory 776 (boundTable pt) }
    tableAt := Function.update s.tableAt (tableFrame pt)
      (some (deviceTable (rawValue &&& 0xFFFFFFF0))) }

/-- `alloc_pci_mem` on a memory BAR returns the one page of the extended space, and binds a
table of its own there. -/
theorem Inv.allocPciMem_eq (h : Inv s) (pt : Word)
    (hmemory : rawValue ≠ 0 ∧ rawValue.getLsbD 0 = false) :
    ∃ bits, s.allocPciMem rawValue pt = (s.bindDevice bits rawValue pt, kernelExtendedStart) := by
  obtain ⟨bits, heq⟩ := allocPageExtended_device h.operations h.extended (rawValue &&& 0xFFFFFFF0)
  refine ⟨bits, ?_⟩
  have hopen : ∀ m, ¬kernelLinear m kernelExtendedStart := fun m h => absurd h.2.1 (by decide)
  rw [Spaces.allocPciMem, if_pos hmemory, heq]
  dsimp only
  rw [bindTable, if_neg (hopen _)]
  rfl

theorem bindDevice_directory : (s.bindDevice bits rawValue pt).mm.kernelPageDirectory =
    Function.update s.mm.kernelPageDirectory 776 (boundTable pt) := rfl

theorem bindDevice_tableAt : (s.bindDevice bits rawValue pt).tableAt =
    Function.update s.tableAt (tableFrame pt)
      (some (deviceTable (rawValue &&& 0xFFFFFFF0))) := rfl

theorem Inv.bindDevice (h : Inv s) (hfresh : Fresh s pt) :
    Inv (s.bindDevice bits rawValue pt) := by
  have hf := not_shared_fresh hfresh
  have hrest : ∀ {pd}, s.SharesRest pd → (s.bindDevice bits rawValue pt).SharesRest pd :=
    fun hpd => hpd.of_update hf rfl fun _ _ hu => .inl hu
  constructor
  · exact h.operations
  · exact h.extended
  · exact h.kernel_low
  · intro i hi hne hpresent
    rw [bindDevice_directory] at hpresent ⊢
    by_cases hdevice : i = 776
    · subst hdevice
      rw [Function.update_self]
      refine ⟨⟨_, Function.update_self ..⟩, fun u sp hu => ?_⟩
      exact (h.fresh_ne hfresh hu).symm
    · rw [Function.update_of_ne hdevice] at hpresent ⊢
      exact hrest h.kernel_rest i hi hne hpresent
  · intro table hpresent htable j hj hne
    have hframe : (boundTable pt).pageTableAddr = tableFrame pt := rfl
    rw [bindDevice_directory, Function.update_self, bindDevice_tableAt, hframe,
      Function.update_self] at htable
    obtain rfl := Option.some.inj htable
    exact deviceTable_absent hne
  · intro u sp hu
    obtain ⟨hlow, table, htable⟩ := h.task_low u sp hu
    exact ⟨hlow, table, (Function.update_of_ne (h.fresh_ne hfresh hu) ..).trans htable⟩
  · exact fun u sp hu => hrest (h.task_rest u sp hu)
  · exact h.task_unique

theorem devicePage_iff :
    va.toNat / 4096 = devicePage ↔ (va >>> 22).toNat = 776 ∧ pteIndex va = 1 := by
  rw [pde_toNat, pteIndex_eq, devicePage]
  omega

theorem deviceTable_page (rawValue : Word) :
    (if (deviceTable (rawValue &&& 0xFFFFFFF0) 1).present then
      some (frameAddr (deviceTable (rawValue &&& 0xFFFFFFF0) 1).pagePhysAddr + (va &&& 0xFFF))
    else none) = (deviceFrame rawValue).map (· + (va &&& 0xFFF)) := by
  have hmask : rawValue &&& 0xFFFFFFF0 &&& 0xFFFFF000 = rawValue &&& 0xFFFFF000 := by
    rw [BitVec.and_assoc]
    rfl
  rw [deviceTable, deviceFrame]
  by_cases hlow : rawValue &&& 0xFFFFFFF0 < phys kernelPagesEnd
  · rw [if_pos hlow, if_pos hlow]
    rfl
  · rw [if_neg hlow, if_neg hlow, Function.update_self]
    exact congrArg (fun frame => some (frame + (va &&& 0xFFF))) ((frameAddr_eq _).trans hmask)

theorem Inv.walk_device (h : Inv s) (hva : (va >>> 22).toNat = 776) (hpte : pteIndex va ≠ 1) :
    s.walk s.mm.kernelPageDirectory va = none := by
  cases hpresent : (s.mm.kernelPageDirectory 776).present with
  | false =>
    rw [← hva] at hpresent
    exact walk_of_absent hpresent
  | true =>
    obtain ⟨table, htable⟩ := (h.kernel_rest 776 (by decide) (by decide) hpresent).1
    have habsent := h.device table hpresent htable (pteIndex va)
      (by rw [pteIndex_eq]; omega) hpte
    rw [← hva] at hpresent htable
    rw [walk_of_present hpresent htable, habsent]
    rfl

theorem walk_bindDevice (hva : (va >>> 22).toNat = 776) :
    (s.bindDevice bits rawValue pt).walk (s.bindDevice bits rawValue pt).mm.kernelPageDirectory va =
      if (deviceTable (rawValue &&& 0xFFFFFFF0) (pteIndex va)).present then
        some (frameAddr (deviceTable (rawValue &&& 0xFFFFFFF0) (pteIndex va)).pagePhysAddr +
          (va &&& 0xFFF))
      else none := by
  have hentry : (s.bindDevice bits rawValue pt).mm.kernelPageDirectory (va >>> 22).toNat =
      boundTable pt := by
    rw [hva, bindDevice_directory, Function.update_self]
  refine walk_of_present ?_ ?_
  · rw [hentry]
    rfl
  · rw [hentry, bindDevice_tableAt]
    exact Function.update_self ..

theorem Inv.walk_bindDevice_other (h : Inv s) (hfresh : Fresh s pt)
    (hva : (va >>> 22).toNat ≠ 776) :
    (s.bindDevice bits rawValue pt).walk (s.bindDevice bits rawValue pt).mm.kernelPageDirectory va =
      s.walk s.mm.kernelPageDirectory va := by
  have hsame : (s.bindDevice bits rawValue pt).walk s.mm.kernelPageDirectory va =
      s.walk s.mm.kernelPageDirectory va := by
    by_cases hlow : (va >>> 22).toNat = 0
    · have habsent : (s.mm.kernelPageDirectory (va >>> 22).toNat).present = false := by
        rw [hlow, h.kernel_low]
      rw [walk_of_absent habsent, walk_of_absent habsent]
    · exact h.kernel_rest.walk_eq (not_shared_fresh hfresh) rfl hlow
  have hentry : (s.bindDevice bits rawValue pt).mm.kernelPageDirectory (va >>> 22).toNat =
      s.mm.kernelPageDirectory (va >>> 22).toNat := by
    rw [bindDevice_directory, Function.update_of_ne hva]
  exact (walk_congr_directory hentry).trans hsame

theorem Inv.abs_bindDevice (h : Inv s) (hfresh : Fresh s pt) :
    abs (s.bindDevice bits rawValue pt) =
      { abs s with kernel := (abs s).kernel.setPage devicePage (deviceFrame rawValue) } := by
  have hf := not_shared_fresh hfresh
  refine Maps.ext (funext fun va => ?_) (funext fun u => ?_)
  · show (if Hidden va then none else (s.bindDevice bits rawValue pt).walk
        (s.bindDevice bits rawValue pt).mm.kernelPageDirectory va) =
      if va.toNat / 4096 = devicePage then (deviceFrame rawValue).map (· + (va &&& 0xFFF))
      else if Hidden va then none else s.walk s.mm.kernelPageDirectory va
    by_cases hdevice : (va >>> 22).toNat = 776
    · have hvisible : ¬Hidden va := by
        rw [pde_toNat] at hdevice
        unfold Hidden
        omega
      rw [if_neg hvisible, if_neg hvisible, walk_bindDevice hdevice]
      by_cases hpte : pteIndex va = 1
      · rw [if_pos (devicePage_iff.mpr ⟨hdevice, hpte⟩), hpte, deviceTable_page]
      · rw [if_neg fun hpage => hpte (devicePage_iff.mp hpage).2, deviceTable_absent hpte]
        exact (h.walk_device hdevice hpte).symm
    · rw [if_neg fun hpage => hdevice (devicePage_iff.mp hpage).1,
        h.walk_bindDevice_other hfresh hdevice]
  · have hspace : ∀ sp, s.task u = some sp →
        (s.bindDevice bits rawValue pt).space sp.pageDir = s.space sp.pageDir :=
      fun sp hsp => h.task_space hf rfl hsp (h.fresh_ne hfresh hsp)
    rw [abs_task]
    exact Option.map_congr hspace

theorem unbindTable_zero (m : MemoryManager) (pd : PageDirectory) :
    unbindTable m pd 0 = Function.update pd 0
      { present := false, readWrite := true, userSupervisor := false, pageTableAddr := 0 } := by
  have hopen : ¬kernelLinear m 0 := fun h => absurd h.1 (by decide)
  rw [unbindTable, if_neg hopen]
  rfl

/-- The directory of the kernel after the deletion of a task that runs in it. -/
def dropLow (s : Spaces ι) : Spaces ι :=
  { s with
    mm := { s.mm with kernelPageDirectory := unbindTable s.mm s.mm.kernelPageDirectory 0 } }

theorem dropLow_entry {i : Nat} (hi : i ≠ 0) :
    s.dropLow.mm.kernelPageDirectory i = s.mm.kernelPageDirectory i := by
  show unbindTable s.mm s.mm.kernelPageDirectory 0 i = _
  rw [unbindTable_zero, Function.update_of_ne hi]

theorem dropLow_low : (s.dropLow.mm.kernelPageDirectory 0).present = false := by
  show (unbindTable s.mm s.mm.kernelPageDirectory 0 0).present = false
  rw [unbindTable_zero, Function.update_self]

theorem Inv.dropLow (h : Inv s) : Inv s.dropLow := by
  constructor
  · exact h.operations
  · exact h.extended
  · exact dropLow_low
  · intro i hi hne
    rw [dropLow_entry hne]
    exact h.kernel_rest i hi hne
  · rw [dropLow_entry (by decide)]
    exact h.device
  · exact h.task_low
  · exact h.task_rest
  · exact h.task_unique

theorem Inv.abs_dropLow (h : Inv s) : abs s.dropLow = abs s := by
  refine Maps.ext (funext fun va => ?_) rfl
  show (if Hidden va then none else s.walk s.dropLow.mm.kernelPageDirectory va) =
    if Hidden va then none else s.walk s.mm.kernelPageDirectory va
  by_cases hva : (va >>> 22).toNat = 0
  · rw [walk_of_absent (by rw [hva, dropLow_low]), walk_of_absent (by rw [hva, h.kernel_low])]
  · rw [walk_congr_directory (dropLow_entry hva)]

theorem setTable_self {sp : AddressSpace} {table : PageTable}
    (htable : s.tableAt (tableFrame sp.pageTable) = some table) :
    s.setTable s.mm sp.pageTable table = s := by
  rw [setTable, ← htable, Function.update_eq_self]

section

variable [DecidableEq ι] {s' : Spaces ι} {t : ι} {sp : AddressSpace} {table : PageTable} {linearAddr : Word}

theorem Inv.start (hs : (spaces ι).start s) : Inv s := by
  obtain ⟨hmap, honly, hoperations, hextended, htask⟩ := hs
  have hnone : ∀ t sp, s.task t ≠ some sp := by
    intro t sp ht
    rw [htask] at ht
    cases ht
  constructor
  · exact hoperations
  · exact hextended
  · exact honly 0 (by decide) (by decide)
  · intro i hi _ hpresent
    by_cases hkernel : 768 ≤ i ∧ i < 776
    · obtain ⟨table, htable, -⟩ := hmap.table (i - 768) (by omega)
      rw [show 768 + (i - 768) = i by omega] at htable
      exact ⟨⟨table, htable⟩, fun t sp ht => absurd ht (hnone t sp)⟩
    · rw [honly i hi hkernel] at hpresent
      cases hpresent
  · intro _ hpresent
    rw [honly 776 (by decide) (by decide)] at hpresent
    cases hpresent
  · exact fun t sp ht => absurd ht (hnone t sp)
  · exact fun t sp ht => absurd ht (hnone t sp)
  · exact fun t _ sp _ ht => absurd ht (hnone t sp)

theorem abs_start (hs : (spaces ι).start s) : (maps ι).start (abs s) := by
  obtain ⟨hmap, honly, -, -, htask⟩ := hs
  refine ⟨funext fun va => ?_, ?_⟩
  · show (if Hidden va then none else s.walk s.mm.kernelPageDirectory va) = _
    split
    · next hhidden =>
      refine (if_neg fun hva => ?_).symm
      have hlow : 0xC0000000 ≤ va.toNat := hva.1
      unfold Hidden at hhidden
      omega
    · split
      · next hva => exact hmap.walk hva.1 hva.2
      · next hva => exact honly.walk hva
  · funext t
    rw [abs_task, htask]
    rfl

theorem Inv.alloc (h : Inv s) (hlow : pteIndex linearAddr < 32)
    (ht : s.task t = some sp) (htable : s.tableAt (tableFrame sp.pageTable) = some table)
    (hs' : s' = s.setTable (allocPage s.mm table linearAddr).1.1 sp.pageTable
      (allocPage s.mm table linearAddr).1.2) :
    Inv s' ∧ (abs s' = abs s ∨ ∃ frame, TaskFrame (frameOf frame) ∧ abs s' = (abs s).setTask t
      (some (Space.setPage (s.space sp.pageDir) (pteIndex linearAddr) (some frame)))) := by
  have hsame : allocPage s.mm table linearAddr =
      ((s.mm, table), (allocPage s.mm table linearAddr).2) →
      Inv s' ∧ abs s' = abs s := by
    intro hsame
    have heq : s' = s := by
      rw [hs', hsame]
      exact setTable_self htable
    rw [heq]
    exact ⟨h, rfl⟩
  rcases allocPage_cases s.mm table linearAddr with
    ⟨-, heq⟩ | ⟨i, hframe, haddr, -, ⟨-, heq⟩ | ⟨-, heq⟩⟩
  · obtain ⟨hinv, habs⟩ := hsame (by rw [heq])
    exact ⟨hinv, .inl habs⟩
  · obtain ⟨hinv, habs⟩ := hsame (by rw [heq])
    exact ⟨hinv, .inl habs⟩
  · rw [heq] at hs'
    dsimp only at hs'
    subst hs'
    refine ⟨h.setTable ht rfl rfl rfl, .inr ⟨i, hframe, ?_⟩⟩
    have haligned : frameAddr (boundEntry i).pagePhysAddr = i :=
      (frameAddr_eq i).trans (high_eq_self (by omega))
    rw [h.abs_setTable (by exact ht) (by rfl), h.space_setEntry ht htable hlow, haligned]
    rfl

theorem Inv.unbind (h : Inv s) (hlow : pteIndex linearAddr < 32)
    (ht : s.task t = some sp) (htable : s.tableAt (tableFrame sp.pageTable) = some table)
    (hs' : s' = s.setTable (unbindPage s.mm table linearAddr simplePageBitmapCallback).1 sp.pageTable
      (unbindPage s.mm table linearAddr simplePageBitmapCallback).2) :
    Inv s' ∧ (abs s' = abs s ∨ abs s' = (abs s).setTask t
      (some (Space.setPage (s.space sp.pageDir) (pteIndex linearAddr) none))) := by
  rw [unbindPage_eq] at hs'
  split at hs'
  · have heq : s' = s := hs'.trans (setTable_self htable)
    rw [heq]
    exact ⟨h, .inl rfl⟩
  · subst hs'
    have hbits : ∀ c : Prop, [Decidable c] → ∀ bits,
        (if c then { s.mm with pagesBitmap := bits } else s.mm).kernelPageDirectory =
            s.mm.kernelPageDirectory ∧
          (if c then { s.mm with pagesBitmap := bits } else s.mm).kernelPagesOperations =
            s.mm.kernelPagesOperations ∧
          (if c then { s.mm with pagesBitmap := bits } else s.mm).extendedKernelPagesBitmap =
            s.mm.extendedKernelPagesBitmap := by
      intro c _ bits
      split
      · exact ⟨rfl, rfl, rfl⟩
      · exact ⟨rfl, rfl, rfl⟩
    obtain ⟨hdirectory, hoperations, hextended⟩ := hbits
      ((table (pteIndex linearAddr)).pagePhysAddr.toNat < 16384)
      (Bitmap.put s.mm.pagesBitmap (table (pteIndex linearAddr)).pagePhysAddr.toNat false)
    refine ⟨h.setTable ht hdirectory hoperations hextended, .inr ?_⟩
    rw [h.abs_setTable ht hdirectory, h.space_setEntry ht htable hlow]
    rfl

/-- Every call does to the spaces what the abstract call does. -/
theorem Inv.step {call : SpaceCall ι} (h : Inv s) (hstep : (spaces ι).step s call s') :
    Inv s' ∧ (maps ι).step (abs s) call (abs s') := by
  cases call with
  | exec t pt junk =>
    obtain ⟨hnone, hfresh, rfl⟩ := hstep
    refine ⟨h.elfExec hfresh, ?_, h.abs_elfExec hnone hfresh⟩
    rw [abs_task, hnone]
    rfl
  | alloc t linearAddr =>
    obtain ⟨hlow, sp, table, ht, htable, hs'⟩ := hstep
    obtain ⟨hinv, habs⟩ := h.alloc hlow ht htable hs'
    exact ⟨hinv, s.space sp.pageDir, by rw [abs_task, ht]; rfl, habs⟩
  | unbind t linearAddr =>
    obtain ⟨hlow, sp, table, ht, htable, hs'⟩ := hstep
    obtain ⟨hinv, habs⟩ := h.unbind hlow ht htable hs'
    exact ⟨hinv, s.space sp.pageDir, by rw [abs_task, ht]; rfl, habs⟩
  | delete t =>
    obtain ⟨sp, ht, rfl⟩ := hstep
    exact ⟨h.taskDelete ht, h.abs_taskDelete ht⟩
  | deleteKernelTask =>
    obtain rfl : s' = s.dropLow := hstep
    exact ⟨h.dropLow, h.abs_dropLow⟩
  | pci rawValue pt =>
    obtain ⟨hfresh, rfl⟩ := hstep
    by_cases hmemory : rawValue ≠ 0 ∧ rawValue.getLsbD 0 = false
    · obtain ⟨bits, heq⟩ := h.allocPciMem_eq pt hmemory
      rw [heq]
      exact ⟨h.bindDevice hfresh, (h.abs_bindDevice hfresh).trans (if_pos hmemory).symm⟩
    · rw [allocPciMem, if_neg hmemory]
      exact ⟨h, (if_neg hmemory).symm⟩
  | heapStore t junk =>
    obtain ⟨sp, table, ht, htable, rfl⟩ := hstep
    refine ⟨h.setTable ht rfl rfl rfl, ?_⟩
    show abs _ = abs s
    rw [h.abs_setTable (m := s.mm) ht rfl, h.space_heapStore ht htable]
    exact setTask_self ht

end

end Spaces

namespace Spaces

variable {ι : Type u} [DecidableEq ι] {s : Spaces ι} {tr : List (SpaceCall ι × Spaces ι)}

theorem trace_abs (hs : (spaces ι).start s) (htr : (spaces ι).Trace s tr) :
    (maps ι).Trace (abs s) (tr.map (Prod.map id abs)) :=
  htr.simulate (fun _ _ _ h hstep => (h.step hstep).1) (fun _ _ _ h hstep => (h.step hstep).2)
    (Inv.start hs)

/-- Every run of the memory manager, its tasks and devices is one of the abstract system. -/
theorem spaces_refine (hs : (spaces ι).start s) (htr : (spaces ι).Trace s tr) :
    (maps ι).start (abs s) ∧ (maps ι).Trace (abs s) (tr.map (Prod.map id abs)) :=
  ⟨abs_start hs, trace_abs hs htr⟩

def linearTables (frame : BitVec 20) : Option PageTable :=
  if frame.toNat < 8 then
    some fun i => boundEntry (BitVec.ofNat 32 (1024 * frame.toNat + i) * pageSize)
  else none

def linearSpaces (ι : Type u) : Spaces ι where
  mm := { zeroMemory with
    kernelPageDirectory := fun i =>
      if 768 ≤ i ∧ i < 776 then ⟨true, true, false, BitVec.ofNat 20 (i - 768)⟩ else default }
  tableAt := linearTables
  task _ := none

theorem linearSpaces_start (ι : Type u) [DecidableEq ι] : (spaces ι).start (linearSpaces ι) := by
  refine ⟨⟨fun k hk => ?_, fun k hk => ?_⟩, fun i _ hnot => ?_, rfl, rfl, rfl⟩
  · rw [linearSpaces]
    dsimp only
    rw [if_pos (by omega)]
  · have hframe : (BitVec.ofNat 20 (768 + k - 768)).toNat = k := by
      rw [BitVec.toNat_ofNat]
      omega
    rw [linearSpaces]
    dsimp only
    rw [if_pos (by omega), linearTables, hframe, if_pos hk]
    refine ⟨_, rfl, fun i hi => ⟨rfl, ?_⟩⟩
    refine (frameAddr_eq _).trans (high_eq_self ?_)
    rw [page_toNat (by omega)]
    omega
  · rw [linearSpaces]
    dsimp only
    rw [if_neg hnot]
    rfl

def deviceRun : List (SpaceCall Bool × Spaces Bool) :=
  let s := (linearSpaces Bool).elfExec true 0xC1000000 emptyTable
  [(.exec true 0xC1000000 emptyTable, s),
    (.pci 0xFEB00000 0xC1001000, (s.allocPciMem 0xFEB00000 0xC1001000).1)]

theorem deviceRun_trace : (spaces Bool).Trace (linearSpaces Bool) deviceRun :=
  ⟨⟨rfl, ⟨by decide, by decide, by decide, rfl⟩, rfl⟩, ⟨⟨by decide, by decide, by decide, rfl⟩, rfl⟩,
    trivial⟩

theorem spaces_refine_device :
    (maps Bool).start (abs (linearSpaces Bool)) ∧
      (maps Bool).Trace (abs (linearSpaces Bool)) (deviceRun.map (Prod.map id abs)) :=
  spaces_refine (linearSpaces_start Bool) deviceRun_trace

end Spaces

end RubiKernel.Mmu
