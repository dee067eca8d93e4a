import RubiKernel.Elf.Content

/-! The pages of a task from `elf_exec` to `task_delete`, which walks over the
requests that were made, while the table has one page for an entry. -/

namespace RubiKernel.Elf

open Memory Mmu

/-- The loop of `task_delete` over `task_mem.pages`. -/
def taskDeletePages (m : MemoryManager) (pt : PageTable) (pages : List Word) :
    MemoryManager × PageTable :=
  pages.foldl (fun r a => unbindPage r.1 r.2 a simplePageBitmapCallback) (m, pt)

variable {m : MemoryManager} {image : Memory} {c : Machine} {s : Loader} {h : ProgramHeader}
  {hs : List ProgramHeader} {a : Word} {v : Byte} {reqs pages : List Word} {pt : PageTable}
  {bound : List (Nat × Nat)} {i f k : Nat} {pt' : PageTable}

def tableFrame (pt : PageTable) (i : Nat) : Nat := (pt i).pagePhysAddr.toNat

/-- The bits that `task_delete` clears: those of the pages in the table, and that
of page 0 when it unbinds an entry again. -/
def Freed (pt : PageTable) (pages : List Word) (k : Nat) : Prop :=
  k < 16384 ∧ ((∃ a ∈ pages, tableFrame pt (pteIndex a) = k) ∨
    k = 0 ∧ ¬(pages.map pteIndex).Nodup)

theorem unbindPage_get (hlow : ¬kernelLinear m a) :
    Bitmap.get (unbindPage m pt a simplePageBitmapCallback).1.pagesBitmap k = true ↔
      Bitmap.get m.pagesBitmap k = true ∧ ¬(k < 16384 ∧ tableFrame pt (pteIndex a) = k) := by
  rw [unbindPage_eq, if_neg hlow]
  unfold tableFrame
  by_cases hlt : (pt (pteIndex a)).pagePhysAddr.toNat < 16384
  · simp only [hlt, if_true, Bitmap.get_put (show 0 < 32 by decide)]
    by_cases hk : k = (pt (pteIndex a)).pagePhysAddr.toNat
    · simp [hk, hlt]
    · simp [hk, Ne.symm hk]
  · simp only [hlt, if_false, iff_self_and]
    rintro - ⟨hk, rfl⟩
    exact hlt hk

theorem unbindPage_tableFrame (hlow : ¬kernelLinear m a) :
    tableFrame (unbindPage m pt a simplePageBitmapCallback).2 =
      Function.update (tableFrame pt) (pteIndex a) 0 := by
  rw [unbindPage_eq, if_neg hlow]
  funext i
  by_cases hi : i = pteIndex a
  · simp [tableFrame, hi]
  · simp [tableFrame, hi]

theorem unbindPage_kernelLinear {b : Word} :
    kernelLinear (unbindPage m pt a simplePageBitmapCallback).1 b ↔ kernelLinear m b := by
  rw [unbindPage_eq]
  split
  · exact Iff.rfl
  · split <;> exact Iff.rfl

theorem freed_cons (hpt : tableFrame pt' = Function.update (tableFrame pt) (pteIndex a) 0) :
    Freed pt (a :: pages) k ↔ (k < 16384 ∧ tableFrame pt (pteIndex a) = k) ∨ Freed pt' pages k := by
  have hold : (∃ b ∈ a :: pages, tableFrame pt (pteIndex b) = k) ↔ tableFrame pt (pteIndex a) = k ∨
      ∃ b ∈ pages, pteIndex b ≠ pteIndex a ∧ tableFrame pt (pteIndex b) = k := by
    simp only [List.mem_cons, exists_eq_or_imp]
    constructor
    · rintro (hk | ⟨b, hb, hk⟩)
      · exact .inl hk
      · by_cases hba : pteIndex b = pteIndex a
        · exact .inl (hba ▸ hk)
        · exact .inr ⟨b, hb, hba, hk⟩
    · rintro (hk | ⟨b, hb, -, hk⟩)
      · exact .inl hk
      · exact .inr ⟨b, hb, hk⟩
  have hnew : (∃ b ∈ pages, tableFrame pt' (pteIndex b) = k) ↔
      (∃ b ∈ pages, pteIndex b ≠ pteIndex a ∧ tableFrame pt (pteIndex b) = k) ∨
        k = 0 ∧ pteIndex a ∈ pages.map pteIndex := by
    rw [hpt]
    constructor
    · rintro ⟨b, hb, hk⟩
      by_cases hba : pteIndex b = pteIndex a
      · rw [hba, Function.update_self] at hk
        exact .inr ⟨hk.symm, hba ▸ List.mem_map_of_mem hb⟩
      · rw [Function.update_of_ne hba] at hk
        exact .inl ⟨b, hb, hba, hk⟩
    · rintro (⟨b, hb, hba, hk⟩ | ⟨rfl, hmem⟩)
      · exact ⟨b, hb, by rwa [Function.update_of_ne hba]⟩
      · obtain ⟨b, hb, hba⟩ := List.mem_map.mp hmem
        exact ⟨b, hb, by rw [hba, Function.update_self]⟩
  rw [Freed, Freed, hold, hnew, List.map_cons, List.nodup_cons, ← and_or_left]
  refine and_congr_right fun _ => ?_
  rw [not_and_or, not_not, and_or_left, or_assoc, or_assoc]

theorem taskDeletePages_get (hlow : ∀ a ∈ pages, ¬kernelLinear m a) :
    Bitmap.get (taskDeletePages m pt pages).1.pagesBitmap k = true ↔
      Bitmap.get m.pagesBitmap k = true ∧ ¬Freed pt pages k := by
  induction pages generalizing m pt with
  | nil => simp [taskDeletePages, Freed]
  | cons a pages ih =>
    obtain ⟨ha, hlow⟩ := List.forall_mem_cons.mp hlow
    have hrest : Bitmap.get (taskDeletePages (unbindPage m pt a simplePageBitmapCallback).1
        (unbindPage m pt a simplePageBitmapCallback).2 pages).1.pagesBitmap k = true ↔ _ :=
      ih fun b hb => mt unbindPage_kernelLinear.mp (hlow b hb)
    rw [unbindPage_get ha] at hrest
    rw [freed_cons (unbindPage_tableFrame ha), not_or, ← and_assoc]
    exact hrest

/-- The pages handed out for the requests, each with its entry: they were free, and
the bitmap and the table are what these bindings make of them. -/
structure Holds (c : Machine) (reqs : List Word) (bound : List (Nat × Nat)) (s : Loader) : Prop where
  tracks : Tracks c reqs s
  served : bound.map Prod.fst = (granted c.mm reqs).map pteIndex
  free : ∀ f ∈ bound.map Prod.snd, TaskFrame f ∧ Bitmap.get c.mm.pagesBitmap f = false
  distinct : (bound.map Prod.snd).Nodup
  marked : ∀ k, Bitmap.get s.mm.pagesBitmap k = true ↔
    Bitmap.get c.mm.pagesBitmap k = true ∨ k ∈ bound.map Prod.snd
  table : tableFrame s.pageTable = Assoc.updates (tableFrame (newTask c).pageTable) bound

theorem Holds.start : Holds c [] [] (newTask c) := by
  rcases Agree.start (c := c) with ⟨ht, -⟩ | ⟨-, -, hfalse⟩
  · refine ⟨ht, ?_, by simp, List.nodup_nil, by simp [newTask], rfl⟩
    simp [granted]
  · exact absurd trivial hfalse

theorem Holds.requestPage (hh : Holds c reqs bound s) (a : Word) :
    ∃ bound', Holds c (reqs ++ [a]) bound' (requestPage s a) := by
  have ht := hh.tracks.requestPage a
  rcases hh.tracks.requestPage_cases a with ⟨hgrant, i, hframe, hclear, heq⟩ | ⟨hgrant, heq⟩
  · have hnew := hh.marked (frameOf i)
    rw [hclear, Bool.false_eq_true, false_iff, not_or] at hnew
    refine ⟨bound ++ [(pteIndex a, frameOf i)], ht, ?_, ?_, ?_, ?_, ?_⟩
    · rw [granted_of_grants hgrant, List.map_append, List.map_append, hh.served]
      rfl
    · rw [List.map_append, List.forall_mem_append]
      refine ⟨hh.free, ?_⟩
      rw [List.map_singleton, List.forall_mem_singleton]
      exact ⟨hframe, Bool.eq_false_iff.mpr hnew.1⟩
    · rw [List.map_append, List.map_singleton, ← List.concat_eq_append]
      exact hh.distinct.concat hnew.2
    · intro k
      rw [heq]
      simp only [Bitmap.get_put (show 0 < 32 by decide), List.map_append, List.mem_append]
      by_cases hk : k = frameOf i
      · simp [hk]
      · simp [hk, hh.marked k]
    · rw [heq, Assoc.updates_append, ← hh.table]
      funext j
      by_cases hj : j = pteIndex a
      · simp [tableFrame, Assoc.updates, hj, frameOf_boundEntry]
      · simp [tableFrame, Assoc.updates, hj]
  · rw [heq] at ht ⊢
    refine ⟨bound, ht, ?_, hh.free, hh.distinct, hh.marked, hh.table⟩
    rw [granted_of_not_grants hgrant]
    exact hh.served

/-- A loader that has not faulted holds the pages of its requests. -/
def Running (c : Machine) (reqs : List Word) (s : Loader) : Prop :=
  s.halted = false → ∃ bound, Holds c reqs bound s

theorem Running.requestPage (hr : Running c reqs s) (a : Word) :
    Running c (reqs ++ [a]) (requestPage s a) := by
  intro hrun
  cases hhalt : s.halted with
  | true =>
    rw [Elf.requestPage, if_pos hhalt, hhalt] at hrun
    cases hrun
  | false =>
    obtain ⟨bound, hh⟩ := hr hhalt
    exact hh.requestPage a

theorem Running.requestPages (hr : Running c reqs s) (as : List Word) :
    Running c (reqs ++ as) (as.foldl Elf.requestPage s) := by
  induction as generalizing reqs s with
  | nil => rwa [List.append_nil]
  | cons a as ih =>
    have hstep := ih (hr.requestPage a)
    rwa [List.append_assoc] at hstep

theorem Running.storeByte (hr : Running c reqs s) (a : Word) (v : Byte) :
    Running c reqs (storeByte c.kernelMap s a v) := by
  intro hrun
  cases hhalt : s.halted with
  | true =>
    rw [Elf.storeByte, if_pos hhalt, hhalt] at hrun
    cases hrun
  | false =>
    obtain ⟨bound, hh⟩ := hr hhalt
    cases htr : translate c.kernelMap s.pageTable a with
    | some p =>
      rw [storeByte_mapped hhalt htr]
      exact ⟨bound, hh.tracks.congr (by simp), hh.served, hh.free, hh.distinct, hh.marked, hh.table⟩
    | none =>
      rw [storeByte_fault hhalt htr] at hrun
      cases hrun

theorem Running.storeBytes (hr : Running c reqs s) (bytes : List (Word × Byte)) :
    Running c reqs (storeBytes c.kernelMap s bytes) := by
  induction bytes generalizing s with
  | nil => exact hr
  | cons b bytes ih => exact ih (hr.storeByte b.1 b.2)

theorem running_segments (image : Memory) (c : Machine) (hs : List ProgramHeader) :
    Running c (hs.flatMap pageAddrs) (loadSegments image c hs) := by
  induction hs using List.reverseRecOn with
  | nil => exact fun _ => ⟨[], Holds.start⟩
  | append_singleton hs h ih =>
    have hreqs : (hs ++ [h]).flatMap pageAddrs = hs.flatMap pageAddrs ++ pageAddrs h := by simp
    rw [hreqs, loadSegments_concat]
    exact (ih.requestPages (pageAddrs h)).storeBytes (segmentBytes image h)

/-- The bitmap is as it was before `elf_exec`, whatever the memory behind the 32
entries of the table holds by the time of `task_delete`. -/
def Restored (c : Machine) (s : Loader) : Prop :=
  ∀ t : PageTable, (∀ i < 32, t i = s.pageTable i) →
    (taskDeletePages s.mm t s.pages).1.pagesBitmap = c.mm.pagesBitmap

theorem Holds.restored_iff (hh : Holds c reqs bound s) (hlow : ∀ a ∈ reqs, ¬kernelLinear c.mm a)
    (t : PageTable) :
    (taskDeletePages s.mm t s.pages).1.pagesBitmap = c.mm.pagesBitmap ↔
      (∀ f ∈ bound.map Prod.snd, Freed t reqs f) ∧
        ∀ k, Bitmap.get c.mm.pagesBitmap k = true → ¬Freed t reqs k := by
  have hget : ∀ k, Bitmap.get (taskDeletePages s.mm t s.pages).1.pagesBitmap k = true ↔
      (Bitmap.get c.mm.pagesBitmap k = true ∨ k ∈ bound.map Prod.snd) ∧ ¬Freed t reqs k := by
    intro k
    rw [hh.tracks.pages, taskDeletePages_get, hh.marked]
    exact fun a ha => mt hh.tracks.kernelLinear_iff.mp (hlow a ha)
  constructor
  · intro heq
    rw [heq] at hget
    constructor
    · intro f hf
      by_contra hkept
      have hmarked := (hget f).mpr ⟨.inr hf, hkept⟩
      rw [(hh.free f hf).2] at hmarked
      cases hmarked
    · exact fun k hk => ((hget k).mp hk).2
  · rintro ⟨hfreed, hkept⟩
    refine Bitmap.ext_get fun k => Bool.eq_iff_iff.mpr ((hget k).trans ⟨?_, ?_⟩)
    · rintro ⟨hk | hk, hnot⟩
      · exact hk
      · exact absurd (hfreed k hk) hnot
    · exact fun hk => ⟨.inl hk, hkept k hk⟩

theorem newTask_tableFrame (hi : i < 32) : tableFrame (newTask c).pageTable i = 0 := by
  simp [tableFrame, newTask, hi, default]

theorem Holds.ne_zero (hh : Holds c reqs bound s) (hf : f ∈ bound.map Prod.snd) : f ≠ 0 := by
  rintro rfl
  exact absurd (hh.free 0 hf).1.1 (by decide)

theorem Holds.mem_bound (hh : Holds c reqs bound s) (hi : i < 32)
    (hval : tableFrame s.pageTable i = f) : (i, f) ∈ bound ∨ i ∉ bound.map Prod.fst ∧ f = 0 := by
  rw [hh.table] at hval
  rcases Assoc.updates_cases hval with hmem | ⟨hnot, hzero⟩
  · exact .inl hmem
  · exact .inr ⟨hnot, hzero.symm.trans (newTask_tableFrame hi)⟩

theorem granted_eq_take (hlow : ∀ a ∈ reqs, ¬kernelLinear m a) :
    granted m reqs = reqs.take (freeFrames m) := by
  rw [granted, List.filter_eq_self.mpr (by simpa using hlow)]

theorem mem_granted_or (hlow : ∀ a ∈ reqs, ¬kernelLinear m a) (ha : a ∈ reqs) :
    a ∈ granted m reqs ∨ freeFrames m < reqs.length := by
  rcases Nat.lt_or_ge (freeFrames m) reqs.length with hfull | hfree
  · exact .inr hfull
  · rw [granted_eq_take hlow, List.take_of_length_le hfree]
    exact .inl ha

theorem exists_marked (hfull : freeFrames m ≤ 32) :
    ∃ f, TaskFrame f ∧ Bitmap.get m.pagesBitmap f = true := by
  by_contra hnone
  have hall : ∀ f ∈ List.range' 8192 8192, (!Bitmap.get m.pagesBitmap f) = true := by
    intro f hf
    rw [List.mem_range'_1] at hf
    cases hget : Bitmap.get m.pagesBitmap f with
    | true => exact absurd ⟨f, ⟨hf.1, hf.2⟩, hget⟩ hnone
    | false => rfl
  rw [freeFrames, List.countP_eq_length.mpr hall, List.length_range'] at hfull
  omega

/-- Every request has its entry in the table, no page is handed out for an entry
that has one, and there are pages enough or page 0 is not marked. -/
structure Conserves (c : Machine) (reqs : List Word) : Prop where
  entries : ∀ a ∈ reqs, pteIndex a < 32
  distinct : ((granted c.mm reqs).map pteIndex).Nodup
  enough : reqs.length ≤ freeFrames c.mm ∨ Bitmap.get c.mm.pagesBitmap 0 = false

theorem Holds.conserved (hh : Holds c reqs bound s) (hlow : ∀ a ∈ reqs, ¬kernelLinear c.mm a)
    (hcons : Conserves c reqs) : Restored c s := by
  intro t ht
  have htable : ∀ a ∈ reqs, tableFrame t (pteIndex a) = tableFrame s.pageTable (pteIndex a) := by
    intro a ha
    rw [tableFrame, tableFrame, ht _ (hcons.entries a ha)]
  have hkeys : (bound.map Prod.fst).Nodup := by
    rw [hh.served]
    exact hcons.distinct
  rw [hh.restored_iff hlow]
  constructor
  · intro f hf
    obtain ⟨⟨i, g⟩, hmem, rfl⟩ := List.mem_map.mp hf
    have hi : i ∈ (granted c.mm reqs).map pteIndex := by
      rw [← hh.served]
      exact List.mem_map_of_mem hmem
    obtain ⟨a, ha, rfl⟩ := List.mem_map.mp hi
    rw [granted_eq_take hlow] at ha
    have ha := List.mem_of_mem_take ha
    refine ⟨(hh.free g hf).1.2, .inl ⟨a, ha, ?_⟩⟩
    rw [htable a ha, hh.table]
    exact Assoc.updates_of_mem hkeys hmem
  · rintro k hk ⟨-, ⟨a, ha, hval⟩ | ⟨rfl, hrepeat⟩⟩
    · rw [htable a ha] at hval
      rcases hh.mem_bound (hcons.entries a ha) hval with hmem | ⟨hnot, rfl⟩
      · have hclear := (hh.free k (List.mem_map_of_mem hmem)).2
        rw [hk] at hclear
        cases hclear
      · rw [hh.served] at hnot
        have hfull := (mem_granted_or hlow ha).resolve_left fun h =>
          hnot (List.mem_map_of_mem h)
        rw [hcons.enough.resolve_left (Nat.not_le.mpr hfull)] at hk
        cases hk
    · rcases hcons.enough with hfree | hclear
      · have hdistinct := hcons.distinct
        rw [granted_eq_take hlow, List.take_of_length_le hfree] at hdistinct
        exact hrepeat hdistinct
      · rw [hclear] at hk
        cases hk

theorem Holds.entry_of_restored (hh : Holds c reqs bound s)
    (hlow : ∀ a ∈ reqs, ¬kernelLinear c.mm a) (hrest : Restored c s) (hmem : (i, f) ∈ bound) :
    i < 32 := by
  by_contra hi
  have hf : f ∈ bound.map Prod.snd := List.mem_map_of_mem hmem
  have hagree : ∀ j < 32, (fun j => if j < 32 then s.pageTable j else default) j = s.pageTable j :=
    fun j hj => if_pos hj
  obtain ⟨hfreed, -⟩ := (hh.restored_iff hlow _).mp (hrest _ hagree)
  obtain ⟨-, ⟨a, -, hval⟩ | ⟨hzero, -⟩⟩ := hfreed f hf
  · by_cases ha : pteIndex a < 32
    · simp only [tableFrame, ha, if_true] at hval
      rcases hh.mem_bound ha hval with hother | ⟨-, hzero⟩
      · have hsame := List.inj_on_of_nodup_map hh.distinct hother hmem rfl
        rw [Prod.mk.injEq] at hsame
        omega
      · exact hh.ne_zero hf hzero
    · simp only [tableFrame, ha, if_false] at hval
      exact hh.ne_zero hf hval.symm
  · exact hh.ne_zero hf hzero

theorem Holds.entries_of_restored (hh : Holds c reqs bound s)
    (hlow : ∀ a ∈ reqs, ¬kernelLinear c.mm a) (hlen : reqs.length ≤ 32) (hrest : Restored c s) :
    ∀ a ∈ reqs, pteIndex a < 32 := by
  intro a ha
  rcases mem_granted_or hlow ha with hgrant | hfull
  · have hi : pteIndex a ∈ bound.map Prod.fst := by
      rw [hh.served]
      exact List.mem_map_of_mem hgrant
    obtain ⟨⟨i, f⟩, hmem, heq⟩ := List.mem_map.mp hi
    rw [← heq]
    exact hh.entry_of_restored hlow hrest hmem
  · by_contra hi
    obtain ⟨f, hframe, hmarked⟩ := exists_marked (m := c.mm) (by omega)
    -- behind the table lies an entry for a page of another task
    have hagree : ∀ j < 32, (fun j => if j < 32 then s.pageTable j
        else { present := true, readWrite := true, userSupervisor := false,
               pagePhysAddr := BitVec.ofNat 20 f }) j = s.pageTable j := fun j hj => if_pos hj
    obtain ⟨-, hkept⟩ := (hh.restored_iff hlow _).mp (hrest _ hagree)
    refine hkept f hmarked ⟨hframe.2, .inl ⟨a, ha, ?_⟩⟩
    have hlt := hframe.2
    simp only [tableFrame, hi, if_false, BitVec.toNat_ofNat]
    omega

theorem Holds.distinct_of_restored (hh : Holds c reqs bound s)
    (hlow : ∀ a ∈ reqs, ¬kernelLinear c.mm a) (hentries : ∀ a ∈ reqs, pteIndex a < 32)
    (hrest : Restored c s) : (bound.map Prod.fst).Nodup := by
  obtain ⟨hfreed, -⟩ := (hh.restored_iff hlow _).mp (hrest _ fun _ _ => rfl)
  have htable : ∀ e ∈ bound, Assoc.updates (tableFrame (newTask c).pageTable) bound e.1 = e.2 := by
    intro e he
    have hf : e.2 ∈ bound.map Prod.snd := List.mem_map_of_mem he
    obtain ⟨-, ⟨a, ha, hval⟩ | ⟨hzero, -⟩⟩ := hfreed e.2 hf
    · rcases hh.mem_bound (hentries a ha) hval with hother | ⟨-, hzero⟩
      · have hsame := List.inj_on_of_nodup_map hh.distinct hother he rfl
        rw [← hh.table, ← hval, ← hsame]
      · exact absurd hzero (hh.ne_zero hf)
    · exact absurd hzero (hh.ne_zero hf)
  refine List.Nodup.map_on (fun e he e' he' heq => ?_) (List.Nodup.of_map _ hh.distinct)
  have hval := htable e he
  rw [heq, htable e' he'] at hval
  exact Prod.ext heq hval.symm

theorem Holds.restored_conserves (hh : Holds c reqs bound s)
    (hlow : ∀ a ∈ reqs, ¬kernelLinear c.mm a) (hlen : reqs.length ≤ 32) (hrest : Restored c s) :
    Conserves c reqs := by
  have hentries := hh.entries_of_restored hlow hlen hrest
  have hkeys := hh.distinct_of_restored hlow hentries hrest
  refine ⟨hentries, hh.served ▸ hkeys, ?_⟩
  rcases Nat.lt_or_ge (freeFrames c.mm) reqs.length with hfull | hfree
  swap
  · exact .inl hfree
  obtain ⟨-, hkept⟩ := (hh.restored_iff hlow _).mp (hrest _ fun _ _ => rfl)
  refine .inr (Bool.eq_false_iff.mpr fun hzero => hkept 0 hzero ⟨by omega, ?_⟩)
  by_cases hrepeat : (reqs.map pteIndex).Nodup
  · -- the first request that is not served finds its entry empty
    have ha := List.getElem_mem hfull
    refine .inl ⟨_, ha, ?_⟩
    rcases hh.mem_bound (hentries _ ha) rfl with hmem | ⟨-, hval⟩
    · have hi : pteIndex reqs[freeFrames c.mm] ∈ (granted c.mm reqs).map pteIndex := by
        rw [← hh.served]
        exact List.mem_map_of_mem hmem
      obtain ⟨b, hb, heq⟩ := List.mem_map.mp hi
      rw [granted_eq_take hlow] at hb
      have hsame := List.inj_on_of_nodup_map hrepeat (List.mem_of_mem_take hb) ha heq
      obtain ⟨j, hj, hbj⟩ := List.getElem_of_mem hb
      rw [List.getElem_take] at hbj
      have hindex := (List.Nodup.of_map _ hrepeat).getElem_inj_iff.mp (hbj.trans hsame)
      rw [List.length_take] at hj
      omega
    · exact hval
  · exact .inr ⟨rfl, hrepeat⟩

/-- The pages of a task come back from `task_delete` exactly when no two requests
of the image that are served are for one page, all have their entries, and there
are pages for all of them. -/
theorem elf_exec_task_delete_iff (hl : Loadable image) (hs : elfExec image c = some s)
    (hrun : s.halted = false) :
    Restored c s ↔ Conserves c ((segments image).flatMap pageAddrs) := by
  rw [hl.elfExec] at hs
  obtain rfl := Option.some.inj hs
  obtain ⟨bound, hh⟩ := running_segments image c (segments image) hrun
  have hlow := hl.not_kernelLinear (c := c) List.prefix_rfl
  exact ⟨hh.restored_conserves hlow hl.pages, hh.conserved hlow⟩

def bootedMachine : Machine where
  mm := { zeroMemory with pagesBitmap := fun i => if i < 256 then BitVec.allOnes 32 else 0 }
  ram := fun _ => 0
  junk := fun _ => default
  kernelMap := fun a => if virtBase ≤ a ∧ a < kernelPagesEnd then some (phys a) else none

theorem bootedMachine_clear (f : Nat) (hf : TaskFrame f) :
    Bitmap.get bootedMachine.mm.pagesBitmap f = false := by
  have hlow := hf.1
  have hword : ¬f / 32 < 256 := by omega
  simp [Bitmap.get, bootedMachine, hword]

/-- Two segments with a page of their own each. -/
theorem elf_exec_task_delete_iff_example :
    ∃ s, elfExec (twoSegments ⟨0x100, 0x1000, 4, 4⟩ ⟨0, 0x3000, 0, 8⟩) bootedMachine = some s ∧
      s.halted = false ∧ Restored bootedMachine s := by
  have hl : Loadable (twoSegments ⟨0x100, 0x1000, 4, 4⟩ ⟨0, 0x3000, 0, 8⟩) :=
    ⟨by decide +kernel, by decide +kernel, by decide +kernel⟩
  have hreqs : (segments (twoSegments ⟨0x100, 0x1000, 4, 4⟩ ⟨0, 0x3000, 0, 8⟩)).flatMap pageAddrs =
      [0x1000, 0x3000] := by decide +kernel
  have hcons : Conserves bootedMachine [0x1000, 0x3000] := by
    refine ⟨?_, ?_, .inl ?_⟩
    · rw [List.forall_mem_cons, List.forall_mem_singleton]
      decide +kernel
    · rw [granted, freeFrames_clear bootedMachine_clear]
      decide +kernel
    · rw [freeFrames_clear bootedMachine_clear]
      decide
  have hrun : (elfExec (twoSegments ⟨0x100, 0x1000, 4, 4⟩ ⟨0, 0x3000, 0, 8⟩) bootedMachine).any
      (fun s => !s.halted) = true := by decide +kernel
  obtain ⟨s, hs, hhalt⟩ := (Option.any_eq_true ..).mp hrun
  have hhalt : s.halted = false := by simpa using hhalt
  exact ⟨s, hs, hhalt, (elf_exec_task_delete_iff hl hs hhalt).mpr (hreqs ▸ hcons)⟩

/-- A segment of one whole page asks for the page after it, which is that of the next
segment: the page that was bound first is lost, and page 0 is free in the end. -/
theorem elf_exec_loses_page : ¬∀ image c s, Loadable image →
    ((segments image).Pairwise fun g h =>
      g.pVaddr.toNat + g.pMemsz.toNat ≤ h.pVaddr.toNat ∨
        h.pVaddr.toNat + h.pMemsz.toNat ≤ g.pVaddr.toNat) →
    elfExec image c = some s → s.halted = false →
    (taskDeletePages s.mm s.pageTable s.pages).1.pagesBitmap = c.mm.pagesBitmap := by
  intro hall
  have hl : Loadable (twoSegments ⟨0x100, 0x1000, 4, 0x1000⟩ ⟨0x200, 0x2000, 4, 4⟩) :=
    ⟨by decide +kernel, by decide +kernel, by decide +kernel⟩
  have hrun : (elfExec (twoSegments ⟨0x100, 0x1000, 4, 0x1000⟩ ⟨0x200, 0x2000, 4, 4⟩)
      bootedMachine).any (fun s => !s.halted &&
        Bitmap.get (taskDeletePages s.mm s.pageTable s.pages).1.pagesBitmap 8193 &&
        !Bitmap.get (taskDeletePages s.mm s.pageTable s.pages).1.pagesBitmap 0) = true := by
    decide +kernel
  obtain ⟨s, hs, hlost⟩ := (Option.any_eq_true ..).mp hrun
  simp only [Bool.and_eq_true, Bool.not_eq_true'] at hlost
  obtain ⟨⟨hhalt, hlost⟩, -⟩ := hlost
  rw [hall _ _ s hl (by decide +kernel) hs hhalt] at hlost
  exact absurd hlost (by decide)

end RubiKernel.Elf
