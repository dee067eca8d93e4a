import RubiKernel.Boot.Paging

/-! The switch of the loader to the higher half: it takes the lower half out of the directory
through the addresses of the higher one. -/

namespace RubiKernel.Boot

open Memory Mmu Countdown

def window (va : Word) : Option Word :=
  if virtBase ≤ va ∧ va < virtBase + kernelLowerTables * tableSize then some (phys va) else none

/-- The window, and the first 16 MB in place but for the tables before `n`. -/
def mapped (n : Nat) (va : Word) : Option Word :=
  if n * 0x400000 ≤ va.toNat ∧ va.toNat < 0x1000000 then some va else window va

structure Paged (image : Image) (n : Nat) (s : Cpu) : Prop where
  enabled : s.cr0 &&& 0x80000000 ≠ 0
  cr3 : s.cr3 = phys image.bootPageDirectory
  tables : Tables image s.mem (slots n)

variable {image : Image} {mem : Memory} {slot : Nat → Option Nat} {s : Cpu}
  {access : Access} {va w : Word} {i n q : Nat}

theorem window_eq (hlow : 0xC0000000 ≤ va.toNat) (hhigh : va.toNat < 0xC1000000) :
    window va = some (phys va) :=
  if_pos ⟨hlow, hhigh⟩

theorem slots_map (hn : n ≤ 4) :
    ((slots n (va >>> 22).toNat).map fun k =>
      BitVec.ofNat 32 k * tableSize + (va &&& 0x3FFFFF)) = mapped n va := by
  have hvalue : ∀ k < 4, (BitVec.ofNat 32 k * tableSize + (va &&& 0x3FFFFF)).toNat =
      k * 0x400000 + va.toNat % 0x400000 := by
    intro k hk
    have hlow : (va &&& 0x3FFFFF).toNat = va.toNat % 2 ^ 22 := Bits.low_toNat (k := 22) va (by decide)
    rw [BitVec.toNat_add, BitVec.toNat_mul, BitVec.toNat_ofNat, hlow]
    show (k % 2 ^ 32 * 0x400000 % 2 ^ 32 + va.toNat % 2 ^ 22) % 2 ^ 32 = _
    omega
  have hwindow : window va =
      if 0xC0000000 ≤ va.toNat ∧ va.toNat < 0xC1000000 then some (phys va) else none := rfl
  rw [slots, mapped, pde_toNat, hwindow]
  by_cases hlower : n ≤ va.toNat / 0x400000 ∧ va.toNat / 0x400000 < 4
  · rw [if_pos hlower, if_pos (by omega), Option.map_some]
    refine congrArg some (BitVec.eq_of_toNat_eq ?_)
    rw [hvalue _ hlower.2]
    omega
  · have hnot : ¬(n * 0x400000 ≤ va.toNat ∧ va.toNat < 0x1000000) := by omega
    rw [if_neg hlower, if_neg hnot]
    by_cases hhigher : 768 ≤ va.toNat / 0x400000 ∧ va.toNat / 0x400000 < 772
    · rw [if_pos hhigher, if_pos (by omega), Option.map_some]
      refine congrArg some (BitVec.eq_of_toNat_eq ?_)
      rw [hvalue _ (by omega), phys_toNat (by omega)]
      omega
    · rw [if_neg hhigher, if_neg (by omega), Option.map_none]

theorem Paged.address (h : Paged image n s) (hn : n ≤ 4) :
    s.address access va = mapped n va := by
  rw [Cpu.address, if_neg h.enabled, h.cr3, h.tables.walk, slots_map hn]

theorem Paged.load (h : Paged image n s) (hn : n ≤ 4) (hlow : 0xC0000000 ≤ va.toNat)
    (hhigh : va.toNat < 0xC1000000) : s.load va = some (read32 s.mem (phys va)) := by
  rw [Cpu.load, h.address hn, mapped, if_neg (by omega), window_eq hlow hhigh]
  rfl

theorem Paged.store (h : Paged image n s) (hn : n ≤ 4) (va w : Word)
    (hlow : 0xC0000000 ≤ va.toNat) (hhigh : va.toNat < 0xC1000000) :
    s.store va w = some { s with mem := write32 s.mem (phys va) w } := by
  rw [Cpu.store, h.address hn, mapped, if_neg (by omega), window_eq hlow hhigh]
  rfl

theorem Tables.clear {f : Nat → Option Nat} (h : Tables image mem slot) (hq : q + n ≤ 1024)
    (hslot : ∀ i < 1024, f i = if q ≤ i ∧ i < q + n then none else slot i)
    (hlt : ∀ i k, f i = some k → k < 4) :
    Tables image
      (fill32 mem (phys image.bootPageDirectory + BitVec.ofNat 32 (4 * q)) (fun _ => 0) n) f where
  directory i hi := by
    have halign := image.bootPageDirectory_align
    have hdirectory := image.phys_directory
    rw [read32_fill32_add (by omega) (by omega) (by omega) (by omega) (by omega), h.directory i hi,
      hslot i hi]
    by_cases hin : q ≤ i ∧ i < q + n
    · rw [if_pos hin, if_pos (by omega)]
      rfl
    · rw [if_neg hin, if_neg (by omega)]
  table j hj := by
    have halign := image.bootPageDirectory_align
    have hdirectory := image.phys_directory
    have htable := h.table j hj
    rw [image.table_eq, add_ofNat_add] at htable ⊢
    rw [read32_fill32_add (by omega) (by omega) (by omega) (by omega) (by omega), htable,
      if_neg (by omega)]
  slot_lt := hlt

/-- After `i` turns of `.remap_higher_half`. -/
def remapped (s : Cpu) (directory : Word) (i : Nat) : Cpu :=
  { s with
    eax := if i = 0 then s.eax else 0
    edi := s.edi + BitVec.ofNat 32 (4 * i)
    mem := fill32 s.mem directory (fun _ => 0) i }

def zeroed (s : Cpu) (start : Word) (i : Nat) : Cpu :=
  { s with
    edi := s.edi + BitVec.ofNat 32 (4 * i)
    mem := fill32 s.mem start (fun _ => 0) i }

theorem Paged.remapped (h : Paged image 0 s) (hi : i ≤ 4) :
    Paged image i (remapped s (phys image.bootPageDirectory) i) where
  enabled := h.enabled
  cr3 := h.cr3
  tables := by
    have hclear := h.tables.clear (q := 0) (n := i) (f := slots i) (by omega) (fun j _ => by
      unfold slots
      grind) fun _ _ => slots_lt
    rwa [Nat.mul_zero, add_zero_word] at hclear

theorem Paged.zeroed (h : Paged image 4 s) (hi : i ≤ 4) :
    Paged image 4 (zeroed s (phys image.bootPageDirectory + BitVec.ofNat 32 (4 * 4)) i) where
  enabled := h.enabled
  cr3 := h.cr3
  tables := h.tables.clear (by omega) (fun j _ => by
    unfold slots
    grind) fun _ _ => slots_lt

theorem Image.offset_toNat (image : Image) (hi : i < 0x9000) :
    (image.bootPageDirectory + BitVec.ofNat 32 i).toNat = image.bootPageDirectory.toNat + i := by
  have hbelow := image.tables_below
  rw [BitVec.toNat_add, BitVec.toNat_ofNat]
  omega

theorem Image.directory_above (image : Image) : 0xC0000000 ≤ image.bootPageDirectory.toNat := by
  have habove := image.stackTop_above
  have hbelow := image.stackTop_below
  omega

theorem slots_four : slots n 4 = none := by
  rw [slots, if_neg (by omega), if_neg (by omega)]

theorem remapHigherHalf_loop (h : Paged image 0 s) (hedi : s.edi = image.bootPageDirectory)
    (hesi : s.esi = image.bootPageDirectory + 4 * 4) :
    loop remapHigherHalf 4 s = some (remapped s (phys image.bootPageDirectory) 4) := by
  have habove := image.directory_above
  have hbelow := image.tables_below
  have hstart : remapped s (phys image.bootPageDirectory) 0 = s := by
    rw [remapped, Nat.mul_zero, add_zero_word]
    rfl
  have hturn : ∀ i ≤ 3, remapHigherHalf (remapped s (phys image.bootPageDirectory) i) =
      some (remapped s (phys image.bootPageDirectory) (i + 1)) := by
    intro i hi
    have ht := h.remapped (i := i) (by omega)
    have hsource := image.offset_toNat (i := 4 * 4) (by decide)
    have htarget := image.offset_toNat (i := 4 * i) (by omega)
    have hread : (remapped s (phys image.bootPageDirectory) i).load s.esi = some 0 := by
      rw [hesi, show (4 * 4 : Word) = BitVec.ofNat 32 (4 * 4) from rfl,
        ht.load (by omega) (by omega) (by omega), phys_add, ht.tables.directory 4 (by decide),
        slots_four]
      rfl
    have hread' : Paged image i { remapped s (phys image.bootPageDirectory) i with eax := 0 } :=
      ⟨ht.enabled, ht.cr3, ht.tables⟩
    have hwrite := hread'.store (by omega) (s.edi + BitVec.ofNat 32 (4 * i)) 0
      (by rw [hedi]; omega) (by rw [hedi]; omega)
    refine (congrArg (Option.bind · _) hread).trans ((congrArg (Option.bind · _) hwrite).trans ?_)
    show some _ = some _
    rw [remapped, remapped, if_neg (Nat.succ_ne_zero i), add_word, phys_add, hedi]
    rfl
  have hloop := loop_eq (c := 4) (n := 3) rfl hturn
  rwa [hstart] at hloop

theorem zeroHigherHalf_loop (h : Paged image 4 s) (hedi : s.edi = image.bootPageDirectory + 4 * 4) :
    loop zeroHigherHalf 4 s =
      some (zeroed s (phys image.bootPageDirectory + BitVec.ofNat 32 (4 * 4)) 4) := by
  have habove := image.directory_above
  have hbelow := image.tables_below
  have hstart : zeroed s (phys image.bootPageDirectory + BitVec.ofNat 32 (4 * 4)) 0 = s := by
    rw [zeroed, Nat.mul_zero, add_zero_word]
    rfl
  have hedi' : s.edi = image.bootPageDirectory + BitVec.ofNat 32 (4 * 4) := hedi
  have hturn : ∀ i ≤ 3,
      zeroHigherHalf (zeroed s (phys image.bootPageDirectory + BitVec.ofNat 32 (4 * 4)) i) =
      some (zeroed s (phys image.bootPageDirectory + BitVec.ofNat 32 (4 * 4)) (i + 1)) := by
    intro i hi
    have ht := h.zeroed (i := i) (by omega)
    have htarget := image.offset_toNat (i := 4 * 4 + 4 * i) (by omega)
    have hwrite := ht.store (by omega) (s.edi + BitVec.ofNat 32 (4 * i)) 0
      (by rw [hedi', add_ofNat_add]; omega) (by rw [hedi', add_ofNat_add]; omega)
    refine (congrArg (Option.bind · _) hwrite).trans ?_
    show some _ = some _
    rw [zeroed, zeroed, add_word, phys_add, hedi', phys_add]
    rfl
  have hloop := loop_eq (c := 4) (n := 3) rfl hturn
  rwa [hstart] at hloop

theorem Tables.write {a : Word} (h : Tables image mem slot) (ha : a.toNat % 4 = 0)
    (hbelow : a.toNat < (phys image.bootPageDirectory).toNat) :
    Tables image (write32 mem a w) slot := by
  have halign := image.bootPageDirectory_align
  have hdirectory := image.phys_directory
  have habove := image.directory_above
  have htables := image.tables_below
  have hread : ∀ p, p % 4 = 0 → p < 0x9000 →
      read32 (write32 mem a w) (phys image.bootPageDirectory + BitVec.ofNat 32 p) =
        read32 mem (phys image.bootPageDirectory + BitVec.ofNat 32 p) := by
    intro p hp hlt
    have haddr : (phys image.bootPageDirectory + BitVec.ofNat 32 p).toNat =
        (phys image.bootPageDirectory).toNat + p := by
      rw [BitVec.toNat_add, BitVec.toNat_ofNat]
      omega
    rw [read32_write32_aligned ha (by omega), if_neg fun heq => by
      have := congrArg BitVec.toNat heq
      omega]
  constructor
  · intro i hi
    rw [hread _ (by omega) (by omega), h.directory i hi]
  · intro j hj
    have htable := h.table j hj
    rw [image.table_eq, add_ofNat_add] at htable ⊢
    rw [hread _ (by omega) (by omega), htable]
  · exact h.slot_lt

theorem Paged.push (h : Paged image 4 s) (halign : s.esp.toNat % 4 = 0)
    (hlow : 0xC0000004 ≤ s.esp.toNat) (hhigh : s.esp.toNat ≤ image.bootPageDirectory.toNat) :
    s.push w = some { s with esp := s.esp - 4, mem := write32 s.mem (phys (s.esp - 4)) w } ∧
      Paged image 4 { s with esp := s.esp - 4, mem := write32 s.mem (phys (s.esp - 4)) w } := by
  have habove := image.directory_above
  have hbelow := image.tables_below
  have hdirectory := image.phys_directory
  have hesp : (s.esp - 4).toNat = s.esp.toNat - 4 := by
    refine BitVec.toNat_sub_of_le ?_
    show 4 ≤ s.esp.toNat
    omega
  have hphys : (phys (s.esp - 4)).toNat = (s.esp - 4).toNat - 0xC0000000 :=
    phys_toNat (by omega)
  have hpaged : Paged image 4 { s with esp := s.esp - 4 } := ⟨h.enabled, h.cr3, h.tables⟩
  refine ⟨hpaged.store (by decide) _ _ (by omega) (by omega), h.enabled, h.cr3, ?_⟩
  exact h.tables.write (by omega) (by omega)

/-- What `kernel_main` finds on the stack, and the directory without its lower half. -/
def enteredMemory (image : Image) (ebx hang : Word) (mem : Memory) : Memory :=
  let mem := fill32 mem (phys image.bootPageDirectory) (fun _ => 0) 4
  let mem := fill32 mem (phys image.bootPageDirectory + BitVec.ofNat 32 (4 * 4)) (fun _ => 0) 4
  let mem := write32 mem (phys (image.stackTop - 4)) image.stackTop
  let mem := write32 mem (phys (image.stackTop - 4 - 4)) ebx
  write32 mem (phys (image.stackTop - 4 - 4 - 4)) hang

/-- The lower half is taken out, and the stack is not used yet. -/
def switched (image : Image) (s : Cpu) : Cpu :=
  let s := { s with edi := image.bootPageDirectory, esi := image.bootPageDirectory + 4 * 4 }
  let s := remapped s (phys image.bootPageDirectory) 4
  let s := zeroed { s with edi := s.esi } (phys image.bootPageDirectory + BitVec.ofNat 32 (4 * 4)) 4
  { s with esp := image.stackTop }

theorem higherKernelStart_eq (h : Paged image 0 s) (hang : Word) :
    higherKernelStart image hang s = (do
      let s ← (switched image s).push image.stackTop
      let s ← s.push s.ebx
      s.push hang) ∧ Paged image 4 (switched image s) := by
  have hstart : Paged image 0
      { s with edi := image.bootPageDirectory, esi := image.bootPageDirectory + 4 * 4 } :=
    ⟨h.enabled, h.cr3, h.tables⟩
  have hremapped := hstart.remapped (i := 4) le_rfl
  have hcleared : Paged image 4 { remapped
      { s with edi := image.bootPageDirectory, esi := image.bootPageDirectory + 4 * 4 }
      (phys image.bootPageDirectory) 4 with edi := image.bootPageDirectory + 4 * 4 } :=
    ⟨hremapped.enabled, hremapped.cr3, hremapped.tables⟩
  have hzeroed := hcleared.zeroed (i := 4) le_rfl
  refine ⟨?_, hzeroed.enabled, hzeroed.cr3, hzeroed.tables⟩
  refine (congrArg (Option.bind · _) (remapHigherHalf_loop hstart rfl rfl)).trans ?_
  exact congrArg (Option.bind · _) (zeroHigherHalf_loop hcleared rfl)

theorem higherKernelStart_spec (h : Paged image 0 s) (hang : Word) :
    ∃ s', higherKernelStart image hang s = some s' ∧ Paged image 4 s' ∧
      s'.esp = image.stackTop - 4 - 4 - 4 ∧ s'.mem = enteredMemory image s.ebx hang s.mem := by
  have halign := image.stackTop_align
  have habove := image.stackTop_above
  have hbelow := image.stackTop_below
  have htables := image.tables_below
  obtain ⟨heq, hpaged⟩ := higherKernelStart_eq h hang
  have hesp₀ : (switched image s).esp.toNat = image.stackTop.toNat := rfl
  have hesp₁ : ((switched image s).esp - 4).toNat = image.stackTop.toNat - 4 := by bv_omega
  have hesp₂ : ((switched image s).esp - 4 - 4).toNat = image.stackTop.toNat - 8 := by bv_omega
  obtain ⟨hpush₁, hpaged₁⟩ := hpaged.push (w := image.stackTop) (by omega) (by omega) (by omega)
  obtain ⟨hpush₂, hpaged₂⟩ := hpaged₁.push (w := s.ebx) (by dsimp only; omega)
    (by dsimp only; omega) (by dsimp only; omega)
  obtain ⟨hpush₃, hpaged₃⟩ := hpaged₂.push (w := hang) (by dsimp only; omega)
    (by dsimp only; omega) (by dsimp only; omega)
  refine ⟨_, ?_, hpaged₃, rfl, rfl⟩
  rw [heq]
  exact (congrArg (Option.bind · _) hpush₁).trans
    ((congrArg (Option.bind · _) hpush₂).trans hpush₃)

theorem write32_of_le {a b : Word} (h : 4 ≤ (b - a).toNat) : write32 mem a w b = mem b :=
  if_neg (Nat.not_lt.mpr h)

/-- The memory that the loader has stored to: the top of the stack, the directory and the
tables. -/
def Image.Stores (image : Image) (a : Word) : Prop :=
  phys image.stackTop - 12 ≤ a ∧ a < phys image.stackTop ∨
    phys image.bootPageDirectory ≤ a ∧ a < phys image.bootPageDirectory + 0x9000

theorem enteredMemory_frame {a ebx hang : Word} (ha : ¬image.Stores a) :
    enteredMemory image ebx hang (bootMemory image mem) a = mem a := by
  have halign := image.stackTop_align
  have habove := image.stackTop_above
  have hbelow := image.stackTop_below
  have htables := image.tables_below
  have hdirectory := image.phys_directory
  have htable := image.phys_table
  have hstack : (phys image.stackTop).toNat = image.stackTop.toNat - 0xC0000000 :=
    phys_toNat (by omega)
  have hphys : ∀ x y : Word, phys (x - y) = phys x - y := fun x y => sub_right_comm ..
  rw [Image.Stores] at ha
  simp only [enteredMemory, hphys]
  rw [write32_of_le (by bv_omega), write32_of_le (by bv_omega), write32_of_le (by bv_omega),
    fill32_of_le (by decide) (by bv_omega), fill32_of_le (by decide) (by bv_omega), bootMemory, image.table_eq]
  rw [fill32_of_le (by decide) (by bv_omega), fill32_of_le (by decide) (by bv_omega),
    fill32_of_le (by decide) (by bv_omega), fill32_of_le (by decide) (by bv_omega)]

theorem enteredMemory_stack (image : Image) (ebx hang : Word) (mem : Memory) :
    read32 (enteredMemory image ebx hang mem) (phys (image.stackTop - 4 - 4 - 4)) = hang ∧
      read32 (enteredMemory image ebx hang mem) (phys (image.stackTop - 4 - 4)) = ebx ∧
      read32 (enteredMemory image ebx hang mem) (phys (image.stackTop - 4)) = image.stackTop := by
  have halign := image.stackTop_align
  have habove := image.stackTop_above
  have hphys : (phys image.stackTop).toNat = image.stackTop.toNat - 0xC0000000 :=
    phys_toNat (by omega)
  have hsub : ∀ x y : Word, phys (x - y) = phys x - y := fun x y => sub_right_comm ..
  simp only [enteredMemory, hsub]
  refine ⟨read32_write32 .., ?_, ?_⟩
  · rw [read32_write32_aligned (by bv_omega) (by bv_omega), if_neg (by bv_omega), read32_write32]
  · rw [read32_write32_aligned (by bv_omega) (by bv_omega), if_neg (by bv_omega),
      read32_write32_aligned (by bv_omega) (by bv_omega), if_neg (by bv_omega), read32_write32]

theorem pagingEnabled_paged (hpaging : s.cr0 &&& 0x80000000 = 0)
    (hbss : ∀ i < 1024, read32 s.mem (phys image.bootPageDirectory + BitVec.ofNat 32 (4 * i)) = 0) :
    Paged image 0 (pagingEnabled image s) where
  enabled := by
    rw [pagingEnabled_cr0, BitVec.and_or_distrib_right, hpaging]
    decide
  cr3 := rfl
  tables := pagingEnabled_mem ▸ bootMemory_tables hbss

/-- From zeroed tables the loader reaches `kernel_main` without a fault. The code that switches
paging on is mapped in place, and `kernel_main` has the first 16 MB at `VIRT_BASE` and nothing
else, its arguments on the stack, and the rest of the memory as the boot loader left it. -/
theorem kernel_start_maps (image : Image) (hang : Word) (s : Cpu)
    (hpaging : s.cr0 &&& 0x80000000 = 0)
    (hbss : ∀ i < 1024, read32 s.mem (phys image.bootPageDirectory + BitVec.ofNat 32 (4 * i)) = 0) :
    ∃ s₁ s₂, kernelStart image s = some s₁ ∧ higherKernelStart image hang s₁ = some s₂ ∧
      (∀ access va, s₁.address access va =
        if va < kernelLowerTables * tableSize then some va else window va) ∧
      (∀ access va, s₂.address access va = window va) ∧
      s₂.load s₂.esp = some hang ∧ s₂.load (s₂.esp + 4) = some s.ebx ∧
      s₂.load (s₂.esp + 8) = some image.stackTop ∧
      ∀ a, ¬image.Stores a → s₂.mem a = s.mem a := by
  have habove := image.stackTop_above
  have hbelow := image.stackTop_below
  have htables := image.tables_below
  have hpaged := pagingEnabled_paged hpaging hbss
  obtain ⟨s₂, heq, hpaged₂, hesp, hmem⟩ := higherKernelStart_spec hpaged hang
  obtain ⟨hret, hmultiboot, hkstack⟩ := enteredMemory_stack image (pagingEnabled image s).ebx hang
    (pagingEnabled image s).mem
  have hload : ∀ va : Word, 0xC0000000 ≤ va.toNat → va.toNat < 0xC1000000 →
      s₂.load va = some (read32 (enteredMemory image (pagingEnabled image s).ebx hang
        (pagingEnabled image s).mem) (phys va)) := by
    intro va hlow hhigh
    rw [hpaged₂.load le_rfl hlow hhigh, hmem]
  refine ⟨_, s₂, kernelStart_eq hpaging, heq, fun access va => ?_, fun access va => ?_, ?_, ?_, ?_,
    fun a ha => ?_⟩
  · rw [hpaged.address (Nat.zero_le 4), mapped]
    refine if_congr ?_ rfl rfl
    rw [Nat.zero_mul, BitVec.lt_def]
    exact and_iff_right (Nat.zero_le _)
  · rw [hpaged₂.address le_rfl, mapped, if_neg (by omega)]
  · rw [hesp, hload _ (by bv_omega) (by bv_omega), hret]
  · have haddr : image.stackTop - 4 - 4 - 4 + 4 = image.stackTop - 4 - 4 := sub_add_cancel ..
    rw [hesp, haddr, hload _ (by bv_omega) (by bv_omega), hmultiboot,
      pagingEnabled_ebx]
  · have haddr : image.stackTop - 4 - 4 - 4 + 8 = image.stackTop - 4 := by bv_omega
    rw [hesp, haddr, hload _ (by bv_omega) (by bv_omega), hkstack]
  · rw [hmem, pagingEnabled_mem]
    exact enteredMemory_frame ha

/-- An image with the tables right above the stack, loaded into zeroed memory. -/
theorem kernel_start_maps_zeroed : ∃ (image : Image) (s₁ s₂ : Cpu),
    kernelStart image ⟨0, 0x10000, 0, 0, 0, 0, 0x11, 0, fun _ => 0⟩ = some s₁ ∧
      higherKernelStart image 0xC0100020 s₁ = some s₂ ∧ s₂.load (s₂.esp + 4) = some 0x10000 := by
  obtain ⟨s₁, s₂, h₁, h₂, -, -, -, hmultiboot, -⟩ := kernel_start_maps
    ⟨0xC0110000, 0xC0110000, by decide, by decide, by decide, by decide, by decide⟩ 0xC0100020
    ⟨0, 0x10000, 0, 0, 0, 0, 0x11, 0, fun _ => 0⟩ (by decide) fun _ _ =>
      show 0#8 ++ 0#8 ++ 0#8 ++ 0#8 = 0#32 by decide
  exact ⟨_, s₁, s₂, h₁, h₂, hmultiboot⟩

end RubiKernel.Boot
