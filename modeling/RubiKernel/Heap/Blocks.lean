import RubiKernel.Heap.Defs
import RubiKernel.Lib.Tiling

/-! The heap as a sequence of blocks: what one call of `kmalloc` or `kfree` does
to the sequence, and that it keeps the blocks adjacent and no two free blocks
side by side. -/

namespace RubiKernel.Heap

open Tiling

abbrev kheapLimit : Word := kheapStartAddr + kheapSize

/-- The blocks lie one after the other from the start of the heap. -/
abbrev Adjacent (es : List KheapEntry) : Prop :=
  Tiled KheapEntry.addr KheapEntry.size kheapStartAddr es

abbrev blocksEnd (es : List KheapEntry) : Word := endFrom KheapEntry.size kheapStartAddr es

/-- No two neighbouring blocks are both free. -/
abbrev Coalesced (es : List KheapEntry) : Prop :=
  es.IsChain fun a b => a.isBusy = true ∨ b.isBusy = true

structure WellFormed (es : List KheapEntry) : Prop where
  adjacent : Adjacent es
  coalesced : Coalesced es

/-- A block that the loop of `kmalloc` does not take for `size` bytes. -/
def Unfit (size : Word) (e : KheapEntry) : Prop := e.isBusy = true ∨ e.size < size

/-- The last block is free and `size` bytes from its start on end, counted in
32 bits, below the limit. -/
def Extendable (size : Word) (es : List KheapEntry) : Prop :=
  ∃ e ∈ es.getLast?, e.isBusy = false ∧ e.addr + size < kheapLimit

instance {size : Word} {es : List KheapEntry} : Decidable (Extendable size es) :=
  inferInstanceAs (Decidable (∃ e ∈ es.getLast?, _))

/-- `kmalloc` on the sequence of blocks: the sequence it leaves and the address
it returns. -/
inductive BlockMalloc (size : Word) : List KheapEntry → List KheapEntry → Word → Prop
  | extend {pre c} (free : c.isBusy = false) (small : c.size < size)
      (unfit : ∀ e ∈ pre, Unfit size e) (room : c.addr + size < kheapLimit) :
      BlockMalloc size (pre ++ [c]) (pre ++ [⟨c.addr, size, true⟩]) c.addr
  | split {pre c post} (free : c.isBusy = false) (fit : size ≤ c.size) :
      BlockMalloc size (pre ++ c :: post)
        (pre ++ ⟨c.addr, size, true⟩ :: ⟨c.addr + size, c.size - size, false⟩ :: post) c.addr
  | append {es} (unfit : ∀ e ∈ es, Unfit size e) (stuck : ¬Extendable size es)
      (room : blocksEnd es < kheapLimit) :
      BlockMalloc size es (es ++ [⟨blocksEnd es, size, true⟩]) (blocksEnd es)
  | full {es} (unfit : ∀ e ∈ es, Unfit size e) (stuck : ¬Extendable size es)
      (full : kheapLimit ≤ blocksEnd es) : BlockMalloc size es es 0

def mergeNext (c : KheapEntry) : List KheapEntry → List KheapEntry
  | [] => [c]
  | n :: post => if n.isBusy then c :: n :: post else { c with size := c.size + n.size } :: post

/-- `kfree` on the sequence of blocks. -/
inductive BlockFree (ptr : Word) : List KheapEntry → List KheapEntry → Prop
  | miss {es} (dead : ∀ e ∈ es, e.isBusy = true → e.addr ≠ ptr) : BlockFree ptr es es
  | release {pre c post} (busy : c.isBusy = true) (hit : c.addr = ptr)
      (prev : ∀ p ∈ pre.getLast?, p.isBusy = true) :
      BlockFree ptr (pre ++ c :: post) (pre ++ mergeNext { c with isBusy := false } post)
  | merge {pre p c post} (busy : c.isBusy = true) (hit : c.addr = ptr) (prev : p.isBusy = false) :
      BlockFree ptr (pre ++ p :: c :: post) (pre ++ mergeNext { p with size := p.size + c.size } post)

variable {size ptr ret : Word} {es es' pre post : List KheapEntry} {c : KheapEntry}

theorem WellFormed.nil : WellFormed [] := ⟨tiled_nil, List.isChain_nil⟩

theorem coalesced_busy (hc : c.isBusy = true) :
    Coalesced (pre ++ c :: post) ↔ Coalesced pre ∧ Coalesced post := by
  simp [List.isChain_append, List.isChain_cons, hc]

theorem coalesced_free (hc : c.isBusy = false) :
    Coalesced (pre ++ c :: post) ↔
      (Coalesced pre ∧ ∀ p ∈ pre.getLast?, p.isBusy = true) ∧
        (Coalesced post ∧ ∀ n ∈ post.head?, n.isBusy = true) := by
  simp only [List.isChain_append, List.isChain_cons, List.head?_cons, Option.mem_some_iff,
    forall_eq', hc, Bool.false_eq_true, false_or, or_false]
  tauto

theorem coalesced_cons_busy (hc : c.isBusy = true) : Coalesced (c :: post) ↔ Coalesced post := by
  simp [List.isChain_cons, hc]

theorem coalesced_cons_free (hc : c.isBusy = false) :
    Coalesced (c :: post) ↔ Coalesced post ∧ ∀ n ∈ post.head?, n.isBusy = true := by
  simp [List.isChain_cons, hc, and_comm]

theorem Adjacent.mergeNext {start : Word}
    (h : Tiled KheapEntry.addr KheapEntry.size start (c :: post)) :
    Tiled KheapEntry.addr KheapEntry.size start (mergeNext c post) := by
  cases post with
  | nil => exact h
  | cons n post =>
    simp only [tiled_cons] at h
    cases hn : n.isBusy with
    | true => simpa [Heap.mergeNext, hn] using h
    | false =>
      have hend : start + (c.size + n.size) = start + c.size + n.size := (add_assoc ..).symm
      simpa [Heap.mergeNext, hn, hend] using ⟨h.1, h.2.2⟩

theorem Coalesced.mergeNext (hc : c.isBusy = false) (hpre : Coalesced pre)
    (hlast : ∀ p ∈ pre.getLast?, p.isBusy = true) (hpost : Coalesced post) :
    Coalesced (pre ++ mergeNext c post) := by
  cases post with
  | nil => exact (coalesced_free hc).mpr ⟨⟨hpre, hlast⟩, List.isChain_nil, by simp⟩
  | cons n post =>
    cases hn : n.isBusy with
    | true =>
      simp only [Heap.mergeNext, hn, if_true]
      exact (coalesced_free hc).mpr ⟨⟨hpre, hlast⟩, hpost, by simp [hn]⟩
    | false =>
      simp only [Heap.mergeNext, hn, Bool.false_eq_true, if_false]
      exact (coalesced_free (by exact hc)).mpr ⟨⟨hpre, hlast⟩, (coalesced_cons_free hn).mp hpost⟩

theorem BlockMalloc.wellFormed (h : BlockMalloc size es es' ret) (hes : WellFormed es) :
    WellFormed es' := by
  obtain ⟨hadj, hcoal⟩ := hes
  cases h with
  | extend free small unfit room =>
    constructor
    · simpa using hadj
    · exact (coalesced_busy rfl).mpr ⟨((coalesced_free free).mp hcoal).1.1, List.isChain_nil⟩
  | split free fit =>
    obtain ⟨⟨hpre, -⟩, hpost, hnext⟩ := (coalesced_free free).mp hcoal
    constructor
    · simpa [add_assoc] using hadj
    · exact (coalesced_busy rfl).mpr ⟨hpre, (coalesced_cons_free rfl).mpr ⟨hpost, hnext⟩⟩
  | append unfit stuck room =>
    constructor
    · simpa using hadj
    · exact (coalesced_busy rfl).mpr ⟨hcoal, List.isChain_nil⟩
  | full unfit stuck full => exact ⟨hadj, hcoal⟩

theorem BlockFree.wellFormed (h : BlockFree ptr es es') (hes : WellFormed es) :
    WellFormed es' := by
  obtain ⟨hadj, hcoal⟩ := hes
  cases h with
  | miss dead => exact ⟨hadj, hcoal⟩
  | release busy hit prev =>
    obtain ⟨hpre, hpost⟩ := (coalesced_busy busy).mp hcoal
    rw [Adjacent, tiled_append] at hadj
    exact ⟨tiled_append.mpr ⟨hadj.1, Adjacent.mergeNext hadj.2⟩,
      Coalesced.mergeNext rfl hpre prev hpost⟩
  | @merge pre p c post busy hit prev =>
    obtain ⟨⟨hpre, hlast⟩, hcpost, -⟩ := (coalesced_free prev).mp hcoal
    have hpost := (coalesced_cons_busy busy).mp hcpost
    simp only [Adjacent, tiled_append, tiled_cons] at hadj
    obtain ⟨hadj, hp, -, htail⟩ := hadj
    refine ⟨tiled_append.mpr ⟨hadj, Adjacent.mergeNext ⟨hp, ?_⟩⟩,
      Coalesced.mergeNext prev hpre hlast hpost⟩
    rwa [← add_assoc]

end RubiKernel.Heap
