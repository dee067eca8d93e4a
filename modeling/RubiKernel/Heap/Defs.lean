import RubiKernel.Slist
import RubiKernel.Types

/-! `memory/heap.c`: `kmalloc` and `kfree` over the list of blocks. -/

namespace RubiKernel.Heap

structure KheapEntry where
  addr : Word
  size : Word
  isBusy : Bool
  deriving DecidableEq

instance : Inhabited KheapEntry := ⟨⟨0, 0, false⟩⟩

abbrev Kheap := SlistDef KheapEntry

def kheapSlots : Nat := 2048

/-- The heap as the kernel image initialises it. -/
def kheapList : Kheap where
  slots := kheapSlots
  head := none
  tail := none
  links := fun _ => default
  body := fun _ => default

def kheapStartAddr : Word := virt (tableSize * kernelLowerTables)

def kheapSize : Word := 2 * tableSize

/-- How a call can fail to return: it follows a NULL pointer, or its loop does
not come to an end. -/
inductive KheapFault
  | nullDeref
  | endless
  deriving DecidableEq

/-- The entry `p->data` of a list node. -/
def entryOf (h : Kheap) (p : Nat) : Except KheapFault Nat :=
  match (h.links p).data with
  | some e => .ok e
  | none => .error .nullDeref

def neighbour (h : Kheap) : Option Nat → Except KheapFault (Option Nat)
  | none => .ok none
  | some p => return some (← entryOf h p)

/-- The neighbour's entry when there is one and it is not busy. -/
def freeEntry (h : Kheap) (e : Option Nat) : Option Nat :=
  e.filter fun e => !(h.body e).isBusy

/-- Where the loop of `kmalloc` leaves: stealing the difference from the left
neighbour, forgetting it at the end of the list, taking a block that is large
enough, or falling through to the new block at the end. -/
inductive KmallocExit
  | steal (sl entry prev : Nat) (sizeDiff : Word)
  | extend (entry : Nat) (sizeDiff : Word)
  | take (sl entry : Nat)
  | append
  deriving DecidableEq

def kmallocScan (h : Kheap) (size : Word) : Nat → Option Nat → Except KheapFault KmallocExit
  | _, none => .ok .append
  | 0, some _ => .error .endless
  | fuel + 1, some sl => do
    let current ← entryOf h sl
    if (h.body current).isBusy then
      kmallocScan h size fuel (h.links sl).next
    else if (h.body current).size < size then
      let sizeDiff := size - (h.body current).size
      match freeEntry h (← neighbour h (h.links sl).prev) with
      | some prev => return .steal sl current prev sizeDiff
      | none =>
        if (h.links sl).next = none ∧
            (h.body current).addr + (h.body current).size + sizeDiff <
              kheapStartAddr + kheapSize then
          return .extend current sizeDiff
        else
          kmallocScan h size fuel (h.links sl).next
    else
      return .take sl current

def stealDiff (h : Kheap) (sl current prev : Nat) (sizeDiff : Word) : Kheap × Word :=
  let h := h.modifyBody prev fun e => { e with size := e.size - sizeDiff }
  let h := h.modifyBody current fun e =>
    { e with addr := e.addr - sizeDiff, size := e.size + sizeDiff }
  let h := if (h.body prev).size = 0 then slistDelete h (h.links sl).prev else h
  let h := h.modifyBody current fun e => { e with isBusy := true }
  (h, (h.body current).addr)

def extendLast (h : Kheap) (current : Nat) (sizeDiff : Word) : Kheap × Word :=
  let h := h.modifyBody current fun e => { e with size := e.size + sizeDiff }
  let h := h.modifyBody current fun e => { e with isBusy := true }
  (h, (h.body current).addr)

/-- The right sibling takes the rest of the block. -/
def giveDiff (h : Kheap) (current next : Nat) (sizeDiff : Word) : Kheap :=
  let h := h.modifyBody current fun e => { e with size := e.size - sizeDiff }
  h.modifyBody next fun e => { e with addr := e.addr - sizeDiff, size := e.size + sizeDiff }

/-- A new node takes the rest of the block. -/
def splitBlock (h : Kheap) (current next : Nat) (sizeDiff : Word) : Kheap :=
  let h := h.modifyBody current fun e => { e with size := e.size - sizeDiff }
  h.modifyBody next fun _ =>
    { isBusy := false
      addr := (h.body current).addr + (h.body current).size
      size := sizeDiff }

def takeBlock (h : Kheap) (size : Word) (sl current : Nat) : Except KheapFault (Kheap × Word) := do
  let h := h.modifyBody current fun e => { e with isBusy := true }
  let sizeDiff := (h.body current).size - size
  match freeEntry h (← neighbour h (h.links sl).next) with
  | some next =>
    let h := giveDiff h current next sizeDiff
    return (h, (h.body current).addr)
  | none =>
    match slistInsertAfter h (some sl) with
    | (_, none) => throw .nullDeref
    | (h, some elem) =>
      match (h.links elem).data with
      | none => return (h, (h.body current).addr)
      | some next =>
        let h := splitBlock h current next sizeDiff
        return (h, (h.body current).addr)

def appendBlock (h : Kheap) (size : Word) : Except KheapFault (Kheap × Word) := do
  let allocAddr ←
    match ← neighbour h h.tail with
    | none => pure kheapStartAddr
    | some last => pure ((h.body last).addr + (h.body last).size)
  if kheapStartAddr + kheapSize ≤ allocAddr then
    return (h, 0)
  else
    match slistInsertAfter h h.tail with
    | (_, none) => throw .nullDeref
    | (h, some elem) =>
      let current ← entryOf h elem
      return (h.modifyBody current fun _ => { isBusy := true, addr := allocAddr, size := size },
        allocAddr)

def kmalloc (h : Kheap) (size : Word) : Except KheapFault (Kheap × Word) := do
  match ← kmallocScan h size h.slots h.head with
  | .steal sl current prev sizeDiff => return stealDiff h sl current prev sizeDiff
  | .extend current sizeDiff => return extendLast h current sizeDiff
  | .take sl current => takeBlock h size sl current
  | .append => appendBlock h size

/-- The first busy node whose block starts at `ptr`. -/
def kfreeScan (h : Kheap) (ptr : Word) :
    Nat → Option Nat → Except KheapFault (Option (Nat × Nat))
  | _, none => .ok none
  | 0, some _ => .error .endless
  | fuel + 1, some sl => do
    let current ← entryOf h sl
    if (h.body current).isBusy ∧ (h.body current).addr = ptr then
      return some (sl, current)
    else
      kfreeScan h ptr fuel (h.links sl).next

/-- `current` takes over the size of `entry`, whose node `sl` is deleted. -/
def absorb (h : Kheap) (current entry sl : Nat) : Kheap :=
  let h := h.modifyBody current fun e => { e with size := e.size + (h.body entry).size }
  slistDelete h (some sl)

def releaseBlock (h : Kheap) (sl current : Nat) : Except KheapFault Kheap := do
  let prev ← neighbour h (h.links sl).prev
  let next ← neighbour h (h.links sl).next
  let h := h.modifyBody current fun e => { e with isBusy := false }
  let (h, current) :=
    match freeEntry h prev with
    | some prev => (absorb h prev current sl, prev)
    | none => (h, current)
  match freeEntry h next with
  | some next => return absorb h current next next
  | none => return h

def kfree (h : Kheap) (ptr : Word) : Except KheapFault Kheap := do
  match ← kfreeScan h ptr h.slots h.head with
  | some (sl, current) => releaseBlock h sl current
  | none => return h

end RubiKernel.Heap
