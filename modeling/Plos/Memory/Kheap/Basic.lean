import Plos.Lib.Word
import Plos.Memory.Pmm.Frames

/-! The kernel heap of `memory/kheap.c`.

Memory is a map from addresses to the headers written there; a header that is no longer on the list
keeps its contents. A pointer is its address and `NULL` is 0. The functions that only touch the node
list are on `Kheap`. `kheap_extend` takes a frame for each new page from the physical memory manager
and maps it in the kernel's tables, so it is on `HeapMachine`, and so are the functions that call
it.

A loop over the nodes gets its number of rounds from the number of nodes ever made, and answers
`none` if it has not ended by then. -/

namespace Plos

/-- `sizeof(struct kheap_node)`. -/
abbrev kheapNodeSize : Nat := 24

abbrev kheapPageSize : Nat := 4096
def kheapStartingSize : Nat := 0x100000
abbrev kheapMinSplittingSize : Nat := 16
abbrev kheapBlockSize : Nat := 16
def kheapExtendingAmount : Nat := 0x100000

structure KheapNode where
  size : Nat
  isFree : Bool
  next : Nat
  deriving DecidableEq, Repr

structure Kheap where
  node : Nat → KheapNode
  kheapStart : Nat
  kheapEnd : Nat
  kheapHead : Nat
  /-- how many nodes have been made -/
  made : Nat

def Kheap.setNode (s : Kheap) (x : Nat) (node : KheapNode) : Kheap :=
  { s with node := Function.update s.node x node }

/-! ## Extending -/

/-- `while(current != NULL && current->next != NULL) current = current->next`. -/
def kheapLast (node : Nat → KheapNode) : Nat → (current : Nat) → Option Nat
  | 0, _ => none
  | n + 1, current =>
    if current = 0 ∨ (node current).next = 0 then some current
    else kheapLast node n (node current).next

/-- The part of `kheap_extend` after the pages have been mapped. -/
def kheapGrow (s : Kheap) (current bytes : Nat) : Kheap :=
  let s :=
    if current = 0 ∨ (s.node current).isFree = false then
      let new := s.kheapEnd
      let s := { s.setNode new ⟨sub64 bytes kheapNodeSize, true, 0⟩ with made := s.made + 1 }
      if current = 0 then { s with kheapHead := new }
      else s.setNode current { s.node current with next := new }
    else s.setNode current { s.node current with size := add64 (s.node current).size bytes }
  { s with kheapEnd := add64 s.kheapEnd bytes }

/-- The heap starts 1 MB after the end of the kernel, at a page boundary. -/
def kheapStartOf (kernelEnd : Nat) : Nat :=
  let start := add64 kernelEnd 0x100000
  if start % kheapPageSize ≠ 0 then add64 start (kheapPageSize - start % kheapPageSize) else start

/-! ## Allocating -/

/-- Align the size to 16 bytes. -/
def blockAlignUp (size : Nat) : Nat :=
  if size % kheapBlockSize ≠ 0 then add64 size (kheapBlockSize - size % kheapBlockSize) else size

/-- The inner loop of `kmalloc`: the first free node that is big enough. -/
def kmallocSearch (node : Nat → KheapNode) (size : Nat) :
    Nat → (current : Nat) → Option (Option Nat)
  | 0, _ => none
  | n + 1, current =>
    if current = 0 then some none
    else if (node current).isFree ∧ size ≤ (node current).size then some (some current)
    else kmallocSearch node size n (node current).next

/-- The node that was found is split if the rest is big enough, and taken. -/
def kmallocTake (s : Kheap) (current size : Nat) : Kheap :=
  let s :=
    if kheapNodeSize + kheapMinSplittingSize ≤ sub64 (s.node current).size size then
      let new := add64 (add64 current kheapNodeSize) size
      let rest := sub64 (sub64 (s.node current).size size) kheapNodeSize
      let s := { s.setNode new ⟨rest, true, (s.node current).next⟩ with made := s.made + 1 }
      s.setNode current { s.node current with next := new, size := size }
    else s
  s.setNode current { s.node current with isFree := false }

/-! ## Freeing -/

/-- It advances only if it has not merged. -/
def kheapCoalesce : Nat → Kheap → (current : Nat) → Option Kheap
  | 0, _, _ => none
  | n + 1, s, current =>
    if current = 0 ∨ (s.node current).next = 0 then some s
    else
      let next := (s.node current).next
      if (s.node current).isFree ∧ (s.node next).isFree then
        let size := add64 (s.node current).size (add64 (s.node next).size kheapNodeSize)
        let s := s.setNode current { s.node current with size := size }
        kheapCoalesce n (s.setNode current { s.node current with next := (s.node next).next })
          current
      else kheapCoalesce n s next

def kfree (s : Kheap) (ptr : Nat) : Option Kheap :=
  if ptr = 0 then some s
  else
    let node := sub64 ptr kheapNodeSize
    -- double free
    if (s.node node).isFree then some s
    else
      let s := s.setNode node { s.node node with isFree := true }
      kheapCoalesce (s.made + 1) s s.kheapHead

/-! ## The heap on the machine -/

structure HeapMachine where
  heap : Kheap
  machine : Machine Pmm

/-- The loop of `kheap_extend`: whether there was a frame for every page. There is no result if a
table could not be allocated. -/
def kheapExtendLoop (root limit : Nat) :
    Nat → (virtual : Nat) → Machine Pmm → Option (Machine Pmm × Bool)
  | 0, _, m => some (m, true)
  | n + 1, virtual, m =>
    if virtual < limit then
      let (frames, newPage) := pmmFrames.alloc m.frames
      if newPage = 0 then some (⟨m.mem, frames⟩, false)
      else
        match pagingMapPage pmmFrames ⟨m.mem, frames⟩ root virtual newPage
          (pteFlagRw ||| pteFlagGlobal) false with
        | none => none
        | some m => kheapExtendLoop root limit n (add64 virtual kheapPageSize) m
    else some (m, true)

namespace HeapMachine

def kheapExtend (root : Nat) (s : HeapMachine) (size : Nat) : Option (HeapMachine × Bool) :=
  let numPages := size / kheapPageSize + if size % kheapPageSize ≠ 0 then 1 else 0
  let bytes := numPages * kheapPageSize % 2 ^ 64
  match kheapExtendLoop root (add64 s.heap.kheapEnd bytes) numPages s.heap.kheapEnd s.machine with
  | none => none
  | some (m, false) => some (⟨s.heap, m⟩, false)
  | some (m, true) =>
    match kheapLast s.heap.node (s.heap.made + 1) s.heap.kheapHead with
    | none => none
    | some current => some (⟨kheapGrow s.heap current bytes, m⟩, true)

/-- The heap before the first extension. -/
def empty (start : Nat) (m : Machine Pmm) : HeapMachine :=
  ⟨⟨fun _ => ⟨0, false, 0⟩, start, start, 0, 0⟩, m⟩

/-- Whether the first extension goes through is not checked. -/
def kheapInit (root kernelEnd : Nat) (m : Machine Pmm) : Option HeapMachine :=
  (kheapExtend root (empty (kheapStartOf kernelEnd) m) kheapStartingSize).map Prod.fst

/-- The node that a round of `kmalloc` finds. -/
def search (s : HeapMachine) (size : Nat) : Option (Option Nat) :=
  kmallocSearch s.heap.node (blockAlignUp size) (s.heap.made + 1) s.heap.kheapHead

/-- A round of the outer loop of `kmalloc`: the pointer it returns, unless the loop goes on. -/
def kmallocRound (root size : Nat) (s : HeapMachine) : Option (HeapMachine × Option Nat) :=
  match s.search size with
  | none => none
  | some (some current) =>
    some (⟨kmallocTake s.heap current (blockAlignUp size), s.machine⟩,
      some (add64 current kheapNodeSize))
  | some none =>
    match kheapExtend root s kheapExtendingAmount with
    | none => none
    | some (s, false) => some (s, some 0)
    | some (s, true) => some (s, none)

def kmalloc (root size : Nat) : Nat → HeapMachine → Option (HeapMachine × Nat)
  | 0, _ => none
  | n + 1, s =>
    match kmallocRound root size s with
    | none => none
    | some (s, some ptr) => some (s, ptr)
    | some (s, none) => kmalloc root size n s

end HeapMachine

end Plos
