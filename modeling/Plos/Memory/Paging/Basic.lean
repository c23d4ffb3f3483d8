import Mathlib.Logic.Function.Basic
import Plos.Lib.Word

/-! The four-level page tables of `memory/paging.c`, and the walk that the processor makes.

`mem` gives the 64-bit entry at a physical address. The tables are read and written through the
higher half direct map, which is an offset, so a pointer into it is its physical address here, and
it is never null. The physical memory manager is a parameter: `alloc` is
`pmm_alloc(PAGING_PAGE_SIZE)` and `decRef` is `pmm_page_dec_ref`. A call that stops the machine with
`hcf` has no result. The invalidation of the TLB is not modelled. -/

namespace Plos

abbrev pagingPageSize : Nat := 4096
abbrev pagingHugePageSize : Nat := 0x200000

abbrev pteFlagPresent : Nat := 1 <<< 0
abbrev pteFlagRw : Nat := 1 <<< 1
abbrev pteFlagUs : Nat := 1 <<< 2
abbrev pteFlagPwt : Nat := 1 <<< 3
abbrev pteFlagPcd : Nat := 1 <<< 4
abbrev pteFlagPs : Nat := 1 <<< 7
abbrev pteFlagGlobal : Nat := 1 <<< 8
abbrev pteFlagNoExec : Nat := 1 <<< 63

def pagingGetPml4Index (virtAddress : Nat) : Nat := (virtAddress >>> 39) &&& 0x1FF
def pagingGetPdprIndex (virtAddress : Nat) : Nat := (virtAddress >>> 30) &&& 0x1FF
def pagingGetPdIndex (virtAddress : Nat) : Nat := (virtAddress >>> 21) &&& 0x1FF
def pagingGetPtIndex (virtAddress : Nat) : Nat := (virtAddress >>> 12) &&& 0x1FF

abbrev pagingPteAddrMask : Nat := 0x000FFFFFFFFFF000

/-- The address of `hhdm.c` in the direct map, which starts at `offset`. -/
def hhdmPhysToVirt (offset physicalAddr : Nat) : Nat := add64 physicalAddr offset

/-- The functions of the physical memory manager that paging uses; `alloc` returns 0 on failure. -/
structure FrameAllocator (α : Type) where
  alloc : α → α × Nat
  decRef : α → Nat → α

/-- The memory that holds page tables, and the physical memory manager. -/
structure Machine (α : Type) where
  mem : Nat → Nat
  frames : α

/-- `&table[index]`. -/
def entryAddr (table index : Nat) : Nat := table + 8 * index

/-- `memset(page, 0x00, PAGING_PAGE_SIZE)`. -/
def memsetPage (mem : Nat → Nat) (phys : Nat) : Nat → Nat :=
  fun x => if phys ≤ x ∧ x < phys + pagingPageSize then 0 else mem x

variable {α : Type} (A : FrameAllocator α)

/-- One level of `vmm_get_pte`: the table that an entry points to, which is allocated if it is
missing and `allocate` is set. -/
def vmmNextTable (m : Machine α) (table index : Nat) (allocate : Bool) : Machine α × Option Nat :=
  if m.mem (entryAddr table index) &&& pteFlagPresent = 0 then
    if allocate = false then (m, none)
    else
      let (frames, phys) := A.alloc m.frames
      if phys = 0 then ({ m with frames }, none)
      else
        let mem := memsetPage m.mem phys
        let mem := Function.update mem (entryAddr table index)
          (phys ||| pteFlagUs ||| pteFlagPresent ||| pteFlagRw)
        (⟨mem, frames⟩, some (mem (entryAddr table index) &&& pagingPteAddrMask))
  else (m, some (m.mem (entryAddr table index) &&& pagingPteAddrMask))

/-- Returns the address of the page table entry. -/
def vmmGetPte (m : Machine α) (pml4Root virtAddr : Nat) (allocate isHuge : Bool) :
    Machine α × Option Nat :=
  let virtAddr :=
    if virtAddr % pagingPageSize ≠ 0 then virtAddr - virtAddr % pagingPageSize else virtAddr
  match vmmNextTable A m pml4Root (pagingGetPml4Index virtAddr) allocate with
  | (m, none) => (m, none)
  | (m, some pdpr) =>
    match vmmNextTable A m pdpr (pagingGetPdprIndex virtAddr) allocate with
    | (m, none) => (m, none)
    | (m, some pd) =>
      if isHuge then (m, some (entryAddr pd (pagingGetPdIndex virtAddr)))
      else
        match vmmNextTable A m pd (pagingGetPdIndex virtAddr) allocate with
        | (m, none) => (m, none)
        | (m, some pt) => (m, some (entryAddr pt (pagingGetPtIndex virtAddr)))

/-- The physical address that goes into the entry. -/
def pagingAlignPhys (physAddr : Nat) (isHugePage : Bool) : Nat :=
  if isHugePage = true ∧ physAddr % pagingHugePageSize ≠ 0 then
    physAddr - physAddr % pagingHugePageSize
  else if physAddr % pagingPageSize ≠ 0 then physAddr - physAddr % pagingPageSize
  else physAddr

/-- The entry that `paging_map_page` writes. -/
def pagingEntry (physAddr flags : Nat) (isHugePage : Bool) : Nat :=
  pagingAlignPhys physAddr isHugePage ||| flags ||| pteFlagPresent |||
    (if isHugePage then pteFlagPs else 0)

def pagingMapPage (m : Machine α) (pml4Root virtAddr physAddr flags : Nat) (isHugePage : Bool) :
    Option (Machine α) :=
  if virtAddr = 0 then none
  else
    match vmmGetPte A m pml4Root virtAddr true isHugePage with
    | (_, none) => none
    | (m, some pte) =>
      some { m with mem := Function.update m.mem pte (pagingEntry physAddr flags isHugePage) }

def pagingUnmapPage (m : Machine α) (pml4Root virtAddr : Nat) (isHugePage freePhysical : Bool) :
    Option (Machine α) :=
  if virtAddr = 0 then none
  else
    match vmmGetPte A m pml4Root virtAddr false isHugePage with
    | (m, none) => some m
    | (m, some pte) =>
      let physAddr := m.mem pte &&& pagingPteAddrMask
      let m := { m with mem := Function.update m.mem pte 0 }
      some (if freePhysical then { m with frames := A.decRef m.frames physAddr } else m)

/-- The step of the loops over a region. -/
def pagingStride (isHugePage : Bool) : Nat :=
  if isHugePage then pagingHugePageSize else pagingPageSize

/-- The loop of `paging_map_region`, up to the address `stop`. A loop that has not ended after `n`
rounds has no result. -/
def pagingMapLoop (pml4Root stop flags : Nat) (isHugePage : Bool) :
    Nat → Machine α → (virtual physical : Nat) → Option (Machine α)
  | 0, _, _, _ => none
  | n + 1, m, virtual, physical =>
    if virtual < stop then
      match pagingMapPage A m pml4Root virtual physical flags isHugePage with
      | none => none
      | some m => pagingMapLoop pml4Root stop flags isHugePage n m
          (add64 virtual (pagingStride isHugePage)) (add64 physical (pagingStride isHugePage))
    else some m

def pagingMapRegion (m : Machine α) (pml4Root virtAddr physAddr size flags : Nat)
    (isHugePage : Bool) : Option (Machine α) :=
  pagingMapLoop A pml4Root (add64 virtAddr size) flags isHugePage
    (size / pagingStride isHugePage + 2) m
    virtAddr physAddr

def pagingUnmapLoop (pml4Root stop : Nat) (isHugePage freePhysical : Bool) :
    Nat → Machine α → (virtual : Nat) → Option (Machine α)
  | 0, _, _ => none
  | n + 1, m, virtual =>
    if virtual < stop then
      match pagingUnmapPage A m pml4Root virtual isHugePage freePhysical with
      | none => none
      | some m => pagingUnmapLoop pml4Root stop isHugePage freePhysical n m
          (add64 virtual (pagingStride isHugePage))
    else some m

def pagingUnmapRegion (m : Machine α) (pml4Root virtAddr size : Nat)
    (isHugePage freePhysical : Bool) : Option (Machine α) :=
  pagingUnmapLoop A pml4Root (add64 virtAddr size) isHugePage freePhysical
    (size / pagingStride isHugePage + 2) m virtAddr

/-! ## The walk of the processor -/

structure Rights where
  write : Bool
  user : Bool
  exec : Bool
  deriving DecidableEq, Repr

/-- Bits 47 to 63 of the address are equal. -/
def Canonical (virt : Nat) : Prop := virt < 2 ^ 47 ∨ 2 ^ 64 - 2 ^ 47 ≤ virt ∧ virt < 2 ^ 64

instance (virt : Nat) : Decidable (Canonical virt) := inferInstanceAs (Decidable (_ ∨ _))

/-- All entries of the walk must allow writes and user accesses, and none may forbid fetches. -/
def walkRights (entries : List Nat) : Rights where
  write := entries.all (·.testBit 1)
  user := entries.all (·.testBit 2)
  exec := entries.all (!·.testBit 63)

/-- The physical address and the rights that a virtual address has under the tables at `root`, as
the processor finds them with four-level paging. -/
def pageWalk (mem : Nat → Nat) (root virt : Nat) : Option (Nat × Rights) :=
  let pml4e := mem (entryAddr root (virt / 2 ^ 39 % 512))
  let pdpte := mem (entryAddr (pml4e &&& pagingPteAddrMask) (virt / 2 ^ 30 % 512))
  let pde := mem (entryAddr (pdpte &&& pagingPteAddrMask) (virt / 2 ^ 21 % 512))
  let pte := mem (entryAddr (pde &&& pagingPteAddrMask) (virt / 2 ^ 12 % 512))
  if ¬ Canonical virt then none
  -- bit 7 of an entry of the first table is reserved
  else if pml4e.testBit 0 = false ∨ pml4e.testBit 7 then none
  else if pdpte.testBit 0 = false then none
  else if pdpte.testBit 7 then
    -- a page of 1 GiB: bits 13 to 29 are reserved
    if pdpte &&& 0x3FFFE000 ≠ 0 then none
    else some ((pdpte &&& 0x000FFFFFC0000000) + virt % 2 ^ 30, walkRights [pml4e, pdpte])
  else if pde.testBit 0 = false then none
  else if pde.testBit 7 then
    -- a page of 2 MiB: bits 13 to 20 are reserved
    if pde &&& 0x1FE000 ≠ 0 then none
    else some ((pde &&& 0x000FFFFFFFE00000) + virt % 2 ^ 21, walkRights [pml4e, pdpte, pde])
  else if pte.testBit 0 = false then none
  else some ((pte &&& pagingPteAddrMask) + virt % 2 ^ 12, walkRights [pml4e, pdpte, pde, pte])

end Plos
