import Plos.Common.Dll
import Plos.Lib.Word

/-! The physical memory manager of `memory/pmm.c`: a buddy allocator over the page array
`buddy_memmap`, with one free list for each order.

A page is named by its page frame number, so `pfn_to_page` and `page_to_pfn` are the bound check
and the identity. The `link` fields of the pages and the heads of the eleven free lists are the
nodes of one store (`PmmNode`), and the lists are kept by the functions of `dll.c`. A section
under `pmm_lock` is one function here. -/

namespace Plos

abbrev pmmPageSize : Nat := 4096
abbrev pmmMaxOrder : Nat := 11

abbrev pmmFlagFree : Nat := 1
abbrev pmmFlagUsed : Nat := 1 <<< 1
abbrev pmmFlagReserved : Nat := 1 <<< 2

/-- `struct pmm_page` without its link. -/
structure PmmPage where
  flags : Nat
  refCount : Nat
  order : Nat
  deriving DecidableEq, Repr

/-- The address of a `struct double_ll_node`: the link of a page, the head of a free list, or
the null pointer that a zeroed link holds. -/
inductive PmmNode where
  | null
  | page (pfn : Nat)
  | head (order : Nat)
  deriving DecidableEq, Repr

/-- The page that contains a link (`node - offsetof(struct pmm_page, link)`). -/
def PmmNode.pfn : PmmNode → Nat
  | page pfn => pfn
  | _ => 0

/-- The static data of the allocator. -/
structure Pmm where
  buddyMemmap : Nat → PmmPage
  link : DllStore PmmNode
  nrFree : Nat → Nat
  usedPages : Nat
  totalPages : Nat
  highestAddr : Nat

namespace Pmm

def pfnToPage (s : Pmm) (pfn : Nat) : Option Nat :=
  if s.totalPages ≤ pfn then none else some pfn

def setPage (s : Pmm) (pfn : Nat) (page : PmmPage) : Pmm :=
  { s with buddyMemmap := Function.update s.buddyMemmap pfn page }

/-- `dll_delete` of a page's link and `nr_free--`. -/
def unlinkPage (s : Pmm) (pfn order : Nat) : Pmm :=
  { s with
    link := dllDelete s.link (.page pfn)
    nrFree := Function.update s.nrFree order (sub64 (s.nrFree order) 1) }

/-- `dll_add_after` of a page's link to the head of a free list and `nr_free++`. -/
def linkPage (s : Pmm) (pfn order : Nat) : Pmm :=
  { s with
    link := dllAddAfter s.link (.head order) (.page pfn)
    nrFree := Function.update s.nrFree order (add64 (s.nrFree order) 1) }

end Pmm

def isPageFree (page : PmmPage) : Bool := page.flags &&& pmmFlagFree != 0

/-! ## Freeing -/

/-- The coalescing loop of `pmm_free_pages`. Its bound is the number of rounds that
`order < PMM_MAX_ORDER - 1` allows. -/
def pmmCoalesce : Nat → Pmm → (pfn order : Nat) → Pmm × Nat × Nat
  | 0, s, pfn, order => (s, pfn, order)
  | n + 1, s, pfn, order =>
    let buddyPfn := pfn ^^^ (1 <<< order)
    let buddy := s.buddyMemmap buddyPfn
    if (s.pfnToPage buddyPfn).isNone || s.totalPages ≤ buddyPfn then (s, pfn, order)
    else if !isPageFree buddy || buddy.order != order then (s, pfn, order)
    else
      let s := s.unlinkPage buddyPfn order
      let s := s.setPage buddyPfn { buddy with order := 0 }
      pmmCoalesce n s (if buddyPfn < pfn then buddyPfn else pfn) (order + 1)

/-- The end of `pmm_free_pages`: the merged block goes on its free list. -/
def pmmFreeBlock (s : Pmm) (pfn order : Nat) : Pmm :=
  let s := s.setPage pfn { flags := pmmFlagFree, refCount := 0, order := order }
  let s := s.linkPage pfn order
  { s with usedPages := sub64 s.usedPages (1 <<< order) }

def pmmFreePages (s : Pmm) (phys order : Nat) : Pmm :=
  if phys % pmmPageSize ≠ 0 then s
  else match s.pfnToPage (phys / pmmPageSize) with
    | none => s
    | some pfn =>
      match pmmCoalesce (pmmMaxOrder - 1 - order) s pfn order with
      | (s, pfn, order) => pmmFreeBlock s pfn order

/-! ## Allocating -/

/-- The search of `pmm_alloc_pages` for the first non-empty free list, from `order` on. -/
def pmmFindOrder : Nat → Pmm → (order : Nat) → Option Nat
  | 0, _, _ => none
  | n + 1, s, order =>
    if !dllEmpty s.link (.head order) then some order else pmmFindOrder n s (order + 1)

/-- The splitting loop of `pmm_alloc_pages`, for a block that is `n` orders above `order`. -/
def pmmSplit : Nat → Pmm → (page order : Nat) → Pmm
  | 0, s, _, _ => s
  | n + 1, s, page, order =>
    let currentOrder := order + n
    let buddyPfn := page ^^^ (1 <<< currentOrder)
    let s := s.setPage buddyPfn { flags := pmmFlagFree, refCount := 0, order := currentOrder }
    let s := s.linkPage buddyPfn currentOrder
    pmmSplit n s page order

/-- Returns the new state and the physical address of the block, `0` on failure. -/
def pmmAllocPages (s : Pmm) (order : Nat) : Pmm × Nat :=
  if pmmMaxOrder ≤ order then (s, 0)
  else match pmmFindOrder (pmmMaxOrder - order) s order with
    | none => (s, 0)
    | some currentOrder =>
      let page := (s.link (.head currentOrder)).next.pfn
      let s := s.unlinkPage page currentOrder
      let s := pmmSplit (currentOrder - order) s page order
      let s := s.setPage page { flags := pmmFlagUsed, refCount := 1, order := order }
      ({ s with usedPages := add64 s.usedPages (1 <<< order) }, page * pmmPageSize)

/-- The loop of `pmm_get_order_from_size`: `(1ULL << order) < pages_needed`. -/
def pmmOrderLoop : Nat → (order pagesNeeded : Nat) → Nat
  | 0, order, _ => order
  | n + 1, order, pagesNeeded =>
    if 1 <<< order < pagesNeeded then pmmOrderLoop n (order + 1) pagesNeeded else order

def pmmGetOrderFromSize (size : Nat) : Nat :=
  let pagesNeeded := size / pmmPageSize
  let pagesNeeded := if size % pmmPageSize ≠ 0 then pagesNeeded + 1 else pagesNeeded
  pmmOrderLoop 64 0 pagesNeeded

def pmmAlloc (s : Pmm) (size : Nat) : Pmm × Nat :=
  let order := pmmGetOrderFromSize size
  if pmmMaxOrder ≤ order then (s, 0) else pmmAllocPages s order

def pmmFree (s : Pmm) (physAddr length : Nat) : Pmm :=
  pmmFreePages s physAddr (pmmGetOrderFromSize length)

/-! ## Reference counts -/

def pmmPageIncRef (s : Pmm) (phys : Nat) : Pmm :=
  match s.pfnToPage (phys / pmmPageSize) with
  | none => s
  | some pfn =>
    let page := s.buddyMemmap pfn
    if page.flags &&& pmmFlagUsed ≠ 0 then
      s.setPage pfn { page with refCount := add32 page.refCount 1 }
    else s

def pmmPageDecRef (s : Pmm) (phys : Nat) : Pmm :=
  match s.pfnToPage (phys / pmmPageSize) with
  | none => s
  | some pfn =>
    let page := s.buddyMemmap pfn
    if page.flags &&& pmmFlagUsed ≠ 0 then
      let s := s.setPage pfn { page with refCount := sub32 page.refCount 1 }
      -- at zero the lock is dropped and the block freed with the order its head page records
      if sub32 page.refCount 1 = 0 then pmmFreePages s phys (s.buddyMemmap pfn).order else s
    else s

/-! ## Initialisation -/

/-- The kinds of entries of the boot loader's memory map. -/
inductive MemmapType where
  | usable
  | reserved
  | acpiReclaimable
  | acpiNvs
  | badMemory
  | bootloaderReclaimable
  | executableAndModules
  | framebuffer
  | acpiTables
  deriving DecidableEq, Repr

structure MemmapEntry where
  base : Nat
  length : Nat
  type : MemmapType
  deriving DecidableEq, Repr

/-- The entry kinds that the search for the highest address looks at. -/
def MemmapType.counted : MemmapType → Bool
  | .usable | .bootloaderReclaimable | .executableAndModules | .framebuffer | .acpiTables
  | .acpiReclaimable | .acpiNvs => true
  | .reserved | .badMemory => false

/-- The first loop of `pmm_init`: the last counted entry decides. -/
def pmmHighestAddr (memmap : List MemmapEntry) : Nat :=
  memmap.foldl (fun highest e => if e.type.counted then add64 e.base e.length else highest) 0

/-- `sizeof(struct pmm_page)` -/
abbrev sizeofPmmPage : Nat := 32

def pmmTotalPages (highestAddr : Nat) : Nat :=
  if highestAddr % pmmPageSize ≠ 0 then highestAddr / pmmPageSize + 1
  else highestAddr / pmmPageSize

/-- The second loop of `pmm_init`: the first usable entry that is large enough gives up the
space of the page array. -/
def pmmReserveMemmap (size : Nat) : List MemmapEntry → Option (List MemmapEntry)
  | [] => none
  | e :: memmap =>
    if e.type = .usable ∧ size ≤ e.length then
      some ({ e with base := add64 e.base size, length := e.length - size } :: memmap)
    else (pmmReserveMemmap size memmap).map (e :: ·)

/-- The state after the page array has been zeroed and marked and the lists initialised. -/
def pmmReserved (totalPages highestAddr : Nat) : Pmm where
  buddyMemmap _ := { flags := 0 ||| pmmFlagReserved, refCount := 1, order := 0 }
  link := (List.range pmmMaxOrder).foldl (fun m i => dllInit m (.head i))
    ⟨fun _ => { prev := .null, next := .null }⟩
  nrFree _ := 0
  usedPages := totalPages
  totalPages
  highestAddr

/-- The search for the biggest order of a block at `current` inside a region that ends at
`stop`, from `order` down. -/
def pmmLargestOrder (current stop : Nat) : Nat → Nat
  | 0 => 0
  | order + 1 =>
    let size := pmmPageSize * (1 <<< (order + 1))
    if current &&& (size - 1) = 0 ∧ add64 current size ≤ stop then order + 1
    else pmmLargestOrder current stop order

/-- The loop that frees the pages from `current` to `stop`; every round frees at least one
page, which bounds the number of rounds. -/
def pmmFreeRegion : Nat → Pmm → (current stop : Nat) → Pmm
  | 0, s, _, _ => s
  | n + 1, s, current, stop =>
    if current < stop then
      let order := pmmLargestOrder current stop (pmmMaxOrder - 1)
      pmmFreeRegion n (pmmFreePages s current order)
        (add64 current (pmmPageSize * (1 <<< order))) stop
    else s

/-- The first address that the populating loop frees in an entry: rounded up to a page, and
past page 0. -/
def MemmapEntry.start (e : MemmapEntry) : Nat :=
  let start := e.base
  let start := if start % pmmPageSize ≠ 0 then
    add64 start (pmmPageSize - start % pmmPageSize) else start
  if start = 0 then start + pmmPageSize else start

/-- The end of an entry, rounded down to a page. -/
def MemmapEntry.stop (e : MemmapEntry) : Nat :=
  let stop := add64 e.base e.length
  if stop % pmmPageSize ≠ 0 then stop - stop % pmmPageSize else stop

/-- The populating loop of `pmm_init`. -/
def pmmPopulate (s : Pmm) (memmap : List MemmapEntry) : Pmm :=
  memmap.foldl (fun s e =>
    if e.type = .usable then
      pmmFreeRegion ((e.stop - e.start) / pmmPageSize) s e.start e.stop
    else s) s

/-- `none` when no entry is large enough for the page array and the machine halts. -/
def pmmInit (memmap : List MemmapEntry) : Option Pmm :=
  let highestAddr := pmmHighestAddr memmap
  let totalPages := pmmTotalPages highestAddr
  let buddyMemmapSize := totalPages * sizeofPmmPage % 2 ^ 64
  (pmmReserveMemmap buddyMemmapSize memmap).map fun memmap =>
    pmmPopulate (pmmReserved totalPages highestAddr) memmap

end Plos
