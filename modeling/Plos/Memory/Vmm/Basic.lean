import Plos.Memory.Vmm.Regions

/-! The address spaces of `memory/vmm.c`: allocating and freeing areas, the page fault handler, and
the creation and destruction of spaces.

The list of areas is that of `Regions`. The structures themselves live on the kernel heap: whether
`kmalloc` has memory for one is an input, and what a growing heap does to the page tables is a step
of its own. A call that stops the machine with `hcf` has no result. -/

namespace Plos

abbrev vmmFlagsRead : Nat := 1 <<< 0
abbrev vmmFlagsWrite : Nat := 1 <<< 1
abbrev vmmFlagsExec : Nat := 1 <<< 2
abbrev vmmFlagsAnon : Nat := 1 <<< 4
abbrev vmmFlagsMmio : Nat := 1 <<< 5
abbrev vmmFlagsWc : Nat := 1 <<< 6
abbrev vmmFlagsUc : Nat := 1 <<< 7

structure AddressSpace where
  space : Space
  pml4Phys : Nat
  regionList : List VmArea
  deriving DecidableEq, Repr

def vmmGenericToX86Flags (genericFlags : Nat) : Nat :=
  let x86Flags := 0
  let x86Flags := if genericFlags &&& vmmFlagsRead ≠ 0 then x86Flags ||| 0 else x86Flags
  let x86Flags := if genericFlags &&& vmmFlagsWrite ≠ 0 then x86Flags ||| pteFlagRw else x86Flags
  let x86Flags := if genericFlags &&& vmmFlagsExec = 0 then x86Flags ||| pteFlagNoExec else x86Flags
  let x86Flags := if genericFlags &&& vmmFlagsWc ≠ 0 then x86Flags ||| pteFlagPwt else x86Flags
  let x86Flags := if genericFlags &&& vmmFlagsUc ≠ 0 then x86Flags ||| pteFlagPcd else x86Flags
  if genericFlags &&& vmmFlagsUser ≠ 0 then x86Flags ||| pteFlagUs else x86Flags ||| pteFlagGlobal

variable {α : Type} (A : FrameAllocator α)

/-- Returns the address of the new area, 0 on failure. -/
def vmmAlloc (m : Machine α) (space : AddressSpace) (size flags arg : Nat) (kmallocOk : Bool) :
    Option (Machine α × AddressSpace × Nat) :=
  match vmmAllocRegion space.space space.regionList size flags kmallocOk with
  | none => some (m, space, 0)
  | some (regionList, base) =>
    let flags := space.space.areaFlags flags
    if flags &&& vmmFlagsMmio ≠ 0 then
      (pagingMapRegion A m space.pml4Phys base arg (pageAlignUp size) (vmmGenericToX86Flags flags)
        false).map fun m => (m, { space with regionList }, base)
    -- nothing is mapped before the first access
    else if flags &&& vmmFlagsAnon ≠ 0 then some (m, { space with regionList }, base)
    else none

def vmmGetVmArea (space : AddressSpace) (vaddr : Nat) : Option VmArea :=
  space.regionList.find? fun area => area.base ≤ vaddr ∧ vaddr < add64 area.base area.size

def vmmFree (m : Machine α) (space : AddressSpace) (addr : Nat) :
    Option (Machine α × AddressSpace) :=
  match vmmFreeRegion space.regionList addr with
  | none => some (m, space)
  | some (area, regionList) =>
    (pagingUnmapRegion A m space.pml4Phys area.base area.size false
      (decide (area.flags &&& vmmFlagsMmio = 0))).map fun m => (m, { space with regionList })

/-- The page fault handler. A fault on a page that is present stops the machine whatever the access
was. -/
def vmmPageFaultHandler (m : Machine α) (kernelVas currentVas : AddressSpace) (cr2 : Nat)
    (present : Bool) : Option (Machine α) :=
  let targetVas := if vmmKernelStart ≤ cr2 then kernelVas else currentVas
  match vmmGetVmArea targetVas cr2 with
  | none => none
  | some targetArea =>
    if present then none
    else
      let (frames, physPage) := A.alloc m.frames
      if physPage = 0 then none
      else
        pagingMapPage A ⟨memsetPage m.mem physPage, frames⟩ targetVas.pml4Phys cr2 physPage
          (vmmGenericToX86Flags targetArea.flags) false

/-- The loop that copies the higher half of the kernel's first table. -/
def vmmCopyHigherHalf (mem : Nat → Nat) (newPml4 kernelPml4 : Nat) : Nat → Nat :=
  (List.range' 256 256).foldl
    (fun mem i => Function.update mem (entryAddr newPml4 i) (mem (entryAddr kernelPml4 i))) mem

def vmmNewAddressSpace (m : Machine α) (kernelPml4 : Nat) (kmallocOk : Bool) :
    Machine α × Option AddressSpace :=
  if kmallocOk = false then (m, none)
  else
    let (frames, newPml4) := A.alloc m.frames
    if newPml4 = 0 then ({ m with frames }, none)
    else
      (⟨vmmCopyHigherHalf (memsetPage m.mem newPml4) newPml4 kernelPml4, frames⟩,
        some ⟨.user, newPml4, []⟩)

/-- The loop of `vmm_destroy_address_space` over the areas that the space had at first. -/
def vmmFreeAreas : List VmArea → Machine α → AddressSpace → Option (Machine α × AddressSpace)
  | [], m, space => some (m, space)
  | current :: rest, m, space =>
    match vmmFree A m space current.base with
    | none => none
    | some (m, space) => vmmFreeAreas rest m space

def vmmDestroyAddressSpace (m : Machine α) (space : AddressSpace) : Option (Machine α) :=
  if space.space = .kernel then some m
  else (vmmFreeAreas A space.regionList m space).map fun (m, space) =>
    { m with frames := A.decRef m.frames space.pml4Phys }

end Plos
