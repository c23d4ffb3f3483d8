import Plos.Memory.Vmm.Lifecycle

/-! The higher half of the address spaces.

`vmm_new_address_space` copies the upper entries of the kernel's first table once. From then on the
spaces share the tables below these entries, so that what the kernel maps is seen in every space,
unless the mapping needs a new entry in the first table: that one is written to the kernel's table
only. -/

namespace Plos

/-- The machine, the kernel's space and the spaces that have been made. -/
structure KernelSys where
  machine : Machine Pmm
  kernel : AddressSpace
  spaces : List AddressSpace

inductive KernelOp where
  | newSpace (kmallocOk : Bool)
  /-- `vmm_alloc` or `vmm_free` in the kernel's space, or a page fault there -/
  | vmm (op : VmmOp)
  /-- a round of the loop in `kheap_extend` -/
  | heapPage (virtual : Nat)

namespace KernelSys

/-- The kernel's space alone. -/
def view (s : KernelSys) : VmmSys := ⟨s.machine, s.kernel⟩

/-- The kernel's first table has an entry for the address. -/
def SlotPresent (s : KernelSys) (x : Nat) : Prop :=
  s.machine.mem (entryAddr s.kernel.pml4Phys (x / 2 ^ 39 % 512)) &&& pteFlagPresent ≠ 0

/-- Every space translates the addresses of the higher half as the kernel does. -/
def SharesKernel (s : KernelSys) : Prop := ∀ v ∈ s.spaces, ∀ x, 256 ≤ x / 2 ^ 39 % 512 →
  pageWalk s.machine.mem v.pml4Phys x = pageWalk s.machine.mem s.kernel.pml4Phys x

end KernelSys

namespace KernelOp

/-- The addresses that the step maps in the kernel's tables. -/
def MapsAt (s : KernelSys) : KernelOp → Nat → Prop
  | newSpace _, _ => False
  | vmm op, x => op.MapsAt s.view x
  | heapPage virtual, x => x = virtual ∧ (pmmFrames.alloc s.machine.frames).2 ≠ 0

/-- A new area fits into the window of the kernel. -/
def HasRoom (s : KernelSys) : KernelOp → Prop
  | vmm op => op.HasRoom s.view
  | _ => True

/-- No space has been made yet, or all that is mapped goes below entries that the kernel's first
table has. -/
def KeepsSlots (s : KernelSys) (op : KernelOp) : Prop :=
  s.spaces = [] ∨ ∀ x, op.MapsAt s x → s.SlotPresent x

end KernelOp

/-- The heap lies above the window of the kernel. A round that finds no frame changes nothing. -/
def kernelStep (s : KernelSys) : KernelOp → Option KernelSys
  | .newSpace kmallocOk =>
    match vmmNewAddressSpace pmmFrames s.machine s.kernel.pml4Phys kmallocOk with
    | (m, none) => some { s with machine := m }
    | (m, some v) => some { s with machine := m, spaces := v :: s.spaces }
  | .vmm op => (vmmStep s.view op).map fun t => { s with machine := t.machine, kernel := t.space }
  | .heapPage virtual =>
    if vmmKernelEnd < virtual ∧ virtual < 2 ^ 64 then
      let (frames, newPage) := pmmFrames.alloc s.machine.frames
      if newPage = 0 then some { s with machine := ⟨s.machine.mem, frames⟩ }
      else
        (pagingMapPage pmmFrames ⟨s.machine.mem, frames⟩ s.kernel.pml4Phys virtual newPage
          (pteFlagRw ||| pteFlagGlobal) false).map fun m => { s with machine := m }
    else none

/-! ## The entries of the first table -/

section
variable {U : Set Nat} {others : List Block} {n root : Nat} {m m' : Machine Pmm}
  {T T' : List Nat → Option Nat} {leaf leaf' : List Nat → Nat} {anon anon' : List (Nat × Nat)}
  {rest new : List Nat} {D : Nat → Prop}

theorem pageWalk_congr_root {mem : Nat → Nat} {root' x : Nat}
    (h : mem (entryAddr root' (x / 2 ^ 39 % 512)) = mem (entryAddr root (x / 2 ^ 39 % 512))) :
    pageWalk mem root' x = pageWalk mem root x := by
  unfold pageWalk
  rw [h]

theorem pageWalk_of_absent {mem : Nat → Nat} {x : Nat}
    (h : mem (entryAddr root (x / 2 ^ 39 % 512)) &&& pteFlagPresent = 0) :
    pageWalk mem root x = none := by
  rw [and_present_eq_zero] at h
  unfold pageWalk
  simp only [h, true_or, if_true, ite_self]

/-- An entry of the first table is present exactly if the tree has the table. -/
theorem PageTree.slot_eq {mem : Nat → Nat} {i : Nat} (H : PageTree n root mem T leaf) (hi : i < n) :
    mem (entryAddr root i) = (T [i]).elim 0 tableEntry := by
  have hentry : mem (entryAddr root i) = (T [i]).elim (leaf [i]) tableEntry :=
    H.mem_entry H.root_eq hi
  rwa [(H.leaves [i]).eq_zero (Nat.le_succ 1)] at hentry

theorem PageTree.slot_present {mem : Nat → Nat} {i : Nat} (H : PageTree n root mem T leaf)
    (hi : i < n) : mem (entryAddr root i) &&& pteFlagPresent ≠ 0 ↔ (T [i]).isSome = true := by
  rw [H.slot_eq hi, ne_eq, and_present_eq_zero]
  cases hT : T [i] with
  | none => simp
  | some f =>
    have hbit : (tableEntry f).testBit 0 = true :=
      (H.valid hT).tableEntry_testBit (.inl (by decide))
    simp [hbit]

/-- An entry stays what it is, unless a page is mapped in a slot that had none. -/
theorem PagedStep.slot_eq (H : Paged U others n root m T leaf anon rest)
    (S : PagedStep U others n root rest D m T m' T' leaf' anon' new) {i : Nat} (hi : i < n)
    (h : ∀ x, D x → x / 2 ^ 39 % 512 = i → (T [i]).isSome = true) :
    m'.mem (entryAddr root i) = m.mem (entryAddr root i) := by
  rw [H.tree.slot_eq hi, S.paged.tree.slot_eq hi]
  cases hT : T [i] with
  | some f => rw [S.le hT]
  | none =>
    cases hT' : T' [i] with
    | none => rfl
    | some f =>
      rcases S.origin hT' with hf | ⟨-, x, hx, hp⟩
      · cases hT.symm.trans hf
      · obtain ⟨q, hq⟩ := hp
        have hslot : x / 2 ^ 39 % 512 = i := by
          simp only [tablePath_false, leafPath_true] at hq
          exact (List.cons.inj hq).1.symm
        rw [hT] at h
        cases h x hx hslot

/-- The first table of another space is not a part of the tree. -/
theorem Paged.kept_root (H : Paged U others n root m T leaf anon rest) {r i : Nat} (hr : r ∈ rest)
    (hT : ∀ p, T p ≠ some r) (hi : i < 512) : Kept n T rest (entryAddr r i) := by
  refine ⟨⟨r, hr, inFrame_entryAddr hi⟩, fun p f j hp hj h => hT p ?_⟩
  have hframe := H.held.isFrame (List.mem_append_right _ hr)
  have hj := Nat.lt_of_lt_of_le hj (H.tree.size_le_512 p)
  have heq := InFrame.eq (H.tree.valid hp) hframe (h ▸ inFrame_entryAddr hj) (inFrame_entryAddr hi)
  rw [hp, heq]

theorem PagedStep.not_table (S : PagedStep U others n root rest D m T m' T' leaf' anon' new)
    {r : Nat} (hr : r ∈ rest) (hT : ∀ p, T p ≠ some r) (p : List Nat) : T' p ≠ some r := by
  intro hp
  rcases S.origin hp with hp | ⟨hf, -⟩
  · exact hT p hp
  · have hnodup := (List.nodup_append.mp S.paged.held.nodup).2.1
    exact (List.nodup_append.mp hnodup).2.2 r hf r hr rfl

end

/-! ## The invariant -/

/-- The invariant of a space looks at the entries of its window only. -/
theorem SpaceInv.of_paged {U : Set Nat} {others : List Block} {n : Nat} {m m' : Machine Pmm}
    {v : AddressSpace} {T T' : List Nat → Option Nat} {leaf leaf' : List Nat → Nat}
    {anon : List (Nat × Nat)} {rest rest' : List Nat} (H : SpaceInv U others n m v T leaf anon rest)
    (H' : Paged U others n v.pml4Phys m' T' leaf' anon rest')
    (hleaf : ∀ x, v.space.Window x → ∀ b, leaf' (leafPath x b) = leaf (leafPath x b)) :
    SpaceInv U others n m' v T' leaf' anon rest' := by
  refine ⟨H', H.half, H.wf, H.window, fun hx => ?_, fun hx hne => ?_, fun {a x} ha hflags hx hne =>
    ?_, H.anonArea, fun {a x} ha hflags hx => ?_⟩
  · rw [hleaf _ hx]
    exact H.small hx
  · rw [hleaf _ hx] at hne
    exact H.inArea hx hne
  · rw [hleaf _ (H.contains_window ha hx)] at hne ⊢
    exact H.owned ha hflags hx hne
  · rw [hleaf _ (H.contains_window ha hx)]
    exact H.mmio ha hflags hx

/-- The upper entries of the spaces are those of the kernel. No large page is in the way of the
heap. -/
structure KernelInv (U : Set Nat) (others : List Block) (s : KernelSys) (T : List Nat → Option Nat)
    (leaf : List Nat → Nat) (anon : List (Nat × Nat)) (rest : List Nat) : Prop
    extends SpaceInv U others 512 s.machine s.kernel T leaf anon rest where
  kernel : s.kernel.space = .kernel
  roots : ∀ v ∈ s.spaces, v.pml4Phys ∈ rest ∧ ∀ p, T p ≠ some v.pml4Phys
  agree : ∀ v ∈ s.spaces, ∀ i, 256 ≤ i → i < 512 →
    s.machine.mem (entryAddr v.pml4Phys i) = s.machine.mem (entryAddr s.kernel.pml4Phys i)
  high : ∀ x, vmmKernelEnd < x → x < 2 ^ 64 → leaf (leafPath x true) = 0

theorem canonical_of_kernelStart {x : Nat} (h : vmmKernelStart ≤ x) (hx : x < 2 ^ 64) :
    Canonical x ∧ 256 ≤ x / 2 ^ 39 % 512 := by
  simp only [vmmKernelStart, Canonical] at *
  omega

namespace KernelInv

variable {U : Set Nat} {others : List Block} {s s' : KernelSys} {T T' : List Nat → Option Nat}
  {leaf leaf' : List Nat → Nat} {anon anon' : List (Nat × Nat)} {rest new : List Nat}
  {op : KernelOp}

theorem sharesKernel (H : KernelInv U others s T leaf anon rest) : s.SharesKernel := by
  intro v hv x hx
  exact pageWalk_congr_root (H.agree v hv _ hx (Nat.mod_lt _ (by decide)))

/-- A change of the kernel's tables that needs no new entry in the first one. -/
theorem keeps {D : Nat → Prop} {kernel : AddressSpace} {m : Machine Pmm}
    (H : KernelInv U others s T leaf anon rest)
    (S : SpaceStep U others 512 rest D s.machine s.kernel T m kernel T' leaf' anon' new)
    (hhigh : ∀ x, vmmKernelEnd < x → x < 2 ^ 64 → leaf' (leafPath x true) = leaf (leafPath x true))
    (hslot : s.spaces = [] ∨ ∀ x, D x → s.SlotPresent x) :
    KernelInv U others ⟨m, kernel, s.spaces⟩ T' leaf' anon' (new ++ rest) := by
  refine ⟨S.inv, S.space_eq.trans H.kernel, fun v hv => ?_, fun v hv i hi hi' => ?_,
    fun x hx hx' => ?_⟩
  · obtain ⟨hr, hT⟩ := H.roots v hv
    exact ⟨List.mem_append_right _ hr, S.paged.not_table hr hT⟩
  · obtain ⟨hr, hT⟩ := H.roots v hv
    have hslot : ∀ x, D x → s.SlotPresent x := hslot.resolve_left (List.ne_nil_of_mem hv)
    have hroot : m.mem (entryAddr s.kernel.pml4Phys i) =
        s.machine.mem (entryAddr s.kernel.pml4Phys i) := by
      refine S.paged.slot_eq H.toPaged hi' fun x hx hxi => ?_
      rw [← H.tree.slot_present hi', ← hxi]
      exact hslot x hx
    dsimp only
    rw [S.root_eq, hroot, S.paged.same (H.toPaged.kept_root hr hT hi')]
    exact H.agree v hv i hi hi'
  · rw [hhigh x hx hx']
    exact H.high x hx hx'

/-- A page that needs a new entry is seen by the kernel only. -/
theorem not_shares {D : Nat → Prop} {kernel : AddressSpace} {m : Machine Pmm} {x : Nat}
    (H : KernelInv U others s T leaf anon rest)
    (S : SpaceStep U others 512 rest D s.machine s.kernel T m kernel T' leaf' anon' new)
    (hspaces : s.spaces ≠ []) (hx : vmmKernelStart ≤ x) (hx' : x < 2 ^ 64)
    (hleaf : leaf' (leafPath x false) ≠ 0) (hslot : ¬ s.SlotPresent x) :
    ¬ (KernelSys.mk m kernel s.spaces).SharesKernel := by
  intro hshares
  obtain ⟨v, hv⟩ := List.exists_mem_of_ne_nil _ hspaces
  obtain ⟨hr, hT⟩ := H.roots v hv
  obtain ⟨hcan, hhalf⟩ := canonical_of_kernelStart hx hx'
  have hi : x / 2 ^ 39 % 512 < 512 := Nat.mod_lt _ (by decide)
  have hwalk := hshares v hv x hhalf
  have habsent : m.mem (entryAddr v.pml4Phys (x / 2 ^ 39 % 512)) &&& pteFlagPresent = 0 := by
    rw [S.paged.same (H.toPaged.kept_root hr hT hi), H.agree v hv _ hhalf hi]
    exact not_not.mp hslot
  dsimp only at hwalk
  rw [pageWalk_of_absent habsent, S.inv.tree.pageWalk_eq hi hcan, leafWalk, if_pos hleaf] at hwalk
  split at hwalk
  · cases hwalk
  · cases hwalk

/-- A new space gets the entries of the kernel. -/
theorem newSpace {m : Machine Pmm} {v : AddressSpace} (H : KernelInv U others s T leaf anon rest)
    (N : NewSpace U others (anon.map Prod.snd ++ rest) s.machine s.kernel.pml4Phys m v) :
    KernelInv U others ⟨m, s.kernel, v :: s.spaces⟩ T leaf anon (v.pml4Phys :: rest) := by
  have hfresh := (List.nodup_cons.mp N.frames.nodup).1
  have hframe := N.frames.isFrame List.mem_cons_self
  have hsame {f i : Nat} (hf : f ∈ rest) (hi : i < 512) :
      m.mem (entryAddr f i) = s.machine.mem (entryAddr f i) := by
    have hmem : f ∈ anon.map Prod.snd ++ rest := List.mem_append_right _ hf
    refine N.same _ fun hin => hfresh ?_
    rw [InFrame.eq hframe (H.held.isFrame hmem) hin (inFrame_entryAddr hi)]
    exact hmem
  have hroot : s.kernel.pml4Phys ∈ rest := H.tables H.tree.root_eq
  have htree : PageTree 512 s.kernel.pml4Phys m.mem T leaf := by
    refine ⟨H.tree.toRadixTree.congr fun p f i hp hi => ?_, H.tree.root_eq, H.tree.depth,
      H.tree.leaves⟩
    exact hsame (H.tables hp) (Nat.lt_of_lt_of_le hi (H.tree.size_le_512 p))
  have hpaged : Paged U others 512 s.kernel.pml4Phys m T leaf anon (v.pml4Phys :: rest) :=
    ⟨htree, N.frames.perm List.perm_middle.symm, fun hp => List.mem_cons_of_mem _ (H.tables hp),
      H.backed⟩
  refine ⟨H.toSpaceInv.of_paged hpaged fun _ _ _ => rfl, H.kernel, fun w hw => ?_,
    fun w hw i hi hi' => ?_, H.high⟩
  · rcases List.mem_cons.mp hw with rfl | hw
    · exact ⟨List.mem_cons_self, fun p hp => hfresh (H.mem_held hp)⟩
    · exact ⟨List.mem_cons_of_mem _ (H.roots w hw).1, (H.roots w hw).2⟩
  · dsimp only
    rw [hsame hroot hi']
    rcases List.mem_cons.mp hw with rfl | hw
    · exact N.high i hi hi'
    · rw [hsame (H.roots w hw).1 hi']
      exact H.agree w hw i hi hi'

/-- A page above the window of the kernel. -/
theorem heapPage {virt f flags : Nat} {frames : Pmm} {m : Machine Pmm}
    (H : KernelInv U others s T leaf anon rest) (hv : vmmKernelEnd < virt) (hv' : virt < 2 ^ 64)
    (halloc : pmmFrames.alloc s.machine.frames = (frames, f)) (hf : f ≠ 0)
    (h : pagingMapPage pmmFrames ⟨s.machine.mem, frames⟩ s.kernel.pml4Phys virt f flags false =
      some m) :
    ∃ T' new, SpaceStep U others 512 rest (· = virt) s.machine s.kernel T m s.kernel T'
      (Function.update leaf (leafPath virt false) (pagingEntry f flags false)) anon new := by
  have hwindow : ¬ s.kernel.space.Window virt := by
    rw [H.kernel]
    exact fun h => Nat.not_le.mpr hv h.2
  have hcan : Canonical virt := by
    simp only [vmmKernelEnd, Canonical] at *
    omega
  have hkey : ∀ g, (virt / pagingPageSize, g) ∉ anon := by
    intro g hg
    obtain ⟨a, ha, -, hin⟩ := H.anonArea hg
    refine hwindow ((H.contains_window ha hin).of_page ?_)
    simp only [pagingPageSize]
    omega
  obtain ⟨T', new, S⟩ :=
    H.toPaged.mapHeld (Nat.ne_of_gt (Nat.lt_of_le_of_lt (Nat.zero_le _) hv)) hcan
      (Nat.mod_lt _ (by decide)) (H.high virt hv hv') hkey halloc hf (fun _ _ => rfl) h
  refine ⟨T', _, H.toSpaceInv.of_paged S.paged fun x hx b => Function.update_of_ne ?_ .., S, rfl,
    rfl⟩
  cases b with
  | true => exact leafPath_ne (by decide)
  | false => exact fun hp => hwindow (hx.of_page (leafPath_inj hcan hx.canonical.1 hp.symm))

/-- A step keeps the higher halves equal exactly if it keeps to the entries that the kernel has, or
no other space exists. -/
theorem step (H : KernelInv U others s T leaf anon rest) (hroom : op.HasRoom s)
    (h : kernelStep s op = some s') :
    (op.KeepsSlots s → ∃ T' leaf' anon' rest', KernelInv U others s' T' leaf' anon' rest') ∧
      (s'.SharesKernel → op.KeepsSlots s) := by
  cases op with
  | newSpace kmallocOk =>
    refine ⟨fun _ => ?_, fun _ => .inr fun _ => False.elim⟩
    unfold kernelStep at h
    dsimp only at h
    generalize hnew : vmmNewAddressSpace pmmFrames s.machine s.kernel.pml4Phys kmallocOk = r at h
    obtain ⟨m, v⟩ := r
    cases v with
    | none =>
      cases h
      rw [vmmNewAddressSpace_none H.held hnew]
      exact ⟨T, leaf, anon, rest, H⟩
    | some v =>
      cases h
      have hroot : s.kernel.pml4Phys ∈ anon.map Prod.snd ++ rest := H.mem_held H.tree.root_eq
      exact ⟨T, leaf, anon, _, H.newSpace (vmmNewAddressSpace_spec H.held hroot hnew)⟩
  | vmm op =>
    obtain ⟨t, ht, rfl⟩ := Option.map_eq_some_iff.mp h
    obtain ⟨T', leaf', anon', new, S, hat, -, -, hout⟩ :=
      SpaceInv.step (s := s.view) H.toSpaceInv hroom ht
    have hhigh (x : Nat) (hx : vmmKernelEnd < x) (hx' : x < 2 ^ 64) :
        leaf' (leafPath x true) = leaf (leafPath x true) := by
      have hstart : vmmKernelStart ≤ x := Nat.le_of_lt (Nat.lt_trans (by decide) hx)
      exact (hout x (canonical_of_kernelStart hstart hx').1 (Nat.mod_lt _ (by decide))).1
    refine ⟨fun hslot => ⟨T', leaf', anon', _, H.keeps S hhigh hslot⟩, fun hshares => ?_⟩
    by_contra hslot
    obtain ⟨hspaces, hx⟩ := not_or.mp hslot
    obtain ⟨x, hx⟩ := not_forall.mp hx
    obtain ⟨hmaps, habsent⟩ := Classical.not_imp.mp hx
    obtain ⟨hw, hleaf⟩ := hat x hmaps
    rw [show s.view.space.space = .kernel from H.kernel] at hw
    exact H.not_shares S hspaces hw.1 (Nat.lt_of_le_of_lt hw.2 (by decide)) hleaf habsent hshares
  | heapPage virt =>
    obtain ⟨⟨hv, hv'⟩, h⟩ := Option.ite_none_right_eq_some.mp h
    cases halloc : pmmFrames.alloc s.machine.frames with
    | mk frames f =>
      simp only [halloc] at h
      by_cases hf : f = 0
      · rw [if_pos hf] at h
        cases h
        have hnone : ∀ x, (KernelOp.heapPage virt).MapsAt s x → s.SlotPresent x := by
          rintro x ⟨-, hne⟩
          rw [halloc] at hne
          exact absurd hf hne
        refine ⟨fun _ => ⟨T, leaf, anon, rest, ?_⟩, fun _ => .inr hnone⟩
        rcases H.held.alloc with ⟨hr, -⟩ | ⟨s', f', hr, H'⟩
        · cases halloc.symm.trans hr
          exact H
        · cases halloc.symm.trans hr
          exact absurd hf (H'.ne_zero List.mem_cons_self)
      · rw [if_neg hf] at h
        obtain ⟨m, hm, rfl⟩ := Option.map_eq_some_iff.mp h
        obtain ⟨T', new, S⟩ := H.heapPage hv hv' halloc hf hm
        refine ⟨fun hslot =>
          ⟨T', _, anon, _,
          H.keeps S (fun x _ _ => Function.update_of_ne (leafPath_ne (by decide)) ..)
          (hslot.imp_right fun h x hx => h x ⟨hx, by rw [halloc]; exact hf⟩)⟩, fun hshares => ?_⟩
        by_contra hslot
        obtain ⟨hspaces, hx⟩ := not_or.mp hslot
        obtain ⟨x, hx⟩ := not_forall.mp hx
        obtain ⟨⟨rfl, -⟩, habsent⟩ := Classical.not_imp.mp hx
        refine H.not_shares S hspaces (Nat.le_of_lt (Nat.lt_trans (by decide) hv)) hv' ?_ habsent
          hshares
        rw [Function.update_self]
        exact ne_zero_of_testBit (pagingEntry_small_present f _)

end KernelInv

/-- The state after `vmm_init`: the kernel has no areas, nothing is mapped in its window, its tables
are in frames `rest` of the allocator, and it is the only space. -/
structure KernelSys.Start (U : Set Nat) (others : List Block) (rest : List Nat) (s : KernelSys) :
    Prop where
  frames : PmmHolds U others s.machine.frames rest
  tree : ∃ T leaf, PageTree 512 s.kernel.pml4Phys s.machine.mem T leaf ∧
    (∀ {p f}, T p = some f → f ∈ rest) ∧
    ∀ x, vmmKernelEnd < x → x < 2 ^ 64 → leaf (leafPath x true) = 0
  kernel : s.kernel.space = .kernel
  areas : s.kernel.regionList = []
  untouched : ∀ x, s.kernel.space.Window x → pageWalk s.machine.mem s.kernel.pml4Phys x = none
  spaces : s.spaces = []

theorem KernelSys.Start.inv {U : Set Nat} {others : List Block} {rest : List Nat} {s : KernelSys}
    (H : s.Start U others rest) : ∃ T leaf, KernelInv U others s T leaf [] rest := by
  obtain ⟨T, leaf, htree, hT, hhigh⟩ := H.tree
  have hwf : RegionsWF s.kernel.regionList := by
    rw [H.areas]
    exact ⟨List.Pairwise.nil, nofun, nofun, List.Pairwise.nil⟩
  have hspace : SpaceInv U others 512 s.machine s.kernel T leaf [] rest := by
    refine .of_untouched htree hT H.frames hwf ?_ H.untouched
    rw [H.areas]
    exact nofun
  refine ⟨T, leaf, hspace, H.kernel, ?_, ?_, hhigh⟩
  · rw [H.spaces]
    exact nofun
  · rw [H.spaces]
    exact nofun

/-- In a run in which every new area fits into the kernel's window, the higher half of every space
is that of the kernel in every state exactly if, from the first new space on, every page that is
mapped lies in a slot of the first table that the kernel already has. -/
theorem kernelRun_shares_iff {U : Set Nat} {others : List Block} {rest : List Nat} {s : KernelSys}
    {ops : List KernelOp} (H : s.Start U others rest)
    (hroom : AllSteps kernelStep (fun s op => op.HasRoom s) s ops) :
    Along kernelStep KernelSys.SharesKernel s ops ↔
    AllSteps kernelStep (fun s op => op.KeepsSlots s) s ops := by
  obtain ⟨T, leaf, Hinv⟩ := H.inv
  rw [along_iff_allSteps_of
    (I := fun s => ∃ T leaf anon rest, KernelInv U others s T leaf anon rest)
    (fun s op s' ⟨T, leaf, anon, rest, H⟩ _ hr hs hP => (H.step hr hs).1 ((H.step hr hs).2 hP))
    (fun s op s' ⟨T, leaf, anon, rest, H⟩ _ hr hs => ⟨(H.step hr hs).2, fun hq => ?_⟩)
      ⟨T, leaf, [], rest, Hinv⟩ hroom]
  · exact and_iff_right Hinv.sharesKernel
  · obtain ⟨_, _, _, _, H'⟩ := (H.step hr hs).1 hq
    exact H'.sharesKernel

/-- The kernel on a machine with little memory. -/
def smallKernel : KernelSys := ⟨(smallVmm .kernel).machine, (smallVmm .kernel).space, []⟩

theorem smallKernel_start :
    smallKernel.Start (pmmInitPages smallMemmap) [] [(smallVmm .kernel).root] := by
  have H := smallVmm_start .kernel
  have htree := PageTree.empty (Nat.le_refl 512) (H.frames.isFrame List.mem_cons_self)
    (fun i _ => show (smallVmm .kernel).machine.mem (entryAddr _ i) = 0 from rfl)
  refine ⟨H.frames, ⟨_, _, htree, fun {p f} h => ?_, fun _ _ _ => rfl⟩, rfl, rfl, H.untouched, rfl⟩
  obtain ⟨-, h⟩ := Option.ite_none_right_eq_some.mp h
  rw [← Option.some.inj h]
  exact List.mem_cons_self

theorem kernelStep_vmm_spaces {s s' : KernelSys} {op : VmmOp}
    (h : kernelStep s (.vmm op) = some s') : s'.spaces = s.spaces := by
  obtain ⟨t, -, rfl⟩ := Option.map_eq_some_iff.mp h
  rfl

instance KernelOp.HasRoom.decidable (s : KernelSys) : (op : KernelOp) → Decidable (op.HasRoom s)
  | .newSpace _ => .isTrue trivial
  | .vmm op => inferInstanceAs (Decidable (op.HasRoom s.view))
  | .heapPage _ => .isTrue trivial

/-- A page of the kernel is touched before a space is made, and another one in the same slot after
it. -/
def sharedSlot : List KernelOp :=
  [.vmm (.alloc 0x2000 18 0 true), .vmm (.fault vmmKernelStart), .newSpace true,
    .vmm (.fault (vmmKernelStart + 0x1000))]

theorem kernelRun_shares_iff_sharedSlot :
    (runFrom kernelStep smallKernel sharedSlot).isSome = true ∧
    Along kernelStep KernelSys.SharesKernel smallKernel sharedSlot := by
  have hroom : AllSteps kernelStep (fun s op => op.HasRoom s) smallKernel sharedSlot := by
    decide +kernel
  have hslot : ∀ s, runFrom kernelStep smallKernel (sharedSlot.take 3) = some s →
      s.SlotPresent (vmmKernelStart + 0x1000) := by
    have heval : (runFrom kernelStep smallKernel (sharedSlot.take 3)).all (fun s =>
        s.machine.mem (entryAddr s.kernel.pml4Phys ((vmmKernelStart + 0x1000) / 2 ^ 39 % 512)) &&&
          pteFlagPresent != 0) = true := by decide +kernel
    intro s hs
    rw [hs, Option.all_some] at heval
    exact bne_iff_ne.mp heval
  refine ⟨by decide +kernel, (kernelRun_shares_iff smallKernel_start hroom).mpr ?_⟩
  refine .intro (.inl rfl) fun s₁ h₁ => .intro (.inl (kernelStep_vmm_spaces h₁)) fun s₂ h₂ =>
    .intro (.inr fun _ => False.elim) fun s₃ h₃ => .intro (.inr fun x hx => ?_) fun _ _ => trivial
  obtain rfl : x = vmmKernelStart + 0x1000 := hx
  exact hslot s₃
    (runFrom_cons.mpr ⟨s₁, h₁, runFrom_cons.mpr ⟨s₂, h₂, runFrom_cons.mpr ⟨s₃, h₃, rfl⟩⟩⟩)

/-- The first page of the kernel's window is touched after a space has been made. -/
theorem kernelRun_missingSlot :
    smallKernel.Start (pmmInitPages smallMemmap) [] [(smallVmm .kernel).root] ∧
    ∃ t, runFrom kernelStep smallKernel
      [.vmm (.alloc 0x1000 18 0 true), .newSpace true, .vmm (.fault vmmKernelStart)] = some t ∧
      ¬ t.SharesKernel := by
  have heval : ((runFrom kernelStep smallKernel
      [.vmm (.alloc 0x1000 18 0 true), .newSpace true, .vmm (.fault vmmKernelStart)]).map fun t =>
        (t.spaces.map fun v => (pageWalk t.machine.mem v.pml4Phys vmmKernelStart).isSome,
          (pageWalk t.machine.mem t.kernel.pml4Phys vmmKernelStart).isSome)) =
            some ([false], true) := by
    decide +kernel
  obtain ⟨t, ht, heq⟩ := Option.map_eq_some_iff.mp heval
  obtain ⟨hspaces, hkernel⟩ := Prod.mk.inj heq
  refine ⟨smallKernel_start, t, ht, fun hshares => ?_⟩
  obtain ⟨v, rest, hv, hwalk, -⟩ := List.map_eq_cons_iff.mp hspaces
  have hsame := hshares v (hv ▸ List.mem_cons_self) vmmKernelStart (by decide)
  rw [hsame, hkernel] at hwalk
  cases hwalk

end Plos
