import Plos.Memory.Paging.Regions
import Plos.Memory.Pmm.Frames

/-! The kernel page tables that `paging_init` builds, and the direct map of the memory in them.

The four segments of the kernel are mapped with small pages, and then all memory up to
`pmm_getHighestAddr() - 1` with huge ones. The last address is not counted, but the memory ends at a
page boundary, so no huge page starts there. The set-up of the page attribute table and of the
control registers is not modelled. -/

namespace Plos

/-- `_KERNEL_START`, as the linker script has it. -/
abbrev kernelStart : Nat := 0xFFFFFFFF80000000

/-- The other symbols of the linker script. -/
structure KernelImage where
  limineRequestsStart : Nat
  limineRequestsEnd : Nat
  textStart : Nat
  textEnd : Nat
  rodataStart : Nat
  rodataEnd : Nat
  dataStart : Nat
  dataEnd : Nat
  kernelEnd : Nat

def pmmGetHighestAddr (s : Pmm) : Nat := s.highestAddr

/-- One of the calls that map a segment, from `start` to `stop`. -/
def pagingMapSegment (m : Machine Pmm) (kernelPml4Phys kPhys start stop flags : Nat) :
    Option (Machine Pmm) :=
  pagingMapRegion pmmFrames m kernelPml4Phys start (add64 kPhys (sub64 start kernelStart))
    (sub64 stop start) flags false

/-- Returns the physical address of the new tables. -/
def pagingInit (m : Machine Pmm) (image : KernelImage) (kPhys hhdmOffset : Nat) :
    Option (Nat × Machine Pmm) :=
  let (frames, kernelPml4Phys) := pmmFrames.alloc m.frames
  if kernelPml4Phys = 0 then none
  else do
    let m : Machine Pmm := ⟨memsetPage m.mem kernelPml4Phys, frames⟩
    let m ← pagingMapSegment m kernelPml4Phys kPhys image.limineRequestsStart
      image.limineRequestsEnd (pteFlagRw ||| pteFlagNoExec ||| pteFlagGlobal)
    let m ← pagingMapSegment m kernelPml4Phys kPhys image.textStart image.textEnd pteFlagGlobal
    let m ← pagingMapSegment m kernelPml4Phys kPhys image.rodataStart image.rodataEnd
      (pteFlagNoExec ||| pteFlagGlobal)
    let m ← pagingMapSegment m kernelPml4Phys kPhys image.dataStart image.dataEnd
      (pteFlagNoExec ||| pteFlagRw ||| pteFlagGlobal)
    let physHighestAddr := pmmGetHighestAddr m.frames
    let m ← pagingMapRegion pmmFrames m kernelPml4Phys hhdmOffset 0 (sub64 physHighestAddr 1)
      (pteFlagRw ||| pteFlagGlobal) true
    some (kernelPml4Phys, m)

/-! ## The highest address -/

theorem pmmSplit_highestAddr {n page order : Nat} {s : Pmm} :
    (pmmSplit n s page order).highestAddr = s.highestAddr := by
  induction n generalizing s with
  | zero => rfl
  | succ n ih => exact ih

theorem pmmFrames_alloc_highestAddr (s : Pmm) :
    (pmmFrames.alloc s).1.highestAddr = s.highestAddr := by
  change (pmmAllocPages s 0).1.highestAddr = s.highestAddr
  unfold pmmAllocPages
  split
  · rfl
  · split
    · rfl
    · exact pmmSplit_highestAddr

theorem pmmFreePages_highestAddr (s : Pmm) (phys order : Nat) :
    (pmmFreePages s phys order).highestAddr = s.highestAddr := by
  unfold pmmFreePages
  split
  · rfl
  · split
    · rfl
    · exact pmmCoalesce_const.2.2

theorem pmmInit_highestAddr {memmap : List MemmapEntry} {s : Pmm} (h : pmmInit memmap = some s) :
    s.highestAddr = pmmHighestAddr memmap := by
  rw [pmmInit_eq] at h
  obtain ⟨_, -, rfl⟩ := Option.map_eq_some_iff.mp h
  suffices ∀ (bs : List Block) (s : Pmm), (bs.foldl pmmFreeOne s).highestAddr =
      s.highestAddr from this _ _
  intro bs
  induction bs with
  | nil => exact fun _ => rfl
  | cons b bs ih => exact fun s => (ih _).trans (pmmFreePages_highestAddr ..)

/-! ## The segments -/

/-- The addresses of a segment. -/
structure SegmentOk (image : KernelImage) (start stop : Nat) : Prop where
  start_ge : kernelStart ≤ start
  start_le : start ≤ stop
  stop_le : stop ≤ image.kernelEnd

/-- The image ends below the last page, and its frames have physical addresses. -/
structure KernelImage.Ok (image : KernelImage) (kPhys : Nat) : Prop where
  limineRequests : SegmentOk image image.limineRequestsStart image.limineRequestsEnd
  text : SegmentOk image image.textStart image.textEnd
  rodata : SegmentOk image image.rodataStart image.rodataEnd
  data : SegmentOk image image.dataStart image.dataEnd
  bound : image.kernelEnd ≤ 2 ^ 64 - pagingPageSize
  phys : kPhys + (image.kernelEnd - kernelStart) ≤ 2 ^ 52

/-- The tables while the segments are mapped. -/
structure KernelMapped (memmap : List MemmapEntry) (image : KernelImage) (root : Nat)
    (m : Machine Pmm)
    (T : List Nat → Option Nat) (leaf : List Nat → Nat) (held : List Nat) : Prop where
  tree : PageTree 512 root m.mem T leaf
  holds : PmmHolds (pmmInitPages memmap) [] m.frames held
  tables : ∀ p f, T p = some f → f ∈ held
  small : ∀ x, leaf (leafPath x true) = 0
  origin : ∀ p f, T p = some f → p = [] ∨
    ∃ y, kernelStart ≤ y ∧ y < image.kernelEnd ∧ p <+: tablePath y false
  highest : m.frames.highestAddr = pmmHighestAddr memmap

variable {memmap : List MemmapEntry} {image : KernelImage} {kPhys root : Nat} {m m' : Machine Pmm}
  {T : List Nat → Option Nat} {leaf : List Nat → Nat} {held : List Nat}

theorem canonical_of_image (H : image.Ok kPhys) {y : Nat} (hge : kernelStart ≤ y)
    (hlt : y < image.kernelEnd) : Canonical y := by
  have hbound := H.bound
  simp only [Canonical, kernelStart, pagingPageSize] at *
  omega

/-- One segment. -/
theorem KernelMapped.segment (K : KernelMapped memmap image root m T leaf held) (H : image.Ok kPhys)
    {start stop flags : Nat} (hseg : SegmentOk image start stop)
    (hflags : flags &&& pagingPteAddrMask = 0)
    (h : pagingMapSegment m root kPhys start stop flags = some m') :
    ∃ T' leaf' held', KernelMapped memmap image root m' T' leaf' held' := by
  obtain ⟨hge, hle, hend⟩ := hseg
  have hbound := H.bound
  have hphys := H.phys
  have hstart : sub64 start kernelStart = start - kernelStart := by
    apply sub64_of_le
    · simp only [pagingPageSize] at hbound
      omega
    · exact hge
  have hsize : sub64 stop start = stop - start := by
    apply sub64_of_le
    · simp only [pagingPageSize] at hbound
      omega
    · exact hle
  have hframe : add64 kPhys (start - kernelStart) = kPhys + (start - kernelStart) := by
    apply add64_of_lt
    omega
  rw [pagingMapSegment, hstart, hsize, hframe] at h
  have hstop : start + (stop - start) = stop := by omega
  have R : RegionOk false T leaf start (kPhys + (start - kernelStart)) (stop - start) flags :=
    ⟨fun v _ _ => K.small v, by rw [hstop]; exact Nat.le_trans hend hbound, by omega, hflags⟩
  have hne : start ≠ 0 := Nat.ne_of_gt (Nat.lt_of_lt_of_le (by decide) hge)
  obtain ⟨T', leaf', new, S⟩ :=
    pagingMapRegion_step (PmmHolds.allocSpec _ _) K.tree K.holds K.tables R hne h
  refine ⟨T', leaf', new ++ held, S.tree, S.frames, S.tables, fun x => ?_, fun p f hp => ?_, ?_⟩
  · rw [S.written.other_size (Ne.symm Bool.false_ne_true), K.small]
  · rcases S.origin p f hp with hp | ⟨i, hi, hpre⟩
    · exact K.origin p f hp
    · have hlt : cursor false start i < start + (stop - start) := cursor_lt_iff.mpr hi
      have hle' : start ≤ cursor false start i := Nat.le_add_right ..
      exact .inr ⟨cursor false start i, by omega, by omega, hpre⟩
  · exact pagingMapRegion_frames (J := fun s => s.highestAddr = pmmHighestAddr memmap)
      (fun s hs => (pmmFrames_alloc_highestAddr s).trans hs) K.highest h

/-! ## The direct map -/

/-- The address of `p` in the direct map translates to `p`, with write access. -/
def DirectMapped (mem : Nat → Nat) (root offset p : Nat) : Prop :=
  ∃ rights, pageWalk mem root (hhdmPhysToVirt offset p) = some (p, rights) ∧ rights.write = true

/-- The direct map starts at a huge page, does not wrap, has canonical addresses and does not meet
the kernel image. -/
structure HhdmOk (image : KernelImage) (offset highestAddr : Nat) : Prop where
  aligned : offset % pagingHugePageSize = 0
  noWrap : offset + highestAddr ≤ 2 ^ 64
  canonical : ∀ p < highestAddr, Canonical (offset + p)
  apart : offset + highestAddr ≤ kernelStart ∨ image.kernelEnd ≤ offset

/-- A loop that reaches the last page does not end: the cursor wraps to 0, where no page can be
mapped. -/
theorem pagingMapLoop_top {α : Type} {A : FrameAllocator α} {m : Machine α} {isHuge : Bool}
    {stop flags fuel virt phys k : Nat} (hstop : 0 < stop)
    (hlt : ∀ i < k + 1, cursor isHuge virt i < stop) (htop : cursor isHuge virt (k + 1) = 2 ^ 64) :
    pagingMapLoop A root stop flags isHuge fuel m virt phys = none := by
  have hpos := pagingStride_pos isHuge
  induction k generalizing fuel m virt phys with
  | zero =>
    have hv : virt < stop := hlt 0 Nat.one_pos
    have hnext : add64 virt (pagingStride isHuge) = 0 := by
      rw [cursor, Nat.mul_one] at htop
      rw [add64, addW, htop, Nat.mod_self]
    cases fuel with
    | zero => rfl
    | succ fuel =>
      rw [pagingMapLoop, if_pos hv, hnext]
      split
      · rfl
      · cases fuel with
        | zero => rfl
        | succ fuel =>
          rw [pagingMapLoop, if_pos hstop, pagingMapPage, if_pos rfl]
  | succ k ih =>
    have hv : virt < stop := hlt 0 (Nat.succ_pos _)
    have hnext : add64 virt (pagingStride isHuge) = virt + pagingStride isHuge := by
      apply add64_of_lt
      rw [cursor, Nat.mul_succ, Nat.mul_succ] at htop
      omega
    cases fuel with
    | zero => rfl
    | succ fuel =>
      rw [pagingMapLoop, if_pos hv, hnext]
      split
      · rfl
      · refine ih (fun i hi => ?_) ?_
        · rw [← cursor_succ]
          exact hlt (i + 1) (Nat.succ_lt_succ hi)
        · rw [← cursor_succ]
          exact htop

/-- The page at 0 cannot be mapped. -/
theorem pagingMapRegion_virt_ne_zero {α : Type} {A : FrameAllocator α} {m m' : Machine α}
    {isHuge : Bool} {virt phys size flags : Nat} (hsize : 0 < size) (hlt : size < 2 ^ 64)
    (h : pagingMapRegion A m root virt phys size flags isHuge = some m') : virt ≠ 0 := by
  rintro rfl
  have hstop : 0 < add64 0 size := by
    rw [add64_of_lt (by omega)]
    omega
  rw [pagingMapRegion, pagingMapLoop, if_pos hstop, pagingMapPage, if_pos rfl] at h
  cases h

/-- The direct map stays below the last huge page of the address space, since its loop ends. -/
theorem HhdmOk.bound {offset highestAddr flags : Nat} (H : HhdmOk image offset highestAddr)
    (hne : highestAddr ≠ 0)
    (h : pagingMapRegion pmmFrames m root offset 0 (highestAddr - 1) flags true = some m') :
    offset + (highestAddr - 1) ≤ 2 ^ 64 - pagingStride true := by
  by_contra hgt
  have hmod := H.aligned
  have hwrap := H.noWrap
  have hstride : pagingStride true = 2 ^ 21 := rfl
  rw [hstride] at hgt
  simp only [pagingHugePageSize] at hmod
  have hstop : add64 offset (highestAddr - 1) = offset + (highestAddr - 1) := add64_of_lt (by omega)
  obtain ⟨k, hk⟩ : ∃ k, offset + 2 ^ 21 * (k + 1) = 2 ^ 64 :=
    ⟨(2 ^ 64 - offset) / 2 ^ 21 - 1, by omega⟩
  have hlt (i : Nat) (hi : i < k + 1) : cursor true offset i < offset + (highestAddr - 1) := by
    rw [cursor, hstride]
    omega
  rw [pagingMapRegion, hstop, pagingMapLoop_top (by omega) hlt hk] at h
  cases h

/-- No table of a segment is in the way of the direct map. -/
theorem KernelMapped.sizeFree (K : KernelMapped memmap image root m T leaf held)
    (H : image.Ok kPhys) {offset highestAddr p : Nat} (Hh : HhdmOk image offset highestAddr)
    (hp : p < highestAddr) : SizeFree true T leaf (offset + p) := by
  cases hT : T (leafPath (offset + p) true) with
  | none => exact hT
  | some f =>
    rcases K.origin _ _ hT with hnil | ⟨y, hge, hlt, hpre⟩
    · cases hnil
    · have hpath : leafPath (offset + p) true = leafPath y true := hpre.eq_of_length rfl
      have hslot := leafPath_inj (Hh.canonical p hp) (canonical_of_image H hge hlt) hpath
      have hmod := Hh.aligned
      simp only [pageNumber, pagingStride, if_true, pagingHugePageSize,
        kernelStart] at hslot hmod hge
      rcases Hh.apart with hapart | hapart
      · simp only [kernelStart] at hapart
        omega
      · omega

/-- The last call of `paging_init` maps all memory. -/
theorem KernelMapped.directMap (K : KernelMapped memmap image root m T leaf held)
    (H : image.Ok kPhys) {offset highestAddr : Nat} (Hh : HhdmOk image offset highestAddr)
    (hmod : highestAddr % pmmPageSize = 0) (hphys : highestAddr ≤ 2 ^ 52)
    (h : pagingMapRegion pmmFrames m root offset 0 (highestAddr - 1) (pteFlagRw ||| pteFlagGlobal)
      true = some m')
    {p : Nat} (hp : p < highestAddr) : DirectMapped m'.mem root offset p := by
  have hbound := Hh.bound (by omega) h
  have hlow : 0 < highestAddr - 1 := by
    simp only [pmmPageSize] at hmod
    omega
  have hlow' : highestAddr - 1 < 2 ^ 64 := by omega
  have hin {v : Nat} (hle : offset ≤ v) (hlt : v < offset + (highestAddr - 1)) :
      ∃ q < highestAddr, v = offset + q := ⟨v - offset, by omega, by omega⟩
  have hflags : (pteFlagRw ||| pteFlagGlobal) &&& pagingPteAddrMask = 0 := by decide
  have R : RegionOk true T leaf offset 0 (highestAddr - 1) (pteFlagRw ||| pteFlagGlobal) := by
    refine ⟨fun v hle hlt => ?_, hbound, by omega, hflags⟩
    obtain ⟨q, hq, rfl⟩ := hin hle hlt
    exact K.sizeFree H Hh hq
  have hcan (v : Nat) (hle : offset ≤ v) (hlt : v < offset + (highestAddr - 1)) : Canonical v := by
    obtain ⟨q, hq, rfl⟩ := hin hle hlt
    exact Hh.canonical q hq
  have hne : offset ≠ 0 := pagingMapRegion_virt_ne_zero hlow hlow' h
  obtain ⟨T', leaf', new, S⟩ :=
    pagingMapRegion_step (PmmHolds.allocSpec _ _) K.tree K.holds K.tables R hne h
  have haligned := Hh.aligned
  have hvirt : hhdmPhysToVirt offset p = offset + p := by
    rw [hhdmPhysToVirt, Nat.add_comm offset]
    apply add64_of_lt
    have hwrap := Hh.noWrap
    omega
  -- the page of `p` is visited: the memory ends at a page boundary, and so not behind one byte of a
  -- huge page
  have hround : p / 2 ^ 21 < pagingRounds true (highestAddr - 1) := by
    rw [lt_pagingRounds]
    simp only [pagingStride, if_true, pagingHugePageSize, pmmPageSize] at hmod ⊢
    omega
  have hpage : pageNumber (offset + p) true = pageNumber offset true + p / 2 ^ 21 := by
    simp only [pageNumber, pagingStride, if_true, pagingHugePageSize] at haligned ⊢
    omega
  have hcursor : cursor true 0 (p / 2 ^ 21) = 2 ^ 21 * (p / 2 ^ 21) := Nat.zero_add _
  have hentry : leaf' (leafPath (offset + p) true) =
      pagingEntry (2 ^ 21 * (p / 2 ^ 21)) (pteFlagRw ||| pteFlagGlobal) true := by
    rw [S.written.hit_page (canonical_cursor hcan) hround hpage, hcursor]
  have hwalk :=
    leafWalk_of_pagingEntry (v := offset + p) (by omega) hflags hentry fun h =>
      absurd h.symm Bool.false_ne_true
  refine ⟨leafRights (pteFlagRw ||| pteFlagGlobal), ?_, by decide⟩
  rw [hvirt, S.tree.pageWalk_full (Hh.canonical p hp), hwalk]
  refine congrArg some (Prod.ext ?_ rfl)
  simp only [pagingStride, if_true, pagingHugePageSize] at haligned ⊢
  omega

/-- The new table before anything is mapped. -/
theorem KernelMapped.init {s s' : Pmm} {mem : Nat → Nat} (H : MemmapOk memmap)
    (hs : pmmInit memmap = some s) (halloc : pmmFrames.alloc s = (s', root)) (hroot : root ≠ 0) :
    KernelMapped memmap image root ⟨memsetPage mem root, s'⟩
      (fun p => if p = [] then some root else none)
      (fun _ => 0) [root] := by
  have hhighest := pmmFrames_alloc_highestAddr s
  rw [halloc, pmmInit_highestAddr hs] at hhighest
  rcases (H.holds hs).alloc with ⟨hr, -⟩ | ⟨s₁, f, hr, Hf⟩
  · cases halloc.symm.trans hr
    exact absurd rfl hroot
  · cases halloc.symm.trans hr
    have hframe : IsFrame root := Hf.isFrame List.mem_cons_self
    have htable {p : List Nat} {f : Nat} (hp : (if p = [] then some root else none) = some f) :
        p = [] ∧ f = root := by
      obtain ⟨hnil, hf⟩ := Option.ite_none_right_eq_some.mp hp
      exact ⟨hnil, (Option.some.inj hf).symm⟩
    exact ⟨.empty (Nat.le_refl 512) hframe fun i hi => memsetPage_entry hi, Hf,
      fun p f hp => List.mem_singleton.mpr (htable hp).2, fun _ => rfl, fun p f hp =>
        .inl (htable hp).1, hhighest⟩

/-- The calls of `paging_init`. -/
theorem pagingInit_calls {s : Pmm} {mem : Nat → Nat} {offset : Nat} (H : MemmapOk memmap)
    (hs : pmmInit memmap = some s) (Hk : image.Ok kPhys)
    (h : pagingInit ⟨mem, s⟩ image kPhys offset = some (root, m)) :
    ∃ m₁ T leaf held, KernelMapped memmap image root m₁ T leaf held ∧
      pagingMapRegion pmmFrames m₁ root offset 0 (sub64 (pmmHighestAddr memmap) 1)
        (pteFlagRw ||| pteFlagGlobal) true = some m := by
  unfold pagingInit at h
  obtain ⟨⟨s', f⟩, halloc⟩ : ∃ r, pmmFrames.alloc s = r := ⟨_, rfl⟩
  simp only [halloc] at h
  obtain ⟨hf, h⟩ := Option.ite_none_left_eq_some.mp h
  simp only [bind, Option.bind_eq_some_iff] at h
  obtain ⟨m₁, h₁, m₂, h₂, m₃, h₃, m₄, h₄, m₅, h₅, h⟩ := h
  cases h
  have K : KernelMapped memmap image root ⟨memsetPage mem root, s'⟩ _ _ _ := .init H hs halloc hf
  obtain ⟨T₁, leaf₁, held₁, K₁⟩ := K.segment Hk Hk.limineRequests (by decide) h₁
  obtain ⟨T₂, leaf₂, held₂, K₂⟩ := K₁.segment Hk Hk.text (by decide) h₂
  obtain ⟨T₃, leaf₃, held₃, K₃⟩ := K₂.segment Hk Hk.rodata (by decide) h₃
  obtain ⟨T₄, leaf₄, held₄, K₄⟩ := K₃.segment Hk Hk.data (by decide) h₄
  rw [pmmGetHighestAddr, K₄.highest] at h₅
  exact ⟨m₄, T₄, leaf₄, held₄, K₄, h₅⟩

/-- The pages of a block that the physical memory manager has returned lie below the highest
address. -/
theorem MemmapOk.live_lt (H : MemmapOk memmap) (hmod : pmmHighestAddr memmap % pmmPageSize = 0)
    {ops : List PmmOp} {t : PmmSys} (hrun : pmmRun memmap ops = some t) {b : Block}
    (hb : b ∈ t.live) {x d : Nat} (hx : b.Covers x) (hd : d < pmmPageSize) :
    x * pmmPageSize + d < pmmHighestAddr memmap := by
  have hmem : x ∈ pmmInitPages memmap :=
    (H.run_inv hrun).blocks.covers_mem (List.mem_append_left _ hb) hx
  obtain ⟨c, hc, hxc⟩ := hmem
  have hlt := H.carvable.initBlocks_tiling.lt_of_covers hc hxc
  rw [pmmTotalPages, if_neg (not_not.mpr hmod)] at hlt
  simp only [pmmPageSize] at *
  omega

/-- If `paging_init` returns, all memory below the highest address is in the direct map, and so are
the blocks of the physical memory manager, whenever it returns them. -/
theorem pagingInit_directMapped {s : Pmm} {mem : Nat → Nat} {offset : Nat} (H : MemmapOk memmap)
    (hs : pmmInit memmap = some s) (hmod : pmmHighestAddr memmap % pmmPageSize = 0)
    (Hk : image.Ok kPhys) (Hh : HhdmOk image offset (pmmHighestAddr memmap))
    (h : pagingInit ⟨mem, s⟩ image kPhys offset = some (root, m)) :
    (∀ p < pmmHighestAddr memmap, DirectMapped m.mem root offset p) ∧
      ∀ ops t, pmmRun memmap ops = some t → ∀ b ∈ t.live, ∀ x, b.Covers x → ∀ d < pmmPageSize,
        DirectMapped m.mem root offset (x * pmmPageSize + d) := by
  obtain ⟨m₁, T, leaf, held, K, hmap⟩ := pagingInit_calls H hs Hk h
  have hmapped (p : Nat) (hp : p < pmmHighestAddr memmap) : DirectMapped m.mem root offset p := by
    rw [sub64_of_le (pmmHighestAddr_lt memmap) (Nat.one_le_of_lt hp)] at hmap
    exact K.directMap Hk Hh hmod H.highestAddr_le hmap hp
  refine ⟨hmapped, fun ops t hrun b hb x hx d hd => hmapped _ ?_⟩
  exact H.live_lt hmod hrun hb hx hd

/-- An image of four pages. -/
def smallImage : KernelImage where
  limineRequestsStart := 0xFFFFFFFF80000000
  limineRequestsEnd := 0xFFFFFFFF80000100
  textStart := 0xFFFFFFFF80001000
  textEnd := 0xFFFFFFFF80001800
  rodataStart := 0xFFFFFFFF80002000
  rodataEnd := 0xFFFFFFFF80002010
  dataStart := 0xFFFFFFFF80003000
  dataEnd := 0xFFFFFFFF80003800
  kernelEnd := 0xFFFFFFFF80004000

theorem smallImage_ok : smallImage.Ok 0x100000 where
  limineRequests := ⟨by decide, by decide, by decide⟩
  text := ⟨by decide, by decide, by decide⟩
  rodata := ⟨by decide, by decide, by decide⟩
  data := ⟨by decide, by decide, by decide⟩
  bound := by decide
  phys := by decide

theorem pagingInit_smallImage : ((pmmInit smallMemmap).bind fun s =>
    pagingInit ⟨fun _ => 0, s⟩ smallImage 0x100000 0xFFFF800000000000).isSome := by
  decide +kernel

theorem pagingInit_directMapped_small : ∃ s root m, pmmInit smallMemmap = some s ∧
    pagingInit ⟨fun _ => 0, s⟩ smallImage 0x100000 0xFFFF800000000000 = some (root, m) ∧
      ∀ p < 0x1A000, DirectMapped m.mem root 0xFFFF800000000000 p := by
  obtain ⟨⟨root, m⟩, h⟩ := Option.isSome_iff_exists.mp pagingInit_smallImage
  obtain ⟨s, hs, h⟩ := Option.bind_eq_some_iff.mp h
  have hhighest : pmmHighestAddr smallMemmap = 0x1A000 := by decide
  have Hh : HhdmOk smallImage 0xFFFF800000000000 (pmmHighestAddr smallMemmap) := by
    rw [hhighest]
    exact ⟨by decide, by decide, fun p hp => .inr (by omega), .inl (by decide)⟩
  refine ⟨s, root, m, hs, h, fun p hp => ?_⟩
  exact (pagingInit_directMapped smallMemmap_ok hs (by decide) smallImage_ok Hh h).1 p
    (hhighest ▸ hp)

end Plos
