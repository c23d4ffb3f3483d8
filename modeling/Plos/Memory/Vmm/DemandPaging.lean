import Plos.Memory.Vmm.Spaces

/-! Demand paging in one address space.

`vmm_alloc` of anonymous memory maps nothing, the page fault handler gives each page that is touched
a frame, and `vmm_free` gives the frames back. In every run in which there is room for the areas in
the window of the space, and memory-mapped I/O is used for devices only, the account of the frames
is exact in every state. -/

namespace Plos

/-- Anonymous memory. -/
def isAnon (flags : Nat) : Prop := flags &&& vmmFlagsAnon ≠ 0 ∧ flags &&& vmmFlagsMmio = 0

instance (flags : Nat) : Decidable (isAnon flags) := inferInstanceAs (Decidable (_ ∧ _))

/-- All calls but the allocation of memory that is not anonymous. -/
def VmmOp.AnonOnly : VmmOp → Prop
  | alloc _ flags _ _ => isAnon flags
  | fault _ => True
  | free _ => True

instance : (op : VmmOp) → Decidable op.AnonOnly
  | .alloc _ flags _ _ => inferInstanceAs (Decidable (isAnon flags))
  | .fault _ => .isTrue trivial
  | .free _ => .isTrue trivial

def demandStep (s : VmmSys) (op : VmmOp) : Option VmmSys :=
  if op.AnonOnly then vmmStep s op else none

/-! ## The account of the frames -/

/-- The pages of an area. -/
def VmArea.pages (a : VmArea) : List Nat :=
  (List.range (a.size / pagingPageSize)).map fun i => a.base + pagingPageSize * i

/-- The pages of an area that page faults have filled: those that are translated, unless the area is
memory-mapped I/O. -/
def VmmSys.faultedPages (s : VmmSys) (a : VmArea) : List Nat :=
  if a.flags &&& vmmFlagsMmio = 0 then a.pages.filter fun x => (s.walk x).isSome else []

/-- What `vmm_free` of an address in the area `a` does. -/
structure FreesArea (s : VmmSys) (a : VmArea) (s' : VmmSys) : Prop where
  space : s'.space = { s.space with regionList := s.space.regionList.erase a }
  gone : ∀ x, a.Contains x → s'.walk x = none
  kept : ∀ x, ¬ a.Contains x → s'.walk x = s.walk x
  freed : s'.machine.frames.freePages = s.machine.frames.freePages ∪
    {p | ∃ x ∈ s.faultedPages a, ∃ phys rights,
      s.walk x = some (phys, rights) ∧ phys / pmmPageSize = p}
  once : s'.machine.frames.freeCount = s.machine.frames.freeCount + (s.faultedPages a).length
  untouched : s.faultedPages a = [] → s'.machine.frames = s.machine.frames

/-- Each translated page of anonymous memory has a frame of its own with one reference, behind no
other page of any area, and `vmm_free` gives back exactly the frames of the area it removes. -/
structure Conserved (s : VmmSys) : Prop where
  backed : ∀ a ∈ s.space.regionList, isAnon a.flags → ∀ x, a.Contains x → ∀ phys rights,
    s.walk x = some (phys, rights) →
      (s.machine.frames.buddyMemmap (phys / pmmPageSize)).flags &&& pmmFlagUsed ≠ 0 ∧
      (s.machine.frames.buddyMemmap (phys / pmmPageSize)).refCount = 1 ∧
      phys / pmmPageSize ∉ s.machine.frames.freePages
  own : ∀ a ∈ s.space.regionList, isAnon a.flags → ∀ b ∈ s.space.regionList,
    ∀ x y, a.Contains x → b.Contains y → ∀ phys phys' rights rights',
      s.walk x = some (phys, rights) → s.walk y = some (phys', rights') →
      phys / pmmPageSize = phys' / pmmPageSize → x / pagingPageSize = y / pagingPageSize
  frees : ∀ a ∈ s.space.regionList, ∀ addr, a.Contains addr →
    ∃ s', vmmCall s (.free addr) = some s' ∧ FreesArea s a s'
  ignores : ∀ addr < 2 ^ 64, (∀ a ∈ s.space.regionList, ¬ a.Contains addr) →
    vmmCall s (.free addr) = some s

/-- The areas for memory-mapped I/O lead to no page of the allocator. -/
def MmioOutside (U : Set Nat) (s : VmmSys) : Prop :=
  ∀ a ∈ s.space.regionList, a.flags &&& vmmFlagsMmio ≠ 0 → ∀ x, a.Contains x → ∀ phys rights,
    s.walk x = some (phys, rights) → phys / pmmPageSize ∉ U

/-- A space in use: its areas are disjoint and in its window, what is mapped in the window is in an
area, the pages of anonymous memory that have been touched have frames of their own (`SpaceInv`),
and memory-mapped I/O leads to devices. -/
structure VmmSys.Accounted (U : Set Nat) (others : List Block) (s : VmmSys) : Prop where
  inv : ∃ T leaf anon rest, SpaceInv U others 512 s.machine s.space T leaf anon rest
  devices : MmioOutside U s

/-- Memory-mapped I/O maps physical addresses at which there are no pages of the allocator. -/
def VmmOp.DeviceOnly (U : Set Nat) : VmmOp → Prop
  | alloc size flags arg _ => flags &&& vmmFlagsMmio ≠ 0 → arg + pageAlignUp size ≤ 2 ^ 52 ∧
      ∀ p ∈ U, ¬ (arg / pmmPageSize ≤ p ∧ p * pmmPageSize < arg + pageAlignUp size)
  | fault _ => True
  | free _ => True

/-- A space with disjoint areas of anonymous memory in its window, no page of which has been
touched. The tables and the frames `held` are those of the physical memory manager. -/
structure VmmSys.Start (U : Set Nat) (others : List Block) (held : List Nat) (s : VmmSys) :
  Prop where
  frames : PmmHolds U others s.machine.frames held
  tree : ∃ T leaf, PageTree 512 s.root s.machine.mem T leaf ∧ ∀ {p f}, T p = some f → f ∈ held
  areas : RegionsWF s.space.regionList
  window : ∀ a ∈ s.space.regionList, isAnon a.flags ∧ s.space.space.regionSearchStart ≤ a.base ∧
    a.limit ≤ s.space.space.regionSearchEnd + 1
  untouched : ∀ x, s.space.space.Window x → s.walk x = none

section
variable {U : Set Nat} {others : List Block} {n : Nat} {m m' : Machine Pmm} {v v' : AddressSpace}
  {T : List Nat → Option Nat} {leaf : List Nat → Nat} {anon : List (Nat × Nat)} {rest : List Nat}
  {a : VmArea} {x y phys : Nat} {rights : Rights}

namespace SpaceInv

/-- The translation of an address of an anonymous area. -/
theorem walk_anon (H : SpaceInv U others n m v T leaf anon rest) (ha : a ∈ v.regionList)
    (hflags : a.flags &&& vmmFlagsMmio = 0) (hx : a.Contains x)
    (hwalk : pageWalk m.mem v.pml4Phys x = some (phys, rights)) :
    ∃ f, (x / pagingPageSize, f) ∈ anon ∧ phys / pmmPageSize = f / pmmPageSize := by
  have hw := H.contains_window ha hx
  obtain ⟨hcan, hn, hsmall⟩ := H.page_window hw
  have hne : leaf (leafPath x false) ≠ 0 := by
    intro hzero
    rw [(H.pageWalk_eq_none hw).mpr hzero] at hwalk
    cases hwalk
  have hmem := H.owned ha hflags hx hne
  refine ⟨_, hmem, ?_⟩
  rw [H.tree.pageWalk_eq hn hcan, leafWalk, if_neg (not_not.mpr hsmall), if_pos hne] at hwalk
  have hphys := congrArg Prod.fst (Option.some.inj hwalk)
  have hmod := H.held.aligned _ (List.mem_append_left _ (List.mem_map_of_mem hmem))
  simp only [pmmPageSize] at *
  omega

/-- A page of the list is translated to its frame. -/
theorem walk_page (H : SpaceInv U others n m v T leaf anon rest) {k f : Nat} (hkf : (k, f) ∈ anon) :
    ∃ rights, pageWalk m.mem v.pml4Phys (k * pagingPageSize) = some (f, rights) := by
  obtain ⟨b, hb, -, hk⟩ := H.anonArea hkf
  obtain ⟨hcan, hn, hsmall⟩ := H.page_window (H.contains_window hb hk)
  obtain ⟨-, hne, hmask⟩ := H.backed hkf
  rw [H.tree.pageWalk_eq hn hcan, leafWalk, if_neg (not_not.mpr hsmall), if_pos hne, hmask]
  have hoff : k * pagingPageSize % 2 ^ 12 = 0 := Nat.mul_mod_left k _
  rw [hoff]
  exact ⟨_, rfl⟩

theorem mem_pages (H : SpaceInv U others n m v T leaf anon rest) (ha : a ∈ v.regionList) :
    x ∈ a.pages ↔ a.Contains x ∧ x % pagingPageSize = 0 := by
  have hbase := H.wf.aligned a ha
  have hsize := (H.wf.sizes a ha).2
  rw [VmArea.pages, List.mem_map]
  constructor
  · rintro ⟨i, hi, rfl⟩
    have hi := List.mem_range.mp hi
    simp only [VmArea.Contains, VmArea.limit, pagingPageSize] at *
    omega
  · rintro ⟨hx, hmod⟩
    refine ⟨(x - a.base) / pagingPageSize, List.mem_range.mpr ?_, ?_⟩
    · simp only [VmArea.Contains, VmArea.limit, pagingPageSize] at *
      omega
    · simp only [VmArea.Contains, VmArea.limit, pagingPageSize] at *
      omega

/-- The pages that faults have filled are those of the list. -/
theorem mem_faultedPages (H : SpaceInv U others n m v T leaf anon rest) (ha : a ∈ v.regionList) :
    x ∈ VmmSys.faultedPages ⟨m, v⟩ a ↔
      ∃ k f, (k, f) ∈ anon ∧ a.Contains (k * pagingPageSize) ∧ k * pagingPageSize = x := by
  constructor
  · intro hx
    obtain ⟨hflags, hx⟩ := List.mem_ite_nil_right.mp hx
    obtain ⟨hpage, hsome⟩ := List.mem_filter.mp hx
    obtain ⟨hcontains, hmod⟩ := (H.mem_pages ha).mp hpage
    obtain ⟨⟨phys, rights⟩, hwalk⟩ := Option.isSome_iff_exists.mp hsome
    obtain ⟨f, hf, -⟩ := H.walk_anon ha hflags hcontains hwalk
    have hback : x / pagingPageSize * pagingPageSize = x :=
      Nat.div_mul_cancel (Nat.dvd_of_mod_eq_zero hmod)
    exact ⟨_, f, hf, hback.symm ▸ hcontains, hback⟩
  · rintro ⟨k, f, hkf, hk, rfl⟩
    obtain ⟨b, hb, hflags, hkb⟩ := H.anonArea hkf
    obtain rfl := H.wf.eq_of_contains ha hb hk hkb
    obtain ⟨rights, hwalk⟩ := H.walk_page hkf
    refine List.mem_ite_nil_right.mpr ⟨hflags, List.mem_filter.mpr
      ⟨(H.mem_pages ha).mpr ⟨hk, Nat.mul_mod_left _ _⟩, ?_⟩⟩
    exact Option.isSome_iff_exists.mpr ⟨_, hwalk⟩

theorem length_faultedPages (H : SpaceInv U others n m v T leaf anon rest) (ha : a ∈ v.regionList) :
    (VmmSys.faultedPages ⟨m, v⟩ a).length =
      (anon.filter fun kf => a.Contains (kf.1 * pagingPageSize)).length := by
  have hnodup : a.pages.Nodup := by
    refine List.nodup_range.map fun i j h => ?_
    simp only [pagingPageSize] at h
    omega
  -- both sides list the same pages once
  rw [← List.length_map fun kf : Nat × Nat => kf.1 * pagingPageSize]
  refine List.Perm.length_eq ((List.perm_ext_iff_of_nodup ?_ ?_).mpr fun x => ?_)
  · unfold VmmSys.faultedPages
    split
    · exact hnodup.filter _
    · exact List.nodup_nil
  · refine (H.nodup.filter _).map_on ?_
    rintro ⟨k, f⟩ hkf ⟨l, g⟩ hlg h
    have hkl : k = l := Nat.eq_of_mul_eq_mul_right (by decide) h
    subst hkl
    have hfg : f = g := (H.backed (List.mem_filter.mp hkf).1).2.2.symm.trans
      (H.backed (List.mem_filter.mp hlg).1).2.2
    rw [hfg]
  · rw [H.mem_faultedPages ha, List.mem_map]
    constructor
    · rintro ⟨k, f, hkf, hk, rfl⟩
      exact ⟨(k, f), List.mem_filter.mpr ⟨hkf, decide_eq_true hk⟩, rfl⟩
    · rintro ⟨⟨k, f⟩, hkf, rfl⟩
      obtain ⟨hmem, hk⟩ := List.mem_filter.mp hkf
      exact ⟨k, f, hmem, of_decide_eq_true hk, rfl⟩

/-- The frames of one area and the others. -/
theorem held_split (H : SpaceInv U others n m v T leaf anon rest) (a : VmArea) :
    PmmHolds U others m.frames
      ((anon.filter fun kf => a.Contains (kf.1 * pagingPageSize)).map Prod.snd ++
        ((anon.filter fun kf => ¬ a.Contains (kf.1 * pagingPageSize)).map Prod.snd ++ rest)) := by
  simp only [decide_not]
  exact (H.toPaged.keep _).held

/-- What is behind a translated page of the window is its own frame, or a device. -/
theorem own_frame (H : SpaceInv U others n m v T leaf anon rest) (hdev : MmioOutside U ⟨m, v⟩)
    {b : VmArea} {phys' : Nat} {rights' : Rights} (ha : a ∈ v.regionList)
    (hflags : a.flags &&& vmmFlagsMmio = 0) (hx : a.Contains x)
    (hwalk : pageWalk m.mem v.pml4Phys x = some (phys, rights)) (hb : b ∈ v.regionList)
    (hy : b.Contains y) (hwalk' : pageWalk m.mem v.pml4Phys y = some (phys', rights'))
    (heq : phys / pmmPageSize = phys' / pmmPageSize) : x / pagingPageSize = y / pagingPageSize := by
  obtain ⟨f, hf, hpage⟩ := H.walk_anon ha hflags hx hwalk
  have hheld : f ∈ anon.map Prod.snd ++ rest := List.mem_append_left _ (List.mem_map_of_mem hf)
  by_cases hmmio : b.flags &&& vmmFlagsMmio = 0
  · obtain ⟨g, hg, hpage'⟩ := H.walk_anon hb hmmio hy hwalk'
    have hmod := H.held.aligned f hheld
    have hmod' := H.held.aligned g (List.mem_append_left _ (List.mem_map_of_mem hg))
    have hfg : f = g := by
      rw [hpage, hpage'] at heq
      simp only [pmmPageSize] at *
      omega
    exact congrArg Prod.fst
      (List.inj_on_of_nodup_map (List.nodup_append.mp H.held.nodup).1 hf hg hfg)
  · refine absurd (H.held.page_mem hheld) ?_
    rw [← hpage, heq]
    exact hdev b hb hmmio y hy phys' rights' hwalk'

/-- `vmm_free` of an address of an area. -/
theorem freesArea (H : SpaceInv U others 512 m v T leaf anon rest) (ha : a ∈ v.regionList)
    {addr : Nat} (haddr : a.Contains addr) :
    ∃ s', vmmCall ⟨m, v⟩ (.free addr) = some s' ∧ FreesArea ⟨m, v⟩ a s' := by
  obtain ⟨m', leaf', hr, S, hhuge, hleaf, hframes⟩ := H.free ha haddr
  refine ⟨⟨m', { v with regionList := v.regionList.erase a }⟩,
    by simp only [vmmCall, hr, Option.map_some], rfl, fun x hx => ?_, fun x hx => ?_, ?_, ?_,
    fun h => hframes fun k f hkf hk => ?_⟩
  · have hw := H.contains_window ha hx
    refine (S.inv.pageWalk_eq_none hw).mpr ?_
    rw [hleaf x hw.canonical.1, if_pos hx]
  · by_cases hcan : Canonical x
    · have hn : x / 2 ^ 39 % 512 < 512 := Nat.mod_lt _ (by decide)
      refine (S.inv.tree.pageWalk_eq hn hcan).trans ((H.tree.pageWalk_eq hn hcan).trans ?_).symm
      rw [leafWalk, leafWalk, hhuge, hleaf x hcan, if_neg hx]
    · exact (pageWalk_of_not_canonical hcan).trans (pageWalk_of_not_canonical hcan).symm
  · rw [PmmHolds.freePages_union (H.held_split a) S.inv.held]
    refine congrArg _ (Set.ext fun p => ?_)
    constructor
    · rintro ⟨f, hf, rfl⟩
      obtain ⟨⟨k, g⟩, hkg, rfl⟩ := List.mem_map.mp hf
      obtain ⟨hmem, hk⟩ := List.mem_filter.mp hkg
      obtain ⟨rights, hwalk⟩ := H.walk_page hmem
      exact ⟨_, (H.mem_faultedPages ha).mpr ⟨k, g, hmem, of_decide_eq_true hk, rfl⟩, _, rights,
        hwalk, rfl⟩
    · rintro ⟨x, hx, phys, rights, hwalk, rfl⟩
      obtain ⟨k, f, hkf, hk, rfl⟩ := (H.mem_faultedPages ha).mp hx
      obtain ⟨rights', hwalk'⟩ := H.walk_page hkf
      cases hwalk.symm.trans hwalk'
      exact ⟨_, List.mem_map.mpr ⟨_, List.mem_filter.mpr ⟨hkf, decide_eq_true hk⟩, rfl⟩, rfl⟩
  · have hbefore := (H.held_split a).freeCount_eq
    have hafter := S.inv.held.freeCount_eq
    rw [List.length_append, List.length_map, ← H.length_faultedPages ha] at hbefore
    rw [List.nil_append] at hafter
    simp only
    omega
  · have hmem := (H.mem_faultedPages ha).mpr ⟨k, f, hkf, hk, rfl⟩
    rw [h] at hmem
    cases hmem

end SpaceInv

/-- The state of the system that the invariant of the space describes. -/
theorem SpaceInv.conserved (H : SpaceInv U others 512 m v T leaf anon rest)
    (hdev : MmioOutside U ⟨m, v⟩) : Conserved ⟨m, v⟩ := by
  refine ⟨fun a ha hflags x hx phys rights hwalk => ?_,
    fun a ha hflags b hb x y hx hy phys phys' rights rights' hwalk hwalk' h =>
      H.own_frame hdev ha hflags.2 hx hwalk hb hy hwalk' h,
    fun a ha addr haddr => H.freesArea ha haddr, fun addr _ h => ?_⟩
  · obtain ⟨f, hf, hpage⟩ := H.walk_anon ha hflags.2 hx hwalk
    have hheld : f ∈ anon.map Prod.snd ++ rest := List.mem_append_left _ (List.mem_map_of_mem hf)
    have hblock := @PmmHolds.frameBlock_mem others _ _ hheld
    change (m.frames.buddyMemmap _).flags &&& pmmFlagUsed ≠ 0 ∧
      (m.frames.buddyMemmap _).refCount = 1 ∧ _
    rw [hpage]
    refine ⟨(H.held.inv.live_page hblock).2, H.held.refs f hheld, fun hfree => ?_⟩
    exact (H.held.mem_freePages.mp hfree).2.1 f hheld rfl
  · have hnone := H.free_none h
    simp only [vmmCall, hnone, Option.map_some]

end

/-! ## Memory-mapped I/O -/

theorem areaFlags_and_mmio (space : Space) (flags : Nat) :
    space.areaFlags flags &&& vmmFlagsMmio = flags &&& vmmFlagsMmio := by
  cases space with
  | user => rfl
  | kernel =>
    simp only [Space.areaFlags]
    split
    · rw [Nat.and_assoc]
      rfl
    · rfl

section
variable {U : Set Nat} {others : List Block} {n : Nat} {s s' : VmmSys} {T : List Nat → Option Nat}
  {leaf : List Nat → Nat} {anon : List (Nat × Nat)} {rest : List Nat}

/-- The page that memory-mapped I/O maps at an address. -/
theorem pagingEntry_device {a : VmArea} {arg x flags : Nat} (hbase : a.base % pagingPageSize = 0)
    (hsize : a.size % pagingPageSize = 0) (hx : a.Contains x) (hle : arg + a.size ≤ 2 ^ 52)
    (hflags : flags &&& pagingPteAddrMask = 0) :
    ∃ p, arg / pmmPageSize ≤ p ∧ p * pmmPageSize < arg + a.size ∧
      ((pagingEntry (add64 arg (x / pagingPageSize * pagingPageSize - a.base)) flags false &&&
        pagingPteAddrMask) + x % 2 ^ 12) / pmmPageSize = p := by
  have hoff : x / pagingPageSize * pagingPageSize - a.base < a.size := by
    simp only [VmArea.Contains, VmArea.limit, pagingPageSize] at *
    omega
  rw [add64_of_lt (by omega), pagingEntry_and_addrMask (by omega) hflags, pagingAlignPhys_eq]
  refine ⟨_, ?_, ?_, rfl⟩
  · simp only [pagingStride, pagingPageSize, pmmPageSize, Bool.false_eq_true, if_false] at *
    omega
  · simp only [pagingStride, pagingPageSize, pmmPageSize, Bool.false_eq_true, if_false] at *
    omega

/-- An address of an area that was there before, translated as before. -/
theorem MmioOutside.of_walk_eq (hout : MmioOutside U s) {b : VmArea} {x phys : Nat}
    {rights : Rights} (hb : b ∈ s.space.regionList) (hmmio : b.flags &&& vmmFlagsMmio ≠ 0)
    (hx : b.Contains x) (hsame : s'.walk x = s.walk x) (hwalk : s'.walk x = some (phys, rights)) :
    phys / pmmPageSize ∉ U :=
  hout b hb hmmio x hx phys rights (hsame.symm.trans hwalk)

namespace SpaceInv

/-- The pages of a new area for memory-mapped I/O are those of the range that the call names. -/
theorem mmioOutside_alloc {size flags arg : Nat} {kmallocOk : Bool}
    (H : SpaceInv U others n s.machine s.space T leaf anon rest)
    (hop : (VmmOp.alloc size flags arg kmallocOk).Valid s)
    (hroom : (VmmOp.alloc size flags arg kmallocOk).HasRoom s)
    (hdev : (VmmOp.alloc size flags arg kmallocOk).DeviceOnly U) (hout : MmioOutside U s)
    (h : vmmCall s (.alloc size flags arg kmallocOk) = some s') : MmioOutside U s' := by
  obtain ⟨⟨m', v', ret⟩, hr, rfl⟩ := Option.map_eq_some_iff.mp h
  rcases H.alloc hop.2.2 hroom hr with
    ⟨rfl, rfl, -, -⟩ | ⟨-, a, p, r, T', leaf', new, ha, -, happ, rfl, S, hhuge, hleaf, -⟩
  · exact hout
  have hmem : a ∈ p ++ a :: r := List.mem_append_right _ List.mem_cons_self
  intro b hb hmmio x hx phys rights hwalk
  obtain ⟨hcan, hn, hsmall⟩ := S.inv.page_window (S.inv.contains_window hb hx)
  by_cases hxa : a.Contains x
  · obtain rfl := S.inv.wf.eq_of_contains hmem hb hxa hx
    have hflags : flags &&& vmmFlagsMmio ≠ 0 := by
      rw [ha] at hmmio
      exact areaFlags_and_mmio s.space.space flags ▸ hmmio
    obtain ⟨hle, hfree⟩ := hdev hflags
    have hsize : a.size = pageAlignUp size := by rw [ha]
    obtain ⟨q, hq, hq', hpage⟩ := pagingEntry_device (S.inv.wf.aligned a hmem)
      (S.inv.wf.sizes a hmem).2 hxa (hsize ▸ hle) (vmmGenericToX86Flags_and_addrMask a.flags)
    have hentry := hleaf x hcan
    rw [mmioLeaf, if_pos ⟨hmmio, hxa⟩] at hentry
    rw [VmmSys.walk, VmmSys.root, S.inv.tree.pageWalk_eq hn hcan, leafWalk,
      if_neg (not_not.mpr hsmall), if_pos (S.inv.mmio hmem hmmio hxa), hentry] at hwalk
    obtain ⟨rfl, -⟩ := Prod.mk.inj (Option.some.inj hwalk)
    intro hU
    refine hfree _ hU ?_
    rw [hpage]
    exact ⟨hq, hsize ▸ hq'⟩
  · have hold : b ∈ s.space.regionList := by
      rw [happ]
      rcases List.mem_append.mp hb with hb | hb
      · exact List.mem_append_left _ hb
      · rcases List.mem_cons.mp hb with rfl | hb
        · exact absurd hx hxa
        · exact List.mem_append_right _ hb
    refine hout.of_walk_eq hold hmmio hx (H.walk_eq S.inv hcan hn (hhuge x) ?_) hwalk
    rw [hleaf x hcan, mmioLeaf, if_neg fun h => hxa h.2]

/-- A fault is in an area of another kind. -/
theorem mmioOutside_fault {cr2 : Nat} (H : SpaceInv U others n s.machine s.space T leaf anon rest)
    (hop : (VmmOp.fault cr2).Valid s) (hout : MmioOutside U s)
    (h : vmmCall s (.fault cr2) = some s') : MmioOutside U s' := by
  obtain ⟨m', hr, rfl⟩ := Option.map_eq_some_iff.mp h
  obtain ⟨a, f, T', new, ha, hanon, hin, S⟩ := H.fault (ite_self _) hop.2.1 hr
  intro b hb hmmio x hx phys rights hwalk
  obtain ⟨hcan, hn, -⟩ := H.page_window (H.contains_window hb hx)
  have hne : leafPath x false ≠ leafPath cr2 false := by
    intro hp
    have hpage : x / pagingPageSize = cr2 / pagingPageSize :=
      leafPath_inj hcan (H.contains_window ha hin).canonical.1 hp
    have hxa : a.Contains x := by
      rw [← H.contains_pageBase ha, hpage, H.contains_pageBase ha]
      exact hin
    rw [H.wf.eq_of_contains hb ha hx hxa] at hmmio
    exact hmmio hanon
  exact hout.of_walk_eq hb hmmio hx (H.walk_eq S.inv hcan hn
    (Function.update_of_ne (leafPath_ne (by decide)) ..) (Function.update_of_ne hne ..)) hwalk

/-- The areas that are left keep their pages. -/
theorem mmioOutside_free {addr : Nat} (H : SpaceInv U others n s.machine s.space T leaf anon rest)
    (hout : MmioOutside U s) (h : vmmCall s (.free addr) = some s') : MmioOutside U s' := by
  obtain ⟨⟨m', v'⟩, hr, rfl⟩ := Option.map_eq_some_iff.mp h
  by_cases hex : ∃ a ∈ s.space.regionList, a.Contains addr
  · obtain ⟨a, ha, haddr⟩ := hex
    obtain ⟨m₁, leaf₁, hr₁, S, hhuge, hleaf, -⟩ := H.free ha haddr
    cases hr.symm.trans hr₁
    intro b hb hmmio x hx phys rights hwalk
    have hold := List.mem_of_mem_erase hb
    have hxa : ¬ a.Contains x := by
      intro hxa
      rw [H.wf.eq_of_contains hold ha hx hxa] at hb
      exact H.wf.nodup.not_mem_erase hb
    obtain ⟨hcan, hn, -⟩ := H.page_window (H.contains_window hold hx)
    refine hout.of_walk_eq hold hmmio hx (H.walk_eq S.inv hcan hn (hhuge x) ?_) hwalk
    rw [hleaf x hcan, if_neg hxa]
  · have hr₁ := H.free_none fun a ha haddr => hex ⟨a, ha, haddr⟩
    cases hr.symm.trans hr₁
    exact hout

theorem mmioOutside {op : VmmOp} (H : SpaceInv U others n s.machine s.space T leaf anon rest)
    (hroom : op.HasRoom s) (hdev : op.DeviceOnly U) (hout : MmioOutside U s)
    (h : vmmStep s op = some s') : MmioOutside U s' := by
  obtain ⟨hop, h⟩ := Option.ite_none_right_eq_some.mp h
  cases op with
  | alloc => exact H.mmioOutside_alloc hop hroom hdev hout h
  | fault => exact H.mmioOutside_fault hop hout h
  | free => exact H.mmioOutside_free hout h

end SpaceInv

/-- A call on a space in use. -/
theorem VmmSys.Accounted.step {op : VmmOp} (H : s.Accounted U others) (hroom : op.HasRoom s)
    (hdev : op.DeviceOnly U) (h : vmmStep s op = some s') : s'.Accounted U others := by
  obtain ⟨⟨T, leaf, anon, rest, Hinv⟩, hout⟩ := H
  obtain ⟨T', leaf', anon', new, S, -⟩ := Hinv.step hroom h
  exact ⟨⟨T', leaf', anon', _, S.inv⟩, Hinv.mmioOutside hroom hdev hout h⟩

theorem VmmSys.Accounted.conserved (H : s.Accounted U others) : Conserved s := by
  obtain ⟨⟨T, leaf, anon, rest, Hinv⟩, hout⟩ := H
  exact Hinv.conserved hout

end

/-! ## Runs -/

section
variable {U : Set Nat} {others : List Block} {m : Machine Pmm} {v : AddressSpace}
  {T : List Nat → Option Nat} {leaf : List Nat → Nat} {held : List Nat} {s : VmmSys}

theorem SpaceInv.of_untouched (htree : PageTree 512 v.pml4Phys m.mem T leaf)
    (hT : ∀ {p f}, T p = some f → f ∈ held) (hheld : PmmHolds U others m.frames held)
    (hwf : RegionsWF v.regionList)
    (hwindow : ∀ a ∈ v.regionList, isAnon a.flags ∧ v.space.regionSearchStart ≤ a.base ∧
      a.limit ≤ v.space.regionSearchEnd + 1)
    (huntouched : ∀ x, v.space.Window x → pageWalk m.mem v.pml4Phys x = none) :
    SpaceInv U others 512 m v T leaf [] held := by
  have hzero {x : Nat} (hx : v.space.Window x) :
      leaf (leafPath x true) = 0 ∧ leaf (leafPath x false) = 0 := by
    have hwalk := huntouched x hx
    rw [htree.pageWalk_eq (Nat.mod_lt _ (by decide)) hx.canonical.1, leafWalk] at hwalk
    constructor
    · by_contra hne
      rw [if_pos hne] at hwalk
      cases hwalk
    · by_contra hne
      rw [if_pos hne] at hwalk
      split at hwalk
      · cases hwalk
      · cases hwalk
  refine ⟨⟨htree, hheld, hT, fun h => absurd h List.not_mem_nil⟩, v.space.rootEntries_le, hwf,
    fun a ha => (hwindow a ha).2, fun hx => (hzero hx).1, fun hx hne => absurd (hzero hx).2 hne,
    fun {a x} ha _ hx hne => ?_, fun h => absurd h List.not_mem_nil,
    fun ha hflags _ => absurd (hwindow _ ha).1.2 hflags⟩
  obtain ⟨-, hstart, hend⟩ := hwindow a ha
  exact absurd (hzero (hx.window hstart hend)).2 hne

theorem VmmSys.Start.inv (H : s.Start U others held) :
    ∃ T leaf, SpaceInv U others 512 s.machine s.space T leaf [] held := by
  obtain ⟨T, leaf, htree, hT⟩ := H.tree
  exact ⟨T, leaf, .of_untouched htree hT H.frames H.areas H.window H.untouched⟩

theorem VmmSys.Start.accounted (H : s.Start U others held) : s.Accounted U others := by
  obtain ⟨T, leaf, Hinv⟩ := H.inv
  exact ⟨⟨T, leaf, [], held, Hinv⟩, fun a ha hmmio => absurd (H.window a ha).1.2 hmmio⟩

end

/-- In every run of `vmm_alloc`, of faults and of `vmm_free` on a space in use, in which each new
area has room in the window and memory-mapped I/O is for devices, the account of the frames is exact
in every state. -/
theorem demandRun_conserved {U : Set Nat} {others : List Block} {s : VmmSys} {ops : List VmmOp}
    (H : s.Accounted U others) (hroom : AllSteps vmmStep (fun s op => op.HasRoom s) s ops)
    (hdev : AllSteps vmmStep (fun _ op => op.DeviceOnly U) s ops) :
    Along vmmStep Conserved s ops :=
  (Along.of_allSteps (fun _ _ _ H hop h => H.step hop.1 hop.2 h) H (hroom.and hdev)).imp
    fun _ H => H.conserved

/-- A space without areas on a machine with little memory. -/
def smallVmm (space : Space) : VmmSys :=
  let (s, root) := pmmAlloc ((pmmInit smallMemmap).getD (pmmReserved 0 0)) pagingPageSize
  ⟨⟨fun _ => 0, s⟩, ⟨space, root, []⟩⟩

theorem smallVmm_start (space : Space) :
    (smallVmm space).Start (pmmInitPages smallMemmap) [] [(smallVmm space).root] := by
  have hsome : (pmmInit smallMemmap).isSome = true := by decide +kernel
  obtain ⟨s, hs⟩ := Option.isSome_iff_exists.mp hsome
  have hne : (smallVmm space).root ≠ 0 := by
    cases space with
    | kernel => decide +kernel
    | user => decide +kernel
  have hheld :
      PmmHolds (pmmInitPages smallMemmap) [] (smallVmm space).machine.frames
        [(smallVmm space).root] := by
    simp only [smallVmm, VmmSys.root, hs, Option.getD_some] at hne ⊢
    rcases (smallMemmap_ok.holds hs).alloc with ⟨hr, -⟩ | ⟨s', f, hr, H⟩
    · exact absurd (congrArg Prod.snd hr) hne
    · rw [hr]
      exact H
  have htree := PageTree.empty (Nat.le_refl 512) (hheld.isFrame List.mem_cons_self)
    (fun i _ => show (smallVmm space).machine.mem (entryAddr _ i) = 0 from rfl)
  refine ⟨hheld, ⟨_, _, htree, fun {p f} h => ?_⟩,
    ⟨List.Pairwise.nil, nofun, nofun, List.Pairwise.nil⟩, nofun,
    fun x hx => ?_⟩
  · obtain ⟨-, h⟩ := Option.ite_none_right_eq_some.mp h
    rw [← Option.some.inj h]
    exact List.mem_cons_self
  · exact htree.pageWalk_eq (Nat.mod_lt _ (by decide)) hx.canonical.1

/-- Two reserved pages are mapped as memory-mapped I/O, two pages are allocated, the first one is
touched, and the area is freed. -/
def deviceAndPages : List VmmOp :=
  [.alloc 0x2000 34 0x8000 true, .alloc 0x2000 18 0 true, .fault 0x3008, .free 0x3000]

theorem deviceOnly_reserved :
    (VmmOp.alloc 0x2000 34 0x8000 true).DeviceOnly (pmmInitPages smallMemmap) := by
  have hreserved : ∀ p ∈ [8, 9], ¬ ∃ b ∈ pmmInitBlocks smallMemmap, b.Covers p := by decide +kernel
  have hsize : pageAlignUp 0x2000 = 0x2000 := by decide
  refine fun _ => ⟨by decide, fun p hp hrange => hreserved p ?_ hp⟩
  simp only [hsize, pmmPageSize, List.mem_cons, List.not_mem_nil, or_false] at hrange ⊢
  omega

theorem deviceAndPages_deviceOnly (s : VmmSys) :
    AllSteps vmmStep (fun _ op => op.DeviceOnly (pmmInitPages smallMemmap)) s deviceAndPages := by
  refine AllSteps.of_forall fun op hop _ => ?_
  simp only [deviceAndPages, List.mem_cons, List.not_mem_nil, or_false] at hop
  rcases hop with rfl | rfl | rfl | rfl
  · exact deviceOnly_reserved
  · exact fun h => absurd (by decide) h
  · trivial
  · trivial

theorem deviceAndPages_hasRoom {s : VmmSys} (hs : s = smallVmm .user) :
    AllSteps vmmStep (fun s op => op.HasRoom s) s deviceAndPages := by
  subst hs
  decide +kernel

theorem demandRun_conserved_deviceAndPages :
    (runFrom vmmStep (smallVmm .user) deviceAndPages).isSome = true ∧
      Along vmmStep Conserved (smallVmm .user) deviceAndPages := by
  have H := (smallVmm_start .user).accounted
  refine ⟨by decide +kernel, ?_⟩
  -- the run is not to be unfolded from here on
  generalize hs : smallVmm .user = s at H ⊢
  exact demandRun_conserved H (deviceAndPages_hasRoom hs.symm) (deviceAndPages_deviceOnly s)

/-- An area of the kernel that reaches to the end of the address space is never found again:
`vmm_free` of its first address leaves it in the list. -/
theorem demandRun_lostArea :
    (smallVmm .kernel).Accounted (pmmInitPages smallMemmap) [] ∧
    ∃ t, runFrom vmmStep (smallVmm .kernel) [.alloc 0x400000000000 18 0 true] = some t ∧
      ¬ Conserved t := by
  refine ⟨(smallVmm_start .kernel).accounted, ⟨(smallVmm .kernel).machine,
    ⟨.kernel, (smallVmm .kernel).root, [⟨vmmKernelStart, 0x400000000000, 18⟩]⟩⟩, rfl, fun H => ?_⟩
  obtain ⟨s', hr, F⟩ := H.frees ⟨vmmKernelStart, 0x400000000000, 18⟩ List.mem_cons_self
    vmmKernelStart (by decide)
  cases hr
  exact absurd (congrArg AddressSpace.regionList F.space) (by decide)

end Plos
