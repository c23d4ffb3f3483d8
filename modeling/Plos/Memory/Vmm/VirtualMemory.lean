import Plos.Lib.Translation
import Plos.Memory.Vmm.DemandPaging

/-! Virtual memory as the code sees it that runs in an address space.

An access to an address without a translation runs the page fault handler, and then the instruction
runs again. The pages that the handler maps are cleared, no two of them share a frame, and no call
writes into them. So the areas of a space are memory: what is read is what was stored last, or zero
if nothing was stored since the area was allocated (`FlatMemory`). An access is possible exactly if
the address is in an area whose flags permit it.

The processor is at the highest privilege level and has `CR0.WP` set, as the boot loader leaves
it. -/

namespace Plos

/-! ## Accesses -/

inductive Access where
  | read
  | write (w : Nat)
  | fetch
  deriving DecidableEq, Repr

namespace Access

/-- What the processor checks. A page that is present can be read. -/
def allowed (rights : Rights) : Access → Bool
  | read => true
  | write _ => rights.write
  | fetch => rights.exec

/-- What the flags of the area must allow. -/
def Permitted (flags : Nat) : Access → Prop
  | read => True
  | write _ => flags &&& vmmFlagsWrite ≠ 0
  | fetch => flags &&& vmmFlagsExec ≠ 0

/-- What the access does to the word. -/
def store (mem : Nat → Nat) (phys : Nat) : Access → Nat → Nat
  | write w => Function.update mem phys w
  | read => mem
  | fetch => mem

/-- The words that the access reads. -/
def loads (w : Nat) : Access → List Nat
  | write _ => []
  | read => [w]
  | fetch => [w]

end Access

namespace VmmSys

/-- The page fault that an access raises if its address has no translation. -/
def touch (s : VmmSys) (x : Nat) : Option VmmSys :=
  if (s.walk x).isSome then some s else vmmStep s (.fault x)

/-- An access to a word, with what was in it. -/
def access (s : VmmSys) (x : Nat) (op : Access) : Option (VmmSys × Nat) :=
  match s.touch x with
  | none => none
  | some s =>
    match s.walk x with
    | none => none
    | some (phys, rights) =>
      -- the handler stops the machine on a fault if the page is present
      if op.allowed rights then
        some ({ s with machine := { s.machine with mem := op.store s.machine.mem phys } },
          s.machine.mem phys)
      else none

def translate (s : VmmSys) (x : Nat) : Option Nat := (s.walk x).map Prod.fst

/-- The memory of the space, with zeros where nothing is mapped. -/
def view (s : VmmSys) : Nat → Nat := viewThrough 0 s.translate s.machine.mem

end VmmSys

/-- A space, and the words that have been read in it so far. -/
structure MemSys where
  vmm : VmmSys
  loads : List Nat

inductive MemOp where
  | alloc (size flags : Nat) (kmallocOk : Bool)
  | free (addr : Nat)
  | access (x : Nat) (op : Access)
  deriving DecidableEq, Repr

/-- Words are aligned. -/
def memStep (s : MemSys) : MemOp → Option MemSys
  | .alloc size flags kmallocOk =>
    (demandStep s.vmm (.alloc size flags 0 kmallocOk)).map fun vmm => { s with vmm }
  | .free addr => (demandStep s.vmm (.free addr)).map fun vmm => { s with vmm }
  | .access x op =>
    if x % 8 = 0 then (s.vmm.access x op).map fun (vmm, w) => ⟨vmm, s.loads ++ op.loads w⟩ else none

/-- A new area fits into the window of the space, and accesses are to addresses in the window: what
else the tables map, the direct map above all, is not memory of the areas. -/
def MemOp.InWindow (s : MemSys) : MemOp → Prop
  | .alloc size flags kmallocOk => (VmmOp.alloc size flags 0 kmallocOk).HasRoom s.vmm
  | .free _ => True
  | .access x _ => s.vmm.space.space.Window x

instance MemOp.InWindow.decidable (s : MemSys) : (op : MemOp) → Decidable (op.InWindow s)
  | .alloc size flags kmallocOk =>
    inferInstanceAs (Decidable ((VmmOp.alloc size flags 0 kmallocOk).HasRoom s.vmm))
  | .free _ => .isTrue trivial
  | .access .. => inferInstanceAs (Decidable (_ ∧ _))

/-! ## Flat memory -/

/-- What virtual memory is for: areas of memory, each of them cleared at first. -/
structure FlatMemory where
  areas : List VmArea
  content : Nat → Nat
  loads : List Nat

def flatStep (space : Space) (m : FlatMemory) : MemOp → FlatMemory
  | .alloc size flags kmallocOk =>
    match vmmAllocRegion space m.areas size flags kmallocOk with
    | none => m
    | some (areas, base) =>
      { m with
        areas
        content := fun x => if base ≤ x ∧ x < base + pageAlignUp size then 0 else m.content x }
  | .free addr => { m with areas := ((vmmFreeRegion m.areas addr).map Prod.snd).getD m.areas }
  | .access x op =>
    { m with content := op.store m.content x, loads := m.loads ++ op.loads (m.content x) }

/-! ## Pages behind the areas -/

section
variable {U : Set Nat} {others : List Block} {n root : Nat} {m m' : Machine Pmm} {v : AddressSpace}
  {T : List Nat → Option Nat} {leaf : List Nat → Nat} {anon : List (Nat × Nat)} {rest : List Nat}
  {k f x : Nat}

/-- The frame of a page holds no table. -/
theorem Paged.ne_entryAddr (H : Paged U others n root m T leaf anon rest) (hkf : (k, f) ∈ anon)
    (hx : InFrame f x) (p : List Nat) (g i : Nat) (hp : T p = some g) (hi : i < tableSize n p) :
    x ≠ entryAddr g i := by
  rintro rfl
  have hf : f ∈ anon.map Prod.snd := List.mem_map_of_mem hkf
  have hg := H.tables hp
  have hin : InFrame g (entryAddr g i) :=
    inFrame_entryAddr (Nat.lt_of_lt_of_le hi (H.tree.size_le_512 p))
  have heq :=
    InFrame.eq (H.held.isFrame (List.mem_append_left _ hf))
      (H.held.isFrame (List.mem_append_right _ hg)) hx hin
  exact (List.nodup_append.mp H.held.nodup).2.2 f hf g hg heq

theorem Paged.kept_of_anon (H : Paged U others n root m T leaf anon rest) {q : Nat × Nat → Bool}
    (hkf : (k, f) ∈ anon) (hq : q (k, f) = false) (hx : InFrame f x) :
    Kept n T ((anon.filter fun kf => !q kf).map Prod.snd ++ rest) x := by
  refine ⟨⟨f,
    List.mem_append_left _ (List.mem_map.mpr ⟨(k, f), List.mem_filter.mpr ⟨hkf, ?_⟩, rfl⟩), hx⟩,
    H.ne_entryAddr hkf hx⟩
  rw [hq]
  rfl

theorem inFrame_add_mod (f x : Nat) : InFrame f (f + x % 2 ^ 12) := by
  simp only [InFrame, pagingPageSize]
  omega

/-- An address of an area has no entry and no translation, or the translation goes to the frame of
its page. -/
theorem SpaceInv.walk_area (H : SpaceInv U others n m v T leaf anon rest) {a : VmArea}
    (ha : a ∈ v.regionList) (hflags : a.flags &&& vmmFlagsMmio = 0) (hx : a.Contains x) :
    leaf (leafPath x false) = 0 ∧ pageWalk m.mem v.pml4Phys x = none ∨
      leaf (leafPath x false) ≠ 0 ∧ ∃ f, (x / pagingPageSize, f) ∈ anon ∧
        pageWalk m.mem v.pml4Phys x =
          some (f + x % 2 ^ 12, leafRights (leaf (leafPath x false))) := by
  have hw := H.contains_window ha hx
  obtain ⟨hcan, hn, hsmall⟩ := H.page_window hw
  by_cases hne : leaf (leafPath x false) = 0
  · exact .inl ⟨hne, (H.pageWalk_eq_none hw).mpr hne⟩
  · refine .inr ⟨hne, _, H.owned ha hflags hx hne, ?_⟩
    rw [H.tree.pageWalk_eq hn hcan, leafWalk, if_neg (not_not.mpr hsmall), if_pos hne]

/-- No two addresses of areas share a word. -/
theorem SpaceInv.walk_inj (H : SpaceInv U others n m v T leaf anon rest) {a b : VmArea}
    {y phys : Nat} {rights rights' : Rights} (ha : a ∈ v.regionList)
    (hflags : a.flags &&& vmmFlagsMmio = 0) (hx : a.Contains x) (hb : b ∈ v.regionList)
    (hflags' : b.flags &&& vmmFlagsMmio = 0) (hy : b.Contains y)
    (hwalk : pageWalk m.mem v.pml4Phys x = some (phys, rights))
    (hwalk' : pageWalk m.mem v.pml4Phys y = some (phys, rights')) : y = x := by
  rcases H.walk_area ha hflags hx with ⟨-, hnone⟩ | ⟨-, f, hf, hsome⟩
  · cases hnone.symm.trans hwalk
  rcases H.walk_area hb hflags' hy with ⟨-, hnone⟩ | ⟨-, g, hg, hsome'⟩
  · cases hnone.symm.trans hwalk'
  have hphys : f + x % 2 ^ 12 = phys := congrArg Prod.fst (Option.some.inj (hsome.symm.trans hwalk))
  have hphys' : g + y % 2 ^ 12 = phys :=
    congrArg Prod.fst (Option.some.inj (hsome'.symm.trans hwalk'))
  have hfmem : f ∈ anon.map Prod.snd ++ rest := List.mem_append_left _ (List.mem_map_of_mem hf)
  have hgmem : g ∈ anon.map Prod.snd ++ rest := List.mem_append_left _ (List.mem_map_of_mem hg)
  have hfg : f = g := InFrame.eq (H.held.isFrame hfmem) (H.held.isFrame hgmem) (inFrame_add_mod f x)
    (hphys.trans hphys'.symm ▸ inFrame_add_mod g y)
  have hpage :=
    congrArg Prod.fst (List.inj_on_of_nodup_map (List.nodup_append.mp H.held.nodup).1 hf hg hfg)
  simp only [pagingPageSize] at hpage
  omega

/-! ## What the calls leave of the memory -/

/-- What the page fault handler has done if it returns. -/
theorem vmmPageFaultHandler_some {kernelVas currentVas : AddressSpace} {cr2 : Nat} {present : Bool}
    (htarget : (if vmmKernelStart ≤ cr2 then kernelVas else currentVas) = v)
    (h : vmmPageFaultHandler pmmFrames m kernelVas currentVas cr2 present = some m') :
    ∃ a frames f, pmmFrames.alloc m.frames = (frames, f) ∧ f ≠ 0 ∧
      pagingMapPage pmmFrames ⟨memsetPage m.mem f, frames⟩ v.pml4Phys cr2 f (vmmGenericToX86Flags a)
        false = some m' := by
  simp only [vmmPageFaultHandler, htarget] at h
  split at h
  · cases h
  · split at h
    · cases h
    · split at h
      · cases h
      · next area _ _ hf => exact ⟨area.flags, _, _, rfl, hf, h⟩

/-- What is seen at an address of an area, if the translation and the frame of the page stay. -/
theorem SpaceInv.view_eq (H : SpaceInv U others n m v T leaf anon rest) {a : VmArea}
    {v' : AddressSpace} (ha : a ∈ v.regionList) (hflags : a.flags &&& vmmFlagsMmio = 0)
    (hx : a.Contains x) (hwalk : pageWalk m'.mem v'.pml4Phys x = pageWalk m.mem v.pml4Phys x)
    (hmem : ∀ f, (x / pagingPageSize, f) ∈ anon → ∀ y, InFrame f y → m'.mem y = m.mem y) :
    (VmmSys.mk m' v').view x = (VmmSys.mk m v).view x := by
  refine viewThrough_congr (congrArg (Option.map Prod.fst) hwalk) fun p hp => ?_
  rcases H.walk_area ha hflags hx with ⟨-, hnone⟩ | ⟨-, f, hf, hsome⟩
  · cases (congrArg (Option.map Prod.fst) hnone).symm.trans hp
  · cases (congrArg (Option.map Prod.fst) hsome).symm.trans hp
    exact hmem f hf _ (inFrame_add_mod f x)

/-- The page that the handler maps is clear, and the others stay as they are. -/
theorem SpaceInv.fault_view (H : SpaceInv U others 512 m v T leaf anon rest)
    {kernelVas currentVas : AddressSpace} {cr2 : Nat} {present : Bool} {a b : VmArea}
    (htarget : (if vmmKernelStart ≤ cr2 then kernelVas else currentVas) = v)
    (hwalk : pageWalk m.mem v.pml4Phys cr2 = none)
    (h : vmmPageFaultHandler pmmFrames m kernelVas currentVas cr2 present = some m')
    (hb : b ∈ v.regionList) (hcr2 : b.Contains cr2) (ha : a ∈ v.regionList)
    (hflags : a.flags &&& vmmFlagsMmio = 0) (hx : a.Contains x) :
    (VmmSys.mk m' v).view x = (VmmSys.mk m v).view x := by
  obtain ⟨flags, frames, f, halloc, hf, hmap⟩ := vmmPageFaultHandler_some htarget h
  have hwindow := H.contains_window hb hcr2
  obtain ⟨hcan, hn, hsmall⟩ := H.page_window hwindow
  have hempty := (H.pageWalk_eq_none hwindow).mp hwalk
  have hv : cr2 ≠ 0 :=
    (Nat.lt_of_lt_of_le (Nat.pos_of_ne_zero v.space.regionSearchStart_ne_zero) hwindow.1).ne'
  -- the pages count as frames that the handler does not touch
  have Hkeep := H.toPaged.keep fun _ => false
  obtain ⟨Hfresh, -⟩ := Hkeep.takeFresh halloc hf fun _ => memsetPage_of_not_inFrame
  obtain ⟨T', new, S⟩ := Hfresh.mapPage hv hcan hn hsmall (by simp) hmap
  have hframe : IsFrame f := Hfresh.held.isFrame (List.mem_append_right _ List.mem_cons_self)
  have hxw := H.contains_window ha hx
  obtain ⟨hxcan, hxn, hxsmall⟩ := H.page_window hxw
  have hwalk' : pageWalk m'.mem v.pml4Phys x = leafWalk (Function.update leaf (leafPath cr2 false)
      (pagingEntry f (vmmGenericToX86Flags flags) false)) x := S.paged.tree.pageWalk_eq hxn hxcan
  rw [leafWalk, Function.update_of_ne (leafPath_ne (by decide)),
    if_neg (not_not.mpr hxsmall)] at hwalk'
  have hfresh : f ∉ (anon.filter fun _ => !false).map Prod.snd ++ rest := by
    have hnodup := Hfresh.held.nodup
    rw [List.filter_false, List.map_nil, List.nil_append] at hnodup
    exact (List.nodup_cons.mp hnodup).1
  by_cases hp : leafPath x false = leafPath cr2 false
  · have hentry : pagingEntry f (vmmGenericToX86Flags flags) false &&& pagingPteAddrMask = f := by
      rw [pagingEntry_and_addrMask hframe.2 (vmmGenericToX86Flags_and_addrMask flags),
        pagingAlignPhys_eq]
      exact (congrArg (f - ·) hframe.1).trans (Nat.sub_zero f)
    rw [hp, Function.update_self, if_pos (ne_zero_of_testBit (pagingEntry_small_present _ _)),
      hentry] at hwalk'
    have hkept :
        Kept 512 T (f :: ((anon.filter fun _ => !false).map Prod.snd ++ rest))
          (f + x % 2 ^ 12) := by
      refine ⟨⟨f, List.mem_cons_self, inFrame_add_mod f x⟩, fun p g i hg hi e => hfresh ?_⟩
      have hin : InFrame g (f + x % 2 ^ 12) :=
        e ▸ inFrame_entryAddr (Nat.lt_of_lt_of_le hi (H.tree.size_le_512 p))
      have hmem := H.tables hg
      have hfg :=
        InFrame.eq hframe (H.held.isFrame (List.mem_append_right _ hmem)) (inFrame_add_mod f x) hin
      exact List.mem_append_right _ (hfg ▸ hmem)
    have hnone : pageWalk m.mem v.pml4Phys x = none := (H.pageWalk_eq_none hxw).mpr (hp ▸ hempty)
    refine viewThrough_extend (congrArg (Option.map Prod.fst) hnone)
      (congrArg (Option.map Prod.fst) hwalk') ?_
    exact (S.same hkept).trans (if_pos (inFrame_add_mod f x))
  · refine H.view_eq ha hflags hx ?_ fun g hg y hy => ?_
    · rw [hwalk', Function.update_of_ne hp, H.tree.pageWalk_eq hxn hxcan, leafWalk,
        if_neg (not_not.mpr hxsmall)]
    · obtain ⟨⟨h, hh, hin⟩, hold⟩ := H.toPaged.kept_of_anon (q := fun _ => false) hg rfl hy
      refine (S.same ⟨⟨h, List.mem_cons_of_mem _ hh, hin⟩, hold⟩).trans
        (memsetPage_of_not_inFrame fun hin' => hfresh ?_)
      exact InFrame.eq hframe (Hkeep.held.isFrame (List.mem_append_right _ hh)) hin' hin ▸ hh

/-- The handler maps the page if there are frames for it and for the tables. -/
theorem SpaceInv.fault_isSome (H : SpaceInv U others n m v T leaf anon rest) {a : VmArea}
    (ha : a ∈ v.regionList) (hx : a.Contains x) (hframes : 4 ≤ m.frames.freeCount) :
    ∃ m', vmmPageFaultHandler pmmFrames m v v x false = some m' := by
  have hwindow := H.contains_window ha hx
  obtain ⟨hcan, hn, hsmall⟩ := H.page_window hwindow
  have hv : x ≠ 0 :=
    (Nat.lt_of_lt_of_le (Nat.pos_of_ne_zero v.space.regionSearchStart_ne_zero) hwindow.1).ne'
  have harea : (vmmGetVmArea v x).isSome := by
    rw [vmmGetVmArea, List.find?_isSome]
    exact ⟨a, ha, decide_eq_true ((contains_iff (H.limit_lt a ha)).mpr hx)⟩
  obtain ⟨b, hb⟩ := Option.isSome_iff_exists.mp harea
  have hspec := PmmHolds.allocSpec U others
  rcases hspec.alloc H.held with ⟨-, hzero, -⟩ | ⟨hf, -, -, -, hleft⟩
  · omega
  obtain ⟨Hfresh, -⟩ := H.toPaged.takeFresh (Prod.eta _).symm hf fun _ => memsetPage_of_not_inFrame
  rcases pagingMapPage_spec hspec Hfresh.tree Hfresh.held (fun _ _ => Hfresh.mem_held) hv hn
    (fun _ : false = false => hsmall) nofun
    (leafOk_pagingEntry_small x (pmmFrames.alloc m.frames).2 (vmmGenericToX86Flags b.flags)) with
    ⟨m', _, _, hm', -⟩ | ⟨hleft', -⟩
  · refine ⟨m', ?_⟩
    simp only [vmmPageFaultHandler, ite_self, hb]
    rw [if_neg Bool.false_ne_true, if_neg hf]
    exact hm'
  · change (pmmFrames.alloc m.frames).1.freeCount < 3 at hleft'
    omega

/-- The areas that are not freed stay as they are. -/
theorem SpaceInv.free_view (H : SpaceInv U others 512 m v T leaf anon rest) {a b : VmArea}
    {addr : Nat} {v' : AddressSpace} (ha : a ∈ v.regionList)
    (haflags : a.flags &&& vmmFlagsMmio = 0) (haddr : a.Contains addr)
    (h : vmmFree pmmFrames m v addr = some (m', v')) (hb : b ∈ v.regionList)
    (hflags : b.flags &&& vmmFlagsMmio = 0) (hx : b.Contains x) (hout : ¬ a.Contains x) :
    (VmmSys.mk m' v').view x = (VmmSys.mk m v).view x := by
  obtain ⟨m₁, leaf', hr, S, hhuge, hleaf, -⟩ := H.free ha haddr
  cases hr.symm.trans h
  obtain ⟨hxcan, hxn, -⟩ := H.page_window (H.contains_window hb hx)
  refine H.view_eq hb hflags hx ?_ fun g hg y hy => ?_
  · refine (S.inv.tree.pageWalk_eq hxn hxcan).trans
      (Eq.trans ?_ (H.tree.pageWalk_eq hxn hxcan).symm)
    rw [leafWalk, leafWalk, hhuge, hleaf x hxcan, if_neg hout]
  · -- the pages of the other areas count as frames that the loop does not free
    obtain ⟨hstart, hend⟩ := H.window a ha
    obtain ⟨hlimit, R⟩ := H.smallPages hstart hend (H.wf.aligned a ha) (H.wf.sizes a ha).2
    let q : Nat × Nat → Bool := fun kf => a.Contains (kf.1 * pagingPageSize)
    obtain ⟨m₂, leaf₂, hr₂, S₂, -⟩ := (H.toPaged.keep q).unmapLoop R (D := fun _ => False)
      (fun _ z hle hz hne => List.mem_filter.mpr ⟨H.owned ha haflags ⟨hle, hlimit ▸ hz⟩ hne,
        decide_eq_true ((H.contains_pageBase ha).mpr ⟨hle, hlimit ▸ hz⟩)⟩)
      (fun hfalse : true = false => by cases hfalse) (Nat.lt_add_of_pos_right Nat.two_pos)
    have hzero : addr ≠ 0 := by
      have := v.space.regionSearchStart_ne_zero
      have := haddr.1
      omega
    have hunlink : vmmFreeRegion v.regionList addr = some (a, v.regionList.erase a) := by
      rw [vmmFreeRegion, if_neg hzero, vmmUnlink_some H.wf H.limit_lt ha haddr]
    have hmap : pagingUnmapRegion pmmFrames m v.pml4Phys a.base a.size false
        (decide (a.flags &&& vmmFlagsMmio = 0)) = some m₂ := by
      rw [decide_eq_true haflags, pagingUnmapRegion, add64_of_lt (H.limit_lt a ha)]
      rw [hlimit] at hr₂
      exact hr₂
    simp only [vmmFree, hunlink, hmap, Option.map_some] at h
    cases h
    refine S₂.same (H.toPaged.kept_of_anon hg (decide_eq_false ?_) hy)
    rwa [H.contains_pageBase ha]

end

/-! ## Rights -/

theorem testBit_ite_or (p : Prop) [Decidable p] (x k i : Nat) :
    (if p then x ||| k else x).testBit i = (x.testBit i || (decide p && k.testBit i)) := by
  split
  · next h => rw [Nat.testBit_or, decide_eq_true h, Bool.true_and]
  · next h => rw [decide_eq_false h, Bool.false_and, Bool.or_false]

theorem vmmGenericToX86Flags_testBit (flags i : Nat) : (vmmGenericToX86Flags flags).testBit i =
    (decide (flags &&& vmmFlagsWrite ≠ 0) && pteFlagRw.testBit i ||
      decide (flags &&& vmmFlagsExec = 0) && pteFlagNoExec.testBit i ||
      decide (flags &&& vmmFlagsWc ≠ 0) && pteFlagPwt.testBit i ||
      decide (flags &&& vmmFlagsUc ≠ 0) && pteFlagPcd.testBit i ||
      (if flags &&& vmmFlagsUser ≠ 0 then pteFlagUs.testBit i else pteFlagGlobal.testBit i)) := by
  have hread : (if flags &&& vmmFlagsRead ≠ 0 then 0 ||| 0 else 0) = 0 := by split <;> rfl
  simp only [vmmGenericToX86Flags, hread]
  rw [apply_ite (Nat.testBit · i)]
  simp only [Nat.testBit_or, testBit_ite_or, Nat.zero_testBit, Bool.false_or]
  split <;> rfl

/-- The processor enforces the flags of an area. -/
theorem leafRights_vmmGenericToX86Flags (flags : Nat) : leafRights (vmmGenericToX86Flags flags) =
    ⟨flags &&& vmmFlagsWrite ≠ 0, flags &&& vmmFlagsUser ≠ 0, flags &&& vmmFlagsExec ≠ 0⟩ := by
  have hbits (i : Nat) (hi : i = 1 ∨ i = 2 ∨ i = 63) : pteFlagRw.testBit i = decide (i = 1) ∧
      pteFlagNoExec.testBit i = decide (i = 63) ∧ pteFlagPwt.testBit i = false ∧
        pteFlagPcd.testBit i = false ∧
      pteFlagUs.testBit i = decide (i = 2) ∧ pteFlagGlobal.testBit i = false := by
    rcases hi with rfl | rfl | rfl <;> decide
  obtain ⟨h₁, h₂, h₃, h₄, h₅, h₆⟩ := hbits 1 (.inl rfl)
  obtain ⟨k₁, k₂, k₃, k₄, k₅, k₆⟩ := hbits 2 (.inr (.inl rfl))
  obtain ⟨l₁, l₂, l₃, l₄, l₅, l₆⟩ := hbits 63 (.inr (.inr rfl))
  simp only [leafRights, walkRights, List.all_cons, List.all_nil, Bool.and_true,
    vmmGenericToX86Flags_testBit, h₁, h₂, h₃, h₄, h₅, h₆, k₁, k₂, k₃, k₄, k₅, k₆, l₁, l₂, l₃, l₄,
    l₅, l₆]
  simp

theorem Access.allowed_iff (flags : Nat) (op : Access) :
    op.allowed (leafRights (vmmGenericToX86Flags flags)) = true ↔ op.Permitted flags := by
  rw [leafRights_vmmGenericToX86Flags]
  cases op with
  | read => exact iff_of_true rfl trivial
  | write w => exact decide_eq_true_iff
  | fetch => exact decide_eq_true_iff

theorem Space.Window.half {space : Space} {x : Nat} (h : space.Window x) :
    vmmKernelStart ≤ x ↔ space = .kernel := by
  cases space with
  | kernel => exact iff_of_true h.1 rfl
  | user =>
    refine iff_of_false (not_le.mpr (Nat.lt_of_le_of_lt h.2 ?_)) (by simp)
    decide

/-! ## Spaces of anonymous memory -/

/-- All areas are anonymous, and the entries of their pages give the rights of their flags. -/
structure AnonSpace (U : Set Nat) (others : List Block) (m : Machine Pmm) (v : AddressSpace)
    (T : List Nat → Option Nat) (leaf : List Nat → Nat) (anon : List (Nat × Nat))
      (rest : List Nat) : Prop
    extends SpaceInv U others 512 m v T leaf anon rest where
  noMmio : ∀ a ∈ v.regionList, a.flags &&& vmmFlagsMmio = 0
  rights : ∀ a ∈ v.regionList, ∀ x, a.Contains x → leaf (leafPath x false) ≠ 0 →
    leafRights (leaf (leafPath x false)) = leafRights (vmmGenericToX86Flags a.flags)

def VmmSys.Anon (U : Set Nat) (others : List Block) (s : VmmSys) : Prop :=
  ∃ T leaf anon rest, AnonSpace U others s.machine s.space T leaf anon rest

section
variable {U : Set Nat} {others : List Block} {s s' : VmmSys} {x : Nat} {a : VmArea}

namespace VmmSys.Anon

/-- The translation of an address of an area has the rights of the area. -/
theorem walk_area (H : s.Anon U others) (ha : a ∈ s.space.regionList) (hx : a.Contains x) :
    s.walk x = none ∨
    ∃ phys, s.walk x = some (phys, leafRights (vmmGenericToX86Flags a.flags)) := by
  obtain ⟨T, leaf, anon, rest, H⟩ := H
  rcases H.toSpaceInv.walk_area ha (H.noMmio a ha) hx with ⟨-, hnone⟩ | ⟨hne, f, -, hsome⟩
  · exact .inl hnone
  · rw [H.rights a ha x hx hne] at hsome
    exact .inr ⟨_, hsome⟩

/-- Only the areas are mapped in the window. -/
theorem walk_outside (H : s.Anon U others) (hx : s.space.space.Window x)
    (h : ∀ a ∈ s.space.regionList, ¬ a.Contains x) : s.walk x = none := by
  obtain ⟨T, leaf, anon, rest, H⟩ := H
  refine (H.pageWalk_eq_none hx).mpr ?_
  by_contra hne
  obtain ⟨a, ha, hxa⟩ := H.inArea hx hne
  exact h a ha hxa

theorem walk_inj (H : s.Anon U others) {b : VmArea} {y phys : Nat} {rights rights' : Rights}
    (ha : a ∈ s.space.regionList) (hx : a.Contains x) (hb : b ∈ s.space.regionList)
    (hy : b.Contains y) (hwalk : s.walk x = some (phys, rights))
    (hwalk' : s.walk y = some (phys, rights')) : y = x := by
  obtain ⟨T, leaf, anon, rest, H⟩ := H
  exact H.toSpaceInv.walk_inj ha (H.noMmio a ha) hx hb (H.noMmio b hb) hy hwalk hwalk'

/-- A fault shows in the translation of the page only. -/
theorem fault (H : s.Anon U others) (h : vmmStep s (.fault x) = some s') :
    s'.Anon U others ∧ s'.space = s.space ∧
    (∃ a ∈ s.space.regionList, a.Contains x) ∧ s'.walk x ≠ none ∧
    ∀ a ∈ s.space.regionList, ∀ y, a.Contains y → s'.view y = s.view y := by
  obtain ⟨T, leaf, anon, rest, H⟩ := H
  obtain ⟨⟨hcan, hwalk, -⟩, h⟩ := Option.ite_none_right_eq_some.mp h
  obtain ⟨m', hm', rfl⟩ := Option.map_eq_some_iff.mp h
  obtain ⟨a, f, T', new, ha, -, hx, S⟩ := H.toSpaceInv.fault (ite_self _) hwalk hm'
  have hframe : f < 2 ^ 52 :=
    (S.inv.held.isFrame (List.mem_append_left _ (List.mem_map_of_mem List.mem_cons_self))).2
  have hentry := ne_zero_of_testBit (pagingEntry_small_present f (vmmGenericToX86Flags a.flags))
  refine ⟨⟨T', _, _, _, S.inv, H.noMmio, fun b hb y hy hne => ?_⟩, rfl, ⟨a, ha, hx⟩, fun hnone =>
    ?_, fun b hb y hy => H.toSpaceInv.fault_view (ite_self _) hwalk hm' ha hx hb (H.noMmio b hb) hy⟩
  · by_cases hp : leafPath y false = leafPath x false
    · have hpage := leafPath_inj (H.contains_window hb hy).canonical.1 hcan hp
      have hxb : b.Contains x := by
        rw [← H.contains_pageBase hb, ← show y / pagingPageSize = x / pagingPageSize from hpage,
          H.contains_pageBase hb]
        exact hy
      rw [hp, Function.update_self, leafRights_pagingEntry hframe, H.wf.eq_of_contains ha hb hx hxb]
    · rw [Function.update_of_ne hp] at hne ⊢
      exact H.rights b hb y hy hne
  · have hzero := (S.inv.pageWalk_eq_none (H.contains_window ha hx)).mp hnone
    rw [Function.update_self] at hzero
    exact hentry hzero

/-- The areas that are left stay as they are. -/
theorem free (H : s.Anon U others) {addr : Nat} (h : vmmStep s (.free addr) = some s') :
    s'.Anon U others ∧ s'.space.space = s.space.space ∧
    s'.space.regionList =
      ((vmmFreeRegion s.space.regionList addr).map Prod.snd).getD s.space.regionList ∧
    ∀ a ∈ s'.space.regionList, a ∈ s.space.regionList ∧ ∀ y, a.Contains y →
      s'.view y = s.view y := by
  obtain ⟨T, leaf, anon, rest, H⟩ := H
  obtain ⟨-, h⟩ := Option.ite_none_right_eq_some.mp h
  obtain ⟨⟨m', v'⟩, hr, rfl⟩ := Option.map_eq_some_iff.mp h
  by_cases hex : ∃ a ∈ s.space.regionList, a.Contains addr
  · obtain ⟨a, ha, haddr⟩ := hex
    obtain ⟨m₁, leaf', hr₁, S, -, hleaf, -⟩ := H.toSpaceInv.free ha haddr
    cases hr.symm.trans hr₁
    have hzero : addr ≠ 0 := by
      have := s.space.space.regionSearchStart_ne_zero
      have := (H.window a ha).1
      have := haddr.1
      omega
    have hout {b : VmArea} (hb : b ∈ s.space.regionList.erase a) {y : Nat} (hy : b.Contains y) :
        ¬ a.Contains y := by
      intro hya
      obtain rfl := H.wf.eq_of_contains (List.mem_of_mem_erase hb) ha hy hya
      exact H.wf.nodup.not_mem_erase hb
    refine ⟨⟨T, leaf', _, _, S.inv, fun b hb => H.noMmio b (List.mem_of_mem_erase hb),
      fun b hb y hy hne => ?_⟩, rfl, ?_,
      fun b hb => ⟨List.mem_of_mem_erase hb, fun y hy => ?_⟩⟩
    · have hmem := List.mem_of_mem_erase hb
      rw [hleaf y (H.contains_window hmem hy).canonical.1, if_neg (hout hb hy)] at hne ⊢
      exact H.rights b hmem y hy hne
    · rw [vmmFreeRegion, if_neg hzero, vmmUnlink_some H.wf H.limit_lt ha haddr]
      rfl
    · have hmem := List.mem_of_mem_erase hb
      exact H.toSpaceInv.free_view ha (H.noMmio a ha) haddr hr hmem (H.noMmio b hmem) hy
        (hout hb hy)
  · have hno : ∀ a ∈ s.space.regionList, ¬ a.Contains addr := fun a ha haddr => hex ⟨a, ha, haddr⟩
    cases hr.symm.trans (H.free_none hno)
    refine ⟨⟨T, leaf, anon, rest, H⟩, rfl, ?_, fun a ha => ⟨ha, fun _ _ => rfl⟩⟩
    rw [vmmFreeRegion, vmmUnlink_none H.limit_lt hno, ite_self]
    rfl

/-- A new area is clear, and the others stay as they are. -/
theorem alloc (H : s.Anon U others) {size flags : Nat} {kmallocOk : Bool} (hflags : isAnon flags)
    (hroom : (VmmOp.alloc size flags 0 kmallocOk).HasRoom s)
    (h : vmmStep s (.alloc size flags 0 kmallocOk) = some s') :
    s'.Anon U others ∧ s'.space.space = s.space.space ∧
    (vmmAllocRegion s.space.space s.space.regionList size flags kmallocOk = none ∧ s' = s ∨
      ∃ base, vmmAllocRegion s.space.space s.space.regionList size flags kmallocOk =
        some (s'.space.regionList, base) ∧
        ∀ a ∈ s'.space.regionList, ∀ y, a.Contains y →
          (base ≤ y ∧ y < base + pageAlignUp size) ∧ s'.view y = 0 ∨
          ¬ (base ≤ y ∧ y < base + pageAlignUp size) ∧ a ∈ s.space.regionList ∧
          s'.view y = s.view y) := by
  obtain ⟨T, leaf, anon, rest, H⟩ := H
  obtain ⟨⟨-, -, harg⟩, h⟩ := Option.ite_none_right_eq_some.mp h
  obtain ⟨⟨m', v', ret⟩, hr, rfl⟩ := Option.map_eq_some_iff.mp h
  rcases H.toSpaceInv.alloc harg hroom hr with
    ⟨rfl, rfl, -, hnone, -⟩ | ⟨-, a, p, r, T', leaf', new, ha, hregion, happ, rfl, S, -, hleaf,
      hsame⟩
  · exact ⟨⟨T, leaf, anon, rest, H⟩, rfl, .inl ⟨hnone, rfl⟩⟩
  · have hmmio : a.flags &&& vmmFlagsMmio = 0 := by
      rw [ha]
      exact (areaFlags_and_mmio _ _).trans hflags.2
    obtain ⟨rfl, -⟩ := hsame hmmio
    have hmem {b : VmArea} : b ∈ p ++ a :: r ↔ b = a ∨ b ∈ s.space.regionList := by
      rw [happ]
      simp only [List.mem_append, List.mem_cons]
      tauto
    have hnew : a ∉ s.space.regionList := by
      rw [happ]
      exact (List.nodup_cons.mp (List.perm_middle.nodup_iff.mp S.inv.wf.nodup)).1
    have hold {y : Nat} (hy : s.space.space.Window y) : leaf' (leafPath y false) =
        leaf (leafPath y false) := by
      rw [hleaf y hy.canonical.1, mmioLeaf, if_neg fun h => h.1 hmmio]
    have hclear {y : Nat} (hy : a.Contains y) : leaf (leafPath y false) = 0 := by
      by_contra hne
      obtain ⟨b, hb, hyb⟩ := H.inArea (S.inv.contains_window (hmem.mpr (.inl rfl)) hy) hne
      exact hnew (S.inv.wf.eq_of_contains (hmem.mpr (.inr hb)) (hmem.mpr (.inl rfl)) hyb hy ▸ hb)
    refine ⟨⟨T', leaf', anon, _, S.inv, fun b hb => ?_, fun b hb y hy hne => ?_⟩, rfl,
      .inr ⟨ret, hregion, fun b hb y hy => ?_⟩⟩
    · rcases hmem.mp hb with rfl | hb
      · exact hmmio
      · exact H.noMmio b hb
    · rw [hold (S.inv.contains_window hb hy)] at hne ⊢
      rcases hmem.mp hb with rfl | hb
      · exact absurd (hclear hy) hne
      · exact H.rights b hb y hy hne
    · have hin : a.Contains y ↔ ret ≤ y ∧ y < ret + pageAlignUp size := by
        rw [ha]
        exact Iff.rfl
      rw [← hin]
      rcases hmem.mp hb with rfl | hb
      · refine .inl ⟨hy, ?_⟩
        have hnone :=
          (H.pageWalk_eq_none (S.inv.contains_window (hmem.mpr (.inl rfl)) hy)).mpr (hclear hy)
        exact viewThrough_none (congrArg (Option.map Prod.fst) hnone)
      · refine .inr ⟨fun hya => ?_, hb, rfl⟩
        exact hnew (S.inv.wf.eq_of_contains (hmem.mpr (.inr hb)) (hmem.mpr (.inl rfl)) hy hya ▸ hb)

/-- A store to a word of an area changes that word only. -/
theorem store (H : s.Anon U others) {phys : Nat} {rights : Rights} (ha : a ∈ s.space.regionList)
    (hx : a.Contains x) (hwalk : s.walk x = some (phys, rights)) (w : Nat) :
    VmmSys.Anon U others
      { s with machine := { s.machine with mem := Function.update s.machine.mem phys w } } ∧
    ∀ b ∈ s.space.regionList, ∀ y, b.Contains y →
      VmmSys.view
        { s with machine := { s.machine with mem := Function.update s.machine.mem phys w } } y =
        Function.update s.view x w y := by
  have Hs := H
  obtain ⟨T, leaf, anon, rest, H⟩ := H
  have hentry (p : List Nat) (g i : Nat) (hp : T p = some g) (hi : i < tableSize 512 p) :
      entryAddr g i ≠ phys := by
    rcases H.toSpaceInv.walk_area ha (H.noMmio a ha) hx with ⟨-, hnone⟩ | ⟨-, f, hf, hsome⟩
    · cases hnone.symm.trans hwalk
    · have hphys : f + x % 2 ^ 12 = phys :=
        congrArg Prod.fst (Option.some.inj (hsome.symm.trans hwalk))
      exact hphys ▸ (H.ne_entryAddr hf (inFrame_add_mod f x) p g i hp hi).symm
  have htree : PageTree 512 s.space.pml4Phys (Function.update s.machine.mem phys w) T leaf :=
    H.tree.congr fun p g i hp hi => Function.update_of_ne (hentry p g i hp hi) _ _
  have hpaged :
      Paged U others 512 s.space.pml4Phys ⟨Function.update s.machine.mem phys w, s.machine.frames⟩ T
        leaf anon rest := ⟨htree, H.held, H.tables, H.backed⟩
  refine ⟨⟨T, leaf, anon, rest,
    ⟨⟨hpaged, H.half, H.wf, H.window, H.small, H.inArea, H.owned, H.anonArea, H.mmio⟩,
    H.noMmio, H.rights⟩⟩, fun b hb y hy => ?_⟩
  have hsame : pageWalk (Function.update s.machine.mem phys w) s.space.pml4Phys y = s.walk y := by
    obtain ⟨hcan, hn, -⟩ := H.page_window (H.contains_window hb hy)
    exact (htree.pageWalk_eq hn hcan).trans (H.tree.pageWalk_eq hn hcan).symm
  have htr : s.translate x = some phys := congrArg (Option.map Prod.fst) hwalk
  have hinj (htr' : s.translate y = some phys) : y = x := by
    obtain ⟨⟨q, rights'⟩, hwalk', rfl⟩ := Option.map_eq_some_iff.mp htr'
    exact Hs.walk_inj ha hx hb hy hwalk hwalk'
  refine Eq.trans ?_ (viewThrough_update htr hinj w)
  exact viewThrough_congr (congrArg (Option.map Prod.fst) hsame) fun _ _ => rfl

theorem touch (H : s.Anon U others) (h : s.touch x = some s') :
    s'.Anon U others ∧ s'.space = s.space ∧
    s'.walk x ≠ none ∧ ∀ a ∈ s.space.regionList, ∀ y, a.Contains y → s'.view y = s.view y := by
  unfold VmmSys.touch at h
  split at h
  · next hsome =>
    cases h
    exact ⟨H, rfl, Option.isSome_iff_ne_none.mp hsome, fun _ _ _ _ => rfl⟩
  · obtain ⟨H', hspace, -, hne, hview⟩ := H.fault h
    exact ⟨H', hspace, hne, hview⟩

theorem touch_isSome (H : s.Anon U others) (ha : a ∈ s.space.regionList) (hx : a.Contains x)
    (hframes : 4 ≤ s.machine.frames.freeCount) : ∃ t, s.touch x = some t := by
  unfold VmmSys.touch
  split
  · exact ⟨s, rfl⟩
  · next hnone =>
    obtain ⟨T, leaf, anon, rest, H⟩ := H
    have hwalk : s.walk x = none := Option.not_isSome_iff_eq_none.mp hnone
    have hwindow := H.contains_window ha hx
    obtain ⟨hcan, hn, hsmall⟩ := H.page_window hwindow
    have hvalid : (VmmOp.fault x).Valid s := ⟨hcan, hwalk, hwindow.half⟩
    obtain ⟨m, hm⟩ := H.toSpaceInv.fault_isSome ha hx hframes
    exact ⟨{ s with machine := m }, by rw [vmmStep, if_pos hvalid, vmmCall, hm]; rfl⟩

/-- An access to an address of the window: if it succeeds, the address is in an area that permits
it, and what is read and stored is what is seen there. -/
theorem access (H : s.Anon U others) {op : Access} {w : Nat} (hx : s.space.space.Window x)
    (h : s.access x op = some (s', w)) : s'.Anon U others ∧ s'.space = s.space ∧
    (∃ a ∈ s.space.regionList, a.Contains x ∧ op.Permitted a.flags) ∧ w = s.view x ∧
    ∀ b ∈ s.space.regionList, ∀ y, b.Contains y → s'.view y = op.store s.view x y := by
  unfold VmmSys.access at h
  cases htouch : s.touch x with
  | none =>
    rw [htouch] at h
    cases h
  | some t =>
    obtain ⟨Ht, hspace, -, hview⟩ := H.touch htouch
    rw [htouch] at h
    cases hwalk : t.walk x with
    | none =>
      simp only [hwalk] at h
      cases h
    | some result =>
      obtain ⟨phys, rights⟩ := result
      simp only [hwalk] at h
      obtain ⟨hallowed, h⟩ := Option.ite_none_right_eq_some.mp h
      cases h
      have harea : ∃ a ∈ t.space.regionList, a.Contains x := by
        by_contra hno
        have hnone := Ht.walk_outside (hspace ▸ hx) fun a ha hxa => hno ⟨a, ha, hxa⟩
        cases hnone.symm.trans hwalk
      obtain ⟨a, ha, hxa⟩ := harea
      have hpermitted : op.Permitted a.flags := by
        rcases Ht.walk_area ha hxa with hnone | ⟨_, hsome⟩
        · cases hnone.symm.trans hwalk
        · cases hsome.symm.trans hwalk
          exact (op.allowed_iff a.flags).mp hallowed
      have hword : t.view x = t.machine.mem phys :=
        viewThrough_some (congrArg (Option.map Prod.fst) hwalk)
      rw [hspace] at ha
      refine ⟨?_, hspace, ⟨a, ha, hxa, hpermitted⟩, ?_, fun b hb y hy => ?_⟩
      · cases op with
        | read => exact Ht
        | fetch => exact Ht
        | write w => exact (Ht.store (hspace ▸ ha) hxa hwalk w).1
      · rw [← hview a ha x hxa, hword]
      · cases op with
        | read => exact hview b hb y hy
        | fetch => exact hview b hb y hy
        | write w =>
          refine ((Ht.store (hspace ▸ ha) hxa hwalk w).2 b (hspace ▸ hb) y hy).trans ?_
          simp only [Access.store, Function.update_apply, hview b hb y hy]

/-- With four free frames, one for the page and three for tables, an access that is permitted
succeeds. -/
theorem access_isSome (H : s.Anon U others) {op : Access} (ha : a ∈ s.space.regionList)
    (hx : a.Contains x) (hop : op.Permitted a.flags) (hframes : 4 ≤ s.machine.frames.freeCount) :
    (s.access x op).isSome := by
  obtain ⟨t, htouch⟩ := H.touch_isSome ha hx hframes
  obtain ⟨Ht, hspace, hne, -⟩ := H.touch htouch
  rw [← hspace] at ha
  rcases Ht.walk_area ha hx with hnone | ⟨phys, hsome⟩
  · exact absurd hnone hne
  · simp only [VmmSys.access, htouch, hsome, (op.allowed_iff a.flags).mpr hop, if_true,
      Option.isSome_some]

end VmmSys.Anon

end

/-! ## Runs -/

/-- The space shows the flat memory. -/
structure Shows (U : Set Nat) (others : List Block) (space : Space) (s : MemSys) (m : FlatMemory) :
  Prop where
  anon : s.vmm.Anon U others
  space_eq : s.vmm.space.space = space
  areas : s.vmm.space.regionList = m.areas
  content : ∀ a ∈ m.areas, ∀ x, a.Contains x → s.vmm.view x = m.content x
  loads : s.loads = m.loads

section
variable {U : Set Nat} {others : List Block} {space : Space} {s s' : MemSys} {m : FlatMemory}
  {op : MemOp}

theorem Shows.step (H : Shows U others space s m) (hop : op.InWindow s)
    (h : memStep s op = some s') : Shows U others space s' (flatStep space m op) := by
  obtain ⟨hanon, rfl, hareas, hcontent, hloads⟩ := H
  cases op with
  | alloc size flags kmallocOk =>
    obtain ⟨vmm, hr, rfl⟩ := Option.map_eq_some_iff.mp h
    obtain ⟨hflags, hr⟩ := Option.ite_none_right_eq_some.mp hr
    obtain ⟨H', hspace, hcases⟩ := hanon.alloc hflags hop hr
    rw [hareas] at hcases
    rcases hcases with ⟨hnone, rfl⟩ | ⟨base, hsome, hview⟩
    · rw [flatStep, hnone]
      exact ⟨H', rfl, hareas, hcontent, hloads⟩
    · rw [flatStep, hsome]
      refine ⟨H', hspace, rfl, fun a ha x hx => ?_, hloads⟩
      rcases hview a ha x hx with ⟨hin, hzero⟩ | ⟨hout, hmem, hsame⟩
      · exact hzero.trans (if_pos hin).symm
      · exact (hsame.trans (hcontent a hmem x hx)).trans (if_neg hout).symm
  | free addr =>
    obtain ⟨vmm, hr, rfl⟩ := Option.map_eq_some_iff.mp h
    obtain ⟨-, hr⟩ := Option.ite_none_right_eq_some.mp hr
    obtain ⟨H', hspace, hregions, hview⟩ := hanon.free hr
    rw [hareas] at hregions hview
    refine ⟨H', hspace, hregions, fun a ha x hx => ?_, hloads⟩
    obtain ⟨hmem, hsame⟩ := hview a (hregions ▸ ha)
    exact (hsame x hx).trans (hcontent a hmem x hx)
  | access x op =>
    obtain ⟨-, h⟩ := Option.ite_none_right_eq_some.mp h
    obtain ⟨⟨vmm, w⟩, hr, rfl⟩ := Option.map_eq_some_iff.mp h
    obtain ⟨H', hspace, ⟨a, ha, hx, -⟩, hw, hview⟩ := hanon.access hop hr
    rw [hareas] at ha hview
    have hword : w = m.content x := hw.trans (hcontent a ha x hx)
    refine ⟨H', by rw [hspace], by rw [hspace]; exact hareas, fun b hb y hy => ?_, ?_⟩
    · rw [hview b hb y hy]
      cases op with
      | read => exact hcontent b hb y hy
      | fetch => exact hcontent b hb y hy
      | write w =>
        simp only [flatStep, Access.store, Function.update_apply]
        rw [hcontent b hb y hy]
    · simp only [flatStep, hloads, hword]

/-- In the beginning all areas are clear. -/
theorem VmmSys.Start.shows {held : List Nat} {s : VmmSys} (H : s.Start U others held) :
    Shows U others s.space.space ⟨s, []⟩ ⟨s.space.regionList, fun _ => 0, []⟩ := by
  obtain ⟨T, leaf, H'⟩ := H.inv
  have hwalk {a : VmArea} {x : Nat} (ha : a ∈ s.space.regionList) (hx : a.Contains x) :
      s.walk x = none :=
    H.untouched x (H'.contains_window ha hx)
  refine ⟨⟨T, leaf, [], held, H', fun a ha => (H.window a ha).1.2, fun a ha x hx hne => ?_⟩, rfl,
    rfl, fun a ha x hx => viewThrough_none (congrArg (Option.map Prod.fst) (hwalk ha hx)),
    rfl⟩
  exact absurd ((H'.pageWalk_eq_none (H'.contains_window ha hx)).mp (hwalk ha hx)) hne

end

/-- Virtual memory is memory: in every run of allocations, frees and accesses, what is read is what
flat memory would give. -/
theorem memRun_flat {U : Set Nat} {others : List Block} {held : List Nat} {s : VmmSys} {t : MemSys}
    {ops : List MemOp} (H : s.Start U others held)
    (hops : AllSteps memStep (fun s op => op.InWindow s) ⟨s, []⟩ ops)
    (hrun : runFrom memStep ⟨s, []⟩ ops = some t) :
    t.loads = (ops.foldl (flatStep s.space.space) ⟨s.space.regionList, fun _ => 0, []⟩).loads ∧
    t.vmm.space.regionList =
      (ops.foldl (flatStep s.space.space) ⟨s.space.regionList, fun _ => 0, []⟩).areas := by
  have Ht := runFrom_simulation_of (fun _ _ _ _ => Shows.step) H.shows hops hrun
  exact ⟨Ht.loads, Ht.areas⟩

/-- A word is stored and read, the word behind it is read, and the area is freed. -/
def storeAndRead : List MemOp :=
  [.alloc 0x2000 18 true, .access 0x1008 (.write 5), .access 0x1008 .read, .access 0x1010 .read,
    .free 0x1000]

theorem storeAndRead_inWindow :
    AllSteps memStep (fun s op => op.InWindow s) ⟨smallVmm .user, []⟩ storeAndRead := by
  decide +kernel

theorem memRun_flat_storeAndRead :
    ∃ t, runFrom memStep ⟨smallVmm .user, []⟩ storeAndRead = some t ∧ t.loads = [5, 0] := by
  have hsome : (runFrom memStep ⟨smallVmm .user, []⟩ storeAndRead).isSome := by decide +kernel
  obtain ⟨t, ht⟩ := Option.isSome_iff_exists.mp hsome
  exact ⟨t, ht,
    (memRun_flat (smallVmm_start .user) storeAndRead_inWindow ht).1.trans (by decide +kernel)⟩

/-- Memory protection: in every state that such a run reaches, as long as there are frames, an
access to a word of the window is possible exactly if the word is in an area whose flags permit
it. -/
theorem access_isSome_iff {U : Set Nat} {others : List Block} {held : List Nat} {s : VmmSys}
    {t : MemSys} {ops : List MemOp} {x : Nat} (H : s.Start U others held)
    (hops : AllSteps memStep (fun s op => op.InWindow s) ⟨s, []⟩ ops)
    (hrun : runFrom memStep ⟨s, []⟩ ops = some t) (hframes : 4 ≤ t.vmm.machine.frames.freeCount)
    (hword : x % 8 = 0) (hx : s.space.space.Window x) (op : Access) :
    (memStep t (.access x op)).isSome ↔ ∃ a ∈ t.vmm.space.regionList, a.Contains x ∧
    op.Permitted a.flags := by
  have Ht := runFrom_simulation_of (fun _ _ _ _ => Shows.step) H.shows hops hrun
  rw [memStep, if_pos hword, Option.isSome_map]
  constructor
  · intro h
    obtain ⟨⟨vmm, w⟩, hr⟩ := Option.isSome_iff_exists.mp h
    exact (Ht.anon.access (Ht.space_eq ▸ hx) hr).2.2.1
  · rintro ⟨a, ha, hxa, hop⟩
    exact Ht.anon.access_isSome ha hxa hop hframes

/-- The page behind the area cannot be written, and the area itself can. -/
theorem access_isSome_iff_storeAndRead :
    ∃ t, runFrom memStep ⟨smallVmm .user, []⟩ (storeAndRead.take 4) = some t ∧
      (memStep t (.access 0x2000 (.write 1))).isSome ∧
      ¬ (memStep t (.access 0x3000 (.write 1))).isSome := by
  have hsome : (runFrom memStep ⟨smallVmm .user, []⟩ (storeAndRead.take 4)).isSome := by
    decide +kernel
  obtain ⟨t, ht⟩ := Option.isSome_iff_exists.mp hsome
  have hregions : t.vmm.space.regionList = [⟨0x1000, 0x2000, 18⟩] ∧
      4 ≤ t.vmm.machine.frames.freeCount := by
    have h : ∀ t ∈ runFrom memStep ⟨smallVmm .user, []⟩ (storeAndRead.take 4),
        t.vmm.space.regionList = [⟨0x1000, 0x2000, 18⟩] ∧ 4 ≤ t.vmm.machine.frames.freeCount := by
          decide +kernel
    exact h t ht
  have hops :
      AllSteps memStep (fun s op => op.InWindow s) ⟨smallVmm .user, []⟩ (storeAndRead.take 4) := by
    decide +kernel
  have hiff (x : Nat) (hword : x % 8 = 0) (hx : Space.user.Window x) :=
    access_isSome_iff (smallVmm_start .user) hops ht hregions.2 hword hx (.write 1)
  refine ⟨t, ht, (hiff 0x2000 rfl ⟨by decide, by decide⟩).mpr ?_, fun h => ?_⟩
  · rw [hregions.1]
    refine ⟨_, List.mem_cons_self, by decide, ?_⟩
    unfold Access.Permitted
    decide
  · obtain ⟨a, ha, hx, -⟩ := (hiff 0x3000 rfl ⟨by decide, by decide⟩).mp h
    rw [hregions.1, List.mem_singleton] at ha
    subst ha
    exact absurd hx.2 (by decide)

end Plos
