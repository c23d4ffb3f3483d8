import Plos.Memory.Vmm.Lifecycle

/-! The address spaces of processes on one machine.

Any number of spaces are created, used and destroyed. The tables and the anonymous frames of the
lower halves of those that live are disjoint (`SpacesInv`), so what is done in one space, its
destruction included, does not change a translation in another one. Memory-mapped I/O maps the
frames that the caller names; as long as these are not pages of the physical memory manager, no
anonymous frame of one space is reached from another. -/

namespace Plos

variable {U : Set Nat} {others : List Block}

/-! ## The system -/

/-- The machine and the spaces that live, by the address of their structure. -/
structure SpacesSys where
  machine : Machine Pmm
  spaces : Nat → Option AddressSpace

inductive SpacesOp where
  | create (id : Nat) (kmallocOk : Bool)
  | destroy (id : Nat)
  | call (id : Nat) (op : VmmOp)

namespace SpacesOp

/-- The space that is created, destroyed or used. -/
def who : SpacesOp → Nat
  | create id _ => id
  | destroy id => id
  | call id _ => id

/-- A new area fits into the window of the space. -/
def HasRoom (s : SpacesSys) : SpacesOp → Prop
  | call id op => ∀ v ∈ s.spaces id, op.HasRoom ⟨s.machine, v⟩
  | _ => True

instance (s : SpacesSys) : (o : SpacesOp) → Decidable (o.HasRoom s)
  | .create .. => .isTrue trivial
  | .destroy _ => .isTrue trivial
  | .call .. => inferInstanceAs (Decidable (∀ v ∈ _, _))

/-- Memory-mapped I/O is for devices. -/
def DeviceOnly (U : Set Nat) : SpacesOp → Prop
  | call _ op => op.DeviceOnly U
  | _ => True

end SpacesOp

/-- `kernelPml4` is the first table of the kernel, whose higher half a new space gets. -/
def spacesStep (kernelPml4 : Nat) (s : SpacesSys) : SpacesOp → Option SpacesSys
  | .create id kmallocOk =>
    if s.spaces id = none then
      match vmmNewAddressSpace pmmFrames s.machine kernelPml4 kmallocOk with
      | (m, none) => some { s with machine := m }
      | (m, some v) => some ⟨m, Function.update s.spaces id (some v)⟩
    else none
  | .destroy id =>
    match s.spaces id with
    | none => none
    | some v => (vmmDestroyAddressSpace pmmFrames s.machine v).map fun m =>
        ⟨m, Function.update s.spaces id none⟩
  | .call id op =>
    match s.spaces id with
    | none => none
    | some v => (vmmStep ⟨s.machine, v⟩ op).map fun t =>
        ⟨t.machine, Function.update s.spaces id (some t.space)⟩

/-- The lower half of a space is translated as before. -/
def LowUnchanged (s t : VmmSys) : Prop := ∀ x < 2 ^ 47, t.walk x = s.walk x

/-- No frame of an anonymous page of one space is reached from the lower half of another one. -/
def SharesNoAnon (s : SpacesSys) : Prop :=
  ∀ i j v w, i ≠ j → s.spaces i = some v → s.spaces j = some w →
    ∀ a ∈ v.regionList, isAnon a.flags → ∀ x, a.Contains x → ∀ phys rights,
      VmmSys.walk ⟨s.machine, v⟩ x = some (phys, rights) → ∀ y < 2 ^ 47, ∀ phys' rights',
        VmmSys.walk ⟨s.machine, w⟩ y = some (phys', rights') →
          phys / pmmPageSize ≠ phys' / pmmPageSize

/-! ## One of the spaces -/

/-- A space whose tables and anonymous pages are in the frames `foot`, which are among those that
are held. -/
def LiveSpace (U : Set Nat) (others : List Block) (m : Machine Pmm) (v : AddressSpace)
    (foot held : List Nat) : Prop :=
  ∃ T leaf anon own rest, BuiltSpace U others m v T leaf anon own rest ∧
    foot = anon.map Prod.snd ++ (own ++ [v.pml4Phys]) ∧ (foot ++ rest).Perm held

section
variable {m m' : Machine Pmm} {v : AddressSpace} {T : List Nat → Option Nat} {leaf : List Nat → Nat}
  {anon : List (Nat × Nat)} {own rest foot held : List Nat}

theorem append_root (anon : List (Nat × Nat)) (own rest : List Nat) (root : Nat) :
    anon.map Prod.snd ++ (own ++ [root]) ++ rest = anon.map Prod.snd ++ (own ++ root :: rest) := by
  simp

namespace BuiltSpace

theorem table_mem (H : BuiltSpace U others m v T leaf anon own rest) {p : List Nat} {f : Nat}
    (hp : T p = some f) : f ∈ own ++ [v.pml4Phys] := by
  rcases H.inner hp with ⟨-, rfl⟩ | ⟨-, hf⟩
  · exact List.mem_append_right _ List.mem_cons_self
  · exact List.mem_append_left _ hf

theorem live (H : BuiltSpace U others m v T leaf anon own rest) :
    LiveSpace U others m v (anon.map Prod.snd ++ (own ++ [v.pml4Phys]))
      (anon.map Prod.snd ++ (own ++ v.pml4Phys :: rest)) :=
  ⟨T, leaf, anon, own, rest, H, rfl, by rw [append_root]⟩

/-- What is done elsewhere keeps a space. -/
theorem frame {rest' : List Nat} (H : BuiltSpace U others m v T leaf anon own rest)
    (hheld : PmmHolds U others m'.frames (anon.map Prod.snd ++ (own ++ v.pml4Phys :: rest')))
    (hmem : ∀ p f i, T p = some f → i < tableSize 256 p →
      m'.mem (entryAddr f i) = m.mem (entryAddr f i)) :
    BuiltSpace U others m' v T leaf anon own rest' := by
  have htables {p : List Nat} {f : Nat} (hp : T p = some f) : f ∈ own ++ v.pml4Phys :: rest' := by
    rw [List.append_cons]
    exact List.mem_append_left _ (H.table_mem hp)
  exact ⟨⟨⟨H.tree.congr hmem, hheld, htables, H.backed⟩, H.half, H.wf, H.window, H.small, H.inArea,
    H.owned, H.anonArea, H.mmio⟩, H.user, H.inner⟩

theorem lowUnchanged (H : BuiltSpace U others m v T leaf anon own rest)
    (hmem : ∀ p f i, T p = some f → i < tableSize 256 p →
      m'.mem (entryAddr f i) = m.mem (entryAddr f i)) : LowUnchanged ⟨m, v⟩ ⟨m', v⟩ := by
  intro x hx
  have hn : x / 2 ^ 39 % 512 < 256 := by omega
  exact ((H.tree.congr hmem).pageWalk_eq hn (.inl hx)).trans
    (H.tree.pageWalk_eq hn (.inl hx)).symm

/-- The frames that the space does not own hold none of its tables. -/
theorem kept (H : BuiltSpace U others m v T leaf anon own rest) {f i : Nat} (hf : f ∈ rest)
    (hi : i < 512) : Kept 256 T (own ++ v.pml4Phys :: rest) (entryAddr f i) := by
  have hnodup := (List.nodup_append.mp H.held.nodup).2.1
  have hmem : f ∈ own ++ v.pml4Phys :: rest :=
    List.mem_append_right _ (List.mem_cons_of_mem _ hf)
  refine ⟨⟨f, hmem, inFrame_entryAddr hi⟩, fun p g j hp hj h => ?_⟩
  have hj := Nat.lt_of_lt_of_le hj (H.tree.size_le_512 p)
  obtain ⟨hfg, -⟩ := pageFormat.slot_inj (H.held.isFrame (List.mem_append_right _ hmem))
    (H.tree.valid hp) hi hj h
  rw [List.append_cons] at hnodup
  exact (List.nodup_append.mp hnodup).2.2 g (H.table_mem hp) f hf hfg.symm

end BuiltSpace

namespace LiveSpace

theorem foot_subset (H : LiveSpace U others m v foot held) {f : Nat} (hf : f ∈ foot) :
    f ∈ held := by
  obtain ⟨T, leaf, anon, own, rest, -, -, hperm⟩ := H
  exact hperm.subset (List.mem_append_left _ hf)

/-- A space is kept if its frames stay held and nothing is written into them. -/
theorem frame {held' : List Nat} (H : LiveSpace U others m v foot held)
    (hheld : PmmHolds U others m'.frames held') (hfoot : ∀ f ∈ foot, f ∈ held')
    (hmem : ∀ f ∈ foot, ∀ i < 512, m'.mem (entryAddr f i) = m.mem (entryAddr f i)) :
    LiveSpace U others m' v foot held' ∧ LowUnchanged ⟨m, v⟩ ⟨m', v⟩ := by
  obtain ⟨T, leaf, anon, own, rest, B, rfl, hperm⟩ := H
  have hnodup := (List.nodup_append.mp (append_root anon own rest _ ▸ B.held.nodup)).1
  have hsame (p : List Nat) (f i : Nat) (hp : T p = some f) (hi : i < tableSize 256 p) :
      m'.mem (entryAddr f i) = m.mem (entryAddr f i) :=
    hmem f (List.mem_append_right _ (B.table_mem hp)) i
      (Nat.lt_of_lt_of_le hi (B.tree.size_le_512 p))
  -- the other frames are those that are left
  have hperm' := List.subperm_append_diff_self_of_count_le fun f hf =>
    (List.nodup_iff_count_le_one.mp hnodup f).trans
      (List.one_le_count_iff.mpr (hfoot f hf))
  refine ⟨⟨T, leaf, anon, own, _, B.frame (hheld.perm ?_) hsame, rfl, hperm'⟩, B.lowUnchanged hsame⟩
  rw [← append_root]
  exact hperm'.symm

end LiveSpace

end

/-! ## All of the spaces -/

/-- The frames `foot` of the spaces are apart from each other and from the kernel's first table. -/
structure SpacesInv (U : Set Nat) (others : List Block) (kernelPml4 : Nat) (s : SpacesSys)
    (held : List Nat) (foot : Nat → List Nat) : Prop where
  frames : PmmHolds U others s.machine.frames held
  live : ∀ {i v}, s.spaces i = some v → LiveSpace U others s.machine v (foot i) held
  dead : ∀ {i}, s.spaces i = none → foot i = []
  apart : ∀ {i j}, i ≠ j → ∀ f ∈ foot i, f ∉ foot j
  kernel : kernelPml4 ∈ held
  kernelApart : ∀ i, kernelPml4 ∉ foot i

namespace SpacesInv

variable {kernelPml4 : Nat} {s s' : SpacesSys} {held : List Nat} {foot : Nat → List Nat}

/-- Everything that lives but one space is kept, and that one gets the frames `foot₁`. -/
theorem replace {held' : List Nat} {m : Machine Pmm}
    (H : SpacesInv U others kernelPml4 s held foot) (id : Nat) (w : Option AddressSpace)
    (foot₁ : List Nat) (hheld : PmmHolds U others m.frames held')
    (hlive : ∀ v ∈ w, LiveSpace U others m v foot₁ held') (hdead : w = none → foot₁ = [])
    (hold : ∀ f ∈ held, f ∉ foot id → f ∈ held' ∧ f ∉ foot₁ ∧
      ∀ i < 512, m.mem (entryAddr f i) = s.machine.mem (entryAddr f i)) :
    SpacesInv U others kernelPml4 ⟨m, Function.update s.spaces id w⟩ held'
        (Function.update foot id foot₁) ∧
      ∀ i v, i ≠ id → s.spaces i = some v → LowUnchanged ⟨s.machine, v⟩ ⟨m, v⟩ := by
  have hkept {i : Nat} {v : AddressSpace} (hne : i ≠ id) (hv : s.spaces i = some v) {f : Nat}
      (hf : f ∈ foot i) := hold f ((H.live hv).foot_subset hf) (H.apart hne f hf)
  have hother {i : Nat} {v : AddressSpace} (hne : i ≠ id) (hv : s.spaces i = some v) :
      LiveSpace U others m v (foot i) held' ∧ LowUnchanged ⟨s.machine, v⟩ ⟨m, v⟩ :=
    (H.live hv).frame hheld (fun f hf => (hkept hne hv hf).1) fun f hf => (hkept hne hv hf).2.2
  have hapart {i f : Nat} (hne : i ≠ id) (hf : f ∈ foot i) : f ∉ foot₁ := by
    cases hv : s.spaces i with
    | none =>
      rw [H.dead hv] at hf
      cases hf
    | some v => exact (hkept hne hv hf).2.1
  have hkernel := hold kernelPml4 H.kernel (H.kernelApart id)
  refine ⟨⟨hheld, fun {i v} hv => ?_, fun {i} hv => ?_, fun {i j} hne f hf => ?_, hkernel.1,
    fun i => ?_⟩, fun i v hne hv => (hother hne hv).2⟩
  · rcases eq_or_ne i id with rfl | hne
    · simp only [Function.update_self] at hv ⊢
      exact hlive v hv
    · simp only [Function.update_of_ne hne] at hv ⊢
      exact (hother hne hv).1
  · rcases eq_or_ne i id with rfl | hne
    · simp only [Function.update_self] at hv ⊢
      exact hdead hv
    · simp only [Function.update_of_ne hne] at hv ⊢
      exact H.dead hv
  · rcases eq_or_ne i id with rfl | hi
    · rw [Function.update_self] at hf
      rw [Function.update_of_ne hne.symm]
      exact fun hf' => hapart hne.symm hf' hf
    · rw [Function.update_of_ne hi] at hf
      rcases eq_or_ne j id with rfl | hj
      · rw [Function.update_self]
        exact hapart hi hf
      · rw [Function.update_of_ne hj]
        exact H.apart hne f hf
  · rcases eq_or_ne i id with rfl | hne
    · rw [Function.update_self]
      exact hkernel.2.1
    · rw [Function.update_of_ne hne]
      exact H.kernelApart i

end SpacesInv

/-! ## Memory-mapped I/O -/

/-- Nothing is mapped below the window, and memory-mapped I/O leads to no page of the allocator. -/
structure VmmSys.Clean (U : Set Nat) (s : VmmSys) : Prop where
  low : ∀ x < 2 ^ 47, ¬ Space.user.Window x → s.walk x = none
  mmio : MmioOutside U s

section
variable {m m' : Machine Pmm} {v : AddressSpace} {T : List Nat → Option Nat} {leaf : List Nat → Nat}
  {anon : List (Nat × Nat)} {own rest foot held : List Nat}

theorem NewSpace.clean {kernelPml4 : Nat} (N : NewSpace U others held m kernelPml4 m' v) :
    VmmSys.Clean U ⟨m', v⟩ := by
  obtain ⟨T, B⟩ := N.built
  refine ⟨fun x hx _ => B.tree.pageWalk_eq (by omega) (.inl hx), fun a ha => ?_⟩
  rw [N.areas] at ha
  cases ha

theorem BuiltSpace.clean_step {s s' : VmmSys} {op : VmmOp}
    (H : BuiltSpace U others s.machine s.space T leaf anon own rest) (hroom : op.HasRoom s)
    (hdev : op.DeviceOnly U) (hclean : s.Clean U) (h : vmmStep s op = some s') : s'.Clean U := by
  obtain ⟨-, -, -, -, -, -, -, -, hout⟩ := H.step hroom h
  exact ⟨fun x hx hw => (hout x hx hw).trans (hclean.low x hx hw),
    H.toSpaceInv.mmioOutside hroom hdev hclean.mmio h⟩

namespace LiveSpace

theorem lt_of_contains (H : LiveSpace U others m v foot held) {a : VmArea} {x : Nat}
    (ha : a ∈ v.regionList) (hx : a.Contains x) : x < 2 ^ 47 := by
  obtain ⟨T, leaf, anon, own, rest, B, -⟩ := H
  have hw := (B.user ▸ B.contains_window ha hx).2
  simp only [Space.regionSearchEnd, vmmUserEnd] at hw
  omega

theorem clean_of_unchanged (H : LiveSpace U others m v foot held) (hclean : VmmSys.Clean U ⟨m, v⟩)
    (hlow : LowUnchanged ⟨m, v⟩ ⟨m', v⟩) : VmmSys.Clean U ⟨m', v⟩ := by
  refine ⟨fun x hx hw => (hlow x hx).trans (hclean.low x hx hw),
    fun a ha hflags x hx phys rights hwalk => ?_⟩
  rw [hlow x (H.lt_of_contains ha hx)] at hwalk
  exact hclean.mmio a ha hflags x hx phys rights hwalk

/-- The frame of an anonymous page is one of the space. -/
theorem anon_mem (H : LiveSpace U others m v foot held) {a : VmArea} {x phys : Nat}
    {rights : Rights} (ha : a ∈ v.regionList) (hflags : a.flags &&& vmmFlagsMmio = 0)
    (hx : a.Contains x) (hwalk : VmmSys.walk ⟨m, v⟩ x = some (phys, rights)) :
    ∃ f ∈ foot, phys / pmmPageSize = f / pmmPageSize := by
  obtain ⟨T, leaf, anon, own, rest, B, rfl, -⟩ := H
  obtain ⟨f, hf, hpage⟩ := B.walk_anon ha hflags hx hwalk
  exact ⟨f, List.mem_append_left _ (List.mem_map_of_mem hf), hpage⟩

/-- What is translated in the lower half of a space is in one of its areas. -/
theorem area_of_walk (H : LiveSpace U others m v foot held) (hclean : VmmSys.Clean U ⟨m, v⟩)
    {x phys : Nat} {rights : Rights} (hx : x < 2 ^ 47)
    (hwalk : VmmSys.walk ⟨m, v⟩ x = some (phys, rights)) : ∃ a ∈ v.regionList, a.Contains x := by
  obtain ⟨T, leaf, anon, own, rest, B, -⟩ := H
  have hw : v.space.Window x := by
    rw [B.user]
    by_contra hno
    rw [hclean.low x hx hno] at hwalk
    cases hwalk
  refine B.inArea hw fun hzero => ?_
  rw [show VmmSys.walk ⟨m, v⟩ x = none from (B.pageWalk_eq_none hw).mpr hzero] at hwalk
  cases hwalk

end LiveSpace

end

namespace SpacesInv

variable {kernelPml4 : Nat} {s s' : SpacesSys} {held : List Nat} {foot : Nat → List Nat}

theorem sharesNoAnon (H : SpacesInv U others kernelPml4 s held foot)
    (hclean : ∀ i v, s.spaces i = some v → VmmSys.Clean U ⟨s.machine, v⟩) : SharesNoAnon s := by
  intro i j v w hne hv hw a ha hflags x hx phys rights hwalk y hy phys' rights' hwalk' heq
  obtain ⟨f, hf, hpage⟩ := (H.live hv).anon_mem ha hflags.2 hx hwalk
  have hheld := (H.live hv).foot_subset hf
  obtain ⟨b, hb, hyb⟩ := (H.live hw).area_of_walk (hclean j w hw) hy hwalk'
  by_cases hmmio : b.flags &&& vmmFlagsMmio = 0
  · obtain ⟨g, hg, hpage'⟩ := (H.live hw).anon_mem hb hmmio hyb hwalk'
    have hmod := H.frames.aligned f hheld
    have hmod' := H.frames.aligned g ((H.live hw).foot_subset hg)
    have hfg : f = g := by
      rw [hpage, hpage'] at heq
      simp only [pmmPageSize] at *
      omega
    exact H.apart hne f hf (hfg ▸ hg)
  · refine (hclean j w hw).mmio b hb hmmio y hyb phys' rights' hwalk' ?_
    rw [← heq, hpage]
    exact H.frames.page_mem hheld

/-! ## Steps -/

/-- What a step does to the spaces. -/
structure Stepped (U : Set Nat) (others : List Block) (kernelPml4 : Nat) (s : SpacesSys)
    (o : SpacesOp) (s' : SpacesSys) : Prop where
  inv : ∃ held foot, SpacesInv U others kernelPml4 s' held foot
  spaces : ∀ i, i ≠ o.who → s'.spaces i = s.spaces i
  low : ∀ i v, i ≠ o.who → s.spaces i = some v → LowUnchanged ⟨s.machine, v⟩ ⟨s'.machine, v⟩
  clean : o.DeviceOnly U → (∀ v, s.spaces o.who = some v → VmmSys.Clean U ⟨s.machine, v⟩) →
    ∀ v, s'.spaces o.who = some v → VmmSys.Clean U ⟨s'.machine, v⟩

theorem create {id : Nat} {kmallocOk : Bool} (H : SpacesInv U others kernelPml4 s held foot)
    (h : spacesStep kernelPml4 s (.create id kmallocOk) = some s') :
    Stepped U others kernelPml4 s (.create id kmallocOk) s' := by
  obtain ⟨hfree, h⟩ := Option.ite_none_right_eq_some.mp h
  split at h
  · next m hnew =>
    obtain rfl := vmmNewAddressSpace_none H.frames hnew
    cases h
    exact ⟨⟨held, foot, H⟩, fun _ _ => rfl, fun _ _ _ _ _ _ => rfl, fun _ h => h⟩
  · next m v hnew =>
    cases h
    have N := vmmNewAddressSpace_spec H.frames H.kernel hnew
    obtain ⟨T, B⟩ := N.built
    have hfresh := (List.nodup_cons.mp N.frames.nodup).1
    have hroot := N.frames.isFrame List.mem_cons_self
    obtain ⟨H', hlow⟩ := H.replace id (some v) [v.pml4Phys] N.frames
      (fun u hu => by cases hu; exact B.live) (fun hw => by cases hw) fun f hf _ => by
        refine ⟨List.mem_cons_of_mem _ hf, fun hmem => ?_, fun i hi => N.same _ fun hin => ?_⟩
        · exact hfresh (List.mem_singleton.mp hmem ▸ hf)
        · exact hfresh (InFrame.eq hroot (H.frames.isFrame hf) hin (inFrame_entryAddr hi) ▸ hf)
    refine ⟨⟨_, _, H'⟩, fun i hne => Function.update_of_ne hne .., fun i u hne hu =>
      hlow i u hne hu, fun _ _ u hu => ?_⟩
    simp only [SpacesOp.who, Function.update_self] at hu
    exact Option.some.inj hu ▸ N.clean

/-- The frames that a space does not have. -/
theorem mem_rest {rest held foot : List Nat} {f : Nat} (hperm : (foot ++ rest).Perm held)
    (hf : f ∈ held) (hno : f ∉ foot) : f ∈ rest :=
  (List.mem_append.mp (hperm.mem_iff.mpr hf)).resolve_left hno

theorem destroy_isSome {id : Nat} {v : AddressSpace}
    (H : SpacesInv U others kernelPml4 s held foot) (hv : s.spaces id = some v) :
    (spacesStep kernelPml4 s (.destroy id)).isSome := by
  obtain ⟨T, leaf, anon, own, rest, B, -⟩ := H.live hv
  obtain ⟨m, hr, -⟩ := B.destroy
  simp only [spacesStep, hv, hr, Option.map_some, Option.isSome_some]

theorem destroy {id : Nat} (H : SpacesInv U others kernelPml4 s held foot)
    (h : spacesStep kernelPml4 s (.destroy id) = some s') :
    Stepped U others kernelPml4 s (.destroy id) s' := by
  cases hv : s.spaces id with
  | none =>
    simp only [spacesStep, hv] at h
    cases h
  | some v =>
    obtain ⟨T, leaf, anon, own, rest, B, hfoot, hperm⟩ := H.live hv
    obtain ⟨m, hr, hheld, hsame⟩ := B.destroy
    simp only [spacesStep, hv, hr, Option.map_some] at h
    cases h
    obtain ⟨H', hlow⟩ := H.replace id none [] hheld
      (fun u hu => by cases hu) (fun _ => rfl) fun f hf hno => by
        have hrest := mem_rest hperm hf hno
        exact ⟨List.mem_append_right _ hrest, List.not_mem_nil,
          fun i hi => hsame _ (B.kept hrest hi)⟩
    refine ⟨⟨_, _, H'⟩, fun i hne => Function.update_of_ne hne .., fun i u hne hu =>
      hlow i u hne hu, fun _ _ u hu => ?_⟩
    simp only [SpacesOp.who, Function.update_self] at hu
    cases hu

theorem call {id : Nat} {op : VmmOp} (H : SpacesInv U others kernelPml4 s held foot)
    (hroom : (SpacesOp.call id op).HasRoom s)
    (h : spacesStep kernelPml4 s (.call id op) = some s') :
    Stepped U others kernelPml4 s (.call id op) s' := by
  cases hv : s.spaces id with
  | none =>
    simp only [spacesStep, hv] at h
    cases h
  | some v =>
    simp only [spacesStep, hv] at h
    obtain ⟨t, ht, rfl⟩ := Option.map_eq_some_iff.mp h
    obtain ⟨T, leaf, anon, own, rest, B, hfoot, hperm⟩ := H.live hv
    obtain ⟨T₁, leaf₁, anon₁, new, B₁, S, -⟩ :=
      BuiltSpace.step (s := ⟨s.machine, v⟩) B (hroom v hv) ht
    obtain ⟨H', hlow⟩ := H.replace id (some t.space) _ B₁.held
      (fun u hu => by cases hu; exact B₁.live) (fun hw => by cases hw) fun f hf hno => by
        have hrest := mem_rest hperm hf hno
        have hnodup := B₁.held.nodup
        rw [← append_root] at hnodup ⊢
        exact ⟨List.mem_append_right _ hrest,
          fun hmem => (List.nodup_append.mp hnodup).2.2 f hmem f hrest rfl,
          fun i hi => S.paged.same (B.kept hrest hi)⟩
    refine ⟨⟨_, _, H'⟩, fun i hne => Function.update_of_ne hne .., fun i u hne hu =>
      hlow i u hne hu,
      fun hdev hclean u hu => ?_⟩
    simp only [SpacesOp.who, Function.update_self] at hu
    exact Option.some.inj hu ▸
      BuiltSpace.clean_step (s := ⟨s.machine, v⟩) B (hroom v hv) hdev (hclean v hv) ht

theorem step {o : SpacesOp} (H : SpacesInv U others kernelPml4 s held foot) (hroom : o.HasRoom s)
    (h : spacesStep kernelPml4 s o = some s') : Stepped U others kernelPml4 s o s' := by
  cases o with
  | create id kmallocOk => exact H.create h
  | destroy id => exact H.destroy h
  | call id op => exact H.call hroom h

theorem clean_step {o : SpacesOp} (H : SpacesInv U others kernelPml4 s held foot)
    (hroom : o.HasRoom s) (hdev : o.DeviceOnly U)
    (hclean : ∀ i v, s.spaces i = some v → VmmSys.Clean U ⟨s.machine, v⟩)
    (h : spacesStep kernelPml4 s o = some s') (i : Nat) (v : AddressSpace)
    (hv : s'.spaces i = some v) : VmmSys.Clean U ⟨s'.machine, v⟩ := by
  have S := H.step hroom h
  rcases eq_or_ne i o.who with rfl | hne
  · exact S.clean hdev (hclean _) v hv
  · have hv' : s.spaces i = some v := (S.spaces i hne).symm.trans hv
    exact (H.live hv').clean_of_unchanged (hclean i v hv') (S.low i v hne hv')

/-- In the beginning there are no spaces. -/
theorem init {m : Machine Pmm} (H : PmmHolds U others m.frames held) (hk : kernelPml4 ∈ held) :
    SpacesInv U others kernelPml4 ⟨m, fun _ => none⟩ held fun _ => [] where
  frames := H
  live hv := by cases hv
  dead _ := rfl
  apart _ f hf := by cases hf
  kernel := hk
  kernelApart _ := List.not_mem_nil

/-- A run that leaves a space alone. -/
theorem run_other {ops : List SpacesOp} {t : SpacesSys} {id : Nat} {v : AddressSpace}
    (H : SpacesInv U others kernelPml4 s held foot) (hv : s.spaces id = some v)
    (hother : ∀ o ∈ ops, o.who ≠ id)
    (hroom : AllSteps (spacesStep kernelPml4) (fun s o => o.HasRoom s) s ops)
    (h : runFrom (spacesStep kernelPml4) s ops = some t) :
    t.spaces id = some v ∧ LowUnchanged ⟨s.machine, v⟩ ⟨t.machine, v⟩ := by
  induction ops generalizing s held foot with
  | nil =>
    cases h
    exact ⟨hv, fun _ _ => rfl⟩
  | cons o ops ih =>
    obtain ⟨ho, hops⟩ := List.forall_mem_cons.mp hother
    obtain ⟨s₁, h₁, h₂⟩ := runFrom_cons.mp h
    obtain ⟨hq, hrest⟩ := hroom.cons h₁
    have S := H.step hq h₁
    obtain ⟨held₁, foot₁, H₁⟩ := S.inv
    obtain ⟨hspace, hlow⟩ := ih H₁ ((S.spaces id ho.symm).trans hv) hops hrest h₂
    exact ⟨hspace, fun x hx => (hlow x hx).trans (S.low id v ho.symm hv x hx)⟩

end SpacesInv

/-! ## Runs -/

/-- Spaces are created, used in any way that stays inside their windows, and destroyed, in any
order. What is done in the others, even their destruction, leaves the areas of a space and the
translations of its lower half as they are; every space can be destroyed; and if memory-mapped I/O
was only used for devices, no anonymous frame is reached from two spaces. -/
theorem spacesRun_isolated {kernelPml4 : Nat} {m : Machine Pmm} {held : List Nat}
    {ops : List SpacesOp} {s : SpacesSys} (H : PmmHolds U others m.frames held)
    (hk : kernelPml4 ∈ held)
    (hroom : AllSteps (spacesStep kernelPml4) (fun s o => o.HasRoom s) ⟨m, fun _ => none⟩ ops)
    (hrun : runFrom (spacesStep kernelPml4) ⟨m, fun _ => none⟩ ops = some s) :
    (∀ b v, s.spaces b = some v →
      (∀ ops' t, (∀ o ∈ ops', o.who ≠ b) →
        AllSteps (spacesStep kernelPml4) (fun s o => o.HasRoom s) s ops' →
        runFrom (spacesStep kernelPml4) s ops' = some t →
          t.spaces b = some v ∧ LowUnchanged ⟨s.machine, v⟩ ⟨t.machine, v⟩) ∧
      (spacesStep kernelPml4 s (.destroy b)).isSome) ∧
    (AllSteps (spacesStep kernelPml4) (fun _ o => o.DeviceOnly U) ⟨m, fun _ => none⟩ ops →
      SharesNoAnon s) := by
  have Hinit := SpacesInv.init H hk
  have Hrun : Along (spacesStep kernelPml4)
      (fun t => ∃ held foot, SpacesInv U others kernelPml4 t held foot) ⟨m, fun _ => none⟩ ops := by
    refine Along.of_allSteps (fun t o t' Ht hq h => ?_) ⟨held, _, Hinit⟩ hroom
    obtain ⟨held', foot', Ht⟩ := Ht
    exact (Ht.step hq h).inv
  obtain ⟨held', foot', Hs⟩ := Hrun.last hrun
  refine ⟨fun b v hv => ⟨fun ops' t hother hroom' hrun' => Hs.run_other hv hother hroom' hrun',
    Hs.destroy_isSome hv⟩, fun hdev => Hs.sharesNoAnon ?_⟩
  have Hclean : Along (spacesStep kernelPml4)
      (fun t => (∃ held foot, SpacesInv U others kernelPml4 t held foot) ∧
        ∀ i v, t.spaces i = some v → VmmSys.Clean U ⟨t.machine, v⟩) ⟨m, fun _ => none⟩ ops := by
    refine Along.of_allSteps (fun t o t' Ht hq h => ?_)
      ⟨⟨held, _, Hinit⟩, fun i v hv => by cases hv⟩ (hroom.and hdev)
    obtain ⟨⟨held', foot', Ht⟩, hclean⟩ := Ht
    exact ⟨(Ht.step hq.1 h).inv, Ht.clean_step hq.1 hq.2 hclean h⟩
  exact (Hclean.last hrun).2

/-- A space touches a page, a second one is created and does the same, and the first one is
destroyed and its frame used again in a third one. -/
def reusedFrame : List SpacesOp :=
  [.create 0 true, .call 0 (.alloc 0x2000 18 0 true), .call 0 (.fault 0x1000), .create 1 true,
    .call 1 (.alloc 0x1000 18 0 true), .call 1 (.fault 0x1000), .destroy 0, .create 2 true,
    .call 2 (.alloc 0x1000 18 0 true), .call 2 (.fault 0x1000)]

theorem reusedFrame_hasRoom {m : Machine Pmm} {kernelPml4 : Nat}
    (hm : m = (smallVmm .kernel).machine) (hk : kernelPml4 = (smallVmm .kernel).root) :
    AllSteps (spacesStep kernelPml4) (fun s o => o.HasRoom s) ⟨m, fun _ => none⟩ reusedFrame := by
  subst hm hk
  decide +kernel

theorem reusedFrame_deviceOnly (kernelPml4 : Nat) (s : SpacesSys) :
    AllSteps (spacesStep kernelPml4) (fun _ o => o.DeviceOnly U) s reusedFrame := by
  refine AllSteps.of_forall fun o ho _ => ?_
  have hanon (id size : Nat) : (SpacesOp.call id (.alloc size 18 0 true)).DeviceOnly U :=
    fun h => absurd (by decide) h
  simp only [reusedFrame, List.mem_cons, List.not_mem_nil, or_false] at ho
  rcases ho with rfl | rfl | rfl | rfl | rfl | rfl | rfl | rfl | rfl | rfl
  all_goals first | exact hanon _ _ | trivial

theorem spacesRun_isolated_reusedFrame :
    ∃ s v t, runFrom (spacesStep (smallVmm .kernel).root)
        ⟨(smallVmm .kernel).machine, fun _ => none⟩ reusedFrame = some s ∧
      s.spaces 1 = some v ∧ SharesNoAnon s ∧
      spacesStep (smallVmm .kernel).root s (.destroy 2) = some t ∧
      t.spaces 1 = some v ∧ LowUnchanged ⟨s.machine, v⟩ ⟨t.machine, v⟩ := by
  have hrun : ((runFrom (spacesStep (smallVmm .kernel).root)
      ⟨(smallVmm .kernel).machine, fun _ => none⟩ reusedFrame).map
        fun s => (s.spaces 1).isSome && (s.spaces 2).isSome) = some true := by decide +kernel
  obtain ⟨s, hs, hlive⟩ := Option.map_eq_some_iff.mp hrun
  obtain ⟨h₁, h₂⟩ := Bool.and_eq_true_iff.mp hlive
  obtain ⟨v, hv⟩ := Option.isSome_iff_exists.mp h₁
  obtain ⟨w, hw⟩ := Option.isSome_iff_exists.mp h₂
  have H := (smallVmm_start .kernel).frames
  -- the run is not to be unfolded from here on
  generalize hm : (smallVmm .kernel).machine = m at H hs ⊢
  generalize hk : (smallVmm .kernel).root = kernelPml4 at H hs ⊢
  obtain ⟨hkeep, hshare⟩ := spacesRun_isolated H List.mem_cons_self
    (reusedFrame_hasRoom hm.symm hk.symm) hs
  obtain ⟨t, ht⟩ := Option.isSome_iff_exists.mp (hkeep 2 w hw).2
  obtain ⟨hspace, hlow⟩ := (hkeep 1 v hv).1 [.destroy 2] t (by simp [SpacesOp.who])
    (AllSteps.intro trivial fun _ _ => trivial) (runFrom_cons.mpr ⟨t, ht, rfl⟩)
  exact ⟨s, v, t, hs, hv, hshare (reusedFrame_deviceOnly _ _), ht, hspace, hlow⟩

/-- The second of two spaces touches a page, which gets the frame at `0xA000`; then memory-mapped
I/O is allocated in the first one with this physical address. -/
theorem spacesRun_sharedFrame :
    ∃ s, runFrom (spacesStep (smallVmm .kernel).root) ⟨(smallVmm .kernel).machine, fun _ => none⟩
        [.create 0 true, .create 1 true, .call 1 (.alloc 0x1000 18 0 true), .call 1 (.fault 0x1000),
          .call 0 (.alloc 0x1000 34 0xA000 true)] = some s ∧ ¬ SharesNoAnon s := by
  have hrun : ((runFrom (spacesStep (smallVmm .kernel).root)
      ⟨(smallVmm .kernel).machine, fun _ => none⟩
      [.create 0 true, .create 1 true, .call 1 (.alloc 0x1000 18 0 true), .call 1 (.fault 0x1000),
        .call 0 (.alloc 0x1000 34 0xA000 true)]).map fun s => decide (∃ v ∈ s.spaces 1,
          ∃ w ∈ s.spaces 0, v.regionList = [⟨0x1000, 0x1000, 18⟩] ∧
            VmmSys.walk ⟨s.machine, v⟩ 0x1000 = some (0xA000, ⟨true, false, false⟩) ∧
            VmmSys.walk ⟨s.machine, w⟩ 0x1000 = some (0xA000, ⟨true, false, false⟩))) =
        some true := by decide +kernel
  obtain ⟨s, hs, hshared⟩ := Option.map_eq_some_iff.mp hrun
  obtain ⟨v, hv, w, hw, hareas, hwalk, hwalk'⟩ := of_decide_eq_true hshared
  refine ⟨s, hs, fun hshare => ?_⟩
  refine hshare 1 0 v w (by decide) hv hw ⟨0x1000, 0x1000, 18⟩ ?_ (by decide) 0x1000 (by decide) _ _
    hwalk 0x1000 (by decide) _ _ hwalk' rfl
  rw [hareas]
  exact List.mem_cons_self

end Plos
