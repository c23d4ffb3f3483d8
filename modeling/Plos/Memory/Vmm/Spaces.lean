import Plos.Memory.Vmm.Pages

/-! The invariant of an address space, and what `vmm_alloc`, `vmm_free` and the page fault handler
do to it.

The areas lie inside the window of the space, the pages of the window that are mapped lie in areas,
and those of an area that is not memory-mapped I/O have frames of their own. `vmm_alloc` does not
check that an area placed behind all others ends inside the window; the lemma about it assumes that
there is room (`Fits`). -/

namespace Plos

/-! ## Areas and windows -/

/-- An address is in an area. -/
def VmArea.Contains (a : VmArea) (x : Nat) : Prop := a.base ≤ x ∧ x < a.limit

instance (a : VmArea) (x : Nat) : Decidable (a.Contains x) := inferInstanceAs (Decidable (_ ∧ _))

namespace Space

def Window (space : Space) (x : Nat) : Prop :=
  space.regionSearchStart ≤ x ∧ x ≤ space.regionSearchEnd

/-- The entries of the first table that belong to the space: a process shares the higher half with
the kernel. -/
def rootEntries : Space → Nat
  | kernel => 512
  | user => 256

theorem rootEntries_le (space : Space) : space.rootEntries ≤ 512 := by
  cases space <;> decide

theorem regionSearchStart_ne_zero (space : Space) : space.regionSearchStart ≠ 0 := by
  cases space <;> decide

theorem regionSearchEnd_succ_lt (space : Space) : space.regionSearchEnd + 1 < 2 ^ 64 := by
  cases space <;> decide

theorem Window.canonical {space : Space} {x : Nat} (h : space.Window x) :
    Canonical x ∧ x / 2 ^ 39 % 512 < space.rootEntries := by
  cases space with
  | kernel =>
    simp only [Window, regionSearchStart, regionSearchEnd, vmmKernelStart, vmmKernelEnd] at h
    refine ⟨.inr ?_, Nat.mod_lt _ (by decide)⟩
    omega
  | user =>
    simp only [Window, regionSearchStart, regionSearchEnd, vmmUserStart, vmmUserEnd] at h
    refine ⟨.inl ?_, ?_⟩
    · omega
    · simp only [rootEntries]
      omega

end Space

/-- The addresses of an area inside the window. -/
theorem VmArea.Contains.window {a : VmArea} {x : Nat} {space : Space} (hx : a.Contains x)
    (hstart : space.regionSearchStart ≤ a.base) (hend : a.limit ≤ space.regionSearchEnd + 1) :
    space.Window x :=
  ⟨Nat.le_trans hstart hx.1, Nat.le_of_lt_succ (Nat.lt_of_lt_of_le hx.2 hend)⟩

/-- The room for a new area, over the integers: before an area, or between the last one and the end
of the window. If an area reaches to the end of the window, the search fails. -/
def Fits (size regionSearchEnd : Nat) : (candidate : Nat) → List VmArea → Prop
  | candidate, [] => candidate + size ≤ regionSearchEnd + 1
  | candidate, a :: rest =>
    candidate + size ≤ a.base ∨ regionSearchEnd ≤ a.limit ∧ candidate + size < 2 ^ 64 ∨
      Fits size regionSearchEnd a.limit rest

/-- A place inside the window for a new area. -/
def Room (size regionSearchEnd : Nat) : (candidate : Nat) → List VmArea → Prop
  | candidate, [] => candidate + size ≤ regionSearchEnd + 1
  | candidate, a :: rest =>
    candidate + size ≤ a.base ∨ a.limit < regionSearchEnd ∧ Room size regionSearchEnd a.limit rest

instance Fits.decidable (size e : Nat) :
    (c : Nat) → (regions : List VmArea) → Decidable (Fits size e c regions)
  | _, [] => inferInstanceAs (Decidable (_ ≤ _))
  | _, a :: rest =>
    @instDecidableOr _ _ _ (@instDecidableOr _ _ _ (Fits.decidable size e a.limit rest))

instance Room.decidable (size e : Nat) :
    (c : Nat) → (regions : List VmArea) → Decidable (Room size e c regions)
  | _, [] => inferInstanceAs (Decidable (_ ≤ _))
  | _, a :: rest =>
    @instDecidableOr _ _ _ (@instDecidableAnd _ _ _ (Room.decidable size e a.limit rest))

section
variable {size e c : Nat} {prev cur : List VmArea}

/-- The room is not before the candidate, so the sum that the search forms does not wrap. -/
theorem Fits.add_lt (hfit : Fits size e c cur) (H : SearchInv prev c cur)
    (hcur : ∀ a ∈ cur, a.base ≤ e ∧ a.limit ≤ e + 1) (he : e + 1 < 2 ^ 64) : c + size < 2 ^ 64 := by
  induction cur generalizing prev c with
  | nil => exact Nat.lt_of_le_of_lt hfit he
  | cons a rest ih =>
    obtain ⟨⟨hbase, -⟩, hrest⟩ := List.forall_mem_cons.mp hcur
    have hca := H.after a List.mem_cons_self
    rcases hfit with h | ⟨-, h⟩ | h
    · omega
    · exact h
    · have hlt := ih h H.next hrest
      have hle : a.base ≤ a.limit := Nat.le_add_right _ _
      omega

/-- If the area fits, the search places it inside the window, or there is no place. -/
theorem vmmSearch_of_fits (H : SearchInv prev c cur)
    (hcur : ∀ a ∈ cur, a.base ≤ e ∧ a.limit ≤ e + 1) (he : e + 1 < 2 ^ 64)
    (hfit : Fits size e c cur) :
    vmmSearch size e prev c cur = none ∧ ¬ Room size e c cur ∨
      Room size e c cur ∧ ∃ p b r, vmmSearch size e prev c cur = some (p, b, r) ∧
      p ++ r = prev ++ cur ∧ SearchInv p b r ∧ (∀ a ∈ r, b + size ≤ a.base) ∧ c ≤ b ∧
      b + size ≤ e + 1 := by
  induction cur generalizing prev c with
  | nil => exact .inr ⟨hfit, prev, c, [], rfl, rfl, H, nofun, Nat.le_refl _, hfit⟩
  | cons a rest ih =>
    obtain ⟨hfirst, -⟩ := List.pairwise_cons.mp H.ordered
    obtain ⟨⟨hbase, hlimit⟩, hrest⟩ := List.forall_mem_cons.mp hcur
    have hca := H.after a List.mem_cons_self
    have hle : a.base ≤ a.limit := Nat.le_add_right _ _
    have hsum : add64 a.base a.size = a.limit := add64_of_lt (Nat.lt_of_le_of_lt hlimit he)
    have hadd := hfit.add_lt H hcur he
    rw [vmmSearch, add64_of_lt hadd]
    by_cases hhole : c + size ≤ a.base ∧ c + size ≤ e
    · rw [if_pos hhole]
      refine .inr ⟨.inl hhole.1, prev, c, a :: rest, rfl, rfl, H, fun b hb => ?_, Nat.le_refl _,
        Nat.le_succ_of_le hhole.2⟩
      rcases List.mem_cons.mp hb with rfl | hb
      · exact hhole.1
      · exact Nat.le_trans hhole.1 (Nat.le_trans hle (hfirst b hb))
    · rw [if_neg hhole]
      have hno : ¬ c + size ≤ a.base := fun h => hhole ⟨h, Nat.le_trans h hbase⟩
      simp only [hsum]
      by_cases hend : e ≤ a.limit
      · refine .inl ⟨if_pos hend, ?_⟩
        rintro (h | ⟨h, -⟩)
        · exact hno h
        · exact absurd hend (Nat.not_le_of_lt h)
      · rw [if_neg hend]
        have hfit' : Fits size e a.limit rest := by
          rcases hfit with h | ⟨h, -⟩ | h
          · exact absurd h hno
          · exact absurd h hend
          · exact h
        have hroom : Room size e c (a :: rest) ↔ Room size e a.limit rest :=
          ⟨fun h => (h.resolve_left hno).2, fun h => .inr ⟨Nat.lt_of_not_le hend, h⟩⟩
        rw [hroom]
        rcases ih H.next hrest hfit' with hnone | ⟨hplace, p, b, r, hs, happ, H', hr, hcb, hb⟩
        · exact .inl hnone
        · rw [List.append_assoc] at happ
          exact .inr
            ⟨hplace, p, b, r, hs, happ, H', hr, Nat.le_trans (Nat.le_trans hca hle) hcb, hb⟩

end

/-! ## Finding an area -/

section
variable {regions : List VmArea} {a : VmArea} {addr : Nat}

theorem contains_iff (h : a.limit < 2 ^ 64) :
    (a.base ≤ addr ∧ addr < add64 a.base a.size) ↔ a.Contains addr := by
  rw [add64_of_lt h]
  exact Iff.rfl

theorem vmmUnlink_none (hlt : ∀ a ∈ regions, a.limit < 2 ^ 64)
    (h : ∀ a ∈ regions, ¬ a.Contains addr) : vmmUnlink addr regions = none := by
  induction regions with
  | nil => rfl
  | cons b rest ih =>
    obtain ⟨hb, hrest⟩ := List.forall_mem_cons.mp hlt
    obtain ⟨hnot, hnots⟩ := List.forall_mem_cons.mp h
    rw [vmmUnlink, if_neg (mt (contains_iff hb).mp hnot), ih hrest hnots, Option.map_none]

/-- Disjoint areas have no address in common. -/
theorem RegionsWF.eq_of_contains (H : RegionsWF regions) {b : VmArea} (ha : a ∈ regions)
    (hb : b ∈ regions) (hxa : a.Contains addr) (hxb : b.Contains addr) : a = b := by
  by_contra hne
  have hsym : Std.Symm fun a b : VmArea =>
      Disjoint (Set.Ico a.base a.limit) (Set.Ico b.base b.limit) := ⟨fun _ _ h => h.symm⟩
  exact Set.disjoint_left.mp (H.disjoint.forall ha hb hne) hxa hxb

theorem RegionsWF.nodup (H : RegionsWF regions) : regions.Nodup := by
  refine H.sorted.imp fun h => ?_
  rintro rfl
  exact Nat.lt_irrefl _ h

theorem vmmUnlink_some (H : RegionsWF regions) (hlt : ∀ a ∈ regions, a.limit < 2 ^ 64)
    (ha : a ∈ regions) (hx : a.Contains addr) :
    vmmUnlink addr regions = some (a, regions.erase a) := by
  induction regions with
  | nil => cases ha
  | cons b rest ih =>
    obtain ⟨hb, hrest⟩ := List.forall_mem_cons.mp hlt
    rw [vmmUnlink]
    by_cases hxb : b.Contains addr
    · obtain rfl := H.eq_of_contains ha List.mem_cons_self hx hxb
      rw [if_pos ((contains_iff hb).mpr hxb), List.erase_cons_head]
    · have hne : a ≠ b := by
        rintro rfl
        exact hxb hx
      have hmem := (List.mem_cons.mp ha).resolve_left hne
      rw [if_neg (mt (contains_iff hb).mp hxb),
        ih (H.sublist (List.sublist_cons_self _ _)) hrest hmem, Option.map_some,
        List.erase_cons_tail (by simpa using hne.symm)]

theorem vmmGetVmArea_some {v : AddressSpace} (hlt : ∀ a ∈ v.regionList, a.limit < 2 ^ 64)
    (h : vmmGetVmArea v addr = some a) : a ∈ v.regionList ∧ a.Contains addr := by
  have hmem := List.mem_of_find?_eq_some h
  have hx := List.find?_some h
  exact ⟨hmem, (contains_iff (hlt a hmem)).mp (of_decide_eq_true hx)⟩

end

/-! ## The flags -/

theorem ite_or_and_eq_zero {p : Prop} [Decidable p] {x flag mask : Nat} (hx : x &&& mask = 0)
    (hflag : flag &&& mask = 0) : (if p then x ||| flag else x) &&& mask = 0 := by
  split
  · rw [Nat.and_or_distrib_right, hx, hflag, Nat.or_zero]
  · exact hx

theorem vmmGenericToX86Flags_and_addrMask (flags : Nat) :
    vmmGenericToX86Flags flags &&& pagingPteAddrMask = 0 := by
  have hlow : ∀ {x}, x &&& pagingPteAddrMask = 0 →
      (if flags &&& vmmFlagsUser ≠ 0 then x ||| pteFlagUs
      else x ||| pteFlagGlobal) &&& pagingPteAddrMask = 0 := by
    intro x hx
    split
    · rw [Nat.and_or_distrib_right, hx]
      decide
    · rw [Nat.and_or_distrib_right, hx]
      decide
  unfold vmmGenericToX86Flags
  apply hlow
  refine ite_or_and_eq_zero
    (ite_or_and_eq_zero (ite_or_and_eq_zero (ite_or_and_eq_zero ?_ ?_) ?_) ?_) ?_
  · exact ite_or_and_eq_zero rfl rfl
  · decide
  · decide
  · decide
  · decide

/-! ## The invariant -/

/-- `anon` has the pages of the areas that are not memory-mapped I/O, with their frames. -/
structure SpaceInv (U : Set Nat) (others : List Block) (n : Nat) (m : Machine Pmm)
    (v : AddressSpace)
    (T : List Nat → Option Nat) (leaf : List Nat → Nat) (anon : List (Nat × Nat))
      (rest : List Nat) : Prop
    extends Paged U others n v.pml4Phys m T leaf anon rest where
  half : v.space.rootEntries ≤ n
  wf : RegionsWF v.regionList
  window : ∀ a ∈ v.regionList, v.space.regionSearchStart ≤ a.base ∧
    a.limit ≤ v.space.regionSearchEnd + 1
  small : ∀ {x}, v.space.Window x → leaf (leafPath x true) = 0
  inArea : ∀ {x}, v.space.Window x → leaf (leafPath x false) ≠ 0 → ∃ a ∈ v.regionList, a.Contains x
  owned : ∀ {a x}, a ∈ v.regionList → a.flags &&& vmmFlagsMmio = 0 → a.Contains x →
    leaf (leafPath x false) ≠ 0 →
    (x / pagingPageSize, leaf (leafPath x false) &&& pagingPteAddrMask) ∈ anon
  anonArea : ∀ {k f}, (k, f) ∈ anon →
    ∃ a ∈ v.regionList, a.flags &&& vmmFlagsMmio = 0 ∧ a.Contains (k * pagingPageSize)
  mmio : ∀ {a x}, a ∈ v.regionList → a.flags &&& vmmFlagsMmio ≠ 0 → a.Contains x →
    leaf (leafPath x false) ≠ 0

/-- One call on the space: it maps pages in `D`, new tables are in the frames `new`, and the rest of
the memory is as before. -/
structure SpaceStep (U : Set Nat) (others : List Block) (n : Nat) (rest : List Nat) (D : Nat → Prop)
    (m : Machine Pmm) (v : AddressSpace) (T : List Nat → Option Nat) (m' : Machine Pmm)
      (v' : AddressSpace)
    (T' : List Nat → Option Nat) (leaf' : List Nat → Nat) (anon' : List (Nat × Nat))
      (new : List Nat) : Prop where
  inv : SpaceInv U others n m' v' T' leaf' anon' (new ++ rest)
  paged : PagedStep U others n v.pml4Phys rest D m T m' T' leaf' anon' new
  space_eq : v'.space = v.space
  root_eq : v'.pml4Phys = v.pml4Phys

/-- The entry of an address after memory-mapped I/O has been mapped at an area. -/
def mmioLeaf (a : VmArea) (arg : Nat) (leaf : List Nat → Nat) (x : Nat) : Nat :=
  if a.flags &&& vmmFlagsMmio ≠ 0 ∧ a.Contains x then
    pagingEntry (add64 arg (x / pagingPageSize * pagingPageSize - a.base))
      (vmmGenericToX86Flags a.flags) false
  else leaf (leafPath x false)

section
variable {U : Set Nat} {others : List Block} {n : Nat} {m m' : Machine Pmm} {v v' : AddressSpace}
  {T : List Nat → Option Nat} {leaf : List Nat → Nat} {anon : List (Nat × Nat)} {rest : List Nat}

namespace SpaceInv

theorem limit_lt (H : SpaceInv U others n m v T leaf anon rest) (a : VmArea)
    (ha : a ∈ v.regionList) : a.limit < 2 ^ 64 :=
  Nat.lt_of_le_of_lt (H.window a ha).2 v.space.regionSearchEnd_succ_lt

theorem contains_window (H : SpaceInv U others n m v T leaf anon rest) {a : VmArea} {x : Nat}
    (ha : a ∈ v.regionList) (hx : a.Contains x) : v.space.Window x :=
  hx.window (H.window a ha).1 (H.window a ha).2

theorem page_window (H : SpaceInv U others n m v T leaf anon rest) {x : Nat}
    (hx : v.space.Window x) : Canonical x ∧ x / 2 ^ 39 % 512 < n ∧ leaf (leafPath x true) = 0 :=
  ⟨hx.canonical.1, Nat.lt_of_lt_of_le hx.canonical.2 H.half, H.small hx⟩

/-- A range of the window. -/
theorem smallPages (H : SpaceInv U others n m v T leaf anon rest) {a : VmArea}
    (hstart : v.space.regionSearchStart ≤ a.base) (hend : a.limit ≤ v.space.regionSearchEnd + 1)
    (hbase : a.base % pagingPageSize = 0) (hsize : a.size % pagingPageSize = 0) :
    a.base + pagingPageSize * (a.size / pagingPageSize) = a.limit ∧
      SmallPages n leaf a.base (a.size / pagingPageSize) := by
  have hlimit : a.base + pagingPageSize * (a.size / pagingPageSize) = a.limit := by
    rw [Nat.mul_div_cancel' (Nat.dvd_of_mod_eq_zero hsize)]
    rfl
  refine ⟨hlimit, hbase, ?_, ?_, fun {x} hle hx => ?_⟩
  · have := v.space.regionSearchStart_ne_zero
    omega
  · rw [hlimit]
    exact Nat.lt_of_le_of_lt hend v.space.regionSearchEnd_succ_lt
  · rw [hlimit] at hx
    exact H.page_window (VmArea.Contains.window ⟨hle, hx⟩ hstart hend)

/-- The first address of a page of an area is in the area. -/
theorem contains_pageBase (H : SpaceInv U others n m v T leaf anon rest) {a : VmArea} {x : Nat}
    (ha : a ∈ v.regionList) : a.Contains (x / pagingPageSize * pagingPageSize) ↔ a.Contains x := by
  have hbase := H.wf.aligned a ha
  have hsize := (H.wf.sizes a ha).2
  simp only [VmArea.Contains, VmArea.limit, pagingPageSize] at *
  omega

/-! ## The calls -/

/-- `vmm_free` of an address in no area does nothing. -/
theorem free_none (H : SpaceInv U others n m v T leaf anon rest) {addr : Nat}
    (h : ∀ a ∈ v.regionList, ¬ a.Contains addr) : vmmFree pmmFrames m v addr = some (m, v) := by
  have hnone : vmmFreeRegion v.regionList addr = none := by
    unfold vmmFreeRegion
    split
    · rfl
    · exact vmmUnlink_none H.limit_lt h
  rw [vmmFree, hnone]

/-- `vmm_free` takes the area of the address out of the list, unmaps its pages and frees their
frames. -/
theorem free (H : SpaceInv U others n m v T leaf anon rest) {a : VmArea} {addr : Nat}
    (ha : a ∈ v.regionList) (haddr : a.Contains addr) :
    ∃ m' leaf', vmmFree pmmFrames m v addr =
      some (m', { v with regionList := v.regionList.erase a }) ∧
      SpaceStep U others n rest (fun _ => False) m v T m'
        { v with regionList := v.regionList.erase a } T leaf'
        (anon.filter fun kf => ¬ a.Contains (kf.1 * pagingPageSize)) [] ∧
      (∀ x, leaf' (leafPath x true) = leaf (leafPath x true)) ∧
      (∀ x, Canonical x → leaf' (leafPath x false) = if a.Contains x then 0
        else leaf (leafPath x false)) ∧
      ((∀ k f, (k, f) ∈ anon → ¬ a.Contains (k * pagingPageSize)) → m'.frames = m.frames) := by
  obtain ⟨hstart, hend⟩ := H.window a ha
  obtain ⟨hlimit, R⟩ := H.smallPages hstart hend (H.wf.aligned a ha) (H.wf.sizes a ha).2
  have hzero : addr ≠ 0 := by
    have := v.space.regionSearchStart_ne_zero
    have := haddr.1
    omega
  have hunlink : vmmFreeRegion v.regionList addr = some (a, v.regionList.erase a) := by
    rw [vmmFreeRegion, if_neg hzero, vmmUnlink_some H.wf H.limit_lt ha haddr]
  have hanon {k f : Nat} (hkf : (k, f) ∈ anon) (hk : a.Contains (k * pagingPageSize)) :
      a.flags &&& vmmFlagsMmio = 0 := by
    obtain ⟨b, hb, hflags, hkb⟩ := H.anonArea hkf
    rwa [H.wf.eq_of_contains ha hb hk hkb]
  obtain ⟨m', leaf', hr, S, hhuge, hleaf, hframes⟩ := H.toPaged.unmapLoop R
    (fun hfree x hle hx => H.owned ha (of_decide_eq_true hfree) ⟨hle, hlimit ▸ hx⟩)
    (fun hkeep k f hkf hk => of_decide_eq_false hkeep (hanon hkf ⟨hk.1, hlimit ▸ hk.2⟩))
    (Nat.lt_add_of_pos_right Nat.two_pos)
  rw [hlimit] at hr S hleaf hframes
  replace hleaf (x : Nat) (hx : Canonical x) :
      leaf' (leafPath x false) = if a.Contains x then 0 else leaf (leafPath x false) := hleaf x hx
  have hmap : pagingUnmapRegion pmmFrames m v.pml4Phys a.base a.size false
      (decide (a.flags &&& vmmFlagsMmio = 0)) = some m' := by
    rw [pagingUnmapRegion, add64_of_lt (H.limit_lt a ha)]
    exact hr
  have hsub : ∀ {b}, b ∈ v.regionList.erase a → b ∈ v.regionList ∧ ∀ {x}, b.Contains x →
      ¬ a.Contains x := by
    intro b hb
    have hmem := List.mem_of_mem_erase hb
    refine ⟨hmem, fun hxb hxa => ?_⟩
    obtain rfl := H.wf.eq_of_contains hmem ha hxb hxa
    exact H.wf.nodup.not_mem_erase hb
  refine ⟨m', leaf', ?_, ⟨⟨S.paged, H.half, H.wf.sublist List.erase_sublist,
    fun b hb => H.window b (hsub hb).1, fun hx => ?_, fun {x} hx hne => ?_,
      fun {b x} hb hflags hx hne => ?_, fun {k f} hkf => ?_,
    fun {b x} hb hflags hx => ?_⟩, S, rfl, rfl⟩, hhuge, hleaf, hframes⟩
  · rw [vmmFree, hunlink]
    simp only [hmap, Option.map_some]
  · rw [hhuge]
    exact H.small hx
  · rw [hleaf x hx.canonical.1] at hne
    split at hne
    · exact absurd rfl hne
    · next hout =>
      obtain ⟨b, hb, hxb⟩ := H.inArea hx hne
      refine ⟨b, (List.mem_erase_of_ne ?_).mpr hb, hxb⟩
      rintro rfl
      exact hout hxb
  · obtain ⟨hmem, hdis⟩ := hsub hb
    have hcan := (H.contains_window hmem hx).canonical.1
    rw [hleaf x hcan, if_neg (hdis hx)] at hne ⊢
    refine List.mem_filter.mpr ⟨H.owned hmem hflags hx hne, decide_eq_true ?_⟩
    rw [H.contains_pageBase ha]
    exact hdis hx
  · obtain ⟨hmem, hout⟩ := List.mem_filter.mp hkf
    obtain ⟨b, hb, hflags, hkb⟩ := H.anonArea hmem
    refine ⟨b, (List.mem_erase_of_ne ?_).mpr hb, hflags, hkb⟩
    rintro rfl
    exact of_decide_eq_true hout hkb
  · obtain ⟨hmem, hdis⟩ := hsub hb
    rw [hleaf x (H.contains_window hmem hx).canonical.1, if_neg (hdis hx)]
    exact H.mmio hmem hflags hx

/-- A page of the window is translated exactly if it has an entry. -/
theorem pageWalk_eq_none (H : SpaceInv U others n m v T leaf anon rest) {x : Nat}
    (hx : v.space.Window x) : pageWalk m.mem v.pml4Phys x = none ↔ leaf (leafPath x false) = 0 := by
  obtain ⟨hcan, hn, hsmall⟩ := H.page_window hx
  rw [H.tree.pageWalk_eq hn hcan, leafWalk, if_neg (not_not.mpr hsmall)]
  constructor
  · intro h
    by_contra hne
    rw [if_pos hne] at h
    cases h
  · intro h
    rw [if_neg (not_not.mpr h)]

/-- A fault in an area maps a fresh frame, which is cleared. -/
theorem fault (H : SpaceInv U others n m v T leaf anon rest) {kernelVas currentVas : AddressSpace}
    {cr2 : Nat} {present : Bool}
    (htarget : (if vmmKernelStart ≤ cr2 then kernelVas else currentVas) = v)
    (hwalk : pageWalk m.mem v.pml4Phys cr2 = none)
    (h : vmmPageFaultHandler pmmFrames m kernelVas currentVas cr2 present = some m') :
    ∃ a f T' new, a ∈ v.regionList ∧ a.flags &&& vmmFlagsMmio = 0 ∧ a.Contains cr2 ∧
      SpaceStep U others n rest (· = cr2) m v T m' v T'
        (Function.update leaf (leafPath cr2 false)
          (pagingEntry f (vmmGenericToX86Flags a.flags) false))
        ((cr2 / pagingPageSize, f) :: anon) new := by
  simp only [vmmPageFaultHandler, htarget] at h
  cases harea : vmmGetVmArea v cr2 with
  | none =>
    rw [harea] at h
    cases h
  | some a =>
    obtain ⟨ha, hx⟩ := vmmGetVmArea_some H.limit_lt harea
    have hwindow := H.contains_window ha hx
    obtain ⟨hcan, hn, hsmall⟩ := H.page_window hwindow
    have hempty := (H.pageWalk_eq_none hwindow).mp hwalk
    have hflags : a.flags &&& vmmFlagsMmio = 0 := by
      by_contra hne
      exact H.mmio ha hne hx hempty
    rw [harea] at h
    cases present with
    | true => cases h
    | false =>
      cases halloc : pmmFrames.alloc m.frames with
      | mk s f =>
        simp only [Bool.false_eq_true, if_false, halloc] at h
        by_cases hf : f = 0
        · rw [if_pos hf] at h
          cases h
        rw [if_neg hf] at h
        have hv : cr2 ≠ 0 := by
          have := v.space.regionSearchStart_ne_zero
          have := hwindow.1
          omega
        have hkey : ∀ g, (cr2 / pagingPageSize, g) ∉ anon := by
          intro g hg
          obtain ⟨-, hne, -⟩ := H.backed hg
          rw [leafPath_pageBase] at hne
          exact hne hempty
        obtain ⟨T', new, S⟩ := H.toPaged.mapFresh hv hcan hn hsmall hkey
          (vmmGenericToX86Flags_and_addrMask a.flags) halloc hf (fun _ => memsetPage_of_not_inFrame)
            h
        have hne (x : Nat) : leafPath x true ≠ leafPath cr2 false := leafPath_ne (by decide)
        have hpage {x : Nat} (hx' : Canonical x) (h : leafPath x false = leafPath cr2 false) :
            x / pagingPageSize = cr2 / pagingPageSize := leafPath_inj hx' hcan h
        have hcontains {x : Nat} (h : x / pagingPageSize = cr2 / pagingPageSize) :
            a.Contains x := by
          rw [← H.contains_pageBase ha, h, H.contains_pageBase ha]
          exact hx
        refine ⟨a, f, T', new, ha, hflags, hx, ⟨⟨S.paged, H.half, H.wf, H.window, fun {x} hw => ?_,
          fun {x} hw hne' => ?_, fun {b x} hb hbflags hxb hne' => ?_, fun {k g} hkg => ?_,
          fun {b x} hb hbflags hxb => ?_⟩, S, rfl, rfl⟩⟩
        · rw [Function.update_of_ne (hne x)]
          exact H.small hw
        · by_cases hp : leafPath x false = leafPath cr2 false
          · exact ⟨a, ha, hcontains (hpage hw.canonical.1 hp)⟩
          · rw [Function.update_of_ne hp] at hne'
            exact H.inArea hw hne'
        · by_cases hp : leafPath x false = leafPath cr2 false
          · have hk := hpage (H.contains_window hb hxb).canonical.1 hp
            have hback := (S.paged.backed List.mem_cons_self).2.2
            rw [leafPath_pageBase] at hback
            rw [hp, hback, hk]
            exact List.mem_cons_self
          · rw [Function.update_of_ne hp] at hne' ⊢
            exact List.mem_cons_of_mem _ (H.owned hb hbflags hxb hne')
        · rcases List.mem_cons.mp hkg with heq | hkg
          · cases heq
            exact ⟨a, ha, hflags, (H.contains_pageBase ha).mpr hx⟩
          · exact H.anonArea hkg
        · by_cases hp : leafPath x false = leafPath cr2 false
          · rw [hp, Function.update_self]
            exact ne_zero_of_testBit (pagingEntry_small_present f _)
          · rw [Function.update_of_ne hp]
            exact H.mmio hb hbflags hxb

/-- The area that `vmm_alloc` puts into the list, if there is a place and `kmalloc` has memory for
it. -/
theorem insert (H : SpaceInv U others n m v T leaf anon rest) {size : Nat} {kmallocOk : Bool}
    (flags : Nat)
    (hfit : kmallocOk = true →
      Fits (pageAlignUp size) v.space.regionSearchEnd v.space.regionSearchStart v.regionList) :
    vmmAllocRegion v.space v.regionList size flags kmallocOk = none ∧ ¬ (kmallocOk = true ∧
        pageAlignUp size ≠ 0 ∧
        Room (pageAlignUp size) v.space.regionSearchEnd v.space.regionSearchStart v.regionList) ∨
      (kmallocOk = true ∧ pageAlignUp size ≠ 0 ∧
        Room (pageAlignUp size) v.space.regionSearchEnd v.space.regionSearchStart v.regionList) ∧
      ∃ base p r, vmmAllocRegion v.space v.regionList size flags kmallocOk =
          some (p ++ ⟨base, pageAlignUp size, v.space.areaFlags flags⟩ :: r, base) ∧
        v.regionList = p ++ r ∧
        RegionsWF (p ++ ⟨base, pageAlignUp size, v.space.areaFlags flags⟩ :: r) ∧
        v.space.regionSearchStart ≤ base ∧
        base + pageAlignUp size ≤ v.space.regionSearchEnd + 1 := by
  have hin : ∀ a ∈ v.regionList, a.base ≤ v.space.regionSearchEnd ∧
      a.limit ≤ v.space.regionSearchEnd + 1 := by
    intro a ha
    have hlimit := (H.window a ha).2
    have hpos := Nat.pos_of_ne_zero (H.wf.sizes a ha).1
    refine ⟨?_, hlimit⟩
    unfold VmArea.limit at hlimit
    omega
  have hinv : SearchInv [] v.space.regionSearchStart v.regionList :=
    ⟨v.space.regionSearchStart_aligned, nofun, fun a ha => (H.window a ha).1,
      (regionsWF_iff.mp H.wf).1, fun a ha => ⟨H.wf.aligned a ha, (H.wf.sizes a ha).2⟩⟩
  unfold vmmAllocRegion
  by_cases hsize : pageAlignUp size = 0
  · rw [if_pos hsize]
    exact .inl ⟨rfl, fun h => h.2.1 hsize⟩
  rw [if_neg hsize]
  cases kmallocOk with
  | false =>
    refine .inl ⟨?_, fun h => Bool.false_ne_true h.1⟩
    cases vmmSearch (pageAlignUp size) v.space.regionSearchEnd [] v.space.regionSearchStart
      v.regionList with
    | none => rfl
    | some found => rfl
  | true =>
    rcases vmmSearch_of_fits hinv hin v.space.regionSearchEnd_succ_lt (hfit rfl) with
      ⟨hs, hroom⟩ | ⟨hroom, p, b, r, hs, happ, hinv', hafter, hle, hend⟩
    · rw [hs]
      exact .inl ⟨rfl, fun h => hroom h.2.2⟩
    · rw [hs]
      rw [List.nil_append] at happ
      have hwf := H.wf
      rw [← happ] at hwf
      refine .inr ⟨⟨rfl, hsize, hroom⟩, b, p, r, rfl, happ.symm, ?_, hle, hend⟩
      exact hwf.insert hinv'.aligned ⟨hsize, pageAlignUp_mod size⟩ hinv'.before hafter

/-- What mapping the new area does to the pages. -/
theorem mapArea (H : SpaceInv U others n m v T leaf anon rest) {a : VmArea} {arg : Nat}
    (harg : arg < 2 ^ 64) (hstart : v.space.regionSearchStart ≤ a.base)
    (hend : a.limit ≤ v.space.regionSearchEnd + 1) (hbase : a.base % pagingPageSize = 0)
    (hsize : a.size % pagingPageSize = 0)
    (hdis : ∀ b ∈ v.regionList, ∀ x, b.Contains x → ¬ a.Contains x)
    (h : (if a.flags &&& vmmFlagsMmio ≠
      0 then pagingMapRegion pmmFrames m v.pml4Phys a.base arg a.size (vmmGenericToX86Flags a.flags)
      false else some m) = some m') :
    ∃ T' leaf' new,
        PagedStep U others n v.pml4Phys rest (fun x => a.flags &&& vmmFlagsMmio ≠ 0 ∧ a.Contains x)
        m T m' T' leaf' anon new ∧
      (∀ x, leaf' (leafPath x true) = leaf (leafPath x true)) ∧
      (∀ x, Canonical x → leaf' (leafPath x false) = mmioLeaf a arg leaf x) ∧
      (a.flags &&& vmmFlagsMmio = 0 → m' = m ∧ new = []) := by
  by_cases hmmio : a.flags &&& vmmFlagsMmio ≠ 0
  · rw [if_pos hmmio, pagingMapRegion,
      add64_of_lt (Nat.lt_of_le_of_lt hend v.space.regionSearchEnd_succ_lt)] at h
    obtain ⟨hlimit, R⟩ := H.smallPages hstart hend hbase hsize
    rw [show a.base + a.size =
      a.base + pagingPageSize * (a.size / pagingPageSize) from hlimit.symm] at h
    have hkey (k f : Nat) (hkf : (k, f) ∈ anon) : ¬ (a.base ≤ k * pagingPageSize ∧
        k * pagingPageSize < a.base + pagingPageSize * (a.size / pagingPageSize)) := by
      obtain ⟨b, hb, -, hk⟩ := H.anonArea hkf
      rw [hlimit]
      exact hdis b hb _ hk
    obtain ⟨T', leaf', new, S, hhuge, hleaf⟩ := H.toPaged.mapLoop R hkey harg h
    rw [hlimit] at S
    refine ⟨T', leaf', new, S.mono fun x hx => ⟨hmmio, hx⟩, hhuge, fun x hx => ?_, fun h =>
      absurd h hmmio⟩
    rw [hleaf x hx, mmioLeaf, hlimit]
    exact if_congr (and_iff_right hmmio).symm rfl rfl
  · rw [if_neg hmmio] at h
    cases h
    refine ⟨T, leaf, [], H.toPaged.refl, fun _ => rfl, fun x _ => ?_, fun _ => ⟨rfl, rfl⟩⟩
    rw [mmioLeaf, if_neg fun h => hmmio h.1]

/-- The space with a new area. -/
theorem addArea (H : SpaceInv U others n m v T leaf anon rest) {a : VmArea} {p r : List VmArea}
    {arg : Nat} (harg : arg < 2 ^ 64) (happ : v.regionList = p ++ r) (hwf : RegionsWF (p ++ a :: r))
    (hstart : v.space.regionSearchStart ≤ a.base) (hend : a.limit ≤ v.space.regionSearchEnd + 1)
    (h : (if a.flags &&& vmmFlagsMmio ≠
      0 then pagingMapRegion pmmFrames m v.pml4Phys a.base arg a.size (vmmGenericToX86Flags a.flags)
      false else some m) = some m') :
    ∃ T' leaf' new,
        SpaceStep U others n rest (fun x => a.flags &&& vmmFlagsMmio ≠ 0 ∧ a.Contains x) m v T m'
        { v with regionList := p ++ a :: r } T' leaf' anon new ∧
      (∀ x, leaf' (leafPath x true) = leaf (leafPath x true)) ∧
      (∀ x, Canonical x → leaf' (leafPath x false) = mmioLeaf a arg leaf x) ∧
      (a.flags &&& vmmFlagsMmio = 0 → m' = m ∧ new = []) := by
  have hmem : a ∈ p ++ a :: r := List.mem_append_right _ List.mem_cons_self
  have hold {b : VmArea} : b ∈ p ++ a :: r ↔ b = a ∨ b ∈ v.regionList := by
    rw [happ]
    simp only [List.mem_append, List.mem_cons]
    tauto
  have hdis (b : VmArea) (hb : b ∈ v.regionList) (x : Nat) (hxb : b.Contains x) :
      ¬ a.Contains x := by
    intro hxa
    obtain rfl := hwf.eq_of_contains (hold.mpr (.inr hb)) hmem hxb hxa
    have hp := List.perm_middle.nodup_iff.mp hwf.nodup
    exact (List.nodup_cons.mp hp).1 (happ ▸ hb)
  obtain ⟨T', leaf', new, S, hhuge, hleaf, hanon⟩ := H.mapArea harg hstart hend (hwf.aligned a hmem)
    (hwf.sizes a hmem).2 hdis h
  have hwindow (b : VmArea) (hb : b ∈ p ++ a :: r) :
      v.space.regionSearchStart ≤ b.base ∧ b.limit ≤ v.space.regionSearchEnd + 1 := by
    rcases hold.mp hb with rfl | hb
    · exact ⟨hstart, hend⟩
    · exact H.window b hb
  have hcan {b : VmArea} {x : Nat} (hb : b ∈ p ++ a :: r) (hxb : b.Contains x) : v.space.Window x :=
    hxb.window (hwindow b hb).1 (hwindow b hb).2
  refine ⟨T', leaf', new, ⟨⟨S.paged, H.half, hwf, hwindow, fun {x} hx => ?_, fun {x} hx hne => ?_,
    fun {b x} hb hflags hxb hne => ?_, fun {k f} hkf => ?_, fun {b x} hb hflags hxb => ?_⟩, S, rfl,
      rfl⟩, hhuge, hleaf, hanon⟩
  · rw [hhuge]
    exact H.small hx
  · rw [hleaf x hx.canonical.1, mmioLeaf] at hne
    split at hne
    · next hin => exact ⟨a, hmem, hin.2⟩
    · obtain ⟨b, hb, hxb⟩ := H.inArea hx hne
      exact ⟨b, hold.mpr (.inr hb), hxb⟩
  · have hout : ¬ (a.flags &&& vmmFlagsMmio ≠ 0 ∧ a.Contains x) := by
      intro ⟨hne, hxa⟩
      rw [hwf.eq_of_contains hmem hb hxa hxb] at hne
      exact hne hflags
    rw [hleaf x (hcan hb hxb).canonical.1, mmioLeaf, if_neg hout] at hne ⊢
    rcases hold.mp hb with rfl | hb'
    · -- nothing is mapped at the new area
      obtain ⟨c, hc, hxc⟩ := H.inArea (hcan hb hxb) hne
      exact absurd hxb (hdis c hc x hxc)
    · exact H.owned hb' hflags hxb hne
  · obtain ⟨b, hb, hflags, hkb⟩ := H.anonArea hkf
    exact ⟨b, hold.mpr (.inr hb), hflags, hkb⟩
  · rw [hleaf x (hcan hb hxb).canonical.1, mmioLeaf]
    rcases hold.mp hb with rfl | hb
    · rw [if_pos ⟨hflags, hxb⟩]
      exact ne_zero_of_testBit (pagingEntry_small_present _ _)
    · rw [if_neg fun h => hdis b hb x hxb h.2]
      exact H.mmio hb hflags hxb

/-- `vmm_alloc` fails and does nothing, or it adds an area, whose pages it maps if they are
memory-mapped I/O. -/
theorem alloc (H : SpaceInv U others n m v T leaf anon rest) {size flags arg ret : Nat}
    {kmallocOk : Bool} (harg : arg < 2 ^ 64)
    (hfit : kmallocOk = true →
      Fits (pageAlignUp size) v.space.regionSearchEnd v.space.regionSearchStart v.regionList)
    (h : vmmAlloc pmmFrames m v size flags arg kmallocOk = some (m', v', ret)) :
    (m' = m ∧ v' = v ∧ ret = 0 ∧ vmmAllocRegion v.space v.regionList size flags kmallocOk = none ∧
        ¬ (kmallocOk = true ∧ pageAlignUp size ≠ 0 ∧
          Room (pageAlignUp size) v.space.regionSearchEnd v.space.regionSearchStart v.regionList)) ∨
      (kmallocOk = true ∧ pageAlignUp size ≠ 0 ∧
        Room (pageAlignUp size) v.space.regionSearchEnd v.space.regionSearchStart v.regionList) ∧
      ∃ a p r T' leaf' new, a = ⟨ret, pageAlignUp size, v.space.areaFlags flags⟩ ∧
        vmmAllocRegion v.space v.regionList size flags kmallocOk = some (p ++ a :: r, ret) ∧
        v.regionList = p ++ r ∧ v' = { v with regionList := p ++ a :: r } ∧
        SpaceStep U others n rest (fun x => a.flags &&& vmmFlagsMmio ≠ 0 ∧ a.Contains x) m v T m' v'
          T' leaf' anon new ∧
        (∀ x, leaf' (leafPath x true) = leaf (leafPath x true)) ∧
        (∀ x, Canonical x → leaf' (leafPath x false) = mmioLeaf a arg leaf x) ∧
        (a.flags &&& vmmFlagsMmio = 0 → m' = m ∧ new = []) := by
  unfold vmmAlloc at h
  rcases H.insert flags hfit with
    ⟨hregion, hno⟩ | ⟨hyes, base, p, r, hregion, happ, hwf, hstart, hend⟩
  · rw [hregion] at h
    cases h
    exact .inl ⟨rfl, rfl, rfl, hregion, hno⟩
  · simp only [hregion] at h
    have hcall : ret = base ∧
        v' = { v with regionList := p ++ ⟨base, pageAlignUp size, v.space.areaFlags flags⟩ :: r } ∧
        (if v.space.areaFlags flags &&& vmmFlagsMmio ≠ 0 then
          pagingMapRegion pmmFrames m v.pml4Phys base arg (pageAlignUp size)
            (vmmGenericToX86Flags (v.space.areaFlags flags)) false
        else some m) = some m' := by
      split at h
      · next hmmio =>
        obtain ⟨m₁, hm₁, heq⟩ := Option.map_eq_some_iff.mp h
        cases heq
        exact ⟨rfl, rfl, by rw [if_pos hmmio]; exact hm₁⟩
      · next hmmio =>
        split at h
        · cases h
          exact ⟨rfl, rfl, if_neg hmmio⟩
        · cases h
    obtain ⟨rfl, rfl, hmap⟩ := hcall
    obtain ⟨T', leaf', new, S⟩ := H.addArea harg happ hwf hstart hend hmap
    exact .inr ⟨hyes, _, p, r, T', leaf', new, rfl, hregion, happ, rfl, S⟩

end SpaceInv

end

/-! ## One space as a system -/

structure VmmSys where
  machine : Machine Pmm
  space : AddressSpace

namespace VmmSys

def root (s : VmmSys) : Nat := s.space.pml4Phys

/-- The translation of an address under the tables of the space. -/
def walk (s : VmmSys) (x : Nat) : Option (Nat × Rights) := pageWalk s.machine.mem s.root x

end VmmSys

inductive VmmOp where
  | alloc (size flags arg : Nat) (kmallocOk : Bool)
  | fault (cr2 : Nat)
  | free (addr : Nat)
  deriving DecidableEq, Repr

namespace VmmOp

/-- Calls have 64-bit arguments. A fault is raised at an address that is not translated and that
belongs to the space: to the kernel's one if it is in the kernel's half. -/
def Valid (s : VmmSys) : VmmOp → Prop
  | alloc size flags arg _ => size < 2 ^ 64 ∧ flags < 2 ^ 64 ∧ arg < 2 ^ 64
  | fault cr2 =>
    Canonical cr2 ∧ s.walk cr2 = none ∧ (vmmKernelStart ≤ cr2 ↔ s.space.space = .kernel)
  | free addr => addr < 2 ^ 64

instance (s : VmmSys) : (op : VmmOp) → Decidable (op.Valid s)
  | .alloc .. => inferInstanceAs (Decidable (_ ∧ _))
  | .fault _ => inferInstanceAs (Decidable (_ ∧ _))
  | .free _ => inferInstanceAs (Decidable (_ < _))

/-- A new area fits into the window of the space. -/
def HasRoom (s : VmmSys) : VmmOp → Prop
  | alloc size _ _ kmallocOk =>
    kmallocOk = true → Fits (pageAlignUp size) s.space.space.regionSearchEnd
      s.space.space.regionSearchStart s.space.regionList
  | fault _ => True
  | free _ => True

instance (s : VmmSys) : (op : VmmOp) → Decidable (op.HasRoom s)
  | .alloc .. => inferInstanceAs (Decidable (_ → _))
  | .fault _ => .isTrue trivial
  | .free _ => .isTrue trivial

/-- The call maps pages: a fault, or memory-mapped I/O for which there is a place. -/
def Maps (s : VmmSys) : VmmOp → Prop
  | alloc size flags _ kmallocOk =>
    s.space.space.areaFlags flags &&& vmmFlagsMmio ≠ 0 ∧ kmallocOk = true ∧
      pageAlignUp size ≠ 0 ∧ Room (pageAlignUp size) s.space.space.regionSearchEnd
        s.space.space.regionSearchStart s.space.regionList
  | fault _ => True
  | free _ => False

/-- The addresses that the call maps: those of the place that is found for memory-mapped I/O. -/
def MapsAt (s : VmmSys) : VmmOp → Nat → Prop
  | alloc size flags _ kmallocOk, x => s.space.space.areaFlags flags &&& vmmFlagsMmio ≠ 0 ∧
      ∃ regions base, vmmAllocRegion s.space.space s.space.regionList size flags kmallocOk =
        some (regions, base) ∧ base ≤ x ∧ x < base + pageAlignUp size
  | fault cr2, x => x = cr2
  | free _, _ => False

end VmmOp

def vmmCall (s : VmmSys) : VmmOp → Option VmmSys
  | .alloc size flags arg kmallocOk =>
    (vmmAlloc pmmFrames s.machine s.space size flags arg kmallocOk).map fun (m, space, _) =>
      ⟨m, space⟩
  | .fault cr2 =>
    (vmmPageFaultHandler pmmFrames s.machine s.space s.space cr2 false).map fun m =>
      { s with machine := m }
  | .free addr => (vmmFree pmmFrames s.machine s.space addr).map fun (m, space) => ⟨m, space⟩

def vmmStep (s : VmmSys) (op : VmmOp) : Option VmmSys := if op.Valid s then vmmCall s op else none

section
variable {U : Set Nat} {others : List Block} {n : Nat} {T T' : List Nat → Option Nat}
  {leaf leaf' : List Nat → Nat} {anon anon' : List (Nat × Nat)} {rest rest' : List Nat}
  {s s' : VmmSys}

/-- An address whose entries are as before is translated as before. -/
theorem SpaceInv.walk_eq (H : SpaceInv U others n s.machine s.space T leaf anon rest)
    (H' : SpaceInv U others n s'.machine s'.space T' leaf' anon' rest') {x : Nat}
    (hcan : Canonical x) (hn : x / 2 ^ 39 % 512 < n)
    (hhuge : leaf' (leafPath x true) = leaf (leafPath x true))
    (hleaf : leaf' (leafPath x false) = leaf (leafPath x false)) : s'.walk x = s.walk x := by
  refine (H'.tree.pageWalk_eq hn hcan).trans ((H.tree.pageWalk_eq hn hcan).trans ?_).symm
  rw [leafWalk, leafWalk, hhuge, hleaf]

/-- The window consists of whole pages. -/
theorem Space.Window.of_page {space : Space} {x y : Nat} (hy : space.Window y)
    (h : x / pagingPageSize = y / pagingPageSize) : space.Window x := by
  cases space with
  | kernel =>
    simp only [Space.Window, Space.regionSearchStart, Space.regionSearchEnd, vmmKernelStart,
      vmmKernelEnd, pagingPageSize] at *
    omega
  | user =>
    simp only [Space.Window, Space.regionSearchStart, Space.regionSearchEnd, vmmUserStart,
      vmmUserEnd, pagingPageSize] at *
    omega

/-- Every call on a space keeps its invariant and the translations outside its window, and it adds
tables only if it maps pages. -/
theorem SpaceInv.step {op : VmmOp} (H : SpaceInv U others n s.machine s.space T leaf anon rest)
    (hroom : op.HasRoom s) (h : vmmStep s op = some s') :
    ∃ T' leaf' anon' new,
      SpaceStep U others n rest (op.MapsAt s) s.machine s.space T s'.machine s'.space T' leaf' anon'
        new ∧
      (∀ x, op.MapsAt s x → s.space.space.Window x ∧ leaf' (leafPath x false) ≠ 0) ∧
      (op.Maps s → ∃ x, op.MapsAt s x) ∧ (¬ op.Maps s → new = []) ∧
      ∀ x, Canonical x → x / 2 ^ 39 % 512 < n → leaf' (leafPath x true) = leaf (leafPath x true) ∧
        (¬ s.space.space.Window x → s'.walk x = s.walk x) := by
  obtain ⟨hen, h⟩ := Option.ite_none_right_eq_some.mp h
  cases op with
  | alloc size flags arg kmallocOk =>
    obtain ⟨⟨m', v', ret⟩, hr, rfl⟩ := Option.map_eq_some_iff.mp h
    rcases H.alloc hen.2.2 hroom hr with
      ⟨rfl, rfl, -, hnone, hno⟩ | ⟨hyes, a, p, r, T', leaf', new, ha, hregion, -, rfl, S, hhuge,
        hleaf, hanon⟩
    · refine ⟨T, leaf, anon, [], ⟨H, H.toPaged.refl, rfl, rfl⟩, fun x hx => ?_, fun hm =>
        absurd hm.2 hno, fun _ => rfl,
        fun _ _ _ => ⟨rfl, fun _ => rfl⟩⟩
      obtain ⟨-, regions, base, hsome, -⟩ := hx
      cases hnone.symm.trans hsome
    · have hmem : a ∈ p ++ a :: r := List.mem_append_right _ List.mem_cons_self
      have hat (x : Nat) : (VmmOp.alloc size flags arg kmallocOk).MapsAt s x ↔
          a.flags &&& vmmFlagsMmio ≠ 0 ∧ a.Contains x := by
        rw [ha]
        refine and_congr_right fun _ =>
          ⟨fun ⟨regions, base, hsome, hx⟩ => ?_, fun hx => ⟨_, _, hregion, hx⟩⟩
        cases hregion.symm.trans hsome
        exact hx
      refine ⟨T', leaf', anon, new,
        ⟨S.inv, S.paged.mono fun x hx => (hat x).mpr hx, S.space_eq, S.root_eq⟩,
        fun x hx => ?_, fun hm => ?_, fun hm => (hanon ?_).2, fun x hcan hn =>
          ⟨hhuge x, fun hx => ?_⟩⟩
      · obtain ⟨hmmio, hin⟩ := (hat x).mp hx
        exact ⟨S.inv.contains_window hmem hin, S.inv.mmio hmem hmmio hin⟩
      · refine ⟨a.base, (hat _).mpr ⟨?_, Nat.le_refl _, ?_⟩⟩
        · rw [ha]
          exact hm.1
        · exact Nat.lt_add_of_pos_right (Nat.pos_of_ne_zero (S.inv.wf.sizes a hmem).1)
      · rw [ha]
        by_contra hne
        exact hm ⟨hne, hyes⟩
      · refine H.walk_eq S.inv hcan hn (hhuge x) ?_
        rw [hleaf x hcan, mmioLeaf, if_neg fun h => hx (S.inv.contains_window hmem h.2)]
  | fault cr2 =>
    obtain ⟨m', hr, rfl⟩ := Option.map_eq_some_iff.mp h
    obtain ⟨a, f, T', new, ha, -, hin, S⟩ := H.fault (ite_self _) hen.2.1 hr
    have hw := H.contains_window ha hin
    have hhuge (x : Nat) : Function.update leaf (leafPath cr2 false)
        (pagingEntry f (vmmGenericToX86Flags a.flags) false) (leafPath x true) =
          leaf (leafPath x true) :=
      Function.update_of_ne (leafPath_ne (by decide)) ..
    refine ⟨T', _, _, new, S, fun x hx => ?_, fun _ => ⟨cr2, rfl⟩, fun hm => absurd trivial hm,
      fun x hcan hn => ⟨hhuge x, fun hx => ?_⟩⟩
    · obtain rfl : x = cr2 := hx
      rw [Function.update_self]
      exact ⟨hw, ne_zero_of_testBit (pagingEntry_small_present _ _)⟩
    · refine H.walk_eq S.inv hcan hn (hhuge x) ?_
      apply Function.update_of_ne
      intro hp
      exact hx (hw.of_page (leafPath_inj hcan hw.canonical.1 hp))
  | free addr =>
    obtain ⟨⟨m', v'⟩, hr, rfl⟩ := Option.map_eq_some_iff.mp h
    by_cases hex : ∃ a ∈ s.space.regionList, a.Contains addr
    · obtain ⟨a, ha, haddr⟩ := hex
      obtain ⟨m₁, leaf₁, hr₁, S, hhuge, hleaf, -⟩ := H.free ha haddr
      cases hr.symm.trans hr₁
      refine ⟨T, leaf₁, _, [], S, fun _ => False.elim, fun hm => hm.elim, fun _ => rfl,
        fun x hcan hn => ⟨hhuge x, fun hx => ?_⟩⟩
      refine H.walk_eq S.inv hcan hn (hhuge x) ?_
      rw [hleaf x hcan, if_neg fun h => hx (H.contains_window ha h)]
    · have hr₁ := H.free_none fun a ha haddr => hex ⟨a, ha, haddr⟩
      cases hr.symm.trans hr₁
      exact ⟨T, leaf, anon, [], ⟨H, H.toPaged.refl, rfl, rfl⟩, fun _ => False.elim, fun hm =>
        hm.elim, fun _ => rfl, fun _ _ _ => ⟨rfl, fun _ => rfl⟩⟩

end

end Plos
