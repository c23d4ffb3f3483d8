import Mathlib.Order.Bounds.Basic
import Plos.Memory.Pmm.Frames
import Plos.Memory.Vmm.Basic

/-! `vmm_alloc` and the least base that fits.

The abstract side is a set of bases: those at which the pages of the request are inside the window
and meet no area. If the set is not empty, the search finds its least element: it is the start of
the window or the end of an area, and no sum formed before it wraps. If the set is empty, the place
after the last area is taken all the same, since nothing compares its end with the end of the
window. Only an area that reaches to the end of the window makes the search give up.

Once the area is in the list, memory-mapped I/O is mapped, and a request that is neither for
memory-mapped I/O nor for anonymous memory stops the machine. -/

namespace Plos

/-- A base at which a request fits, between the areas and inside the window. -/
structure FitsAt (size start stop : Nat) (regions : List VmArea) (b : Nat) : Prop where
  aligned : b % pagingPageSize = 0
  start_le : start ≤ b
  le_stop : b + size ≤ stop
  apart : ∀ a ∈ regions, Disjoint (Set.Ico b (b + size)) (Set.Ico a.base a.limit)

/-- An area reaches to the end of the window, and no sum formed before it wraps. -/
def SearchFails (size start stop : Nat) (regions : List VmArea) : Prop :=
  (∃ a ∈ regions, stop ≤ a.limit) ∧ start + size < 2 ^ 64 ∧
    ∀ a ∈ regions, a.limit < stop → a.limit + size < 2 ^ 64

/-- The bases at which a request for `size` bytes fits into a space. -/
def AddressSpace.bases (v : AddressSpace) (size : Nat) : Set Nat :=
  {b | FitsAt (pageAlignUp size) v.space.regionSearchStart v.space.regionSearchEnd v.regionList b}

/-- `vmm_alloc` returns once the new area is in the list: it is anonymous, or there are frames for
the tables that memory-mapped I/O needs. -/
def AllocReturns {α : Type} (A : FrameAllocator α) (m : Machine α) (v : AddressSpace)
    (size flags arg base : Nat) : Prop :=
  if v.space.areaFlags flags &&& vmmFlagsMmio ≠ 0 then
    (pagingMapRegion A m v.pml4Phys base arg (pageAlignUp size)
      (vmmGenericToX86Flags (v.space.areaFlags flags)) false).isSome = true
  else v.space.areaFlags flags &&& vmmFlagsAnon ≠ 0

/-- `vmm_alloc` puts the new area at the least base at which it fits and returns that base; if there
is none, it returns 0 and changes nothing. -/
def FirstFit {α : Type} (A : FrameAllocator α) (m : Machine α) (v : AddressSpace)
    (size flags arg : Nat) : Prop :=
  (∀ b, IsLeast (v.bases size) b →
    ∃ p r m', p ++ r = v.regionList ∧ (∀ a ∈ p, a.limit ≤ b) ∧
      (∀ a ∈ r, b + pageAlignUp size ≤ a.base) ∧
      vmmAlloc A m v size flags arg true = some (m', { v with
        regionList := p ++ ⟨b, pageAlignUp size, v.space.areaFlags flags⟩ :: r }, b)) ∧
  ((∀ b, b ∉ v.bases size) → vmmAlloc A m v size flags arg true = some (m, v, 0))

section
variable {size e c : Nat} {prev cur : List VmArea} {a : VmArea}

/-- A request is apart from an area if it is before or after it. -/
theorem disjoint_area_iff {b : Nat} (hsize : size ≠ 0) (ha : a.size ≠ 0) :
    Disjoint (Set.Ico b (b + size)) (Set.Ico a.base a.limit) ↔ b + size ≤ a.base ∨ a.limit ≤ b := by
  rw [Set.Ico_disjoint_Ico, VmArea.limit]
  omega

/-- The candidate fits if there is a hole before the next area. -/
theorem SearchInv.fitsAt (H : SearchInv prev c (a :: cur)) (hhole : c + size ≤ a.base)
    (he : a.base ≤ e) : FitsAt size c e (a :: cur) c := by
  obtain ⟨hfirst, -⟩ := List.pairwise_cons.mp H.ordered
  refine ⟨H.aligned, le_rfl, hhole.trans he, fun x hx => ?_⟩
  have hx : a.base ≤ x.base := by
    rcases List.mem_cons.mp hx with rfl | hx
    · exact le_rfl
    · exact (Nat.le_add_right _ _).trans (hfirst x hx)
  exact Set.disjoint_left.mpr fun y hy hy' =>
    absurd (hy.2.trans_le (hhole.trans hx)) (not_lt.mpr hy'.1)

/-- If there is no hole before the next area, every place is after it. -/
theorem SearchInv.fitsAt_next {b : Nat} (H : SearchInv prev c (a :: cur)) (hsize : size ≠ 0)
    (ha : a.size ≠ 0) (hhole : ¬ c + size ≤ a.base) :
    FitsAt size c e (a :: cur) b ↔ FitsAt size a.limit e cur b := by
  have hca := H.after a List.mem_cons_self
  have hle : a.base ≤ a.limit := Nat.le_add_right _ _
  constructor
  · intro hb
    obtain ⟨hba, hrest⟩ := List.forall_mem_cons.mp hb.apart
    rcases (disjoint_area_iff hsize ha).mp hba with h | h
    · exact absurd ((Nat.add_le_add_right hb.start_le size).trans h) hhole
    · exact ⟨hb.aligned, h, hb.le_stop, hrest⟩
  · intro hb
    refine ⟨hb.aligned, (hca.trans hle).trans hb.start_le, hb.le_stop, ?_⟩
    exact List.forall_mem_cons.mpr ⟨(disjoint_area_iff hsize ha).mpr (.inr hb.start_le), hb.apart⟩

/-- The search splits the list. -/
theorem vmmSearch_append {p r : List VmArea} {b : Nat}
    (h : vmmSearch size e prev c cur = some (p, b, r)) : p ++ r = prev ++ cur := by
  induction cur generalizing prev c with
  | nil =>
    cases h
    rfl
  | cons a rest ih =>
    rw [vmmSearch] at h
    split at h
    · cases h
      rfl
    · simp only at h
      split at h
      · cases h
      · rw [ih h, List.append_assoc, List.singleton_append]

/-- If the request fits somewhere, the search finds the least place. -/
theorem vmmSearch_isLeast (H : SearchInv prev c cur) (he : e < 2 ^ 64) (hsize : size ≠ 0)
    (hcur : ∀ a ∈ cur, a.size ≠ 0) (hfit : ∃ b, FitsAt size c e cur b) :
    ∃ p b r, vmmSearch size e prev c cur = some (p, b, r) ∧ p ++ r = prev ++ cur ∧ SearchInv p b r ∧
      (∀ a ∈ r, b + size ≤ a.base) ∧ IsLeast {b | FitsAt size c e cur b} b := by
  obtain ⟨b, hb⟩ := hfit
  -- the least place is not before the candidate, so the sum does not wrap
  have hce : c + size ≤ e := (Nat.add_le_add_right hb.start_le size).trans hb.le_stop
  induction cur generalizing prev c with
  | nil =>
    refine ⟨prev, c, [], rfl, rfl, H, nofun, ⟨H.aligned, le_rfl, hce, nofun⟩, ?_⟩
    exact fun b' hb' => hb'.start_le
  | cons a rest ih =>
    obtain ⟨ha, hrest⟩ := List.forall_mem_cons.mp hcur
    obtain ⟨hfirst, -⟩ := List.pairwise_cons.mp H.ordered
    rw [vmmSearch, add64_of_lt (hce.trans_lt he)]
    by_cases hhole : c + size ≤ a.base
    · rw [if_pos ⟨hhole, hce⟩]
      refine ⟨prev, c, a :: rest, rfl, rfl, H, ?_, ?_, fun b' hb' => hb'.start_le⟩
      · intro x hx
        rcases List.mem_cons.mp hx with rfl | hx
        · exact hhole
        · exact hhole.trans ((Nat.le_add_right _ _).trans (hfirst x hx))
      · exact ⟨H.aligned, le_rfl, hce, (H.fitsAt hhole le_rfl).apart⟩
    · rw [if_neg fun h => hhole h.1]
      have hiff : ∀ b', FitsAt size c e (a :: rest) b' ↔ FitsAt size a.limit e rest b' :=
        fun b' => H.fitsAt_next hsize ha hhole
      have hb' := (hiff b).mp hb
      have hae : a.limit + size ≤ e := (Nat.add_le_add_right hb'.start_le size).trans hb'.le_stop
      have hsum : add64 a.base a.size = a.limit :=
        add64_of_lt ((Nat.le_add_right _ _).trans_lt (hae.trans_lt he))
      have hend : ¬ e ≤ a.limit := by omega
      simp only [hsum, if_neg hend, hiff]
      obtain ⟨p, b', r, hs, happ, hrec⟩ := ih H.next hrest hb' hae
      rw [List.append_assoc] at happ
      exact ⟨p, b', r, hs, happ, hrec⟩

/-- If the request fits nowhere, the search gives up only at an area that reaches to the end of the
window. -/
theorem vmmSearch_none_iff (H : SearchInv prev c cur) (he : e + 1 < 2 ^ 64) (hlt : size < 2 ^ 64)
    (hsize : size ≠ 0) (hcur : ∀ a ∈ cur, a.size ≠ 0 ∧ a.limit ≤ e + 1)
    (hfit : ∀ b, ¬ FitsAt size c e cur b) :
    vmmSearch size e prev c cur = none ↔ SearchFails size c e cur := by
  induction cur generalizing prev c with
  | nil =>
    refine ⟨nofun, ?_⟩
    rintro ⟨⟨a, ha, -⟩, -⟩
    cases ha
  | cons a rest ih =>
    obtain ⟨⟨ha, hae⟩, hrest⟩ := List.forall_mem_cons.mp hcur
    obtain ⟨hfirst, -⟩ := List.pairwise_cons.mp H.ordered
    have hca := H.after a List.mem_cons_self
    have hbase : a.base ≤ e := by
      unfold VmArea.limit at hae
      omega
    by_cases hwrap : 2 ^ 64 ≤ c + size
    · -- the sum is small, so the candidate is taken
      have hsum := add64_of_le (by omega) hlt hwrap
      refine ⟨fun h => ?_, fun h => absurd h.2.1 (not_lt.mpr hwrap)⟩
      rw [vmmSearch, if_pos] at h
      · cases h
      · rw [hsum]
        omega
    · have hhole : ¬ c + size ≤ a.base := fun h => hfit c (H.fitsAt h hbase)
      have hsum : add64 a.base a.size = a.limit := add64_of_lt (hae.trans_lt he)
      rw [vmmSearch, add64_of_lt (not_le.mp hwrap), if_neg fun h => hhole h.1]
      simp only [hsum]
      by_cases hend : e ≤ a.limit
      · rw [if_pos hend]
        refine iff_of_true rfl ⟨⟨a, List.mem_cons_self, hend⟩, not_le.mp hwrap, fun x hx hlt => ?_⟩
        -- no area ends before the end of the window and after this one
        rcases List.mem_cons.mp hx with rfl | hx
        · exact absurd hend (not_le.mpr hlt)
        · have hle := (hfirst x hx).trans (Nat.le_add_right x.base x.size)
          exact absurd (hend.trans hle) (not_le.mpr hlt)
      · rw [if_neg hend, ih H.next hrest fun b hb => hfit b ((H.fitsAt_next hsize ha hhole).mpr hb)]
        constructor
        · rintro ⟨⟨x, hx, hxe⟩, hal, hall⟩
          refine ⟨⟨x, List.mem_cons_of_mem _ hx, hxe⟩, not_le.mp hwrap, fun y hy hye => ?_⟩
          rcases List.mem_cons.mp hy with rfl | hy
          · exact hal
          · exact hall y hy hye
        · rintro ⟨⟨x, hx, hxe⟩, -, hall⟩
          have hx : x ∈ rest := (List.mem_cons.mp hx).resolve_left fun h => hend (h ▸ hxe)
          exact ⟨⟨x, hx, hxe⟩, hall a List.mem_cons_self (not_le.mp hend),
            fun y hy => hall y (List.mem_cons_of_mem _ hy)⟩

end

section
variable {α : Type} {A : FrameAllocator α} {m : Machine α} {v : AddressSpace}
  {size flags arg base : Nat} {regions : List VmArea}

/-- `vmm_alloc` on the list of a request that is not empty, with memory for the new area. -/
theorem vmmAllocRegion_eq (space : Space) (regions : List VmArea) (flags : Nat)
    (hne : pageAlignUp size ≠ 0) :
    vmmAllocRegion space regions size flags true =
      (vmmSearch (pageAlignUp size) space.regionSearchEnd [] space.regionSearchStart regions).map
        fun found =>
          (found.1 ++ ⟨found.2.1, pageAlignUp size, space.areaFlags flags⟩ :: found.2.2,
            found.2.1) := by
  rw [vmmAllocRegion, if_neg hne]
  cases vmmSearch (pageAlignUp size) space.regionSearchEnd [] space.regionSearchStart regions <;>
    rfl

/-- What `vmm_alloc` returns, if it does, once the area is in the list. -/
theorem vmmAlloc_inserted {result : Machine α × AddressSpace × Nat}
    (h : vmmAllocRegion v.space v.regionList size flags true = some (regions, base))
    (hr : vmmAlloc A m v size flags arg true = some result) :
    result.2 = ({ v with regionList := regions }, base) := by
  simp only [vmmAlloc, h] at hr
  split at hr
  · obtain ⟨m', -, rfl⟩ := Option.map_eq_some_iff.mp hr
    rfl
  · split at hr
    · cases hr
      rfl
    · cases hr

theorem vmmAlloc_isSome_iff
    (h : vmmAllocRegion v.space v.regionList size flags true = some (regions, base)) :
    (vmmAlloc A m v size flags arg true).isSome ↔ AllocReturns A m v size flags arg base := by
  simp only [vmmAlloc, h, AllocReturns]
  split
  · rw [Option.isSome_map]
  · split
    · next hanon => exact iff_of_true rfl hanon
    · next hanon => exact iff_of_false Bool.false_ne_true hanon

/-- `vmm_alloc` changes nothing exactly if no place is found. -/
theorem vmmAlloc_unchanged_iff (hne : pageAlignUp size ≠ 0) :
    vmmAlloc A m v size flags arg true = some (m, v, 0) ↔
      vmmSearch (pageAlignUp size) v.space.regionSearchEnd [] v.space.regionSearchStart
        v.regionList = none := by
  have hregion := vmmAllocRegion_eq v.space v.regionList flags hne
  constructor
  · intro h
    by_contra hsome
    obtain ⟨⟨p, c, r⟩, hs⟩ := Option.ne_none_iff_exists'.mp hsome
    rw [hs, Option.map_some] at hregion
    -- the list has one area more
    have hspace := congrArg Prod.fst (vmmAlloc_inserted hregion h)
    have hlength := congrArg (fun v => v.regionList.length) hspace
    have happ := congrArg List.length (vmmSearch_append hs)
    simp only [List.length_append, List.length_cons, List.length_nil] at hlength happ
    omega
  · intro hs
    rw [hs, Option.map_none] at hregion
    simp only [vmmAlloc, hregion]

/-- `vmm_alloc` is first fit exactly if the request fits somewhere and is one for memory-mapped I/O
that can be mapped or for anonymous memory, or if it fits nowhere, an area reaches to the end of the
window and no sum formed before it wraps. -/
theorem vmmAlloc_firstFit_iff (A : FrameAllocator α) (m : Machine α) (flags arg : Nat)
    (H : RegionsWF v.regionList)
    (hwindow : ∀ a ∈ v.regionList,
      v.space.regionSearchStart ≤ a.base ∧ a.limit ≤ v.space.regionSearchEnd + 1)
    (hsize : size < 2 ^ 64) (hne : pageAlignUp size ≠ 0) :
    FirstFit A m v size flags arg ↔
      (∃ b, IsLeast (v.bases size) b ∧ AllocReturns A m v size flags arg b) ∨
        (∀ b, b ∉ v.bases size) ∧ SearchFails (pageAlignUp size) v.space.regionSearchStart
          v.space.regionSearchEnd v.regionList := by
  have he : v.space.regionSearchEnd + 1 < 2 ^ 64 := by cases v.space <;> decide
  have hinv : SearchInv [] v.space.regionSearchStart v.regionList :=
    ⟨v.space.regionSearchStart_aligned, nofun, fun a ha => (hwindow a ha).1,
      (regionsWF_iff.mp H).1, fun a ha => ⟨H.aligned a ha, (H.sizes a ha).2⟩⟩
  by_cases hfit : ∃ b, b ∈ v.bases size
  · obtain ⟨p, b, r, hs, happ, Hs, hr, hleast⟩ := vmmSearch_isLeast hinv
      v.space.regionSearchEnd_lt hne (fun a ha => (H.sizes a ha).1) hfit
    have hregion := vmmAllocRegion_eq v.space v.regionList flags hne
    rw [hs, Option.map_some] at hregion
    constructor
    · rintro ⟨hspec, -⟩
      obtain ⟨p', r', m', -, -, -, halloc⟩ := hspec b hleast
      exact .inl ⟨b, hleast, (vmmAlloc_isSome_iff hregion).mp (by rw [halloc]; rfl)⟩
    · rintro (⟨b', hleast', hreturns⟩ | ⟨hnot, -⟩)
      · obtain rfl := hleast'.unique hleast
        obtain ⟨⟨m', result⟩, halloc⟩ :=
          Option.isSome_iff_exists.mp ((vmmAlloc_isSome_iff hregion).mpr hreturns)
        obtain rfl := vmmAlloc_inserted hregion halloc
        refine ⟨fun b hb => ?_, fun hnot => absurd hleast.1 (hnot b')⟩
        obtain rfl := hb.unique hleast
        exact ⟨p, r, m', happ, Hs.before, hr, halloc⟩
      · exact absurd hleast.1 (hnot b)
  · have hnot : ∀ b, b ∉ v.bases size := fun b hb => hfit ⟨b, hb⟩
    have hnone := vmmSearch_none_iff hinv he (pageAlignUp_lt hsize) hne
      (fun a ha => ⟨(H.sizes a ha).1, (hwindow a ha).2⟩) hnot
    rw [← hnone, ← @vmmAlloc_unchanged_iff α A m v size flags arg hne]
    constructor
    · rintro ⟨-, hspec⟩
      exact .inr ⟨hnot, hspec hnot⟩
    · rintro (⟨b, hleast, -⟩ | ⟨-, halloc⟩)
      · exact absurd hleast.1 (hnot b)
      · exact ⟨fun b hleast => absurd hleast.1 (hnot b), fun _ => halloc⟩

/-- One page of anonymous memory goes into the hole between two areas. -/
theorem vmmAlloc_firstFit_iff_hole :
    FirstFit pmmFrames ⟨fun _ => 0, pmmReserved 0 0⟩
      ⟨.user, 0x1000, [⟨0x1000, 0x1000, 16⟩, ⟨0x3000, 0x1000, 16⟩]⟩ 1 16 0 := by
  have H : RegionsWF [⟨0x1000, 0x1000, 16⟩, ⟨0x3000, 0x1000, 16⟩] := regionsWF_iff.mpr (by decide)
  have hsize : pageAlignUp 1 = 0x1000 := by decide
  have hfits :
      FitsAt 0x1000 0x1000 vmmUserEnd [⟨0x1000, 0x1000, 16⟩, ⟨0x3000, 0x1000, 16⟩] 0x2000 := by
    refine ⟨by decide, by decide, by decide, ?_⟩
    simp only [List.forall_mem_cons, Set.Ico_disjoint_Ico]
    decide
  refine (vmmAlloc_firstFit_iff pmmFrames ⟨fun _ => 0, pmmReserved 0 0⟩ 16 0 H (by decide)
    (by decide) (by decide)).mpr (.inl ⟨0x2000, ⟨?_, fun b hb => ?_⟩, ?_⟩)
  · rw [AddressSpace.bases, hsize]
    exact hfits
  · rw [AddressSpace.bases, hsize] at hb
    have hfirst := (disjoint_area_iff (by decide) (by decide)).mp
      (hb.apart ⟨0x1000, 0x1000, 16⟩ List.mem_cons_self)
    have hstart := hb.start_le
    simp only [VmArea.limit, Space.regionSearchStart, vmmUserStart] at hfirst hstart
    omega
  · rw [AllocReturns, if_neg (by decide)]
    decide

/-- In an empty list a request for anonymous memory that is larger than the window is placed at its
start, and the new area ends after it. -/
theorem vmmAlloc_pastEnd :
    vmmAlloc pmmFrames ⟨fun _ => 0, pmmReserved 0 0⟩ ⟨.user, 0x1000, []⟩ 0x800000000000 16 0 true =
        some (⟨fun _ => 0, pmmReserved 0 0⟩,
          ⟨.user, 0x1000, [⟨0x1000, 0x800000000000, 16⟩]⟩, 0x1000) ∧
      vmmUserEnd < VmArea.limit ⟨0x1000, 0x800000000000, 16⟩ ∧
      ¬ FirstFit pmmFrames ⟨fun _ => 0, pmmReserved 0 0⟩ ⟨.user, 0x1000, []⟩
        0x800000000000 16 0 := by
  refine ⟨rfl, by decide, fun H => ?_⟩
  have hnone := H.2 fun b hb => by
    have hle := hb.le_stop
    have hsize : pageAlignUp 0x800000000000 = 0x800000000000 := by decide
    simp only [hsize, Space.regionSearchEnd, vmmUserEnd] at hle
    omega
  have hspace := congrArg (Option.map fun result => result.2.2) hnone
  exact absurd hspace (by decide)

end

end Plos
