import Mathlib.Data.Set.Lattice
import Mathlib.Order.CompletePartialOrder
import Mathlib.Order.Interval.Set.Disjoint
import Plos.Lib.Run
import Plos.Memory.Paging.Basic

/-! The list of areas of an address space: what `vmm_alloc` and `vmm_free` of `memory/vmm.c` do to
`region_list`.

The search of `vmm_alloc` is first fit, in wrapping 64-bit arithmetic. The list stays sorted and
disjoint exactly as long as none of the sums it forms wraps. The rest of the two functions, which
maps or unmaps pages, does not touch the list, so it is not part of this model; whether `kmalloc`
has memory for a new `struct vm_area` is an input. -/

namespace Plos

abbrev vmmUserStart : Nat := 0x1000
abbrev vmmUserEnd : Nat := 0x7FFFFFFFFFFF
abbrev vmmKernelStart : Nat := 0xFFFFC00000000000
abbrev vmmKernelEnd : Nat := 0xFFFFFFFF80000000 - 1

abbrev vmmFlagsUser : Nat := 1 <<< 3

structure VmArea where
  base : Nat
  size : Nat
  flags : Nat
  deriving DecidableEq, Repr

/-- The end of an area, as an integer. -/
def VmArea.limit (a : VmArea) : Nat := a.base + a.size

/-- Whether an address space is `kernel_vas`. -/
inductive Space where
  | kernel
  | user
  deriving DecidableEq, Repr

def Space.regionSearchStart : Space → Nat
  | kernel => vmmKernelStart
  | user => vmmUserStart

def Space.regionSearchEnd : Space → Nat
  | kernel => vmmKernelEnd
  | user => vmmUserEnd

/-- The flags of a new area: no user pages in the kernel. -/
def Space.areaFlags (space : Space) (flags : Nat) : Nat :=
  match space with
  | kernel => if flags &&& vmmFlagsUser ≠ 0 then flags &&& not64 vmmFlagsUser else flags
  | user => flags

/-- Align up the size. -/
def pageAlignUp (size : Nat) : Nat :=
  if size % pagingPageSize ≠ 0 then add64 size (pagingPageSize - size % pagingPageSize) else size

/-- The search loop of `vmm_alloc`: the areas before the new one, its base, and those after it. -/
def vmmSearch (size regionSearchEnd : Nat) :
    (prev : List VmArea) → (candidate : Nat) → (current : List VmArea) →
      Option (List VmArea × Nat × List VmArea)
  | prev, candidate, [] => some (prev, candidate, [])
  | prev, candidate, a :: rest =>
    if add64 candidate size ≤ a.base ∧ add64 candidate size ≤ regionSearchEnd then
      some (prev, candidate, a :: rest)
    else
      let candidate := add64 a.base a.size
      if regionSearchEnd ≤ candidate then none
      else vmmSearch size regionSearchEnd (prev ++ [a]) candidate rest

/-- `vmm_alloc` on the list: the new list and the address it returns, if that is not `NULL`. -/
def vmmAllocRegion (space : Space) (regions : List VmArea) (size flags : Nat) (kmallocOk : Bool) :
    Option (List VmArea × Nat) :=
  let size := pageAlignUp size
  if size = 0 then none
  else
    match vmmSearch size space.regionSearchEnd [] space.regionSearchStart regions with
    | none => none
    | some (prev, candidate, current) =>
      if kmallocOk then some
        (prev ++ ⟨candidate, size, space.areaFlags flags⟩ :: current, candidate)
      else none

/-- The search loop of `vmm_free`: the area of an address and the list without it. -/
def vmmUnlink (addr : Nat) : List VmArea → Option (VmArea × List VmArea)
  | [] => none
  | a :: rest =>
    if a.base ≤ addr ∧ addr < add64 a.base a.size then some (a, rest)
    else (vmmUnlink addr rest).map fun found => (found.1, a :: found.2)

/-- `vmm_free` on the list. -/
def vmmFreeRegion (regions : List VmArea) (addr : Nat) : Option (VmArea × List VmArea) :=
  if addr = 0 then none else vmmUnlink addr regions

inductive RegionOp where
  | alloc (size flags : Nat) (kmallocOk : Bool)
  | free (addr : Nat)
  deriving DecidableEq, Repr

/-- A call with 64-bit arguments. -/
def regionStep (space : Space) (regions : List VmArea) : RegionOp → Option (List VmArea)
  | .alloc size flags kmallocOk =>
    if size < 2 ^ 64 ∧ flags < 2 ^ 64 then
      some (((vmmAllocRegion space regions size flags kmallocOk).map Prod.fst).getD regions)
    else none
  | .free addr =>
    if addr < 2 ^ 64 then some (((vmmFreeRegion regions addr).map Prod.snd).getD regions) else none

/-! ## Well-formed lists -/

structure RegionsWF (regions : List VmArea) : Prop where
  sorted : regions.Pairwise fun a b => a.base < b.base
  aligned : ∀ a ∈ regions, a.base % pagingPageSize = 0
  sizes : ∀ a ∈ regions, a.size ≠ 0 ∧ a.size % pagingPageSize = 0
  disjoint : regions.Pairwise fun a b =>
    Disjoint (Set.Ico a.base a.limit) (Set.Ico b.base b.limit)

/-- Sorted and disjoint means that each area ends before the next one starts. -/
theorem regionsWF_iff {regions : List VmArea} : RegionsWF regions ↔
    (regions.Pairwise fun a b => a.limit ≤ b.base) ∧
      ∀ a ∈ regions, a.base % pagingPageSize = 0 ∧ a.size ≠ 0 ∧ a.size % pagingPageSize = 0 := by
  constructor
  · intro H
    refine ⟨?_, fun a ha => ⟨H.aligned a ha, H.sizes a ha⟩⟩
    refine List.Pairwise.imp_of_mem ?_ (H.sorted.and H.disjoint)
    intro a b ha hb ⟨hlt, hd⟩
    have hb0 := Nat.pos_of_ne_zero (H.sizes b hb).1
    by_contra hle
    have hmem : b.base ∈ Set.Ico a.base a.limit := ⟨hlt.le, not_le.mp hle⟩
    exact Set.disjoint_left.mp hd hmem ⟨le_rfl, Nat.lt_add_of_pos_right hb0⟩
  · intro ⟨hord, hal⟩
    refine ⟨?_, fun a ha => (hal a ha).1, fun a ha => (hal a ha).2, ?_⟩
    · refine List.Pairwise.imp_of_mem ?_ hord
      intro a b ha _ hle
      exact (Nat.lt_add_of_pos_right (Nat.pos_of_ne_zero (hal a ha).2.1)).trans_le hle
    · refine hord.imp fun {a b} hle => Set.disjoint_left.mpr fun x hx hx' => ?_
      exact absurd (hx'.1.trans_lt hx.2) (not_lt.mpr hle)

/-! ## The search -/

/-- The sums that the search forms, over the integers. -/
def searchSums (size regionSearchEnd : Nat) : (candidate : Nat) → List VmArea → List Nat
  | _, [] => []
  | candidate, a :: rest =>
    if candidate + size ≤ a.base ∧ candidate + size ≤ regionSearchEnd then [candidate + size]
    else if regionSearchEnd ≤ a.limit then [candidate + size, a.limit]
    else (candidate + size) :: a.limit :: searchSums size regionSearchEnd a.limit rest

section
variable {size e c b : Nat} {prev cur p r : List VmArea}

/-- What the search knows about the areas it has passed and those it has not. -/
structure SearchInv (prev : List VmArea) (c : Nat) (cur : List VmArea) : Prop where
  aligned : c % pagingPageSize = 0
  before : ∀ a ∈ prev, a.limit ≤ c
  after : ∀ a ∈ cur, c ≤ a.base
  ordered : cur.Pairwise fun a b => a.limit ≤ b.base
  areas : ∀ a ∈ cur, a.base % pagingPageSize = 0 ∧ a.size % pagingPageSize = 0

theorem SearchInv.next {a : VmArea} (H : SearchInv prev c (a :: cur)) :
    SearchInv (prev ++ [a]) a.limit cur := by
  obtain ⟨hfirst, hord⟩ := List.pairwise_cons.mp H.ordered
  have ha := H.areas a List.mem_cons_self
  refine ⟨?_, fun x hx => ?_, hfirst, hord, fun x hx => H.areas x (List.mem_cons_of_mem _ hx)⟩
  · rw [VmArea.limit, Nat.add_mod, ha.1, ha.2, Nat.zero_mod]
  · rcases List.mem_append.mp hx with hx | hx
    · exact ((H.before x hx).trans (H.after a List.mem_cons_self)).trans (Nat.le_add_right _ _)
    · rw [List.mem_singleton.mp hx]

/-- If no sum wraps, the search finds a hole, or a place after all areas. -/
theorem vmmSearch_of_noWrap (H : SearchInv prev c cur)
    (hsums : ∀ x ∈ searchSums size e c cur, x < 2 ^ 64)
    (h : vmmSearch size e prev c cur = some (p, b, r)) :
    p ++ r = prev ++ cur ∧ SearchInv p b r ∧ (∀ a ∈ r, b + size ≤ a.base) ∧ c ≤ b ∧
      (b = c ∨ b < e) := by
  induction cur generalizing prev c with
  | nil =>
    cases h
    exact ⟨rfl, H, nofun, le_rfl, .inl rfl⟩
  | cons a rest ih =>
    obtain ⟨hfirst, -⟩ := List.pairwise_cons.mp H.ordered
    have hca := H.after a List.mem_cons_self
    have hlimit : a.base ≤ a.limit := Nat.le_add_right _ _
    have hc : c + size < 2 ^ 64 := by
      apply hsums
      unfold searchSums
      split
      · exact List.mem_cons_self
      · split <;> exact List.mem_cons_self
    rw [vmmSearch, add64_of_lt hc] at h
    rw [searchSums] at hsums
    split at h
    · next hfit =>
      cases h
      refine ⟨rfl, H, fun x hx => ?_, le_rfl, .inl rfl⟩
      rcases List.mem_cons.mp hx with rfl | hx
      · exact hfit.1
      · exact hfit.1.trans (hlimit.trans (hfirst x hx))
    · next hfit =>
      rw [if_neg hfit] at hsums
      have ha : a.limit < 2 ^ 64 := by
        apply hsums
        split <;> simp
      have hsum : add64 a.base a.size = a.limit := add64_of_lt ha
      simp only [hsum] at h
      split at h
      · cases h
      · next hend =>
        rw [if_neg hend] at hsums
        obtain ⟨happ, H', hr, hle, hb⟩ := ih H.next
          (fun x hx => hsums x (List.mem_cons_of_mem _ (List.mem_cons_of_mem _ hx))) h
        rw [List.append_assoc] at happ
        refine ⟨happ, H', hr, (hca.trans hlimit).trans hle, .inr ?_⟩
        rcases hb with rfl | hb
        · exact not_le.mp hend
        · exact hb

/-- If a sum wraps, the search takes a place that overlaps an area. -/
theorem vmmSearch_of_wrap (H : SearchInv prev c cur) (hce : c ≤ e) (he : e < 2 ^ 64)
    (hsize : size < 2 ^ 64) (hareas : ∀ a ∈ cur, a.base < e ∧ a.size < 2 ^ 64)
    (hsums : ∃ x ∈ searchSums size e c cur, 2 ^ 64 ≤ x) :
    ∃ p b r, vmmSearch size e prev c cur = some (p, b, r) ∧
      ((∃ a ∈ p, b < a.limit) ∨ ∃ a ∈ r, a.base < b + size) := by
  induction cur generalizing prev c with
  | nil =>
    obtain ⟨x, hx, -⟩ := hsums
    cases hx
  | cons a rest ih =>
    obtain ⟨hfirst, -⟩ := List.pairwise_cons.mp H.ordered
    have hca := H.after a List.mem_cons_self
    obtain ⟨hae, hasize⟩ := hareas a List.mem_cons_self
    by_cases hwrap : 2 ^ 64 ≤ c + size
    · -- the sum of the candidate and the size is small, so every hole looks large enough
      have hsum := add64_of_le (hce.trans_lt he) hsize hwrap
      refine ⟨prev, c, a :: rest, ?_, .inr ⟨a, List.mem_cons_self, ?_⟩⟩
      · rw [vmmSearch, if_pos]
        rw [hsum]
        omega
      · omega
    · have hc := add64_of_lt (not_le.mp hwrap)
      rw [searchSums] at hsums
      have hfit : ¬ (c + size ≤ a.base ∧ c + size ≤ e) := by
        intro hfit
        rw [if_pos hfit] at hsums
        obtain ⟨x, hx, hle⟩ := hsums
        rw [List.mem_singleton.mp hx] at hle
        exact hwrap hle
      rw [if_neg hfit] at hsums
      rw [vmmSearch, hc, if_neg hfit]
      by_cases hlimit : 2 ^ 64 ≤ a.limit
      · -- the candidate starts again at the bottom, after the last area
        have hsum : add64 a.base a.size = a.limit - 2 ^ 64 :=
          add64_of_le (hae.trans he) hasize hlimit
        have hlast : rest = [] := by
          cases rest with
          | nil => rfl
          | cons d rest =>
            have := hfirst d List.mem_cons_self
            have := (hareas d (List.mem_cons_of_mem _ List.mem_cons_self)).1
            omega
        refine ⟨prev ++ [a], a.limit - 2 ^ 64, [], ?_, .inl ⟨a, by simp, ?_⟩⟩
        · have : ¬ e ≤ a.limit - 2 ^ 64 := by
            unfold VmArea.limit
            omega
          simp only [hsum, if_neg this, hlast, vmmSearch]
        · omega
      · have hsum : add64 a.base a.size = a.limit := add64_of_lt (not_le.mp hlimit)
        have hend : ¬ e ≤ a.limit := by
          intro hend
          rw [if_pos hend] at hsums
          obtain ⟨x, hx, hle⟩ := hsums
          simp only [List.mem_cons, List.not_mem_nil, or_false] at hx
          rcases hx with rfl | rfl
          · exact hwrap hle
          · exact hlimit hle
        rw [if_neg hend] at hsums
        simp only [hsum, if_neg hend]
        apply ih H.next (not_le.mp hend).le fun x hx => hareas x (List.mem_cons_of_mem _ hx)
        obtain ⟨x, hx, hle⟩ := hsums
        simp only [List.mem_cons] at hx
        rcases hx with rfl | rfl | hx
        · exact absurd hle hwrap
        · exact absurd hle hlimit
        · exact ⟨x, hx, hle⟩

end

/-! ## Runs -/

theorem pageAlignUp_lt {size : Nat} (h : size < 2 ^ 64) : pageAlignUp size < 2 ^ 64 := by
  unfold pageAlignUp
  split
  · exact add64_lt
  · exact h

theorem pageAlignUp_mod (size : Nat) : pageAlignUp size % pagingPageSize = 0 := by
  unfold pageAlignUp
  split
  · rw [add64, addW, Nat.mod_mod_of_dvd _ (by decide)]
    unfold pagingPageSize
    omega
  · next h => exact not_not.mp h

/-- None of the 64-bit sums formed by the search for a new area wraps. -/
def RegionOp.NoWrap (space : Space) (regions : List VmArea) : RegionOp → Prop
  | .alloc size _ kmallocOk => kmallocOk = true → pageAlignUp size ≠ 0 →
    ∀ x ∈ searchSums (pageAlignUp size) space.regionSearchEnd space.regionSearchStart regions,
      x < 2 ^ 64
  | .free _ => True

/-- The areas start inside the window of the space. -/
def InWindow (space : Space) (regions : List VmArea) : Prop :=
  ∀ a ∈ regions, space.regionSearchStart ≤ a.base ∧ a.base < space.regionSearchEnd ∧ a.size < 2 ^ 64

namespace Space

theorem regionSearchStart_aligned (space : Space) :
    space.regionSearchStart % pagingPageSize = 0 := by
  cases space <;> rfl

theorem regionSearchStart_lt (space : Space) : space.regionSearchStart < space.regionSearchEnd := by
  cases space <;> decide

theorem regionSearchEnd_lt (space : Space) : space.regionSearchEnd < 2 ^ 64 := by
  cases space <;> decide

end Space

section
variable {space : Space} {regions regions' : List VmArea}

theorem RegionsWF.searchInv (H : RegionsWF regions) (hw : InWindow space regions) :
    SearchInv [] space.regionSearchStart regions := by
  refine ⟨space.regionSearchStart_aligned, nofun, fun a ha => (hw a ha).1, (regionsWF_iff.mp H).1,
    ?_⟩
  exact fun a ha => ⟨H.aligned a ha, (H.sizes a ha).2⟩

/-- A new area between those before and those after it. -/
theorem RegionsWF.insert {p r : List VmArea} {new : VmArea} (H : RegionsWF (p ++ r))
    (hbase : new.base % pagingPageSize = 0)
    (hsize : new.size ≠ 0 ∧ new.size % pagingPageSize = 0)
    (hbefore : ∀ a ∈ p, a.limit ≤ new.base) (hafter : ∀ a ∈ r, new.limit ≤ a.base) :
    RegionsWF (p ++ new :: r) := by
  rw [regionsWF_iff] at H ⊢
  obtain ⟨hord, hal⟩ := H
  obtain ⟨hp, hr, hpr⟩ := List.pairwise_append.mp hord
  rw [List.pairwise_append, List.pairwise_cons]
  refine ⟨⟨hp, ⟨hafter, hr⟩, fun a ha b hb => ?_⟩, fun a ha => ?_⟩
  · rcases List.mem_cons.mp hb with rfl | hb
    · exact hbefore a ha
    · exact hpr a ha b hb
  · rcases List.mem_append.mp ha with ha | ha
    · exact hal a (List.mem_append_left _ ha)
    · rcases List.mem_cons.mp ha with rfl | ha
      · exact ⟨hbase, hsize⟩
      · exact hal a (List.mem_append_right _ ha)

theorem RegionsWF.of_insert {p r : List VmArea} {new : VmArea} (H : RegionsWF (p ++ new :: r)) :
    (∀ a ∈ p, a.limit ≤ new.base) ∧ ∀ a ∈ r, new.limit ≤ a.base := by
  obtain ⟨-, hnew, hcross⟩ := List.pairwise_append.mp (regionsWF_iff.mp H).1
  exact ⟨fun a ha => hcross a ha new List.mem_cons_self, (List.pairwise_cons.mp hnew).1⟩

theorem vmmUnlink_sublist {addr : Nat} {a : VmArea}
    (h : vmmUnlink addr regions = some (a, regions')) :
    regions'.Sublist regions := by
  induction regions generalizing regions' with
  | nil => cases h
  | cons b rest ih =>
    rw [vmmUnlink] at h
    split at h
    · cases h
      exact List.sublist_cons_self _ _
    · obtain ⟨found, hfound, ⟨⟩⟩ := Option.map_eq_some_iff.mp h
      exact (ih hfound).cons_cons b

theorem RegionsWF.sublist (H : RegionsWF regions) (h : regions'.Sublist regions) :
    RegionsWF regions' :=
  ⟨H.sorted.sublist h, fun a ha => H.aligned a (h.subset ha), fun a ha => H.sizes a (h.subset ha),
    H.disjoint.sublist h⟩

/-- What `vmm_free` does to the list. -/
theorem regionStep_free {addr : Nat} (h : regionStep space regions (.free addr) = some regions') :
    regions'.Sublist regions := by
  obtain ⟨-, ⟨⟩⟩ := Option.ite_none_right_eq_some.mp h
  unfold vmmFreeRegion
  split
  · exact List.Sublist.refl _
  · cases hu : vmmUnlink addr regions with
    | none => exact List.Sublist.refl _
    | some found => exact vmmUnlink_sublist hu

/-- What `vmm_alloc` does to the list. -/
theorem regionStep_alloc {size flags : Nat} {kmallocOk : Bool}
    (h : regionStep space regions (.alloc size flags kmallocOk) = some regions') :
    pageAlignUp size < 2 ^ 64 ∧ (regions' = regions ∧ (kmallocOk = true → pageAlignUp size ≠ 0 →
        vmmSearch (pageAlignUp size) space.regionSearchEnd [] space.regionSearchStart regions =
          none) ∨
      kmallocOk = true ∧ pageAlignUp size ≠ 0 ∧ ∃ p b r,
        vmmSearch (pageAlignUp size) space.regionSearchEnd [] space.regionSearchStart regions =
          some (p, b, r) ∧
        regions' = p ++ ⟨b, pageAlignUp size, space.areaFlags flags⟩ :: r) := by
  obtain ⟨⟨hsize, -⟩, ⟨⟩⟩ := Option.ite_none_right_eq_some.mp h
  refine ⟨pageAlignUp_lt hsize, ?_⟩
  simp only [vmmAllocRegion]
  split
  · next hz => exact .inl ⟨rfl, fun _ hne => absurd hz hne⟩
  · next hne =>
    split
    · next hs => exact .inl ⟨rfl, fun _ _ => hs⟩
    · next p b r hs =>
      cases kmallocOk with
      | false => exact .inl ⟨rfl, nofun⟩
      | true => exact .inr ⟨rfl, hne, p, b, r, hs, rfl⟩

/-- `vmm_alloc` keeps the list well formed exactly if no sum wraps. -/
theorem regionStep_wf_iff {op : RegionOp} (hw : InWindow space regions) (H : RegionsWF regions)
    (h : regionStep space regions op = some regions') :
    RegionsWF regions' ↔ op.NoWrap space regions := by
  cases op with
  | free addr => exact ⟨fun _ => trivial, fun _ => H.sublist (regionStep_free h)⟩
  | alloc size flags kmallocOk =>
    obtain ⟨hlt, ⟨rfl, hnull⟩ | ⟨hok, hne, p, b, r, hs, rfl⟩⟩ := regionStep_alloc h
    · refine ⟨fun _ hok hne => ?_, fun _ => H⟩
      by_contra hwrap
      push Not at hwrap
      obtain ⟨p, b, r, hs, -⟩ := vmmSearch_of_wrap (H.searchInv hw) space.regionSearchStart_lt.le
        space.regionSearchEnd_lt hlt (fun a ha => (hw a ha).2) hwrap
      rw [hnull hok hne] at hs
      cases hs
    · constructor
      · intro H' _ _
        by_contra hwrap
        push Not at hwrap
        obtain ⟨p', b', r', hs', hbad⟩ := vmmSearch_of_wrap (H.searchInv hw)
          space.regionSearchStart_lt.le space.regionSearchEnd_lt hlt (fun a ha => (hw a ha).2) hwrap
        cases hs.symm.trans hs'
        obtain ⟨hbefore, hafter⟩ := H'.of_insert
        rcases hbad with ⟨a, ha, hlt⟩ | ⟨a, ha, hlt⟩
        · exact absurd (hbefore a ha) (not_le.mpr hlt)
        · exact absurd (hafter a ha) (not_le.mpr hlt)
      · intro hq
        obtain ⟨happ, Hs, hr, -⟩ := vmmSearch_of_noWrap (H.searchInv hw) (hq hok hne) hs
        rw [List.nil_append] at happ
        rw [← happ] at H
        exact H.insert Hs.aligned ⟨hne, pageAlignUp_mod size⟩ Hs.before hr

theorem regionStep_inWindow {op : RegionOp} (hw : InWindow space regions) (H : RegionsWF regions)
    (h : regionStep space regions op = some regions') (H' : RegionsWF regions') :
    InWindow space regions' := by
  have hq := (regionStep_wf_iff hw H h).mp H'
  cases op with
  | free addr => exact fun a ha => hw a ((regionStep_free h).subset ha)
  | alloc size flags kmallocOk =>
    obtain ⟨hlt, ⟨rfl, -⟩ | ⟨hok, hne, p, b, r, hs, rfl⟩⟩ := regionStep_alloc h
    · exact hw
    · obtain ⟨happ, -, -, hle, hb⟩ := vmmSearch_of_noWrap (H.searchInv hw) (hq hok hne) hs
      rw [List.nil_append] at happ
      intro a ha
      rcases List.mem_append.mp ha with ha | ha
      · exact hw a (happ ▸ List.mem_append_left _ ha)
      · rcases List.mem_cons.mp ha with rfl | ha
        · refine ⟨hle, ?_, hlt⟩
          rcases hb with rfl | hb
          · exact space.regionSearchStart_lt
          · exact hb
        · exact hw a (happ ▸ List.mem_append_right _ ha)

end

/-- In every run of `vmm_alloc` and `vmm_free` from an empty list, the list is well formed in every
state that is reached exactly if no sum formed by a search wraps. -/
theorem regionRun_wellFormed_iff (space : Space) (ops : List RegionOp) :
    Along (regionStep space) RegionsWF [] ops ↔
      AllSteps (regionStep space) (fun regions op => op.NoWrap space regions) [] ops := by
  have hempty : RegionsWF [] := ⟨List.Pairwise.nil, nofun, nofun, List.Pairwise.nil⟩
  have hiff := @along_iff_allSteps _ _ (regionStep space) [] ops (InWindow space) RegionsWF
    (fun regions op => op.NoWrap space regions)
    (fun _ _ _ hw H h H' => regionStep_inWindow hw H h H')
    (fun _ _ _ hw H h => regionStep_wf_iff hw H h) nofun
  exact hiff.trans (and_iff_right hempty)

/-- After one page has been allocated in the kernel, a request that reaches to the end of the
address space is placed over it. -/
theorem regionRun_overlap : ∃ regions,
    runFrom (regionStep .kernel) [] [.alloc 0x1000 16 true, .alloc 0x400000000000 16 true] =
        some regions ∧ ¬ RegionsWF regions := by
  refine ⟨[⟨vmmKernelStart, 0x400000000000, 16⟩, ⟨vmmKernelStart, 0x1000, 16⟩], by decide, ?_⟩
  intro H
  have := (List.pairwise_cons.mp H.sorted).1 _ List.mem_cons_self
  exact Nat.lt_irrefl _ this

end Plos
