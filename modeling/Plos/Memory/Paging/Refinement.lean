import Plos.Lib.Run
import Plos.Memory.Paging.Mapping

/-! Runs of `paging_map_page` and `paging_unmap_page` refine a partial map from pages to frames.

A call is given the frames that `pmm_alloc` hands out while it runs: none of them is already in use
as a table, and nothing is assumed about their contents. `PageMap` is the abstract state: for each
page and each huge page the frame and flags of the last call that mapped it, if it has not been
unmapped since. The slots of 2 MiB are divided between the two sizes. -/

namespace Plos

/-! ## Calls -/

/-- The frames in use, and those that the next allocations return. -/
structure Offers where
  used : List Nat
  next : List Nat

def offersAllocator : FrameAllocator Offers where
  alloc a :=
    match a.next with
    | [] => (a, 0)
    | f :: next => (⟨f :: a.used, next⟩, f)
  decRef a _ := a

structure PagingSys where
  mem : Nat → Nat
  used : List Nat

inductive PagingOp where
  | map (virt phys flags : Nat) (isHuge : Bool) (next : List Nat)
  | unmap (virt : Nat) (isHuge freePhysical : Bool)
  deriving DecidableEq, Repr

def PagingOp.virt : PagingOp → Nat
  | map virt .. | unmap virt .. => virt

def PagingOp.isHuge : PagingOp → Bool
  | map _ _ _ isHuge _ | unmap _ isHuge _ => isHuge

/-- The call makes the table at a path, if it is missing. -/
def PagingOp.Makes (p : List Nat) : PagingOp → Prop
  | map virt _ _ isHuge _ => p <+: tablePath virt isHuge
  | unmap .. => False

instance (p : List Nat) : (op : PagingOp) → Decidable (op.Makes p)
  | .map .. => inferInstanceAs (Decidable (_ <+: _))
  | .unmap .. => inferInstanceAs (Decidable False)

/-- A call with a canonical address, a physical address, flags without address bits, and frames that
are not in use. -/
def PagingOp.Valid (s : PagingSys) (op : PagingOp) : Prop :=
  Canonical op.virt ∧ op.virt ≠ 0 ∧
    match op with
    | map _ phys flags _ next => phys < 2 ^ 52 ∧ flags < 2 ^ 64 ∧ flags &&& pagingPteAddrMask = 0 ∧
        next.Nodup ∧ ∀ f ∈ next, f ≠ 0 ∧ f % pagingPageSize = 0 ∧ f < 2 ^ 52 ∧ f ∉ s.used
    | unmap .. => True

instance (s : PagingSys) : (op : PagingOp) → Decidable (op.Valid s)
  | .map .. => inferInstanceAs (Decidable (_ ∧ _ ∧ _ ∧ _ ∧ _ ∧ _ ∧ ∀ f ∈ _, _))
  | .unmap .. => inferInstanceAs (Decidable (_ ∧ _ ∧ True))

def pagingCall (root : Nat) (s : PagingSys) : PagingOp → Option (Machine Offers)
  | .map virt phys flags isHuge next =>
    pagingMapPage offersAllocator ⟨s.mem, ⟨s.used, next⟩⟩ root virt phys flags isHuge
  | .unmap virt isHuge freePhysical =>
    pagingUnmapPage offersAllocator ⟨s.mem, ⟨s.used, []⟩⟩ root virt isHuge freePhysical

def pagingStep (root : Nat) (s : PagingSys) (op : PagingOp) : Option PagingSys :=
  if op.Valid s then (pagingCall root s op).map fun m => ⟨m.mem, m.frames.used⟩ else none

/-! ## The abstract map -/

/-- The frame and the flags of each page and of each huge page, by page number. -/
structure PageMap where
  small : Nat → Option (Nat × Nat)
  huge : Nat → Option (Nat × Nat)

namespace PageMap

def empty : PageMap := ⟨fun _ => none, fun _ => none⟩

/-- The map of the pages of one size. -/
def get (M : PageMap) (isHuge : Bool) : Nat → Option (Nat × Nat) :=
  if isHuge then M.huge else M.small

def set (M : PageMap) (isHuge : Bool) (k : Nat) (value : Option (Nat × Nat)) : PageMap :=
  if isHuge then { M with huge := Function.update M.huge k value }
  else { M with small := Function.update M.small k value }

/-- The last call on a page decides: it is mapped to the frame that contains the physical address,
or not mapped. -/
def step (M : PageMap) : PagingOp → PageMap
  | .map virt phys flags isHuge _ =>
    M.set isHuge (pageNumber virt isHuge) (some (phys - phys % pagingStride isHuge, flags))
  | .unmap virt isHuge _ => M.set isHuge (pageNumber virt isHuge) none

def rights (flags : Nat) : Rights where
  write := flags.testBit 1
  user := flags.testBit 2
  exec := !flags.testBit 63

/-- The frame of the page plus the offset, with the rights of the flags. -/
def translate (M : PageMap) (virt : Nat) : Option (Nat × Rights) :=
  match M.huge (virt / 2 ^ 21) with
  | some (frame, flags) => some (frame + virt % 2 ^ 21, rights flags)
  | none =>
    (M.small (virt / 2 ^ 12)).map fun (frame, flags) => (frame + virt % 2 ^ 12, rights flags)

theorem get_set_self (M : PageMap) (isHuge : Bool) (k : Nat) (value : Option (Nat × Nat)) :
    (M.set isHuge k value).get isHuge = Function.update (M.get isHuge) k value := by
  cases isHuge with
  | true => rfl
  | false => rfl

theorem get_set_of_ne (M : PageMap) {isHuge isHuge' : Bool} (h : isHuge' ≠ isHuge) (k : Nat)
    (value : Option (Nat × Nat)) : (M.set isHuge k value).get isHuge' = M.get isHuge' := by
  cases isHuge with
  | true =>
    rw [eq_false_of_ne_true h]
    rfl
  | false =>
    rw [eq_true_of_ne_false h]
    rfl

end PageMap

/-! ## The refinement relation -/

/-- The entry that stands for a value of the abstract map. -/
def mapEntry (isHuge : Bool) (value : Option (Nat × Nat)) : Nat :=
  value.elim 0 fun (frame, flags) => pagingEntry frame flags isHuge

/-- The values that calls with valid arguments put into the map. -/
def ValueOk (isHuge : Bool) (value : Nat × Nat) : Prop :=
  value.1 % pagingStride isHuge = 0 ∧ value.1 < 2 ^ 52 ∧ value.2 &&& pagingPteAddrMask = 0

/-- The leaves of the tree are the pages of the map, and each slot has pages of one size. -/
structure PageMap.Rel (slotHuge : Nat → Bool) (root : Nat) (T : List Nat → Option Nat)
    (leaf : List Nat → Nat) (s : PagingSys) (M : PageMap) : Prop where
  tree : PageTree 512 root s.mem T leaf
  used : ∀ p f, T p = some f → f ∈ s.used
  leaves : ∀ v, Canonical v → ∀ isHuge, leaf (leafPath v isHuge) =
    mapEntry isHuge (M.get isHuge (pageNumber v isHuge))
  values : ∀ isHuge k value, M.get isHuge k = some value → ValueOk isHuge value ∧
    ∃ v, Canonical v ∧ k = pageNumber v isHuge ∧ slotHuge (v / 2 ^ 21) = isHuge
  slots : ∀ v, Canonical v → slotHuge (v / 2 ^ 21) = true → T (leafPath v true) = none

def OffersOk (a : Offers) (held : List Nat) : Prop :=
  (∀ f ∈ held, f ∈ a.used) ∧ a.next.Nodup ∧
    ∀ f ∈ a.next, f ≠ 0 ∧ f % pagingPageSize = 0 ∧ f < 2 ^ 52 ∧ f ∉ a.used

theorem offersAllocator_spec : AllocSpec offersAllocator OffersOk fun a => a.next.length := by
  refine ⟨fun {a held} ⟨hheld, hnodup, hnext⟩ => ?_⟩
  obtain ⟨used, next⟩ := a
  cases next with
  | nil => exact .inl ⟨rfl, rfl, hheld, hnodup, hnext⟩
  | cons f next =>
    obtain ⟨hf, hnodup⟩ := List.nodup_cons.mp hnodup
    obtain ⟨⟨hne, hmod, hlt, hfresh⟩, hnext⟩ := List.forall_mem_cons.mp hnext
    refine .inr
      ⟨hne, ⟨hmod, hlt⟩, fun h => hfresh (hheld f h), ⟨fun g hg => ?_, hnodup, fun g hg => ?_⟩, rfl⟩
    · rcases List.mem_cons.mp hg with rfl | hg
      · exact List.mem_cons_self
      · exact List.mem_cons_of_mem _ (hheld g hg)
    · obtain ⟨hne', hmod', hlt', hfresh'⟩ := hnext g hg
      refine ⟨hne', hmod', hlt', fun h => ?_⟩
      rcases List.mem_cons.mp h with rfl | h
      · exact hf hg
      · exact hfresh' h

theorem slot_of_pageNumber {v w : Nat} {isHuge : Bool}
    (h : pageNumber v isHuge = pageNumber w isHuge) :
    v / 2 ^ 21 = w / 2 ^ 21 := by
  cases isHuge with
  | true => exact h
  | false =>
    simp only [pageNumber, pagingStride, pagingPageSize, Bool.false_eq_true, if_false] at h
    omega

/-- The entry depends on the frame of the physical address only. -/
theorem pagingEntry_align (phys flags : Nat) (isHuge : Bool) :
    pagingEntry (phys - phys % pagingStride isHuge) flags isHuge =
      pagingEntry phys flags isHuge := by
  rw [← pagingAlignPhys_eq, pagingEntry, pagingAlignPhys_eq (pagingAlignPhys phys isHuge),
    pagingAlignPhys_mod, Nat.sub_zero, ← pagingEntry]

namespace PageMap.Rel

variable {slotHuge : Nat → Bool} {root virt : Nat} {T T' : List Nat → Option Nat}
  {leaf : List Nat → Nat} {s s' : PagingSys} {M : PageMap} {isHuge : Bool}

theorem get_eq_none (H : Rel slotHuge root T leaf s M) (h : slotHuge (virt / 2 ^ 21) ≠ isHuge) :
    M.get isHuge (pageNumber virt isHuge) = none := by
  cases hget : M.get isHuge (pageNumber virt isHuge) with
  | none => rfl
  | some value =>
    obtain ⟨-, w, -, hk, hw⟩ := H.values isHuge _ value hget
    rw [← slot_of_pageNumber hk] at hw
    exact absurd hw h

/-- A page has no entry of the size that its slot is not used with. -/
theorem fits (H : Rel slotHuge root T leaf s M) (hv : Canonical virt)
    (hslot : slotHuge (virt / 2 ^ 21) = isHuge) :
    (isHuge = false → leaf (leafPath virt true) = 0) ∧
      (isHuge = true → T (leafPath virt true) = none) := by
  refine ⟨fun h => ?_, fun h => H.slots virt hv (hslot.trans h)⟩
  have hne : slotHuge (virt / 2 ^ 21) ≠ true := by
    rw [hslot, h]
    exact Bool.false_ne_true
  rw [H.leaves virt hv, H.get_eq_none hne]
  rfl

/-- One page changes, in the tables and in the map. -/
theorem set (H : Rel slotHuge root T leaf s M) (hv : Canonical virt)
    (hslot : slotHuge (virt / 2 ^ 21) = isHuge) (value : Option (Nat × Nat))
    (hvalue : ∀ x ∈ value, ValueOk isHuge x)
    (htree : PageTree 512 root s'.mem T'
      (Function.update leaf (leafPath virt isHuge) (mapEntry isHuge value)))
    (hused : ∀ p f, T' p = some f → f ∈ s'.used)
    (horigin : ∀ p f, T' p = some f → T p = some f ∨ p <+: tablePath virt isHuge) :
    ∃ leaf', Rel slotHuge root T' leaf' s' (M.set isHuge (pageNumber virt isHuge) value) := by
  refine ⟨_, htree, hused, fun v hcanon isHuge' => ?_, fun isHuge' k x hx => ?_,
    fun v hcanon hs => ?_⟩
  · by_cases hsize : isHuge' = isHuge
    · subst hsize
      rw [get_set_self]
      by_cases hpage : pageNumber v isHuge' = pageNumber virt isHuge'
      · rw [leafPath_congr hpage, hpage, Function.update_self, Function.update_self]
      · rw [Function.update_of_ne hpage, Function.update_of_ne, H.leaves v hcanon]
        exact fun h => hpage (leafPath_inj hcanon hv h)
    · rw [get_set_of_ne M hsize, Function.update_of_ne (leafPath_ne hsize), H.leaves v hcanon]
  · by_cases hsize : isHuge' = isHuge
    · subst hsize
      rw [get_set_self] at hx
      by_cases hk : k = pageNumber virt isHuge'
      · rw [hk, Function.update_self] at hx
        exact ⟨hvalue x hx, virt, hv, hk, hslot⟩
      · rw [Function.update_of_ne hk] at hx
        exact H.values isHuge' k x hx
    · rw [get_set_of_ne M hsize] at hx
      exact H.values isHuge' k x hx
  · cases hT : T' (leafPath v true) with
    | none => rfl
    | some f =>
      rcases horigin _ f hT with hT | hpre
      · rw [H.slots v hcanon hs] at hT
        cases hT
      · cases isHuge with
        | true => exact absurd hpre.length_le (by simp [tablePath])
        | false =>
          have hpath : leafPath v true = leafPath virt true := hpre.eq_of_length rfl
          have hsame : v / 2 ^ 21 = virt / 2 ^ 21 := leafPath_inj hcanon hv hpath
          rw [hsame, hslot] at hs
          cases hs

/-- One call. -/
theorem step {op : PagingOp} (H : Rel slotHuge root T leaf s M)
    (hslot : slotHuge (op.virt / 2 ^ 21) = op.isHuge) (h : pagingStep root s op = some s') :
    ∃ T' leaf', Rel slotHuge root T' leaf' s' (M.step op) ∧
      ∀ p, (T' p).isSome ↔ (T p).isSome ∨ op.Makes p := by
  obtain ⟨⟨hcanon, hv, harg⟩, h⟩ := Option.ite_none_right_eq_some.mp h
  obtain ⟨m', hcall, rfl⟩ := Option.map_eq_some_iff.mp h
  obtain ⟨hsmall, hhuge⟩ := H.fits hcanon hslot
  have hn : op.virt / 2 ^ 39 % 512 < 512 := Nat.mod_lt _ (by decide)
  cases op with
  | map virt phys flags isHuge next =>
    obtain ⟨hphys, -, hflags, hnodup, hnext⟩ := harg
    have hI : OffersOk ⟨s.used, next⟩ s.used := ⟨fun _ => id, hnodup, hnext⟩
    rcases pagingMapPage_spec (m := ⟨s.mem, ⟨s.used, next⟩⟩) offersAllocator_spec H.tree hI H.used
      hv hn
      hsmall hhuge (leafOk_pagingEntry hphys hflags (leafPath_length virt isHuge)) with
        ⟨m₁, T₁, new, hr, G, -⟩ | ⟨-, hr⟩
    · obtain rfl : m₁ = m' := Option.some.inj (hr.symm.trans hcall)
      have htree := G.tree
      rw [← pagingEntry_align] at htree
      have hok : ValueOk isHuge (phys - phys % pagingStride isHuge, flags) := by
        refine ⟨Nat.sub_mod_eq_zero_of_mod_eq (Nat.mod_mod _ _).symm, ?_, hflags⟩
        exact Nat.lt_of_le_of_lt (Nat.sub_le _ _) hphys
      have horigin (p : List Nat) (f : Nat) (hp : T₁ p = some f) : T p = some f ∨
          p <+: tablePath virt isHuge :=
        (G.origin hp).imp_right And.right
      have hused (p : List Nat) (f : Nat) (hp : T₁ p = some f) : f ∈ m₁.frames.used :=
        G.frames.1 f (G.mem_held H.used p f hp)
      obtain ⟨leaf', H'⟩ : ∃ leaf', Rel slotHuge root T₁ leaf' ⟨m₁.mem, m₁.frames.used⟩ _ :=
        H.set hcanon hslot (some (phys - phys % pagingStride isHuge, flags))
          (fun x hx => Option.some.inj hx ▸ hok) htree hused horigin
      refine ⟨T₁, leaf', H', fun p => ⟨fun hp => ?_, fun hp => ?_⟩⟩
      · obtain ⟨f, hf⟩ := Option.isSome_iff_exists.mp hp
        exact (horigin p f hf).imp_left Option.isSome_of_eq_some
      · rcases hp with hp | hp
        · obtain ⟨f, hf⟩ := Option.isSome_iff_exists.mp hp
          exact Option.isSome_of_eq_some (G.le hf)
        · refine G.tree.isSome_of_prefix hp ?_
          -- the entry has been written, so its table is there
          by_contra hnone
          have hzero :=
            G.tree.leaf_of_none (Option.not_isSome_iff_eq_none.mp hnone) (entryIndex virt isHuge)
          have hentry :=
            Function.update_self (leafPath virt isHuge) (pagingEntry phys flags isHuge) leaf
          exact ne_zero_of_testBit (pagingEntry_present hphys) (hentry.symm.trans hzero)
    · cases hr.symm.trans hcall
  | unmap virt isHuge freePhysical =>
    obtain ⟨m₁, hr, htree, hframes, -⟩ := pagingUnmapPage_spec (A := offersAllocator)
      (m := ⟨s.mem, ⟨s.used, []⟩⟩) H.tree hv hn hsmall hhuge freePhysical
    obtain rfl : m₁ = m' := Option.some.inj (hr.symm.trans hcall)
    have hused : m₁.frames.used = s.used := by
      rw [hframes]
      split <;> rfl
    obtain ⟨leaf', H'⟩ : ∃ leaf', Rel slotHuge root T leaf' ⟨m₁.mem, m₁.frames.used⟩ _ :=
      H.set hcanon hslot none nofun htree (fun p f hp => hused.symm ▸ H.used p f hp) fun p f hp =>
        .inl hp
    exact ⟨T, leaf', H', fun p => (or_iff_left id).symm⟩

/-- A sequence of calls. The tables are those that some call has made. -/
theorem run {ops : List PagingOp} (H : Rel slotHuge root T leaf s M)
    (hslots : ∀ op ∈ ops, slotHuge (op.virt / 2 ^ 21) = op.isHuge)
    (h : runFrom (pagingStep root) s ops = some s') :
    ∃ T' leaf', Rel slotHuge root T' leaf' s' (ops.foldl PageMap.step M) ∧
      ∀ p, (T' p).isSome ↔ (T p).isSome ∨ ∃ op ∈ ops, op.Makes p := by
  -- the abstract state of the simulation is the list of the calls so far
  have hstep (s : PagingSys) (done : List PagingOp) (op : PagingOp) (s' : PagingSys)
      (hs : ∃ T' leaf', Rel slotHuge root T' leaf' s (done.foldl PageMap.step M) ∧
        ∀ p, (T' p).isSome ↔ (T p).isSome ∨ ∃ op ∈ done, op.Makes p)
      (hslot : slotHuge (op.virt / 2 ^ 21) = op.isHuge) (h : pagingStep root s op = some s') :
      ∃ T' leaf', Rel slotHuge root T' leaf' s' ((done ++ [op]).foldl PageMap.step M) ∧
        ∀ p, (T' p).isSome ↔ (T p).isSome ∨ ∃ op' ∈ done ++ [op], op'.Makes p := by
    obtain ⟨T₁, leaf₁, H₁, htables₁⟩ := hs
    obtain ⟨T₂, leaf₂, H₂, htables₂⟩ := H₁.step hslot h
    refine ⟨T₂, leaf₂, ?_, fun p => ?_⟩
    · rw [List.foldl_append]
      exact H₂
    · rw [htables₂, htables₁, or_assoc]
      simp only [List.mem_append, List.mem_singleton, or_and_right, exists_or, exists_eq_left]
  have hsim := runFrom_simulation (a := []) hstep ⟨T, leaf, H, fun p => by simp⟩ hslots h
  rwa [List.foldl_append_eq_append, List.nil_append, ← List.flatMap_def,
    List.flatMap_singleton'] at hsim

/-- A call returns, if the allocator has the frames for the tables that may be missing. -/
theorem step_isSome {op : PagingOp} (H : Rel slotHuge root T leaf s M) (hop : op.Valid s)
    (hslot : slotHuge (op.virt / 2 ^ 21) = op.isHuge)
    (hnext : ∀ virt phys flags isHuge next, op = .map virt phys flags isHuge next →
      3 ≤ next.length) : (pagingStep root s op).isSome := by
  rw [pagingStep, if_pos hop, Option.isSome_map]
  obtain ⟨hcanon, hv, harg⟩ := hop
  obtain ⟨hsmall, hhuge⟩ := H.fits hcanon hslot
  have hn : op.virt / 2 ^ 39 % 512 < 512 := Nat.mod_lt _ (by decide)
  cases op with
  | map virt phys flags isHuge next =>
    obtain ⟨hphys, -, hflags, hnodup, hfresh⟩ := harg
    have hI : OffersOk ⟨s.used, next⟩ s.used := ⟨fun _ => id, hnodup, hfresh⟩
    rcases pagingMapPage_spec (m := ⟨s.mem, ⟨s.used, next⟩⟩) offersAllocator_spec H.tree hI H.used
      hv hn
      hsmall hhuge (leafOk_pagingEntry hphys hflags (leafPath_length virt isHuge)) with
        ⟨m₁, T₁, new, hr, -⟩ | ⟨hleft, -⟩
    · exact Option.isSome_of_eq_some hr
    · exact absurd (hnext _ _ _ _ _ rfl) (Nat.not_le.mpr hleft)
  | unmap virt isHuge freePhysical =>
    obtain ⟨m₁, hr, -⟩ := pagingUnmapPage_spec (A := offersAllocator)
      (m := ⟨s.mem, ⟨s.used, []⟩⟩) H.tree hv hn hsmall hhuge freePhysical
    exact Option.isSome_of_eq_some hr

theorem leafRights_eq (flags : Nat) : leafRights flags = rights flags := by
  simp only [leafRights, walkRights, List.all_cons, List.all_nil, Bool.and_true, rights]

/-- An entry that stands for a page holds its frame, and gives the rights of its flags. -/
theorem mapEntry_some {frame flags : Nat} (h : ValueOk isHuge (frame, flags)) :
    mapEntry isHuge (some (frame, flags)) ≠ 0 ∧ pagingAlignPhys frame isHuge = frame ∧
      leafRights (mapEntry isHuge (some (frame, flags))) = rights flags := by
  obtain ⟨hmod, hlt, -⟩ := h
  refine ⟨ne_zero_of_testBit (pagingEntry_present hlt), ?_, ?_⟩
  · rw [pagingAlignPhys_eq, hmod, Nat.sub_zero]
  · exact (leafRights_pagingEntry hlt).trans (leafRights_eq flags)

theorem pageWalk_eq (H : Rel slotHuge root T leaf s M) (virt : Nat) :
    pageWalk s.mem root virt = M.translate virt := by
  by_cases hcanon : Canonical virt
  · have hhuge : leaf (leafPath virt true) = mapEntry true (M.huge (virt / 2 ^ 21)) :=
      H.leaves virt hcanon true
    have hsmall : leaf (leafPath virt false) = mapEntry false (M.small (virt / 2 ^ 12)) :=
      H.leaves virt hcanon false
    rw [H.tree.pageWalk_eq (Nat.mod_lt _ (by decide)) hcanon, leafWalk, hhuge, hsmall, translate]
    cases hM : M.huge (virt / 2 ^ 21) with
    | some value =>
      have hok := (H.values true _ value hM).1
      obtain ⟨hne, haddr, hrights⟩ := mapEntry_some hok
      have hframe := (pagingEntry_huge hok.2.1 hok.2.2).1
      rw [haddr] at hframe
      rw [if_pos hne, hrights, mapEntry, Option.elim_some, hframe]
    | none =>
      rw [if_neg (fun h => h rfl)]
      cases hM' : M.small (virt / 2 ^ 12) with
      | none => rw [if_neg (fun h => h rfl), Option.map_none]
      | some value =>
        have hok := (H.values false _ value hM').1
        obtain ⟨hne, haddr, hrights⟩ := mapEntry_some hok
        have hframe := @pagingEntry_and_addrMask _ _ false hok.2.1 hok.2.2
        rw [haddr] at hframe
        rw [if_pos hne, hrights, mapEntry, Option.elim_some, hframe, Option.map_some]
  · -- only pages of canonical addresses are mapped
    have hnone (isHuge : Bool) : M.get isHuge (pageNumber virt isHuge) = none := by
      cases hget : M.get isHuge (pageNumber virt isHuge) with
      | none => rfl
      | some value =>
        obtain ⟨-, w, hw, hk, -⟩ := H.values isHuge _ value hget
        have hslot := slot_of_pageNumber hk
        simp only [Canonical] at hcanon hw
        omega
    have hhuge : M.huge (virt / 2 ^ 21) = none := hnone true
    have hsmall : M.small (virt / 2 ^ 12) = none := hnone false
    simp only [pageWalk, if_pos hcanon, translate, hhuge, hsmall, Option.map_none]

/-- A zeroed root is the empty map. -/
theorem init {mem : Nat → Nat} (hroot : IsFrame root)
    (hzero : ∀ i < 512, mem (entryAddr root i) = 0) :
    Rel slotHuge root (fun p => if p = [] then some root else none) (fun _ => 0) ⟨mem, [root]⟩
      empty := by
  refine ⟨.empty (Nat.le_refl 512) hroot hzero, fun p f h => ?_, fun v _ isHuge => ?_,
    fun isHuge k value h => ?_, fun v _ _ => rfl⟩
  · obtain ⟨-, h⟩ := Option.ite_none_right_eq_some.mp h
    rw [← Option.some.inj h]
    exact List.mem_cons_self
  · cases isHuge with
    | true => rfl
    | false => rfl
  · cases isHuge with
    | true => cases h
    | false => cases h

end PageMap.Rel

/-- The slot of 2 MiB is used with pages of one size. -/
def PagingOp.SameSize (op op' : PagingOp) : Prop :=
  op.virt / 2 ^ 21 = op'.virt / 2 ^ 21 → op.isHuge = op'.isHuge

instance (op op' : PagingOp) : Decidable (op.SameSize op') := inferInstanceAs (Decidable (_ → _))

/-- The slots can be divided between the sizes, with any size for a slot that no call uses with the
other one. -/
theorem PagingOp.exists_slotHuge {ops : List PagingOp} {virt : Nat} {isHuge : Bool}
    (hsizes : ∀ op ∈ ops, ∀ op' ∈ ops, op.SameSize op')
    (hsame : ∀ op ∈ ops, op.virt / 2 ^ 21 = virt / 2 ^ 21 → op.isHuge = isHuge) :
    ∃ slotHuge : Nat → Bool, (∀ op ∈ ops, slotHuge (op.virt / 2 ^ 21) = op.isHuge) ∧
      slotHuge (virt / 2 ^ 21) = isHuge := by
  refine ⟨Function.update (fun slot => ops.any fun op => op.virt / 2 ^ 21 = slot ∧ op.isHuge = true)
    (virt / 2 ^ 21) isHuge, fun op' hop' => ?_, Function.update_self ..⟩
  by_cases hslot : op'.virt / 2 ^ 21 = virt / 2 ^ 21
  · rw [hslot, Function.update_self]
    exact (hsame op' hop' hslot).symm
  · rw [Function.update_of_ne hslot, Bool.eq_iff_iff, List.any_eq_true]
    simp only [decide_eq_true_iff]
    refine ⟨fun ⟨op, hop, heq, hhuge⟩ => ?_, fun hhuge => ⟨op', hop', rfl, hhuge⟩⟩
    rw [← hsizes op hop op' hop' heq, hhuge]

/-- From a zeroed root, the walk of the processor is the translation of the abstract map after any
sequence of calls that uses no slot with both page sizes; and a further such call returns, if the
allocator has three frames left. -/
theorem pagingRun_refines {root : Nat} {mem : Nat → Nat} {ops : List PagingOp} {s : PagingSys}
    (hroot : IsFrame root) (hzero : ∀ i < 512, mem (entryAddr root i) = 0)
    (hsizes : ∀ op ∈ ops, ∀ op' ∈ ops, op.SameSize op')
    (hrun : runFrom (pagingStep root) ⟨mem, [root]⟩ ops = some s) :
    (∀ virt, pageWalk s.mem root virt = (ops.foldl PageMap.step PageMap.empty).translate virt) ∧
      ∀ op, op.Valid s → (∀ op' ∈ ops, op.SameSize op') →
        (∀ virt phys flags isHuge next, op = .map virt phys flags isHuge next → 3 ≤ next.length) →
        (pagingStep root s op).isSome := by
  have hsim (slotHuge : Nat → Bool) (hslots : ∀ op ∈ ops, slotHuge (op.virt / 2 ^ 21) = op.isHuge) :
      ∃ T leaf, PageMap.Rel slotHuge root T leaf s (ops.foldl PageMap.step PageMap.empty) := by
    obtain ⟨T, leaf, H, -⟩ := (PageMap.Rel.init hroot hzero).run hslots hrun
    exact ⟨T, leaf, H⟩
  constructor
  · cases ops with
    | nil =>
      obtain ⟨T, leaf, H⟩ := hsim (fun _ => false) nofun
      exact H.pageWalk_eq
    | cons op ops =>
      obtain ⟨slotHuge, hslots, -⟩ := PagingOp.exists_slotHuge hsizes
        fun op' hop' => hsizes op' hop' op List.mem_cons_self
      obtain ⟨T, leaf, H⟩ := hsim slotHuge hslots
      exact H.pageWalk_eq
  · intro op hvalid hsame hnext
    obtain ⟨slotHuge, hslots, hslot⟩ := PagingOp.exists_slotHuge hsizes
      fun op' hop' h => (hsame op' hop' h.symm).symm
    obtain ⟨T, leaf, H⟩ := hsim slotHuge hslots
    exact H.step_isSome hvalid hslot hnext

/-- A page, a huge page in another slot, a second frame for the page, and the page taken away. -/
def fourCalls : List PagingOp :=
  [.map 0x400123 0x7008 (pteFlagRw ||| pteFlagUs) false [0x2000, 0x3000, 0x4000],
    .map 0xFFFF800000000000 0x5FFFFF pteFlagNoExec true [0x5000, 0x6000, 0x7000],
    .map 0x400000 0x8000 pteFlagNoExec false [],
    .unmap 0x400FFF false true]

theorem fourCalls_runs : (runFrom (pagingStep 0x1000) ⟨fun _ => 0, [0x1000]⟩ fourCalls).isSome := by
  decide +kernel

theorem pagingRun_refines_fourCalls :
    ∃ s, runFrom (pagingStep 0x1000) ⟨fun _ => 0, [0x1000]⟩ fourCalls =
    some s ∧ ∀ virt, pageWalk s.mem 0x1000 virt =
      (fourCalls.foldl PageMap.step PageMap.empty).translate virt := by
  refine ⟨_, (Option.some_get fourCalls_runs).symm, ?_⟩
  exact (pagingRun_refines ⟨by decide, by decide⟩ (fun _ _ => rfl) (by decide)
    (Option.some_get fourCalls_runs).symm).1

end Plos
