import Plos.Memory.Paging.Mapping
import Plos.Memory.Pmm.Accounting

/-! The physical memory manager as the allocator of single frames that paging uses.

`PmmHolds U others s held` says that the frames `held` are blocks of one page with one reference,
and that beside them the blocks `others` are allocated, out of the pages `U` that `pmm_init`
freed. -/

namespace Plos

def pmmFrames : FrameAllocator Pmm where
  alloc s := pmmAlloc s pagingPageSize
  decRef := pmmPageDecRef

/-- The block of a frame. -/
def frameBlock (f : Nat) : Block := ⟨f / pmmPageSize, 0⟩

structure PmmHolds (U : Set Nat) (others : List Block) (s : Pmm) (held : List Nat) : Prop where
  inv : PmmSys.Inv U ⟨s, held.map frameBlock ++ others⟩
  aligned : ∀ f ∈ held, f % pmmPageSize = 0
  refs : ∀ f ∈ held, (s.buddyMemmap (f / pmmPageSize)).refCount = 1
  bound : s.totalPages * pmmPageSize ≤ 2 ^ 52

/-- The number of pages on the free lists. -/
def Pmm.freeCount (s : Pmm) : Nat := blockPages s.freeBlocks

theorem Pmm.freePages_eq_empty_iff (s : Pmm) : s.freePages = ∅ ↔ s.freeCount = 0 := by
  constructor
  · intro h
    have hnil : s.freeBlocks = [] := by
      refine List.eq_nil_iff_forall_not_mem.mpr fun b hb => ?_
      exact Set.notMem_empty b.base (h ▸ ⟨b, hb, Block.covers_base⟩)
    rw [Pmm.freeCount, hnil]
    rfl
  · intro h
    have hnil : s.freeBlocks = [] :=
      List.eq_nil_of_length_eq_zero (Nat.le_zero.mp (h ▸ length_le_blockPages s.freeBlocks))
    refine Set.eq_empty_iff_forall_notMem.mpr fun x ⟨b, hb, _⟩ => ?_
    rw [hnil] at hb
    cases hb

theorem pmmAlloc_page (s : Pmm) : pmmAlloc s pagingPageSize = pmmAllocPages s 0 := rfl

theorem PmmSys.Inv.perm {U : Set Nat} {s : Pmm} {live live' : List Block}
    (H : PmmSys.Inv U ⟨s, live⟩) (h : live.Perm live') : PmmSys.Inv U ⟨s, live'⟩ :=
  { H with
    tiling := H.tiling.perm (h.append_right _)
    liveHead := fun b hb => H.liveHead b (h.mem_iff.mpr hb) }

namespace PmmHolds

variable {U : Set Nat} {others : List Block} {s : Pmm} {held held' : List Nat} {f : Nat}

theorem perm (H : PmmHolds U others s held) (h : held.Perm held') : PmmHolds U others s held' :=
  ⟨H.inv.perm ((h.map _).append_right _), fun f hf => H.aligned f (h.mem_iff.mpr hf),
    fun f hf => H.refs f (h.mem_iff.mpr hf), H.bound⟩

theorem frameBlock_mem (hf : f ∈ held) : frameBlock f ∈ held.map frameBlock ++ others :=
  List.mem_append_left _ (List.mem_map_of_mem hf)

/-- A frame that is held is a page of the allocator. -/
theorem page_mem (H : PmmHolds U others s held) (hf : f ∈ held) : f / pmmPageSize ∈ U :=
  H.inv.blocks.covers_mem (List.mem_append_left _ (frameBlock_mem hf)) Block.covers_base

/-- No frame is held twice. -/
theorem nodup (H : PmmHolds U others s held) : held.Nodup := by
  have hblocks := (List.nodup_append.mp H.inv.tiling.nodup).2.1
  rw [List.nodup_append] at hblocks
  exact List.Nodup.of_map _ (List.nodup_append.mp hblocks.1).1

theorem isFrame (H : PmmHolds U others s held) (hf : f ∈ held) : IsFrame f := by
  have hlt : f / pmmPageSize < s.totalPages := H.inv.live_lt (frameBlock_mem hf)
  have hmod := H.aligned f hf
  have hbound := H.bound
  simp only [pmmPageSize] at *
  refine ⟨hmod, ?_⟩
  omega

theorem ne_zero (H : PmmHolds U others s held) (hf : f ∈ held) : f ≠ 0 := by
  rintro rfl
  refine H.inv.tiling.not_covers_zero (b := frameBlock 0) ?_ Block.covers_base
  exact List.mem_append_right _ (List.mem_append_left _ (frameBlock_mem hf))

/-- A page is free if it is one of the allocator's pages and in no allocated block. -/
theorem mem_freePages (H : PmmHolds U others s held) {x : Nat} : x ∈ s.freePages ↔
    x ∈ U ∧ (∀ f ∈ held, f / pmmPageSize ≠ x) ∧ ∀ b ∈ others, ¬ b.Covers x := by
  have hcover (f : Nat) : (frameBlock f).Covers x ↔ f / pmmPageSize = x := by
    simp only [frameBlock, Block.Covers, Nat.pow_zero]
    omega
  have hmem := @PmmSys.Inv.mem_freePages _ _ H.inv x
  rw [List.forall_mem_append, List.forall_mem_map] at hmem
  simpa only [hcover] using hmem

/-- The frames that are no longer held are free. -/
theorem freePages_union {s' : Pmm} {l : List Nat} (H : PmmHolds U others s (l ++ held))
    (H' : PmmHolds U others s' held) :
    s'.freePages = s.freePages ∪ {x | ∃ f ∈ l, f / pmmPageSize = x} := by
  ext x
  rw [Set.mem_union, H.mem_freePages, H'.mem_freePages]
  constructor
  · intro ⟨hU, hheld, hothers⟩
    by_cases hl : ∃ f ∈ l, f / pmmPageSize = x
    · exact .inr hl
    · refine .inl ⟨hU, fun f hf => ?_, hothers⟩
      rcases List.mem_append.mp hf with hf | hf
      · exact fun h => hl ⟨f, hf, h⟩
      · exact hheld f hf
  · rintro (⟨hU, hheld, hothers⟩ | ⟨f, hf, rfl⟩)
    · exact ⟨hU, fun f hf => hheld f (List.mem_append_right _ hf), hothers⟩
    · have hmem : f ∈ l ++ held := List.mem_append_left _ hf
      have htile := H.inv.blocks.disjoint
      refine ⟨?_, fun g hg h => ?_, fun b hb => ?_⟩
      · exact H.page_mem hmem
      · -- the two frames have the same block
        have hgmem : g ∈ l ++ held := List.mem_append_right _ hg
        have hmod := H.aligned f hmem
        have hmod' := H.aligned g hgmem
        have heq : f = g := by
          simp only [pmmPageSize] at *
          omega
        exact (List.nodup_append.mp H.nodup).2.2 f hf g hg heq
      · have hdis := (List.pairwise_append.mp (List.pairwise_append.mp htile).1).2.2
        exact hdis _ (List.mem_map_of_mem hmem) b hb _ Block.covers_base

theorem freeCount_eq (H : PmmHolds U others s held) :
    held.length + blockPages others + s.freeCount = U.ncard := by
  have hsum := H.inv.sum_blocks
  have hheld : ∀ l : List Nat, blockPages (l.map frameBlock) = l.length := by
    intro l
    induction l with
    | nil => rfl
    | cons f l ih =>
      rw [List.map_cons, List.length_cons, ← ih]
      exact Nat.add_comm 1 _
  simp only [blockPages, List.map_append, List.sum_append] at hsum hheld ⊢
  rw [← hheld held]
  exact hsum

/-- Page 0 is reserved, so dropping a reference on it does nothing. -/
theorem decRef_zero (H : PmmHolds U others s held) : pmmPageDecRef s 0 = s := by
  by_cases hpages : s.totalPages ≤ 0
  · simp only [pmmPageDecRef, Pmm.pfnToPage, Nat.zero_div, if_pos hpages]
  · have hU : 0 ∉ U := by
      intro h
      obtain ⟨b, hb, hx⟩ := (H.inv.blocks.cover 0).mp h
      exact H.inv.blocks.not_covers_zero hb hx
    have hflags := H.inv.reserved 0 (Nat.lt_of_not_le hpages) hU
    have htest : ¬ (s.buddyMemmap 0).flags &&& pmmFlagUsed ≠ 0 := by
      rw [show (s.buddyMemmap 0).flags = pmmFlagReserved from hflags]
      decide
    simp only [pmmPageDecRef, Pmm.pfnToPage, Nat.zero_div, if_neg hpages, if_neg htest]

theorem frameBlock_base_mul (hf : f % pmmPageSize = 0) : (frameBlock f).base * pmmPageSize = f := by
  simp only [frameBlock, pmmPageSize] at hf ⊢
  omega

/-- Dropping the reference on a held frame frees it. -/
theorem decRef_cons (H : PmmHolds U others s (f :: held)) :
    PmmHolds U others (pmmPageDecRef s f) held := by
  have hf : f ∈ f :: held := List.mem_cons_self
  have hcount : sub32 (s.buddyMemmap (frameBlock f).base).refCount 1 = 0 := by
    rw [show (s.buddyMemmap (frameBlock f).base).refCount = 1 from H.refs f hf]
    decide
  obtain ⟨hpfn, hflag⟩ := H.inv.live_page (frameBlock_mem hf)
  have horder : (s.buddyMemmap (frameBlock f).base).order = 0 :=
    (H.inv.liveHead _ (frameBlock_mem hf)).2
  have heq : pmmPageDecRef s f = pmmFreeOne (s.setRef (frameBlock f).base 0) (frameBlock f) := by
    rw [frameBlock_base_mul (H.aligned f hf)] at hpfn
    simp only [pmmPageDecRef, hpfn, if_pos hflag, hcount, if_true, Pmm.setPage,
      Function.update_self, horder, pmmFreeOne, frameBlock_base_mul (H.aligned f hf), Pmm.setRef]
    rfl
  have hinv : BuddyInv (s.setRef (frameBlock f).base 0) s.freeList (held.map frameBlock ++ others)
      [frameBlock f] U := by
    have hrel := (BuddyInv.setRef H.inv (frameBlock f).base 0).release (frameBlock_mem hf)
    rwa [List.map_cons, List.cons_append, List.erase_cons_head] at hrel
  rw [heq]
  refine ⟨?_, fun g hg => H.aligned g (List.mem_cons_of_mem _ hg), fun g hg => ?_, ?_⟩
  · obtain ⟨seq, h⟩ := hinv.freePages
    exact h.canonical
  · have hne : (frameBlock g).base ≠ (frameBlock f).base :=
      hinv.hand_ne_live List.mem_cons_self Block.covers_base (frameBlock_mem hg)
    have hpage := hinv.freePages_page (@frameBlock_mem others held g hg)
    have hset : (s.setRef (frameBlock f).base 0).buddyMemmap (frameBlock g).base =
        s.buddyMemmap (frameBlock g).base := Function.update_of_ne hne ..
    change ((pmmFreeOne _ (frameBlock f)).buddyMemmap (frameBlock g).base).refCount = 1
    rw [pmmFreeOne, hpage, hset]
    exact H.refs g (List.mem_cons_of_mem _ hg)
  · rw [pmmFreeOne, pmmFreePages_totalPages]
    exact H.bound

/-- The allocator fails only if no page is free, and it never hands out a frame that is held. -/
theorem alloc (H : PmmHolds U others s held) :
    pmmAlloc s pagingPageSize = (s, 0) ∧ s.freeCount = 0 ∨
      ∃ s' f, pmmAlloc s pagingPageSize = (s', f) ∧ PmmHolds U others s' (f :: held) := by
  rw [pmmAlloc_page]
  rcases BuddyInv.allocPages_page H.inv 0 with ⟨hr, hempty⟩ | ⟨b, hb, hpages⟩
  · refine .inl ⟨hr, ?_⟩
    have hnil : s.freeBlocks = [] := by
      refine List.eq_nil_iff_forall_not_mem.mpr fun b hb => ?_
      obtain ⟨hlt, hmem⟩ := mem_freeBlocks.mp hb
      rw [hempty _ hlt (Nat.zero_le _)] at hmem
      cases hmem
    rw [Pmm.freeCount, hnil]
    rfl
  · refine .inr ⟨(pmmAllocPages s 0).1, (pmmAllocPages s 0).2, Prod.eta _, ?_⟩
    have hblock : frameBlock (pmmAllocPages s 0).2 = b := by
      rw [hb.phys_eq, frameBlock, Nat.mul_div_cancel _ (by decide), ← hb.order_eq]
    have hbase : (pmmAllocPages s 0).2 / pmmPageSize = b.base := congrArg Block.base hblock
    refine ⟨?_, fun g hg => ?_, fun g hg => ?_, ?_⟩
    · obtain ⟨seq, h⟩ := hb.inv
      rw [List.map_cons, hblock]
      exact h.canonical
    · rcases List.mem_cons.mp hg with rfl | hg
      · rw [hb.phys_eq]
        exact Nat.mul_mod_left _ _
      · exact H.aligned g hg
    · rcases List.mem_cons.mp hg with rfl | hg
      · rw [hbase, hb.page]
      · have hpage := hpages _ (frameBlock_mem hg)
        change ((pmmAllocPages s 0).1.buddyMemmap (frameBlock g).base).refCount = 1
        rw [hpage]
        exact H.refs g hg
    · rw [hb.totalPages]
      exact H.bound

theorem allocSpec (U : Set Nat) (others : List Block) :
    AllocSpec pmmFrames (PmmHolds U others) Pmm.freeCount := by
  refine ⟨fun {s held} H => ?_⟩
  rcases H.alloc with ⟨hr, hcount⟩ | ⟨s', f, hr, H'⟩
  · refine .inl ⟨congrArg Prod.snd hr, hcount, ?_⟩
    rw [show (pmmFrames.alloc s).1 = s from congrArg Prod.fst hr]
    exact H
  · have hs' : (pmmFrames.alloc s).1 = s' := congrArg Prod.fst hr
    have hf : (pmmFrames.alloc s).2 = f := congrArg Prod.snd hr
    rw [hs', hf]
    have hmem : f ∈ f :: held := List.mem_cons_self
    refine .inr ⟨H'.ne_zero hmem, H'.isFrame hmem, (List.nodup_cons.mp H'.nodup).1, H', ?_⟩
    have hbefore := H.freeCount_eq
    have hafter := H'.freeCount_eq
    rw [List.length_cons] at hafter
    omega

end PmmHolds

theorem MemmapOk.highestAddr_le {memmap : List MemmapEntry} (H : MemmapOk memmap) :
    pmmHighestAddr memmap ≤ 2 ^ 52 := by
  suffices ∀ acc ≤ 2 ^ 52, memmap.foldl (fun highest e =>
      if e.type.counted then add64 e.base e.length else highest) acc ≤
        2 ^ 52 from this 0 (Nat.zero_le _)
  have hphys := H.phys
  clear H
  induction memmap with
  | nil => exact fun _ h => h
  | cons e memmap ih =>
    intro acc hacc
    obtain ⟨he, hrest⟩ := List.forall_mem_cons.mp hphys
    refine ih hrest _ ?_
    beta_reduce
    split
    · next hc => exact Nat.le_trans (Nat.mod_le _ _) (he hc)
    · exact hacc

/-- After `pmm_init` no frame is held. -/
theorem MemmapOk.holds {memmap : List MemmapEntry} {s : Pmm} (H : MemmapOk memmap)
    (h : pmmInit memmap = some s) : PmmHolds (pmmInitPages memmap) [] s [] := by
  refine ⟨H.inv h, nofun, nofun, ?_⟩
  have hhigh := H.highestAddr_le
  rw [pmmInit_eq] at h
  obtain ⟨_, -, rfl⟩ := Option.map_eq_some_iff.mp h
  rw [foldl_pmmFreeOne_totalPages]
  simp only [pmmReserved, pmmTotalPages, pmmPageSize]
  split <;> omega

end Plos
