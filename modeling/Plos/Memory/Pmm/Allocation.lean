import Mathlib.Order.Bounds.Basic
import Plos.Memory.Pmm.Runs

/-! Allocation by size: `pmm_alloc` and `pmm_free`.

The rounding of a size gives the least order whose blocks are large enough. An allocation fails only
if no aligned run of that many pages is free: the free blocks are the maximal ones of the free
pages, so an aligned run of free pages lies inside one of them, and the block's list is not
empty. -/

namespace Plos

/-! ## Sizes and orders -/

/-- The loop stops at the first order that is large enough, if its bound allows. -/
theorem pmmOrderLoop_isLeast {n order pagesNeeded : Nat} (hbelow : ∀ j < order, 2 ^ j < pagesNeeded)
    (hn : pagesNeeded ≤ 2 ^ (order + n)) :
    IsLeast {k | pagesNeeded ≤ 2 ^ k} (pmmOrderLoop n order pagesNeeded) := by
  have hleast {m : Nat} (hm : ∀ j < m, 2 ^ j < pagesNeeded) :
      m ∈ lowerBounds {k | pagesNeeded ≤ 2 ^ k} := by
    intro k hk
    exact Nat.le_of_not_lt fun hlt => absurd hk (Nat.not_le_of_lt (hm k hlt))
  induction n generalizing order with
  | zero => exact ⟨hn, hleast hbelow⟩
  | succ n ih =>
    rw [pmmOrderLoop, Nat.one_shiftLeft]
    split
    · next hlt =>
      refine ih (fun j hj => ?_) (by rwa [Nat.add_right_comm])
      rcases Nat.lt_succ_iff_lt_or_eq.mp hj with hj | rfl
      · exact hbelow j hj
      · exact hlt
    · next hge => exact ⟨Nat.le_of_not_lt hge, hleast hbelow⟩

/-- The order of a size is the least one whose blocks hold it. -/
theorem pmmGetOrderFromSize_isLeast {size : Nat} (h : size < 2 ^ 64) :
    IsLeast {k | size ≤ 2 ^ k * pmmPageSize} (pmmGetOrderFromSize size) := by
  have hpages : ∀ pagesNeeded, pagesNeeded =
      (if size % pmmPageSize ≠ 0 then size / pmmPageSize + 1 else size / pmmPageSize) →
      pagesNeeded ≤ 2 ^ 52 ∧ ∀ n, pagesNeeded ≤ n ↔ size ≤ n * pmmPageSize := by
    intro pagesNeeded hp
    simp only [pmmPageSize] at *
    split at hp
    · exact ⟨by omega, fun n => by omega⟩
    · exact ⟨by omega, fun n => by omega⟩
  obtain ⟨hle, hiff⟩ := hpages _ rfl
  have hset : {k | size ≤ 2 ^ k * pmmPageSize} = {k | (if size % pmmPageSize ≠ 0 then
      size / pmmPageSize + 1 else size / pmmPageSize) ≤ 2 ^ k} := by
    ext k
    exact (hiff (2 ^ k)).symm
  rw [hset]
  exact pmmOrderLoop_isLeast nofun (Nat.le_trans hle (Nat.pow_le_pow_right (by decide) (by decide)))

/-- Both tests for an order that is too large have the same effect. -/
theorem pmmAlloc_eq (s : Pmm) (size : Nat) :
    pmmAlloc s size = pmmAllocPages s (pmmGetOrderFromSize size) := by
  simp only [pmmAlloc]
  split
  · next h => rw [pmmAllocPages, if_pos h]
  · rfl

/-! ## Free pages -/

namespace PmmSys

variable {U : Set Nat} {t : PmmSys} {s : Pmm} {live : List Block} {b : Block} {order : Nat}

/-- An allocated block takes its pages from the free ones. -/
theorem Inv.freePages_alloc (H : t.Inv U) (H' : Inv U ⟨s, b :: t.live⟩) :
    s.freePages = t.pmm.freePages \ {x | b.Covers x} := by
  ext x
  rw [Set.mem_sdiff, H.mem_freePages, H'.mem_freePages, List.forall_mem_cons, Set.mem_ofPred_eq]
  tauto

/-- The pages of a block that is freed join the free ones. -/
theorem Inv.freePages_free (H : t.Inv U) (hb : b ∈ t.live) (H' : Inv U ⟨s, t.live.erase b⟩) :
    s.freePages = t.pmm.freePages ∪ {x | b.Covers x} := by
  ext x
  have hnd : t.live.Nodup := (List.nodup_append.mp H.blocks.nodup).1
  rw [Set.mem_union, H.mem_freePages, H'.mem_freePages, Set.mem_ofPred_eq]
  have hcov (hx : b.Covers x) : x ∈ U ∧ ∀ c ∈ t.live.erase b, ¬ c.Covers x := by
    have hmem {c : Block} (hc : c ∈ t.live) : c ∈ t.live ++ t.pmm.freeBlocks :=
      List.mem_append_left _ hc
    refine ⟨H.blocks.covers_mem (hmem hb) hx, fun c hc hcx => ?_⟩
    obtain ⟨hne, hc⟩ := (List.Nodup.mem_erase_iff hnd).mp hc
    exact hne (H.blocks.eq_of_covers (hmem hc) (hmem hb) hcx hx)
  constructor
  · intro ⟨hU, hlive⟩
    by_cases hx : b.Covers x
    · exact .inr hx
    · refine .inl ⟨hU, fun c hc => ?_⟩
      rcases eq_or_ne c b with rfl | hne
      · exact hx
      · exact hlive c ((List.Nodup.mem_erase_iff hnd).mpr ⟨hne, hc⟩)
  · rintro (⟨hU, hlive⟩ | hx)
    · exact ⟨hU, fun c hc => hlive c (List.mem_of_mem_erase hc)⟩
    · exact hcov hx

/-- If the lists from an order on are empty, no aligned run of that many pages is free. -/
theorem Inv.no_run (H : t.Inv U) (ho : order < pmmMaxOrder)
    (h : ∀ k < pmmMaxOrder, order ≤ k → t.pmm.freeList k = []) (p : Nat) (hp : 2 ^ order ∣ p) :
    ¬ ∀ x, (⟨p, order⟩ : Block).Covers x → x ∈ t.pmm.freePages := by
  intro hfree
  -- the run lies inside one free block, which is at least as large
  obtain ⟨b, hb, hcov⟩ :=
    Decomposition.exists_covering (D := H.decomposition) (Nat.le_of_lt_succ ho) hp hfree
  obtain ⟨hlt, hmem⟩ := mem_freeBlocks.mp hb
  rw [h b.order hlt (Block.order_le_of_covers hcov)] at hmem
  cases hmem

end PmmSys

variable {memmap : List MemmapEntry} {ops : List PmmOp} {t : PmmSys}

/-- Allocation is complete and sized: for every size and the least order `k` whose blocks hold it,
`pmm_alloc` fails exactly if `k` is too large or no aligned run of `2 ^ k` pages is free, and then
it changes nothing. Otherwise it returns a block of `2 ^ k` free pages, which are no longer free,
and `pmm_free` with the same size, in any later state in which the block is held, makes exactly
these pages free again. -/
theorem pmmAlloc_complete {size k : Nat} (H : MemmapOk memmap) (h : pmmRun memmap ops = some t)
    (hsize : size < 2 ^ 64) (hk : IsLeast {k | size ≤ 2 ^ k * pmmPageSize} k) :
    ((pmmAlloc t.pmm size).2 = 0 ↔ pmmMaxOrder ≤ k ∨
      ¬ ∃ p, 2 ^ k ∣ p ∧ ∀ x, (⟨p, k⟩ : Block).Covers x → x ∈ t.pmm.freePages) ∧
    ((pmmAlloc t.pmm size).2 = 0 → (pmmAlloc t.pmm size).1 = t.pmm) ∧
    ((pmmAlloc t.pmm size).2 ≠ 0 → ∃ p, (pmmAlloc t.pmm size).2 = p * pmmPageSize ∧ 2 ^ k ∣ p ∧
      (∀ x, (⟨p, k⟩ : Block).Covers x → x ∈ t.pmm.freePages) ∧
      (pmmAlloc t.pmm size).1.freePages = t.pmm.freePages \ {x | (⟨p, k⟩ : Block).Covers x} ∧
      ∀ ops' t', runFrom PmmSys.step ⟨(pmmAlloc t.pmm size).1, ⟨p, k⟩ :: t.live⟩ ops' = some t' →
        ⟨p, k⟩ ∈ t'.live → (pmmFree t'.pmm (p * pmmPageSize) size).freePages =
          t'.pmm.freePages ∪ {x | (⟨p, k⟩ : Block).Covers x}) := by
  have Hinv := H.run_inv h
  obtain rfl : k = pmmGetOrderFromSize size := hk.unique (pmmGetOrderFromSize_isLeast hsize)
  rw [pmmAlloc_eq]
  rcases Hinv.allocPages (pmmGetOrderFromSize size) with ⟨hr, hempty⟩ | ⟨b, hb⟩
  · rw [hr]
    refine ⟨iff_of_true rfl ?_, fun _ => rfl, fun hne => absurd rfl hne⟩
    rcases Nat.lt_or_ge (pmmGetOrderFromSize size) pmmMaxOrder with hlt | hge
    · exact .inr fun ⟨p, hp, hfree⟩ => Hinv.no_run hlt hempty p hp hfree
    · exact .inl hge
  · have hne : (pmmAllocPages t.pmm (pmmGetOrderFromSize size)).2 ≠ 0 := by
      rw [hb.phys_eq]
      exact Nat.mul_ne_zero hb.base_pos.ne' (by decide)
    have hblock : b = ⟨b.base, pmmGetOrderFromSize size⟩ := by rw [← hb.order_eq]
    obtain ⟨seq, hinv⟩ := hb.inv
    have Hinv' : PmmSys.Inv _ ⟨_, b :: t.live⟩ := hinv.canonical
    have hlt : pmmGetOrderFromSize size < pmmMaxOrder := by
      rw [← hb.order_eq]
      exact Nat.lt_succ_of_le (Hinv'.blocks.order_le b (by simp))
    have hal : 2 ^ pmmGetOrderFromSize size ∣ b.base := by
      rw [← hb.order_eq]
      exact Hinv'.blocks.aligned b (by simp)
    have hfree : ∀ x, b.Covers x → x ∈ t.pmm.freePages := by
      intro x hx
      refine Hinv.mem_freePages.mpr
        ⟨Hinv'.blocks.covers_mem (b := b) (by simp) hx, fun c hc hcx => ?_⟩
      have hdis := (List.pairwise_cons.mp Hinv'.blocks.disjoint).1 c (List.mem_append_left _ hc)
      exact hdis x hx hcx
    rw [hblock] at hfree Hinv'
    refine ⟨iff_of_false hne ?_, fun h0 => absurd h0 hne, fun _ =>
      ⟨b.base, hb.phys_eq, hal, hfree, ?_, ?_⟩⟩
    · rintro (hge | hno)
      · exact absurd hlt (Nat.not_lt_of_le hge)
      · exact hno ⟨b.base, hal, hfree⟩
    · exact Hinv.freePages_alloc Hinv'
    · intro ops' t' hrun hmem
      have Ht' : t'.Inv _ := runFrom_induction (fun _ _ _ => PmmSys.Inv.step) Hinv' hrun
      have hstep : t'.step (.free ⟨b.base, pmmGetOrderFromSize size⟩) = some ⟨_, _⟩ := if_pos hmem
      exact Ht'.freePages_free hmem (Ht'.step hstep)

/-- Five pages are asked for, and a block of eight is taken. -/
theorem pmmAlloc_complete_small :
    ∃ t p, pmmRun smallMemmap [.alloc 0] = some t ∧ (pmmAlloc t.pmm 0x4001).2 = p * pmmPageSize ∧
      2 ^ 3 ∣ p ∧ (pmmAlloc t.pmm 0x4001).1.freePages =
        t.pmm.freePages \ {x | (⟨p, 3⟩ : Block).Covers x} := by
  have hrun : ((pmmRun smallMemmap [.alloc 0]).bind fun t => some (pmmAlloc t.pmm 0x4001).2) =
      some 0x10000 := by decide +kernel
  obtain ⟨t, ht, halloc⟩ := Option.bind_eq_some_iff.mp hrun
  have hne : (pmmAlloc t.pmm 0x4001).2 ≠ 0 := by
    rw [Option.some.inj halloc]
    decide
  have hk : IsLeast {k | 0x4001 ≤ 2 ^ k * pmmPageSize} 3 := pmmGetOrderFromSize_isLeast (by decide)
  obtain ⟨p, hp, hal, -, hfree, -⟩ := (pmmAlloc_complete smallMemmap_ok ht (by decide) hk).2.2 hne
  exact ⟨t, p, ht, hp, hal, hfree⟩

/-! ## Freeing with any length -/

/-- The indices at which the coalescing loop accesses `free_areas`, one for each buddy that it takes
off. -/
def pmmCoalesceAreas : Nat → Pmm → (pfn order : Nat) → List Nat
  | 0, _, _, _ => []
  | n + 1, s, pfn, order =>
    let buddyPfn := pfn ^^^ (1 <<< order)
    let buddy := s.buddyMemmap buddyPfn
    if (s.pfnToPage buddyPfn).isNone || s.totalPages ≤ buddyPfn then []
    else if !isPageFree buddy || buddy.order != order then []
    else
      let s := s.unlinkPage buddyPfn order
      let s := s.setPage buddyPfn { buddy with order := 0 }
      order :: pmmCoalesceAreas n s (if buddyPfn < pfn then buddyPfn else pfn) (order + 1)

/-- The indices at which `pmm_free_pages` accesses `free_areas`. -/
def pmmFreeAreas (s : Pmm) (phys order : Nat) : List Nat :=
  if phys % pmmPageSize ≠ 0 then []
  else match s.pfnToPage (phys / pmmPageSize) with
    | none => []
    | some pfn => pmmCoalesceAreas (pmmMaxOrder - 1 - order) s pfn order ++
        [(pmmCoalesce (pmmMaxOrder - 1 - order) s pfn order).2.2]

theorem lt_of_mem_pmmCoalesceAreas {s : Pmm} {n pfn order k : Nat}
    (hk : k ∈ pmmCoalesceAreas n s pfn order) :
    k < order + n := by
  induction n generalizing s pfn order with
  | zero => cases hk
  | succ n ih =>
    simp only [pmmCoalesceAreas] at hk
    split at hk
    · cases hk
    · split at hk
      · cases hk
      · rcases List.mem_cons.mp hk with rfl | hk
        · omega
        · have hlt := ih hk
          omega

/-- `pmm_free` stays inside of `free_areas`, and does nothing for a length that `pmm_alloc` refuses,
exactly if the length is not such a one or the address is turned down: nothing else tests the
order. -/
theorem pmmFree_confined_iff (s : Pmm) (physAddr : Nat) {length : Nat} (h : length < 2 ^ 64) :
    ((∀ k ∈ pmmFreeAreas s physAddr (pmmGetOrderFromSize length), k < pmmMaxOrder) ∧
      (pmmMaxOrder ≤ pmmGetOrderFromSize length → pmmFree s physAddr length = s)) ↔
    length ≤ 2 ^ (pmmMaxOrder - 1) * pmmPageSize ∨ physAddr % pmmPageSize ≠ 0 ∨
      s.totalPages ≤ physAddr / pmmPageSize := by
  have hallocates : length ≤ 2 ^ (pmmMaxOrder - 1) * pmmPageSize ↔
      pmmGetOrderFromSize length < pmmMaxOrder := by
    obtain ⟨hholds, hleast⟩ := pmmGetOrderFromSize_isLeast h
    constructor
    · exact fun hle => Nat.lt_succ_of_le (hleast hle)
    · intro hlt
      exact Nat.le_trans hholds
        (Nat.mul_le_mul_right _ (Nat.pow_le_pow_right (by decide) (Nat.le_of_lt_succ hlt)))
  rw [hallocates, pmmFree, pmmFreePages, pmmFreeAreas, Pmm.pfnToPage]
  by_cases hal : physAddr % pmmPageSize ≠ 0
  · simp [hal]
  · by_cases hrange : s.totalPages ≤ physAddr / pmmPageSize
    · simp [hal, hrange]
    · rw [if_neg hal, if_neg hrange]
      obtain ⟨hlow, hhigh⟩ := @pmmCoalesce_order s (pmmMaxOrder - 1 - pmmGetOrderFromSize length)
        (physAddr / pmmPageSize) (pmmGetOrderFromSize length)
      constructor
      · rintro ⟨hconfined, -⟩
        -- the last access is at the order the loop ends with, which is not below the one it starts
        -- with
        exact .inl
          (Nat.lt_of_le_of_lt hlow (hconfined _ (List.mem_append_right _ List.mem_cons_self)))
      · intro hor
        have hlt := hor.resolve_right (not_or.mpr ⟨hal, hrange⟩)
        refine ⟨fun k hk => ?_, fun hge => absurd hlt (Nat.not_lt_of_le hge)⟩
        rcases List.mem_append.mp hk with hk | hk
        · have hk := lt_of_mem_pmmCoalesceAreas hk
          omega
        · rw [List.mem_singleton.mp hk]
          omega

/-- The length of an allocated block. -/
theorem pmmFree_confined_iff_small : ∃ s, pmmInit smallMemmap = some s ∧
    (∀ k ∈ pmmFreeAreas s 0x10000 (pmmGetOrderFromSize 0x8000), k < pmmMaxOrder) ∧
      (pmmMaxOrder ≤ pmmGetOrderFromSize 0x8000 → pmmFree s 0x10000 0x8000 = s) := by
  exact ⟨_, (Option.some_get pmmInit_small).symm,
    (pmmFree_confined_iff _ 0x10000 (by decide)).mpr (.inl (by decide))⟩

/-- A length of 8 MiB, which is refused by `pmm_alloc`: the list with index 11 is accessed, and the
page is marked as free. -/
theorem pmmFree_outOfBounds : ∃ s, pmmInit smallMemmap = some s ∧ (pmmAlloc s 0x800000).2 = 0 ∧
    pmmFreeAreas s 0x8000 (pmmGetOrderFromSize 0x800000) = [11] ∧
    isPageFree (s.buddyMemmap 8) = false ∧
    isPageFree ((pmmFree s 0x8000 0x800000).buddyMemmap 8) = true := by
  exact ⟨_, (Option.some_get
    pmmInit_small).symm, by decide +kernel, by decide +kernel, by decide +kernel,
    by decide +kernel⟩

end Plos
