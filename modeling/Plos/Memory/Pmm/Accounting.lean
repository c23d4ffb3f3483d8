import Plos.Memory.Pmm.Runs

/-! The counter `used_pages`.

`pmm_free_pages` subtracts the size of the block that it puts on a list, which is larger than the
block that was freed if the coalescing loop has merged it. A free that merges nothing is exact
(`QuietFree`), every other one makes the counter drift, and no later call makes up for it: the
counter is exact in all states of a run exactly if none of its frees merges, those of `pmm_init`
included (`pmmRun_usedPages_iff`). -/

namespace Plos

/-- The number of pages of a list of blocks. -/
def blockPages (bs : List Block) : Nat := (bs.map Block.size).sum

/-- The loop of `pmm_free_pages` merges the block with nothing. -/
def QuietFree (s : Pmm) (b : Block) : Prop := b.order = pmmMaxOrder - 1 ∨ ¬ Mergeable s b

instance : Decidable (QuietFree s b) := inferInstanceAs (Decidable (_ ∨ _))

/-- The counter is the number of pages outside the free lists, which is the number of pages that
were never free and of those in held blocks. -/
def PmmSys.Exact (memmap : List MemmapEntry) (t : PmmSys) : Prop :=
  t.pmm.usedPages = t.pmm.totalPages - blockPages t.pmm.freeBlocks ∧
    t.pmm.usedPages =
      t.pmm.totalPages - blockPages (pmmInitBlocks memmap) + blockPages t.live

instance : Decidable (PmmSys.Exact memmap t) := inferInstanceAs (Decidable (_ ∧ _))

variable {s : Pmm} {b : Block}

/-! ## One free -/

theorem pmmCoalesce_order_eq (ho : b.order ≤ pmmMaxOrder - 1) :
    (pmmCoalesce (pmmMaxOrder - 1 - b.order) s b.base b.order).2.2 = b.order ↔ QuietFree s b := by
  cases hn : pmmMaxOrder - 1 - b.order with
  | zero => exact ⟨fun _ => .inl (by omega), fun _ => rfl⟩
  | succ n =>
    by_cases hm : Mergeable s b
    · rw [pmmCoalesce_of_mergeable hm]
      refine ⟨fun h => ?_, fun h => ?_⟩
      · exact absurd h (Nat.lt_of_lt_of_le (Nat.lt_succ_self _) pmmCoalesce_order.1).ne'
      · rcases h with h | h
        · omega
        · exact absurd hm h
    · rw [pmmCoalesce_of_not hm]
      exact ⟨fun _ => .inr hm, fun _ => rfl⟩

/-- A free subtracts the size of the merged block. -/
theorem pmmFreeOne_usedPages (hlt : b.base < s.totalPages) (ho : b.order ≤ pmmMaxOrder - 1) :
    ∃ k, b.order ≤ k ∧ k ≤ pmmMaxOrder - 1 ∧
      (pmmFreeOne s b).usedPages = sub64 s.usedPages (2 ^ k) ∧ (k = b.order ↔ QuietFree s b) := by
  obtain ⟨h₁, h₂⟩ := @pmmCoalesce_order s (pmmMaxOrder - 1 - b.order) b.base b.order
  refine ⟨_, h₁, by omega, ?_, pmmCoalesce_order_eq ho⟩
  rw [pmmFreeOne, pmmFreePages_eq hlt]
  simp only [pmmFreeBlock, Pmm.linkPage, Pmm.setPage, pmmCoalesce_const.1, Nat.one_shiftLeft]

/-- The test of the loop does not read reference counts. -/
theorem quietFree_setRef {x n : Nat} : QuietFree (s.setRef x n) b ↔ QuietFree s b := by
  have hpage : isPageFree ((s.setRef x n).buddyMemmap b.buddy.base) =
        isPageFree (s.buddyMemmap b.buddy.base) ∧
      ((s.setRef x n).buddyMemmap b.buddy.base).order = (s.buddyMemmap b.buddy.base).order := by
    by_cases hx : b.buddy.base = x
    · simp [Pmm.setRef, Pmm.setPage, hx, isPageFree]
    · simp [Pmm.setRef, Pmm.setPage, hx]
  have htot : (s.setRef x n).totalPages = s.totalPages := rfl
  simp only [QuietFree, Mergeable, hpage, htot]

/-! ## The frees of `pmm_init` -/

theorem sub64_add {a c : Nat} (hc : c ≤ 2 ^ 64) : (sub64 a c + c) % 2 ^ 64 = a % 2 ^ 64 := by
  simp only [subW]
  omega

theorem foldl_pmmFreeOne_totalPages (bs : List Block) (s : Pmm) :
    (bs.foldl pmmFreeOne s).totalPages = s.totalPages := by
  induction bs generalizing s with
  | nil => rfl
  | cons b bs ih => exact (ih _).trans (pmmFreePages_totalPages _ _ _)

theorem length_le_blockPages (bs : List Block) : bs.length ≤ blockPages bs := by
  induction bs with
  | nil => rfl
  | cons b bs ih =>
    have hpos : 0 < b.size := Nat.two_pow_pos _
    simp only [blockPages, List.map_cons, List.sum_cons, List.length_cons] at ih ⊢
    omega

/-- A sequence of frees: the counter drops by the pages of the blocks and by a drift, which is
zero exactly if no free merges. -/
theorem freeAll_usedPages {bs : List Block} (hs : s.usedPages < 2 ^ 64)
    (hbs : ∀ b ∈ bs, b.base < s.totalPages ∧ b.order ≤ pmmMaxOrder - 1) :
    (bs.foldl pmmFreeOne s).usedPages < 2 ^ 64 ∧ ∃ drift ≤ 2 ^ 10 * bs.length,
      ((bs.foldl pmmFreeOne s).usedPages + (blockPages bs + drift)) % 2 ^ 64 = s.usedPages ∧
        (drift = 0 ↔ AllSteps (fun s b => some (pmmFreeOne s b)) QuietFree s bs) := by
  induction bs generalizing s with
  | nil => exact ⟨hs, 0, le_rfl, Nat.mod_eq_of_lt hs, by simp [AllSteps]⟩
  | cons b bs ih =>
    obtain ⟨⟨hlt, ho⟩, hrest⟩ := List.forall_mem_cons.mp hbs
    obtain ⟨k, hk, hk', hused, hquiet⟩ := pmmFreeOne_usedPages hlt ho
    have hlt' : (pmmFreeOne s b).usedPages < 2 ^ 64 := by
      rw [hused]
      exact Nat.mod_lt _ (by decide)
    obtain ⟨hu, d, hd, hsum, hzero⟩ := ih hlt' fun c hc => by
      rw [pmmFreeOne, pmmFreePages_totalPages]
      exact hrest c hc
    have hpos := Nat.two_pow_pos b.order
    have hpow : 2 ^ b.order ≤ 2 ^ k := Nat.pow_le_pow_right (by decide) hk
    have hpow' : 2 ^ k ≤ 2 ^ 10 := Nat.pow_le_pow_right (by decide) hk'
    have hsub := sub64_add (a := s.usedPages) (c := 2 ^ k) (by omega)
    refine ⟨hu, 2 ^ k - 2 ^ b.order + d, by rw [List.length_cons]; omega, ?_, ?_⟩
    · have hpages : blockPages (b :: bs) = 2 ^ b.order + blockPages bs := rfl
      rw [List.foldl_cons, hpages]
      rw [← hused] at hsub
      omega
    · have hk2 : 2 ^ k - 2 ^ b.order = 0 ↔ k = b.order := by
        rw [Nat.sub_eq_zero_iff_le, Nat.pow_le_pow_iff_right (by decide)]
        omega
      rw [Nat.add_eq_zero_iff, hk2, hquiet, hzero]
      rfl

/-! ## Whole runs -/

variable {memmap : List MemmapEntry} {ops : List PmmOp}

namespace PmmSys

variable {U : Set Nat} {t t' : PmmSys} {op : PmmOp}

theorem Inv.sum_blocks (H : t.Inv U) :
    blockPages t.live + blockPages t.pmm.freeBlocks = U.ncard := by
  have := H.blocks.sum_size
  rwa [List.map_append, List.sum_append] at this

theorem Inv.ncard_le (H : t.Inv U) : U.ncard ≤ t.pmm.totalPages := by
  rw [← H.blocks.sum_size]
  exact H.blocks.sum_size_le

/-- The counter agrees with the number of held pages. -/
def Balanced (U : Set Nat) (t : PmmSys) : Prop :=
  t.pmm.usedPages + U.ncard = t.pmm.totalPages + blockPages t.live

theorem Inv.exact_iff (H : t.Inv (pmmInitPages memmap)) (Hm : MemmapOk memmap) :
    t.Exact memmap ↔ t.Balanced (pmmInitPages memmap) := by
  have hinit : blockPages (pmmInitBlocks memmap) = (pmmInitPages memmap).ncard :=
    Hm.carvable.initBlocks_tiling.sum_size
  have hsum := H.sum_blocks
  have hle := H.ncard_le
  simp only [Exact, Balanced, hinit]
  omega

/-- One call keeps the counter right exactly if it frees nothing or frees without merging. -/
theorem Inv.balanced_step (H : t.Inv U) (hb : t.Balanced U) (h : t.step op = some t') :
    t'.Balanced U ↔ ∀ b ∈ op.freed t.pmm, QuietFree t.pmm b := by
  have H' := H.step h
  have hsum' := H'.sum_blocks
  have hle := H.ncard_le
  have htot := H.total_lt
  unfold Balanced at hb ⊢
  cases H.effect h with
  | fail hf => simp [hf, hb]
  | ref n hf hbl => simpa [hf, Pmm.setRef, Pmm.setPage] using hb
  | @alloc s phys order b hf ha =>
    have hpages : blockPages (b :: t.live) = 2 ^ order + blockPages t.live := by
      rw [← ha.order_eq]
      rfl
    have hused := ha.usedPages
    have htotal := ha.totalPages
    simp only [Nat.one_shiftLeft] at hused htotal
    simp only [hpages] at hsum'
    rw [add64_of_lt (by omega)] at hused
    simp only [hf, Option.mem_def, reduceCtorEq, false_implies, implies_true, iff_true, hpages,
      hused, htotal]
    omega
  | @free b n hf hbl =>
    have ho : b.order ≤ pmmMaxOrder - 1 :=
      H.blocks.order_le b (List.mem_append_left _ hbl)
    obtain ⟨k, hk, hk', hused, hquiet⟩ :=
      pmmFreeOne_usedPages (s := t.pmm.setRef b.base n) (H.live_lt hbl) ho
    have hpages : blockPages t.live = 2 ^ b.order + blockPages (t.live.erase b) :=
      ((List.perm_cons_erase hbl).map Block.size).sum_eq
    have hsum := H.sum_blocks
    have hpos := Nat.two_pow_pos b.order
    have hpow : 2 ^ b.order ≤ 2 ^ k := Nat.pow_le_pow_right (by decide) hk
    have hpow' : 2 ^ k ≤ 2 ^ 10 := Nat.pow_le_pow_right (by decide) hk'
    have hsub := sub64_add (a := t.pmm.usedPages) (c := 2 ^ k) (by omega)
    have hlt : sub64 t.pmm.usedPages (2 ^ k) < 2 ^ 64 := Nat.mod_lt _ (by decide)
    have hk2 : 2 ^ k = 2 ^ b.order ↔ k = b.order := Nat.pow_right_inj (by decide)
    have htotal : (pmmFreeOne (t.pmm.setRef b.base n) b).totalPages = t.pmm.totalPages :=
      pmmFreePages_totalPages _ _ _
    have hset : (t.pmm.setRef b.base n).usedPages = t.pmm.usedPages := rfl
    simp only [hf, Option.mem_def, Option.some.injEq, forall_eq', ← quietFree_setRef (s := t.pmm)
      (x := b.base) (n := n), ← hquiet, ← hk2, hused, htotal, hset]
    omega

end PmmSys

/-- `pmm_init` leaves the counter right exactly if none of its frees merges. -/
theorem MemmapOk.balanced_init (H : MemmapOk memmap) (hs : pmmInit memmap = some s) :
    PmmSys.Balanced (pmmInitPages memmap) ⟨s, []⟩ ↔
      AllSteps (fun s b => some (pmmFreeOne s b)) QuietFree
        (pmmReserved (pmmTotalPages (pmmHighestAddr memmap)) (pmmHighestAddr memmap))
        (pmmInitBlocks memmap) := by
  have htile := H.carvable.initBlocks_tiling
  have hhigh := pmmHighestAddr_lt memmap
  rw [pmmInit_eq] at hs
  obtain ⟨_, -, rfl⟩ := Option.map_eq_some_iff.mp hs
  generalize pmmHighestAddr memmap = high at *
  have hpages : blockPages (pmmInitBlocks memmap) = (pmmInitPages memmap).ncard := htile.sum_size
  have hle : blockPages (pmmInitBlocks memmap) ≤ pmmTotalPages high := htile.sum_size_le
  have hlen : (pmmInitBlocks memmap).length ≤ blockPages (pmmInitBlocks memmap) :=
    length_le_blockPages _
  have htotal : pmmTotalPages high ≤ 2 ^ 52 := by
    simp only [pmmTotalPages, pmmPageSize]
    split <;> omega
  obtain ⟨hu, d, hd, hsum, hzero⟩ := @freeAll_usedPages (pmmReserved (pmmTotalPages high) high)
    (pmmInitBlocks memmap) (by simp only [pmmReserved]; omega) fun b hb =>
      ⟨htile.lt_of_covers hb Block.covers_base, htile.order_le b hb⟩
  simp only [← hzero, PmmSys.Balanced, foldl_pmmFreeOne_totalPages, ← hpages]
  simp only [pmmReserved] at hsum hu ⊢
  have hnil : blockPages [] = 0 := rfl
  omega

/-- The counter is exact in every state of a run exactly if no free of the run merges its block
with a free buddy, neither in `pmm_init` nor later. -/
theorem pmmRun_usedPages_iff (H : MemmapOk memmap) (hs : pmmInit memmap = some s) :
    Along PmmSys.step (PmmSys.Exact memmap) ⟨s, []⟩ ops ↔
      AllSteps (fun s b => some (pmmFreeOne s b)) QuietFree
          (pmmReserved (pmmTotalPages (pmmHighestAddr memmap)) (pmmHighestAddr memmap))
          (pmmInitBlocks memmap) ∧
        AllSteps PmmSys.step (fun t op => ∀ b ∈ op.freed t.pmm, QuietFree t.pmm b)
          ⟨s, []⟩ ops := by
  rw [← H.balanced_init hs, ← (H.inv hs).exact_iff H]
  refine along_iff_allSteps (fun _ _ _ Ht _ h _ => Ht.step h) (fun t op t' Ht he h => ?_) (H.inv hs)
  rw [(Ht.step h).exact_iff H]
  exact Ht.balanced_step ((Ht.exact_iff H).mp he) h

theorem pmmRun_usedPages_iff_small :
    ∃ s, pmmInit smallMemmap = some s ∧
      Along PmmSys.step (PmmSys.Exact smallMemmap) ⟨s, []⟩ [.alloc 0, .alloc 3, .free ⟨1, 0⟩] := by
  refine ⟨_, (Option.some_get pmmInit_small).symm, ?_⟩
  exact (pmmRun_usedPages_iff smallMemmap_ok (Option.some_get pmmInit_small).symm).mpr
    ⟨by decide +kernel, by decide +kernel⟩

/-- The calls that make the counter of the small map wrap: while page 1 is held, each round splits
the block at page 24 and merges it again, and loses one page. -/
def driftOps : List PmmOp :=
  .alloc 0 :: (List.replicate 5 [.alloc 0, .free ⟨24, 0⟩]).flatten

theorem pmmRun_driftOps : (pmmRun smallMemmap driftOps).isSome := by decide +kernel

theorem pmmRun_usedPages_wraps : MemmapOk smallMemmap ∧ ∃ t,
    pmmRun smallMemmap driftOps = some t ∧ t.live = [⟨1, 0⟩] ∧
      t.pmm.totalPages = 26 ∧ blockPages t.pmm.freeBlocks = 22 ∧
        t.pmm.usedPages = 2 ^ 64 - 1 ∧ ¬ t.Exact smallMemmap := by
  exact ⟨smallMemmap_ok, _, (Option.some_get pmmRun_driftOps).symm, by decide +kernel,
    by decide +kernel, by decide +kernel, by decide +kernel, by decide +kernel⟩

end Plos
