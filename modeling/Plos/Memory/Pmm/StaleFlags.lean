import Plos.Memory.Pmm.Allocation

/-! Reference operations on pages that head no allocated block.

`pmm_page_inc_ref` and `pmm_page_dec_ref` look at the flag of the one page they are given. The free
of a block marks the head of the merged block only: if the block merges with a lower buddy, its own
head page keeps `PMM_FLAG_USED` although it is free now. So the two functions ignore all pages but
the heads of the allocated blocks exactly as long as every block that is freed stays the head of
what it is merged to (`pmmRun_ignores_iff`). -/

namespace Plos

/-- The test of the functions on reference counts for a page. -/
def Pmm.UsedAt (s : Pmm) (x : Nat) : Prop :=
  x < s.totalPages ∧ (s.buddyMemmap x).flags &&& pmmFlagUsed ≠ 0

/-- The functions on reference counts change nothing at a page that heads no allocated block. -/
def PmmSys.IgnoresOthers (t : PmmSys) : Prop :=
  ∀ phys, (∀ b ∈ t.live, b.base ≠ phys / pmmPageSize) →
    pmmPageIncRef t.pmm phys = t.pmm ∧ pmmPageDecRef t.pmm phys = t.pmm

/-- The block is the lower end of every aligned run of free pages that it completes, up to the
largest size of a block. -/
def Block.StaysHead (s : Pmm) (b : Block) : Prop :=
  ∀ k < pmmMaxOrder, ∀ p, 2 ^ k ∣ p → (⟨p, k⟩ : Block).Covers b.base →
    (∀ x, (⟨p, k⟩ : Block).Covers x → x ∈ s.freePages ∨ b.Covers x) → p = b.base

/-- What a call frees stays the head of what it is merged to. -/
def PmmOp.FreesHead (t : PmmSys) (op : PmmOp) : Prop :=
  ∀ b, op.freed t.pmm = some b → b.StaysHead t.pmm

variable {s : Pmm} {b : Block} {x : Nat}

/-! ## What the functions write to the flags -/

theorem flags_free : (pmmFlagFree &&& pmmFlagUsed) = 0 := rfl

/-- Merging writes no flags. -/
theorem pmmCoalesce_flags {n pfn order : Nat} :
    ((pmmCoalesce n s pfn order).1.buddyMemmap x).flags = (s.buddyMemmap x).flags := by
  induction n generalizing s pfn order with
  | zero => rfl
  | succ n ih =>
    by_cases hm : Mergeable s ⟨pfn, order⟩
    · rw [pmmCoalesce_of_mergeable (b := ⟨pfn, order⟩) hm, ih]
      rcases eq_or_ne x (⟨pfn, order⟩ : Block).buddy.base with rfl | hne
      · simp [Pmm.setPage]
      · exact congrArg PmmPage.flags (Function.update_of_ne hne ..)
    · rw [pmmCoalesce_of_not (b := ⟨pfn, order⟩) hm]

/-- The merged block contains the block that was freed. -/
theorem pmmCoalesce_covers {n : Nat} (hb : b.Aligned) (hx : b.Covers x) :
    (⟨(pmmCoalesce n s b.base b.order).2.1, (pmmCoalesce n s b.base b.order).2.2⟩ : Block).Covers
      x := by
  induction n generalizing s b with
  | zero => exact hx
  | succ n ih =>
    by_cases hm : Mergeable s b
    · rw [pmmCoalesce_of_mergeable hm]
      exact ih hb.parent (hb.parent_covers.mpr (.inl hx))
    · rw [pmmCoalesce_of_not hm]
      exact hx

theorem pmmFreeBlock_flags {pfn order : Nat} : ((pmmFreeBlock s pfn order).buddyMemmap x).flags =
    if x = pfn then pmmFlagFree else (s.buddyMemmap x).flags := by
  split
  · next h =>
    subst h
    simp [pmmFreeBlock, Pmm.setPage, Pmm.linkPage]
  · next h => exact congrArg PmmPage.flags (Function.update_of_ne h ..)

theorem pmmFreePages_flags (s : Pmm) (phys order x : Nat) :
    ((pmmFreePages s phys order).buddyMemmap x).flags = (s.buddyMemmap x).flags ∨
      ((pmmFreePages s phys order).buddyMemmap x).flags = pmmFlagFree := by
  unfold pmmFreePages
  split
  · exact .inl rfl
  · split
    · exact .inl rfl
    · simp only [pmmFreeBlock_flags, pmmCoalesce_flags]
      split
      · exact .inr rfl
      · exact .inl rfl

theorem pmmSplit_flags {n page order : Nat} :
    ((pmmSplit n s page order).buddyMemmap x).flags = (s.buddyMemmap x).flags ∨
      ((pmmSplit n s page order).buddyMemmap x).flags = pmmFlagFree := by
  induction n generalizing s with
  | zero => exact .inl rfl
  | succ n ih =>
    rw [pmmSplit]
    rcases ih with h | h
    · rw [h]
      rcases eq_or_ne x (page ^^^ 1 <<< (order + n)) with rfl | hne
      · exact .inr (by simp [Pmm.setPage, Pmm.linkPage])
      · exact .inl (congrArg PmmPage.flags (Function.update_of_ne hne ..))
    · exact .inr h

/-- An allocation marks the head page of its block as used, and the pages it splits off as free. -/
theorem pmmAllocPages_flags {order : Nat} (hx : x * pmmPageSize ≠ (pmmAllocPages s order).2) :
    ((pmmAllocPages s order).1.buddyMemmap x).flags = (s.buddyMemmap x).flags ∨
      ((pmmAllocPages s order).1.buddyMemmap x).flags = pmmFlagFree := by
  unfold pmmAllocPages at hx ⊢
  split
  · exact .inl rfl
  · next ho =>
    rw [if_neg ho] at hx
    cases hf : pmmFindOrder (pmmMaxOrder - order) s order with
    | none => exact .inl rfl
    | some k =>
      simp only [hf] at hx ⊢
      have hne : x ≠ (s.link (.head k)).next.pfn := fun heq => hx (by rw [heq])
      simp only [Pmm.setPage, Function.update_of_ne hne]
      exact pmmSplit_flags

theorem pmmPageIncRef_flags (s : Pmm) (phys x : Nat) :
    ((pmmPageIncRef s phys).buddyMemmap x).flags = (s.buddyMemmap x).flags := by
  unfold pmmPageIncRef
  cases s.pfnToPage (phys / pmmPageSize) with
  | none => rfl
  | some pfn =>
    simp only
    split
    · rcases eq_or_ne x pfn with rfl | hne
      · simp [Pmm.setPage]
      · exact congrArg PmmPage.flags (Function.update_of_ne hne ..)
    · rfl

theorem Pmm.setRef_flags (s : Pmm) (pfn n x : Nat) :
    ((s.setRef pfn n).buddyMemmap x).flags = (s.buddyMemmap x).flags := by
  rcases eq_or_ne x pfn with rfl | hne
  · simp [Pmm.setRef, Pmm.setPage]
  · exact congrArg PmmPage.flags (Function.update_of_ne hne ..)

theorem pmmPageDecRef_flags (s : Pmm) (phys x : Nat) :
    ((pmmPageDecRef s phys).buddyMemmap x).flags = (s.buddyMemmap x).flags ∨
      ((pmmPageDecRef s phys).buddyMemmap x).flags = pmmFlagFree := by
  unfold pmmPageDecRef
  cases s.pfnToPage (phys / pmmPageSize) with
  | none => exact .inl rfl
  | some pfn =>
    have hset := s.setRef_flags pfn (sub32 (s.buddyMemmap pfn).refCount 1) x
    rw [Pmm.setRef] at hset
    simp only
    split
    · split
      · rw [← hset]
        exact pmmFreePages_flags ..
      · exact .inl hset
    · exact .inl rfl

/-! ## Pages that pass the test -/

theorem add32_one_ne (n : Nat) : add32 n 1 ≠ n := by
  simp only [add32, addW]
  omega

/-- Only the heads of the allocated blocks pass the test. -/
theorem PmmSys.ignoresOthers_iff {t : PmmSys} :
    t.IgnoresOthers ↔ ∀ x, t.pmm.UsedAt x → ∃ b ∈ t.live, b.base = x := by
  constructor
  · intro h x ⟨hlt, hused⟩
    by_contra hno
    have hphys : x * pmmPageSize / pmmPageSize = x := Nat.mul_div_cancel _ (by decide)
    have hinc := (h (x * pmmPageSize) (by rw [hphys]; exact fun b hb heq => hno ⟨b, hb, heq⟩)).1
    have hpfn : t.pmm.pfnToPage x = some x := if_neg (Nat.not_le_of_lt hlt)
    rw [pmmPageIncRef, hphys, hpfn] at hinc
    simp only [if_pos hused] at hinc
    have hcount := congrArg (fun s : Pmm => (s.buddyMemmap x).refCount) hinc
    simp only [Pmm.setPage, Function.update_self] at hcount
    exact add32_one_ne _ hcount
  · intro h phys hphys
    simp only [pmmPageIncRef, pmmPageDecRef]
    cases hpfn : t.pmm.pfnToPage (phys / pmmPageSize) with
    | none => exact ⟨rfl, rfl⟩
    | some pfn =>
      obtain ⟨hlt, hsame⟩ := Option.ite_none_left_eq_some.mp hpfn
      cases hsame
      have hno : ¬ (t.pmm.buddyMemmap (phys / pmmPageSize)).flags &&& pmmFlagUsed ≠ 0 := by
        intro hused
        obtain ⟨b, hb, heq⟩ := h _ ⟨Nat.lt_of_not_le hlt, hused⟩
        exact hphys b hb heq
      simp only [if_neg hno, and_self]

namespace PmmSys

variable {U : Set Nat} {t t' : PmmSys} {op : PmmOp}

/-- A call makes a page pass the test only by handing out its block. -/
theorem Inv.step_flags (H : t.Inv U) (h : t.step op = some t')
    (hx : (t'.pmm.buddyMemmap x).flags &&& pmmFlagUsed ≠ 0) :
    (t.pmm.buddyMemmap x).flags &&& pmmFlagUsed ≠ 0 ∨ ∃ b ∈ t'.live, b.base = x := by
  have hkeep {f f' : Nat} (hf : f' = f ∨ f' = pmmFlagFree) (hused : f' &&& pmmFlagUsed ≠ 0) :
      f &&& pmmFlagUsed ≠ 0 := by
    rcases hf with rfl | rfl
    · exact hused
    · exact absurd flags_free hused
  cases op with
  | alloc order =>
    cases h
    rcases H.allocPages order with ⟨hr, -⟩ | ⟨b, hb⟩
    · rw [hr] at hx
      exact .inl hx
    by_cases hphys : x * pmmPageSize = (pmmAllocPages t.pmm order).2
    · have hz : (pmmAllocPages t.pmm order).2 ≠ 0 := by
        rw [hb.phys_eq]
        exact Nat.mul_ne_zero hb.base_pos.ne' (by decide)
      refine .inr ⟨⟨(pmmAllocPages t.pmm order).2 / pmmPageSize, order⟩, ?_, ?_⟩
      · simp only [if_neg hz]
        exact List.mem_cons_self
      · simp only [← hphys]
        exact Nat.mul_div_cancel _ (by decide)
    · exact .inl (hkeep (pmmAllocPages_flags hphys) hx)
  | free b =>
    obtain ⟨-, ⟨⟩⟩ := Option.ite_none_right_eq_some.mp h
    exact .inl (hkeep (pmmFreePages_flags ..) hx)
  | incRef b =>
    obtain ⟨-, ⟨⟩⟩ := Option.ite_none_right_eq_some.mp h
    exact .inl (hkeep (.inl (pmmPageIncRef_flags ..)) hx)
  | decRef b =>
    obtain ⟨-, ⟨⟩⟩ := Option.ite_none_right_eq_some.mp h
    exact .inl (hkeep (pmmPageDecRef_flags ..) hx)

theorem Effect.totalPages (h : t.Effect U op t') : t'.pmm.totalPages = t.pmm.totalPages := by
  cases h with
  | fail => rfl
  | alloc _ ha => exact ha.totalPages
  | ref => rfl
  | free n => exact pmmFreePages_totalPages ..

/-- A call that frees nothing keeps the allocated blocks. -/
theorem Effect.live_subset (h : t.Effect U op t') (hf : op.freed t.pmm = none) :
    t.live ⊆ t'.live := by
  cases h with
  | fail => exact List.Subset.refl _
  | alloc _ ha => exact List.subset_cons_self _ _
  | ref => exact List.Subset.refl _
  | free n hb => exact absurd (hf.symm.trans hb) nofun

/-- The free of a block marks one head, which is below the block or its own. -/
theorem Inv.free_head (H : t.Inv U) (hb : b ∈ t.live) (n : Nat) :
    ∃ c, c ∈ (pmmFreeOne (t.pmm.setRef b.base n) b).freeBlocks ∧ c.Covers b.base ∧
      ∀ x, ((pmmFreeOne (t.pmm.setRef b.base n) b).buddyMemmap x).flags =
        if x = c.base then pmmFlagFree else (t.pmm.buddyMemmap x).flags := by
  have hrel : BuddyInv (t.pmm.setRef b.base n) t.pmm.freeList (t.live.erase b) [b] U :=
    (BuddyInv.setRef H _ n).release hb
  have hlt : b.base < (t.pmm.setRef b.base n).totalPages := H.live_lt hb
  have ho : b.order ≤ pmmMaxOrder - 1 := hrel.tiling.order_le b (by simp)
  obtain ⟨seq, h⟩ := hrel.coalesce (n := pmmMaxOrder - 1 - b.order) (by omega)
  have hcov := pmmCoalesce_covers (s := t.pmm.setRef b.base n) (n := pmmMaxOrder - 1 - b.order)
    (H.blocks.aligned b (List.mem_append_left _ hb)) Block.covers_base
  have hflags (x : Nat) := @pmmCoalesce_flags (t.pmm.setRef b.base n) x (pmmMaxOrder - 1 - b.order)
    b.base b.order
  rw [pmmFreeOne, pmmFreePages_eq hlt]
  simp only [Pmm.setRef_flags] at hflags
  generalize pmmCoalesce (pmmMaxOrder - 1 - b.order) (t.pmm.setRef b.base n) b.base b.order = r
    at h hcov hflags ⊢
  have H1 := h.inv.setPage List.mem_cons_self Block.covers_base ⟨pmmFlagFree, 0, r.2.2⟩
  have H2 := (H1.link (Nat.lt_succ_of_le h.le_max) (by simp [Pmm.setPage]) h.buddy).setUsed
    (sub64 r.1.usedPages (1 <<< r.2.2))
  have hmax : r.2.2 < pmmMaxOrder := Nat.lt_succ_of_le h.le_max
  refine ⟨⟨r.2.1, r.2.2⟩, mem_freeBlocks.mpr ⟨hmax, ?_⟩, hcov, fun x => ?_⟩
  · have hseq := H2.freeList_eq hmax
    rw [Function.update_self] at hseq
    exact hseq ▸ List.mem_cons_self
  · rw [pmmFreeBlock_flags, hflags]

/-- The head that the free marks is the block's own exactly if the block stays the head. -/
theorem Inv.staysHead_iff (H : t.Inv U) (hb : b ∈ t.live) (H' : Inv U ⟨s, t.live.erase b⟩)
    {c : Block} (hc : c ∈ s.freeBlocks) (hcov : c.Covers b.base) :
    b.StaysHead t.pmm ↔ c.base = b.base := by
  have hpages : s.freePages = t.pmm.freePages ∪ {x | b.Covers x} := H.freePages_free hb H'
  have hmem : c ∈ t.live.erase b ++ s.freeBlocks := List.mem_append_right _ hc
  constructor
  · intro h
    refine h c.order (Nat.lt_succ_of_le (H'.blocks.order_le c hmem)) c.base
      (H'.blocks.aligned c hmem) hcov ?_
    intro x hx
    have hfree : x ∈ s.freePages := ⟨c, hc, hx⟩
    rwa [hpages] at hfree
  · intro heq k hk p hp hcovp hfree
    -- the run lies inside the free block that contains the page
    obtain ⟨d, hd, hsub⟩ :=
      Decomposition.exists_covering (D := H'.decomposition) (Nat.le_of_lt_succ hk) hp
        fun x hx => (by rw [hpages]; exact hfree x hx : x ∈ s.freePages)
    obtain rfl := H'.blocks.eq_of_covers (List.mem_append_right _ hd) hmem (hsub _ hcovp) hcov
    exact Nat.le_antisymm hcovp.1 (heq ▸ (hsub p Block.covers_base).1)

/-- One call keeps the property exactly if what it frees stays the head. -/
theorem Inv.ignores_step (H : t.Inv U) (hP : t.IgnoresOthers) (h : t.step op = some t') :
    t'.IgnoresOthers ↔ op.FreesHead t := by
  have heff := H.effect h
  have htotal := heff.totalPages
  have hflags {x : Nat} := @Inv.step_flags x U t t' op H h
  rw [ignoresOthers_iff] at hP ⊢
  cases hf : op.freed t.pmm with
  | none =>
    refine iff_of_true (fun x hx => ?_) fun b hb => absurd (hf.symm.trans hb) nofun
    rcases hflags hx.2 with hused | hlive
    · obtain ⟨b, hb, hbx⟩ := hP x ⟨htotal ▸ hx.1, hused⟩
      exact ⟨b, heff.live_subset hf hb, hbx⟩
    · exact hlive
  | some b =>
    have hfrees : op.FreesHead t ↔ b.StaysHead t.pmm :=
      ⟨fun hop => hop b hf, fun hb c hc => by cases hf.symm.trans hc; exact hb⟩
    rw [hfrees]
    have H' := H.step h
    cases heff with
    | fail hn => exact absurd (hn.symm.trans hf) nofun
    | alloc hn => exact absurd (hn.symm.trans hf) nofun
    | ref n hn => exact absurd (hn.symm.trans hf) nofun
    | free n hb hlive =>
      cases hb.symm.trans hf
      obtain ⟨c, hc, hcov, hmarks⟩ := H.free_head hlive n
      rw [H.staysHead_iff hlive H' hc hcov]
      have hnd : t.live.Nodup := (List.nodup_append.mp H.blocks.nodup).1
      have hbused : t.pmm.UsedAt b.base := by
        refine ⟨H.live_lt hlive, ?_⟩
        rw [(H.liveHead b hlive).1]
        decide
      constructor
      · intro hall
        by_contra hne
        have hstill :
            ((pmmFreeOne (t.pmm.setRef b.base n) b).buddyMemmap b.base).flags &&& pmmFlagUsed ≠
              0 := by
          rw [hmarks, if_neg fun heq => hne heq.symm]
          exact hbused.2
        obtain ⟨d, hd, hdb⟩ := hall b.base ⟨htotal ▸ hbused.1, hstill⟩
        obtain ⟨hne', hd⟩ := (List.Nodup.mem_erase_iff hnd).mp hd
        exact hne' (H.blocks.eq_of_covers (List.mem_append_left _ hd) (List.mem_append_left _ hlive)
          Block.covers_base (hdb ▸ Block.covers_base))
      · intro heq x hx
        have hused := hx.2
        rw [hmarks] at hused
        split at hused
        · exact absurd flags_free hused
        · next hxc =>
          obtain ⟨d, hd, hdx⟩ := hP x ⟨htotal ▸ hx.1, hused⟩
          refine ⟨d, (List.Nodup.mem_erase_iff hnd).mpr ⟨?_, hd⟩, hdx⟩
          rintro rfl
          exact hxc (hdx.symm.trans heq.symm)

end PmmSys

variable {memmap : List MemmapEntry} {ops : List PmmOp}

/-- `pmm_init` marks pages as reserved or free. -/
theorem pmmInit_ignores (h : pmmInit memmap = some s) : PmmSys.IgnoresOthers ⟨s, []⟩ := by
  have hfold : ∀ (bs : List Block) (s : Pmm), (∀ x, (s.buddyMemmap x).flags &&& pmmFlagUsed = 0) →
      ∀ x, ((bs.foldl pmmFreeOne s).buddyMemmap x).flags &&& pmmFlagUsed = 0 := by
    intro bs
    induction bs with
    | nil => exact fun s hs => hs
    | cons b bs ih =>
      intro s hs
      refine ih _ fun x => ?_
      rcases pmmFreePages_flags s (b.base * pmmPageSize) b.order x with hx | hx
      · rw [pmmFreeOne, hx]
        exact hs x
      · rw [pmmFreeOne, hx]
        rfl
  rw [pmmInit_eq] at h
  obtain ⟨_, -, rfl⟩ := Option.map_eq_some_iff.mp h
  have hreserved : (0 ||| pmmFlagReserved) &&& pmmFlagUsed = 0 := by decide
  exact PmmSys.ignoresOthers_iff.mpr fun x hx => absurd (hfold _ _ (fun _ => hreserved) x) hx.2

/-- In every state of a run the functions on reference counts ignore every page that heads no
allocated block exactly if every block that the run frees stays the head of what it is merged to. -/
theorem pmmRun_ignores_iff (H : MemmapOk memmap) (h : pmmInit memmap = some s) :
    Along PmmSys.step PmmSys.IgnoresOthers ⟨s, []⟩ ops ↔
      AllSteps PmmSys.step (fun t op => op.FreesHead t) ⟨s, []⟩ ops := by
  rw [along_iff_allSteps (I := PmmSys.Inv (pmmInitPages memmap))
    (fun t op t' hI _ hop _ => hI.step hop)
    (fun t op t' hI hP hop => hI.ignores_step hP hop) (H.inv h)]
  exact and_iff_right (pmmInit_ignores h)

/-- Page 0 is never free, so page 1 stays the head of what it is merged to. -/
theorem Block.staysHead_one {U : Set Nat} {t : PmmSys} (H : t.Inv U) :
    (⟨1, 0⟩ : Block).StaysHead t.pmm := by
  intro k _ p _ hcov hfree
  rcases Nat.le_one_iff_eq_zero_or_eq_one.mp hcov.1 with rfl | rfl
  · rcases hfree 0 Block.covers_base with ⟨b, hb, hx⟩ | hx
    · exact absurd hx (H.blocks.not_covers_zero (List.mem_append_right _ hb))
    · exact absurd hx.1 (by decide)
  · rfl

theorem pmmRun_ignores_iff_small :
    ∃ s, pmmInit smallMemmap = some s ∧
      Along PmmSys.step PmmSys.IgnoresOthers ⟨s, []⟩ [.alloc 0, .incRef ⟨1, 0⟩, .free ⟨1, 0⟩] := by
  have hsome : (pmmInit smallMemmap).isSome := by decide +kernel
  have hs := (Option.some_get hsome).symm
  refine ⟨_, hs, (pmmRun_ignores_iff smallMemmap_ok hs).mpr ?_⟩
  refine .intro nofun fun t₁ h₁ => .intro nofun fun t₂ h₂ => .intro (fun b hb => ?_) fun _ _ =>
    trivial
  cases hb
  exact Block.staysHead_one (((smallMemmap_ok.inv hs).step h₁).step h₂)

/-- Two pages are freed, the lower one first. The upper one is free then and heads no block, and
still a reference can be taken on it, and the last one dropped. -/
theorem pmmRun_staleFlag :
    ∃ t, pmmRun smallMemmap [.alloc 0, .alloc 0, .alloc 0, .free ⟨24, 0⟩, .free ⟨25, 0⟩] = some t ∧
      t.live = [⟨1, 0⟩] ∧ 25 ∈ t.pmm.freePages ∧
        ¬ (pmmPageIncRef t.pmm (25 * pmmPageSize) = t.pmm ∧
          pmmPageDecRef t.pmm (25 * pmmPageSize) = t.pmm) ∧
        (pmmPageDecRef t.pmm (25 * pmmPageSize)).freeList 0 ≠ t.pmm.freeList 0 := by
  have hrun : ((pmmRun smallMemmap [.alloc 0, .alloc 0, .alloc 0, .free ⟨24, 0⟩, .free ⟨25, 0⟩]).map
      fun t => (t.live, t.pmm.freeList 1, t.pmm.freeList 0,
        (pmmPageDecRef t.pmm (25 * pmmPageSize)).freeList 0)) =
      some ([⟨1, 0⟩], [24, 10, 2], [], [25]) := by decide +kernel
  obtain ⟨t, ht, hval⟩ := Option.map_eq_some_iff.mp hrun
  simp only [Prod.mk.injEq] at hval
  obtain ⟨hlive, hone, hzero, hdec⟩ := hval
  have hne : (pmmPageDecRef t.pmm (25 * pmmPageSize)).freeList 0 ≠ t.pmm.freeList 0 := by
    rw [hdec, hzero]
    exact List.cons_ne_nil _ _
  refine ⟨t, ht, hlive, ⟨⟨24, 1⟩, ?_, by decide⟩, fun hsame => hne ?_, hne⟩
  · refine mem_freeBlocks.mpr ⟨by decide, ?_⟩
    simp only [hone]
    exact List.mem_cons_self
  · rw [hsame.2]

end Plos
