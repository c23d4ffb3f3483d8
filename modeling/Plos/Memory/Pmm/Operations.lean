import Plos.Memory.Pmm.Invariant

/-! Preservation of the representation invariant by `pmm_free_pages` and `pmm_alloc_pages`.

The test of the coalescing loop reads the metadata of one page, the first page of the buddy. It
never reads a stale value: a block that contains that page and is disjoint from the block in hand
starts there (`Block.head_of_buddy`), so the page is the head of a block or reserved
(`BuddyInv.mergeable_iff`). -/

namespace Plos

variable {s : Pmm} {seq : Nat → List Nat} {live hand : List Block} {U : Set Nat}
  {b : Block} {p k : Nat}

theorem buddy_base : b.base ^^^ 1 <<< b.order = b.buddy.base := by
  simp [Block.buddy, Nat.one_shiftLeft]

theorem parent_base :
    (if b.buddy.base < b.base then b.buddy.base else b.base) = b.parent.base := by
  rcases lt_or_ge b.buddy.base b.base with h | h
  · rw [if_pos h]
    exact (min_eq_right h.le).symm
  · rw [if_neg (not_lt.mpr h)]
    exact (min_eq_left h).symm

/-- The test of the coalescing loop for a block: the first page of its buddy exists, is free and
has the same order. -/
def Mergeable (s : Pmm) (b : Block) : Prop :=
  b.buddy.base < s.totalPages ∧ isPageFree (s.buddyMemmap b.buddy.base) = true ∧
    (s.buddyMemmap b.buddy.base).order = b.order

instance : Decidable (Mergeable s b) := inferInstanceAs (Decidable (_ ∧ _ ∧ _))

theorem pmmCoalesce_of_not {n : Nat} (h : ¬ Mergeable s b) :
    pmmCoalesce n s b.base b.order = (s, b.base, b.order) := by
  cases n with
  | zero => rfl
  | succ n =>
    simp only [pmmCoalesce, Pmm.pfnToPage, buddy_base]
    by_cases hlt : b.buddy.base < s.totalPages
    · simp only [Mergeable, hlt, true_and, not_and] at h
      cases hf : isPageFree (s.buddyMemmap b.buddy.base) with
      | false => simp
      | true => simp [h hf]
    · simp [not_lt.mp hlt]

theorem pmmCoalesce_of_mergeable {n : Nat} (h : Mergeable s b) :
    pmmCoalesce (n + 1) s b.base b.order =
      pmmCoalesce n ((s.unlinkPage b.buddy.base b.order).setPage b.buddy.base
        { s.buddyMemmap b.buddy.base with order := 0 }) b.parent.base b.parent.order := by
  obtain ⟨hlt, hf, ho⟩ := h
  conv => lhs; unfold pmmCoalesce
  simp [Pmm.pfnToPage, buddy_base, parent_base, hlt, hf, ho]

/-- The loop changes the lists and the page array only. -/
theorem pmmCoalesce_const {n pfn order : Nat} :
    (pmmCoalesce n s pfn order).1.usedPages = s.usedPages ∧
      (pmmCoalesce n s pfn order).1.totalPages = s.totalPages ∧
        (pmmCoalesce n s pfn order).1.highestAddr = s.highestAddr := by
  induction n generalizing s pfn order with
  | zero => exact ⟨rfl, rfl, rfl⟩
  | succ n ih =>
    by_cases hm : Mergeable s ⟨pfn, order⟩
    · rw [pmmCoalesce_of_mergeable (b := ⟨pfn, order⟩) hm]
      exact ih
    · rw [pmmCoalesce_of_not (b := ⟨pfn, order⟩) hm]
      exact ⟨rfl, rfl, rfl⟩

theorem pmmCoalesce_order {n pfn order : Nat} : order ≤ (pmmCoalesce n s pfn order).2.2 ∧
    (pmmCoalesce n s pfn order).2.2 ≤ order + n := by
  induction n generalizing s pfn order with
  | zero => exact ⟨le_rfl, le_rfl⟩
  | succ n ih =>
    by_cases hm : Mergeable s ⟨pfn, order⟩
    · rw [pmmCoalesce_of_mergeable (b := ⟨pfn, order⟩) hm]
      refine ⟨(Nat.le_succ _).trans ih.1, ih.2.trans ?_⟩
      exact (Nat.succ_add_eq_add_succ order n).le
    · rw [pmmCoalesce_of_not (b := ⟨pfn, order⟩) hm]
      exact ⟨le_rfl, Nat.le_add_right _ _⟩

/-- The loop changes the metadata of free pages only. -/
theorem pmmCoalesce_page {n pfn order x : Nat} (hx : isPageFree (s.buddyMemmap x) = false) :
    (pmmCoalesce n s pfn order).1.buddyMemmap x = s.buddyMemmap x := by
  induction n generalizing s pfn order with
  | zero => rfl
  | succ n ih =>
    by_cases hm : Mergeable s ⟨pfn, order⟩
    · have hne : x ≠ (⟨pfn, order⟩ : Block).buddy.base := by
        rintro rfl
        rw [hm.2.1] at hx
        cases hx
      have hsame : ((s.unlinkPage (⟨pfn, order⟩ : Block).buddy.base order).setPage
          (⟨pfn, order⟩ : Block).buddy.base
          { s.buddyMemmap (⟨pfn, order⟩ : Block).buddy.base with order := 0 }).buddyMemmap x =
            s.buddyMemmap x := Function.update_of_ne hne ..
      rw [pmmCoalesce_of_mergeable (b := ⟨pfn, order⟩) hm, ih (by rw [hsame]; exact hx), hsame]
    · rw [pmmCoalesce_of_not (b := ⟨pfn, order⟩) hm]

theorem pmmFreePages_totalPages (s : Pmm) (phys order : Nat) :
    (pmmFreePages s phys order).totalPages = s.totalPages := by
  unfold pmmFreePages
  split
  · rfl
  · split
    · rfl
    · exact pmmCoalesce_const.2.1

/-- The test of the coalescing loop passes exactly when the buddy is on the list of its order. -/
theorem BuddyInv.mergeable_iff (H : BuddyInv s seq live [b] U) :
    Mergeable s b ↔ b.buddy ∈ freeBlocks seq := by
  have hb : b.Aligned := H.tiling.aligned b (by simp)
  constructor
  · intro ⟨hlt, hfree, hord⟩
    by_cases hU : b.buddy.base ∈ U
    · obtain ⟨e, he, hc⟩ := (H.tiling.cover _).mp hU
      have hdis := (List.pairwise_append.mp H.tiling.disjoint).2.2 b (by simp)
      rcases List.mem_append.mp he with he | he'
      · obtain rfl := List.mem_singleton.mp he
        exact absurd Block.covers_base (hb.disjoint_buddy _ hc)
      obtain ⟨hbase, -⟩ := Block.head_of_buddy hb (H.tiling.aligned e he) (hdis e he').symm hc
      rcases List.mem_append.mp he' with hlive | hfr
      · have := (H.liveHead e hlive).1
        rw [hbase] at this
        simp [isPageFree, this] at hfree
      · have hhead := H.freeHead _ (mem_freeBlocks.mp hfr).1 _ (mem_freeBlocks.mp hfr).2
        rw [hbase, hord] at hhead
        have : e = b.buddy := by cases e; simp_all [Block.buddy]
        exact this ▸ hfr
    · simp [isPageFree, H.reserved _ hlt hU] at hfree
  · intro hmem
    rw [mem_freeBlocks] at hmem
    obtain ⟨hf, ho⟩ := H.freeHead _ hmem.1 _ hmem.2
    exact ⟨H.free_lt hmem.1 hmem.2, by simp [isPageFree, hf], ho⟩

/-- What the coalescing loop does to the block in hand. -/
structure Coalesced (live : List Block) (U : Set Nat) (order : Nat) (r : Pmm × Nat × Nat)
    (seq' : Nat → List Nat) : Prop where
  inv : BuddyInv r.1 seq' live [⟨r.2.1, r.2.2⟩] U
  order_le : order ≤ r.2.2
  le_max : r.2.2 ≤ pmmMaxOrder - 1
  buddy : r.2.2 < pmmMaxOrder - 1 → (⟨r.2.1, r.2.2⟩ : Block).buddy ∉ freeBlocks seq'

theorem BuddyInv.coalesce {n : Nat} (H : BuddyInv s seq live [b] U)
    (hn : b.order + n = pmmMaxOrder - 1) :
    ∃ seq', Coalesced live U b.order (pmmCoalesce n s b.base b.order) seq' := by
  induction n generalizing s seq b with
  | zero =>
    refine ⟨seq, H, le_rfl, hn.le, fun hlt => ?_⟩
    exact absurd (hn.trans_gt hlt) (lt_irrefl _)
  | succ n ih =>
    by_cases hm : Mergeable s b
    · rw [pmmCoalesce_of_mergeable hm]
      have hmem := mem_freeBlocks.mp (H.mergeable_iff.mp hm)
      have H1 := H.unlink hmem.1 hmem.2
      have H2 := H1.setPage List.mem_cons_self Block.covers_base
        { s.buddyMemmap b.buddy.base with order := 0 }
      have H3 := H2.perm (List.Perm.swap _ _ _)
      obtain ⟨seq', h⟩ :=
        ih (H3.merge (b := b) (by omega)) (by simp only [Block.parent_order]; omega)
      exact ⟨seq', h.inv, (Nat.le_succ _).trans h.order_le, h.le_max, h.buddy⟩
    · rw [pmmCoalesce_of_not hm]
      exact ⟨seq, H, le_rfl, by simp only; omega, fun _ => H.mergeable_iff.not.mp hm⟩

/-- `pmm_free_pages` of an aligned address of the page array runs the loop and places the
block. -/
theorem pmmFreePages_eq (hlt : b.base < s.totalPages) :
    pmmFreePages s (b.base * pmmPageSize) b.order =
      let r := pmmCoalesce (pmmMaxOrder - 1 - b.order) s b.base b.order
      pmmFreeBlock r.1 r.2.1 r.2.2 := by
  have hpfn : s.pfnToPage b.base = some b.base := if_neg (not_le.mpr hlt)
  simp only [pmmFreePages, Nat.mul_mod_left, ne_eq, not_true_eq_false, if_false,
    Nat.mul_div_cancel b.base (by decide : 0 < pmmPageSize), hpfn]

/-- `pmm_free_pages` puts the block in hand on a free list, merged with its buddies. -/
theorem BuddyInv.freePages (H : BuddyInv s seq live [b] U) :
    ∃ seq', BuddyInv (pmmFreePages s (b.base * pmmPageSize) b.order) seq' live [] U := by
  have hlt : b.base < s.totalPages := H.hand_lt List.mem_cons_self Block.covers_base
  have ho : b.order ≤ pmmMaxOrder - 1 := H.tiling.order_le b (by simp)
  obtain ⟨seq', h⟩ := H.coalesce (n := pmmMaxOrder - 1 - b.order) (by omega)
  rw [pmmFreePages_eq hlt]
  generalize pmmCoalesce (pmmMaxOrder - 1 - b.order) s b.base b.order = r at h ⊢
  have H1 := h.inv.setPage List.mem_cons_self Block.covers_base ⟨pmmFlagFree, 0, r.2.2⟩
  have H2 := H1.link (Nat.lt_succ_of_le h.le_max) (by simp [Pmm.setPage]) h.buddy
  exact ⟨_, H2.setUsed _⟩

/-- It leaves the head pages of the allocated blocks alone. -/
theorem BuddyInv.freePages_page (H : BuddyInv s seq live [b] U) {c : Block} (hc : c ∈ live) :
    (pmmFreePages s (b.base * pmmPageSize) b.order).buddyMemmap c.base = s.buddyMemmap c.base := by
  have hlt : b.base < s.totalPages := H.hand_lt List.mem_cons_self Block.covers_base
  have ho : b.order ≤ pmmMaxOrder - 1 := H.tiling.order_le b (by simp)
  obtain ⟨seq', h⟩ := H.coalesce (n := pmmMaxOrder - 1 - b.order) (by omega)
  have hpage : (pmmCoalesce (pmmMaxOrder - 1 - b.order) s b.base b.order).1.buddyMemmap c.base =
      s.buddyMemmap c.base := pmmCoalesce_page (by simp [isPageFree, (H.liveHead c hc).1])
  rw [pmmFreePages_eq hlt]
  generalize pmmCoalesce (pmmMaxOrder - 1 - b.order) s b.base b.order = r at h hpage ⊢
  have hne : c.base ≠ r.2.1 := h.inv.hand_ne_live List.mem_cons_self Block.covers_base hc
  exact (Function.update_of_ne hne ..).trans hpage

/-! ## Allocation -/

/-- The search stops at the first order whose list is not empty. -/
theorem pmmFindOrder_spec {n order : Nat} :
    match pmmFindOrder n s order with
    | none => ∀ k, order ≤ k → k < order + n → dllEmpty s.link (.head k) = true
    | some c => order ≤ c ∧ c < order + n ∧ dllEmpty s.link (.head c) = false := by
  induction n generalizing order with
  | zero => intro k h1 h2; omega
  | succ n ih =>
    unfold pmmFindOrder
    cases he : dllEmpty s.link (.head order) with
    | false => exact ⟨le_rfl, by omega, he⟩
    | true =>
      have h := @ih (order + 1)
      simp only [Bool.not_true, Bool.false_eq_true, if_false]
      cases hf : pmmFindOrder n s (order + 1) with
      | none =>
        rw [hf] at h
        intro k h1 h2
        rcases h1.eq_or_lt with rfl | h1
        · exact he
        · exact h k h1 (by omega)
      | some c =>
        rw [hf] at h
        exact ⟨by omega, by omega, h.2.2⟩

/-- The splitting loop cuts the block in hand down to the wanted order and puts the upper
halves on their lists. -/
theorem BuddyInv.splitLoop {n order : Nat} (H : BuddyInv s seq live [⟨p, order + n⟩] U) :
    ∃ seq', BuddyInv (pmmSplit n s p order) seq' live [⟨p, order⟩] U ∧
      (pmmSplit n s p order).usedPages = s.usedPages ∧
        (pmmSplit n s p order).totalPages = s.totalPages ∧
          ∀ c ∈ live, (pmmSplit n s p order).buddyMemmap c.base = s.buddyMemmap c.base := by
  induction n generalizing s seq with
  | zero => exact ⟨seq, H, rfl, rfl, fun _ _ => rfl⟩
  | succ n ih =>
    have hal : (⟨p, order + n + 1⟩ : Block).Aligned := H.tiling.aligned _ (by simp [Nat.add_assoc])
    obtain ⟨-, -, hbud⟩ := Block.Aligned.lower_half hal
    have hk : order + n < pmmMaxOrder := by
      have := H.tiling.order_le _ (List.mem_append_left _ List.mem_cons_self)
      simp only at this
      omega
    have hq : p ^^^ 1 <<< (order + n) = p + 2 ^ (order + n) := by
      have := congrArg Block.base hbud
      rwa [← buddy_base] at this
    have H1 := (BuddyInv.split (k := order + n) H).perm (List.Perm.swap _ _ _)
    have H2 := H1.setPage List.mem_cons_self Block.covers_base ⟨pmmFlagFree, 0, order + n⟩
    have H3 := H2.link hk (by simp [Pmm.setPage]) fun _ hmem => by
      rw [← hbud, Block.buddy_buddy, mem_freeBlocks] at hmem
      exact H2.not_mem_seq (b := ⟨p, order + n⟩) (by simp) Block.covers_base hk hmem.2
    obtain ⟨seq', h, hu, ht, hp⟩ := ih H3
    simp only [pmmSplit, hq]
    refine ⟨seq', h, hu, ht, fun c hc => (hp c hc).trans (Function.update_of_ne ?_ ..)⟩
    exact H1.hand_ne_live List.mem_cons_self Block.covers_base hc

/-- What a successful `pmm_alloc_pages` has done. -/
structure Allocated (s : Pmm) (live : List Block) (U : Set Nat) (order : Nat) (r : Pmm × Nat)
    (b : Block) : Prop where
  order_eq : b.order = order
  phys_eq : r.2 = b.base * pmmPageSize
  base_pos : 0 < b.base
  inv : ∃ seq', BuddyInv r.1 seq' (b :: live) [] U
  usedPages : r.1.usedPages = add64 s.usedPages (1 <<< order)
  totalPages : r.1.totalPages = s.totalPages
  page : r.1.buddyMemmap b.base = { flags := pmmFlagUsed, refCount := 1, order := order }

theorem Ring.next_pfn (H : Ring s.link (.head k) ((p :: ps).map PmmNode.page)) :
    (s.link (.head k)).next.pfn = p := by
  rw [H.head_next]
  rfl

/-- `pmm_alloc_pages` fails without effect when every list from the order on is empty; otherwise
it takes a block of the order off the lists, and leaves the head pages of the allocated blocks
alone. -/
theorem BuddyInv.allocPages_page (H : BuddyInv s seq live [] U) (order : Nat) :
    (pmmAllocPages s order = (s, 0) ∧ ∀ k < pmmMaxOrder, order ≤ k → seq k = []) ∨
      ∃ b, Allocated s live U order (pmmAllocPages s order) b ∧
        ∀ c ∈ live, (pmmAllocPages s order).1.buddyMemmap c.base = s.buddyMemmap c.base := by
  by_cases ho : pmmMaxOrder ≤ order
  · refine .inl ⟨if_pos ho, fun k hk hle => ?_⟩
    exact absurd (hk.trans_le (ho.trans hle)) (lt_irrefl _)
  simp only [pmmAllocPages, if_neg ho]
  have hspec := @pmmFindOrder_spec s (pmmMaxOrder - order) order
  cases hf : pmmFindOrder (pmmMaxOrder - order) s order with
  | none =>
    rw [hf] at hspec
    refine .inl ⟨rfl, fun k hk hle => ?_⟩
    simpa using (H.ring k hk).empty_iff.mp (hspec k hle (by omega))
  | some c =>
    rw [hf] at hspec
    obtain ⟨hoc, hcm, hne⟩ := hspec
    have hc : c < pmmMaxOrder := by omega
    have hring := H.ring c hc
    cases hseq : seq c with
    | nil =>
      rw [hseq] at hring
      have := hring.empty_iff.mpr rfl
      simp [hne] at this
    | cons p ps =>
      right
      rw [hseq] at hring
      have hp : (s.link (.head c)).next.pfn = p := hring.next_pfn
      obtain ⟨n, rfl⟩ := Nat.exists_eq_add_of_le hoc
      simp only [hp, Nat.add_sub_cancel_left]
      have H1 := H.unlink hc (p := p) (by rw [hseq]; exact List.mem_cons_self)
      obtain ⟨seq', H2, hu, ht, hpages⟩ := H1.splitLoop
      have H3 := H2.setPage List.mem_cons_self Block.covers_base ⟨pmmFlagUsed, 1, order⟩
      have H4 := H3.allocate (by simp [Pmm.setPage])
      refine ⟨⟨p, order⟩, ⟨rfl, rfl, ?_, ⟨seq', H4.setUsed _⟩, ?_, ht, ?_⟩, fun c hc => ?_⟩
      · exact H2.tiling.base_pos ⟨p, order⟩ (by simp)
      · simp only [Pmm.setPage, hu]
        rfl
      · simp [Pmm.setPage]
      · have hne : c.base ≠ p := H2.hand_ne_live List.mem_cons_self Block.covers_base hc
        exact (Function.update_of_ne hne ..).trans (hpages c hc)

theorem BuddyInv.allocPages (H : BuddyInv s seq live [] U) (order : Nat) :
    (pmmAllocPages s order = (s, 0) ∧ ∀ k < pmmMaxOrder, order ≤ k → seq k = []) ∨
      ∃ b, Allocated s live U order (pmmAllocPages s order) b :=
  (H.allocPages_page order).imp_right fun ⟨b, hb, _⟩ => ⟨b, hb⟩

end Plos
