import Plos.Lib.Run
import Plos.Memory.Pmm.Init

/-! Runs of the physical memory manager: `pmm_init` and then any sequence of allocations, of
frees of allocated blocks with their own order, and of changes of their reference counts.

The state of a run remembers the allocated blocks. `PmmSys.Effect` says once what a step does to
the allocator; the representation invariant of every reachable state, and that the free blocks are
the maximal ones of the free pages, are read off from it. -/

namespace Plos

/-- The allocator and the blocks that its callers hold. -/
structure PmmSys where
  pmm : Pmm
  live : List Block

/-- The calls of a run; a block stands for its address and order. -/
inductive PmmOp where
  | alloc (order : Nat)
  | free (b : Block)
  | incRef (b : Block)
  | decRef (b : Block)
  deriving DecidableEq, Repr

/-- The block that a call frees. -/
def PmmOp.freed (s : Pmm) : PmmOp → Option Block
  | .free b => some b
  | .decRef b => if sub32 (s.buddyMemmap b.base).refCount 1 = 0 then some b else none
  | _ => none

/-- One call. Only a block that is held can be freed or have its count changed. -/
def PmmSys.step (t : PmmSys) : PmmOp → Option PmmSys
  | .alloc order =>
    let r := pmmAllocPages t.pmm order
    some ⟨r.1, if r.2 = 0 then t.live else ⟨r.2 / pmmPageSize, order⟩ :: t.live⟩
  | .free b =>
    if b ∈ t.live then
      some ⟨pmmFreePages t.pmm (b.base * pmmPageSize) b.order, t.live.erase b⟩
    else none
  | .incRef b =>
    if b ∈ t.live then some ⟨pmmPageIncRef t.pmm (b.base * pmmPageSize), t.live⟩ else none
  | .decRef b =>
    if b ∈ t.live then
      some ⟨pmmPageDecRef t.pmm (b.base * pmmPageSize),
        if (PmmOp.decRef b).freed t.pmm = some b then t.live.erase b else t.live⟩
    else none

def pmmRun (memmap : List MemmapEntry) (ops : List PmmOp) : Option PmmSys :=
  match pmmInit memmap with
  | none => none
  | some s => runFrom PmmSys.step ⟨s, []⟩ ops

/-- Change a reference count and nothing else. -/
def Pmm.setRef (s : Pmm) (pfn n : Nat) : Pmm :=
  s.setPage pfn { s.buddyMemmap pfn with refCount := n }

theorem Pmm.setRef_self (s : Pmm) (pfn : Nat) :
    s.setRef pfn (s.buddyMemmap pfn).refCount = s := by
  simp [Pmm.setRef, Pmm.setPage]

/-- What a call does: an allocation fails or takes a block, a reference count changes, or a
block goes back to the lists. -/
inductive PmmSys.Effect (U : Set Nat) (t : PmmSys) (op : PmmOp) : PmmSys → Prop
  | fail (hf : op.freed t.pmm = none) : Effect U t op t
  | alloc {s : Pmm} {phys order : Nat} {b : Block} (hf : op.freed t.pmm = none)
      (h : Allocated t.pmm t.live U order (s, phys) b) : Effect U t op ⟨s, b :: t.live⟩
  | ref {b : Block} (n : Nat) (hf : op.freed t.pmm = none) (hb : b ∈ t.live) :
      Effect U t op ⟨t.pmm.setRef b.base n, t.live⟩
  | free {b : Block} (n : Nat) (hf : op.freed t.pmm = some b) (hb : b ∈ t.live) :
      Effect U t op ⟨pmmFreeOne (t.pmm.setRef b.base n) b, t.live.erase b⟩

/-- The invariant of the runs over a memory map that freed the pages `U`. -/
def PmmSys.Inv (U : Set Nat) (t : PmmSys) : Prop :=
  BuddyInv t.pmm t.pmm.freeList t.live [] U

namespace PmmSys

variable {U : Set Nat} {t t' : PmmSys} {op : PmmOp}

theorem Inv.live_lt (H : t.Inv U) (hb : b ∈ t.live) : b.base < t.pmm.totalPages :=
  H.tiling.lt_of_covers (b := b) (by simp [hb]) Block.covers_base

theorem Inv.effect_alloc (H : t.Inv U) {order : Nat} (h : t.step (.alloc order) = some t') :
    t.Effect U (.alloc order) t' := by
  cases h
  rcases H.allocPages order with ⟨hr, -⟩ | ⟨b, hb⟩
  · rw [hr]
    exact .fail rfl
  · have hne : (pmmAllocPages t.pmm order).2 ≠ 0 := by
      rw [hb.phys_eq]
      exact Nat.mul_ne_zero hb.base_pos.ne' (by decide)
    have hblk : (⟨(pmmAllocPages t.pmm order).2 / pmmPageSize, order⟩ : Block) = b := by
      rw [hb.phys_eq, Nat.mul_div_cancel _ (by decide), ← hb.order_eq]
    simp only [if_neg hne, hblk]
    exact .alloc rfl hb

/-- The head page of a held block passes the tests of the functions on reference counts. -/
theorem Inv.live_page (H : t.Inv U) {b : Block} (hb : b ∈ t.live) :
    t.pmm.pfnToPage (b.base * pmmPageSize / pmmPageSize) = some b.base ∧
      (t.pmm.buddyMemmap b.base).flags &&& pmmFlagUsed ≠ 0 := by
  refine ⟨?_, by simp [(H.liveHead b hb).1]⟩
  rw [Nat.mul_div_cancel _ (by decide)]
  exact if_neg (not_le.mpr (H.live_lt hb))

theorem Inv.effect (H : t.Inv U) (h : t.step op = some t') : t.Effect U op t' := by
  cases op with
  | alloc order => exact H.effect_alloc h
  | free b =>
    obtain ⟨hb, ⟨⟩⟩ := Option.ite_none_right_eq_some.mp h
    have heff : t.Effect U (.free b) _ := .free (t.pmm.buddyMemmap b.base).refCount rfl hb
    rwa [Pmm.setRef_self] at heff
  | incRef b =>
    obtain ⟨hb, ⟨⟩⟩ := Option.ite_none_right_eq_some.mp h
    obtain ⟨hpfn, hflag⟩ := H.live_page hb
    simp only [pmmPageIncRef, hpfn, if_pos hflag]
    exact .ref _ rfl hb
  | decRef b =>
    obtain ⟨hb, ⟨⟩⟩ := Option.ite_none_right_eq_some.mp h
    obtain ⟨hpfn, hflag⟩ := H.live_page hb
    simp only [pmmPageDecRef, hpfn, if_pos hflag]
    by_cases hz : sub32 (t.pmm.buddyMemmap b.base).refCount 1 = 0
    · have hf : (PmmOp.decRef b).freed t.pmm = some b := by rw [PmmOp.freed, if_pos hz]
      have horder (n : Nat) : ((t.pmm.setPage b.base
          { t.pmm.buddyMemmap b.base with refCount := n }).buddyMemmap b.base).order = b.order := by
        simp [Pmm.setPage, (H.liveHead b hb).2]
      rw [if_pos hz, if_pos hf, horder]
      exact .free _ hf hb
    · have hf : (PmmOp.decRef b).freed t.pmm = none := by rw [PmmOp.freed, if_neg hz]
      rw [if_neg hz, if_neg (by simp [hf])]
      exact .ref _ hf hb

/-- One call keeps the invariant. -/
theorem Inv.step (H : t.Inv U) (h : t.step op = some t') : t'.Inv U := by
  cases H.effect h with
  | fail => exact H
  | alloc _ ha =>
    obtain ⟨seq, h'⟩ := ha.inv
    exact h'.canonical
  | ref n _ hb => exact (BuddyInv.setRef H _ n).canonical
  | free n _ hb =>
    obtain ⟨seq, h'⟩ := ((BuddyInv.setRef H _ n).release hb).freePages
    exact h'.canonical

end PmmSys

variable {memmap : List MemmapEntry} {ops : List PmmOp} {s : Pmm}

theorem pmmRun_some : pmmRun memmap ops = some t ↔
    ∃ s, pmmInit memmap = some s ∧ runFrom PmmSys.step ⟨s, []⟩ ops = some t := by
  unfold pmmRun
  cases pmmInit memmap with
  | none => simp
  | some s => simp

theorem MemmapCarvable.inv (H : MemmapCarvable memmap) (h : pmmInit memmap = some s) :
    PmmSys.Inv (pmmInitPages memmap) ⟨s, []⟩ := by
  obtain ⟨seq, h'⟩ := H.init h
  exact h'.canonical

theorem MemmapOk.inv (H : MemmapOk memmap) (h : pmmInit memmap = some s) :
    PmmSys.Inv (pmmInitPages memmap) ⟨s, []⟩ :=
  H.carvable.inv h

/-- Every reachable state satisfies the invariant. -/
theorem MemmapOk.run_inv (H : MemmapOk memmap) (h : pmmRun memmap ops = some t) :
    t.Inv (pmmInitPages memmap) := by
  obtain ⟨s, hs, hrun⟩ := pmmRun_some.mp h
  exact runFrom_induction (fun _ _ _ => PmmSys.Inv.step) (H.inv hs) hrun

/-- The allocator never loses, duplicates or misfiles a page: after any run the free lists are
well linked, the free blocks and the allocated blocks are pairwise disjoint, aligned, inside the
page array and clear of page 0, together they cover the pages that `pmm_init` freed, and the
metadata of the lists and of their head pages is right. -/
theorem pmmRun_wellFormed (H : MemmapOk memmap) (h : pmmRun memmap ops = some t) :
    (∀ k < pmmMaxOrder, Ring t.pmm.link (.head k) ((t.pmm.freeList k).map .page)) ∧
      (t.live ++ t.pmm.freeBlocks).Pairwise Block.Disjoint ∧
      (∀ b ∈ t.live ++ t.pmm.freeBlocks, b.order < pmmMaxOrder ∧ b.Aligned ∧
        b.base + 2 ^ b.order ≤ t.pmm.totalPages ∧ ¬ b.Covers 0) ∧
      (∀ x, (∃ b ∈ t.live ++ t.pmm.freeBlocks, b.Covers x) ↔ x ∈ pmmInitPages memmap) ∧
      (∀ k < pmmMaxOrder, ∀ p ∈ t.pmm.freeList k,
        (t.pmm.buddyMemmap p).flags = pmmFlagFree ∧ (t.pmm.buddyMemmap p).order = k) ∧
      ∀ k < pmmMaxOrder, t.pmm.nrFree k = (t.pmm.freeList k).length := by
  have Hinv := H.run_inv h
  refine ⟨Hinv.ring, Hinv.tiling.disjoint, fun b hb => ?_, fun x => (Hinv.tiling.cover x).symm,
    Hinv.freeHead, Hinv.nrFree⟩
  exact ⟨Nat.lt_succ_of_le (Hinv.tiling.order_le b hb), Hinv.tiling.aligned b hb,
    Hinv.tiling.inside b hb, Hinv.tiling.not_covers_zero hb⟩

/-- A memory map with a hole: page 0 and the page array, seven pages, two reserved pages and
sixteen pages. -/
def smallMemmap : List MemmapEntry :=
  [⟨0, 0x8000, .usable⟩, ⟨0x8000, 0x2000, .reserved⟩, ⟨0xA000, 0x10000, .usable⟩]

theorem smallMemmap_ok : MemmapOk smallMemmap where
  sorted := by decide
  aligned := by decide
  apart := by decide
  phys := by decide

theorem pmmInit_small : (pmmInit smallMemmap).isSome := by decide +kernel

theorem pmmRun_wellFormed_small :
    ∃ t, pmmRun smallMemmap [.alloc 0, .alloc 2, .alloc 0, .decRef ⟨1, 0⟩] = some t ∧
      (t.live ++ t.pmm.freeBlocks).Pairwise Block.Disjoint := by
  have hrun : (pmmRun smallMemmap [.alloc 0, .alloc 2, .alloc 0, .decRef ⟨1, 0⟩]).isSome := by
    decide +kernel
  refine ⟨_, (Option.some_get hrun).symm, ?_⟩
  exact (pmmRun_wellFormed smallMemmap_ok (Option.some_get hrun).symm).2.1

/-! ## The free blocks are canonical -/

/-- The pages of the blocks on the free lists. -/
def Pmm.freePages (s : Pmm) : Set Nat := {x | ∃ b ∈ s.freeBlocks, b.Covers x}

theorem Pmm.mem_freeBlocks_iff {k p : Nat} (hk : k < pmmMaxOrder) :
    p ∈ s.freeList k ↔ (⟨p, k⟩ : Block) ∈ s.freeBlocks := by
  simp [Pmm.freeBlocks, hk]

namespace PmmSys

variable {U : Set Nat} {t t' : PmmSys}

theorem Inv.blocks (H : t.Inv U) :
    Tiling (pmmMaxOrder - 1) t.pmm.totalPages U (t.live ++ t.pmm.freeBlocks) := H.tiling

/-- A page is free if it is one of the allocator's pages and in no allocated block. -/
theorem Inv.mem_freePages (H : t.Inv U) {x : Nat} :
    x ∈ t.pmm.freePages ↔ x ∈ U ∧ ∀ b ∈ t.live, ¬ b.Covers x := by
  constructor
  · intro ⟨b, hb, hx⟩
    have hdis := (List.pairwise_append.mp H.blocks.disjoint).2.2
    exact ⟨H.blocks.covers_mem (List.mem_append_right _ hb) hx, fun c hc hcx =>
      hdis c hc b hb x hcx hx⟩
  · intro ⟨hU, hlive⟩
    obtain ⟨b, hb, hx⟩ := (H.blocks.cover x).mp hU
    rcases List.mem_append.mp hb with hb | hb
    · exact absurd hx (hlive b hb)
    · exact ⟨b, hb, hx⟩

/-- The free blocks of a state that satisfies the invariant. -/
def Inv.decomposition (H : t.Inv U) : Decomposition (pmmMaxOrder - 1) where
  blocks := {b | b ∈ t.pmm.freeBlocks}
  aligned b hb := H.blocks.aligned b (List.mem_append_right _ hb)
  order_le b hb := H.blocks.order_le b (List.mem_append_right _ hb)
  disjoint _ hb _ hc hne _ hx hx' :=
    hne (H.blocks.eq_of_covers (List.mem_append_right _ hb) (List.mem_append_right _ hc) hx hx')
  noBuddies := H.noBuddies

/-- The free lists hold the same blocks if the same pages are free. -/
theorem Inv.freeList_ext (H : t.Inv U) {V : Set Nat} (H' : t'.Inv V)
    (h : t.pmm.freePages = t'.pmm.freePages) {k : Nat} (hk : k < pmmMaxOrder) (p : Nat) :
    p ∈ t.pmm.freeList k ↔ p ∈ t'.pmm.freeList k := by
  have hblocks : H.decomposition.blocks = H'.decomposition.blocks := Decomposition.ext_pages h
  rw [Pmm.mem_freeBlocks_iff hk, Pmm.mem_freeBlocks_iff hk]
  exact Set.ext_iff.mp hblocks ⟨p, k⟩

theorem Inv.freePages_of_nil (H : t.Inv U) (h : t.live = []) : t.pmm.freePages = U := by
  ext x
  have hcover := H.tiling.cover x
  rw [h] at hcover
  exact hcover.symm

/-- The held blocks can be freed in any order. -/
theorem free_all {bs : List Block} (h : bs.Perm t.live) :
    ∃ t', runFrom PmmSys.step t (bs.map .free) = some t' ∧ t'.live = [] := by
  induction bs generalizing t with
  | nil => exact ⟨t, rfl, List.nil_perm.mp h⟩
  | cons b bs ih =>
    have hb : b ∈ t.live := h.mem_iff.mp List.mem_cons_self
    have hrest : bs.Perm (t.live.erase b) := by
      have := h.erase b
      rwa [List.erase_cons_head] at this
    obtain ⟨t', hrun, hlive⟩ := @ih ⟨_, t.live.erase b⟩ hrest
    exact ⟨t', runFrom_cons.mpr ⟨_, if_pos hb, hrun⟩, hlive⟩

end PmmSys

/-- No free block has a free buddy of its order, so the free pages alone decide which blocks are
on which list; in particular freeing all that is held leads back to the lists of `pmm_init`. -/
theorem pmmRun_canonical (H : MemmapOk memmap) (h : pmmRun memmap ops = some t) :
    (∀ b ∈ t.pmm.freeBlocks, b.order < pmmMaxOrder - 1 → b.buddy ∉ t.pmm.freeBlocks) ∧
      (∀ ops' t', pmmRun memmap ops' = some t' → t.pmm.freePages = t'.pmm.freePages →
        ∀ k < pmmMaxOrder, ∀ p, p ∈ t.pmm.freeList k ↔ p ∈ t'.pmm.freeList k) ∧
      ∀ bs : List Block, bs.Perm t.live → ∃ t' s, runFrom PmmSys.step t (bs.map .free) = some t' ∧
        t'.live = [] ∧ pmmInit memmap = some s ∧
          ∀ k < pmmMaxOrder, ∀ p, p ∈ t'.pmm.freeList k ↔ p ∈ s.freeList k := by
  have Hinv := H.run_inv h
  refine ⟨Hinv.noBuddies, fun ops' t' h' hpages k hk p => ?_, fun bs hbs => ?_⟩
  · exact Hinv.freeList_ext (H.run_inv h') hpages hk p
  · obtain ⟨t', hrun, hlive⟩ := PmmSys.free_all hbs
    obtain ⟨s, hs, -⟩ := pmmRun_some.mp h
    have Hinv' : t'.Inv _ := runFrom_induction (fun _ _ _ => PmmSys.Inv.step) Hinv hrun
    refine ⟨t', s, hrun, hlive, hs, fun k hk p => ?_⟩
    have hpages : t'.pmm.freePages = s.freePages := by
      rw [Hinv'.freePages_of_nil hlive]
      exact ((H.inv hs).freePages_of_nil rfl).symm
    exact Hinv'.freeList_ext (H.inv hs) hpages hk p

theorem pmmRun_canonical_small :
    ∃ t t' s, pmmRun smallMemmap [.alloc 0, .alloc 2, .alloc 1, .free ⟨12, 2⟩] = some t ∧
      runFrom PmmSys.step t (t.live.map .free) = some t' ∧ t'.live = [] ∧
        pmmInit smallMemmap = some s ∧
          ∀ k < pmmMaxOrder, ∀ p, p ∈ t'.pmm.freeList k ↔ p ∈ s.freeList k := by
  have hrun : (pmmRun smallMemmap [.alloc 0, .alloc 2, .alloc 1, .free ⟨12, 2⟩]).isSome := by
    decide +kernel
  obtain ⟨t', s, h⟩ :=
    (pmmRun_canonical smallMemmap_ok (Option.some_get hrun).symm).2.2 _ (List.Perm.refl _)
  exact ⟨_, t', s, (Option.some_get hrun).symm, h⟩

end Plos
