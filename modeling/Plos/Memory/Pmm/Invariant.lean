import Mathlib.Data.List.Perm.Subperm
import Mathlib.Data.List.Nodup
import Plos.Lib.Dyadic
import Plos.Memory.Pmm.Basic

/-! The representation invariant of the buddy allocator and the steps it is kept by.

`BuddyInv s seq live hand U` describes a state in terms of three groups of blocks: the blocks on
the free lists (`seq k` is the sequence of list `k`), the allocated blocks `live`, and the blocks
`hand` that the running operation has taken off the lists and not yet placed. Together they tile
`U`. Only head pages carry metadata, so the invariant says nothing about interior pages; pages
outside `U` are still marked reserved. No two blocks on the lists could be merged.

Each operation of the allocator is a composition of the steps below: a block moves between a
list, the hand and the allocated blocks, two buddies in hand merge, or a block in hand splits. -/

namespace Plos

/-- The blocks on the free lists. -/
def freeBlocks (seq : Nat → List Nat) : List Block :=
  (List.range pmmMaxOrder).flatMap fun k => (seq k).map (⟨·, k⟩)

@[simp] theorem mem_freeBlocks {seq : Nat → List Nat} {b : Block} :
    b ∈ freeBlocks seq ↔ b.order < pmmMaxOrder ∧ b.base ∈ seq b.order := by
  simp only [freeBlocks, List.mem_flatMap, List.mem_range, List.mem_map]
  constructor
  · rintro ⟨k, hk, p, hp, rfl⟩
    exact ⟨hk, hp⟩
  · intro ⟨hk, hp⟩
    exact ⟨b.order, hk, b.base, hp, rfl⟩

private theorem flatMap_perm_cons {F G : ι → List α} {k : ι} {a : α} (hk : (F k).Perm (a :: G k))
    (hne : ∀ j, j ≠ k → F j = G j) {l : List ι} (hnd : l.Nodup) (hmem : k ∈ l) :
    (l.flatMap F).Perm (a :: l.flatMap G) := by
  induction l with
  | nil => cases hmem
  | cons j l ih =>
    obtain ⟨hj, hl⟩ := List.nodup_cons.mp hnd
    simp only [List.flatMap_cons]
    rcases List.mem_cons.mp hmem with rfl | hmem
    · have hrest : l.flatMap F = l.flatMap G := by
        refine List.flatMap_congr fun i hi => hne i ?_
        rintro rfl
        exact hj hi
      rw [hrest]
      exact hk.append_right _
    · rw [hne j (by rintro rfl; exact hj hmem)]
      exact ((ih hl hmem).append_left (G j)).trans List.perm_middle

/-- Taking one page off one list takes one block off the free blocks. -/
theorem freeBlocks_perm {seq seq' : Nat → List Nat} {p k : Nat} (hk : k < pmmMaxOrder)
    (h : (seq k).Perm (p :: seq' k)) (hne : ∀ j, j ≠ k → seq j = seq' j) :
    (freeBlocks seq).Perm (⟨p, k⟩ :: freeBlocks seq') :=
  flatMap_perm_cons (F := fun k => (seq k).map (Block.mk · k))
    (G := fun k => (seq' k).map (Block.mk · k))
    (by simpa using h.map (Block.mk · k)) (fun j hj => by simp only [hne j hj])
    List.nodup_range (List.mem_range.mpr hk)

theorem freeBlocks_cons {seq : Nat → List Nat} {p k : Nat} (hk : k < pmmMaxOrder) :
    (freeBlocks (Function.update seq k (p :: seq k))).Perm (⟨p, k⟩ :: freeBlocks seq) :=
  freeBlocks_perm hk (by simp) fun j hj => by simp [hj]

theorem freeBlocks_erase {seq : Nat → List Nat} {p k : Nat} (hk : k < pmmMaxOrder)
    (hp : p ∈ seq k) : (freeBlocks seq).Perm
      (⟨p, k⟩ :: freeBlocks (Function.update seq k ((seq k).erase p))) :=
  freeBlocks_perm hk (by simpa using List.perm_cons_erase hp) fun j hj => by simp [hj]

theorem freeBlocks_congr {seq seq' : Nat → List Nat} (h : ∀ k < pmmMaxOrder, seq k = seq' k) :
    freeBlocks seq = freeBlocks seq' :=
  List.flatMap_congr fun k hk => by rw [h k (List.mem_range.mp hk)]

/-- The head pages on a free list, in list order. -/
def Pmm.freeList (s : Pmm) (k : Nat) : List Nat :=
  (dllNodes s.link (.head k) s.totalPages (.head k)).map PmmNode.pfn

/-- The blocks on the free lists of a state. -/
def Pmm.freeBlocks (s : Pmm) : List Block := Plos.freeBlocks s.freeList

/-- The representation invariant. -/
structure BuddyInv (s : Pmm) (seq : Nat → List Nat) (live hand : List Block) (U : Set Nat) :
    Prop where
  tiling : Tiling (pmmMaxOrder - 1) s.totalPages U (hand ++ (live ++ freeBlocks seq))
  ring : ∀ k < pmmMaxOrder, Ring s.link (.head k) ((seq k).map .page)
  nrFree : ∀ k < pmmMaxOrder, s.nrFree k = (seq k).length
  freeHead : ∀ k < pmmMaxOrder, ∀ p ∈ seq k,
    (s.buddyMemmap p).flags = pmmFlagFree ∧ (s.buddyMemmap p).order = k
  liveHead : ∀ b ∈ live,
    (s.buddyMemmap b.base).flags = pmmFlagUsed ∧ (s.buddyMemmap b.base).order = b.order
  reserved : ∀ x < s.totalPages, x ∉ U → (s.buddyMemmap x).flags = pmmFlagReserved
  noBuddies : ∀ b ∈ freeBlocks seq, b.order < pmmMaxOrder - 1 → b.buddy ∉ freeBlocks seq
  total_lt : s.totalPages < 2 ^ 64

namespace BuddyInv

variable {s : Pmm} {seq : Nat → List Nat} {live hand : List Block} {U : Set Nat}
  {b c : Block} {p k x : Nat}

theorem free_mem (hk : k < pmmMaxOrder) (hp : p ∈ seq k) :
    (⟨p, k⟩ : Block) ∈ hand ++ (live ++ freeBlocks seq) := by
  simp [hk, hp]

theorem seq_nodup (H : BuddyInv s seq live hand U) (hk : k < pmmMaxOrder) : (seq k).Nodup :=
  List.Nodup.of_map _ (List.nodup_cons.mp (H.ring k hk).nodup).2

theorem free_lt (H : BuddyInv s seq live hand U) (hk : k < pmmMaxOrder) (hp : p ∈ seq k) :
    p < s.totalPages :=
  H.tiling.lt_of_covers (free_mem hk hp) Block.covers_base

/-- A duplicate-free list of pages is no longer than the page array. -/
private theorem length_le {l : List Nat} {n : Nat} (hnd : l.Nodup) (h : ∀ p ∈ l, p < n) :
    l.length ≤ n := by
  have hsub : l ⊆ List.range n := fun p hp => List.mem_range.mpr (h p hp)
  simpa using (hnd.subperm hsub).length_le

theorem freeList_eq (H : BuddyInv s seq live hand U) (hk : k < pmmMaxOrder) :
    s.freeList k = seq k := by
  have hlen : ((seq k).map PmmNode.page).length ≤ s.totalPages := by
    rw [List.length_map]
    exact length_le (H.seq_nodup hk) fun p hp => H.free_lt hk hp
  rw [Pmm.freeList, (H.ring k hk).nodes hlen, List.map_map]
  exact List.map_id _

/-- The sequences are the ones that the links of the state spell out. -/
theorem canonical (H : BuddyInv s seq live hand U) : BuddyInv s s.freeList live hand U := by
  have heq : ∀ k < pmmMaxOrder, s.freeList k = seq k := fun k hk => H.freeList_eq hk
  refine ⟨?_, fun k hk => ?_, fun k hk => ?_, fun k hk => ?_, H.liveHead, H.reserved, ?_,
    H.total_lt⟩
  · rw [freeBlocks_congr heq]
    exact H.tiling
  · rw [heq k hk]
    exact H.ring k hk
  · rw [heq k hk]
    exact H.nrFree k hk
  · rw [heq k hk]
    exact H.freeHead k hk
  · rw [freeBlocks_congr heq]
    exact H.noBuddies

/-- No page is on two lists. -/
theorem seq_disjoint (H : BuddyInv s seq live hand U) {j : Nat} (hj : j < pmmMaxOrder)
    (hk : k < pmmMaxOrder) (hpj : p ∈ seq j) (hpk : p ∈ seq k) : j = k := by
  have := H.tiling.eq_of_covers (free_mem hj hpj) (free_mem hk hpk) Block.covers_base
    (Block.covers_base (b := ⟨p, k⟩))
  exact congrArg Block.order this

/-- A page of a block in hand heads no block on a list. -/
theorem not_mem_seq (H : BuddyInv s seq live hand U) (hb : b ∈ hand) (hx : b.Covers x)
    (hk : k < pmmMaxOrder) : x ∉ seq k := by
  intro hp
  have hd := (List.pairwise_append.mp H.tiling.disjoint).2.2
  exact hd b hb ⟨x, k⟩ (by simp [hk, hp]) x hx Block.covers_base

theorem hand_ne_live (H : BuddyInv s seq live hand U) (hb : b ∈ hand) (hx : b.Covers x)
    (hc : c ∈ live) : c.base ≠ x := by
  rintro rfl
  have hd := (List.pairwise_append.mp H.tiling.disjoint).2.2
  exact hd b hb c (by simp [hc]) _ hx Block.covers_base

theorem hand_lt (H : BuddyInv s seq live hand U) (hb : b ∈ hand) (hx : b.Covers x) :
    x < s.totalPages :=
  H.tiling.lt_of_covers (List.mem_append_left _ hb) hx

theorem hand_mem (H : BuddyInv s seq live hand U) (hb : b ∈ hand) (hx : b.Covers x) : x ∈ U :=
  (H.tiling.cover x).mpr ⟨b, List.mem_append_left _ hb, hx⟩

/-- The invariant does not read `used_pages`. -/
theorem setUsed (H : BuddyInv s seq live hand U) (n : Nat) :
    BuddyInv { s with usedPages := n } seq live hand U :=
  ⟨H.tiling, H.ring, H.nrFree, H.freeHead, H.liveHead, H.reserved, H.noBuddies,
    H.total_lt⟩

/-- The metadata of a page of a block in hand is free to change. -/
theorem setPage (H : BuddyInv s seq live hand U) (hb : b ∈ hand) (hx : b.Covers x)
    (page : PmmPage) : BuddyInv (s.setPage x page) seq live hand U where
  tiling := H.tiling
  ring := H.ring
  nrFree := H.nrFree
  freeHead k hk p hp := by
    have hne : p ≠ x := by rintro rfl; exact H.not_mem_seq hb hx hk hp
    simpa [Pmm.setPage, hne] using H.freeHead k hk p hp
  liveHead c hc := by
    have hne : c.base ≠ x := H.hand_ne_live hb hx hc
    simpa [Pmm.setPage, hne] using H.liveHead c hc
  reserved y hy hU := by
    have hne : y ≠ x := by rintro rfl; exact hU (H.hand_mem hb hx)
    simpa [Pmm.setPage, hne] using H.reserved y hy hU
  noBuddies := H.noBuddies
  total_lt := H.total_lt

/-- The invariant does not read the reference counts. -/
theorem setRef (H : BuddyInv s seq live hand U) (x n : Nat) :
    BuddyInv (s.setPage x { s.buddyMemmap x with refCount := n }) seq live hand U := by
  have hmeta (y : Nat) :
      ((s.setPage x { s.buddyMemmap x with refCount := n }).buddyMemmap y).flags =
          (s.buddyMemmap y).flags ∧
        ((s.setPage x { s.buddyMemmap x with refCount := n }).buddyMemmap y).order =
          (s.buddyMemmap y).order := by
    by_cases hy : y = x
    · subst hy
      simp [Pmm.setPage]
    · simp [Pmm.setPage, hy]
  refine ⟨H.tiling, H.ring, H.nrFree, fun k hk p hp => ?_, fun b hb => ?_, fun y hy hU => ?_,
    H.noBuddies, H.total_lt⟩
  · rw [(hmeta p).1, (hmeta p).2]
    exact H.freeHead k hk p hp
  · rw [(hmeta b.base).1, (hmeta b.base).2]
    exact H.liveHead b hb
  · rw [(hmeta y).1]
    exact H.reserved y hy hU

/-- A node of one list is not a node of another. -/
theorem node_not_mem (H : BuddyInv s seq live hand U) {j : Nat} (hj : j < pmmMaxOrder)
    (hk : k < pmmMaxOrder) (hjk : j ≠ k) {a : PmmNode} (ha : a ∈ .head j :: (seq j).map .page) :
    a ∉ .head k :: (seq k).map .page := by
  intro ha'
  rcases List.mem_cons.mp ha with rfl | ha
  · simp [hjk] at ha'
  · obtain ⟨q, hq, rfl⟩ := List.mem_map.mp ha
    exact hjk (H.seq_disjoint hj hk hq (by simpa using ha'))

/-- A block comes off its free list. -/
theorem unlink (H : BuddyInv s seq live hand U) (hk : k < pmmMaxOrder) (hp : p ∈ seq k) :
    BuddyInv (s.unlinkPage p k) (Function.update seq k ((seq k).erase p)) live
      (⟨p, k⟩ :: hand) U := by
  have hsub : ∀ j, Function.update seq k ((seq k).erase p) j ⊆ seq j := by
    intro j q hq
    by_cases hj : j = k
    · subst hj
      rw [Function.update_self] at hq
      exact List.mem_of_mem_erase hq
    · rwa [Function.update_of_ne hj] at hq
  have hmem : PmmNode.page p ∈ (seq k).map .page := List.mem_map_of_mem hp
  refine ⟨?_, fun j hj => ?_, fun j hj => ?_, fun j hj q hq => H.freeHead j hj q (hsub j hq),
    H.liveHead, H.reserved, fun b hb ho hb' => ?_, H.total_lt⟩
  · refine H.tiling.perm ?_
    rw [← List.append_assoc]
    refine ((freeBlocks_erase hk hp).append_left _).trans (List.perm_middle.trans ?_)
    rw [List.cons_append, List.append_assoc]
  · by_cases hjk : j = k
    · subst hjk
      rw [Function.update_self, List.map_erase (fun a b h => by simpa using h)]
      exact (H.ring j hj).delete hmem
    · rw [Function.update_of_ne hjk]
      exact (H.ring j hj).congr fun a ha =>
        (H.ring k hk).delete_frame hmem (H.node_not_mem hj hk hjk ha)
  · by_cases hjk : j = k
    · subst hjk
      have hle := length_le (H.seq_nodup hj) fun q hq => H.free_lt hj hq
      have hlt := H.total_lt
      simp only [Pmm.unlinkPage, Function.update_self, H.nrFree j hj]
      rw [sub64_of_le (by omega) (List.length_pos_of_mem hp), List.length_erase_of_mem hp]
    · simpa [Pmm.unlinkPage, hjk] using H.nrFree j hj
  · rw [mem_freeBlocks] at hb hb'
    exact H.noBuddies b (mem_freeBlocks.mpr ⟨hb.1, hsub _ hb.2⟩) ho
      (mem_freeBlocks.mpr ⟨hb'.1, hsub _ hb'.2⟩)

/-- A block in hand whose buddy is not on a list goes on its free list. -/
theorem link (H : BuddyInv s seq live (⟨p, k⟩ :: hand) U) (hk : k < pmmMaxOrder)
    (hmeta : (s.buddyMemmap p).flags = pmmFlagFree ∧ (s.buddyMemmap p).order = k)
    (hbuddy : k < pmmMaxOrder - 1 → (⟨p, k⟩ : Block).buddy ∉ freeBlocks seq) :
    BuddyInv (s.linkPage p k) (Function.update seq k (p :: seq k)) live hand U := by
  have hcov : (⟨p, k⟩ : Block).Covers p := Block.covers_base
  have hnot : ∀ j < pmmMaxOrder, p ∉ seq j := fun j hj =>
    H.not_mem_seq List.mem_cons_self hcov hj
  have hfresh : ∀ j < pmmMaxOrder, PmmNode.page p ∉ .head j :: (seq j).map .page := by
    intro j hj
    simpa using hnot j hj
  have hself : (⟨p, k⟩ : Block).buddy ≠ ⟨p, k⟩ :=
    (H.tiling.aligned ⟨p, k⟩ (by simp)).disjoint_buddy.ne.symm
  have hmem (b) : b ∈ freeBlocks (Function.update seq k (p :: seq k)) ↔
      b = ⟨p, k⟩ ∨ b ∈ freeBlocks seq := by
    rw [(freeBlocks_cons hk).mem_iff, List.mem_cons]
  refine ⟨?_, fun j hj => ?_, fun j hj => ?_, fun j hj q hq => ?_, H.liveHead, H.reserved,
    fun b hb ho hb' => ?_, H.total_lt⟩
  · refine H.tiling.perm ?_
    rw [← List.append_assoc hand, List.cons_append, ← List.append_assoc hand]
    exact List.perm_middle.symm.trans ((freeBlocks_cons hk).symm.append_left _)
  · by_cases hjk : j = k
    · subst hjk
      rw [Function.update_self]
      exact (H.ring j hj).addAfter (hfresh j hj)
    · rw [Function.update_of_ne hjk]
      refine (H.ring j hj).congr fun a ha =>
        (H.ring k hk).addAfter_frame (H.node_not_mem hj hk hjk ha) ?_
      rintro rfl
      exact hfresh j hj ha
  · by_cases hjk : j = k
    · subst hjk
      have hlen : (p :: seq j).length ≤ s.totalPages := by
        refine length_le (List.nodup_cons.mpr ⟨hnot j hj, H.seq_nodup hj⟩) ?_
        refine List.forall_mem_cons.mpr ⟨?_, fun q hq => H.free_lt hj hq⟩
        exact H.hand_lt List.mem_cons_self hcov
      have h64 := H.total_lt
      simp only [Pmm.linkPage, Function.update_self, H.nrFree j hj, List.length_cons] at hlen ⊢
      exact add64_of_lt (by omega)
    · simpa [Pmm.linkPage, hjk] using H.nrFree j hj
  · by_cases hjk : j = k
    · subst hjk
      rw [Function.update_self] at hq
      rcases List.mem_cons.mp hq with rfl | hq
      · exact hmeta
      · exact H.freeHead j hj q hq
    · rw [Function.update_of_ne hjk] at hq
      exact H.freeHead j hj q hq
  · rcases (hmem b).mp hb with rfl | hb
    · rcases (hmem _).mp hb' with h | h
      · exact hself h
      · exact hbuddy ho h
    · rcases (hmem _).mp hb' with h | h
      · have hord : b.order = k := congrArg Block.order h
        exact hbuddy (hord ▸ ho) (by rwa [← h, Block.buddy_buddy])
      · exact H.noBuddies b hb ho h

/-- Two buddies in hand merge. -/
theorem merge (H : BuddyInv s seq live (b :: b.buddy :: hand) U)
    (hlt : b.order < pmmMaxOrder - 1) : BuddyInv s seq live (b.parent :: hand) U :=
  { H with tiling := H.tiling.merge hlt }

/-- A block in hand splits. -/
theorem split (H : BuddyInv s seq live (⟨p, k + 1⟩ :: hand) U) :
    BuddyInv s seq live (⟨p, k⟩ :: ⟨p + 2 ^ k, k⟩ :: hand) U :=
  { H with tiling := H.tiling.split }

/-- The blocks in hand may be taken in any order. -/
theorem perm {hand' : List Block} (H : BuddyInv s seq live hand U) (h : hand.Perm hand') :
    BuddyInv s seq live hand' U :=
  { H with tiling := H.tiling.perm (h.append_right _) }

/-- A block in hand becomes an allocated block. -/
theorem allocate (H : BuddyInv s seq live (b :: hand) U)
    (hmeta : (s.buddyMemmap b.base).flags = pmmFlagUsed ∧ (s.buddyMemmap b.base).order = b.order) :
    BuddyInv s seq (b :: live) hand U where
  tiling := H.tiling.perm List.perm_middle.symm
  ring := H.ring
  nrFree := H.nrFree
  freeHead := H.freeHead
  liveHead := List.forall_mem_cons.mpr ⟨hmeta, H.liveHead⟩
  reserved := H.reserved
  noBuddies := H.noBuddies
  total_lt := H.total_lt

/-- An allocated block is taken in hand. -/
theorem release (H : BuddyInv s seq live hand U) (hb : b ∈ live) :
    BuddyInv s seq (live.erase b) (b :: hand) U where
  tiling := H.tiling.perm <|
    (((List.perm_cons_erase hb).append_right _).append_left _).trans List.perm_middle
  ring := H.ring
  nrFree := H.nrFree
  freeHead := H.freeHead
  liveHead c hc := H.liveHead c (List.mem_of_mem_erase hc)
  reserved := H.reserved
  noBuddies := H.noBuddies
  total_lt := H.total_lt

/-- A block of reserved pages is taken in hand. -/
theorem claim (H : BuddyInv s seq live hand U) (ha : b.Aligned) (ho : b.order < pmmMaxOrder)
    (hi : b.base + 2 ^ b.order ≤ s.totalPages) (hp : 0 < b.base)
    (hd : ∀ x, b.Covers x → x ∉ U) :
    BuddyInv s seq live (b :: hand) (U ∪ {x | b.Covers x}) where
  tiling := H.tiling.cons ha (Nat.le_of_lt_succ ho) hi hp hd
  ring := H.ring
  nrFree := H.nrFree
  freeHead := H.freeHead
  liveHead := H.liveHead
  reserved x hx hU := H.reserved x hx fun h => hU (.inl h)
  noBuddies := H.noBuddies
  total_lt := H.total_lt

end BuddyInv

end Plos
