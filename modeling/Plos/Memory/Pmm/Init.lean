import Plos.Memory.Pmm.Operations

/-! `pmm_init` establishes the representation invariant.

The populating loop calls `pmm_free_pages` once for each of the blocks `pmmInitBlocks` and does
nothing else, so the state after it is a fold over that list (`pmmInit_eq`). The invariant then
follows block by block: every block is taken from the reserved pages and freed. -/

namespace Plos

/-- What the boot loader promises about its memory map: the entries are sorted by base, the
usable ones are page-aligned and overlap no other entry, and the addresses are physical ones of
at most 52 bits. -/
structure MemmapOk (memmap : List MemmapEntry) : Prop where
  sorted : memmap.Pairwise fun e f => e.base ≤ f.base
  aligned : ∀ e ∈ memmap, e.type = .usable →
    e.base % pmmPageSize = 0 ∧ e.length % pmmPageSize = 0
  apart : memmap.Pairwise fun e f =>
    e.type = .usable ∨ f.type = .usable → e.base + e.length ≤ f.base
  phys : ∀ e ∈ memmap, e.type.counted = true → e.base + e.length ≤ 2 ^ 52

/-- What the populating loop needs: the usable entries overlap no other entry, no counted entry
wraps, and adding a block of the largest order to an address in a usable entry does not wrap. -/
structure MemmapCarvable (memmap : List MemmapEntry) : Prop where
  apart : memmap.Pairwise fun e f =>
    e.type = .usable ∨ f.type = .usable → e.base + e.length ≤ f.base
  noWrap : ∀ e ∈ memmap, e.type.counted = true → e.base + e.length < 2 ^ 64
  below : ∀ e ∈ memmap, e.type = .usable → e.base + e.length ≤ 2 ^ 64 - 2 ^ 22

theorem MemmapOk.carvable {memmap : List MemmapEntry} (H : MemmapOk memmap) :
    MemmapCarvable memmap := by
  refine ⟨H.apart, fun e he hc => ?_, fun e he hu => ?_⟩
  · exact Nat.lt_of_le_of_lt (H.phys e he hc) (by decide)
  · exact Nat.le_trans (H.phys e he (by rw [hu]; rfl)) (by decide)

/-- Free one block. -/
def pmmFreeOne (s : Pmm) (b : Block) : Pmm := pmmFreePages s (b.base * pmmPageSize) b.order

/-- The blocks that the loop over one region frees. -/
def pmmRegionBlocks : Nat → (current stop : Nat) → List Block
  | 0, _, _ => []
  | n + 1, current, stop =>
    if current < stop then
      let order := pmmLargestOrder current stop (pmmMaxOrder - 1)
      ⟨current / pmmPageSize, order⟩ ::
        pmmRegionBlocks n (add64 current (pmmPageSize * (1 <<< order))) stop
    else []

/-- The blocks that are freed for one entry. -/
def MemmapEntry.blocks (e : MemmapEntry) : List Block :=
  if e.type = .usable then
    pmmRegionBlocks ((e.stop - e.start) / pmmPageSize) e.start e.stop
  else []

/-- The memory map after the page array has been taken out of it. -/
def pmmMemmap (memmap : List MemmapEntry) : Option (List MemmapEntry) :=
  pmmReserveMemmap (pmmTotalPages (pmmHighestAddr memmap) * sizeofPmmPage % 2 ^ 64) memmap

/-- The blocks that `pmm_init` passes to `pmm_free_pages`, in order. -/
def pmmInitBlocks (memmap : List MemmapEntry) : List Block :=
  ((pmmMemmap memmap).getD []).flatMap MemmapEntry.blocks

/-- The pages freed by `pmm_init`. -/
def pmmInitPages (memmap : List MemmapEntry) : Set Nat :=
  {x | ∃ b ∈ pmmInitBlocks memmap, b.Covers x}

theorem pmmFreeRegion_eq {n current stop : Nat} (s : Pmm) (hc : current % pmmPageSize = 0) :
    pmmFreeRegion n s current stop = (pmmRegionBlocks n current stop).foldl pmmFreeOne s := by
  induction n generalizing s current with
  | zero => rfl
  | succ n ih =>
    unfold pmmFreeRegion pmmRegionBlocks
    split
    · have hnext : add64 current
          (pmmPageSize * 1 <<< pmmLargestOrder current stop (pmmMaxOrder - 1)) % pmmPageSize =
            0 := by
        simp only [addW, pmmPageSize] at hc ⊢
        omega
      simp only [List.foldl_cons, ih _ hnext, pmmFreeOne,
        Nat.div_mul_cancel (Nat.dvd_of_mod_eq_zero hc)]
    · rfl

theorem MemmapEntry.start_mod (e : MemmapEntry) : e.start % pmmPageSize = 0 := by
  simp only [MemmapEntry.start, addW, pmmPageSize]
  split <;> split <;> omega

theorem pmmPopulate_eq (s : Pmm) (memmap : List MemmapEntry) :
    pmmPopulate s memmap = (memmap.flatMap MemmapEntry.blocks).foldl pmmFreeOne s := by
  induction memmap generalizing s with
  | nil => rfl
  | cons e memmap ih =>
    simp only [pmmPopulate, List.foldl_cons, List.flatMap_cons, List.foldl_append] at ih ⊢
    rw [ih, MemmapEntry.blocks]
    split
    · rw [pmmFreeRegion_eq _ e.start_mod]
    · rfl

theorem pmmInit_eq (memmap : List MemmapEntry) : pmmInit memmap = (pmmMemmap memmap).map fun _ =>
    (pmmInitBlocks memmap).foldl pmmFreeOne
      (pmmReserved (pmmTotalPages (pmmHighestAddr memmap)) (pmmHighestAddr memmap)) := by
  have h : pmmInit memmap = (pmmMemmap memmap).map fun memmap' => pmmPopulate
      (pmmReserved (pmmTotalPages (pmmHighestAddr memmap)) (pmmHighestAddr memmap)) memmap' := rfl
  rw [h, pmmInitBlocks]
  cases pmmMemmap memmap with
  | none => rfl
  | some memmap' => simp [pmmPopulate_eq]

/-! ## The blocks of one region -/

theorem pmmLargestOrder_spec {current stop M : Nat} (hc : current % pmmPageSize = 0)
    (hs : stop % pmmPageSize = 0) (hlt : current < stop) (hM : M < pmmMaxOrder)
    (h64 : stop ≤ 2 ^ 64 - 2 ^ 22) :
    pmmLargestOrder current stop M ≤ M ∧
      2 ^ pmmLargestOrder current stop M ∣ current / pmmPageSize ∧
      current + pmmPageSize * 2 ^ pmmLargestOrder current stop M ≤ stop := by
  induction M with
  | zero =>
    simp only [pmmLargestOrder, pmmPageSize] at hc hs ⊢
    omega
  | succ M ih =>
    have hM' : M < 10 := by simp only [pmmMaxOrder] at hM; omega
    have hpow : 2 ^ (M + 1) ≤ 2 ^ 10 := Nat.pow_le_pow_right (by omega) (by omega)
    have hsz : pmmPageSize * 1 <<< (M + 1) = 2 ^ (12 + (M + 1)) := by
      rw [Nat.one_shiftLeft, Nat.pow_add 2 12]
    simp only [pmmLargestOrder, hsz, Nat.and_two_pow_sub_one_eq_mod]
    by_cases h : current % 2 ^ (12 + (M + 1)) = 0 ∧ add64 current (2 ^ (12 + (M + 1))) ≤ stop
    · rw [if_pos h]
      obtain ⟨hmod, hfit⟩ := h
      rw [Nat.pow_add 2 12] at hmod hfit
      rw [add64_of_lt (by omega)] at hfit
      refine ⟨le_rfl, ?_, hfit⟩
      obtain ⟨q, hq⟩ := Nat.dvd_of_mod_eq_zero hmod
      rw [hq, Nat.mul_assoc, show (2 : Nat) ^ 12 = pmmPageSize from rfl,
        Nat.mul_div_cancel_left _ (by decide)]
      exact Dvd.intro _ rfl
    · rw [if_neg h]
      obtain ⟨h1, h2⟩ := ih (by omega)
      exact ⟨by omega, h2⟩

/-- The pages from `current` up to `stop`. -/
def pageRange (current stop : Nat) : Set Nat :=
  {x | current / pmmPageSize ≤ x ∧ x < stop / pmmPageSize}

/-- The blocks of a region tile its pages. -/
theorem pmmRegionBlocks_tiling {n current stop T : Nat} (hc : current % pmmPageSize = 0)
    (hs : stop % pmmPageSize = 0) (hpos : 0 < current) (h64 : stop ≤ 2 ^ 64 - 2 ^ 22)
    (hT : stop / pmmPageSize ≤ T) (hn : (stop - current) / pmmPageSize ≤ n) :
    Tiling (pmmMaxOrder - 1) T (pageRange current stop) (pmmRegionBlocks n current stop) := by
  have hempty (h : stop ≤ current) : pageRange current stop = ∅ := by
    ext x
    simp only [pageRange, pmmPageSize, Set.mem_ofPred_eq, Set.mem_empty_iff_false, iff_false]
    omega
  induction n generalizing current with
  | zero =>
    rw [hempty (by simp only [pmmPageSize] at *; omega)]
    exact .nil
  | succ n ih =>
    unfold pmmRegionBlocks
    split
    · next hlt =>
      obtain ⟨hk, hdvd, hfit⟩ := pmmLargestOrder_spec hc hs hlt (M := pmmMaxOrder - 1)
        (by decide) h64
      generalize pmmLargestOrder current stop (pmmMaxOrder - 1) = k at hk hdvd hfit ⊢
      have hpow := Nat.two_pow_pos k
      simp only [Nat.one_shiftLeft]
      rw [add64_of_lt (by simp only [pmmPageSize] at *; omega)]
      have hrest := @ih (current + pmmPageSize * 2 ^ k)
        (by simp only [pmmPageSize] at *; omega) (by omega) (by simp only [pmmPageSize] at *; omega)
        (fun h => by
          ext x
          simp only [pageRange, pmmPageSize, Set.mem_ofPred_eq, Set.mem_empty_iff_false,
            iff_false] at *
          omega)
      have hb : (⟨current / pmmPageSize, k⟩ : Block).Aligned := hdvd
      have hcons := hrest.cons hb hk (by simp only [pmmPageSize] at *; omega)
        (by simp only [pmmPageSize] at *; omega)
        (fun x hx => by
          simp only [pageRange, Block.Covers, pmmPageSize, Set.mem_ofPred_eq] at *
          omega)
      convert hcons using 1
      ext x
      simp only [pageRange, Block.Covers, pmmPageSize, Set.mem_union, Set.mem_ofPred_eq] at *
      omega
    · next hge =>
      rw [hempty (not_lt.mp hge)]
      exact .nil

/-! ## The blocks of the memory map -/

namespace MemmapEntry

variable {e f : MemmapEntry} {T : Nat}

/-- The pages that are freed for an entry. -/
def pages (e : MemmapEntry) : Set Nat :=
  if e.type = .usable then pageRange e.start e.stop else ∅

theorem start_spec (h : e.base ≤ 2 ^ 64 - 2 ^ 22) : e.base ≤ e.start ∧ 0 < e.start := by
  simp only [MemmapEntry.start, addW, pmmPageSize]
  split <;> split <;> omega

theorem stop_spec (h : e.base + e.length ≤ 2 ^ 64 - 2 ^ 22) :
    e.stop ≤ e.base + e.length ∧ e.stop % pmmPageSize = 0 := by
  simp only [MemmapEntry.stop, addW, pmmPageSize]
  split <;> omega

/-- A usable entry lies below the end of the page array, and the largest block after it below
2⁶⁴. -/
def Fits (T : Nat) (e : MemmapEntry) : Prop :=
  e.type = .usable → e.base + e.length ≤ 2 ^ 64 - 2 ^ 22 ∧ e.base + e.length ≤ T * pmmPageSize

/-- An entry ends before another begins, if one of them is usable. -/
def Before (e f : MemmapEntry) : Prop :=
  e.type = .usable ∨ f.type = .usable → e.base + e.length ≤ f.base

theorem blocks_tiling (h : e.Fits T) : Tiling (pmmMaxOrder - 1) T e.pages e.blocks := by
  unfold pages blocks
  split
  · next hu =>
    obtain ⟨h64, hT⟩ := h hu
    obtain ⟨-, hpos⟩ := e.start_spec (by omega)
    obtain ⟨hle, hmod⟩ := e.stop_spec h64
    exact pmmRegionBlocks_tiling e.start_mod hmod hpos (by omega)
      (by simp only [pmmPageSize] at *; omega) le_rfl
  · exact .nil

theorem Before.pages_disjoint (h : e.Before f) (he : e.Fits T) (hf : f.Fits T)
    (hx : x ∈ e.pages) : x ∉ f.pages := by
  unfold pages at hx ⊢
  split at hx
  · next hu =>
    split
    · next hu' =>
      have hle := (e.stop_spec (he hu).1).1
      have hge := (f.start_spec (by have := (hf hu').1; omega)).1
      have hb := h (.inl hu)
      simp only [pageRange, pmmPageSize, Set.mem_ofPred_eq] at hx ⊢
      omega
    · exact fun h => h
  · exact absurd hx (by simp)

end MemmapEntry

open MemmapEntry in
/-- The blocks of a list of entries that follow each other tile the pages of the entries. -/
theorem memmapBlocks_tiling {memmap : List MemmapEntry} {T : Nat}
    (hb : memmap.Pairwise Before) (hf : ∀ e ∈ memmap, e.Fits T) :
    Tiling (pmmMaxOrder - 1) T {x | ∃ e ∈ memmap, x ∈ e.pages}
      (memmap.flatMap MemmapEntry.blocks) := by
  induction memmap with
  | nil => simpa using Tiling.nil
  | cons e memmap ih =>
    obtain ⟨hhead, htail⟩ := List.pairwise_cons.mp hb
    have hfe := hf e List.mem_cons_self
    have hft := fun f hm => hf f (List.mem_cons_of_mem _ hm)
    have := (blocks_tiling hfe).append (ih htail hft) fun x hx ⟨f, hm, hx'⟩ =>
      (hhead f hm).pages_disjoint hfe (hft f hm) hx hx'
    rw [List.flatMap_cons]
    convert this using 1
    ext x
    simp

/-- Every entry left after the page array has been taken out comes from an entry of the same
kind that reached at least as far down and ended at the same place. -/
theorem pmmReserveMemmap_origin {size T : Nat} {memmap memmap' : List MemmapEntry}
    (h : pmmReserveMemmap size memmap = some memmap') (hf : ∀ e ∈ memmap, e.Fits T) :
    ∀ e' ∈ memmap', ∃ e ∈ memmap, e'.type = e.type ∧ e.base ≤ e'.base ∧
      e'.base + e'.length = e.base + e.length := by
  induction memmap generalizing memmap' with
  | nil => cases h
  | cons e memmap ih =>
    unfold pmmReserveMemmap at h
    split at h
    · next hu =>
      cases h
      refine List.forall_mem_cons.mpr ⟨⟨e, List.mem_cons_self, rfl, ?_⟩, fun f hm =>
        ⟨f, List.mem_cons_of_mem _ hm, rfl, le_rfl, rfl⟩⟩
      have h64 := (hf e List.mem_cons_self hu.1).1
      simp only [add64_of_lt (show e.base + size < 2 ^ 64 by omega)]
      omega
    · obtain ⟨rest, hrest, rfl⟩ := Option.map_eq_some_iff.mp h
      refine List.forall_mem_cons.mpr ⟨⟨e, List.mem_cons_self, rfl, le_rfl, rfl⟩, fun f hm => ?_⟩
      obtain ⟨e₀, h₀, hspec⟩ := ih hrest (fun f hm => hf f (List.mem_cons_of_mem _ hm)) f hm
      exact ⟨e₀, List.mem_cons_of_mem _ h₀, hspec⟩

open MemmapEntry in
theorem pmmReserveMemmap_before {size T : Nat} {memmap memmap' : List MemmapEntry}
    (h : pmmReserveMemmap size memmap = some memmap') (hf : ∀ e ∈ memmap, e.Fits T)
    (hb : memmap.Pairwise Before) : memmap'.Pairwise Before := by
  induction memmap generalizing memmap' with
  | nil => cases h
  | cons e memmap ih =>
    obtain ⟨hhead, htail⟩ := List.pairwise_cons.mp hb
    have hft : ∀ f ∈ memmap, f.Fits T := fun f hm => hf f (List.mem_cons_of_mem _ hm)
    unfold pmmReserveMemmap at h
    split at h
    · next hu =>
      cases h
      refine List.pairwise_cons.mpr ⟨fun f hm hor => ?_, htail⟩
      have h64 := (hf e List.mem_cons_self hu.1).1
      have := hhead f hm (.inl hu.1)
      simp only [add64_of_lt (show e.base + size < 2 ^ 64 by omega)]
      omega
    · obtain ⟨rest, hrest, rfl⟩ := Option.map_eq_some_iff.mp h
      refine List.pairwise_cons.mpr ⟨fun f hm hor => ?_, ih hrest hft htail⟩
      obtain ⟨f₀, h₀, htype, hbase, -⟩ := pmmReserveMemmap_origin hrest hft f hm
      rw [htype] at hor
      exact (hhead f₀ h₀ hor).trans hbase

/-! ## The end of the page array -/

private theorem le_foldl_highest {a acc : Nat} {memmap : List MemmapEntry} (hacc : a ≤ acc)
    (h : ∀ e ∈ memmap, e.type.counted = true → a ≤ add64 e.base e.length) :
    a ≤ memmap.foldl
      (fun highest e => if e.type.counted then add64 e.base e.length else highest) acc := by
  induction memmap generalizing acc with
  | nil => exact hacc
  | cons e memmap ih =>
    refine ih ?_ fun f hm => h f (List.mem_cons_of_mem _ hm)
    beta_reduce
    split
    · next hc => exact h e List.mem_cons_self hc
    · exact hacc

/-- Every usable entry ends at or below the highest address. -/
theorem MemmapCarvable.le_highestAddr {memmap : List MemmapEntry} (H : MemmapCarvable memmap)
    {e : MemmapEntry} (he : e ∈ memmap) (hu : e.type = .usable) :
    e.base + e.length ≤ pmmHighestAddr memmap := by
  have hc : e.type.counted = true := by rw [hu]; rfl
  have h64 {f : MemmapEntry} (hf : f ∈ memmap) (hfc : f.type.counted = true) :
      add64 f.base f.length = f.base + f.length :=
    add64_of_lt (H.noWrap f hf hfc)
  obtain ⟨l, r, rfl⟩ := List.append_of_mem he
  have hafter := (List.pairwise_cons.mp (List.pairwise_append.mp H.apart).2.1).1
  unfold pmmHighestAddr
  rw [List.foldl_append, List.foldl_cons, if_pos hc, h64 he hc]
  refine le_foldl_highest le_rfl fun f hf hfc => ?_
  rw [h64 (List.mem_append_right _ (List.mem_cons_of_mem _ hf)) hfc]
  exact (hafter f hf (.inl hu)).trans (Nat.le_add_right _ _)

theorem pmmTotalPages_spec (a : Nat) : a ≤ pmmTotalPages a * pmmPageSize := by
  simp only [pmmTotalPages, pmmPageSize]
  split <;> omega

theorem pmmHighestAddr_lt (memmap : List MemmapEntry) : pmmHighestAddr memmap < 2 ^ 64 := by
  suffices ∀ acc < 2 ^ 64, memmap.foldl (fun highest e =>
      if e.type.counted then add64 e.base e.length else highest) acc < 2 ^ 64 from
    this 0 (by decide)
  induction memmap with
  | nil => exact fun _ h => h
  | cons e memmap ih =>
    intro acc hacc
    refine ih _ ?_
    beta_reduce
    split
    · exact Nat.mod_lt _ (by decide)
    · exact hacc

theorem MemmapCarvable.fits {memmap : List MemmapEntry} (H : MemmapCarvable memmap) :
    ∀ e ∈ memmap, e.Fits (pmmTotalPages (pmmHighestAddr memmap)) := fun e he hu =>
  ⟨H.below e he hu, (H.le_highestAddr he hu).trans (pmmTotalPages_spec _)⟩

/-- The entries that are left after the page array has been taken out. -/
theorem MemmapCarvable.memmap_spec {memmap memmap' : List MemmapEntry} (H : MemmapCarvable memmap)
    (hm : pmmMemmap memmap = some memmap') : memmap'.Pairwise MemmapEntry.Before ∧
      ∀ e ∈ memmap', e.Fits (pmmTotalPages (pmmHighestAddr memmap)) := by
  refine ⟨pmmReserveMemmap_before hm H.fits H.apart, fun e he hu => ?_⟩
  obtain ⟨f, hf, htype, -, hend⟩ := pmmReserveMemmap_origin hm H.fits e he
  rw [hend]
  exact H.fits f hf (htype ▸ hu)

/-- The blocks that `pmm_init` frees tile the pages it frees. -/
theorem MemmapCarvable.initBlocks_tiling {memmap : List MemmapEntry} (H : MemmapCarvable memmap) :
    Tiling (pmmMaxOrder - 1) (pmmTotalPages (pmmHighestAddr memmap)) (pmmInitPages memmap)
      (pmmInitBlocks memmap) := by
  unfold pmmInitPages pmmInitBlocks
  cases hm : pmmMemmap memmap with
  | none => simpa using Tiling.nil
  | some memmap' =>
    obtain ⟨hbefore, hfits⟩ := H.memmap_spec hm
    have htile := memmapBlocks_tiling hbefore hfits
    rw [Option.getD_some]
    convert htile using 1
    ext x
    exact (htile.cover x).symm

/-! ## The invariant after initialisation -/

private theorem ring_init (m : DllStore PmmNode) (n : Nat) : ∀ k < n,
    Ring ((List.range n).foldl (fun m i => dllInit m (.head i)) m) (.head k) [] := by
  induction n with
  | zero => exact fun k hk => absurd hk (Nat.not_lt_zero k)
  | succ n ih =>
    intro k hk
    rw [List.range_succ, List.foldl_append]
    rcases Nat.lt_succ_iff_lt_or_eq.mp hk with hk | rfl
    · refine (ih k hk).congr fun a ha => Ring.init_frame ?_
      rw [List.mem_singleton.mp ha]
      simp [hk.ne]
    · exact Ring.init

/-- Before anything is freed every page is reserved and every list is empty. -/
theorem BuddyInv.reservedState {totalPages highestAddr : Nat} (h : totalPages < 2 ^ 64) :
    BuddyInv (pmmReserved totalPages highestAddr) (fun _ => []) [] [] ∅ where
  tiling := by
    have : freeBlocks (fun _ => []) = [] := rfl
    rw [this]
    exact .nil
  ring k hk := ring_init _ _ k hk
  nrFree _ _ := rfl
  freeHead _ _ _ hp := by cases hp
  liveHead _ hb := by cases hb
  reserved _ _ _ := rfl
  noBuddies b hb := by simp at hb
  total_lt := h

variable {s : Pmm} {seq : Nat → List Nat} {live : List Block} {U V : Set Nat} {bs : List Block}

/-- Freeing a tiling of reserved pages. -/
theorem BuddyInv.freeAll (H : BuddyInv s seq live [] U)
    (hbs : Tiling (pmmMaxOrder - 1) s.totalPages V bs) (hd : ∀ x ∈ V, x ∉ U) :
    ∃ seq', BuddyInv (bs.foldl pmmFreeOne s) seq' live [] (U ∪ V) := by
  induction bs generalizing s seq U V with
  | nil =>
    have : V = ∅ := by ext x; simp [hbs.cover x]
    exact ⟨seq, by simpa [this] using H⟩
  | cons b bs ih =>
    have hb : b ∈ b :: bs := List.mem_cons_self
    have hcov : ∀ x, b.Covers x → x ∈ V := fun x hx => hbs.covers_mem hb hx
    have hclaim := H.claim (hbs.aligned b hb) (Nat.lt_succ_of_le (hbs.order_le b hb))
      (hbs.inside b hb) (hbs.base_pos b hb) fun x hx => hd x (hcov x hx)
    obtain ⟨seq₁, H₁⟩ := hclaim.freePages
    have htail := hbs.tail
    rw [← pmmFreePages_totalPages s (b.base * pmmPageSize) b.order] at htail
    obtain ⟨seq', H'⟩ := ih H₁ htail fun x hx hx' => by
      rcases hx' with hx' | hx'
      · exact hd x hx.1 hx'
      · exact hx.2 hx'
    refine ⟨seq', ?_⟩
    have hU : U ∪ {x | b.Covers x} ∪ (V \ {x | b.Covers x}) = U ∪ V := by
      ext x
      have := hcov x
      simp only [Set.mem_union, Set.mem_ofPred_eq, Set.mem_sdiff]
      tauto
    rw [hU] at H'
    exact H'

/-- `pmm_init` establishes the invariant, with nothing allocated. -/
theorem MemmapCarvable.init {memmap : List MemmapEntry} (H : MemmapCarvable memmap)
    (h : pmmInit memmap = some s) : ∃ seq, BuddyInv s seq [] [] (pmmInitPages memmap) := by
  rw [pmmInit_eq] at h
  obtain ⟨_, -, rfl⟩ := Option.map_eq_some_iff.mp h
  have htot : pmmTotalPages (pmmHighestAddr memmap) < 2 ^ 64 := by
    have := pmmHighestAddr_lt memmap
    simp only [pmmTotalPages, pmmPageSize]
    split <;> omega
  obtain ⟨seq, Hseq⟩ := (BuddyInv.reservedState htot).freeAll H.initBlocks_tiling
    fun _ _ => Set.notMem_empty _
  exact ⟨seq, by simpa using Hseq⟩

end Plos
