import Plos.Memory.Pmm.Runs

/-! The pages that `pmm_init` frees, read off the memory map.

The loops of `pmm_init` have a bound on their rounds in the model. `PmmInitReturns` is the run of
the loops without it: it has no result where a loop does not end. For a memory map that leaves room
for a block of the largest order below 2⁶⁴ the loops end, and they free the whole pages of the
usable entries, but for page 0 and for the pages of the page array. -/

namespace Plos

/-- The loop `while(current_phys < end)` of `pmm_init`. -/
inductive RegionLoop (stop : Nat) : Nat → Pmm → Pmm → Prop
  | done {current s} : ¬ current < stop → RegionLoop stop current s s
  | round {current s s'} : current < stop →
    RegionLoop stop
      (add64 current (pmmPageSize * (1 <<< pmmLargestOrder current stop (pmmMaxOrder - 1))))
      (pmmFreePages s current (pmmLargestOrder current stop (pmmMaxOrder - 1))) s' →
    RegionLoop stop current s s'

/-- The loop over the entries. -/
inductive PopulateLoop : List MemmapEntry → Pmm → Pmm → Prop
  | nil {s} : PopulateLoop [] s s
  | usable {e memmap s s₁ s'} : e.type = .usable → RegionLoop e.stop e.start s s₁ →
    PopulateLoop memmap s₁ s' → PopulateLoop (e :: memmap) s s'
  | other {e memmap s s'} : e.type ≠ .usable → PopulateLoop memmap s s' →
    PopulateLoop (e :: memmap) s s'

def PmmInitReturns (memmap : List MemmapEntry) (s : Pmm) : Prop :=
  ∃ memmap', pmmMemmap memmap = some memmap' ∧ PopulateLoop memmap'
    (pmmReserved (pmmTotalPages (pmmHighestAddr memmap)) (pmmHighestAddr memmap)) s

/-- What the boot loader promises, whatever the width of an address. -/
structure MemmapSorted (memmap : List MemmapEntry) : Prop where
  sorted : memmap.Pairwise fun e f => e.base ≤ f.base
  noWrap : ∀ e ∈ memmap, e.base + e.length < 2 ^ 64
  aligned : ∀ e ∈ memmap, e.type = .usable →
    e.base % pmmPageSize = 0 ∧ e.length % pmmPageSize = 0
  apart : memmap.Pairwise fun e f =>
    e.type = .usable ∨ f.type = .usable → e.base + e.length ≤ f.base

/-- `buddy_memmap_size`. -/
def pageArraySize (memmap : List MemmapEntry) : Nat :=
  pmmTotalPages (pmmHighestAddr memmap) * sizeofPmmPage

/-- The page array fits into a usable entry. -/
def MemmapEntry.Holds (e : MemmapEntry) (size : Nat) : Prop := e.type = .usable ∧ size ≤ e.length

instance (e : MemmapEntry) (size : Nat) : Decidable (e.Holds size) := by
  unfold MemmapEntry.Holds
  infer_instance

/-- The page `x` lies in a usable entry. -/
def MemmapEntry.HasPage (e : MemmapEntry) (x : Nat) : Prop :=
  e.type = .usable ∧ e.base ≤ x * pmmPageSize ∧ (x + 1) * pmmPageSize ≤ e.base + e.length

/-- The page `x` has a byte of `[base, base + size)`. -/
def TouchesPage (base size x : Nat) : Prop :=
  x * pmmPageSize < base + size ∧ base < (x + 1) * pmmPageSize

/-! ## The loops end -/

theorem RegionLoop.of_fuel {n current stop : Nat} (s : Pmm) (hc : current % pmmPageSize = 0)
    (hs : stop % pmmPageSize = 0) (h64 : stop ≤ 2 ^ 64 - 2 ^ 22)
    (hn : (stop - current) / pmmPageSize ≤ n) :
    RegionLoop stop current s (pmmFreeRegion n s current stop) := by
  induction n generalizing current s with
  | zero =>
    refine .done ?_
    simp only [pmmPageSize] at *
    omega
  | succ n ih =>
    unfold pmmFreeRegion
    split
    · next hlt =>
      refine .round hlt (ih _ ?_ ?_)
      all_goals
        obtain ⟨-, -, hfit⟩ := pmmLargestOrder_spec hc hs hlt (M := pmmMaxOrder - 1) (by decide) h64
        generalize pmmLargestOrder current stop (pmmMaxOrder - 1) = k at hfit ⊢
        have hpow := Nat.two_pow_pos k
        rw [Nat.one_shiftLeft, add64_of_lt (by simp only [pmmPageSize] at *; omega)]
        simp only [pmmPageSize] at *
        omega
    · next hge => exact .done hge

theorem PopulateLoop.of_fits {memmap : List MemmapEntry} {T : Nat} (s : Pmm)
    (h : ∀ e ∈ memmap, e.Fits T) : PopulateLoop memmap s (pmmPopulate s memmap) := by
  induction memmap generalizing s with
  | nil => exact .nil
  | cons e memmap ih =>
    obtain ⟨he, hrest⟩ := List.forall_mem_cons.mp h
    unfold pmmPopulate
    rw [List.foldl_cons]
    by_cases hu : e.type = .usable
    · rw [if_pos hu]
      obtain ⟨hle, hmod⟩ := e.stop_spec (he hu).1
      exact .usable hu (.of_fuel s e.start_mod hmod (Nat.le_trans hle (he hu).1) (Nat.le_refl _))
        (ih _ hrest)
    · rw [if_neg hu]
      exact .other hu (ih _ hrest)

theorem MemmapCarvable.returns {memmap : List MemmapEntry} {s : Pmm} (H : MemmapCarvable memmap)
    (h : pmmInit memmap = some s) : PmmInitReturns memmap s := by
  obtain ⟨memmap', hm, rfl⟩ := Option.map_eq_some_iff.mp h
  exact ⟨memmap', hm, .of_fits _ (H.memmap_spec hm).2⟩

/-! ## The pages that are freed -/

theorem MemmapEntry.mem_pages {e : MemmapEntry} {x : Nat}
    (h : e.base + e.length ≤ 2 ^ 64 - 2 ^ 22) :
    x ∈ e.pages ↔ e.HasPage x ∧ x ≠ 0 := by
  unfold MemmapEntry.pages MemmapEntry.HasPage
  by_cases hu : e.type = .usable
  · rw [if_pos hu]
    simp only [pageRange, MemmapEntry.start, MemmapEntry.stop, addW, pmmPageSize, Set.mem_ofPred_eq,
      hu, true_and]
    split <;> split <;> split <;> omega
  · simp [hu]

/-- The first entry that can hold the page array gives up its beginning. -/
theorem pmmReserveMemmap_eq {size : Nat} {memmap : List MemmapEntry} {e : MemmapEntry}
    (h : memmap.find? (·.Holds size) = some e) : ∃ l r, memmap = l ++ e :: r ∧ e.Holds size ∧
      pmmReserveMemmap size memmap =
        some (l ++ { e with base := add64 e.base size, length := e.length - size } :: r) := by
  induction memmap with
  | nil => cases h
  | cons f memmap ih =>
    unfold pmmReserveMemmap
    by_cases hf : f.Holds size
    · rw [List.find?_cons_of_pos (by exact decide_eq_true hf)] at h
      cases h
      exact ⟨[], memmap, rfl, hf, if_pos hf⟩
    · rw [List.find?_cons_of_neg (by simpa using hf)] at h
      obtain ⟨l, r, hmem, he, heq⟩ := ih h
      exact ⟨f :: l, r, congrArg (f :: ·) hmem, he,
        by rw [if_neg (show ¬ (_ ∧ _) from hf), heq]; rfl⟩

theorem pageArraySize_lt (memmap : List MemmapEntry) : pageArraySize memmap < 2 ^ 64 := by
  have := pmmHighestAddr_lt memmap
  simp only [pageArraySize, pmmTotalPages, pmmPageSize, sizeofPmmPage]
  split
  · omega
  · omega

theorem pmmMemmap_eq (memmap : List MemmapEntry) :
    pmmMemmap memmap = pmmReserveMemmap (pageArraySize memmap) memmap := by
  have hmod : pageArraySize memmap % 2 ^ 64 = pageArraySize memmap :=
    Nat.mod_eq_of_lt (pageArraySize_lt memmap)
  exact congrArg (pmmReserveMemmap · memmap) hmod

namespace MemmapCarvable

variable {memmap : List MemmapEntry} {e : MemmapEntry} {x : Nat}

theorem mem_initPages_of_memmap {memmap' : List MemmapEntry} (H : MemmapCarvable memmap)
    (hm : pmmMemmap memmap = some memmap') :
    x ∈ pmmInitPages memmap ↔ (∃ f ∈ memmap', f.HasPage x) ∧ x ≠ 0 := by
  obtain ⟨hbefore, hfits⟩ := H.memmap_spec hm
  have htile := memmapBlocks_tiling hbefore hfits
  rw [pmmInitPages, pmmInitBlocks, hm, Option.getD_some, Set.mem_ofPred_eq, ← htile.cover x,
    Set.mem_ofPred_eq]
  have hpages {f : MemmapEntry} (hf : f ∈ memmap') : x ∈ f.pages ↔ f.HasPage x ∧ x ≠ 0 := by
    by_cases hu : f.type = .usable
    · exact MemmapEntry.mem_pages (hfits f hf hu).1
    · simp [MemmapEntry.pages, MemmapEntry.HasPage, hu]
  constructor
  · rintro ⟨f, hf, hx⟩
    obtain ⟨hpage, hne⟩ := (hpages hf).mp hx
    exact ⟨⟨f, hf, hpage⟩, hne⟩
  · rintro ⟨⟨f, hf, hpage⟩, hne⟩
    exact ⟨f, hf, (hpages hf).mpr ⟨hpage, hne⟩⟩

/-- The pages of the usable entries but for page 0 and those of the page array. -/
theorem mem_initPages (H : MemmapCarvable memmap)
    (he : memmap.find? (·.Holds (pageArraySize memmap)) = some e) :
    x ∈ pmmInitPages memmap ↔
      (∃ f ∈ memmap, f.HasPage x) ∧ x ≠ 0 ∧ ¬ TouchesPage e.base (pageArraySize memmap) x := by
  obtain ⟨l, r, hmem, ⟨hu, hlen⟩, hres⟩ := pmmReserveMemmap_eq he
  rw [← pmmMemmap_eq] at hres
  rw [H.mem_initPages_of_memmap hres]
  have hbelow := H.below e (hmem ▸ List.mem_append_right _ List.mem_cons_self) hu
  have hapart := H.apart
  rw [hmem, List.pairwise_append, List.pairwise_cons] at hapart
  obtain ⟨-, ⟨hr, -⟩, hl⟩ := hapart
  generalize pageArraySize memmap = size at *
  have hsize : 0 < pmmPageSize := by decide
  have hbase : add64 e.base size = e.base + size := add64_of_lt (by omega)
  -- the page array lies in `e`, so no other usable entry has a page that it touches
  have hother {f : MemmapEntry} (hf : f ∈ l ∨ f ∈ r) (hp : f.HasPage x) :
      ¬ TouchesPage e.base size x := by
    obtain ⟨hfu, h₁, h₂⟩ := hp
    rintro ⟨h₃, h₄⟩
    rw [Nat.succ_mul] at h₂ h₄
    rcases hf with hf | hf
    · have := hl f hf e List.mem_cons_self (.inl hfu)
      omega
    · have := hr f hf (.inl hu)
      omega
  have hself :
      ({ e with base := add64 e.base size, length := e.length - size } : MemmapEntry).HasPage x ↔
      e.HasPage x ∧ ¬ TouchesPage e.base size x := by
    simp only [MemmapEntry.HasPage, TouchesPage, hbase, hu, true_and, Nat.succ_mul]
    omega
  rw [hmem]
  simp only [List.mem_append, List.mem_cons]
  constructor
  · rintro ⟨⟨f, hf, hp⟩, hne⟩
    rcases hf with hf | rfl | hf
    · exact ⟨⟨f, .inl hf, hp⟩, hne, hother (.inl hf) hp⟩
    · obtain ⟨hp, htouch⟩ := hself.mp hp
      exact ⟨⟨e, .inr (.inl rfl), hp⟩, hne, htouch⟩
    · exact ⟨⟨f, .inr (.inr hf), hp⟩, hne, hother (.inr hf) hp⟩
  · rintro ⟨⟨f, hf, hp⟩, hne, htouch⟩
    refine ⟨?_, hne⟩
    rcases hf with hf | rfl | hf
    · exact ⟨f, .inl hf, hp⟩
    · exact ⟨_, .inr (.inl rfl), hself.mpr ⟨hp, htouch⟩⟩
    · exact ⟨f, .inr (.inr hf), hp⟩

end MemmapCarvable

/-- Blocks that are apart cover a page at most once. -/
theorem countP_covers {bs : List Block} (h : bs.Pairwise Block.Disjoint) {b : Block} {x : Nat}
    (hb : b ∈ bs) (hx : b.Covers x) : bs.countP (fun b => decide (b.Covers x)) = 1 := by
  induction bs with
  | nil => cases hb
  | cons c bs ih =>
    obtain ⟨hhead, htail⟩ := List.pairwise_cons.mp h
    rcases List.mem_cons.mp hb with rfl | hb
    · rw [List.countP_cons_of_pos (by exact decide_eq_true hx)]
      refine congrArg (· + 1) (List.countP_eq_zero.mpr fun d hd hdx => ?_)
      exact hhead d hd x hx (of_decide_eq_true hdx)
    · rw [List.countP_cons_of_neg (by exact fun hc => hhead b hb x (of_decide_eq_true hc) hx)]
      exact ih htail hb

/-- If the usable entries end 4 MiB below 2⁶⁴ and one of them can hold the page array, `pmm_init`
returns. The free pages are then the whole pages of the usable entries, without page 0 and without
those that the page array touches; each of them has an entry in the page array, and one call has
freed it. -/
theorem pmmInit_carves {memmap : List MemmapEntry} (H : MemmapSorted memmap)
    (hbelow : ∀ e ∈ memmap, e.type = .usable → e.base + e.length ≤ 2 ^ 64 - 2 ^ 22)
    (hfit : ∃ e ∈ memmap, e.Holds (pageArraySize memmap)) :
    ∃ s e, pmmInit memmap = some s ∧ PmmInitReturns memmap s ∧
      s = (pmmInitBlocks memmap).foldl pmmFreeOne
        (pmmReserved (pmmTotalPages (pmmHighestAddr memmap)) (pmmHighestAddr memmap)) ∧
      memmap.find? (·.Holds (pageArraySize memmap)) = some e ∧
      (∀ x, x ∈ s.freePages ↔
        (∃ f ∈ memmap, f.HasPage x) ∧ x ≠ 0 ∧ ¬ TouchesPage e.base (pageArraySize memmap) x) ∧
      ∀ x ∈ s.freePages, x < s.totalPages ∧
        (pmmInitBlocks memmap).countP (fun b => decide (b.Covers x)) = 1 := by
  have Hc : MemmapCarvable memmap := ⟨H.apart, fun e he _ => H.noWrap e he, hbelow⟩
  obtain ⟨e, he⟩ : ∃ e, memmap.find? (·.Holds (pageArraySize memmap)) = some e := by
    obtain ⟨f, hf, hholds⟩ := hfit
    exact Option.isSome_iff_exists.mp (List.find?_isSome.mpr ⟨f, hf, decide_eq_true hholds⟩)
  obtain ⟨l, r, -, -, hres⟩ := pmmReserveMemmap_eq he
  rw [← pmmMemmap_eq] at hres
  obtain ⟨s, hs⟩ : ∃ s, pmmInit memmap = some s := by
    rw [pmmInit_eq, hres]
    exact ⟨_, rfl⟩
  have hinv := Hc.inv hs
  have hpages := hinv.freePages_of_nil rfl
  have htile := Hc.initBlocks_tiling
  refine ⟨s, e, hs, Hc.returns hs, ?_, he, fun x => ?_, fun x hx => ?_⟩
  · rw [pmmInit_eq, hres] at hs
    exact (Option.some.inj hs).symm
  · rw [hpages]
    exact Hc.mem_initPages he
  · obtain ⟨b, hb, hcov⟩ := hx
    refine ⟨hinv.blocks.lt_of_covers (List.mem_append_right _ hb) hcov, ?_⟩
    obtain ⟨c, hc, hcx⟩ := (htile.cover x).mp (hpages ▸ ⟨b, hb, hcov⟩)
    exact countP_covers htile.disjoint hc hcx

theorem smallMemmap_sorted : MemmapSorted smallMemmap where
  sorted := by decide
  noWrap := by decide
  aligned := by decide
  apart := by decide

theorem pmmInit_carves_small : MemmapSorted smallMemmap ∧
    (∃ e ∈ smallMemmap, e.Holds (pageArraySize smallMemmap)) ∧
    ∃ s e, pmmInit smallMemmap = some s ∧
      smallMemmap.find? (·.Holds (pageArraySize smallMemmap)) = some e ∧
      ∀ x, x ∈ s.freePages ↔ (∃ f ∈ smallMemmap, f.HasPage x) ∧ x ≠ 0 ∧
        ¬ TouchesPage e.base (pageArraySize smallMemmap) x := by
  have hfit : ∃ e ∈ smallMemmap, e.Holds (pageArraySize smallMemmap) := by decide
  obtain ⟨s, e, hs, -, -, he, hpages, -⟩ := pmmInit_carves smallMemmap_sorted (by decide) hfit
  exact ⟨smallMemmap_sorted, hfit, s, e, hs, he, hpages⟩

/-! An address is a word, and `current_phys + size` is not checked to be one. If a usable entry
reaches into the last 4 MiB below 2⁶⁴, the block of 4 MiB at its beginning seems to fit, and
`current_phys` wraps to 0. No processor has physical addresses of that width. -/

/-- The first entry holds the page array, and is used up by it. -/
def topMemmap : List MemmapEntry :=
  [⟨0, 2 ^ 57, .usable⟩, ⟨2 ^ 64 - 0x400000, 0x3ff000, .usable⟩]

theorem pmmLargestOrder_top {current : Nat} (h : current % 0x400000 = 0) :
    pmmLargestOrder current (2 ^ 64 - 0x1000) 10 = 10 := by
  have hsize : pmmPageSize * 1 <<< 10 = 2 ^ 22 := by decide
  unfold pmmLargestOrder
  rw [hsize, if_pos]
  rw [Nat.and_two_pow_sub_one_eq_mod]
  simp only [add64, addW]
  omega

/-- The loop goes round the addresses for ever. -/
theorem not_regionLoop_top {current : Nat} {s s' : Pmm} (h : current % 0x400000 = 0)
    (hlt : current < 2 ^ 64) : ¬ RegionLoop (2 ^ 64 - 0x1000) current s s' := by
  intro hloop
  induction hloop with
  | done hge => omega
  | round hlt' hloop ih =>
    have horder : pmmLargestOrder _ (2 ^ 64 - 0x1000) (pmmMaxOrder - 1) = 10 :=
      pmmLargestOrder_top h
    have hsize : pmmPageSize * 1 <<< 10 = 0x400000 := by decide
    rw [horder, hsize] at ih
    refine ih ?_ (Nat.mod_lt _ (by decide))
    simp only [addW]
    omega

theorem pmmInit_topMemmap : MemmapSorted topMemmap ∧
    (∃ e ∈ topMemmap, e.Holds (pageArraySize topMemmap)) ∧ ¬ ∃ s, PmmInitReturns topMemmap s := by
  refine ⟨⟨by decide, by decide, by decide, by decide⟩, by decide, ?_⟩
  rintro ⟨s, memmap', hm, hloop⟩
  have heq : pmmMemmap topMemmap =
      some [⟨2 ^ 57 - 32, 32, .usable⟩, ⟨2 ^ 64 - 0x400000, 0x3ff000, .usable⟩] := by decide
  cases heq.symm.trans hm
  cases hloop with
  | other hu => exact hu rfl
  | usable _ _ hloop =>
    cases hloop with
    | other hu => exact hu rfl
    | usable _ hregion _ => exact not_regionLoop_top (by decide) (by decide) hregion

end Plos
