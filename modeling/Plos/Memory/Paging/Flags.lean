import Plos.Memory.Paging.Regions

/-! `paging_change_page_flags`, after any sequence of calls that map and unmap pages.

The call rewrites the entry of the page wherever the table that holds it exists, and it keeps
nothing of the entry but the address. So it maps a page that was not mapped, to the frame at 0, and
it turns the entry of a huge page into a pointer to a table, unless bit 7 is among the new flags.
What the processor then takes for a table is whatever the memory holds there. -/

namespace Plos

/-- The entry with other flags. -/
def pagingChangedEntry (pte flags : Nat) : Nat :=
  (pte &&& pagingPteAddrMask) ||| pteFlagPresent ||| flags

def pagingChangePageFlags {α : Type} (A : FrameAllocator α) (m : Machine α)
    (pml4Root virtAddr flags : Nat) (isHugePage : Bool) : Option (Machine α) :=
  if virtAddr = 0 then none
  else
    match vmmGetPte A m pml4Root virtAddr false isHugePage with
    | (m, none) => some m
    | (m, some pte) =>
      some { m with mem := Function.update m.mem pte (pagingChangedEntry (m.mem pte) flags) }

variable {α : Type} {A : FrameAllocator α} {root virt flags : Nat} {m : Machine α} {mem : Nat → Nat}
  {T : List Nat → Option Nat} {leaf : List Nat → Nat} {isHuge : Bool}

/-! ## The entry -/

section
variable {e : Nat}

/-- The address stays. -/
theorem pagingChangedEntry_and {k : Nat} (hk : pagingPteAddrMask &&& k = k)
    (hflags : flags &&& pagingPteAddrMask = 0) : pagingChangedEntry e flags &&& k = e &&& k := by
  have hzero {a : Nat} (h : a &&& pagingPteAddrMask = 0) : a &&& k = 0 := by
    rw [← hk, ← Nat.and_assoc, h, Nat.zero_and]
  have hpresent : pteFlagPresent &&& k = 0 := hzero (by decide)
  rw [pagingChangedEntry, Nat.and_or_distrib_right, Nat.and_or_distrib_right, Nat.and_assoc, hk,
    hzero hflags, hpresent, Nat.or_zero, Nat.or_zero]

/-- The other bits are those of the flags. -/
theorem pagingChangedEntry_testBit {i : Nat} (hi : i < 12 ∨ 52 ≤ i) :
    (pagingChangedEntry e flags).testBit i = ((1 : Nat).testBit i || flags.testBit i) := by
  have hmask : IsFrame pagingPteAddrMask := ⟨by decide, by decide⟩
  rw [pagingChangedEntry, Nat.testBit_or, Nat.testBit_or, Nat.testBit_and,
    hmask.testBit_eq_false hi, Bool.and_false, Bool.false_or]
  rfl

theorem pagingChangedEntry_present : (pagingChangedEntry e flags).testBit 0 = true := by
  rw [pagingChangedEntry_testBit (.inl (Nat.succ_pos 11))]
  rfl

theorem leafRights_pagingChangedEntry :
    leafRights (pagingChangedEntry e flags) = PageMap.rights flags := by
  have hbit {i : Nat} (hi : i < 12 ∨ 52 ≤ i) (hone : (1 : Nat).testBit i = false) :
      (pagingChangedEntry e flags).testBit i = flags.testBit i := by
    rw [pagingChangedEntry_testBit hi, hone, Bool.false_or]
  rw [PageMap.Rel.leafRights_eq, PageMap.rights, PageMap.rights, hbit (.inl (by decide)) rfl,
    hbit (.inl (by decide)) rfl, hbit (.inr (by decide)) rfl]

/-- The new entry is one of a page, if bit 7 is set for a huge page. -/
theorem leafOk_pagingChangedEntry (h : LeafOk (leafPath virt isHuge) e)
    (hflags : flags &&& pagingPteAddrMask = 0) (hps : isHuge = true → flags.testBit 7 = true) :
    LeafOk (leafPath virt isHuge) (pagingChangedEntry e flags) := by
  refine .inr ⟨pagingChangedEntry_present, ?_⟩
  cases isHuge with
  | false => exact .inl rfl
  | true =>
    refine .inr ⟨rfl, ?_, ?_⟩
    · rw [pagingChangedEntry_testBit (.inl (by decide)), hps rfl, Bool.or_true]
    · rw [pagingChangedEntry_and (by decide) hflags]
      rcases h with rfl | ⟨-, h | ⟨-, -, h⟩⟩
      · rfl
      · cases h
      · exact h

end

/-! ## The call -/

/-- The call does nothing if the table is missing, and rewrites the entry otherwise. -/
theorem pagingChangePageFlags_spec (H : PageTree 512 root m.mem T leaf) (hv : virt ≠ 0)
    (hfree : SizeFree isHuge T leaf virt) :
    pagingChangePageFlags A m root virt flags isHuge =
      some ((T (tablePath virt isHuge)).elim m fun table => { m with
        mem := Function.update m.mem (entryAddr table (entryIndex virt isHuge))
          (pagingChangedEntry (leaf (leafPath virt isHuge)) flags) }) := by
  rw [pagingChangePageFlags, if_neg hv,
    vmmGetPte_false H (Nat.mod_lt _ (Nat.two_pow_pos 9)) hfree.small]
  cases htable : T (tablePath virt isHuge) with
  | none => rfl
  | some table =>
    have hentry := H.mem_entry htable (entryIndex_lt_tableSize 512 virt isHuge)
    rw [← leafPath, H.none_leafPath hfree.huge, Option.elim_none] at hentry
    simp only [Option.map_some, Option.elim_some, hentry]

/-- Every address keeps its physical address, and those on the page get the rights of the flags if
they are mapped. -/
def OnlyRights (root virt flags : Nat) (isHuge : Bool) (mem mem' : Nat → Nat) : Prop :=
  (∀ x, (pageWalk mem' root x).map Prod.fst = (pageWalk mem root x).map Prod.fst) ∧
    ∀ x, pageNumber x isHuge = pageNumber virt isHuge → (pageWalk mem root x).isSome →
      (pageWalk mem' root x).map Prod.snd = some (PageMap.rights flags)

/-- The new entry is that of a page: its address is the old one and its rights are those of the
flags. -/
theorem PageTree.changeLeaf (H : PageTree 512 root mem T leaf) (hcan : Canonical virt)
    (hfree : SizeFree isHuge T leaf virt) {table : Nat}
    (htable : T (tablePath virt isHuge) = some table) (hflags : flags &&& pagingPteAddrMask = 0)
    (hps : isHuge = true → flags.testBit 7 = true) :
    ∃ leaf', PageTree 512 root (Function.update mem (entryAddr table (entryIndex virt isHuge))
        (pagingChangedEntry (leaf (leafPath virt isHuge)) flags)) T leaf' ∧
      Written isHuge virt 1 (fun _ => pagingChangedEntry (leaf (leafPath virt isHuge)) flags) leaf
        leaf' ∧
      ∀ x, Canonical x → pageNumber x isHuge = pageNumber virt isHuge →
        pageWalk (Function.update mem (entryAddr table (entryIndex virt isHuge))
            (pagingChangedEntry (leaf (leafPath virt isHuge)) flags)) root x =
          some ((leaf (leafPath virt isHuge) &&& leafMask isHuge) + x % pagingStride isHuge,
            PageMap.rights flags) := by
  have H' :=
    PageTree.writeLeaf (m := ⟨mem, ()⟩) H htable (H.none_leafPath (m := ⟨mem, ()⟩) hfree.huge)
      (leafOk_pagingChangedEntry (H.leaves _) hflags hps)
  have W : Written isHuge virt 1 (fun _ => pagingChangedEntry (leaf (leafPath virt isHuge)) flags)
      leaf _ :=
    .one virt _
  refine ⟨_, H', W, fun x hx hp => ?_⟩
  have hmask : pagingPteAddrMask &&& leafMask isHuge = leafMask isHuge := by
    cases isHuge with
    | true => decide
    | false => decide
  have hnew := W.hit_page (fun i hi => (Nat.lt_one_iff.mp hi) ▸ hcan) Nat.one_pos hp
  have hne : pagingChangedEntry (leaf (leafPath virt isHuge)) flags ≠ 0 :=
    ne_zero_of_testBit pagingChangedEntry_present
  rw [← hnew] at hne
  rw [H'.pageWalk_full hx,
    leafWalk_of_ne_zero hne (W.sizeFree (hfree.congr hp) fun _ _ hf => hf).small, hnew,
    pagingChangedEntry_and hmask hflags, leafRights_pagingChangedEntry]

/-- The call keeps what it should for a page that is mapped, if bit 7 is set for a huge page. -/
theorem PageTree.onlyRights_of_mapped (H : PageTree 512 root mem T leaf) (hcan : Canonical virt)
    (hfree : SizeFree isHuge T leaf virt) {table : Nat}
    (htable : T (tablePath virt isHuge) = some table) (hne : leaf (leafPath virt isHuge) ≠ 0)
    (hflags : flags &&& pagingPteAddrMask = 0) (hps : isHuge = true → flags.testBit 7 = true) :
    OnlyRights root virt flags isHuge mem
      (Function.update mem (entryAddr table (entryIndex virt isHuge))
      (pagingChangedEntry (leaf (leafPath virt isHuge)) flags)) := by
  obtain ⟨leaf', H', W, hwalk⟩ := H.changeLeaf hcan hfree htable hflags hps
  have hold {x : Nat} (hx : Canonical x) (hp : pageNumber x isHuge = pageNumber virt isHuge) :
      pageWalk mem root x =
        some ((leaf (leafPath virt isHuge) &&& leafMask isHuge) + x % pagingStride isHuge,
        leafRights (leaf (leafPath virt isHuge))) := by
    have hpath := leafPath_congr hp
    rw [H.pageWalk_full hx, leafWalk_of_ne_zero (hpath ▸ hne) (hfree.congr hp).small, hpath]
  refine ⟨fun x => ?_, fun x hp hsome => ?_⟩
  · by_cases hx : Canonical x
    · by_cases hp : pageNumber x isHuge = pageNumber virt isHuge
      · rw [hold hx hp, hwalk x hx hp, Option.map_some, Option.map_some]
      · rw [H.pageWalk_full hx, H'.pageWalk_full hx, W.leafWalk_eq ?_ hx ?_]
        · exact fun i hi => (Nat.lt_one_iff.mp hi) ▸ hcan
        · exact fun i hi => (Nat.lt_one_iff.mp hi) ▸ hp
    · rw [pageWalk_of_not_canonical hx, pageWalk_of_not_canonical hx]
  · by_cases hx : Canonical x
    · rw [hwalk x hx hp, Option.map_some]
    · rw [pageWalk_of_not_canonical hx] at hsome
      cases hsome

/-- A page that was not mapped is mapped by the call. -/
theorem PageTree.not_onlyRights_of_unmapped (H : PageTree 512 root mem T leaf)
    (hcan : Canonical virt) (hfree : SizeFree isHuge T leaf virt) {table : Nat}
    (htable : T (tablePath virt isHuge) = some table) (hzero : leaf (leafPath virt isHuge) = 0)
    (hflags : flags &&& pagingPteAddrMask = 0) (hps : isHuge = true → flags.testBit 7 = true) :
    ¬ OnlyRights root virt flags isHuge mem
      (Function.update mem (entryAddr table (entryIndex virt isHuge))
      (pagingChangedEntry (leaf (leafPath virt isHuge)) flags)) := by
  intro h
  obtain ⟨leaf', H', W, hwalk⟩ := H.changeLeaf hcan hfree htable hflags hps
  have hsame := h.1 virt
  rw [hwalk virt hcan rfl, H.pageWalk_full hcan, leafWalk_eq_none H hfree hzero] at hsame
  cases hsame

/-- Nothing happens to a page without a table. -/
theorem PageTree.onlyRights_of_none (H : PageTree 512 root mem T leaf)
    (hfree : SizeFree isHuge T leaf virt) (htable : T (tablePath virt isHuge) = none) :
    OnlyRights root virt flags isHuge mem mem := by
  refine ⟨fun _ => rfl, fun x hp hsome => ?_⟩
  by_cases hx : Canonical x
  · have hzero : leaf (leafPath x isHuge) = 0 := leafPath_congr hp ▸ H.leaf_of_none htable _
    rw [H.pageWalk_full hx, leafWalk_eq_none H (hfree.congr hp) hzero] at hsome
    cases hsome
  · rw [pageWalk_of_not_canonical hx] at hsome
    cases hsome

/-! ## An entry that has become a pointer -/

/-- The walk goes through a pointer in the entry of a huge page to whatever is there. -/
theorem PageTree.pageWalk_pointer (H : PageTree 512 root mem T leaf) (hcan : Canonical virt)
    {pd e : Nat} (hpd : T (tablePath virt true) = some pd) (hpresent : e.testBit 0 = true)
    (hps : e.testBit 7 = false) :
    (pageWalk (Function.update mem (entryAddr pd (entryIndex virt true)) e) root virt).isSome =
      (Function.update mem (entryAddr pd (entryIndex virt true)) e
        (entryAddr (e &&& pagingPteAddrMask) (virt / 2 ^ 12 % 512))).testBit 0 := by
  have hlt (k : Nat) : virt / k % 512 < 512 := Nat.mod_lt _ (Nat.two_pow_pos 9)
  have hpd' : T ([virt / 2 ^ 39 % 512] ++ [virt / 2 ^ 30 % 512]) = some pd := hpd
  obtain ⟨-, pdpt, hpdpt⟩ := H.parent hpd'
  have htable {f : Nat} (hf : IsFrame f) : (tableEntry f).testBit 0 = true ∧
      (tableEntry f).testBit 7 = false :=
    ⟨hf.tableEntry_testBit (.inl (by decide)), hf.tableEntry_testBit (.inl (by decide))⟩
  -- the entries above the changed one are those of the tree
  have habove {p : List Nat} {f g i : Nat} (hp : T p = some f) (hi : i < tableSize 512 p)
      (hg : T (p ++ [i]) = some g) (hlen : p.length < 2) :
      Function.update mem (entryAddr pd (entryIndex virt true)) e (entryAddr f i) =
        tableEntry g := by
    rw [Function.update_of_ne, H.mem_entry hp hi, hg, Option.elim_some]
    intro heq
    obtain ⟨rfl, -⟩ := H.slot_eq hp hi hpd (entryIndex_lt_tableSize 512 virt true) heq
    exact absurd hlen (Nat.lt_irrefl 2)
  generalize hmem : Function.update mem (entryAddr pd (entryIndex virt true)) e = mem' at *
  have hroot : mem' (entryAddr root (virt / 2 ^ 39 % 512)) = tableEntry pdpt :=
    habove H.root_eq (hlt _) hpdpt Nat.two_pos
  have hnext : mem' (entryAddr pdpt (virt / 2 ^ 30 % 512)) = tableEntry pd :=
    habove hpdpt (hlt _) hpd' Nat.one_lt_two
  have hentry : mem' (entryAddr pd (virt / 2 ^ 21 % 512)) = e := by
    rw [← hmem]
    exact Function.update_self ..
  have hpdpt' := H.valid hpdpt
  have hpdv := H.valid hpd
  simp only [pageWalk, hroot, hpdpt'.tableEntry_and_addrMask, hnext, hpdv.tableEntry_and_addrMask,
    hentry, if_neg (not_not.mpr hcan), htable hpdpt', htable hpdv, hpresent, hps]
  cases hbit : (mem' (entryAddr (e &&& pagingPteAddrMask) (virt / 2 ^ 12 % 512))).testBit 0 with
  | false => simp
  | true => simp

theorem isFrame_and_addrMask (e : Nat) : IsFrame (e &&& pagingPteAddrMask) := by
  have hmask : pagingPteAddrMask % 2 ^ 12 = 0 := by decide
  refine ⟨?_, Nat.lt_of_le_of_lt Nat.and_le_right (by decide)⟩
  change (e &&& pagingPteAddrMask) % 2 ^ 12 = 0
  rw [Nat.and_mod_two_pow, hmask, Nat.and_zero]

/-- The first address of a huge page. -/
def hugeBase (virt : Nat) : Nat := virt / 2 ^ 21 * 2 ^ 21

theorem Canonical.hugeBase (h : Canonical virt) : Canonical (hugeBase virt) := by
  simp only [Canonical, Plos.hugeBase] at *
  omega

theorem pageNumber_hugeBase (virt : Nat) : pageNumber (hugeBase virt) true = pageNumber virt true :=
  Nat.mul_div_cancel _ (Nat.two_pow_pos 21)

theorem hugeBase_ptIndex (virt : Nat) : hugeBase virt / 2 ^ 12 % 512 = 0 := by
  rw [hugeBase]
  omega

/-- In a slot for huge pages, an address is translated if its entry is not empty. -/
theorem PageTree.isSome_pageWalk_huge (H : PageTree 512 root mem T leaf) (hcan : Canonical virt)
    (hfree : SizeFree true T leaf virt) :
    (pageWalk mem root virt).isSome = !decide (leaf (leafPath virt true) = 0) := by
  rw [H.pageWalk_full hcan]
  by_cases hzero : leaf (leafPath virt true) = 0
  · rw [leafWalk_eq_none H hfree hzero, decide_eq_true hzero]
    rfl
  · rw [leafWalk_of_ne_zero hzero hfree.small, decide_eq_false hzero]
    rfl

/-- One word at the start of the page that the entry names can change the translation. -/
theorem PageTree.not_onlyRights_of_pointer (H : PageTree 512 root mem T leaf)
    (hcan : Canonical virt) {pd : Nat} (hpd : T (tablePath virt true) = some pd)
    (hfree : SizeFree true T leaf virt)
    (hdata : ∀ p, T p ≠ some (leaf (leafPath virt true) &&& pagingPteAddrMask))
    (hflags : flags &&& pagingPteAddrMask = 0) (hps : flags.testBit 7 = false) :
    ∃ mem', (∀ x, x ≠ leaf (leafPath virt true) &&& pagingPteAddrMask → mem' x = mem x) ∧
      ¬ OnlyRights root virt flags true mem'
        (Function.update mem' (entryAddr pd (entryIndex virt true))
        (pagingChangedEntry (leaf (leafPath virt true)) flags)) := by
  have hpage := pageNumber_hugeBase virt
  have hpath : leafPath (hugeBase virt) true = leafPath virt true := leafPath_congr hpage
  obtain ⟨htable, hindex⟩ := snoc_inj hpath
  obtain ⟨e, he⟩ : ∃ e, leaf (leafPath virt true) = e := ⟨_, rfl⟩
  rw [he] at hdata ⊢
  -- the word looks like the entry of a page exactly if the huge page was not mapped
  obtain ⟨mem', hmem'⟩ :
      ∃ mem', mem' = Function.update mem (e &&& pagingPteAddrMask) (if e = 0 then 1 else 0) :=
    ⟨_, rfl⟩
  refine ⟨mem', fun x hx => hmem' ▸ Function.update_of_ne hx .., fun h => ?_⟩
  have hne {p : List Nat} {f i : Nat} (hp : T p = some f) (hi : i < 512) :
      entryAddr f i ≠ e &&& pagingPteAddrMask := by
    intro heq
    obtain ⟨rfl, -⟩ :=
      pageFormat.slot_inj (H.valid hp) (isFrame_and_addrMask _) hi (j := 0) (by decide) heq
    exact hdata p hp
  have H' : PageTree 512 root mem' T leaf := H.congr fun p f i hp hi =>
    hmem' ▸ Function.update_of_ne (hne hp (Nat.lt_of_lt_of_le hi (H.size_le_512 p))) ..
  have hbefore := H'.isSome_pageWalk_huge hcan.hugeBase (hfree.congr hpage)
  have hps' : (pagingChangedEntry e flags).testBit 7 = false := by
    rw [pagingChangedEntry_testBit (.inl (by decide)), hps]
    rfl
  have hafter :=
    H'.pageWalk_pointer hcan.hugeBase (htable.symm ▸ hpd) pagingChangedEntry_present hps'
  have hfirst : entryAddr (e &&& pagingPteAddrMask) 0 = e &&& pagingPteAddrMask := rfl
  rw [hindex, pagingChangedEntry_and (Nat.and_self _) hflags, hugeBase_ptIndex, hfirst,
    Function.update_of_ne (hne hpd (entryIndex_lt virt true)).symm, hmem', Function.update_self,
      ← hmem'] at hafter
  have hsame := congrArg Option.isSome (h.1 (hugeBase virt))
  rw [Option.isSome_map, Option.isSome_map, hbefore, hafter, hpath, he] at hsame
  by_cases hzero : e = 0
  · rw [if_pos hzero, decide_eq_true hzero] at hsame
    cases hsame
  · rw [if_neg hzero, decide_eq_false hzero] at hsame
    cases hsame

/-! ## The frames of the tables -/

/-- The frames in use are not 0 and can be put into an entry. -/
theorem pagingRun_used {ops : List PagingOp} {s s' : PagingSys}
    (hs : ∀ f ∈ s.used, f ≠ 0 ∧ IsFrame f) (h : runFrom (pagingStep root) s ops = some s') :
    ∀ f ∈ s'.used, f ≠ 0 ∧ IsFrame f := by
  refine runFrom_induction (I := fun s => ∀ f ∈ s.used, f ≠ 0 ∧ IsFrame f)
    (fun s op s' hs hop => ?_) hs h
  obtain ⟨⟨-, -, harg⟩, hop⟩ := Option.ite_none_right_eq_some.mp hop
  obtain ⟨m', hcall, rfl⟩ := Option.map_eq_some_iff.mp hop
  have halloc (a : Offers)
      (ha : (∀ f ∈ a.used, f ≠ 0 ∧ IsFrame f) ∧ ∀ f ∈ a.next, f ≠ 0 ∧ IsFrame f) :
      (∀ f ∈ (offersAllocator.alloc a).1.used, f ≠ 0 ∧ IsFrame f) ∧
        ∀ f ∈ (offersAllocator.alloc a).1.next, f ≠ 0 ∧ IsFrame f := by
    obtain ⟨used, next⟩ := a
    cases next with
    | nil => exact ha
    | cons f next =>
      obtain ⟨hf, hnext⟩ := List.forall_mem_cons.mp ha.2
      exact ⟨List.forall_mem_cons.mpr ⟨hf, ha.1⟩, hnext⟩
  cases op with
  | map virt phys flags isHuge next =>
    obtain ⟨-, -, -, -, hnext⟩ := harg
    exact (pagingMapPage_frames halloc
      ⟨hs, fun f hf => ⟨(hnext f hf).1, (hnext f hf).2.1, (hnext f hf).2.2.1⟩⟩
      hcall).1
  | unmap virt isHuge freePhysical =>
    exact (pagingUnmapPage_frames halloc (fun _ _ ha => ha)
      ⟨hs, fun f hf => (List.not_mem_nil hf).elim⟩ hcall).1

/-! ## After any sequence of calls -/

/-- The address in the entry of a huge page is its frame, and 0 if it is not mapped. -/
theorem PageMap.Rel.huge_and_addrMask {slotHuge : Nat → Bool} {s : PagingSys} {M : PageMap}
    (H : Rel slotHuge root T leaf s M) (hcan : Canonical virt) :
    leaf (leafPath virt true) &&& pagingPteAddrMask = (M.huge (virt / 2 ^ 21)).elim 0 Prod.fst := by
  rw [H.leaves virt hcan true]
  change mapEntry true (M.huge (virt / 2 ^ 21)) &&& pagingPteAddrMask = _
  cases hget : M.huge (virt / 2 ^ 21) with
  | none => exact Nat.zero_and _
  | some value =>
    have hok := (H.values true _ value hget).1
    exact (pagingEntry_and_addrMask hok.2.1 hok.2.2).trans (mapEntry_some hok).2.1

/-- Whatever the memory outside of the tables holds, the call changes only rights exactly if there
is no table for the entry, or the page is mapped and, if it is huge, bit 7 is among the flags. -/
theorem PageMap.Rel.onlyRights_iff {slotHuge : Nat → Bool} {s : PagingSys} {M : PageMap}
    (H : Rel slotHuge root T leaf s M) (hused : ∀ f ∈ s.used, f ≠ 0 ∧ IsFrame f)
    (hcan : Canonical virt) (hv : virt ≠ 0) (hslot : slotHuge (virt / 2 ^ 21) = isHuge)
    (hflags : flags &&& pagingPteAddrMask = 0)
    (hdata : isHuge = true → ∀ value, M.huge (virt / 2 ^ 21) = some value → value.1 ∉ s.used) :
    (∀ mem', (∀ f ∈ s.used, ∀ x, InFrame f x → mem' x = s.mem x) →
        ∃ m', pagingChangePageFlags offersAllocator ⟨mem', ⟨s.used, []⟩⟩ root virt flags isHuge =
          some m' ∧ OnlyRights root virt flags isHuge mem' m'.mem) ↔
      T (tablePath virt isHuge) = none ∨
        (M.get isHuge (pageNumber virt isHuge)).isSome ∧
        (isHuge = true → flags.testBit 7 = true) := by
  obtain ⟨hsmall, hhuge⟩ := H.fits hcan hslot
  have hfree : SizeFree isHuge T leaf virt := by
    cases isHuge with
    | true => exact hhuge rfl
    | false => exact hsmall rfl
  have hmapped : leaf (leafPath virt isHuge) ≠ 0 ↔
      (M.get isHuge (pageNumber virt isHuge)).isSome := by
    rw [H.leaves virt hcan isHuge]
    cases hget : M.get isHuge (pageNumber virt isHuge) with
    | none => exact ⟨fun h => absurd rfl h, nofun⟩
    | some value =>
      exact ⟨fun _ => rfl, fun _ => (mapEntry_some (H.values isHuge _ value hget).1).1⟩
  -- the tables are the same, whatever the rest of the memory holds
  have htree {mem' : Nat → Nat} (hmem : ∀ f ∈ s.used, ∀ x, InFrame f x → mem' x = s.mem x) :
      PageTree 512 root mem' T leaf := H.tree.congr fun p f i hp hi =>
    hmem f (H.used p f hp) _ (inFrame_entryAddr (Nat.lt_of_lt_of_le hi (H.tree.size_le_512 p)))
  cases htable : T (tablePath virt isHuge) with
  | none =>
    refine ⟨fun _ => .inl rfl, fun _ mem' hmem =>
      ⟨_, pagingChangePageFlags_spec (htree hmem) hv hfree, ?_⟩⟩
    rw [htable]
    exact (htree hmem).onlyRights_of_none hfree htable
  | some table =>
    constructor
    · intro h
      have hcall {mem' : Nat → Nat} (hmem : ∀ f ∈ s.used, ∀ x, InFrame f x → mem' x = s.mem x) :
          OnlyRights root virt flags isHuge mem' (Function.update mem'
            (entryAddr table (entryIndex virt isHuge))
            (pagingChangedEntry (leaf (leafPath virt isHuge)) flags)) := by
        obtain ⟨m', hr, honly⟩ := h mem' hmem
        have hspec := hr.symm.trans (pagingChangePageFlags_spec (htree hmem) hv hfree)
        rw [htable, Option.elim_some] at hspec
        cases hspec
        exact honly
      have hps : isHuge = true → flags.testBit 7 = true := by
        rintro rfl
        by_contra hps
        have hnot : leaf (leafPath virt true) &&& pagingPteAddrMask ∉ s.used := by
          rw [H.huge_and_addrMask hcan]
          cases hget : M.huge (virt / 2 ^ 21) with
          | none => exact fun h0 => (hused 0 h0).1 rfl
          | some value => exact hdata rfl value hget
        obtain ⟨mem', hmem, hchanged⟩ := H.tree.not_onlyRights_of_pointer hcan htable hfree
          (fun p hp => hnot (H.used p _ hp)) hflags (eq_false_of_ne_true hps)
        refine hchanged (hcall fun f hf x hx => hmem x ?_)
        rintro rfl
        -- the changed word is the first of its frame, and in no frame of a table
        have hself : InFrame (leaf (leafPath virt true) &&& pagingPteAddrMask)
            (leaf (leafPath virt true) &&& pagingPteAddrMask) :=
              inFrame_entryAddr (i := 0) (by decide)
        exact hnot (InFrame.eq (hused f hf).2 (isFrame_and_addrMask _) hx hself ▸ hf)
      refine .inr ⟨hmapped.mp fun hzero => ?_, hps⟩
      exact H.tree.not_onlyRights_of_unmapped hcan hfree htable hzero hflags hps
        (hcall fun _ _ _ _ => rfl)
    · rintro (hnone | ⟨hsome, hps⟩) mem' hmem
      · cases hnone
      · refine ⟨_, pagingChangePageFlags_spec (htree hmem) hv hfree, ?_⟩
        rw [htable]
        exact (htree hmem).onlyRights_of_mapped hcan hfree htable (hmapped.mpr hsome) hflags hps

/-- After any sequence of calls that uses no slot with both page sizes, and whatever the memory
outside of the tables holds, the call changes only rights exactly if no earlier call has made the
table of the entry, or the page is mapped and, if it is huge, bit 7 is among the flags. -/
theorem pagingChangePageFlags_onlyRights_iff {ops : List PagingOp} {s : PagingSys}
    (hroot : IsFrame root) (hroot0 : root ≠ 0) (hzero : ∀ i < 512, mem (entryAddr root i) = 0)
    (hsizes : ∀ op ∈ ops, ∀ op' ∈ ops, op.SameSize op')
    (hrun : runFrom (pagingStep root) ⟨mem, [root]⟩ ops = some s) (hcan : Canonical virt)
    (hv : virt ≠ 0) (hsame : ∀ op ∈ ops, op.virt / 2 ^ 21 = virt / 2 ^ 21 → op.isHuge = isHuge)
    (hflags : flags &&& pagingPteAddrMask = 0)
    (hdata : isHuge = true → ∀ value, (ops.foldl PageMap.step PageMap.empty).huge (virt / 2 ^ 21) =
      some value → value.1 ∉ s.used) :
    (∀ mem', (∀ f ∈ s.used, ∀ x, InFrame f x → mem' x = s.mem x) →
        ∃ m', pagingChangePageFlags offersAllocator ⟨mem', ⟨s.used, []⟩⟩ root virt flags isHuge =
          some m' ∧ OnlyRights root virt flags isHuge mem' m'.mem) ↔
      (∀ op ∈ ops, ¬ op.Makes (tablePath virt isHuge)) ∨
        ((ops.foldl PageMap.step PageMap.empty).get isHuge (pageNumber virt isHuge)).isSome ∧
          (isHuge = true → flags.testBit 7 = true) := by
  obtain ⟨slotHuge, hslots, hslot⟩ := PagingOp.exists_slotHuge hsizes hsame
  obtain ⟨T, leaf, H, htables⟩ := (PageMap.Rel.init hroot hzero).run hslots hrun
  have hused := pagingRun_used (s := ⟨mem, [root]⟩)
    (fun f hf => List.mem_singleton.mp hf ▸ ⟨hroot0, hroot⟩) hrun
  have hnone : T (tablePath virt isHuge) = none ↔
      ∀ op ∈ ops, ¬ op.Makes (tablePath virt isHuge) := by
    have hpath : tablePath virt isHuge ≠ [] := by
      cases isHuge with
      | true => exact List.cons_ne_nil _ _
      | false => exact List.cons_ne_nil _ _
    rw [← Option.not_isSome_iff_eq_none, htables, if_neg hpath]
    simp
  rw [← hnone]
  exact H.onlyRights_iff hused hcan hv hslot hflags hdata

/-- A page, and a huge page in another slot. -/
def twoPages : List PagingOp :=
  [.map 0x400000 0x9000 pteFlagUs false [0x2000, 0x3000, 0x4000],
    .map 0xFFFF800000000000 0x200000 pteFlagUs true [0x5000, 0x6000]]

theorem twoPages_runs : (runFrom (pagingStep 0x1000) ⟨fun _ => 0, [0x1000]⟩ twoPages).isSome := by
  decide +kernel

theorem pagingChangePageFlags_onlyRights_iff_twoPages : ∃ s,
    runFrom (pagingStep 0x1000) ⟨fun _ => 0, [0x1000]⟩ twoPages = some s ∧
      ∃ m', pagingChangePageFlags offersAllocator ⟨s.mem, ⟨s.used, []⟩⟩ 0x1000 0x400123
          (pteFlagRw ||| pteFlagNoExec) false = some m' ∧
        OnlyRights 0x1000 0x400123 (pteFlagRw ||| pteFlagNoExec) false s.mem m'.mem := by
  have hsame : ∀ op ∈ twoPages, op.virt / 2 ^ 21 = 0x400123 / 2 ^ 21 → op.isHuge = false := by
    decide
  have hflags : (pteFlagRw ||| pteFlagNoExec) &&& pagingPteAddrMask = 0 := by decide
  have hmapped :
      ((twoPages.foldl PageMap.step PageMap.empty).get false
        (pageNumber 0x400123 false)).isSome := by
    decide
  refine ⟨_, (Option.some_get twoPages_runs).symm, ?_⟩
  exact (pagingChangePageFlags_onlyRights_iff ⟨by decide, by decide⟩ (by decide) (fun _ _ => rfl)
    (by decide) (Option.some_get twoPages_runs).symm (.inl (by decide)) (by decide) hsame hflags
    (fun h => absurd h Bool.false_ne_true)).mpr
      (.inr ⟨hmapped, fun h => absurd h Bool.false_ne_true⟩) _
    fun _ _ _ _ => rfl

/-- Next to the page, an address that was not translated is the frame at 0; the huge page is not
translated any more. -/
theorem pagingChangePageFlags_neighbour_huge :
    ((runFrom (pagingStep 0x1000) ⟨fun _ => 0, [0x1000]⟩ twoPages).bind fun s =>
        (pagingChangePageFlags offersAllocator ⟨s.mem, ⟨s.used, []⟩⟩ 0x1000 0x401000 pteFlagRw
          false).map fun m => (pageWalk s.mem 0x1000 0x401000, pageWalk m.mem 0x1000 0x401000)) =
      some (none, some (0, ⟨true, false, true⟩)) ∧
    ((runFrom (pagingStep 0x1000) ⟨fun _ => 0, [0x1000]⟩ twoPages).bind fun s =>
        (pagingChangePageFlags offersAllocator ⟨s.mem, ⟨s.used, []⟩⟩ 0x1000 0xFFFF800000000000
          pteFlagRw true).map
          fun m => (pageWalk s.mem 0x1000 0xFFFF800000000000,
            pageWalk m.mem 0x1000 0xFFFF800000000000)) =
      some (some (0x200000, ⟨false, true, true⟩), none) := by
  decide +kernel

end Plos
