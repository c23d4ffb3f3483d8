import Plos.Memory.Kheap.Tiling
import Plos.Memory.Pmm.Carving
import Plos.Memory.Vmm.Pages

/-! The pages behind `[kheap_start, kheap_end)`.

`kheap_extend` takes a frame for each new page and maps it in the kernel's tables. In every state of
a run each page of the heap is mapped to a frame of its own, unless an extension goes past the end
of the address space: it maps nothing and goes through. -/

namespace Plos

namespace HeapMachine

variable {U : Set Nat} {others : List Block} {root : Nat} {s s' : HeapMachine} {m m' : Machine Pmm}
  {T : List Nat → Option Nat} {leaf : List Nat → Nat} {anon : List (Nat × Nat)} {rest : List Nat}

/-- The range of the heap does not wrap, and each of its pages is mapped to a frame of its own,
which is one of the pages `U` of the allocator and not free. -/
structure Mapped (U : Set Nat) (root : Nat) (s : HeapMachine) : Prop where
  le : s.heap.kheapStart ≤ s.heap.kheapEnd
  lt : s.heap.kheapEnd < 2 ^ 64
  present : ∀ x, s.heap.kheapStart ≤ x → x < s.heap.kheapEnd → ∃ phys rights,
    pageWalk s.machine.mem root x = some (phys, rights) ∧ phys / pmmPageSize ∈ U ∧
      phys / pmmPageSize ∉ s.machine.frames.freePages
  distinct : ∀ x y phys phys' rights rights', s.heap.kheapStart ≤ x → x < s.heap.kheapEnd →
    s.heap.kheapStart ≤ y → y < s.heap.kheapEnd →
      pageWalk s.machine.mem root x = some (phys, rights) →
    pageWalk s.machine.mem root y = some (phys', rights') →
      phys / pmmPageSize = phys' / pmmPageSize →
    x / kheapPageSize = y / kheapPageSize

/-- `anon` lists the pages of the heap with their frames. No large page is in the way of the
heap. -/
structure Inv (U : Set Nat) (others : List Block) (root : Nat) (s : HeapMachine)
    (T : List Nat → Option Nat)
    (leaf : List Nat → Nat) (anon : List (Nat × Nat)) (rest : List Nat) : Prop
    extends Paged U others 512 root s.machine T leaf anon rest where
  high : 2 ^ 64 - 2 ^ 31 ≤ s.heap.kheapStart
  le : s.heap.kheapStart ≤ s.heap.kheapEnd
  lt : s.heap.kheapEnd < 2 ^ 64
  aligned : s.heap.kheapStart % kheapPageSize = 0 ∧ s.heap.kheapEnd % kheapPageSize = 0
  small : ∀ x, s.heap.kheapStart ≤ x → x < 2 ^ 64 → leaf (leafPath x true) = 0
  pages : ∀ k, (∃ f, (k, f) ∈ anon) ↔
    s.heap.kheapStart ≤ k * kheapPageSize ∧ k * kheapPageSize < s.heap.kheapEnd

theorem canonical_of_high {x : Nat} (h : 2 ^ 64 - 2 ^ 31 ≤ x) (hx : x < 2 ^ 64) : Canonical x := by
  simp only [Canonical]
  omega

section
variable {virt f : Nat}

theorem pageBase_of_aligned (h : virt % pagingPageSize = 0) :
    virt / pagingPageSize * pagingPageSize = virt := by
  simp only [pagingPageSize] at h ⊢
  omega

/-- The page at `virt` comes after the pages of the list. -/
theorem key_notMem (h : virt % pagingPageSize = 0)
    (hkey : ∀ k f, (k, f) ∈ anon → k * pagingPageSize < virt) :
    ∀ g, (virt / pagingPageSize, g) ∉ anon := by
  intro g hg
  have hlt := hkey _ g hg
  rw [pageBase_of_aligned h] at hlt
  exact Nat.lt_irrefl _ hlt

theorem key_lt_next (h : virt % pagingPageSize = 0)
    (hkey : ∀ k f, (k, f) ∈ anon → k * pagingPageSize < virt) :
    ∀ k g, (k, g) ∈ (virt / pagingPageSize, f) :: anon →
      k * pagingPageSize < virt + pagingPageSize := by
  intro k g hkg
  rcases List.mem_cons.mp hkg with heq | hkg
  · cases heq
    rw [pageBase_of_aligned h]
    exact Nat.lt_add_of_pos_right (by decide)
  · exact Nat.lt_add_right _ (hkey k g hkg)

end

/-- The loop maps pages from `virt` on, all of them if it answers so. -/
theorem kheapExtendLoop_spec {virt cnt : Nat} {ok : Bool}
    (H : Paged U others 512 root m T leaf anon rest) (R : SmallPages 512 leaf virt cnt)
    (hkey : ∀ k f, (k, f) ∈ anon → k * pagingPageSize < virt)
    (h : kheapExtendLoop root (virt + pagingPageSize * cnt) cnt virt m = some (m', ok)) :
    ∃ T' leaf' anon' rest', Paged U others 512 root m' T' leaf' anon' rest' ∧
      (∀ x, leaf' (leafPath x true) = leaf (leafPath x true)) ∧ (∀ kf ∈ anon, kf ∈ anon') ∧
      (∀ k f, (k, f) ∈ anon' → (k, f) ∈ anon ∨ virt ≤ k * pagingPageSize ∧
        k * pagingPageSize < virt + pagingPageSize * cnt) ∧
      (ok = true → ∀ k, virt ≤ k * pagingPageSize →
        k * pagingPageSize < virt + pagingPageSize * cnt →
        ∃ f, (k, f) ∈ anon') := by
  induction cnt generalizing m T leaf anon rest virt with
  | zero =>
    cases h
    refine ⟨T, leaf, anon, rest, H, fun _ => rfl, fun _ => id, fun _ _ => .inl,
      fun _ k hle hlt => ?_⟩
    exact absurd (Nat.lt_of_le_of_lt hle hlt) (Nat.lt_irrefl _)
  | succ cnt ih =>
    obtain ⟨hcan, hn, hsmall⟩ := R.head
    have hlt := SmallPages.head_lt virt cnt
    have hstop := SmallPages.stop_eq virt cnt
    have hadd : add64 virt kheapPageSize = virt + pagingPageSize := R.add_eq
    have hfirst := pageBase_of_aligned R.aligned
    unfold kheapExtendLoop at h
    rw [if_pos hlt, hadd, hstop] at h
    cases halloc : pmmFrames.alloc m.frames with
    | mk frames f =>
      simp only [halloc] at h
      by_cases hf : f = 0
      · rw [if_pos hf] at h
        cases h
        refine ⟨T, leaf, anon, rest, ?_, fun _ => rfl, fun _ => id, fun _ _ => .inl, nofun⟩
        rcases H.held.alloc with ⟨hr, -⟩ | ⟨s', f', hr, H'⟩
        · cases halloc.symm.trans hr
          exact H
        · cases halloc.symm.trans hr
          exact absurd hf (H'.ne_zero List.mem_cons_self)
      · rw [if_neg hf] at h
        cases hmap :
          pagingMapPage pmmFrames ⟨m.mem, frames⟩ root virt f (pteFlagRw ||| pteFlagGlobal)
          false with
        | none =>
          rw [hmap] at h
          cases h
        | some m₁ =>
          rw [hmap] at h
          obtain ⟨T₁, new, S⟩ :=
            H.mapFresh R.pos hcan hn hsmall (key_notMem R.aligned hkey) (by decide) halloc hf
              (fun _ _ => rfl) hmap
          obtain ⟨T', leaf', anon', rest', H', hhuge, hsub, horigin, hall⟩ :=
            ih S.paged (R.tail _) (key_lt_next R.aligned hkey) h
          refine ⟨T', leaf', anon', rest', H', fun x => ?_, fun kf hkf =>
            hsub kf (List.mem_cons_of_mem _ hkf), fun k g hkg => ?_,
            fun hok k hle hk => ?_⟩
          · rw [hhuge, Function.update_of_ne (leafPath_ne (by decide))]
          · rcases horigin k g hkg with hkg | ⟨hle, hk⟩
            · rcases List.mem_cons.mp hkg with heq | hkg
              · cases heq
                rw [hfirst]
                exact .inr ⟨Nat.le_refl _, hlt⟩
              · exact .inl hkg
            · rw [← hstop] at hk
              exact .inr ⟨Nat.le_of_add_right_le hle, hk⟩
          · by_cases hk' : virt + pagingPageSize ≤ k * pagingPageSize
            · exact hall hok k hk' (hstop ▸ hk)
            · obtain rfl : k = virt / pagingPageSize :=
                (pageKey_iff R.aligned).mpr ⟨hle, Nat.lt_of_not_le hk'⟩
              exact ⟨f, hsub _ List.mem_cons_self⟩

/-! ## Steps -/

namespace Inv

theorem mapped (H : Inv U others root s T leaf anon rest) : Mapped U root s := by
  have hpage {x : Nat} (hle : s.heap.kheapStart ≤ x) (hx : x < s.heap.kheapEnd) :
      ∃ f rights, (x / pagingPageSize, f) ∈ anon ∧
        pageWalk s.machine.mem root x = some (f + x % 2 ^ 12, rights) ∧ IsFrame f := by
    have hlt := H.lt
    have hhigh := H.high
    have hmod := H.aligned
    obtain ⟨f, hf⟩ := (H.pages (x / kheapPageSize)).mpr (by simp only [kheapPageSize] at *; omega)
    obtain ⟨-, hne, hmask⟩ := H.backed hf
    rw [leafPath_pageBase] at hne hmask
    have hcan : Canonical x := canonical_of_high (Nat.le_trans hhigh hle) (Nat.lt_trans hx hlt)
    refine ⟨f, leafRights (leaf (leafPath x false)), hf, ?_,
      H.held.isFrame (List.mem_append_left _ (List.mem_map_of_mem hf))⟩
    rw [H.tree.pageWalk_eq (Nat.mod_lt _ (by decide)) hcan, leafWalk,
      if_neg (not_not.mpr (H.small x hle (Nat.lt_trans hx hlt))), if_pos hne, hmask]
  have hframe {f x : Nat} (hf : IsFrame f) : (f + x % 2 ^ 12) / pmmPageSize = f / pmmPageSize := by
    have := hf.1
    simp only [pagingPageSize, pmmPageSize] at *
    omega
  refine ⟨H.le, H.lt, fun x hle hx => ?_,
    fun x y phys phys' rights rights' hx hx' hy hy' hwx hwy heq => ?_⟩
  · obtain ⟨f, rights, hf, hwalk, hfr⟩ := hpage hle hx
    refine ⟨_, rights, hwalk, ?_⟩
    have hheld : f ∈ anon.map Prod.snd ++ rest := List.mem_append_left _ (List.mem_map_of_mem hf)
    rw [hframe hfr]
    refine ⟨?_, fun hfree => (H.held.mem_freePages.mp hfree).2.1 f hheld rfl⟩
    have hblock :=
      List.mem_append_left s.machine.frames.freeBlocks (@PmmHolds.frameBlock_mem others _ f hheld)
    exact H.held.inv.blocks.covers_mem hblock Block.covers_base
  · obtain ⟨f, _, hf, hwalk, hfr⟩ := hpage hx hx'
    obtain ⟨g, _, hg, hwalk', hgr⟩ := hpage hy hy'
    cases hwalk.symm.trans hwx
    cases hwalk'.symm.trans hwy
    rw [hframe hfr, hframe hgr] at heq
    have hfg : f = g := by
      have := hfr.1
      have := hgr.1
      simp only [pagingPageSize, pmmPageSize] at *
      omega
    subst hfg
    have hnodup := (List.nodup_append.mp H.held.nodup).1
    exact congrArg Prod.fst (List.inj_on_of_nodup_map hnodup hf hg rfl)

theorem of_sameRange {heap : Kheap} (H : Inv U others root s T leaf anon rest)
    (h : SameRange s.heap heap) : Inv U others root ⟨heap, s.machine⟩ T leaf anon rest := by
  obtain ⟨hstart, hend⟩ := h
  refine ⟨H.toPaged, ?_, ?_, ?_, ?_, ?_, ?_⟩
  · rw [hstart]
    exact H.high
  · rw [hstart, hend]
    exact H.le
  · rw [hend]
    exact H.lt
  · rw [hstart, hend]
    exact H.aligned
  · rw [hstart]
    exact H.small
  · rw [hstart, hend]
    exact H.pages

/-- Nothing is in the way of an extension. -/
theorem smallPages {numPages : Nat} (H : Inv U others root s T leaf anon rest)
    (hlt : s.heap.kheapEnd + pagingPageSize * numPages < 2 ^ 64) :
    SmallPages 512 leaf s.heap.kheapEnd numPages := by
  have hhigh := H.high
  have hle := H.le
  refine ⟨H.aligned.2, by omega, hlt, fun {x} hx hx' => ?_⟩
  have hx64 : x < 2 ^ 64 := by omega
  exact ⟨canonical_of_high (by omega) hx64, Nat.mod_lt _ (by decide), H.small x (by omega) hx64⟩

/-- An extension below 2⁶⁴. Where it stops for lack of frames, the pages it has mapped are not pages
of the heap. -/
theorem extend {size numPages : Nat} {ok : Bool} (H : Inv U others root s T leaf anon rest)
    (hsize : kheapPageSize * numPages = size) (hlt : s.heap.kheapEnd + size < 2 ^ 64)
    (h : kheapExtend root s size = some (s', ok)) :
    ∃ T' leaf' anon' rest', Inv U others root s' T' leaf' anon' rest' := by
  obtain ⟨hloop, hstart, hend⟩ := kheapExtend_cases hsize (by omega) h
  have hbytes : pagingPageSize * numPages = size := hsize
  have hhigh := H.high
  have hle := H.le
  obtain ⟨hmod, hmod'⟩ := H.aligned
  have R := H.smallPages (hbytes ▸ hlt)
  rw [add64_of_lt hlt, ← hbytes] at hloop
  obtain ⟨T', leaf', anon', rest', H', hhuge, hsub, horigin, hall⟩ :=
    kheapExtendLoop_spec H.toPaged R (fun k f hkf => ((H.pages k).mp ⟨f, hkf⟩).2) hloop
  have hsmall : ∀ x, s'.heap.kheapStart ≤ x → x < 2 ^ 64 → leaf' (leafPath x true) = 0 := by
    intro x hx hx'
    rw [hhuge]
    exact H.small x (hstart ▸ hx) hx'
  have hhigh' : 2 ^ 64 - 2 ^ 31 ≤ s'.heap.kheapStart := hstart ▸ hhigh
  cases ok with
  | true =>
    rw [if_pos rfl, add64_of_lt hlt] at hend
    refine ⟨T', leaf', anon', rest', H', hhigh', ?_, ?_, ?_, hsmall, fun k => ?_⟩
    · rw [hstart, hend]
      exact Nat.le_add_right_of_le hle
    · rw [hend]
      exact hlt
    · rw [hstart, hend, ← hbytes]
      refine ⟨hmod, ?_⟩
      rw [Nat.add_mul_mod_self_left]
      exact hmod'
    · rw [hstart, hend]
      constructor
      · rintro ⟨f, hkf⟩
        rcases horigin k f hkf with hkf | ⟨hk, hk'⟩
        · obtain ⟨h₁, h₂⟩ := (H.pages k).mp ⟨f, hkf⟩
          exact ⟨h₁, Nat.lt_add_right _ h₂⟩
        · exact ⟨Nat.le_trans hle hk, hbytes ▸ hk'⟩
      · intro ⟨hk, hk'⟩
        by_cases hold : k * kheapPageSize < s.heap.kheapEnd
        · obtain ⟨f, hf⟩ := (H.pages k).mpr ⟨hk, hold⟩
          exact ⟨f, hsub _ hf⟩
        · exact hall rfl k (Nat.le_of_not_lt hold) (hbytes.symm ▸ hk')
  | false =>
    rw [if_neg (by decide)] at hend
    have H'' := H'.keep fun kf => decide (kf.1 * kheapPageSize < s.heap.kheapEnd)
    refine ⟨T', leaf', _, _, H'', hhigh', ?_, ?_, ?_, hsmall, fun k => ?_⟩
    · rw [hstart, hend]
      exact hle
    · rw [hend]
      exact H.lt
    · rw [hstart, hend]
      exact H.aligned
    · rw [hstart, hend, ← H.pages k]
      constructor
      · rintro ⟨f, hkf⟩
        obtain ⟨hmem, hk⟩ := List.mem_filter.mp hkf
        rcases horigin k f hmem with hkf | ⟨hk', -⟩
        · exact ⟨f, hkf⟩
        · exact absurd (of_decide_eq_true hk) (Nat.not_lt.mpr hk')
      · rintro ⟨f, hkf⟩
        exact ⟨f, List.mem_filter.mpr ⟨hsub _ hkf, decide_eq_true ((H.pages k).mp ⟨f, hkf⟩).2⟩⟩

/-- An extension to 2⁶⁴ or beyond leaves the end below the start. -/
theorem extend_wrapped {size numPages : Nat} {ok : Bool} (H : Inv U others root s T leaf anon rest)
    (hsize : kheapPageSize * numPages = size) (hle : size ≤ 2 ^ 31)
    (hwrap : 2 ^ 64 ≤ s.heap.kheapEnd + size)
    (h : kheapExtend root s size = some (s', ok)) : ¬ Mapped U root s' := by
  obtain ⟨hstart, hend⟩ := kheapExtend_wrapped hsize (by omega) H.lt hwrap h
  have hhigh := H.high
  have hlt := H.lt
  intro M
  have := M.le
  omega

/-- A step keeps the pages of the heap mapped exactly if it does not take the end past 2⁶⁴. -/
theorem step {op : HeapOp} (H : Inv U others root s T leaf anon rest)
    (h : s.step root op = some s') :
    (s.NoWrap op → ∃ T' leaf' anon' rest', Inv U others root s' T' leaf' anon' rest') ∧
      (Mapped U root s' → s.NoWrap op) := by
  cases op with
  | kfree ptr =>
    obtain ⟨heap, hfree, rfl⟩ := Option.map_eq_some_iff.mp h
    exact ⟨fun _ => ⟨T, leaf, anon, rest, H.of_sameRange (kfree_sameRange hfree)⟩, fun _ => trivial⟩
  | kmalloc size =>
    obtain ⟨⟨t, ptr⟩, hround, rfl⟩ := Option.map_eq_some_iff.mp h
    simp only [NoWrap]
    rcases kmallocRound_cases hround with ⟨current, hs, rfl, -⟩ | ⟨hs, ok, he, -⟩
    · rw [hs]
      exact ⟨fun _ => ⟨T, leaf, anon, rest, H.of_sameRange (kmallocTake_sameRange ..)⟩, fun _ =>
        nofun⟩
    · refine ⟨fun hwrap => H.extend kheapExtendingAmount_eq (hwrap hs) he, fun M _ => ?_⟩
      by_contra hwrap
      exact H.extend_wrapped kheapExtendingAmount_eq (by decide) (Nat.le_of_not_lt hwrap) he M

end Inv

/-- The empty heap, above which nothing is mapped. -/
theorem inv_empty {start : Nat} (H : Paged U others 512 root m T leaf [] rest)
    (hhigh : 2 ^ 64 - 2 ^ 31 ≤ start) (hlt : start < 2 ^ 64) (hmod : start % kheapPageSize = 0)
    (hempty : ∀ x, start ≤ x → x < 2 ^ 64 → pageWalk m.mem root x = none) :
    Inv U others root (empty start m) T leaf [] rest := by
  refine ⟨H, hhigh, Nat.le_refl _, hlt, ⟨hmod, hmod⟩, fun x hle hx => ?_, fun k => ?_⟩
  · have hwalk := hempty x hle hx
    have hcan := canonical_of_high (Nat.le_trans hhigh hle) hx
    rw [H.tree.pageWalk_eq (Nat.mod_lt _ (by decide)) hcan, leafWalk] at hwalk
    by_contra hne
    rw [if_pos hne] at hwalk
    cases hwalk
  · refine ⟨fun h => h.elim fun _ hf => absurd hf List.not_mem_nil, fun hk => ?_⟩
    exact absurd (Nat.lt_of_le_of_lt hk.1 hk.2) (Nat.lt_irrefl _)

/-- The heap of a kernel that ends in the top 2 GiB, above which nothing is mapped, is mapped in
every state that `kheap_init` and the rounds of `kmalloc` and `kfree` lead to exactly if no
extension takes `kheap_end` to 2⁶⁴ or beyond. -/
theorem heapRun_mapped_iff {kernelEnd : Nat} {ops : List HeapOp}
    (H : Paged U others 512 root m T leaf [] rest)
    (hhigh : 2 ^ 64 - 2 ^ 31 ≤ kheapStartOf kernelEnd)
    (hempty : ∀ x, kheapStartOf kernelEnd ≤ x → x < 2 ^ 64 → pageWalk m.mem root x = none)
    (h : kheapInit root kernelEnd m = some s) :
    Along (step root) (Mapped U root) s ops ↔
      kheapStartOf kernelEnd + kheapStartingSize < 2 ^ 64 ∧ AllSteps (step root) NoWrap s ops := by
  obtain ⟨hlt, hmod⟩ := kheapStartOf_page kernelEnd
  obtain ⟨⟨t, ok⟩, hext, rfl⟩ := Option.map_eq_some_iff.mp h
  clear h
  generalize kheapStartOf kernelEnd = start at *
  have H₀ := inv_empty H hhigh hlt hmod hempty
  by_cases hwrap : start + kheapStartingSize < 2 ^ 64
  · have H₁ := H₀.extend kheapStartingSize_eq hwrap hext
    rw [along_iff_allSteps (I := fun s => ∃ T leaf anon rest, Inv U others root s T leaf anon rest)
      (fun s op s' ⟨T, leaf, anon, rest, H⟩ _ hs M => (H.step hs).1 ((H.step hs).2 M))
      (fun s op s' ⟨T, leaf, anon, rest, H⟩ _ hs => ⟨(H.step hs).2, fun hq => ?_⟩) H₁]
    · obtain ⟨_, _, _, _, H₁⟩ := H₁
      exact ⟨fun h => ⟨hwrap, h.2⟩, fun h => ⟨H₁.mapped, h.2⟩⟩
    · obtain ⟨_, _, _, _, H'⟩ := (H.step hs).1 hq
      exact H'.mapped
  · refine ⟨fun hrun => absurd hrun.head ?_, fun h => absurd h.1 hwrap⟩
    exact H₀.extend_wrapped kheapStartingSize_eq (by decide) (Nat.le_of_not_lt hwrap) hext

/-! ## A heap that is extended until it wraps

Every extension goes through as long as the allocator has four frames for each of its 256 pages,
three of them for tables. A heap of one free node grows by 1 MiB with each round of a call that asks
for more than it has. -/

theorem kheapExtendLoop_total {virt cnt : Nat} (H : Paged U others 512 root m T leaf anon rest)
    (R : SmallPages 512 leaf virt cnt) (hkey : ∀ k f, (k, f) ∈ anon → k * pagingPageSize < virt)
    (hleft : 4 * cnt ≤ m.frames.freeCount) :
    ∃ m', kheapExtendLoop root (virt + pagingPageSize * cnt) cnt virt m = some (m', true) ∧
      m.frames.freeCount ≤ m'.frames.freeCount + 4 * cnt := by
  induction cnt generalizing m T leaf anon rest virt with
  | zero => exact ⟨m, rfl, Nat.le_refl _⟩
  | succ cnt ih =>
    obtain ⟨hcan, hn, hsmall⟩ := R.head
    have hlt := SmallPages.head_lt virt cnt
    have hstop := SmallPages.stop_eq virt cnt
    have hadd : add64 virt kheapPageSize = virt + pagingPageSize := R.add_eq
    cases halloc : pmmFrames.alloc m.frames with
    | mk frames f =>
      have hspec := (PmmHolds.allocSpec U others).alloc H.held
      rw [halloc] at hspec
      rcases hspec with ⟨-, hzero, -⟩ | ⟨hf, -, -, -, hcount⟩
      · omega
      have H₀ := (H.takeFresh halloc hf fun _ _ => rfl).1
      rcases pagingMapPage_spec (PmmHolds.allocSpec U others) H₀.tree H₀.held
        (fun _ _ => H₀.mem_held) R.pos hn
        (fun _ : false = false => hsmall) nofun
        (leafOk_pagingEntry_small virt f (pteFlagRw ||| pteFlagGlobal)) with
          ⟨m₁, T₁, new, hmap, G, hlen⟩ | ⟨hless, -⟩
      swap
      · dsimp only at hless hcount
        omega
      have hcount₁ := G.left_eq
      dsimp only at hcount hcount₁
      obtain ⟨T₁, new₁, S⟩ :=
        H.mapFresh R.pos hcan hn hsmall (key_notMem R.aligned hkey) (by decide) halloc hf
          (fun _ _ => rfl) hmap
      obtain ⟨m', hr, hcount'⟩ := ih S.paged (R.tail _) (key_lt_next R.aligned hkey) (by omega)
      refine ⟨m', ?_, by omega⟩
      unfold kheapExtendLoop
      rw [if_pos hlt, hadd, hstop]
      simp only [halloc, if_neg hf, hmap]
      exact hr

/-- The heap is one free node of `k` MiB. -/
structure OneNode (start k : Nat) (heap : Kheap) : Prop where
  start_eq : heap.kheapStart = start
  end_eq : heap.kheapEnd = start + k * 0x100000
  head : heap.kheapHead = start
  made : heap.made = 1
  node : heap.node start = ⟨k * 0x100000 - kheapNodeSize, true, 0⟩

theorem Inv.extend_total {size numPages current : Nat} (H : Inv U others root s T leaf anon rest)
    (hsize : kheapPageSize * numPages = size) (hlt : s.heap.kheapEnd + size < 2 ^ 64)
    (hleft : 4 * numPages ≤ s.machine.frames.freeCount)
    (hlast : kheapLast s.heap.node (s.heap.made + 1) s.heap.kheapHead = some current) :
    ∃ m', kheapExtend root s size = some (⟨kheapGrow s.heap current size, m'⟩, true) ∧
      s.machine.frames.freeCount ≤ m'.frames.freeCount + 4 * numPages := by
  have hbytes : pagingPageSize * numPages = size := hsize
  obtain ⟨m', hloop, hcount⟩ := kheapExtendLoop_total H.toPaged (H.smallPages (hbytes ▸ hlt))
    (fun k f hkf => ((H.pages k).mp ⟨f, hkf⟩).2) hleft
  refine ⟨m', ?_, hcount⟩
  rw [kheapExtend_of_last hsize (by omega) hlast, add64_of_lt hlt, ← hbytes, hloop]
  rfl

/-- The first extension. -/
theorem extend_empty {start : Nat} (H : Inv U others root (empty start m) T leaf [] rest)
    (hlt : start + kheapStartingSize < 2 ^ 64) (hleft : 1024 ≤ m.frames.freeCount) :
    ∃ s, kheapExtend root (empty start m) kheapStartingSize = some (s, true) ∧
      OneNode start 1 s.heap ∧ m.frames.freeCount ≤ s.machine.frames.freeCount + 1024 := by
  have hlast :
      kheapLast (empty start m).heap.node ((empty start m).heap.made + 1)
        (empty start m).heap.kheapHead = some 0 := rfl
  obtain ⟨m', hext, hcount⟩ := H.extend_total kheapStartingSize_eq hlt hleft hlast
  refine ⟨_, hext, ?_, hcount⟩
  have hsub : sub64 kheapStartingSize kheapNodeSize = 1 * 0x100000 - kheapNodeSize := by decide
  have hend : add64 start kheapStartingSize = start + 1 * 0x100000 := add64_of_lt hlt
  rw [kheapGrow_zero]
  refine ⟨rfl, hend, rfl, rfl, ?_⟩
  rw [← hsub]
  exact Function.update_self ..

/-- A round that asks for more than the node has. -/
theorem OneNode.search_eq {start k size : Nat} (O : OneNode start k s.heap) (hstart : 0 < start)
    (hk : 0 < k) (hsize : k * 0x100000 ≤ blockAlignUp size) : s.search size = some none := by
  have hless : ¬ blockAlignUp size ≤ k * 0x100000 - kheapNodeSize := by
    simp only [kheapNodeSize]
    omega
  rw [search, O.made, O.head, kmallocSearch, if_neg (Nat.ne_of_gt hstart), O.node, if_neg fun h =>
    hless h.2]
  rfl

theorem OneNode.kheapLast_eq {start k : Nat} (O : OneNode start k s.heap) :
    kheapLast s.heap.node (s.heap.made + 1) s.heap.kheapHead = some start := by
  rw [O.made, O.head, kheapLast, O.node, if_pos (.inr rfl)]

theorem OneNode.grow {start k : Nat} (O : OneNode start k s.heap) (hstart : 0 < start) (hk : 0 < k)
    (hlt : start + (k + 1) * 0x100000 < 2 ^ 64) :
    OneNode start (k + 1) (kheapGrow s.heap start kheapExtendingAmount) := by
  have hsize : add64 (k * 0x100000 - kheapNodeSize) kheapExtendingAmount =
      (k + 1) * 0x100000 - kheapNodeSize := by
    simp only [kheapExtendingAmount, kheapNodeSize, addW]
    omega
  have hend : add64 (start + k * 0x100000) kheapExtendingAmount = start + (k + 1) * 0x100000 := by
    simp only [kheapExtendingAmount, addW]
    omega
  rw [kheapGrow_of_free (Nat.ne_of_gt hstart) O.node rfl, hsize, O.end_eq, hend]
  exact ⟨O.start_eq, rfl, O.head, O.made, Kheap.setNode_self⟩

/-- As long as there is room and memory, a round that asks for more than the node has extends it by
1 MiB. -/
theorem OneNode.round {start k size : Nat} (O : OneNode start k s.heap)
    (H : Inv U others root s T leaf anon rest) (hstart : 0 < start) (hk : 0 < k)
    (hsize : k * 0x100000 ≤ blockAlignUp size) (hlt : start + (k + 1) * 0x100000 < 2 ^ 64)
    (hleft : 1024 ≤ s.machine.frames.freeCount) :
    ∃ s', s.step root (.kmalloc size) = some s' ∧ OneNode start (k + 1) s'.heap ∧
      s.machine.frames.freeCount ≤ s'.machine.frames.freeCount + 1024 := by
  have hend : s.heap.kheapEnd + kheapExtendingAmount < 2 ^ 64 := by
    rw [O.end_eq]
    simp only [kheapExtendingAmount]
    omega
  obtain ⟨m', hext, hcount⟩ := H.extend_total kheapExtendingAmount_eq hend hleft O.kheapLast_eq
  refine ⟨⟨kheapGrow s.heap start kheapExtendingAmount, m'⟩, ?_, O.grow hstart hk hlt, hcount⟩
  rw [step, kmallocRound_of_extend (O.search_eq hstart hk hsize) hext]
  rfl

theorem OneNode.run {start k n size : Nat} (O : OneNode start k s.heap)
    (H : Inv U others root s T leaf anon rest) (hstart : 0 < start) (hk : 0 < k)
    (hsize : (k + n) * 0x100000 ≤ blockAlignUp size) (hlt : start + (k + n) * 0x100000 < 2 ^ 64)
    (hleft : 1024 * n ≤ s.machine.frames.freeCount) :
    ∃ s', runFrom (step root) s (.replicate n (.kmalloc size)) = some s' ∧
      OneNode start (k + n) s'.heap ∧
      ∃ T' leaf' anon' rest', Inv U others root s' T' leaf' anon' rest' := by
  induction n generalizing s k T leaf anon rest with
  | zero => exact ⟨s, rfl, O, T, leaf, anon, rest, H⟩
  | succ n ih =>
    have hle : (k + 1) * 0x100000 ≤ (k + (n + 1)) * 0x100000 := Nat.mul_le_mul_right _ (by omega)
    have hle' : k * 0x100000 ≤ (k + 1) * 0x100000 := Nat.mul_le_mul_right _ (Nat.le_succ k)
    obtain ⟨s₁, hstep, O₁, hcount⟩ :=
      O.round H hstart hk (Nat.le_trans hle' (Nat.le_trans hle hsize))
        (Nat.lt_of_le_of_lt (Nat.add_le_add_left hle _) hlt) (by omega)
    rw [← Nat.add_assoc, Nat.add_right_comm] at hsize hlt ⊢
    have hwrap : s.NoWrap (.kmalloc size) := by
      intro _
      rw [O.end_eq]
      simp only [kheapExtendingAmount]
      omega
    obtain ⟨T₁, leaf₁, anon₁, rest₁, H₁⟩ := (H.step hstep).1 hwrap
    obtain ⟨s', hrun, O', H'⟩ := ih O₁ H₁ (Nat.succ_pos k) hsize hlt (by omega)
    exact ⟨s', runFrom_cons.mpr ⟨s₁, hstep, hrun⟩, O', H'⟩

/-- The round that takes the end past 2⁶⁴. -/
theorem OneNode.round_wrapped {start k size : Nat} (O : OneNode start k s.heap)
    (H : Inv U others root s T leaf anon rest) (hk : 0 < k)
    (hsize : k * 0x100000 ≤ blockAlignUp size) (hwrap : 2 ^ 64 ≤ start + (k + 1) * 0x100000) :
    ∃ s', s.step root (.kmalloc size) = some s' ∧ ¬ Mapped U root s' := by
  have hhigh := H.high
  have hlt := H.lt
  rw [O.start_eq] at hhigh
  rw [O.end_eq] at hlt
  have hsearch := O.search_eq (by omega) hk hsize
  have hadd : add64 s.heap.kheapEnd kheapExtendingAmount ≤ s.heap.kheapEnd := by
    rw [O.end_eq]
    simp only [kheapExtendingAmount, addW]
    omega
  have hext : kheapExtend root s kheapExtendingAmount =
      some (⟨kheapGrow s.heap start kheapExtendingAmount, s.machine⟩, true) := by
    rw [kheapExtend_of_last kheapExtendingAmount_eq (by decide) O.kheapLast_eq,
      kheapExtendLoop_of_le hadd]
    rfl
  have hstep : s.step root (.kmalloc size) =
      some ⟨kheapGrow s.heap start kheapExtendingAmount, s.machine⟩ := by
    rw [step, kmallocRound_of_extend hsearch hext]
    rfl
  refine ⟨_, hstep, fun M => ?_⟩
  have hno := (H.step hstep).2 M hsearch
  rw [O.end_eq] at hno
  simp only [kheapExtendingAmount] at hno
  omega

theorem pageWalk_zero (root x : Nat) : pageWalk (fun _ => 0) root x = none := by
  simp [pageWalk]

theorem Booted.paged {memmap : List MemmapEntry} (Hm : MemmapOk memmap) (B : Booted memmap root m) :
    (∃ T leaf, Paged (pmmInitPages memmap) [] 512 root m T leaf [] [root]) ∧
      m.frames.freeCount + 1 = (pmmInitPages memmap).ncard := by
  obtain ⟨s, hs, halloc, hne, hmem⟩ := B
  have hheld : PmmHolds (pmmInitPages memmap) [] m.frames [root] := by
    rcases (Hm.holds hs).alloc with ⟨hr, -⟩ | ⟨s', f, hr, H'⟩
    · cases halloc.symm.trans hr
      exact absurd rfl hne
    · cases halloc.symm.trans hr
      exact H'
  have hframe := hheld.isFrame List.mem_cons_self
  have htree := PageTree.empty (Nat.le_refl 512) hframe
    (fun i _ => show m.mem (entryAddr root i) = 0 by rw [hmem])
  refine ⟨⟨_, _, htree, hheld, fun {p f} hp => ?_, nofun⟩, ?_⟩
  · obtain ⟨-, h⟩ := Option.ite_none_right_eq_some.mp hp
    rw [← Option.some.inj h]
    exact List.mem_cons_self
  · have := hheld.freeCount_eq
    simp only [List.length_singleton, blockPages, List.map_nil, List.sum_nil] at this
    omega

/-- 16 GiB of memory. -/
def bigMemmap : List MemmapEntry := [⟨0x100000, 2 ^ 34, .usable⟩]

theorem bigMemmap_ok : MemmapOk bigMemmap where
  sorted := by decide
  aligned := by decide
  apart := by decide
  phys := by decide

theorem bigMemmap_find :
    bigMemmap.find? (·.Holds (pageArraySize bigMemmap)) = some ⟨0x100000, 2 ^ 34, .usable⟩ := by
  decide

theorem bigMemmap_pages : 4000000 ≤ (pmmInitPages bigMemmap).ncard := by
  have hsize : pageArraySize bigMemmap = 0x8002000 := by decide
  have hsub : (Finset.Ico 33026 4194560 : Set Nat) ⊆ pmmInitPages bigMemmap := by
    intro x hx
    obtain ⟨hlo, hhi⟩ := Finset.mem_Ico.mp (Finset.mem_coe.mp hx)
    rw [bigMemmap_ok.carvable.mem_initPages bigMemmap_find, hsize]
    refine ⟨⟨_, List.mem_singleton_self _, rfl, ?_⟩, by omega, fun h => ?_⟩
    · simp only [pmmPageSize]
      omega
    · have := h.1
      simp only [pmmPageSize] at this
      omega
  have hfin : (pmmInitPages bigMemmap).Finite :=
    (Finset.finite_toSet _).subset bigMemmap_ok.carvable.initBlocks_tiling.subset_range
  have hcard := Set.ncard_le_ncard hsub hfin
  rw [Set.ncard_coe_finset, Nat.card_Ico] at hcard
  omega

theorem exists_booted : ∃ root m, Booted bigMemmap root m := by
  obtain ⟨l, r, -, -, hres⟩ := pmmReserveMemmap_eq bigMemmap_find
  rw [← pmmMemmap_eq] at hres
  obtain ⟨s, hs⟩ : ∃ s, pmmInit bigMemmap = some s := by
    rw [pmmInit_eq, hres]
    exact ⟨_, rfl⟩
  have H := bigMemmap_ok.holds hs
  rcases H.alloc with ⟨-, hzero⟩ | ⟨s', root, hr, H'⟩
  · have hcount := H.freeCount_eq
    have hpages := bigMemmap_pages
    simp only [List.length_nil, blockPages, List.map_nil, List.sum_nil] at hcount
    omega
  · exact ⟨root, ⟨fun _ => 0, s'⟩, s, hs, hr, H'.ne_zero List.mem_cons_self, rfl⟩

/-- The heap of a kernel that ends at `0xffffffff80200000`, after the first extension. -/
theorem exists_extendedHeap : ∃ root m s T leaf rest, Booted bigMemmap root m ∧
    Paged (pmmInitPages bigMemmap) [] 512 root m T leaf [] rest ∧ m.mem = (fun _ => 0) ∧
    kheapExtend root (empty 0xffffffff80300000 m) kheapStartingSize = some (s, true) ∧
    OneNode 0xffffffff80300000 1 s.heap ∧ 3000000 ≤ s.machine.frames.freeCount ∧
    ∃ T' leaf' anon' rest', Inv (pmmInitPages bigMemmap) [] root s T' leaf' anon' rest' := by
  obtain ⟨root, m, B⟩ := exists_booted
  obtain ⟨⟨T, leaf, H⟩, hcount⟩ := B.paged bigMemmap_ok
  have hmem : m.mem = fun _ => 0 := B.choose_spec.2.2.2
  have hpages := bigMemmap_pages
  have H₀ : Inv (pmmInitPages bigMemmap) [] root (empty 0xffffffff80300000 m) T leaf [] [root] :=
    inv_empty H (by decide) (by decide) (by decide) fun x _ _ => by rw [hmem, pageWalk_zero]
  obtain ⟨s, hext, O, hleft⟩ := extend_empty H₀ (by decide) (by omega)
  have hlt : 0xffffffff80300000 + kheapStartingSize < 2 ^ 64 := by decide
  have H₁ := H₀.extend kheapStartingSize_eq hlt hext
  exact ⟨root, m, s, T, leaf, [root], B, H, hmem, hext, O, by omega, H₁⟩

theorem exists_bigHeap : ∃ root m s T leaf rest, Booted bigMemmap root m ∧
    Paged (pmmInitPages bigMemmap) [] 512 root m T leaf [] rest ∧ m.mem = (fun _ => 0) ∧
    kheapInit root 0xffffffff80200000 m = some s ∧ OneNode 0xffffffff80300000 1 s.heap ∧
    3000000 ≤ s.machine.frames.freeCount ∧
    ∃ T' leaf' anon' rest', Inv (pmmInitPages bigMemmap) [] root s T' leaf' anon' rest' := by
  obtain ⟨root, m, s, T, leaf, rest, B, H, hmem, hext, hrest⟩ := exists_extendedHeap
  have hstart : kheapStartOf 0xffffffff80200000 = 0xffffffff80300000 := by decide
  refine ⟨root, m, s, T, leaf, rest, B, H, hmem, ?_, hrest⟩
  rw [kheapInit, hstart, hext]
  rfl

theorem heapRun_mapped_iff_bigHeap : ∃ root m s, Booted bigMemmap root m ∧
    kheapInit root 0xffffffff80200000 m = some s ∧ s.heap.kheapEnd = 0xffffffff80400000 ∧
    Along (step root) (Mapped (pmmInitPages bigMemmap) root) s [.kmalloc 0x80000000] := by
  obtain ⟨root, m, s, T, leaf, rest, B, H, hmem, hinit, O, -, -⟩ := exists_bigHeap
  have hstart : kheapStartOf 0xffffffff80200000 = 0xffffffff80300000 := by decide
  refine ⟨root, m, s, B, hinit, O.end_eq, ?_⟩
  refine (heapRun_mapped_iff H ?_ (fun x _ _ => ?_) hinit).mpr
    ⟨?_, .intro (fun _ => ?_) fun _ _ => trivial⟩
  · rw [hstart]
    decide
  · rw [hmem, pageWalk_zero]
  · rw [hstart]
    decide
  · rw [O.end_eq]
    decide

/-- A call that asks for 2 GiB extends the heap 2043 times, up to 1 MiB below 2⁶⁴. The next
extension maps nothing and moves `kheap_end` to 0. -/
theorem heapRun_wrapped :
    ∃ root m s t, Booted bigMemmap root m ∧ kheapInit root 0xffffffff80200000 m = some s ∧
    runFrom (step root) s (.replicate 2044 (.kmalloc 0x80000000)) = some t ∧
    ¬ Mapped (pmmInitPages bigMemmap) root t := by
  obtain ⟨root, m, s, T, leaf, rest, B, H, hmem, hinit, O, hleft, T₁, leaf₁, anon₁, rest₁, H₁⟩ :=
    exists_bigHeap
  have hsize : blockAlignUp 0x80000000 = 0x80000000 := by decide
  obtain ⟨s', hrun, O', T', leaf', anon', rest', H'⟩ :=
    @OneNode.run _ _ _ _ _ _ _ _ 0xffffffff80300000 1 2043
      0x80000000 O H₁ (by decide) (by decide) (by rw [hsize]; decide) (by decide) (by omega)
  obtain ⟨t, hstep, hnot⟩ :=
    @OneNode.round_wrapped _ _ _ _ _ _ _ _ 0xffffffff80300000 2044 0x80000000 O' H'
      (by decide) (by rw [hsize]; decide) (by decide)
  refine ⟨root, m, s, t, B, hinit, ?_, hnot⟩
  have hsnoc : List.replicate 2044 (HeapOp.kmalloc 0x80000000) =
      List.replicate 2043 (HeapOp.kmalloc 0x80000000) ++ [.kmalloc 0x80000000] :=
        List.replicate_succ'
  rw [hsnoc, runFrom_append hrun]
  exact runFrom_cons.mpr ⟨t, hstep, rfl⟩

end HeapMachine

end Plos
