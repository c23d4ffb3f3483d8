import Plos.Memory.Pmm.Frames
import Plos.Memory.Vmm.Basic

/-! The frames behind the pages of an address space.

`anon` lists the pages that were mapped on demand, each with its frame, and `rest` the frames that
are held for other purposes, those of the tables among them. Mapping and unmapping regions keeps
that account (`Paged`), and it changes no memory in the frames `rest` but the entries of the tree
(`PagedStep`). -/

namespace Plos

variable {U : Set Nat} {others : List Block} {n root : Nat} {m m₁ m₂ : Machine Pmm}
  {T T₁ T₂ : List Nat → Option Nat} {leaf leaf₁ leaf₂ : List Nat → Nat}
  {anon anon₁ anon₂ : List (Nat × Nat)} {rest new new₁ new₂ : List Nat}
  {D D' : Nat → Prop}

structure Paged (U : Set Nat) (others : List Block) (n root : Nat) (m : Machine Pmm)
    (T : List Nat → Option Nat) (leaf : List Nat → Nat) (anon : List (Nat × Nat))
      (rest : List Nat) : Prop where
  tree : PageTree n root m.mem T leaf
  held : PmmHolds U others m.frames (anon.map Prod.snd ++ rest)
  tables : ∀ {p f}, T p = some f → f ∈ rest
  backed : ∀ {k f}, (k, f) ∈ anon → Canonical (k * pagingPageSize) ∧
    leaf (leafPath (k * pagingPageSize) false) ≠ 0 ∧
    leaf (leafPath (k * pagingPageSize) false) &&& pagingPteAddrMask = f

/-- An address in a frame of `rest` that is no entry of the tree. -/
def Kept (n : Nat) (T : List Nat → Option Nat) (rest : List Nat) (x : Nat) : Prop :=
  (∃ g ∈ rest, InFrame g x) ∧ ∀ p f i, T p = some f → i < tableSize n p → x ≠ entryAddr f i

/-- Pages have been mapped, all of them in `D`, or unmapped, with new tables in the frames `new`. -/
structure PagedStep (U : Set Nat) (others : List Block) (n root : Nat) (rest : List Nat)
    (D : Nat → Prop)
    (m : Machine Pmm) (T : List Nat → Option Nat) (m' : Machine Pmm) (T' : List Nat → Option Nat)
    (leaf' : List Nat → Nat) (anon' : List (Nat × Nat)) (new : List Nat) : Prop where
  paged : Paged U others n root m' T' leaf' anon' (new ++ rest)
  le : ∀ {p f}, T p = some f → T' p = some f
  origin : ∀ {p f}, T' p = some f → T p = some f ∨ f ∈ new ∧ ∃ x, D x ∧ p <+: tablePath x false
  same : ∀ {x}, Kept n T rest x → m'.mem x = m.mem x

namespace Paged

theorem nodup (H : Paged U others n root m T leaf anon rest) : anon.Nodup :=
  List.Nodup.of_map _ (List.nodup_append.mp H.held.nodup).1

theorem mem_held (H : Paged U others n root m T leaf anon rest) {p : List Nat} {f : Nat}
    (hp : T p = some f) : f ∈ anon.map Prod.snd ++ rest :=
  List.mem_append_right _ (H.tables hp)

theorem refl (H : Paged U others n root m T leaf anon rest) :
    PagedStep U others n root rest D m T m T leaf anon [] :=
  ⟨H, id, .inl, fun _ => rfl⟩

/-- Some of the pages can be counted among the frames that are held for other purposes. -/
theorem keep (H : Paged U others n root m T leaf anon rest) (q : Nat × Nat → Bool) :
    Paged U others n root m T leaf (anon.filter q)
      ((anon.filter fun kf => !q kf).map Prod.snd ++ rest) := by
  refine ⟨H.tree, H.held.perm ?_, fun hp => List.mem_append_right _ (H.tables hp), fun hkf => ?_⟩
  · rw [← List.append_assoc, ← List.map_append]
    exact ((List.filter_append_perm q anon).symm.map Prod.snd).append_right rest
  · exact H.backed (List.mem_filter.mp hkf).1

end Paged

namespace PagedStep

theorem mono (S : PagedStep U others n root rest D m T m₁ T₁ leaf₁ anon₁ new)
    (h : ∀ x, D x → D' x) : PagedStep U others n root rest D' m T m₁ T₁ leaf₁ anon₁ new := by
  refine ⟨S.paged, S.le, fun hp => (S.origin hp).imp_right fun ⟨hf, x, hx, hp⟩ => ?_, S.same⟩
  exact ⟨hf, x, h x hx, hp⟩

theorem kept (S : PagedStep U others n root rest D m T m₁ T₁ leaf₁ anon₁ new) {x : Nat}
    (hx : Kept n T rest x) : Kept n T₁ (new ++ rest) x := by
  obtain ⟨⟨g, hg, hin⟩, hold⟩ := hx
  refine ⟨⟨g, List.mem_append_right _ hg, hin⟩, fun p f i hp hi => ?_⟩
  rcases S.origin hp with hp | ⟨hf, -⟩
  · exact hold p f i hp hi
  · rintro rfl
    -- the entry is in a new frame and in an old one
    have hnodup := (List.nodup_append.mp S.paged.held.nodup).2.1
    have hi := Nat.lt_of_lt_of_le hi (S.paged.tree.size_le_512 p)
    have hmem {h : Nat} (hh : h ∈ new ++ rest) : IsFrame h :=
      S.paged.held.isFrame (List.mem_append_right _ hh)
    have heq := InFrame.eq (hmem (List.mem_append_left _ hf)) (hmem (List.mem_append_right _ hg))
      (inFrame_entryAddr hi) hin
    exact (List.nodup_append.mp hnodup).2.2 f hf g hg heq

theorem trans (S : PagedStep U others n root rest D m T m₁ T₁ leaf₁ anon₁ new₁)
    (S' : PagedStep U others n root (new₁ ++ rest) D m₁ T₁ m₂ T₂ leaf₂ anon₂ new₂) :
    PagedStep U others n root rest D m T m₂ T₂ leaf₂ anon₂ (new₂ ++ new₁) := by
  refine ⟨?_, fun hp => S'.le (S.le hp), fun {p f} hp => ?_, fun {x} hx => ?_⟩
  · rw [List.append_assoc]
    exact S'.paged
  · rcases S'.origin hp with hp | ⟨hf, hD⟩
    · rcases S.origin hp with hp | ⟨hf, hD⟩
      · exact .inl hp
      · exact .inr ⟨List.mem_append_right _ hf, hD⟩
    · exact .inr ⟨List.mem_append_left _ hf, hD⟩
  · exact (S'.same (S.kept hx)).trans (S.same hx)

end PagedStep

/-! ## One page -/

section
variable {virt f : Nat}

theorem leafPath_pageBase (virt : Nat) :
    leafPath (virt / pagingPageSize * pagingPageSize) false = leafPath virt false := by
  apply leafPath_congr
  simp only [pageNumber, pagingStride, pagingPageSize, Bool.false_eq_true, if_false]
  omega

theorem Canonical.pageBase (h : Canonical virt) :
    Canonical (virt / pagingPageSize * pagingPageSize) := by
  simp only [Canonical, pagingPageSize] at *
  omega

/-- Another page has another entry. -/
theorem leafPath_ne_of_page {k : Nat} (hv : Canonical virt) (hk : Canonical (k * pagingPageSize))
    (hne : k ≠ virt / pagingPageSize) :
    leafPath (k * pagingPageSize) false ≠ leafPath virt false := by
  intro h
  have hpage := leafPath_inj hk hv h
  simp only [pageNumber, pagingStride, pagingPageSize, Bool.false_eq_true, if_false] at hpage hne
  omega

/-- The only entry of a page in the list. -/
theorem Paged.perm_filter (H : Paged U others n root m T leaf anon rest) {k : Nat}
    (hf : (k, f) ∈ anon) : anon.Perm ((k, f) :: anon.filter (·.1 ≠ k)) := by
  have herase : anon.erase (k, f) = anon.filter (·.1 ≠ k) := by
    rw [H.nodup.erase_eq_filter]
    refine List.filter_congr fun kf hkf => ?_
    obtain ⟨k', f'⟩ := kf
    by_cases hk : k' = k
    · subst hk
      have heq : f' = f := (H.backed hkf).2.2.symm.trans (H.backed hf).2.2
      simp [heq]
    · simp [hk]
  rw [← herase]
  exact List.perm_cons_erase hf

/-- Unmapping a page frees its frame, if there is one and it is to be freed. -/
theorem Paged.unmapPage (H : Paged U others n root m T leaf anon rest) {free : Bool} (hv : virt ≠ 0)
    (hcan : Canonical virt) (hn : virt / 2 ^ 39 % 512 < n) (hsmall : leaf (leafPath virt true) = 0)
    (hfree : free = true → leaf (leafPath virt false) ≠ 0 →
      (virt / pagingPageSize, leaf (leafPath virt false) &&& pagingPteAddrMask) ∈ anon)
    (hkeep : free = false → ∀ f, (virt / pagingPageSize, f) ∉ anon) :
    ∃ m', pagingUnmapPage pmmFrames m root virt false free = some m' ∧
      PagedStep U others n root rest D m T m' T (Function.update leaf (leafPath virt false) 0)
        (anon.filter (·.1 ≠ virt / pagingPageSize)) [] ∧
      ((∀ f, (virt / pagingPageSize, f) ∉ anon) → m'.frames = m.frames) := by
  obtain ⟨m', hr, htree, hframes, hsame⟩ :=
    pagingUnmapPage_spec (A := pmmFrames) H.tree hv hn (fun _ : false = false => hsmall) nofun free
  -- the frame is given back exactly if the list has one for the page
  have hheld : PmmHolds U others m'.frames
      ((anon.filter (·.1 ≠ virt / pagingPageSize)).map Prod.snd ++ rest) ∧
      ((∀ f, (virt / pagingPageSize, f) ∉ anon) → m'.frames = m.frames) := by
    by_cases hany : ∃ f, (virt / pagingPageSize, f) ∈ anon
    · obtain ⟨f, hf⟩ := hany
      refine ⟨?_, fun h => absurd hf (h f)⟩
      obtain ⟨-, hne, hmask⟩ := H.backed hf
      rw [leafPath_pageBase] at hne hmask
      have hfree' : free = true := eq_true_of_ne_false fun h => hkeep h f hf
      have htable : (T (tablePath virt false)).isSome = true := by
        cases htable : T (tablePath virt false) with
        | none => exact absurd (H.tree.leaf_of_none htable _) hne
        | some _ => rfl
      rw [hframes, if_pos ⟨hfree', htable⟩, hmask]
      have hperm := ((H.perm_filter hf).map Prod.snd).append_right rest
      exact (H.held.perm hperm).decRef_cons
    · have hnone : ∀ f, (virt / pagingPageSize, f) ∉ anon := fun f hf => hany ⟨f, hf⟩
      have hsub : m'.frames = m.frames := by
        rw [hframes]
        split
        · next h =>
          have hzero : leaf (leafPath virt false) = 0 := by
            by_contra hne
            exact hnone _ (hfree h.1 hne)
          rw [hzero, Nat.zero_and]
          exact H.held.decRef_zero
        · rfl
      have hfilter : anon.filter (·.1 ≠ virt / pagingPageSize) = anon := by
        refine List.filter_eq_self.mpr fun kf hkf => decide_eq_true fun h => ?_
        exact hnone kf.2 (h ▸ hkf)
      rw [hsub, hfilter]
      exact ⟨H.held, fun _ => rfl⟩
  refine ⟨m', hr, ⟨⟨htree, hheld.1, H.tables, fun {k f} hkf => ?_⟩, id, .inl,
    fun {x} hx => hsame x hx.2⟩, hheld.2⟩
  obtain ⟨hmem, hne⟩ := List.mem_filter.mp hkf
  obtain ⟨hk, hb⟩ := H.backed hmem
  rw [Function.update_of_ne (leafPath_ne_of_page hcan hk (of_decide_eq_true hne))]
  exact ⟨hk, hb⟩

/-- Mapping a page that the list does not have: the frame is not held for it. -/
theorem Paged.mapPage (H : Paged U others n root m T leaf anon rest) {phys flags : Nat}
    (hv : virt ≠ 0) (hcan : Canonical virt) (hn : virt / 2 ^ 39 % 512 < n)
    (hsmall : leaf (leafPath virt true) = 0) (hkey : ∀ f, (virt / pagingPageSize, f) ∉ anon)
    (h : pagingMapPage pmmFrames m root virt phys flags false = some m₁) :
    ∃ T' new, PagedStep U others n root rest (· = virt) m T m₁ T'
      (Function.update leaf (leafPath virt false) (pagingEntry phys flags false)) anon new := by
  rcases pagingMapPage_spec (PmmHolds.allocSpec U others) H.tree H.held (fun _ _ => H.mem_held) hv
    hn
    (fun _ : false = false => hsmall) nofun (leafOk_pagingEntry_small virt phys flags) with
      ⟨m', T', new, hr, G, -⟩ | ⟨-, hr⟩
  swap
  · cases h.symm.trans hr
  cases h.symm.trans hr
  have hperm : (new ++ (anon.map Prod.snd ++ rest)).Perm (anon.map Prod.snd ++ (new ++ rest)) := by
    rw [← List.append_assoc, ← List.append_assoc]
    exact List.perm_append_comm.append_right rest
  refine ⟨T', new, ⟨G.tree, G.frames.perm hperm, fun {p f} hp => ?_, fun {k f} hkf => ?_⟩, G.le,
    fun {p f} hp => ?_, fun {x} hx => ?_⟩
  · rcases G.origin hp with hp | ⟨hf, -⟩
    · exact List.mem_append_right _ (H.tables hp)
    · exact List.mem_append_left _ hf
  · obtain ⟨hk, hb⟩ := H.backed hkf
    have hne : k ≠ virt / pagingPageSize := by
      rintro rfl
      exact hkey f hkf
    rw [Function.update_of_ne (leafPath_ne_of_page hcan hk hne)]
    exact ⟨hk, hb⟩
  · exact (G.origin hp).imp_right fun ⟨hf, hq⟩ => ⟨hf, virt, rfl, hq⟩
  · obtain ⟨⟨g, hg, hin⟩, hold⟩ := hx
    refine G.same x (fun f hf hin' => ?_) hold
    obtain ⟨hframe, hfresh⟩ := G.fresh f hf
    have hgmem : g ∈ anon.map Prod.snd ++ rest := List.mem_append_right _ hg
    exact hfresh (InFrame.eq hframe (H.held.isFrame hgmem) hin' hin ▸ hgmem)

/-- A frame taken from the allocator is one of `rest`, as long as nothing but the frame itself has
been written since. -/
theorem Paged.takeFresh (H : Paged U others n root m T leaf anon rest) {s : Pmm} {mem : Nat → Nat}
    (halloc : pmmFrames.alloc m.frames = (s, f)) (hf : f ≠ 0)
    (hmem : ∀ x, ¬ InFrame f x → mem x = m.mem x) :
    Paged U others n root ⟨mem, s⟩ T leaf anon (f :: rest) ∧
      ∀ {x}, Kept n T rest x → Kept n T (f :: rest) x ∧ mem x = m.mem x := by
  have hheld : PmmHolds U others s (f :: (anon.map Prod.snd ++ rest)) := by
    rcases H.held.alloc with ⟨hr, -⟩ | ⟨s', f', hr, H'⟩
    · cases halloc.symm.trans hr
      exact absurd rfl hf
    · cases halloc.symm.trans hr
      exact H'
  have hframe : IsFrame f := hheld.isFrame List.mem_cons_self
  have hfresh := (List.nodup_cons.mp hheld.nodup).1
  have hkept {g x : Nat} (hg : g ∈ anon.map Prod.snd ++ rest) (hin : InFrame g x) :
      mem x = m.mem x := by
    refine hmem x fun hin' => ?_
    exact hfresh (InFrame.eq hframe (H.held.isFrame hg) hin' hin ▸ hg)
  have htree : PageTree n root mem T leaf := by
    refine H.tree.congr fun p g i hp hi => ?_
    exact hkept (H.mem_held hp) (inFrame_entryAddr (Nat.lt_of_lt_of_le hi (H.tree.size_le_512 p)))
  refine ⟨⟨htree, hheld.perm List.perm_middle.symm, fun hp => ?_, H.backed⟩, fun {x} hx => ?_⟩
  · exact List.mem_cons_of_mem _ (H.tables hp)
  · obtain ⟨⟨g, hg, hin⟩, hold⟩ := hx
    exact ⟨⟨⟨g, List.mem_cons_of_mem _ hg, hin⟩, hold⟩, hkept (List.mem_append_right _ hg) hin⟩

/-- A fresh frame is mapped at a page that the list does not have, and stays one of `rest`. -/
theorem Paged.mapHeld (H : Paged U others n root m T leaf anon rest) {flags : Nat} {s : Pmm}
    {mem : Nat → Nat} (hv : virt ≠ 0) (hcan : Canonical virt) (hn : virt / 2 ^ 39 % 512 < n)
    (hsmall : leaf (leafPath virt true) = 0) (hkey : ∀ f, (virt / pagingPageSize, f) ∉ anon)
    (halloc : pmmFrames.alloc m.frames = (s, f)) (hf : f ≠ 0)
    (hmem : ∀ x, ¬ InFrame f x → mem x = m.mem x)
    (h : pagingMapPage pmmFrames ⟨mem, s⟩ root virt f flags false = some m₁) :
    ∃ T' new, PagedStep U others n root rest (· = virt) m T m₁ T'
      (Function.update leaf (leafPath virt false) (pagingEntry f flags false)) anon
        (new ++ [f]) := by
  obtain ⟨H₀, hkept⟩ := H.takeFresh halloc hf hmem
  obtain ⟨T', new, S⟩ := H₀.mapPage hv hcan hn hsmall hkey h
  refine ⟨T', new, ?_, S.le, fun hp => ?_, fun {x} hx => ?_⟩
  · rw [List.append_assoc]
    exact S.paged
  · exact (S.origin hp).imp_right fun ⟨hg, hD⟩ => ⟨List.mem_append_left _ hg, hD⟩
  · exact (S.same (hkept hx).1).trans (hkept hx).2

/-- The same, with the page put into the list. -/
theorem Paged.mapFresh (H : Paged U others n root m T leaf anon rest) {flags : Nat} {s : Pmm}
    {mem : Nat → Nat} (hv : virt ≠ 0) (hcan : Canonical virt) (hn : virt / 2 ^ 39 % 512 < n)
    (hsmall : leaf (leafPath virt true) = 0) (hkey : ∀ f, (virt / pagingPageSize, f) ∉ anon)
    (hflags : flags &&& pagingPteAddrMask = 0) (halloc : pmmFrames.alloc m.frames = (s, f))
    (hf : f ≠ 0) (hmem : ∀ x, ¬ InFrame f x → mem x = m.mem x)
    (h : pagingMapPage pmmFrames ⟨mem, s⟩ root virt f flags false = some m₁) :
    ∃ T' new, PagedStep U others n root rest (· = virt) m T m₁ T'
      (Function.update leaf (leafPath virt false) (pagingEntry f flags false))
      ((virt / pagingPageSize, f) :: anon) new := by
  obtain ⟨H₀, hkept⟩ := H.takeFresh halloc hf hmem
  have hframe : IsFrame f := H₀.held.isFrame (List.mem_append_right _ List.mem_cons_self)
  obtain ⟨T', new, S⟩ := H₀.mapPage hv hcan hn hsmall hkey h
  refine ⟨T', new, ⟨S.paged.tree, ?_, fun {p g} hp => ?_, fun {k g} hkg => ?_⟩, S.le, S.origin,
    fun {x} hx => ?_⟩
  · refine S.paged.held.perm ?_
    rw [List.map_cons, List.cons_append]
    have hnew : (new ++ f :: rest).Perm (f :: (new ++ rest)) := List.perm_middle
    exact (hnew.append_left _).trans List.perm_middle
  · rcases S.origin hp with hp | ⟨hg, -⟩
    · exact List.mem_append_right _ (H.tables hp)
    · exact List.mem_append_left _ hg
  · rcases List.mem_cons.mp hkg with heq | hkg
    · cases heq
      rw [leafPath_pageBase, Function.update_self, pagingEntry_and_addrMask hframe.2 hflags]
      refine ⟨hcan.pageBase, ne_zero_of_testBit (pagingEntry_small_present f flags), ?_⟩
      rw [pagingAlignPhys_eq]
      exact (congrArg (f - ·) hframe.1).trans (Nat.sub_zero f)
    · exact S.paged.backed hkg
  · exact (S.same (hkept hx).1).trans (hkept hx).2

end

/-! ## Regions -/

section
variable {virt cnt : Nat}

/-- The range of `cnt` pages from `virt` on can be mapped with small pages. -/
structure SmallPages (n : Nat) (leaf : List Nat → Nat) (virt cnt : Nat) : Prop where
  aligned : virt % pagingPageSize = 0
  pos : virt ≠ 0
  no_wrap : virt + pagingPageSize * cnt < 2 ^ 64
  page : ∀ {x}, virt ≤ x → x < virt + pagingPageSize * cnt →
    Canonical x ∧ x / 2 ^ 39 % 512 < n ∧ leaf (leafPath x true) = 0

theorem SmallPages.stop_eq (virt cnt : Nat) :
    virt + pagingPageSize * (cnt + 1) = virt + pagingPageSize + pagingPageSize * cnt := by
  rw [Nat.mul_succ]
  omega

theorem SmallPages.add_eq (R : SmallPages n leaf virt (cnt + 1)) :
    add64 virt (pagingStride false) = virt + pagingPageSize := by
  apply add64_of_lt
  have hlt := R.no_wrap
  rw [stop_eq] at hlt
  exact Nat.lt_of_le_of_lt (Nat.le_add_right _ _) hlt

theorem SmallPages.head_lt (virt cnt : Nat) : virt < virt + pagingPageSize * (cnt + 1) :=
  Nat.lt_add_of_pos_right (Nat.mul_pos (by decide) (Nat.succ_pos cnt))

theorem SmallPages.head (R : SmallPages n leaf virt (cnt + 1)) :
    Canonical virt ∧ virt / 2 ^ 39 % 512 < n ∧ leaf (leafPath virt true) = 0 :=
  R.page (Nat.le_refl _) (head_lt virt cnt)

theorem SmallPages.tail (R : SmallPages n leaf virt (cnt + 1)) (e : Nat) :
    SmallPages n (Function.update leaf (leafPath virt false) e) (virt + pagingPageSize) cnt := by
  have hstop := stop_eq virt cnt
  refine ⟨?_, ?_, ?_, fun {x} hle hx => ?_⟩
  · rw [Nat.add_mod_right]
    exact R.aligned
  · exact Nat.ne_of_gt (Nat.add_pos_left (Nat.pos_of_ne_zero R.pos) _)
  · rw [← hstop]
    exact R.no_wrap
  · obtain ⟨hcan, hn, hsmall⟩ := R.page (Nat.le_of_add_right_le hle) (hstop ▸ hx)
    rw [Function.update_of_ne (leafPath_ne (by decide))]
    exact ⟨hcan, hn, hsmall⟩

/-- The addresses on the first page of the range. -/
theorem leafPath_eq_iff {x : Nat} (hmod : virt % pagingPageSize = 0) (hv : Canonical virt)
    (hx : Canonical x) :
    leafPath x false = leafPath virt false ↔ virt ≤ x ∧ x < virt + pagingPageSize := by
  constructor
  · intro h
    have hpage := leafPath_inj hx hv h
    simp only [pageNumber, pagingStride, pagingPageSize, Bool.false_eq_true,
      if_false] at hpage hmod ⊢
    omega
  · intro h
    apply leafPath_congr
    simp only [pageNumber, pagingStride, pagingPageSize, Bool.false_eq_true, if_false] at h hmod ⊢
    omega

/-- The number of the first page. -/
theorem pageKey_iff {k : Nat} (hmod : virt % pagingPageSize = 0) : k = virt / pagingPageSize ↔
    virt ≤ k * pagingPageSize ∧ k * pagingPageSize < virt + pagingPageSize := by
  simp only [pagingPageSize] at *
  omega

/-- The addresses of the range are those of its first page and of the rest. -/
theorem SmallPages.range_succ {x : Nat} : virt ≤ x ∧ x < virt + pagingPageSize * (cnt + 1) ↔
    (virt ≤ x ∧ x < virt + pagingPageSize) ∨
      virt + pagingPageSize ≤ x ∧ x < virt + pagingPageSize + pagingPageSize * cnt := by
  rw [stop_eq]
  omega

/-- What a loop leaves at an address: the first round writes the entry of the first page, the other
rounds those of the rest. -/
theorem SmallPages.leaf_succ (R : SmallPages n leaf virt (cnt + 1)) {x value entry e : Nat}
    (hx : Canonical x) (hfirst : virt ≤ x ∧ x < virt + pagingPageSize → value = entry)
    (hrest : virt + pagingPageSize ≤ x ∧ x < virt + pagingPageSize + pagingPageSize * cnt →
      e = entry)
    (hother : ¬ (virt + pagingPageSize ≤ x ∧ x < virt + pagingPageSize + pagingPageSize * cnt) →
      e = Function.update leaf (leafPath virt false) value (leafPath x false)) :
    e = if virt ≤ x ∧ x < virt + pagingPageSize * (cnt + 1) then entry
      else leaf (leafPath x false) := by
  have hpath := leafPath_eq_iff R.aligned R.head.1 hx
  by_cases hin : virt + pagingPageSize ≤ x ∧ x < virt + pagingPageSize + pagingPageSize * cnt
  · rw [if_pos (range_succ.mpr (.inr hin)), hrest hin]
  · rw [hother hin]
    by_cases hpage : virt ≤ x ∧ x < virt + pagingPageSize
    · rw [if_pos (range_succ.mpr (.inl hpage)), hpath.mpr hpage, Function.update_self,
        hfirst hpage]
    · rw [if_neg fun h => (range_succ.mp h).elim hpage hin,
        Function.update_of_ne fun h => hpage (hpath.mp h)]

theorem Paged.unmapLoop {free : Bool} {fuel : Nat} (H : Paged U others n root m T leaf anon rest)
    (R : SmallPages n leaf virt cnt)
    (hfree : free = true → ∀ x, virt ≤ x → x < virt + pagingPageSize * cnt →
      leaf (leafPath x false) ≠ 0 →
      (x / pagingPageSize, leaf (leafPath x false) &&& pagingPteAddrMask) ∈ anon)
    (hkeep : free = false → ∀ k f, (k, f) ∈ anon →
      ¬ (virt ≤ k * pagingPageSize ∧ k * pagingPageSize < virt + pagingPageSize * cnt))
    (hfuel : cnt < fuel) :
    ∃ m' leaf',
      pagingUnmapLoop pmmFrames root (virt + pagingPageSize * cnt) false free fuel m virt =
        some m' ∧
      PagedStep U others n root rest D m T m' T leaf' (anon.filter fun kf =>
        ¬ (virt ≤ kf.1 * pagingPageSize ∧ kf.1 * pagingPageSize < virt + pagingPageSize * cnt)) [] ∧
      (∀ x, leaf' (leafPath x true) = leaf (leafPath x true)) ∧
      (∀ x, Canonical x → leaf' (leafPath x false) =
        if virt ≤ x ∧ x < virt + pagingPageSize * cnt then 0 else leaf (leafPath x false)) ∧
      ((∀ k f, (k, f) ∈ anon →
        ¬ (virt ≤ k * pagingPageSize ∧ k * pagingPageSize < virt + pagingPageSize * cnt)) →
        m'.frames = m.frames) := by
  induction cnt generalizing m leaf anon virt fuel with
  | zero =>
    obtain ⟨fuel, rfl⟩ := Nat.exists_eq_add_one_of_ne_zero (Nat.ne_of_gt hfuel)
    have hempty {x : Nat} : ¬ (virt ≤ x ∧ x < virt + pagingPageSize * 0) := by omega
    refine ⟨m, leaf, ?_, ?_, fun _ => rfl, fun x _ => ?_, fun _ => rfl⟩
    · rw [pagingUnmapLoop, if_neg (by omega)]
    · rw [List.filter_eq_self.mpr fun kf _ => decide_eq_true hempty]
      exact H.refl
    · rw [if_neg hempty]
  | succ cnt ih =>
    obtain ⟨fuel, rfl⟩ :=
      Nat.exists_eq_add_one_of_ne_zero (Nat.ne_of_gt (Nat.lt_of_le_of_lt (Nat.zero_le _) hfuel))
    have R' := R.tail 0
    have hadd := R.add_eq
    have hlt := SmallPages.head_lt virt cnt
    have hstop := SmallPages.stop_eq virt cnt
    obtain ⟨hcan, hn, hsmall⟩ := R.head
    have hmod := R.aligned
    have hfirst : virt ≤ virt / pagingPageSize * pagingPageSize ∧
        virt / pagingPageSize * pagingPageSize < virt + pagingPageSize * (cnt + 1) :=
      SmallPages.range_succ.mpr (.inl ((pageKey_iff hmod).mp rfl))
    obtain ⟨m₁, hr₁, S₁, hsame₁⟩ := H.unmapPage R.pos hcan hn hsmall
      (fun h : free = true => hfree h virt (Nat.le_refl _) hlt)
      (fun h f hf => hkeep h _ f hf hfirst)
    have hother {x : Nat} (hx : Canonical x) (hge : virt + pagingPageSize ≤ x) :
        Function.update leaf (leafPath virt false) 0 (leafPath x false) =
          leaf (leafPath x false) := by
      apply Function.update_of_ne
      intro h
      have := (leafPath_eq_iff hmod hcan hx).mp h
      omega
    obtain ⟨m₂, leaf₂, hr₂, S₂, hhuge₂, hleaf₂, hsame₂⟩ := ih S₁.paged R'
      (fun h x hle hx hne => by
        have hx' := (R'.page hle hx).1
        rw [hother hx' hle] at hne ⊢
        refine List.mem_filter.mpr ⟨hfree h x (by omega) (by omega) hne, decide_eq_true ?_⟩
        simp only [pagingPageSize] at *
        omega)
      (fun h k f hf => by
        have := hkeep h k f (List.mem_filter.mp hf).1
        rw [SmallPages.range_succ] at this
        exact fun hk => this (.inr hk))
      (Nat.lt_of_succ_lt_succ hfuel)
    refine ⟨m₂, leaf₂, ?_, ?_, fun x => ?_, fun x hx => ?_, fun hnone => ?_⟩
    · rw [pagingUnmapLoop, if_pos hlt, hr₁]
      simp only [hadd]
      rw [hstop]
      exact hr₂
    · have S := S₁.trans S₂
      rw [List.filter_filter] at S
      refine cast (congrArg (PagedStep U others n root rest D m T m₂ T leaf₂ · []) ?_) S
      refine List.filter_congr fun kf _ => ?_
      rw [← Bool.decide_and]
      refine decide_eq_decide.mpr ?_
      rw [SmallPages.range_succ, ne_eq, pageKey_iff hmod]
      omega
    · rw [hhuge₂, Function.update_of_ne (leafPath_ne (by decide))]
    · rw [hleaf₂ x hx]
      exact R.leaf_succ hx (fun _ => rfl) (fun h => if_pos h) fun h => if_neg h
    · rw [← hsame₁ fun f hf => hnone _ f hf hfirst]
      exact hsame₂ fun k f hf hk =>
        hnone k f (List.mem_filter.mp hf).1 (SmallPages.range_succ.mpr (.inr hk))

theorem Paged.mapLoop {phys flags fuel : Nat} (H : Paged U others n root m T leaf anon rest)
    (R : SmallPages n leaf virt cnt)
    (hkey : ∀ k f, (k, f) ∈ anon →
      ¬ (virt ≤ k * pagingPageSize ∧ k * pagingPageSize < virt + pagingPageSize * cnt))
    (hphys : phys < 2 ^ 64)
    (h : pagingMapLoop pmmFrames root (virt + pagingPageSize * cnt) flags false fuel m virt phys =
      some m₁) :
    ∃ T' leaf' new,
      PagedStep U others n root rest (fun x => virt ≤ x ∧ x < virt + pagingPageSize * cnt) m T m₁
        T' leaf' anon new ∧
      (∀ x, leaf' (leafPath x true) = leaf (leafPath x true)) ∧
      ∀ x, Canonical x → leaf' (leafPath x false) =
        if virt ≤ x ∧ x < virt + pagingPageSize * cnt then
          pagingEntry (add64 phys (x / pagingPageSize * pagingPageSize - virt)) flags false
        else leaf (leafPath x false) := by
  induction cnt generalizing m leaf virt phys fuel T rest with
  | zero =>
    have hempty {x : Nat} : ¬ (virt ≤ x ∧ x < virt + pagingPageSize * 0) := by omega
    cases fuel with
    | zero => cases h
    | succ fuel =>
      rw [pagingMapLoop, if_neg (by omega)] at h
      cases h
      exact ⟨T, leaf, [], H.refl, fun _ => rfl, fun x _ => (if_neg hempty).symm⟩
  | succ cnt ih =>
    have R' := R.tail (pagingEntry phys flags false)
    have hadd := R.add_eq
    have hlt := SmallPages.head_lt virt cnt
    have hstop := SmallPages.stop_eq virt cnt
    obtain ⟨hcan, hn, hsmall⟩ := R.head
    have hmod := R.aligned
    cases fuel with
    | zero => cases h
    | succ fuel =>
      rw [pagingMapLoop, if_pos hlt] at h
      cases hm : pagingMapPage pmmFrames m root virt phys flags false with
      | none =>
        rw [hm] at h
        cases h
      | some m₀ =>
        simp only [hm, hadd] at h
        rw [hstop] at h
        obtain ⟨T₀, new₀, S₀⟩ := H.mapPage R.pos hcan hn hsmall (fun f hf =>
          hkey _ f hf (SmallPages.range_succ.mpr (.inl ((pageKey_iff hmod).mp rfl)))) hm
        obtain ⟨T', leaf', new', S', hhuge, hleaf⟩ := ih S₀.paged R'
          (fun k f hf hk => hkey k f hf (SmallPages.range_succ.mpr (.inr hk))) add64_lt h
        have hfirst : ∀ x, x = virt → virt ≤ x ∧ x < virt + pagingPageSize * (cnt + 1) := by
          rintro x rfl
          exact ⟨Nat.le_refl x, hlt⟩
        refine ⟨T', leaf', new' ++ new₀,
          (S₀.mono hfirst).trans (S'.mono fun x hx => SmallPages.range_succ.mpr (.inr hx)),
          fun x => ?_, fun x hx => ?_⟩
        · rw [hhuge, Function.update_of_ne (leafPath_ne (by decide))]
        · rw [hleaf x hx]
          refine R.leaf_succ hx (fun hfirst => ?_) (fun hin => ?_) fun hin => if_neg hin
          · have hbase : x / pagingPageSize * pagingPageSize - virt = 0 := by
              simp only [pagingPageSize] at *
              omega
            rw [hbase, add64_of_lt (by omega), Nat.add_zero]
          · have hoff : add64 (add64 phys (pagingStride false))
                (x / pagingPageSize * pagingPageSize - (virt + pagingPageSize)) =
                add64 phys (x / pagingPageSize * pagingPageSize - virt) := by
              simp only [add64, addW, pagingStride, pagingPageSize, Bool.false_eq_true,
                if_false] at *
              omega
            rw [if_pos hin, hoff]

end

end Plos
