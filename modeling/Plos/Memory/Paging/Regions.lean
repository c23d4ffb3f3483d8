import Plos.Memory.Paging.Refinement

/-! The loops of `paging_map_region` and `paging_unmap_region`.

The cursor starts at an address that need not be aligned and moves by whole pages; each round maps
or unmaps the page that contains the cursor. So the loops visit as many pages as the size alone asks
for (`pagingRounds`), which is one too few where the offset of the start and the rest of the size
make up more than a page. -/

namespace Plos

variable {α : Type} {A : FrameAllocator α} {I : α → List Nat → Prop} {left : α → Nat}
  {root virt phys size flags stop cnt fuel : Nat} {m m₁ m₂ : Machine α}
  {T T₁ : List Nat → Option Nat} {leaf leaf₁ leaf₂ : List Nat → Nat} {held : List Nat}
  {isHuge : Bool}

theorem pagingStride_pos (isHuge : Bool) : 0 < pagingStride isHuge := by
  cases isHuge with
  | true => exact Nat.two_pow_pos 21
  | false => exact Nat.two_pow_pos 12

theorem pagingStride_le (isHuge : Bool) : pagingStride isHuge ≤ 2 ^ 21 := by
  cases isHuge with
  | true => exact Nat.le_refl _
  | false => decide

/-- No page of the other size is in the way of the page that contains `x`. -/
def SizeFree (isHuge : Bool) (T : List Nat → Option Nat) (leaf : List Nat → Nat) (x : Nat) : Prop :=
  if isHuge then T (leafPath x true) = none else leaf (leafPath x true) = 0

theorem SizeFree.small (h : SizeFree isHuge T leaf virt) :
    isHuge = false → leaf (leafPath virt true) = 0 := by
  rintro rfl
  exact h

theorem SizeFree.huge (h : SizeFree isHuge T leaf virt) :
    isHuge = true → T (leafPath virt true) = none := by
  rintro rfl
  exact h

theorem SizeFree.congr {x : Nat} (h : SizeFree isHuge T leaf virt)
    (hpage : pageNumber x isHuge = pageNumber virt isHuge) : SizeFree isHuge T leaf x := by
  have hslot : leafPath x true = leafPath virt true := leafPath_congr (slot_of_pageNumber hpage)
  rw [SizeFree, hslot]
  exact h

/-! ## The leaves that a loop writes -/

/-- The address of the cursor in a round. -/
def cursor (isHuge : Bool) (virt i : Nat) : Nat := virt + pagingStride isHuge * i

theorem cursor_zero (isHuge : Bool) (virt : Nat) : cursor isHuge virt 0 = virt := rfl

theorem cursor_succ (isHuge : Bool) (virt i : Nat) :
    cursor isHuge virt (i + 1) = cursor isHuge (virt + pagingStride isHuge) i := by
  rw [cursor, cursor, Nat.mul_succ]
  omega

theorem pageNumber_cursor (isHuge : Bool) (virt i : Nat) :
    pageNumber (cursor isHuge virt i) isHuge = pageNumber virt isHuge + i :=
  Nat.add_mul_div_left virt i (pagingStride_pos isHuge)

/-- The entries of the pages under the cursor have been written, and no others. If two rounds write
the same entry, the later one counts. -/
structure Written (isHuge : Bool) (virt cnt : Nat) (entry : Nat → Nat)
    (leaf leaf' : List Nat → Nat) : Prop where
  hit : ∀ i < cnt,
    (∀ j < cnt, i < j →
      leafPath (cursor isHuge virt i) isHuge ≠ leafPath (cursor isHuge virt j) isHuge) →
    leaf' (leafPath (cursor isHuge virt i) isHuge) = entry i
  miss : ∀ q, (∀ i < cnt, q ≠ leafPath (cursor isHuge virt i) isHuge) → leaf' q = leaf q

namespace Written

variable {entry : Nat → Nat}

theorem zero (isHuge : Bool) (virt : Nat) (entry : Nat → Nat) (leaf : List Nat → Nat) :
    Written isHuge virt 0 entry leaf leaf := ⟨nofun, fun _ _ => rfl⟩

/-- The first round, and then the others. -/
theorem cons (W : Written isHuge (virt + pagingStride isHuge) cnt (fun i => entry (i + 1))
      (Function.update leaf (leafPath virt isHuge) (entry 0)) leaf₁) :
    Written isHuge virt (cnt + 1) entry leaf leaf₁ := by
  refine ⟨fun i hi hlater => ?_, fun q hq => ?_⟩
  · cases i with
    | zero =>
      rw [cursor_zero, W.miss _ fun i hi => ?_, Function.update_self]
      rw [← cursor_succ]
      exact hlater (i + 1) (Nat.succ_lt_succ hi) (Nat.succ_pos i)
    | succ i =>
      rw [cursor_succ]
      refine W.hit i (Nat.lt_of_succ_lt_succ hi) fun j hj hij => ?_
      rw [← cursor_succ, ← cursor_succ]
      exact hlater (j + 1) (Nat.succ_lt_succ hj) (Nat.succ_lt_succ hij)
  · have hfirst : q ≠ leafPath virt isHuge := hq 0 (Nat.succ_pos _)
    rw [W.miss q fun i hi => ?_, Function.update_of_ne hfirst]
    rw [← cursor_succ]
    exact hq (i + 1) (Nat.succ_lt_succ hi)

/-- A single round. -/
theorem one (virt e : Nat) :
    Written isHuge virt 1 (fun _ => e) leaf (Function.update leaf (leafPath virt isHuge) e) :=
  .cons (.zero ..)

/-- Pages of the other size keep their entries. -/
theorem other_size (W : Written isHuge virt cnt entry leaf leaf₁) {isHuge' : Bool}
    (h : isHuge' ≠ isHuge) (x : Nat) : leaf₁ (leafPath x isHuge') = leaf (leafPath x isHuge') :=
  W.miss _ fun _ _ => leafPath_ne h

/-- A page that the cursor does not meet keeps its entry. -/
theorem other_page (W : Written isHuge virt cnt entry leaf leaf₁)
    (hcan : ∀ i < cnt, Canonical (cursor isHuge virt i)) {x : Nat} (hx : Canonical x)
    (hpage : ∀ i < cnt, pageNumber x isHuge ≠ pageNumber virt isHuge + i) :
    leaf₁ (leafPath x isHuge) = leaf (leafPath x isHuge) := by
  refine W.miss _ fun i hi h => hpage i hi ?_
  rw [leafPath_inj hx (hcan i hi) h, pageNumber_cursor]

theorem leafWalk_eq (W : Written isHuge virt cnt entry leaf leaf₁)
    (hcan : ∀ i < cnt, Canonical (cursor isHuge virt i)) {x : Nat} (hx : Canonical x)
    (hpage : ∀ i < cnt, pageNumber x isHuge ≠ pageNumber virt isHuge + i) :
    leafWalk leaf₁ x = leafWalk leaf x := by
  have hleaf (isHuge' : Bool) : leaf₁ (leafPath x isHuge') = leaf (leafPath x isHuge') := by
    by_cases h : isHuge' = isHuge
    · rw [h]
      exact W.other_page hcan hx hpage
    · exact W.other_size h x
  rw [leafWalk, leafWalk, hleaf true, hleaf false]

/-- The entry of a page that the cursor meets. -/
theorem hit_page (W : Written isHuge virt cnt entry leaf leaf₁)
    (hcan : ∀ i < cnt, Canonical (cursor isHuge virt i)) {x i : Nat} (hi : i < cnt)
    (hpage : pageNumber x isHuge = pageNumber virt isHuge + i) :
    leaf₁ (leafPath x isHuge) = entry i := by
  rw [leafPath_congr (hpage.trans (pageNumber_cursor isHuge virt i).symm)]
  refine W.hit i hi fun j hj hij h => ?_
  -- the pages of two rounds are different
  have hsame := leafPath_inj (hcan i hi) (hcan j hj) h
  rw [pageNumber_cursor, pageNumber_cursor] at hsame
  omega

end Written

/-- The pages of the other size stay away, if their entries and tables do. -/
theorem SizeFree.mono {x : Nat} (h : SizeFree isHuge T leaf x)
    (hleaf : isHuge = false → leaf₁ (leafPath x true) = leaf (leafPath x true))
    (hT : isHuge = true → ∀ f, T₁ (leafPath x true) = some f → T (leafPath x true) = some f) :
    SizeFree isHuge T₁ leaf₁ x := by
  cases isHuge with
  | true =>
    cases hx : T₁ (leafPath x true) with
    | none => exact hx
    | some f => cases h.symm.trans (hT rfl f hx)
  | false => exact (hleaf rfl).trans h

/-- Writing an entry of this size. -/
theorem SizeFree.update {x : Nat} (h : SizeFree isHuge T leaf x) (e : Nat)
    (hT : ∀ p f, T₁ p = some f → T p = some f ∨ p <+: tablePath virt isHuge) :
    SizeFree isHuge T₁ (Function.update leaf (leafPath virt isHuge) e) x := by
  refine h.mono (fun hsmall => ?_) fun hhuge f hf => ?_
  · subst hsmall
    exact Function.update_of_ne (leafPath_ne (Ne.symm Bool.false_ne_true)) ..
  · subst hhuge
    exact (hT _ _ hf).resolve_right fun hp => absurd hp.length_le (by simp [tablePath])

theorem Written.sizeFree {entry : Nat → Nat} {x : Nat}
    (W : Written isHuge virt cnt entry leaf leaf₁) (h : SizeFree isHuge T leaf x)
    (hT : isHuge = true → ∀ f, T₁ (leafPath x true) = some f → T (leafPath x true) = some f) :
    SizeFree isHuge T₁ leaf₁ x := by
  refine h.mono (fun hsmall => ?_) hT
  subst hsmall
  exact W.other_size (Ne.symm Bool.false_ne_true) x

/-! ## What the calls keep of the allocator -/

section
variable {J : α → Prop}

/-- A property of the allocator that allocations keep is kept. -/
theorem vmmNextTable_frames (hJ : ∀ a, J a → J (A.alloc a).1) (h : J m.frames) (table index : Nat)
    (allocate : Bool) : J (vmmNextTable A m table index allocate).1.frames := by
  unfold vmmNextTable
  split
  · split
    · exact h
    · simp only
      split
      · exact hJ _ h
      · exact hJ _ h
  · exact h

theorem vmmGetPte_frames (hJ : ∀ a, J a → J (A.alloc a).1) (h : J m.frames) (root virt : Nat)
    (allocate isHuge : Bool) : J (vmmGetPte A m root virt allocate isHuge).1.frames := by
  have hnext {m m' : Machine α} {table index : Nat} {next : Option Nat}
      (hr : vmmNextTable A m table index allocate = (m', next)) (h : J m.frames) : J m'.frames := by
    have hframes := vmmNextTable_frames (A := A) hJ h table index allocate
    rwa [hr] at hframes
  unfold vmmGetPte
  simp only
  split
  · next hr => exact hnext hr h
  · next hr =>
    have h := hnext hr h
    split
    · next hr => exact hnext hr h
    · next hr =>
      have h := hnext hr h
      split
      · exact h
      · split
        · next hr => exact hnext hr h
        · next hr => exact hnext hr h

theorem pagingMapPage_frames {m' : Machine α} {phys : Nat} (hJ : ∀ a, J a → J (A.alloc a).1)
    (h : J m.frames) (hr : pagingMapPage A m root virt phys flags isHuge = some m') :
    J m'.frames := by
  have hframes := vmmGetPte_frames hJ h root virt true isHuge
  obtain ⟨-, hr⟩ := Option.ite_none_left_eq_some.mp hr
  split at hr
  · cases hr
  · next hpte =>
    cases hr
    rwa [hpte] at hframes

theorem pagingUnmapPage_frames {m' : Machine α} {freePhysical : Bool}
    (hJ : ∀ a, J a → J (A.alloc a).1) (hdec : ∀ a f, J a → J (A.decRef a f)) (h : J m.frames)
    (hr : pagingUnmapPage A m root virt isHuge freePhysical = some m') : J m'.frames := by
  have hframes := vmmGetPte_frames hJ h root virt false isHuge
  obtain ⟨-, hr⟩ := Option.ite_none_left_eq_some.mp hr
  split at hr
  · next hpte =>
    cases hr
    rwa [hpte] at hframes
  · next hpte =>
    rw [hpte] at hframes
    cases hr
    cases freePhysical with
    | true => exact hdec _ _ hframes
    | false => exact hframes

theorem pagingMapRegion_frames (hJ : ∀ a, J a → J (A.alloc a).1) (h : J m.frames)
    (hr : pagingMapRegion A m root virt phys size flags isHuge = some m₁) : J m₁.frames := by
  unfold pagingMapRegion at hr
  generalize size / pagingStride isHuge + 2 = fuel at hr
  generalize add64 virt size = stop at hr
  induction fuel generalizing m virt phys with
  | zero => cases hr
  | succ fuel ih =>
    unfold pagingMapLoop at hr
    split at hr
    · split at hr
      · cases hr
      · next hpage => exact ih (pagingMapPage_frames hJ h hpage) hr
    · cases hr
      exact h

end

/-! ## The loops -/

/-- Pages have been mapped, with new tables on the way to them. -/
structure MapStep (I : α → List Nat → Prop) (root : Nat) (isHuge : Bool) (virt cnt : Nat)
    (entry : Nat → Nat) (held : List Nat) (T : List Nat → Option Nat) (leaf : List Nat → Nat)
    (m' : Machine α) (T' : List Nat → Option Nat) (leaf' : List Nat → Nat) (new : List Nat) :
      Prop where
  tree : PageTree 512 root m'.mem T' leaf'
  frames : I m'.frames (new ++ held)
  tables : ∀ p f, T' p = some f → f ∈ new ++ held
  origin : ∀ p f, T' p = some f → T p = some f ∨
    ∃ i < cnt, p <+: tablePath (cursor isHuge virt i) isHuge
  written : Written isHuge virt cnt entry leaf leaf'

theorem MapStep.sizeFree {entry : Nat → Nat} {new : List Nat}
    (S : MapStep I root isHuge virt cnt entry held T leaf m₁ T₁ leaf₁ new) {x : Nat}
    (h : SizeFree isHuge T leaf x) : SizeFree isHuge T₁ leaf₁ x := by
  refine S.written.sizeFree h fun hhuge f hf => ?_
  subst hhuge
  rcases S.origin _ _ hf with hf | ⟨i, -, hp⟩
  · exact hf
  · exact absurd hp.length_le (by simp [tablePath])

/-- A round of the loop: the page is mapped, or there are not enough frames for the tables. -/
theorem pagingMapPage_round (S : AllocSpec A I left) (H : PageTree 512 root m.mem T leaf)
    (hI : I m.frames held) (hT : ∀ p f, T p = some f → f ∈ held) (hv : virt ≠ 0)
    (hfree : SizeFree isHuge T leaf virt)
    (hok : LeafOk (leafPath virt isHuge) (pagingEntry phys flags isHuge)) :
    (∃ m₁ T₁ new, pagingMapPage A m root virt phys flags isHuge = some m₁ ∧
      PageTree 512 root m₁.mem T₁
        (Function.update leaf (leafPath virt isHuge) (pagingEntry phys flags isHuge)) ∧
      I m₁.frames (new ++ held) ∧ (∀ p f, T₁ p = some f → f ∈ new ++ held) ∧
      (∀ p f, T₁ p = some f → T p = some f ∨ p <+: tablePath virt isHuge) ∧
      left m.frames ≤ left m₁.frames + 3) ∨
    left m.frames < 3 ∧ pagingMapPage A m root virt phys flags isHuge = none := by
  refine (pagingMapPage_spec S H hI hT hv (Nat.mod_lt _ (Nat.two_pow_pos 9)) hfree.small hfree.huge
    hok).imp_left ?_
  rintro ⟨m₁, T₁, new, hr, G, hlen⟩
  have hleft := G.left_eq
  exact ⟨m₁, T₁, new, hr, G.tree, G.frames, G.mem_held hT, fun p f hp =>
    (G.origin hp).imp_right And.right, by omega⟩

/-- The pages are mapped, or there are not enough frames for the tables. -/
theorem pagingMapLoop_spec (S : AllocSpec A I left) (H : PageTree 512 root m.mem T leaf)
    (hI : I m.frames held) (hT : ∀ p f, T p = some f → f ∈ held) (hv : virt ≠ 0)
    (hstop : ∀ i, cursor isHuge virt i < stop ↔ i < cnt)
    (hfree : ∀ i < cnt, SizeFree isHuge T leaf (cursor isHuge virt i))
    (hvirt : cursor isHuge virt cnt < 2 ^ 64) (hphys : cursor isHuge phys cnt < 2 ^ 64)
    (hok : ∀ i < cnt, LeafOk (leafPath (cursor isHuge virt i) isHuge)
      (pagingEntry (cursor isHuge phys i) flags isHuge))
    (hfuel : cnt < fuel) :
    (∃ m₁ T₁ leaf₁ new, pagingMapLoop A root stop flags isHuge fuel m virt phys = some m₁ ∧
      MapStep I root isHuge virt cnt (fun i => pagingEntry (cursor isHuge phys i) flags isHuge) held
        T leaf m₁ T₁ leaf₁ new) ∨
    left m.frames < 3 * cnt ∧ pagingMapLoop A root stop flags isHuge fuel m virt phys = none := by
  induction cnt generalizing fuel virt phys m T leaf held with
  | zero =>
    have hend : ¬ virt < stop := fun h => absurd ((hstop 0).mp h) (Nat.lt_irrefl 0)
    cases fuel with
    | zero => cases hfuel
    | succ fuel => exact .inl ⟨m, T, leaf, [], if_neg hend, H, hI, hT, fun _ _ => .inl, .zero ..⟩
  | succ cnt ih =>
    have hlt : virt < stop := (hstop 0).mpr (Nat.succ_pos cnt)
    cases fuel with
    | zero => cases hfuel
    | succ fuel =>
      rw [pagingMapLoop, if_pos hlt]
      rcases pagingMapPage_round S H hI hT hv (hfree 0 (Nat.succ_pos cnt))
        (hok 0 (Nat.succ_pos cnt)) with
        ⟨m', T', new, hr, H', hI', hT', horigin, hleft⟩ | ⟨hleft, hr⟩
      swap
      · simp only [cursor_zero] at hr
        exact .inr ⟨by omega, by rw [hr]⟩
      simp only [cursor_zero] at hr H'
      rw [cursor, Nat.mul_succ] at hvirt hphys
      have hv' : add64 virt (pagingStride isHuge) = virt + pagingStride isHuge :=
        add64_of_lt (by omega)
      have hp' : add64 phys (pagingStride isHuge) = phys + pagingStride isHuge :=
        add64_of_lt (by omega)
      simp only [hr, hv', hp']
      rcases @ih (virt + pagingStride isHuge) (phys + pagingStride isHuge) fuel m' _ _ _ H' hI' hT'
        (by omega) (fun i => by rw [← cursor_succ, hstop]; omega)
        (fun i hi => by rw [← cursor_succ]; exact (hfree (i + 1) (by omega)).update _ horigin)
        (by rw [cursor]; omega) (by rw [cursor]; omega)
        (fun i hi => by rw [← cursor_succ, ← cursor_succ]; exact hok (i + 1) (by omega))
          (by omega) with
        ⟨m₁, T₁, leaf₁, new', hrest, R⟩ | ⟨hless, hrest⟩
      swap
      · exact .inr ⟨by omega, hrest⟩
      refine .inl ⟨m₁, T₁, leaf₁, new' ++ new, hrest, R.tree, ?_, ?_, fun p f hf => ?_, .cons ?_⟩
      · rw [List.append_assoc]
        exact R.frames
      · rw [List.append_assoc]
        exact R.tables
      · rcases R.origin p f hf with hf | ⟨i, hi, hq⟩
        · exact (horigin p f hf).imp_right fun hq => ⟨0, Nat.succ_pos cnt, hq⟩
        · rw [← cursor_succ] at hq
          exact .inr ⟨i + 1, by omega, hq⟩
      · simp only [cursor_succ]
        exact R.written

theorem pagingUnmapLoop_step (H : PageTree 512 root m.mem T leaf) (hv : virt ≠ 0)
    (hstop : ∀ i, cursor isHuge virt i < stop ↔ i < cnt)
    (hfree : ∀ i < cnt, SizeFree isHuge T leaf (cursor isHuge virt i))
    (hvirt : cursor isHuge virt cnt < 2 ^ 64) (hfuel : cnt < fuel) (freePhysical : Bool) :
    ∃ m₁ leaf₁, pagingUnmapLoop A root stop isHuge freePhysical fuel m virt = some m₁ ∧
      PageTree 512 root m₁.mem T leaf₁ ∧ Written isHuge virt cnt (fun _ => 0) leaf leaf₁ := by
  induction cnt generalizing fuel virt m leaf with
  | zero =>
    have hend : ¬ virt < stop := fun h => absurd ((hstop 0).mp h) (Nat.lt_irrefl 0)
    cases fuel with
    | zero => cases hfuel
    | succ fuel => exact ⟨m, leaf, if_neg hend, H, .zero ..⟩
  | succ cnt ih =>
    have hlt : virt < stop := (hstop 0).mpr (Nat.succ_pos cnt)
    cases fuel with
    | zero => cases hfuel
    | succ fuel =>
      have hfirst := hfree 0 (Nat.succ_pos cnt)
      obtain ⟨m', hr, H', -, -⟩ :=
        pagingUnmapPage_spec (A := A) H hv (Nat.mod_lt _ (Nat.two_pow_pos 9))
          hfirst.small hfirst.huge freePhysical
      rw [cursor, Nat.mul_succ] at hvirt
      have hv' : add64 virt (pagingStride isHuge) = virt + pagingStride isHuge :=
        add64_of_lt (by omega)
      obtain ⟨m₁, leaf₁, hrest, H₁, W⟩ := @ih (virt + pagingStride isHuge) fuel m' _ H' (by omega)
        (fun i => by rw [← cursor_succ, hstop]; omega)
        (fun i hi => by
          rw [← cursor_succ]
          exact (hfree (i + 1) (by omega)).update 0 fun _ _ => .inl)
        (by rw [cursor]; omega) (by omega)
      refine ⟨m₁, leaf₁, ?_, H₁, .cons W⟩
      simp only [pagingUnmapLoop, if_pos hlt, hr, hv']
      exact hrest

/-! ## The regions -/

/-- The number of rounds for a region. -/
def pagingRounds (isHuge : Bool) (size : Nat) : Nat :=
  (size + pagingStride isHuge - 1) / pagingStride isHuge

theorem lt_pagingRounds {i : Nat} :
    i < pagingRounds isHuge size ↔ pagingStride isHuge * i < size := by
  have hpos := pagingStride_pos isHuge
  rw [pagingRounds, Nat.lt_iff_add_one_le, Nat.le_div_iff_mul_le hpos, Nat.mul_comm, Nat.mul_succ]
  omega

theorem cursor_lt_iff {i : Nat} :
    cursor isHuge virt i < virt + size ↔ i < pagingRounds isHuge size := by
  rw [lt_pagingRounds, cursor]
  omega

theorem pagingRounds_le (isHuge : Bool) (size : Nat) :
    pagingStride isHuge * pagingRounds isHuge size ≤ size + pagingStride isHuge - 1 :=
  Nat.mul_div_le _ _

theorem pagingRounds_lt_fuel (isHuge : Bool) (size : Nat) :
    pagingRounds isHuge size < size / pagingStride isHuge + 2 := by
  have hpos := pagingStride_pos isHuge
  have hle : pagingRounds isHuge size ≤ (size + pagingStride isHuge) / pagingStride isHuge :=
    Nat.div_le_div_right (Nat.sub_le ..)
  rw [Nat.add_div_right _ hpos] at hle
  omega

theorem cursor_rounds_lt (hend : virt + size + pagingStride isHuge ≤ 2 ^ 64) :
    cursor isHuge virt (pagingRounds isHuge size) < 2 ^ 64 := by
  have hpos := pagingStride_pos isHuge
  have hle := pagingRounds_le isHuge size
  rw [cursor]
  omega

theorem add_stride_le_of_phys (hphys : phys + size ≤ 2 ^ 52) :
    phys + size + pagingStride isHuge ≤ 2 ^ 64 := by
  have hstride := pagingStride_le isHuge
  omega

/-- What the calls assume of a region: no page of the other size is in the way, the cursor does not
wrap, the physical addresses are valid, and the flags have no address bits. -/
structure RegionOk (isHuge : Bool) (T : List Nat → Option Nat) (leaf : List Nat → Nat)
    (virt phys size flags : Nat) : Prop where
  free : ∀ v, virt ≤ v → v < virt + size → SizeFree isHuge T leaf v
  bound : virt + size ≤ 2 ^ 64 - pagingStride isHuge
  phys : phys + size ≤ 2 ^ 52
  flags : flags &&& pagingPteAddrMask = 0

namespace RegionOk

theorem add_stride_le (R : RegionOk isHuge T leaf virt phys size flags) :
    virt + size + pagingStride isHuge ≤ 2 ^ 64 := by
  have hbound := R.bound
  have hstride := pagingStride_le isHuge
  omega

theorem add64_eq (R : RegionOk isHuge T leaf virt phys size flags) :
    add64 virt size = virt + size := by
  have hpos := pagingStride_pos isHuge
  have hend := R.add_stride_le
  exact add64_of_lt (by omega)

theorem sizeFree (R : RegionOk isHuge T leaf virt phys size flags) {i : Nat}
    (hi : i < pagingRounds isHuge size) : SizeFree isHuge T leaf (cursor isHuge virt i) :=
  R.free _ (Nat.le_add_right ..) (cursor_lt_iff.mpr hi)

theorem leafOk (R : RegionOk isHuge T leaf virt phys size flags) {i : Nat}
    (hi : i < pagingRounds isHuge size) :
    LeafOk (leafPath (cursor isHuge virt i) isHuge)
      (pagingEntry (cursor isHuge phys i) flags isHuge) :=
  leafOk_pagingEntry (Nat.lt_of_lt_of_le (cursor_lt_iff.mpr hi) R.phys) R.flags
    (leafPath_length _ _)

end RegionOk

/-- The pages of the region are mapped, up to the last round, or there are not enough frames. -/
theorem pagingMapRegion_spec (S : AllocSpec A I left) (H : PageTree 512 root m.mem T leaf)
    (hI : I m.frames held) (hT : ∀ p f, T p = some f → f ∈ held)
    (R : RegionOk isHuge T leaf virt phys size flags) (hv : virt ≠ 0) :
    (∃ m₁ T₁ leaf₁ new, pagingMapRegion A m root virt phys size flags isHuge = some m₁ ∧
      MapStep I root isHuge virt (pagingRounds isHuge size)
        (fun i => pagingEntry (cursor isHuge phys i) flags isHuge) held T leaf m₁ T₁ leaf₁ new) ∨
    left m.frames < 3 * pagingRounds isHuge size ∧
      pagingMapRegion A m root virt phys size flags isHuge = none := by
  rw [pagingMapRegion, R.add64_eq]
  exact pagingMapLoop_spec S H hI hT hv (fun i => cursor_lt_iff) (fun i => R.sizeFree)
    (cursor_rounds_lt R.add_stride_le) (cursor_rounds_lt (add_stride_le_of_phys R.phys))
      (fun i => R.leafOk)
    (pagingRounds_lt_fuel isHuge size)

theorem pagingMapRegion_step (S : AllocSpec A I left) (H : PageTree 512 root m.mem T leaf)
    (hI : I m.frames held) (hT : ∀ p f, T p = some f → f ∈ held)
    (R : RegionOk isHuge T leaf virt phys size flags) (hv : virt ≠ 0)
    (h : pagingMapRegion A m root virt phys size flags isHuge = some m₁) :
    ∃ T₁ leaf₁ new, MapStep I root isHuge virt (pagingRounds isHuge size)
      (fun i => pagingEntry (cursor isHuge phys i) flags isHuge) held T leaf m₁ T₁ leaf₁ new := by
  rcases pagingMapRegion_spec S H hI hT R hv with ⟨m', T₁, leaf₁, new, hr, M⟩ | ⟨-, hr⟩
  · cases h.symm.trans hr
    exact ⟨T₁, leaf₁, new, M⟩
  · cases h.symm.trans hr

theorem pagingUnmapRegion_step (H : PageTree 512 root m.mem T leaf)
    (R : RegionOk isHuge T leaf virt phys size flags) (hv : virt ≠ 0) (freePhysical : Bool) :
    ∃ m₁ leaf₁, pagingUnmapRegion A m root virt size isHuge freePhysical = some m₁ ∧
      PageTree 512 root m₁.mem T leaf₁ ∧
      Written isHuge virt (pagingRounds isHuge size) (fun _ => 0) leaf leaf₁ := by
  rw [pagingUnmapRegion, R.add64_eq]
  exact pagingUnmapLoop_step H hv (fun i => cursor_lt_iff) (fun i => R.sizeFree)
    (cursor_rounds_lt R.add_stride_le) (pagingRounds_lt_fuel isHuge size) freePhysical

/-- The cursor stays in the region. -/
theorem canonical_cursor (hcan : ∀ v, virt ≤ v → v < virt + size → Canonical v) (i : Nat)
    (hi : i < pagingRounds isHuge size) : Canonical (cursor isHuge virt i) :=
  hcan _ (Nat.le_add_right ..) (cursor_lt_iff.mpr hi)

/-! ## Coverage -/

/-- The round for the page of an address of the region. -/
theorem exists_round {v : Nat} (hv : virt ≤ v) :
    ∃ i, pageNumber v isHuge = pageNumber virt isHuge + i ∧
      pagingStride isHuge * i + v % pagingStride isHuge =
        v - virt + virt % pagingStride isHuge := by
  have hle : pageNumber virt isHuge ≤ pageNumber v isHuge := Nat.div_le_div_right hv
  refine ⟨pageNumber v isHuge - pageNumber virt isHuge, by omega, ?_⟩
  have hd := Nat.div_add_mod v (pagingStride isHuge)
  have hd' := Nat.div_add_mod virt (pagingStride isHuge)
  have hmul := Nat.mul_le_mul_left (pagingStride isHuge) hle
  rw [Nat.mul_sub]
  simp only [pageNumber] at *
  omega

/-- If the offset of the start and the rest of the size fit into a page, all pages of the region are
visited. -/
theorem lt_rounds_of_fits {v i : Nat} (hle : virt ≤ v) (hlt : v < virt + size)
    (hround : pagingStride isHuge * i + v % pagingStride isHuge =
      v - virt + virt % pagingStride isHuge)
    (hfits : virt % pagingStride isHuge + (size - 1) % pagingStride isHuge < pagingStride isHuge) :
    i < pagingRounds isHuge size := by
  have hd := Nat.div_add_mod (size - 1) (pagingStride isHuge)
  have hi : pagingStride isHuge * i <
      pagingStride isHuge * ((size - 1) / pagingStride isHuge + 1) := by
    rw [Nat.mul_succ]
    omega
  have hmul := Nat.mul_le_mul_left (pagingStride isHuge)
    (Nat.le_of_lt_succ (Nat.lt_of_mul_lt_mul_left hi))
  rw [lt_pagingRounds]
  omega

/-- Otherwise the page of the last address is not. -/
theorem rounds_le_of_not_fits {i : Nat} (hsize : 0 < size)
    (hround : pagingStride isHuge * i + (virt + size - 1) % pagingStride isHuge =
      virt + size - 1 - virt + virt % pagingStride isHuge)
    (hfits : ¬ virt % pagingStride isHuge + (size - 1) % pagingStride isHuge <
      pagingStride isHuge) : pagingRounds isHuge size ≤ i := by
  have hd := Nat.div_add_mod (size - 1) (pagingStride isHuge)
  have hmod := Nat.mod_lt (virt + size - 1) (pagingStride_pos isHuge)
  have hmod' := Nat.mod_lt (size - 1) (pagingStride_pos isHuge)
  have hi : pagingStride isHuge * ((size - 1) / pagingStride isHuge) < pagingStride isHuge * i := by
    omega
  have hle := Nat.mul_le_mul_left (pagingStride isHuge)
    (Nat.succ_le_of_lt (Nat.lt_of_mul_lt_mul_left hi))
  rw [Nat.mul_succ] at hle
  refine Nat.le_of_not_lt fun h => ?_
  rw [lt_pagingRounds] at h
  omega

/-- The address in the entry of a page of one size. -/
def leafMask (isHuge : Bool) : Nat := if isHuge then 0x000FFFFFFFE00000 else pagingPteAddrMask

/-- The walk at a page that is mapped. -/
theorem leafWalk_of_ne_zero {v : Nat} (hne : leaf (leafPath v isHuge) ≠ 0)
    (hsmall : isHuge = false → leaf (leafPath v true) = 0) :
    leafWalk leaf v =
      some ((leaf (leafPath v isHuge) &&& leafMask isHuge) + v % pagingStride isHuge,
      leafRights (leaf (leafPath v isHuge))) := by
  cases isHuge with
  | true => exact if_pos hne
  | false =>
    rw [leafWalk, hsmall rfl, if_neg (fun h => h rfl), if_pos hne]
    rfl

theorem leafWalk_of_pagingEntry {v : Nat} (hphys : phys < 2 ^ 52)
    (hflags : flags &&& pagingPteAddrMask = 0)
    (hleaf : leaf (leafPath v isHuge) = pagingEntry phys flags isHuge)
    (hsmall : isHuge = false → leaf (leafPath v true) = 0) :
    leafWalk leaf v =
      some (phys - phys % pagingStride isHuge + v % pagingStride isHuge, leafRights flags) := by
  have hne : leaf (leafPath v isHuge) ≠ 0 := hleaf ▸ ne_zero_of_testBit (pagingEntry_present hphys)
  have hmask : pagingEntry phys flags isHuge &&& leafMask isHuge = pagingAlignPhys phys isHuge := by
    cases isHuge with
    | true => exact (pagingEntry_huge hphys hflags).1
    | false => exact pagingEntry_and_addrMask hphys hflags
  rw [leafWalk_of_ne_zero hne hsmall, hleaf, hmask, leafRights_pagingEntry hphys,
    pagingAlignPhys_eq]

theorem PageTree.pageWalk_full {mem : Nat → Nat} (H : PageTree 512 root mem T leaf) {x : Nat}
    (hx : Canonical x) : pageWalk mem root x = leafWalk leaf x :=
  H.pageWalk_eq (Nat.mod_lt _ (Nat.two_pow_pos 9)) hx

/-- The addresses of a region translate to those of the physical one, and those on pages that do not
meet the region translate as before. -/
def RegionMapped (root : Nat) (isHuge : Bool) (virt phys size : Nat) (mem mem' : Nat → Nat) :
    Prop :=
  (∀ v, virt ≤ v → v < virt + size → (pageWalk mem' root v).map Prod.fst =
    some (phys + (v - virt))) ∧
    ∀ x, (∀ v, virt ≤ v → v < virt + size → pageNumber v isHuge ≠ pageNumber x isHuge) →
      pageWalk mem' root x = pageWalk mem root x

/-- No address of the region is translated. -/
def RegionUnmapped (root virt size : Nat) (mem : Nat → Nat) : Prop :=
  ∀ v, virt ≤ v → v < virt + size → pageWalk mem root v = none

section
variable {entry : Nat → Nat} {new : List Nat}

/-- Where all pages are visited, the region is mapped. -/
theorem MapStep.regionMapped (H : PageTree 512 root m.mem T leaf)
    (R : RegionOk isHuge T leaf virt phys size flags)
    (hcan : ∀ v, virt ≤ v → v < virt + size → Canonical v)
    (hoff : virt % pagingStride isHuge = phys % pagingStride isHuge)
    (S : MapStep I root isHuge virt (pagingRounds isHuge size)
      (fun i => pagingEntry (cursor isHuge phys i) flags isHuge) held T leaf m₁ T₁ leaf₁ new)
    (hfits : virt % pagingStride isHuge + (size - 1) % pagingStride isHuge < pagingStride isHuge) :
    RegionMapped root isHuge virt phys size m.mem m₁.mem := by
  constructor
  · intro v hle hlt
    obtain ⟨i, hpage, hround⟩ := @exists_round virt isHuge v hle
    have hi := lt_rounds_of_fits hle hlt hround hfits
    have hpi : cursor isHuge phys i < 2 ^ 52 := Nat.lt_of_lt_of_le (cursor_lt_iff.mpr hi) R.phys
    rw [S.tree.pageWalk_full (hcan v hle hlt), leafWalk_of_pagingEntry hpi R.flags
      (S.written.hit_page (canonical_cursor hcan) hi hpage) (S.sizeFree (R.free v hle hlt)).small,
        Option.map_some]
    have hmod : cursor isHuge phys i % pagingStride isHuge = phys % pagingStride isHuge :=
      Nat.add_mul_mod_self_left ..
    have hmodle := Nat.mod_le phys (pagingStride isHuge)
    rw [hmod, cursor]
    refine congrArg some ?_
    simp only
    omega
  · intro x hx
    by_cases hc : Canonical x
    · rw [S.tree.pageWalk_full hc, H.pageWalk_full hc]
      refine S.written.leafWalk_eq (canonical_cursor hcan) hc fun i hi h => ?_
      refine hx (cursor isHuge virt i) (Nat.le_add_right ..) (cursor_lt_iff.mpr hi) ?_
      rw [pageNumber_cursor, h]
    · rw [pageWalk_of_not_canonical hc, pageWalk_of_not_canonical hc]

/-- An entry of 0 is not translated. -/
theorem leafWalk_eq_none {v : Nat} {mem : Nat → Nat} (H : PageTree 512 root mem T leaf)
    (hfree : SizeFree isHuge T leaf v) (hleaf : leaf (leafPath v isHuge) = 0) :
    leafWalk leaf v = none := by
  have hboth : leaf (leafPath v true) = 0 ∧ leaf (leafPath v false) = 0 := by
    cases isHuge with
    | true => exact ⟨hleaf, H.leaf_of_none hfree _⟩
    | false => exact ⟨hfree, hleaf⟩
  rw [leafWalk, if_neg (fun h => h hboth.1), if_neg (fun h => h hboth.2)]

/-- Where all pages are visited, the region is unmapped. -/
theorem Written.regionUnmapped {mem : Nat → Nat} (H : PageTree 512 root mem T leaf₁)
    (R : RegionOk isHuge T leaf virt phys size flags)
    (hcan : ∀ v, virt ≤ v → v < virt + size → Canonical v)
    (W : Written isHuge virt (pagingRounds isHuge size) (fun _ => 0) leaf leaf₁)
    (hfits : virt % pagingStride isHuge + (size - 1) % pagingStride isHuge < pagingStride isHuge) :
    RegionUnmapped root virt size mem := by
  intro v hle hlt
  obtain ⟨i, hpage, hround⟩ := @exists_round virt isHuge v hle
  rw [H.pageWalk_full (hcan v hle hlt)]
  exact leafWalk_eq_none H (W.sizeFree (R.free v hle hlt) fun _ _ hf => hf)
    (W.hit_page (canonical_cursor hcan) (lt_rounds_of_fits hle hlt hround hfits) hpage)

/-- Where they are not, the last address is translated as before. -/
theorem Written.pageWalk_last {mem mem' : Nat → Nat} (H : PageTree 512 root mem T leaf)
    (H' : PageTree 512 root mem' T₁ leaf₁) (hsize : 0 < size)
    (hcan : ∀ v, virt ≤ v → v < virt + size → Canonical v)
    (W : Written isHuge virt (pagingRounds isHuge size) entry leaf leaf₁)
    (hfits : ¬ virt % pagingStride isHuge + (size - 1) % pagingStride isHuge <
      pagingStride isHuge) :
    pageWalk mem' root (virt + size - 1) = pageWalk mem root (virt + size - 1) := by
  have hlast := hcan (virt + size - 1) (by omega) (by omega)
  obtain ⟨i, hpage, hround⟩ := @exists_round virt isHuge (virt + size - 1) (by omega)
  have hi := rounds_le_of_not_fits hsize hround hfits
  rw [H.pageWalk_full hlast, H'.pageWalk_full hlast]
  refine W.leafWalk_eq (canonical_cursor hcan) hlast fun j hj h => ?_
  omega

end

/-- The first call returns if there are frames for the tables. Then the region is mapped, and the
second call unmaps it, exactly if its addresses are canonical and the offset of its start and the
rest of its size fit into one page. -/
theorem pagingRegion_covered_iff (S : AllocSpec A I left) (H : PageTree 512 root m.mem T leaf)
    (hI : I m.frames held) (hT : ∀ p f, T p = some f → f ∈ held)
    (R : RegionOk isHuge T leaf virt phys size flags) (hsize : 0 < size)
    (hoff : virt % pagingStride isHuge = phys % pagingStride isHuge)
    (hfirst : pageNumber virt isHuge ≠ 0) (freePhysical : Bool) :
    (3 * pagingRounds isHuge size ≤ left m.frames →
        ∃ m₁, pagingMapRegion A m root virt phys size flags isHuge = some m₁) ∧
      ∀ m₁, pagingMapRegion A m root virt phys size flags isHuge = some m₁ →
        (RegionMapped root isHuge virt phys size m.mem m₁.mem ∧
            (∃ m₂, pagingUnmapRegion A m₁ root virt size isHuge freePhysical = some m₂ ∧
              RegionUnmapped root virt size m₂.mem) ↔
          (∀ v, virt ≤ v → v < virt + size → Canonical v) ∧
            virt % pagingStride isHuge + (size - 1) % pagingStride isHuge <
              pagingStride isHuge) := by
  have hv : virt ≠ 0 := by
    rintro rfl
    exact hfirst (Nat.zero_div _)
  rcases pagingMapRegion_spec S H hI hT R hv with ⟨m₁, T₁, leaf₁, new, hr, M⟩ | ⟨hleft, hr⟩
  swap
  · refine ⟨fun h => absurd h (Nat.not_le.mpr hleft), fun m₁ hmap => ?_⟩
    cases hmap.symm.trans hr
  refine ⟨fun _ => ⟨m₁, hr⟩, fun m' hmap => ?_⟩
  cases hmap.symm.trans hr
  have R₁ : RegionOk isHuge T₁ leaf₁ virt phys size flags :=
    ⟨fun v hle hlt => M.sizeFree (R.free v hle hlt), R.bound, R.phys, R.flags⟩
  obtain ⟨m₂, leaf₂, hunmap, H₂, W⟩ := pagingUnmapRegion_step (A := A) M.tree R₁ hv freePhysical
  constructor
  · rintro ⟨hmapped, m₂', hunmap', hunmapped⟩
    cases hunmap.symm.trans hunmap'
    have hcan (v : Nat) (hle : virt ≤ v) (hlt : v < virt + size) : Canonical v := by
      by_contra hc
      have hsome := hmapped.1 v hle hlt
      rw [pageWalk_of_not_canonical hc] at hsome
      cases hsome
    refine ⟨hcan, ?_⟩
    -- otherwise the page of the last address is still mapped after the second call
    by_contra hfits
    have hlast := W.pageWalk_last M.tree H₂ hsize hcan hfits
    have hsome := hmapped.1 (virt + size - 1) (by omega) (by omega)
    rw [← hlast, hunmapped _ (by omega) (by omega)] at hsome
    cases hsome
  · rintro ⟨hcan, hfits⟩
    exact ⟨M.regionMapped H R hcan hoff hfits, m₂, hunmap, W.regionUnmapped H₂ R₁ hcan hfits⟩

/-- A zeroed root, and frames for the tables of two pages. -/
def zeroedRoot : Machine Offers :=
  ⟨fun _ => 0, ⟨[0x1000], [0x2000, 0x3000, 0x4000, 0x5000, 0x6000, 0x7000]⟩⟩

/-- A page and a half from the middle of a page. -/
theorem pagingRegion_covered_iff_pageAndHalf : ∃ m₁,
    pagingMapRegion offersAllocator zeroedRoot 0x1000 0x401800 0x9800 0x1800 pteFlagRw false =
      some m₁ ∧ RegionMapped 0x1000 false 0x401800 0x9800 0x1800 zeroedRoot.mem m₁.mem ∧
      ∃ m₂, pagingUnmapRegion offersAllocator m₁ 0x1000 0x401800 0x1800 false true = some m₂ ∧
        RegionUnmapped 0x1000 0x401800 0x1800 m₂.mem := by
  have H : PageTree 512 0x1000 zeroedRoot.mem (fun p => if p = [] then some 0x1000 else none)
      fun _ => 0 :=
    .empty (Nat.le_refl 512) ⟨by decide, by decide⟩ fun _ _ => rfl
  have R : RegionOk false (fun p => if p = [] then some 0x1000 else none) (fun _ => 0) 0x401800
      0x9800 0x1800 pteFlagRw := ⟨fun _ _ _ => rfl, by decide, by decide, by decide⟩
  have hI : OffersOk zeroedRoot.frames [0x1000] := ⟨fun f hf => hf, by decide, by decide⟩
  have hT (p : List Nat) (f : Nat) (hf : (if p = [] then some 0x1000 else none) = some f) :
      f ∈ [0x1000] := by
    obtain ⟨-, hf⟩ := Option.ite_none_right_eq_some.mp hf
    exact List.mem_singleton.mpr (Option.some.inj hf).symm
  obtain ⟨hreturns, hiff⟩ :=
    pagingRegion_covered_iff offersAllocator_spec H hI hT R (by decide) rfl (by decide) true
  obtain ⟨m₁, hmap⟩ := hreturns (by decide)
  exact ⟨m₁, hmap, (hiff m₁ hmap).mpr ⟨fun v _ hlt => .inl (by omega), by decide⟩⟩

/-- A page from the middle of a page: the second half is not mapped, and not unmapped either where
it was mapped before. -/
theorem pagingRegion_secondHalf :
    (pagingMapRegion offersAllocator zeroedRoot 0x1000 0x401800 0x9800 0x1000 pteFlagRw false).map
        (fun m => (pageWalk m.mem 0x1000 0x401FFF, pageWalk m.mem 0x1000 0x402000)) =
      some (some (0x9FFF, ⟨true, false, true⟩), none) ∧
    ((pagingMapRegion offersAllocator zeroedRoot 0x1000 0x401000 0x9000 0x2000 pteFlagRw false).bind
      fun m =>
        pagingUnmapRegion offersAllocator m 0x1000 0x401800 0x1000 false false).map
        (fun m => (pageWalk m.mem 0x1000 0x401FFF, pageWalk m.mem 0x1000 0x402000)) =
      some (none, some (0xA000, ⟨true, false, true⟩)) := by
  decide +kernel

end Plos
