import Plos.Memory.Paging.Tables

/-! What mapping and unmapping a page does to the tree of tables.

The physical memory manager is known only through `AllocSpec`: `I a held` says that the frames
`held` are allocated in the state `a`, and an allocation returns a frame that is not among them. A
call that maps a page adds tables to the tree, all of them on the way to the page (`Grown`), and
changes one leaf. No other memory is written, except for the frames of the new tables. -/

namespace Plos

variable {α : Type} {A : FrameAllocator α} {I : α → List Nat → Prop} {left : α → Nat} {n root : Nat}
  {m : Machine α} {T : List Nat → Option Nat} {leaf : List Nat → Nat} {held : List Nat}

/-- An allocator that knows which frames it has given out, and how many are left. -/
structure AllocSpec (A : FrameAllocator α) (I : α → List Nat → Prop) (left : α → Nat) : Prop where
  alloc : ∀ {a held}, I a held →
    (A.alloc a).2 = 0 ∧ left a = 0 ∧ I (A.alloc a).1 held ∨
      (A.alloc a).2 ≠ 0 ∧ IsFrame (A.alloc a).2 ∧ (A.alloc a).2 ∉ held ∧
        I (A.alloc a).1 ((A.alloc a).2 :: held) ∧ left a = left (A.alloc a).1 + 1

/-- Tables at prefixes of `q` have been added, in new frames. -/
structure Grown (I : α → List Nat → Prop) (left : α → Nat) (n root : Nat) (held q : List Nat)
    (m : Machine α) (T : List Nat → Option Nat) (leaf : List Nat → Nat) (m' : Machine α)
    (T' : List Nat → Option Nat) (new : List Nat) : Prop where
  tree : PageTree n root m'.mem T' leaf
  frames : I m'.frames (new ++ held)
  left_eq : left m.frames = left m'.frames + new.length
  fresh : ∀ f ∈ new, IsFrame f ∧ f ∉ held
  le : ∀ {p f}, T p = some f → T' p = some f
  origin : ∀ {p f}, T' p = some f → T p = some f ∨ f ∈ new ∧ p <+: q
  same : ∀ x, (∀ f ∈ new, ¬ InFrame f x) →
    (∀ p f i, T p = some f → i < tableSize n p → x ≠ entryAddr f i) → m'.mem x = m.mem x

namespace Grown

variable {q : List Nat} {m₁ m₂ : Machine α} {T₁ T₂ : List Nat → Option Nat} {new new' : List Nat}
  {leaf' : List Nat → Nat}

theorem refl (H : PageTree n root m.mem T leaf) (hI : I m.frames held) :
    Grown I left n root held q m T leaf m T [] :=
  ⟨H, hI, rfl, nofun, id, .inl, fun _ _ _ => rfl⟩

theorem mem_held (G : Grown I left n root held q m T leaf m₁ T₁ new)
    (hT : ∀ p f, T p = some f → f ∈ held) (p : List Nat) (f : Nat) (hp : T₁ p = some f) :
    f ∈ new ++ held := by
  rcases G.origin hp with hp | ⟨hf, -⟩
  · exact List.mem_append_right _ (hT p f hp)
  · exact List.mem_append_left _ hf

/-- An entry of the larger tree is an entry of the smaller one or lies in a new frame. -/
theorem ne_entry (G : Grown I left n root held q m T leaf m₁ T₁ new) {x : Nat}
    (hnew : ∀ f ∈ new, ¬ InFrame f x)
    (hold : ∀ p f i, T p = some f → i < tableSize n p → x ≠ entryAddr f i) (p : List Nat)
    (f i : Nat) (hp : T₁ p = some f) (hi : i < tableSize n p) : x ≠ entryAddr f i := by
  rcases G.origin hp with hp | ⟨hf, -⟩
  · exact hold p f i hp hi
  · rintro rfl
    exact hnew f hf (inFrame_entryAddr (Nat.lt_of_lt_of_le hi (G.tree.size_le_512 p)))

theorem trans (G : Grown I left n root held q m T leaf m₁ T₁ new)
    (G' : Grown I left n root (new ++ held) q m₁ T₁ leaf' m₂ T₂ new') :
    Grown I left n root held q m T leaf' m₂ T₂ (new' ++ new) := by
  refine ⟨G'.tree, ?_, ?_, fun f hf => ?_, fun hp => G'.le (G.le hp), fun {p f} hp => ?_,
    fun x hnew hold => ?_⟩
  · rw [List.append_assoc]
    exact G'.frames
  · rw [G.left_eq, G'.left_eq, List.length_append, Nat.add_assoc]
  · rcases List.mem_append.mp hf with hf | hf
    · obtain ⟨hframe, hfresh⟩ := G'.fresh f hf
      exact ⟨hframe, fun h => hfresh (List.mem_append_right _ h)⟩
    · exact G.fresh f hf
  · rcases G'.origin hp with hp | ⟨hf, hq⟩
    · rcases G.origin hp with hp | ⟨hf, hq⟩
      · exact .inl hp
      · exact .inr ⟨List.mem_append_right _ hf, hq⟩
    · exact .inr ⟨List.mem_append_left _ hf, hq⟩
  · have hnew₁ : ∀ f ∈ new, ¬ InFrame f x := fun f hf => hnew f (List.mem_append_right _ hf)
    have hstep := G'.same x (fun f hf => hnew f (List.mem_append_left _ hf)) (G.ne_entry hnew₁ hold)
    exact hstep.trans (G.same x hnew₁ hold)

end Grown

/-! ## One level -/

section
variable {p q : List Nat} {f g i : Nat}

theorem memsetPage_of_not_inFrame {mem : Nat → Nat} {x : Nat} (h : ¬ InFrame g x) :
    memsetPage mem g x = mem x := if_neg h

theorem memsetPage_entry {mem : Nat → Nat} (hi : i < 512) : memsetPage mem g (entryAddr g i) = 0 :=
  if_pos (inFrame_entryAddr hi)

theorem vmmNextTable_of_some (H : PageTree n root m.mem T leaf) (hp : T p = some f)
    (hi : i < tableSize n p) (hg : T (p ++ [i]) = some g) (allocate : Bool) :
    vmmNextTable A m f i allocate = (m, some g) := by
  have hentry : m.mem (entryAddr f i) = tableEntry g := by
    rw [H.mem_entry hp hi, hg, Option.elim_some]
  have hframe := H.valid hg
  have hpresent : ¬ tableEntry g &&& pteFlagPresent = 0 := by
    rw [and_present_eq_zero, hframe.tableEntry_testBit (.inl (by decide))]
    decide
  rw [vmmNextTable, hentry, if_neg hpresent, hframe.tableEntry_and_addrMask]

theorem vmmNextTable_false (H : PageTree n root m.mem T leaf) (hp : T p = some f)
    (hi : i < tableSize n p) (hleaf : leaf (p ++ [i]) = 0) :
    vmmNextTable A m f i false = (m, T (p ++ [i])) := by
  cases hg : T (p ++ [i]) with
  | some g => exact vmmNextTable_of_some H hp hi hg false
  | none =>
    have hentry : m.mem (entryAddr f i) = 0 := by
      rw [H.mem_entry hp hi, hg, Option.elim_none, hleaf]
    rw [vmmNextTable, hentry, Nat.zero_and, if_pos rfl, if_pos rfl]

/-- The tree with a new table in an empty entry. -/
theorem PageTree.grow (H : PageTree n root m.mem T leaf) (hT : ∀ p f, T p = some f → f ∈ held)
    (hp : T p = some f) (hi : i < tableSize n p) (hlen : p.length ≤ 2) (hnone : T (p ++ [i]) = none)
    (hleaf : leaf (p ++ [i]) = 0) (hg : IsFrame g) (hfresh : g ∉ held) :
    PageTree n root (Function.update (memsetPage m.mem g) (entryAddr f i) (tableEntry g))
      (Function.update T (p ++ [i]) (some g)) leaf := by
  have hother (q : List Nat) (h j : Nat) (hq : T q = some h) (hj : j < tableSize n q) :
      memsetPage m.mem g (entryAddr h j) = m.mem (entryAddr h j) := by
    apply memsetPage_of_not_inFrame
    intro hin
    have hj := Nat.lt_of_lt_of_le hj (H.size_le_512 q)
    rw [← InFrame.eq (H.valid hq) hg (inFrame_entryAddr hj) hin] at hfresh
    exact hfresh (hT q h hq)
  have htree := H.toRadixTree.grow hp hi hnone hleaf hg (fun q hq => hfresh (hT q g hq))
    (fun j hj => memsetPage_entry hj) hother
  refine ⟨htree, ?_, fun {q h} hq => ?_, H.leaves⟩
  · rw [Function.update_of_ne (by simp)]
    exact H.root_eq
  · by_cases hqp : q = p ++ [i]
    · rw [hqp, List.length_append, List.length_singleton]
      omega
    · rw [Function.update_of_ne hqp] at hq
      exact H.depth hq

theorem vmmNextTable_true (S : AllocSpec A I left) (H : PageTree n root m.mem T leaf)
    (hI : I m.frames held) (hT : ∀ p f, T p = some f → f ∈ held) (hp : T p = some f)
    (hi : i < tableSize n p) (hlen : p.length ≤ 2) (hleaf : leaf (p ++ [i]) = 0)
    (hq : p ++ [i] <+: q) :
    (∃ m' T' new g, vmmNextTable A m f i true = (m', some g) ∧ T' (p ++ [i]) = some g ∧
        Grown I left n root held q m T leaf m' T' new ∧ new.length ≤ 1) ∨
      left m.frames = 0 ∧ ∃ m', vmmNextTable A m f i true = (m', none) := by
  cases hg : T (p ++ [i]) with
  | some g =>
    exact .inl ⟨m, T, [], g, vmmNextTable_of_some H hp hi hg true, hg, .refl H hI, Nat.zero_le 1⟩
  | none =>
    have hentry : m.mem (entryAddr f i) = 0 := by
      rw [H.mem_entry hp hi, hg, Option.elim_none, hleaf]
    rw [vmmNextTable, hentry, Nat.zero_and, if_pos rfl, if_neg (by decide)]
    rcases S.alloc hI with ⟨hzero, hleft, -⟩ | ⟨hne, hframe, hfresh, hI', hleft⟩
    · refine .inr ⟨hleft, { m with frames := (A.alloc m.frames).1 }, ?_⟩
      simp only [hzero, if_true]
    · have htree := H.grow hT hp hi hlen hg hleaf hframe hfresh
      refine .inl ⟨⟨Function.update (memsetPage m.mem (A.alloc m.frames).2) (entryAddr f i)
          (tableEntry (A.alloc m.frames).2), (A.alloc m.frames).1⟩,
            Function.update T (p ++ [i]) (some (A.alloc m.frames).2), [(A.alloc m.frames).2],
        (A.alloc m.frames).2, ?_, Function.update_self .., ⟨htree, hI', hleft, ?_, ?_, ?_, ?_⟩,
          Nat.le_refl 1⟩
      · simp only [if_neg hne, Function.update_self]
        refine congrArg (Prod.mk _) (congrArg some ?_)
        exact hframe.tableEntry_and_addrMask
      · intro g' hg'
        rw [List.mem_singleton.mp hg']
        exact ⟨hframe, hfresh⟩
      · intro q' g' hq'
        have hne' : q' ≠ p ++ [i] := by
          rintro rfl
          rw [hg] at hq'
          cases hq'
        rwa [Function.update_of_ne hne']
      · intro q' g' hq'
        by_cases hqp : q' = p ++ [i]
        · rw [hqp, Function.update_self] at hq'
          refine .inr ⟨List.mem_singleton.mpr (Option.some.inj hq').symm, ?_⟩
          rw [hqp]
          exact hq
        · rw [Function.update_of_ne hqp] at hq'
          exact .inl hq'
      · intro x hnew hold
        refine (Function.update_of_ne (hold p f i hp hi) ..).trans ?_
        exact memsetPage_of_not_inFrame (hnew _ List.mem_cons_self)

end

/-! ## The whole way down -/

section
variable {virt : Nat} {isHuge : Bool}

/-- The address is rounded down to a page first, which does not change the indices. -/
theorem pagingGet_align (virt : Nat) :
    let w := if virt % pagingPageSize ≠ 0 then virt - virt % pagingPageSize else virt
    pagingGetPml4Index w = virt / 2 ^ 39 % 512 ∧ pagingGetPdprIndex w = virt / 2 ^ 30 % 512 ∧
      pagingGetPdIndex w = virt / 2 ^ 21 % 512 ∧ pagingGetPtIndex w = virt / 2 ^ 12 % 512 := by
  intro w
  have hw : w = virt / 4096 * 4096 := by
    simp only [w, pagingPageSize]
    split <;> omega
  simp only [pagingGetPml4Index, pagingGetPdprIndex, pagingGetPdIndex, pagingGetPtIndex, and_0x1FF,
    Nat.shiftRight_eq_div_pow, hw]
  omega

theorem vmmGetPte_false (H : PageTree n root m.mem T leaf) (hn : virt / 2 ^ 39 % 512 < n)
    (hsmall : isHuge = false → leaf (leafPath virt true) = 0) :
    vmmGetPte A m root virt false isHuge =
      (m, (T (tablePath virt isHuge)).map (entryAddr · (entryIndex virt isHuge))) := by
  obtain ⟨h4, h3, h2, h1⟩ := pagingGet_align virt
  have hlt (k : Nat) (a : Nat) (p : List Nat) : virt / k % 512 < tableSize n (a :: p) :=
    Nat.mod_lt _ (by decide)
  have hstep₁ := vmmNextTable_false (A := A) H H.root_eq hn ((H.leaves _).eq_zero (Nat.le_succ 1))
  rw [List.nil_append] at hstep₁
  simp only [vmmGetPte, h4, h3, h2, h1, hstep₁]
  cases hT3 : T [virt / 2 ^ 39 % 512] with
  | none =>
    have hT2 := H.none_of_none hT3 (virt / 2 ^ 30 % 512)
    have hT1 := H.none_of_none hT2 (virt / 2 ^ 21 % 512)
    cases isHuge with
    | true => exact congrArg (Prod.mk m) (congrArg (Option.map _) hT2).symm
    | false => exact congrArg (Prod.mk m) (congrArg (Option.map _) hT1).symm
  | some f3 =>
    have hstep₂ :=
      vmmNextTable_false (A := A) H hT3 (hlt (2 ^ 30) _ _) ((H.leaves _).eq_zero (Nat.le_refl 2))
    rw [List.singleton_append] at hstep₂
    simp only [hstep₂]
    cases hT2 : T [virt / 2 ^ 39 % 512, virt / 2 ^ 30 % 512] with
    | none =>
      have hT1 := H.none_of_none hT2 (virt / 2 ^ 21 % 512)
      cases isHuge with
      | true => exact congrArg (Prod.mk m) (congrArg (Option.map _) hT2).symm
      | false => exact congrArg (Prod.mk m) (congrArg (Option.map _) hT1).symm
    | some f2 =>
      cases isHuge with
      | true =>
        rw [show T (tablePath virt true) = some f2 from hT2]
        rfl
      | false =>
        have hstep₃ := vmmNextTable_false (A := A) H hT2 (hlt (2 ^ 21) _ _) (hsmall rfl)
        simp only [hstep₃, Bool.false_eq_true, if_false]
        change _ =
          (m, (T ([virt / 2 ^ 39 % 512, virt / 2 ^ 30 % 512] ++ [virt / 2 ^ 21 % 512])).map _)
        cases T ([virt / 2 ^ 39 % 512, virt / 2 ^ 30 % 512] ++ [virt / 2 ^ 21 % 512]) with
        | none => rfl
        | some f1 => rfl

theorem vmmGetPte_true (S : AllocSpec A I left) (H : PageTree n root m.mem T leaf)
    (hI : I m.frames held) (hT : ∀ p f, T p = some f → f ∈ held) (hn : virt / 2 ^ 39 % 512 < n)
    (hsmall : isHuge = false → leaf (leafPath virt true) = 0) :
    (∃ m' T' new table,
        vmmGetPte A m root virt true isHuge =
          (m', some (entryAddr table (entryIndex virt isHuge))) ∧
        T' (tablePath virt isHuge) = some table ∧
        Grown I left n root held (tablePath virt isHuge) m T leaf m' T' new ∧ new.length ≤ 3) ∨
      left m.frames < 3 ∧ ∃ m', vmmGetPte A m root virt true isHuge = (m', none) := by
  obtain ⟨h4, h3, h2, h1⟩ := pagingGet_align virt
  have hlt (k : Nat) (a : Nat) (p : List Nat) : virt / k % 512 < tableSize n (a :: p) :=
    Nat.mod_lt _ (by decide)
  have hpre₁ : [] ++ [virt / 2 ^ 39 % 512] <+: tablePath virt isHuge := by
    cases isHuge with
    | true => exact ⟨_, rfl⟩
    | false => exact ⟨_, rfl⟩
  have hpre₂ : [virt / 2 ^ 39 % 512] ++ [virt / 2 ^ 30 % 512] <+: tablePath virt isHuge := by
    cases isHuge with
    | true => exact ⟨[], rfl⟩
    | false => exact ⟨_, rfl⟩
  simp only [vmmGetPte, h4, h3, h2, h1]
  rcases vmmNextTable_true S H hI hT H.root_eq hn (Nat.zero_le 2)
    ((H.leaves _).eq_zero (Nat.le_succ 1)) hpre₁
    with ⟨m₁, T₁, new₁, f₃, hr₁, hf₃, G₁, hlen₁⟩ | ⟨hleft, m₁, hr₁⟩
  swap
  · exact .inr ⟨by omega, m₁, by rw [hr₁]⟩
  have hleft₁ := G₁.left_eq
  rcases vmmNextTable_true S G₁.tree G₁.frames (G₁.mem_held hT) hf₃ (hlt (2 ^ 30) _ _)
    (Nat.le_succ 1) ((G₁.tree.leaves _).eq_zero (Nat.le_refl 2)) hpre₂
    with ⟨m₂, T₂, new₂, f₂, hr₂, hf₂, G₂, hlen₂⟩ | ⟨hleft, m₂, hr₂⟩
  swap
  · exact .inr ⟨by omega, m₂, by rw [hr₁]; simp only [hr₂]⟩
  have hleft₂ := G₂.left_eq
  have G := G₁.trans G₂
  cases isHuge with
  | true =>
    refine .inl ⟨m₂, T₂, new₂ ++ new₁, f₂, ?_, hf₂, G, ?_⟩
    · rw [hr₁]
      simp only [hr₂, if_true]
      rfl
    · rw [List.length_append]
      omega
  | false =>
    rcases vmmNextTable_true S G.tree G.frames (G.mem_held hT) hf₂ (hlt (2 ^ 21) _ _)
      (Nat.le_refl 2)
      (hsmall rfl) ⟨[], rfl⟩ with ⟨m₃, T₃, new₃, f₁, hr₃, hf₁, G₃, hlen₃⟩ | ⟨hleft, m₃, hr₃⟩
    · refine .inl ⟨m₃, T₃, new₃ ++ (new₂ ++ new₁), f₁, ?_, hf₁, G.trans G₃, ?_⟩
      · rw [hr₁]
        simp only [hr₂, hr₃, Bool.false_eq_true, if_false]
        rfl
      · rw [List.length_append, List.length_append]
        omega
    · refine .inr ⟨by omega, m₃, ?_⟩
      rw [hr₁]
      simp only [hr₂, hr₃, Bool.false_eq_true, if_false]

end

/-! ## The entry of a page -/

section
variable {phys flags : Nat} {isHuge : Bool}

theorem pagingAlignPhys_eq (phys : Nat) (isHuge : Bool) : pagingAlignPhys phys isHuge =
    phys - phys % pagingStride isHuge := by
  cases isHuge with
  | true =>
    simp only [pagingAlignPhys, pagingStride, pagingHugePageSize, pagingPageSize, true_and, if_true]
    split
    · rfl
    · rw [if_neg (by omega)]
      omega
  | false =>
    simp only [pagingAlignPhys, pagingStride, pagingPageSize, Bool.false_eq_true, false_and,
      if_false]
    split <;> omega

theorem pagingAlignPhys_mod (phys : Nat) (isHuge : Bool) :
    pagingAlignPhys phys isHuge % pagingStride isHuge = 0 := by
  rw [pagingAlignPhys_eq]
  exact Nat.sub_mod_eq_zero_of_mod_eq (Nat.mod_mod _ _).symm

theorem isFrame_pagingAlignPhys (hphys : phys < 2 ^ 52) :
    IsFrame (pagingAlignPhys phys isHuge) := by
  have hmod := pagingAlignPhys_mod phys isHuge
  have hle : pagingAlignPhys phys isHuge ≤ phys := by
    rw [pagingAlignPhys_eq]
    exact Nat.sub_le _ _
  refine ⟨?_, Nat.lt_of_le_of_lt hle hphys⟩
  cases isHuge with
  | true =>
    simp only [pagingStride, pagingHugePageSize, if_true] at hmod
    simp only [pagingPageSize]
    omega
  | false => exact hmod

theorem pagingEntry_and_addrMask (hphys : phys < 2 ^ 52)
    (hflags : flags &&& pagingPteAddrMask = 0) :
    pagingEntry phys flags isHuge &&& pagingPteAddrMask = pagingAlignPhys phys isHuge := by
  have hps : (if isHuge then pteFlagPs else 0) &&& pagingPteAddrMask = 0 := by
    cases isHuge with
    | true => decide
    | false => decide
  have hp : pteFlagPresent &&& pagingPteAddrMask = 0 := by decide
  rw [pagingEntry, Nat.and_or_distrib_right, Nat.and_or_distrib_right, Nat.and_or_distrib_right,
    (isFrame_pagingAlignPhys hphys).and_addrMask, hflags, hp, hps, Nat.or_zero, Nat.or_zero,
      Nat.or_zero]

/-- The address in the entry of a huge page. -/
theorem pagingEntry_huge (hphys : phys < 2 ^ 52) (hflags : flags &&& pagingPteAddrMask = 0) :
    pagingEntry phys flags true &&& 0x000FFFFFFFE00000 = pagingAlignPhys phys true ∧
      pagingEntry phys flags true &&& 0x1FE000 = 0 := by
  have hmask : (0x000FFFFFFFE00000 : Nat) = pagingPteAddrMask &&& ((2 ^ 31 - 1) <<< 21) := by decide
  have hres : (0x1FE000 : Nat) = pagingPteAddrMask &&& 0x1FE000 := by decide
  have hzero : ((2 ^ 31 - 1) <<< 21) &&& 0x1FE000 = 0 := by decide
  have haddr : pagingAlignPhys phys true &&& ((2 ^ 31 - 1) <<< 21) = pagingAlignPhys phys true :=
    and_bitField (pagingAlignPhys_mod phys true) (isFrame_pagingAlignPhys hphys).2
  constructor
  · rw [hmask, ← Nat.and_assoc, pagingEntry_and_addrMask hphys hflags, haddr]
  · rw [hres, ← Nat.and_assoc, pagingEntry_and_addrMask hphys hflags, ← haddr, Nat.and_assoc, hzero,
      Nat.and_zero]

theorem pagingEntry_testBit (hphys : phys < 2 ^ 52) {i : Nat} (hi : i < 12 ∨ 52 ≤ i) :
    (pagingEntry phys flags isHuge).testBit i =
      (flags.testBit i || (1 : Nat).testBit i || (if isHuge then 128 else 0 : Nat).testBit i) := by
  have hflags : pteFlagPresent = 1 ∧ pteFlagPs = 128 := by decide
  rw [pagingEntry, Nat.testBit_or, Nat.testBit_or, Nat.testBit_or,
    (isFrame_pagingAlignPhys hphys).testBit_eq_false hi, Bool.false_or, hflags.1, hflags.2]

theorem pagingEntry_present (hphys : phys < 2 ^ 52) :
    (pagingEntry phys flags isHuge).testBit 0 = true := by
  rw [pagingEntry_testBit hphys (.inl (by decide))]
  simp

theorem leafOk_pagingEntry {p : List Nat} (hphys : phys < 2 ^ 52)
    (hflags : flags &&& pagingPteAddrMask = 0) (hp : p.length = if isHuge then 3 else 4) :
    LeafOk p (pagingEntry phys flags isHuge) := by
  refine .inr ⟨pagingEntry_present hphys, ?_⟩
  cases isHuge with
  | true =>
    refine .inr ⟨hp, ?_, (pagingEntry_huge hphys hflags).2⟩
    rw [pagingEntry_testBit hphys (.inl (by decide))]
    simp [show (128 : Nat).testBit 7 = true by decide]
  | false => exact .inl hp

/-- The entry of a page of 4 KiB is present, whatever the address. -/
theorem pagingEntry_small_present (phys flags : Nat) :
    (pagingEntry phys flags false).testBit 0 = true := by
  have hone : pteFlagPresent.testBit 0 = true := by decide
  rw [pagingEntry, Nat.testBit_or, Nat.testBit_or, hone, Bool.or_true, Bool.true_or]

theorem leafOk_pagingEntry_small (virt phys flags : Nat) :
    LeafOk (leafPath virt false) (pagingEntry phys flags false) :=
  .inr ⟨pagingEntry_small_present phys flags, .inl rfl⟩

/-- The rights of the entry are those of the flags. -/
theorem leafRights_pagingEntry (hphys : phys < 2 ^ 52) :
    leafRights (pagingEntry phys flags isHuge) = leafRights flags := by
  have hbit (i : Nat) (hi : i < 12 ∨ 52 ≤ i) (h1 : (1 : Nat).testBit i = false)
      (h128 : (128 : Nat).testBit i = false) :
      (pagingEntry phys flags isHuge).testBit i = flags.testBit i := by
    rw [pagingEntry_testBit hphys hi, h1, Bool.or_false]
    cases isHuge with
    | true => rw [if_pos rfl, h128, Bool.or_false]
    | false => rw [if_neg (by decide), Nat.zero_testBit, Bool.or_false]
  simp only [leafRights, walkRights, List.all_cons, List.all_nil,
    hbit 1 (.inl (by decide)) (by decide) (by decide),
      hbit 2 (.inl (by decide)) (by decide) (by decide),
    hbit 63 (.inr (by decide)) (by decide) (by decide)]

end

/-! ## Mapping and unmapping -/

section
variable {virt : Nat} {isHuge : Bool}

/-- The entry of a page points to no table, unless it is that of a huge page. -/
theorem PageTree.none_leafPath (H : PageTree n root m.mem T leaf)
    (hhuge : isHuge = true → T (leafPath virt true) = none) : T (leafPath virt isHuge) = none := by
  cases isHuge with
  | true => exact hhuge rfl
  | false =>
    cases hT : T (leafPath virt false) with
    | none => rfl
    | some f => exact absurd (H.depth hT) (by rw [leafPath_length]; decide)

theorem entryIndex_lt_tableSize (n virt : Nat) (isHuge : Bool) :
    entryIndex virt isHuge < tableSize n (tablePath virt isHuge) := by
  cases isHuge with
  | true => exact entryIndex_lt virt true
  | false => exact entryIndex_lt virt false

theorem PageTree.writeLeaf (H : PageTree n root m.mem T leaf) {table e : Nat}
    (htable : T (tablePath virt isHuge) = some table) (hnone : T (leafPath virt isHuge) = none)
    (he : LeafOk (leafPath virt isHuge) e) :
    PageTree n root (Function.update m.mem (entryAddr table (entryIndex virt isHuge)) e) T
      (Function.update leaf (leafPath virt isHuge) e) := by
  refine ⟨H.toRadixTree.setLeaf htable (entryIndex_lt_tableSize n virt isHuge) hnone e, H.root_eq,
    H.depth, fun p => ?_⟩
  by_cases hp : p = leafPath virt isHuge
  · rw [hp, Function.update_self]
    exact he
  · rw [Function.update_of_ne hp]
    exact H.leaves p

/-- The call adds the tables that are missing and writes the entry, or the allocator has run out. -/
theorem pagingMapPage_spec {phys flags : Nat} (S : AllocSpec A I left)
    (H : PageTree n root m.mem T leaf) (hI : I m.frames held) (hT : ∀ p f, T p = some f → f ∈ held)
    (hv : virt ≠ 0) (hn : virt / 2 ^ 39 % 512 < n)
    (hsmall : isHuge = false → leaf (leafPath virt true) = 0)
    (hhuge : isHuge = true → T (leafPath virt true) = none)
    (hok : LeafOk (leafPath virt isHuge) (pagingEntry phys flags isHuge)) :
    (∃ m' T' new, pagingMapPage A m root virt phys flags isHuge = some m' ∧
        Grown I left n root held (tablePath virt isHuge) m T
          (Function.update leaf (leafPath virt isHuge) (pagingEntry phys flags isHuge)) m' T' new ∧
        new.length ≤ 3) ∨
      left m.frames < 3 ∧ pagingMapPage A m root virt phys flags isHuge = none := by
  rw [pagingMapPage, if_neg hv]
  rcases vmmGetPte_true S H hI hT hn hsmall with
    ⟨m₁, T₁, new, table, hr, htable, G, hlen⟩ | ⟨hleft, m₁, hr⟩
  swap
  · exact .inr ⟨hleft, by rw [hr]⟩
  have hnone : T₁ (leafPath virt isHuge) = none := by
    apply G.tree.none_leafPath
    intro h
    subst h
    cases hc : T₁ (leafPath virt true) with
    | none => rfl
    | some f =>
      rcases G.origin hc with hc | ⟨-, hq⟩
      · rw [hhuge rfl] at hc
        cases hc
      · exact absurd hq.length_le (by simp [leafPath, tablePath])
  have htree := G.tree.writeLeaf htable hnone hok
  rw [hr]
  refine .inl ⟨⟨_, m₁.frames⟩, T₁, new, rfl, ⟨htree, G.frames, G.left_eq, G.fresh, G.le, G.origin,
    fun x hnew hold => ?_⟩, hlen⟩
  have hx := G.ne_entry hnew hold _ _ _ htable (entryIndex_lt_tableSize n virt isHuge)
  exact (Function.update_of_ne hx ..).trans (G.same x hnew hold)

/-- The call clears the entry, and drops a reference on the frame in it if the table is there. -/
theorem pagingUnmapPage_spec (H : PageTree n root m.mem T leaf) (hv : virt ≠ 0)
    (hn : virt / 2 ^ 39 % 512 < n) (hsmall : isHuge = false → leaf (leafPath virt true) = 0)
    (hhuge : isHuge = true → T (leafPath virt true) = none) (freePhysical : Bool) :
    ∃ m', pagingUnmapPage A m root virt isHuge freePhysical = some m' ∧
      PageTree n root m'.mem T (Function.update leaf (leafPath virt isHuge) 0) ∧
      m'.frames = (if freePhysical = true ∧ (T (tablePath virt isHuge)).isSome then
        A.decRef m.frames (leaf (leafPath virt isHuge) &&& pagingPteAddrMask) else m.frames) ∧
      ∀ x, (∀ p f i, T p = some f → i < tableSize n p → x ≠ entryAddr f i) →
        m'.mem x = m.mem x := by
  rw [pagingUnmapPage, if_neg hv, vmmGetPte_false H hn hsmall]
  cases htable : T (tablePath virt isHuge) with
  | none =>
    have hzero : leaf (leafPath virt isHuge) = 0 := H.leaf_of_none htable _
    refine ⟨m, rfl, ?_, by simp, fun _ _ => rfl⟩
    rw [← hzero, Function.update_eq_self]
    exact H
  | some table =>
    have hnone := H.none_leafPath hhuge
    have htree := H.writeLeaf htable hnone (.inl rfl)
    have hentry : m.mem (entryAddr table (entryIndex virt isHuge)) =
        leaf (leafPath virt isHuge) := by
      rw [H.mem_entry htable (entryIndex_lt_tableSize n virt isHuge)]
      change (T (leafPath virt isHuge)).elim (leaf (leafPath virt isHuge)) tableEntry = _
      rw [hnone, Option.elim_none]
    have hsame (x : Nat) (hx : ∀ p f i, T p = some f → i < tableSize n p → x ≠ entryAddr f i) :
        Function.update m.mem (entryAddr table (entryIndex virt isHuge)) 0 x = m.mem x :=
      Function.update_of_ne (hx _ _ _ htable (entryIndex_lt_tableSize n virt isHuge)) ..
    simp only [Option.map_some, hentry]
    cases freePhysical with
    | false => exact ⟨_, rfl, htree, rfl, hsame⟩
    | true => exact ⟨_, rfl, htree, rfl, hsame⟩

end

end Plos
