import Plos.Lib.Radix
import Plos.Memory.Paging.Basic

/-! The page tables as a tree, and what `vmm_get_pte` does to it.

The entries of the tables hold pointers to further tables, which the kernel never takes away again,
and leaves. `pageWalk_eq` says that the walk of the processor sees nothing but the leaves. -/

namespace Plos

/-! ## Entries -/

/-- A physical address that an entry can hold. -/
def IsFrame (f : Nat) : Prop := f % pagingPageSize = 0 ∧ f < 2 ^ 52

/-- The entry that points to a table. -/
def tableEntry (f : Nat) : Nat := f ||| pteFlagUs ||| pteFlagPresent ||| pteFlagRw

namespace IsFrame

variable {f : Nat}

theorem testBit_eq_false (h : IsFrame f) {i : Nat} (hi : i < 12 ∨ 52 ≤ i) :
    f.testBit i = false := by
  rcases hi with hi | hi
  · have hmod : (f % 2 ^ 12).testBit i = false := by
      rw [show f % 2 ^ 12 = 0 from h.1, Nat.zero_testBit]
    rw [Nat.testBit_mod_two_pow] at hmod
    simpa [hi] using hmod
  · exact Nat.testBit_lt_two_pow (Nat.lt_of_lt_of_le h.2 (Nat.pow_le_pow_right (by decide) hi))

theorem and_addrMask (h : IsFrame f) : f &&& pagingPteAddrMask = f := by
  have hmask : pagingPteAddrMask = (2 ^ 40 - 1) <<< 12 := by decide
  rw [hmask]
  exact and_bitField h.1 h.2

theorem tableEntry_and_addrMask (h : IsFrame f) : tableEntry f &&& pagingPteAddrMask = f := by
  have hflags : (pteFlagUs ||| (pteFlagPresent ||| pteFlagRw)) &&& pagingPteAddrMask = 0 := by
    decide
  rw [tableEntry, Nat.or_assoc, Nat.or_assoc, Nat.and_or_distrib_right, h.and_addrMask, hflags,
    Nat.or_zero]

theorem tableEntry_testBit (h : IsFrame f) {i : Nat} (hi : i < 12 ∨ 52 ≤ i) :
    (tableEntry f).testBit i = (7 : Nat).testBit i := by
  have hflags : pteFlagUs ||| (pteFlagPresent ||| pteFlagRw) = 7 := by decide
  rw [tableEntry, Nat.or_assoc, Nat.or_assoc, hflags, Nat.testBit_or, h.testBit_eq_false hi,
    Bool.false_or]

end IsFrame

theorem and_present_eq_zero {e : Nat} : e &&& pteFlagPresent = 0 ↔ e.testBit 0 = false := by
  have hone : pteFlagPresent = 1 := rfl
  rw [hone, Nat.and_one_is_mod, Nat.testBit_zero]
  simp

/-! ## Paths -/

theorem and_0x1FF (n : Nat) : n &&& 0x1FF = n % 512 := Nat.and_two_pow_sub_one_eq_mod n 9

/-- The tables on the way to the entry of an address. -/
def tablePath (virt : Nat) (isHuge : Bool) : List Nat :=
  if isHuge then [virt / 2 ^ 39 % 512, virt / 2 ^ 30 % 512]
  else [virt / 2 ^ 39 % 512, virt / 2 ^ 30 % 512, virt / 2 ^ 21 % 512]

/-- The index of the entry in the last of them. -/
def entryIndex (virt : Nat) (isHuge : Bool) : Nat :=
  if isHuge then virt / 2 ^ 21 % 512 else virt / 2 ^ 12 % 512

def leafPath (virt : Nat) (isHuge : Bool) : List Nat :=
  tablePath virt isHuge ++ [entryIndex virt isHuge]

theorem entryIndex_lt (virt : Nat) (isHuge : Bool) : entryIndex virt isHuge < 512 := by
  unfold entryIndex
  split <;> exact Nat.mod_lt _ (by decide)

@[simp] theorem leafPath_true (virt : Nat) : leafPath virt true =
    [virt / 2 ^ 39 % 512, virt / 2 ^ 30 % 512, virt / 2 ^ 21 % 512] := rfl

@[simp] theorem leafPath_false (virt : Nat) : leafPath virt false =
    [virt / 2 ^ 39 % 512, virt / 2 ^ 30 % 512, virt / 2 ^ 21 % 512, virt / 2 ^ 12 % 512] := rfl

@[simp] theorem tablePath_false (virt : Nat) : tablePath virt false = leafPath virt true := rfl

theorem leafPath_length (virt : Nat) (isHuge : Bool) :
    (leafPath virt isHuge).length = if isHuge then 3 else 4 := by
  cases isHuge with
  | true => rfl
  | false => rfl

theorem leafPath_ne {v w : Nat} {isHuge isHuge' : Bool} (h : isHuge' ≠ isHuge) :
    leafPath v isHuge' ≠ leafPath w isHuge := by
  intro heq
  have hlen := congrArg List.length heq
  rw [leafPath_length, leafPath_length] at hlen
  cases isHuge with
  | true =>
    rw [eq_false_of_ne_true h] at hlen
    cases hlen
  | false =>
    rw [eq_true_of_ne_false h] at hlen
    cases hlen

/-- The number of a page of one size. -/
def pageNumber (virt : Nat) (isHuge : Bool) : Nat := virt / pagingStride isHuge

/-- Canonical addresses with the same indices are on the same page. -/
theorem leafPath_inj {v w : Nat} {isHuge : Bool} (hv : Canonical v) (hw : Canonical w)
    (h : leafPath v isHuge = leafPath w isHuge) : pageNumber v isHuge = pageNumber w isHuge := by
  simp only [Canonical] at hv hw
  cases isHuge with
  | true =>
    simp only [leafPath_true, List.cons.injEq, and_true] at h
    simp only [pageNumber, pagingStride, pagingHugePageSize, if_true]
    omega
  | false =>
    simp only [leafPath_false, List.cons.injEq, and_true] at h
    simp only [pageNumber, pagingStride, pagingPageSize, Bool.false_eq_true, if_false]
    omega

theorem leafPath_congr {v w : Nat} {isHuge : Bool} (h : pageNumber v isHuge = pageNumber w isHuge) :
    leafPath v isHuge = leafPath w isHuge := by
  cases isHuge with
  | true =>
    simp only [pageNumber, pagingStride, pagingHugePageSize, if_true] at h
    simp only [leafPath_true, List.cons.injEq, and_true]
    omega
  | false =>
    simp only [pageNumber, pagingStride, pagingPageSize, Bool.false_eq_true, if_false] at h
    simp only [leafPath_false, List.cons.injEq, and_true]
    omega

/-! ## The tree -/

def pageFormat : RadixFormat Nat Nat Nat where
  slot := entryAddr
  node := tableEntry
  empty := 0
  Valid := IsFrame
  width := 512
  slot_inj := by
    intro f g i j hf hg hi hj h
    have hf := hf.1
    have hg := hg.1
    simp only [entryAddr, pagingPageSize] at *
    omega

/-- The entries of a table that belong to a tree: `n` of the root, and all of the others. -/
def tableSize (n : Nat) (p : List Nat) : Nat := if p = [] then n else 512

/-- What an entry that points to no table can hold: nothing, a page, or a huge page. -/
def LeafOk (p : List Nat) (e : Nat) : Prop :=
  e = 0 ∨ e.testBit 0 = true ∧
    (p.length = 4 ∨ p.length = 3 ∧ e.testBit 7 = true ∧ e &&& 0x1FE000 = 0)

/-- The tree of the tables under `root`, without the entries of the root from `n` on. -/
structure PageTree (n root : Nat) (mem : Nat → Nat) (T : List Nat → Option Nat)
    (leaf : List Nat → Nat) : Prop extends RadixTree pageFormat (tableSize n) mem T leaf where
  root_eq : T [] = some root
  depth : ∀ {p f}, T p = some f → p.length ≤ 3
  leaves : ∀ p, LeafOk p (leaf p)

theorem LeafOk.eq_zero {p : List Nat} {e : Nat} (h : LeafOk p e) (hp : p.length ≤ 2) : e = 0 := by
  rcases h with h | ⟨-, h | ⟨h, -⟩⟩
  · exact h
  · omega
  · omega

/-- A frame covers an address. -/
def InFrame (f x : Nat) : Prop := f ≤ x ∧ x < f + pagingPageSize

theorem inFrame_entryAddr {f i : Nat} (hi : i < 512) : InFrame f (entryAddr f i) := by
  simp only [InFrame, entryAddr, pagingPageSize]
  omega

theorem InFrame.eq {f g x : Nat} (hf : IsFrame f) (hg : IsFrame g) (h : InFrame f x)
    (h' : InFrame g x) : f = g := by
  have hf := hf.1
  have hg := hg.1
  simp only [InFrame, pagingPageSize] at *
  omega

namespace PageTree

variable {n root : Nat} {mem mem' : Nat → Nat} {T : List Nat → Option Nat} {leaf : List Nat → Nat}
  {p : List Nat} {f g i virt : Nat}

theorem size_le_512 (H : PageTree n root mem T leaf) (p : List Nat) : tableSize n p ≤ 512 :=
  H.size_le p

/-- An entry of a table of the tree. -/
theorem mem_entry (H : PageTree n root mem T leaf) (hp : T p = some f) (hi : i < tableSize n p) :
    mem (entryAddr f i) = (T (p ++ [i])).elim (leaf (p ++ [i])) tableEntry := H.entry hp hi

theorem none_of_none (H : PageTree n root mem T leaf) (hp : T p = none) (i : Nat) :
    T (p ++ [i]) = none := by
  cases hc : T (p ++ [i]) with
  | none => rfl
  | some g =>
    obtain ⟨-, f, hf⟩ := H.parent hc
    rw [hp] at hf
    cases hf

theorem leaf_of_none (H : PageTree n root mem T leaf) (hp : T p = none) (i : Nat) :
    leaf (p ++ [i]) = 0 :=
  H.bare hp

/-- The tables on the way to a table are there. -/
theorem isSome_of_prefix (H : PageTree n root mem T leaf) {q : List Nat} (h : p <+: q)
    (hq : (T q).isSome) : (T p).isSome := by
  obtain ⟨r, rfl⟩ := h
  induction r generalizing p with
  | nil => rwa [List.append_nil] at hq
  | cons i r ih =>
    rw [List.append_cons] at hq
    obtain ⟨f, hf⟩ := Option.isSome_iff_exists.mp (ih hq)
    obtain ⟨-, g, hg⟩ := H.parent hf
    exact Option.isSome_of_eq_some hg

/-- A tree reads the entries of its tables and nothing else. -/
theorem congr (H : PageTree n root mem T leaf)
    (h : ∀ p f i, T p = some f → i < tableSize n p → mem' (entryAddr f i) = mem (entryAddr f i)) :
    PageTree n root mem' T leaf :=
  ⟨H.toRadixTree.congr h, H.root_eq, H.depth, H.leaves⟩

/-- A root without entries. -/
theorem empty (hn : n ≤ 512) (hroot : IsFrame root) (hzero : ∀ i < n, mem (entryAddr root i) = 0) :
    PageTree n root mem (fun p => if p = [] then some root else none) fun _ => 0 := by
  have hT {p : List Nat} {f : Nat} (h : (if p = [] then some root else none) = some f) :
      p = [] ∧ f = root := by
    obtain ⟨hp, h⟩ := Option.ite_none_right_eq_some.mp h
    exact ⟨hp, (Option.some.inj h).symm⟩
  have hsnoc (p : List Nat) (i : Nat) : (if p ++ [i] = [] then some root else none) = none :=
    if_neg (by simp)
  refine ⟨⟨fun p => ?_, fun h => ?_, fun h h' => ?_, fun {p i g} h => ?_, fun {p f i} h hi => ?_,
    fun _ => rfl, fun _ => rfl⟩, rfl, fun h => ?_, fun _ => .inl rfl⟩
  · unfold tableSize
    split
    · exact hn
    · exact Nat.le_refl 512
  · rw [(hT h).2]
    exact hroot
  · rw [(hT h).1, (hT h').1]
  · cases (hsnoc p i).symm.trans h
  · obtain ⟨rfl, rfl⟩ := hT h
    exact hzero i hi
  · rw [(hT h).1]
    exact Nat.zero_le 3

end PageTree

/-! ## The walk of the processor -/

theorem pageWalk_of_not_canonical {mem : Nat → Nat} {root virt : Nat} (h : ¬ Canonical virt) :
    pageWalk mem root virt = none := if_pos h

/-- The rights that an entry alone gives. -/
def leafRights (e : Nat) : Rights := walkRights [e]

/-- The translation of an address by the leaves. -/
def leafWalk (leaf : List Nat → Nat) (virt : Nat) : Option (Nat × Rights) :=
  if leaf (leafPath virt true) ≠ 0 then
    some ((leaf (leafPath virt true) &&& 0x000FFFFFFFE00000) + virt % 2 ^ 21,
      leafRights (leaf (leafPath virt true)))
  else if leaf (leafPath virt false) ≠ 0 then
    some ((leaf (leafPath virt false) &&& pagingPteAddrMask) + virt % 2 ^ 12,
      leafRights (leaf (leafPath virt false)))
  else none

theorem walkRights_tableEntry {f : Nat} (hf : IsFrame f) (entries : List Nat) :
    walkRights (tableEntry f :: entries) = walkRights entries := by
  have h1 : (tableEntry f).testBit 1 = true := hf.tableEntry_testBit (.inl (by decide))
  have h2 : (tableEntry f).testBit 2 = true := hf.tableEntry_testBit (.inl (by decide))
  have h63 : (tableEntry f).testBit 63 = false := hf.tableEntry_testBit (.inr (by decide))
  simp only [walkRights, List.all_cons, h1, h2, h63, Bool.true_and, Bool.not_false]

theorem ne_zero_of_testBit {e i : Nat} (h : e.testBit i = true) : e ≠ 0 := by
  rintro rfl
  rw [Nat.zero_testBit] at h
  cases h

/-- The walk goes through the tables of the tree and ends at a leaf. -/
theorem PageTree.pageWalk_eq {n root virt : Nat} {mem : Nat → Nat} {T : List Nat → Option Nat}
    {leaf : List Nat → Nat} (H : PageTree n root mem T leaf) (hn : virt / 2 ^ 39 % 512 < n)
    (hv : Canonical virt) : pageWalk mem root virt = leafWalk leaf virt := by
  have htable {f : Nat} (hf : IsFrame f) : (tableEntry f).testBit 0 = true ∧
      (tableEntry f).testBit 7 = false :=
    ⟨hf.tableEntry_testBit (.inl (by decide)), hf.tableEntry_testBit (.inl (by decide))⟩
  have hb : virt / 2 ^ 30 % 512 < 512 := Nat.mod_lt _ (by decide)
  have hc : virt / 2 ^ 21 % 512 < 512 := Nat.mod_lt _ (by decide)
  have hd : virt / 2 ^ 12 % 512 < 512 := Nat.mod_lt _ (by decide)
  obtain ⟨a, ha⟩ : ∃ a, virt / 2 ^ 39 % 512 = a := ⟨_, rfl⟩
  obtain ⟨b, hb'⟩ : ∃ b, virt / 2 ^ 30 % 512 = b := ⟨_, rfl⟩
  obtain ⟨c, hc'⟩ : ∃ c, virt / 2 ^ 21 % 512 = c := ⟨_, rfl⟩
  obtain ⟨d, hd'⟩ : ∃ d, virt / 2 ^ 12 % 512 = d := ⟨_, rfl⟩
  simp only [pageWalk, leafWalk, leafPath_true, leafPath_false, if_neg (not_not.mpr hv), ha, hb',
    hc', hd']
  rw [ha] at hn
  rw [hb'] at hb
  rw [hc'] at hc
  rw [hd'] at hd
  have h4 : mem (entryAddr root a) = (T [a]).elim (leaf [a]) tableEntry := H.mem_entry H.root_eq hn
  simp only [h4]
  cases hT3 : T [a] with
  | none =>
    have hT2 : T [a, b] = none := H.none_of_none hT3 b
    have hT1 : T [a, b, c] = none := H.none_of_none hT2 c
    have hl2 : leaf [a, b, c] = 0 := H.leaf_of_none hT2 c
    have hl1 : leaf [a, b, c, d] = 0 := H.leaf_of_none hT1 d
    have hzero : leaf [a] = 0 := (H.leaves [a]).eq_zero (Nat.le_succ 1)
    simp [hzero, hl2, hl1]
  | some f3 =>
    have hf3 := H.valid hT3
    have h3 : mem (entryAddr f3 b) = (T [a, b]).elim (leaf [a, b]) tableEntry := H.mem_entry hT3 hb
    simp only [Option.elim_some, hf3.tableEntry_and_addrMask, htable hf3, h3]
    cases hT2 : T [a, b] with
    | none =>
      have hT1 : T [a, b, c] = none := H.none_of_none hT2 c
      have hl2 : leaf [a, b, c] = 0 := H.leaf_of_none hT2 c
      have hl1 : leaf [a, b, c, d] = 0 := H.leaf_of_none hT1 d
      have hzero : leaf [a, b] = 0 := (H.leaves [a, b]).eq_zero (Nat.le_refl 2)
      simp [hzero, hl2, hl1]
    | some f2 =>
      have hf2 := H.valid hT2
      have h2 : mem (entryAddr f2 c) = (T [a, b, c]).elim (leaf [a, b, c]) tableEntry :=
        H.mem_entry hT2 hc
      simp only [Option.elim_some, hf2.tableEntry_and_addrMask, htable hf2, h2,
        walkRights_tableEntry hf3, walkRights_tableEntry hf2]
      cases hT1 : T [a, b, c] with
      | none =>
        have hl1 : leaf [a, b, c, d] = 0 := H.leaf_of_none hT1 d
        rcases H.leaves [a, b, c] with hzero | ⟨hp, hlen | ⟨-, hps, hres⟩⟩
        · simp [hzero, hl1]
        · cases hlen
        · simp [hp, hps, hres, ne_zero_of_testBit hp, leafRights]
      | some f1 =>
        have hf1 := H.valid hT1
        have hl2 : leaf [a, b, c] = 0 := H.inner (p := [a, b]) hT1
        have hT0 : T [a, b, c, d] = none := by
          cases hT0 : T [a, b, c, d] with
          | none => rfl
          | some f0 => exact absurd (H.depth hT0) (Nat.not_succ_le_self 3)
        have h1 : mem (entryAddr f1 d) = leaf [a, b, c, d] := by
          rw [H.mem_entry hT1 hd]
          simp only [List.cons_append, List.nil_append, hT0, Option.elim_none]
        simp only [Option.elim_some, hf1.tableEntry_and_addrMask, htable hf1, h1, hl2,
          walkRights_tableEntry hf1]
        rcases H.leaves [a, b, c, d] with hzero | ⟨hp, -⟩
        · simp [hzero]
        · simp [hp, ne_zero_of_testBit hp, leafRights]

end Plos
