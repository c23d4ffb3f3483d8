import Plos.Memory.Vmm.DemandPaging

/-! Creating and destroying address spaces.

A new space has an empty lower half and a copy of the kernel's entries in its higher half.
Destroying it frees its areas and its first table. The other tables that its mappings needed are not
given back, so the frames are what they were before exactly if nothing was ever mapped in the
space. -/

namespace Plos

variable {U : Set Nat} {others : List Block} {n : Nat} {m m' : Machine Pmm} {v : AddressSpace}
  {T : List Nat → Option Nat} {leaf : List Nat → Nat} {anon : List (Nat × Nat)}
  {rest held own : List Nat}

/-! ## Creation -/

section
variable {mem : Nat → Nat} {new kernel : Nat}

theorem foldl_copy_of_ne (l : List Nat) {x : Nat} (h : ∀ i ∈ l, x ≠ entryAddr new i) :
    l.foldl (fun mem i => Function.update mem (entryAddr new i) (mem (entryAddr kernel i))) mem x =
      mem x := by
  induction l generalizing mem with
  | nil => rfl
  | cons j l ih =>
    obtain ⟨hj, hl⟩ := List.forall_mem_cons.mp h
    rw [List.foldl_cons, ih hl, Function.update_of_ne hj]

theorem foldl_copy (l : List Nat) (hdis : ∀ i ∈ l, ∀ j ∈ l, entryAddr kernel i ≠ entryAddr new j)
    {i : Nat} (hi : i ∈ l) :
    l.foldl (fun mem i => Function.update mem (entryAddr new i) (mem (entryAddr kernel i))) mem
      (entryAddr new i) = mem (entryAddr kernel i) := by
  induction l generalizing mem with
  | nil => cases hi
  | cons j l ih =>
    have hj : j ∈ j :: l := List.mem_cons_self
    rw [List.foldl_cons]
    by_cases hil : i ∈ l
    · rw [ih (fun a ha b hb => hdis a (List.mem_cons_of_mem _ ha) b (List.mem_cons_of_mem _ hb))
        hil, Function.update_of_ne (hdis i hi j hj)]
    · obtain rfl := (List.mem_cons.mp hi).resolve_right hil
      rw [foldl_copy_of_ne, Function.update_self]
      intro k hk h
      have hik : i = k := by
        simp only [entryAddr] at h
        omega
      exact hil (hik ▸ hk)

theorem vmmCopyHigherHalf_of_ne {x : Nat} (h : ∀ i, 256 ≤ i → i < 512 → x ≠ entryAddr new i) :
    vmmCopyHigherHalf mem new kernel x = mem x := by
  unfold vmmCopyHigherHalf
  apply foldl_copy_of_ne
  intro i hi
  have hi := List.mem_range'_1.mp hi
  exact h i hi.1 hi.2

theorem vmmCopyHigherHalf_entry (hdis : ∀ i < 512, ∀ j < 512, entryAddr kernel i ≠ entryAddr new j)
    {i : Nat} (hi : 256 ≤ i) (hi' : i < 512) :
    vmmCopyHigherHalf mem new kernel (entryAddr new i) = mem (entryAddr kernel i) := by
  unfold vmmCopyHigherHalf
  apply foldl_copy
  · intro j hj k hk
    exact hdis j (List.mem_range'_1.mp hj).2 k (List.mem_range'_1.mp hk).2
  · exact List.mem_range'_1.mpr ⟨hi, hi'⟩

end

/-- The new space has a fresh first table. -/
structure NewSpace (U : Set Nat) (others : List Block) (held : List Nat) (m : Machine Pmm)
    (kernelPml4 : Nat) (m' : Machine Pmm) (v : AddressSpace) : Prop where
  space : v.space = .user
  areas : v.regionList = []
  frames : PmmHolds U others m'.frames (v.pml4Phys :: held)
  low : ∀ i < 256, m'.mem (entryAddr v.pml4Phys i) = 0
  high : ∀ i, 256 ≤ i → i < 512 → m'.mem (entryAddr v.pml4Phys i) = m.mem (entryAddr kernelPml4 i)
  same : ∀ x, ¬ InFrame v.pml4Phys x → m'.mem x = m.mem x

theorem vmmNewAddressSpace_spec {kernelPml4 : Nat} {kmallocOk : Bool}
    (H : PmmHolds U others m.frames held) (hk : kernelPml4 ∈ held)
    (h : vmmNewAddressSpace pmmFrames m kernelPml4 kmallocOk = (m', some v)) :
    NewSpace U others held m kernelPml4 m' v := by
  unfold vmmNewAddressSpace at h
  split at h
  · cases h
  rcases H.alloc with ⟨hr, -⟩ | ⟨s, root, hr, H'⟩
  · simp only [pmmFrames, hr, if_true] at h
    cases h
  · have hne : root ≠ 0 := H'.ne_zero List.mem_cons_self
    simp only [pmmFrames, hr, if_neg hne] at h
    have hroot := H'.isFrame List.mem_cons_self
    have hkernel := H.isFrame hk
    have hfresh : root ∉ held := (List.nodup_cons.mp H'.nodup).1
    have hapart {x : Nat} (hx : InFrame kernelPml4 x) : ¬ InFrame root x := fun hin =>
      hfresh (InFrame.eq hroot hkernel hin hx ▸ hk)
    have hlow {x : Nat} (hx : ∀ i, 256 ≤ i → i < 512 → x ≠ entryAddr root i) :
        vmmCopyHigherHalf (memsetPage m.mem root) root kernelPml4 x = memsetPage m.mem root x :=
      vmmCopyHigherHalf_of_ne hx
    have hhigh {i : Nat} (hi : 256 ≤ i) (hi' : i < 512) :
        vmmCopyHigherHalf (memsetPage m.mem root) root kernelPml4 (entryAddr root i) =
          m.mem (entryAddr kernelPml4 i) := by
      rw [vmmCopyHigherHalf_entry (fun j hj k hk h => ?_) hi hi']
      · exact memsetPage_of_not_inFrame (hapart (inFrame_entryAddr hi'))
      · exact hapart (inFrame_entryAddr hj) (h ▸ inFrame_entryAddr hk)
    -- the loop is not to be unfolded from here on
    generalize vmmCopyHigherHalf (memsetPage m.mem root) root kernelPml4 = mem at h hlow hhigh
    cases h
    refine ⟨rfl, rfl, H', fun i hi => ?_, fun i hi hi' => hhigh hi hi', fun x hx => ?_⟩
    · refine (hlow fun j hj _ h => ?_).trans (memsetPage_entry (by omega))
      simp only [entryAddr] at h
      omega
    · refine (hlow fun j _ hj h => ?_).trans (memsetPage_of_not_inFrame hx)
      exact hx (h ▸ inFrame_entryAddr hj)

/-- Nothing has changed if there was no memory for the space. -/
theorem vmmNewAddressSpace_none {kernelPml4 : Nat} {kmallocOk : Bool}
    (H : PmmHolds U others m.frames held)
    (h : vmmNewAddressSpace pmmFrames m kernelPml4 kmallocOk = (m', none)) : m' = m := by
  unfold vmmNewAddressSpace at h
  split at h
  · exact (congrArg Prod.fst h).symm
  rcases H.alloc with ⟨hr, -⟩ | ⟨s, root, hr, H'⟩
  · simp only [pmmFrames, hr, if_true] at h
    exact (congrArg Prod.fst h).symm
  · simp only [pmmFrames, hr, if_neg (H'.ne_zero List.mem_cons_self)] at h
    cases congrArg Prod.snd h

/-- The lower half of a space with its tables: the first one and those in the frames `own`. -/
structure BuiltSpace (U : Set Nat) (others : List Block) (m : Machine Pmm) (v : AddressSpace)
    (T : List Nat → Option Nat) (leaf : List Nat → Nat) (anon : List (Nat × Nat))
      (own rest : List Nat) :
    Prop extends SpaceInv U others 256 m v T leaf anon (own ++ v.pml4Phys :: rest) where
  user : v.space = .user
  inner : ∀ {p f}, T p = some f → p = [] ∧ f = v.pml4Phys ∨ p ≠ [] ∧ f ∈ own

theorem NewSpace.built {kernelPml4 : Nat} (N : NewSpace U others held m kernelPml4 m' v) :
    ∃ T, BuiltSpace U others m' v T (fun _ => 0) [] [] held := by
  have htree := PageTree.empty (by decide) (N.frames.isFrame List.mem_cons_self) N.low
  have hT {p : List Nat} {f : Nat} (h : (if p = [] then some v.pml4Phys else none) = some f) :
      p = [] ∧ f = v.pml4Phys := by
    obtain ⟨hp, h⟩ := Option.ite_none_right_eq_some.mp h
    exact ⟨hp, (Option.some.inj h).symm⟩
  refine ⟨_,
    ⟨⟨htree, N.frames, fun h => ?_, nofun⟩, ?_, ?_, ?_, fun _ => rfl, fun _ hne => absurd rfl hne,
    fun _ _ _ hne => absurd rfl hne, nofun, ?_⟩, N.space, fun h => .inl (hT h)⟩
  · rw [(hT h).2]
    exact List.mem_cons_self
  · rw [N.space]
    exact Nat.le_refl 256
  · rw [N.areas]
    exact ⟨List.Pairwise.nil, nofun, nofun, List.Pairwise.nil⟩
  · rw [N.areas]
    exact nofun
  · rw [N.areas]
    exact nofun

namespace BuiltSpace

/-- A call on the space keeps that account, and it adds tables if it is the first one to map
pages. -/
theorem step {s s' : VmmSys} {op : VmmOp}
    (H : BuiltSpace U others s.machine s.space T leaf anon own rest) (hroom : op.HasRoom s)
    (h : vmmStep s op = some s') :
    ∃ T' leaf' anon' new, BuiltSpace U others s'.machine s'.space T' leaf' anon' (new ++ own) rest ∧
      SpaceStep U others 256 (own ++ s.space.pml4Phys :: rest) (op.MapsAt s) s.machine s.space T
        s'.machine s'.space T' leaf' anon' new ∧
      (op.Maps s → new ++ own ≠ []) ∧ (¬ op.Maps s → new = []) ∧
      ∀ x < 2 ^ 47, ¬ Space.user.Window x → s'.walk x = s.walk x := by
  obtain ⟨T', leaf', anon', new, S, hat, hmaps, hnot, hout⟩ := H.toSpaceInv.step hroom h
  have hinv := S.inv
  rw [← S.root_eq, ← List.append_assoc] at hinv
  have hinner {p : List Nat} {f : Nat} (hp : T' p = some f) :
      p = [] ∧ f = s'.space.pml4Phys ∨ p ≠ [] ∧ f ∈ new ++ own := by
    by_cases hnil : p = []
    · subst hnil
      exact .inl ⟨rfl, Option.some.inj (hp.symm.trans S.inv.tree.root_eq)⟩
    · refine .inr ⟨hnil, ?_⟩
      rcases S.paged.origin hp with hp | ⟨hf, -⟩
      · rcases H.inner hp with ⟨hp, -⟩ | ⟨-, hf⟩
        · exact absurd hp hnil
        · exact List.mem_append_right _ hf
      · exact List.mem_append_left _ hf
  refine ⟨T', leaf', anon', new, ⟨hinv, S.space_eq.trans H.user, hinner⟩, S, fun hm => ?_, hnot,
    fun x hx hw => (hout x (.inl hx) ?_).2 (by rwa [H.user])⟩
  swap
  · omega
  -- the page that was mapped has a table
  obtain ⟨x, hx⟩ := hmaps hm
  have hne := (hat x hx).2
  cases htable : T' (tablePath x false) with
  | none => exact absurd (S.inv.tree.leaf_of_none htable _) hne
  | some f =>
    rcases hinner htable with ⟨hnil, -⟩ | ⟨-, hf⟩
    · cases hnil
    · exact List.ne_nil_of_mem hf

theorem run {s t : VmmSys} {ops : List VmmOp}
    (H : BuiltSpace U others s.machine s.space T leaf anon own rest)
    (hroom : AllSteps vmmStep (fun s op => op.HasRoom s) s ops)
    (h : runFrom vmmStep s ops = some t) :
    ∃ T' leaf' anon' own', BuiltSpace U others t.machine t.space T' leaf' anon' own' rest ∧
      (own' = [] ↔ own = [] ∧ AllSteps vmmStep (fun s op => ¬ op.Maps s) s ops) := by
  induction ops generalizing s T leaf anon own with
  | nil =>
    cases h
    exact ⟨T, leaf, anon, own, H, (and_iff_left trivial).symm⟩
  | cons op ops ih =>
    obtain ⟨s', h₁, h₂⟩ := runFrom_cons.mp h
    obtain ⟨hq, hrest⟩ := hroom.cons h₁
    obtain ⟨T₁, leaf₁, anon₁, new, H₁, -, hmaps, hnot, -⟩ := H.step hq h₁
    obtain ⟨T', leaf', anon', own', H', hiff⟩ := ih H₁ hrest h₂
    refine ⟨T', leaf', anon', own', H', hiff.trans ?_⟩
    constructor
    · intro ⟨hnil, hall⟩
      exact ⟨(List.append_eq_nil_iff.mp hnil).2, .intro (fun hm => hmaps hm hnil) fun s₁ hs₁ => by
        cases h₁.symm.trans hs₁
        exact hall⟩
    · intro ⟨hnil, hall⟩
      obtain ⟨hm, hall⟩ := hall.cons h₁
      rw [hnot hm, hnil]
      exact ⟨rfl, hall⟩

/-! ## Destruction -/

/-- The loop over the areas frees them one after the other. -/
theorem vmmFreeAreas_spec (H : BuiltSpace U others m v T leaf anon own rest) :
    ∃ m' v' leaf', vmmFreeAreas pmmFrames v.regionList m v = some (m', v') ∧
      v'.pml4Phys = v.pml4Phys ∧ BuiltSpace U others m' v' T leaf' [] own rest ∧
      ∀ x, Kept 256 T (own ++ v.pml4Phys :: rest) x → m'.mem x = m.mem x := by
  obtain ⟨l, hl⟩ : ∃ l, v.regionList = l := ⟨_, rfl⟩
  induction l generalizing m v leaf anon with
  | nil =>
    have hnil : anon = [] := by
      refine List.eq_nil_iff_forall_not_mem.mpr fun ⟨k, f⟩ hkf => ?_
      obtain ⟨a, ha, -⟩ := H.anonArea hkf
      rw [hl] at ha
      cases ha
    subst hnil
    exact ⟨m, v, leaf, by rw [hl]; rfl, rfl, H, fun _ _ => rfl⟩
  | cons a l ih =>
    have ha : a ∈ v.regionList := by
      rw [hl]
      exact List.mem_cons_self
    have hbase : a.Contains a.base :=
      ⟨Nat.le_refl _, Nat.lt_add_of_pos_right (Nat.pos_of_ne_zero (H.wf.sizes a ha).1)⟩
    obtain ⟨m₁, leaf₁, hr₁, S, -⟩ := H.toSpaceInv.free ha hbase
    have herase : v.regionList.erase a = l := by rw [hl, List.erase_cons_head]
    rw [herase] at hr₁ S
    have H₁ : BuiltSpace U others m₁ { v with regionList := l } T leaf₁ _ own rest :=
      ⟨S.inv, H.user, H.inner⟩
    obtain ⟨m', v', leaf', hr, hroot, H', hsame⟩ := ih H₁ rfl
    refine ⟨m', v', leaf', ?_, hroot, H', fun x hx => ?_⟩
    · rw [hl, vmmFreeAreas, hr₁]
      exact hr
    · exact (hsame x hx).trans (S.paged.same hx)

theorem destroy (H : BuiltSpace U others m v T leaf anon own rest) :
    ∃ m', vmmDestroyAddressSpace pmmFrames m v = some m' ∧
      PmmHolds U others m'.frames (own ++ rest) ∧
      ∀ x, Kept 256 T (own ++ v.pml4Phys :: rest) x → m'.mem x = m.mem x := by
  obtain ⟨m₁, v₁, leaf₁, hr, hroot, H₁, hsame⟩ := H.vmmFreeAreas_spec
  refine ⟨{ m₁ with frames := pmmFrames.decRef m₁.frames v₁.pml4Phys }, ?_, ?_, hsame⟩
  · rw [vmmDestroyAddressSpace, H.user, if_neg (by decide), hr, Option.map_some]
  · exact (H₁.held.perm List.perm_middle).decRef_cons

end BuiltSpace

/-! ## The whole life of a space -/

/-- A space is created, used in any way that stays inside its window, and destroyed. The free pages
are those from before exactly if no call mapped a page. -/
theorem teardown_freePages_iff {m₁ : Machine Pmm} {kernelPml4 : Nat} {ops : List VmmOp} {t : VmmSys}
    (H : PmmHolds U others m.frames held) (hk : kernelPml4 ∈ held)
    (hnew : vmmNewAddressSpace pmmFrames m kernelPml4 true = (m₁, some v))
    (hroom : AllSteps vmmStep (fun s op => op.HasRoom s) ⟨m₁, v⟩ ops)
    (hrun : runFrom vmmStep ⟨m₁, v⟩ ops = some t) :
    ∃ m', vmmDestroyAddressSpace pmmFrames t.machine t.space = some m' ∧
      (m'.frames.freePages = m.frames.freePages ↔
        AllSteps vmmStep (fun s op => ¬ op.Maps s) ⟨m₁, v⟩ ops) := by
  obtain ⟨T, H₁⟩ := (vmmNewAddressSpace_spec H hk hnew).built
  obtain ⟨T', leaf', anon', own, Ht, hown⟩ := BuiltSpace.run (s := ⟨m₁, v⟩) H₁ hroom hrun
  obtain ⟨m', hr, hheld, -⟩ := Ht.destroy
  refine ⟨m', hr, Iff.trans ?_ (hown.trans (and_iff_right rfl))⟩
  have hfree := PmmHolds.freePages_union hheld H
  constructor
  · intro heq
    refine List.eq_nil_iff_forall_not_mem.mpr fun f hf => ?_
    have hmem : f / pmmPageSize ∈ m'.frames.freePages := by
      rw [heq, hfree]
      exact .inr ⟨f, hf, rfl⟩
    exact (hheld.mem_freePages.mp hmem).2.1 f (List.mem_append_left _ hf) rfl
  · rintro rfl
    rw [hfree]
    simp

/-- A new space on a machine with little memory. -/
def smallNewSpace : Machine Pmm × Option AddressSpace :=
  vmmNewAddressSpace pmmFrames (smallVmm .kernel).machine (smallVmm .kernel).root true

/-- Two pages are allocated and freed without being touched. -/
theorem teardown_freePages_iff_untouched :
    ∃ m₁ v t m', smallNewSpace = (m₁, some v) ∧
      runFrom vmmStep ⟨m₁, v⟩ [.alloc 0x2000 18 0 true, .free 0x1000] = some t ∧
      vmmDestroyAddressSpace pmmFrames t.machine t.space = some m' ∧
      m'.frames.freePages = (smallVmm .kernel).machine.frames.freePages := by
  have hrun : (smallNewSpace.2.bind fun v => runFrom vmmStep ⟨smallNewSpace.1, v⟩
        [.alloc 0x2000 18 0 true, .free 0x1000]).isSome = true := by decide +kernel
  obtain ⟨t, ht⟩ := Option.isSome_iff_exists.mp hrun
  obtain ⟨v, hv, ht⟩ := Option.bind_eq_some_iff.mp ht
  have hnew : smallNewSpace = (smallNewSpace.1, some v) := Prod.ext_iff.mpr ⟨rfl, hv⟩
  have H := (smallVmm_start .kernel).frames
  have N := vmmNewAddressSpace_spec H List.mem_cons_self hnew
  have hroom : AllSteps vmmStep (fun s op => op.HasRoom s) ⟨smallNewSpace.1, v⟩
      [.alloc 0x2000 18 0 true, .free 0x1000] := by
    refine .intro (fun _ => ?_) fun _ _ => .intro trivial fun _ _ => trivial
    rw [N.space, N.areas]
    decide
  obtain ⟨m', hr, hiff⟩ := teardown_freePages_iff H List.mem_cons_self hnew hroom ht
  refine ⟨_, v, t, m', hnew, ht, hr,
    hiff.mpr (.intro (fun hm => ?_) fun _ _ => .intro id fun _ _ => trivial)⟩
  have hmmio := hm.1
  rw [N.space] at hmmio
  exact hmmio (by decide)

/-- A page is allocated and touched. After the space has been destroyed, page 10 is still taken: it
holds a table. -/
theorem teardown_leaksTables :
    ∃ m₁ v t m', smallNewSpace = (m₁, some v) ∧
      runFrom vmmStep ⟨m₁, v⟩ [.alloc 0x1000 18 0 true, .fault 0x1000] = some t ∧
      vmmDestroyAddressSpace pmmFrames t.machine t.space = some m' ∧
      m'.frames.freePages ≠ (smallVmm .kernel).machine.frames.freePages := by
  have hrun : ((smallNewSpace.2.bind fun v => runFrom vmmStep ⟨smallNewSpace.1, v⟩
        [.alloc 0x1000 18 0 true, .fault 0x1000]).bind fun t =>
      vmmDestroyAddressSpace pmmFrames t.machine t.space).map
        (fun m' => decide (∃ b ∈ m'.frames.freeBlocks, b.Covers 10)) = some false := by
          decide +kernel
  obtain ⟨m', hm', hfree⟩ := Option.map_eq_some_iff.mp hrun
  obtain ⟨t, ht, hm'⟩ := Option.bind_eq_some_iff.mp hm'
  obtain ⟨v, hv, ht⟩ := Option.bind_eq_some_iff.mp ht
  refine ⟨_, v, t, m', Prod.ext_iff.mpr ⟨rfl, hv⟩, ht, hm', fun heq => of_decide_eq_false hfree ?_⟩
  have hbefore : ∃ b ∈ (smallVmm .kernel).machine.frames.freeBlocks, b.Covers 10 := by
    decide +kernel
  have hmem : 10 ∈ (smallVmm .kernel).machine.frames.freePages := hbefore
  rw [← heq] at hmem
  exact hmem

end Plos
