import Plos.Memory.Kheap.Mapped
import Plos.Memory.Vmm.DemandPaging

/-! An extension of the heap that fails.

`kheap_extend` returns as soon as there is no frame for a page. The pages before it stay mapped and
keep their frames, although `kheap_end` has not moved. So a failed call changes nothing only if
there was no frame at all. -/

namespace Plos

/-- The tables that the walk of an address passes after the first one. -/
def walkTables (mem : Nat → Nat) (root virt : Nat) : List Nat :=
  let pml4e := mem (entryAddr root (virt / 2 ^ 39 % 512))
  let pdpte := mem (entryAddr (pml4e &&& pagingPteAddrMask) (virt / 2 ^ 30 % 512))
  let pde := mem (entryAddr (pdpte &&& pagingPteAddrMask) (virt / 2 ^ 21 % 512))
  if pml4e.testBit 0 = false then []
  else if pdpte.testBit 0 = false ∨ pdpte.testBit 7 then [pml4e &&& pagingPteAddrMask]
  else if pde.testBit 0 = false ∨ pde.testBit 7 then
    [pml4e &&& pagingPteAddrMask, pdpte &&& pagingPteAddrMask]
  else [pml4e &&& pagingPteAddrMask, pdpte &&& pagingPteAddrMask, pde &&& pagingPteAddrMask]

/-- A page that holds a table below the first one. -/
def IsTablePage (mem : Nat → Nat) (root page : Nat) : Prop :=
  ∃ virt, ∃ f ∈ walkTables mem root virt, f / pmmPageSize = page

section
variable {U : Set Nat} {others : List Block} {root virt f : Nat} {m m' : Machine Pmm}
  {mem : Nat → Nat} {T : List Nat → Option Nat} {leaf : List Nat → Nat} {rest : List Nat}

/-- An entry that is present and no large page points to a table of the tree. -/
theorem PageTree.next_of_present {p : List Nat} {table i : Nat} (H : PageTree 512 root mem T leaf)
    (hp : T p = some table) (hi : i < 512) (hlen : p.length ≤ 2)
    (hpresent : (mem (entryAddr table i)).testBit 0 = true)
    (hsmall : p.length = 2 → (mem (entryAddr table i)).testBit 7 = false) :
    T (p ++ [i]) = some (mem (entryAddr table i) &&& pagingPteAddrMask) := by
  have hentry := H.mem_entry hp (i := i) (by unfold tableSize; split <;> exact hi)
  cases hT : T (p ++ [i]) with
  | some g => rw [hentry, hT, Option.elim_some, (H.valid hT).tableEntry_and_addrMask]
  | none =>
    rw [hT, Option.elim_none] at hentry
    rw [hentry] at hpresent hsmall
    rcases H.leaves (p ++ [i]) with h | ⟨-, h | ⟨h, hhuge, -⟩⟩
    · rw [h, Nat.zero_testBit] at hpresent
      cases hpresent
    · rw [List.length_append, List.length_singleton] at h
      omega
    · rw [List.length_append, List.length_singleton] at h
      rw [hsmall (by omega)] at hhuge
      cases hhuge

theorem PageTree.of_mem_walkTables (H : PageTree 512 root mem T leaf)
    (hf : f ∈ walkTables mem root virt) : ∃ p, T p = some f := by
  have hlt (k : Nat) : virt / k % 512 < 512 := Nat.mod_lt _ (by decide)
  unfold walkTables at hf
  dsimp only at hf
  split at hf
  · cases hf
  next h₁ =>
  have hpdpr := H.next_of_present H.root_eq (hlt _) (Nat.zero_le _) (by simpa using h₁) nofun
  split at hf
  · rw [List.mem_singleton.mp hf]
    exact ⟨_, hpdpr⟩
  next h₂ =>
  obtain ⟨hpresent, -⟩ := not_or.mp h₂
  have hpd := H.next_of_present hpdpr (hlt _) (Nat.le_succ 1) (by simpa using hpresent) nofun
  split at hf
  · rcases List.mem_cons.mp hf with rfl | hf
    · exact ⟨_, hpdpr⟩
    · rw [List.mem_singleton.mp hf]
      exact ⟨_, hpd⟩
  next h₃ =>
  obtain ⟨hpresent, hsmall⟩ := not_or.mp h₃
  have hpt := H.next_of_present hpd (hlt _) (Nat.le_refl 2) (by simpa using hpresent) fun _ => by
    simpa using hsmall
  simp only [List.mem_cons, List.not_mem_nil, or_false] at hf
  rcases hf with rfl | rfl | rfl
  · exact ⟨_, hpdpr⟩
  · exact ⟨_, hpd⟩
  · exact ⟨_, hpt⟩

/-- A fresh frame is mapped at any address that no large page covers. It is held and no table. -/
theorem Paged.mapTaken (H : Paged U others 512 root m T leaf [] rest) {flags : Nat} {s : Pmm}
    (hsmall : leaf (leafPath virt true) = 0) (halloc : pmmFrames.alloc m.frames = (s, f))
    (hf : f ≠ 0) (h : pagingMapPage pmmFrames ⟨m.mem, s⟩ root virt f flags false = some m') :
    ∃ T' leaf' new, Paged U others 512 root m' T' leaf' [] (new ++ f :: rest) ∧
      (∀ x, leaf' (leafPath x true) = leaf (leafPath x true)) ∧
      ∀ p g, T' p = some g → T p = some g ∨ g ∈ new := by
  have hv : virt ≠ 0 := by
    rintro rfl
    cases h
  have H₀ := (H.takeFresh halloc hf fun _ _ => rfl).1
  rcases pagingMapPage_spec (PmmHolds.allocSpec U others) H₀.tree H₀.held (fun _ _ => H₀.mem_held)
    hv
    (Nat.mod_lt _ (by decide)) (fun _ : false = false => hsmall) nofun
      (leafOk_pagingEntry_small virt f flags)
    with ⟨m₁, T', new, hr, G, -⟩ | ⟨-, hr⟩
  swap
  · cases h.symm.trans hr
  cases h.symm.trans hr
  refine ⟨T', _, new, ⟨G.tree, G.frames, fun hp => ?_, nofun⟩, fun x => ?_, fun p g hp => ?_⟩
  · rcases G.origin hp with hp | ⟨hg, -⟩
    · exact List.mem_append_right _ (H₀.tables hp)
    · exact List.mem_append_left _ hg
  · exact Function.update_of_ne (leafPath_ne (by decide)) ..
  · exact (G.origin hp).imp_right And.left

end

namespace HeapMachine

variable {U : Set Nat} {others : List Block} {root : Nat} {s s' : HeapMachine} {m m' : Machine Pmm}
  {T : List Nat → Option Nat} {leaf : List Nat → Nat} {anon : List (Nat × Nat)} {rest : List Nat}

/-- The heap and the translation of every address are the same, and no frame has been taken or given
back, but for tables. -/
structure Unchanged (root : Nat) (s s' : HeapMachine) : Prop where
  heap : s'.heap = s.heap
  walk : ∀ x, pageWalk s'.machine.mem root x = pageWalk s.machine.mem root x
  freed : s'.machine.frames.freePages ⊆ s.machine.frames.freePages
  taken : ∀ x ∈ s.machine.frames.freePages, x ∉ s'.machine.frames.freePages →
    IsTablePage s'.machine.mem root x

/-- The tables of the kernel are a tree in frames of their own, and no large page is in the way of
an extension by `size` bytes. -/
structure Extendable (U : Set Nat) (others : List Block) (root : Nat) (s : HeapMachine)
  (size : Nat) : Prop where
  word : s.heap.kheapEnd < 2 ^ 64
  tables : ∃ T leaf rest, Paged U others 512 root s.machine T leaf [] rest ∧
    ∀ j, kheapPageSize * j < size → s.heap.kheapEnd + kheapPageSize * j < 2 ^ 64 →
      leaf (leafPath (s.heap.kheapEnd + kheapPageSize * j) true) = 0

/-- A round of the loop finds no frame, or takes one and maps it. -/
theorem kheapExtendLoop_round {limit n virt : Nat} {ok : Bool}
    (H : Paged U others 512 root m T leaf [] rest) (hvirt : virt < limit)
    (hsmall : leaf (leafPath virt true) = 0)
    (h : kheapExtendLoop root limit (n + 1) virt m = some (m', ok)) :
    (m' = m ∧ ok = false ∧ m.frames.freeCount = 0) ∨
      ∃ m₁ T₁ leaf₁ new f, kheapExtendLoop root limit n (add64 virt kheapPageSize) m₁ =
        some (m', ok) ∧ Paged U others 512 root m₁ T₁ leaf₁ [] (new ++ f :: rest) ∧
        (∀ x, leaf₁ (leafPath x true) = leaf (leafPath x true)) ∧
        ∀ p g, T₁ p = some g → T p = some g ∨ g ∈ new := by
  unfold kheapExtendLoop at h
  rw [if_pos hvirt] at h
  cases halloc : pmmFrames.alloc m.frames with
  | mk frames f =>
    simp only [halloc] at h
    by_cases hf : f = 0
    · rw [if_pos hf] at h
      cases h
      rcases H.held.alloc with ⟨hr, hcount⟩ | ⟨s', f', hr, H'⟩
      · cases halloc.symm.trans hr
        exact .inl ⟨rfl, rfl, hcount⟩
      · cases halloc.symm.trans hr
        exact absurd hf (H'.ne_zero List.mem_cons_self)
    · rw [if_neg hf] at h
      cases hmap :
        pagingMapPage pmmFrames ⟨m.mem, frames⟩ root virt f (pteFlagRw ||| pteFlagGlobal) false with
      | none =>
        rw [hmap] at h
        cases h
      | some m₁ =>
        rw [hmap] at h
        obtain ⟨T₁, leaf₁, new, hrest⟩ := H.mapTaken hsmall halloc hf hmap
        exact .inr ⟨m₁, T₁, leaf₁, new, f, h, hrest⟩

section
variable {limit n virt : Nat} {ok : Bool}

theorem next_stop (hstop : virt + kheapPageSize * (n + 1) = limit) (hlt : limit < 2 ^ 64) :
    virt < limit ∧ add64 virt kheapPageSize = virt + kheapPageSize ∧
      virt + kheapPageSize + kheapPageSize * n = limit := by
  have hnext : virt + kheapPageSize + kheapPageSize * n = limit := by
    rw [← hstop, Nat.mul_succ]
    omega
  have hpage : 0 < kheapPageSize := by decide
  exact ⟨by omega, add64_of_lt (by omega), hnext⟩

theorem next_small {leaf₁ : List Nat → Nat}
    (hlarge : ∀ x, leaf₁ (leafPath x true) = leaf (leafPath x true))
    (hsmall : ∀ j < n + 1, leaf (leafPath (virt + kheapPageSize * j) true) = 0) :
    ∀ j < n, leaf₁ (leafPath (virt + kheapPageSize + kheapPageSize * j) true) = 0 := by
  intro j hj
  rw [hlarge, Nat.add_assoc, Nat.add_comm kheapPageSize, ← Nat.mul_succ]
  exact hsmall (j + 1) (Nat.succ_lt_succ hj)

/-- The frames that are held stay so, and none of them becomes a table. -/
theorem kheapExtendLoop_holds (H : Paged U others 512 root m T leaf [] rest)
    (hstop : virt + kheapPageSize * n = limit) (hlt : limit < 2 ^ 64)
    (hsmall : ∀ j < n, leaf (leafPath (virt + kheapPageSize * j) true) = 0)
    (h : kheapExtendLoop root limit n virt m = some (m', ok)) :
    ∃ T' leaf' rest', Paged U others 512 root m' T' leaf' [] rest' ∧
      (∀ x, leaf' (leafPath x true) = leaf (leafPath x true)) ∧ (∀ f ∈ rest, f ∈ rest') ∧
      ∀ p f, T' p = some f → T p = some f ∨ f ∉ rest := by
  induction n generalizing m T leaf rest virt with
  | zero =>
    cases h
    exact ⟨T, leaf, rest, H, fun _ => rfl, fun _ => id, fun _ _ => .inl⟩
  | succ n ih =>
    obtain ⟨hvirt, hadd, hnext⟩ := next_stop hstop hlt
    rcases kheapExtendLoop_round H hvirt (hsmall 0 (Nat.succ_pos n)) h with
      ⟨rfl, -, -⟩ | ⟨m₁, T₁, leaf₁, new, f, h, H₁, hlarge, horigin⟩
    · exact ⟨T, leaf, rest, H, fun _ => rfl, fun _ => id, fun _ _ => .inl⟩
    rw [hadd] at h
    have hnodup : (new ++ f :: rest).Nodup := H₁.held.nodup
    obtain ⟨T', leaf', rest', H', hlarge', hsub, horigin'⟩ :=
      ih H₁ hnext (next_small hlarge hsmall) h
    refine ⟨T', leaf', rest', H', fun x => (hlarge' x).trans (hlarge x), fun g hg => hsub g ?_,
      fun p g hp => ?_⟩
    · exact List.mem_append_right _ (List.mem_cons_of_mem _ hg)
    · rcases horigin' p g hp with hp | hg
      · refine (horigin p g hp).imp_right fun hg hrest => ?_
        exact (List.nodup_append.mp hnodup).2.2 g hg g (List.mem_cons_of_mem _ hrest) rfl
      · exact .inr fun hrest => hg (List.mem_append_right _ (List.mem_cons_of_mem _ hrest))

/-- An extension that goes through takes a frame for each page. -/
theorem kheapExtendLoop_count (H : Paged U others 512 root m T leaf [] rest)
    (hstop : virt + kheapPageSize * n = limit) (hlt : limit < 2 ^ 64)
    (hsmall : ∀ j < n, leaf (leafPath (virt + kheapPageSize * j) true) = 0)
    (h : kheapExtendLoop root limit n virt m = some (m', true)) :
    m'.frames.freeCount + n ≤ m.frames.freeCount := by
  induction n generalizing m T leaf rest virt with
  | zero =>
    cases h
    exact Nat.le_refl _
  | succ n ih =>
    obtain ⟨hvirt, hadd, hnext⟩ := next_stop hstop hlt
    rcases kheapExtendLoop_round H hvirt (hsmall 0 (Nat.succ_pos n)) h with
      ⟨-, hok, -⟩ | ⟨m₁, T₁, leaf₁, new, f, h, H₁, hlarge, -⟩
    · cases hok
    rw [hadd] at h
    have hle := ih H₁ hnext (next_small hlarge hsmall) h
    have hcount := H.held.freeCount_eq
    have hcount₁ := H₁.held.freeCount_eq
    simp only [List.map_nil, List.nil_append, List.length_append,
      List.length_cons] at hcount hcount₁
    omega

/-- If there is a frame for the first page, it is no longer free in the end, and it is no table. -/
theorem kheapExtendLoop_takes (H : Paged U others 512 root m T leaf [] rest)
    (hstop : virt + kheapPageSize * (n + 1) = limit) (hlt : limit < 2 ^ 64)
    (hsmall : ∀ j < n + 1, leaf (leafPath (virt + kheapPageSize * j) true) = 0)
    (hfree : m.frames.freeCount ≠ 0)
    (h : kheapExtendLoop root limit (n + 1) virt m = some (m', ok)) :
    ∃ x ∈ m.frames.freePages, x ∉ m'.frames.freePages ∧ ¬ IsTablePage m'.mem root x := by
  obtain ⟨hvirt, hadd, hnext⟩ := next_stop hstop hlt
  rcases kheapExtendLoop_round H hvirt (hsmall 0 (Nat.succ_pos n)) h with
    ⟨-, -, hcount⟩ | ⟨m₁, T₁, leaf₁, new, f, h, H₁, hlarge, horigin⟩
  · exact absurd hcount hfree
  rw [hadd] at h
  have hnodup : (new ++ f :: rest).Nodup := H₁.held.nodup
  have hheld : PmmHolds U others m₁.frames ((new ++ [f]) ++ rest) := by
    rw [List.append_assoc]
    exact H₁.held
  obtain ⟨T', leaf', rest', H', -, hsub, horigin'⟩ :=
    kheapExtendLoop_holds H₁ hnext hlt (next_small hlarge hsmall) h
  have hf : f ∈ new ++ f :: rest := List.mem_append_right _ List.mem_cons_self
  refine ⟨f / pmmPageSize, ?_, fun hx => ?_, ?_⟩
  · rw [hheld.freePages_union H.held]
    exact .inr ⟨f, List.mem_append_right _ (List.mem_singleton_self f), rfl⟩
  · exact (H'.held.mem_freePages.mp hx).2.1 f (hsub f hf) rfl
  · rintro ⟨virt, g, hg, hpage⟩
    obtain ⟨p, hp⟩ := H'.tree.of_mem_walkTables hg
    obtain rfl : g = f := by
      have hmod := H'.held.aligned g (H'.tables hp)
      have hmod' := H'.held.aligned f (hsub f hf)
      simp only [pmmPageSize] at *
      omega
    -- the frame is held from the first round on, and it was no table then
    obtain ⟨hnew, hcons, hdisjoint⟩ := List.nodup_append.mp hnodup
    rcases horigin' p g hp with hp | hg
    · rcases horigin p g hp with hp | hg
      · exact (List.nodup_cons.mp hcons).1 (H.tables hp)
      · exact hdisjoint g hg g List.mem_cons_self rfl
    · exact hg hf

end

/-- A call that fails has a page to map, below the end of the address space. -/
theorem kheapExtend_fails {size : Nat} (hend : s.heap.kheapEnd < 2 ^ 64) (hsize : size < 2 ^ 64)
    (h : kheapExtend root s size = some (s', false)) :
    ∃ n, (∀ j < n + 1, kheapPageSize * j < size) ∧
      s.heap.kheapEnd + kheapPageSize * (n + 1) < 2 ^ 64 ∧ s'.heap = s.heap ∧
      kheapExtendLoop root (s.heap.kheapEnd + kheapPageSize * (n + 1)) (n + 1)
        s.heap.kheapEnd s.machine = some (s'.machine, false) := by
  unfold kheapExtend at h
  dsimp only at h
  have hpages : ∀ j < size / kheapPageSize + if size % kheapPageSize ≠ 0 then 1 else 0,
      kheapPageSize * j < size := by
    intro j hj
    simp only [kheapPageSize] at *
    split at hj
    · omega
    · omega
  have hmax : (size / kheapPageSize + if size % kheapPageSize ≠ 0 then 1 else 0) * kheapPageSize ≤
      2 ^ 64 := by
    simp only [kheapPageSize]
    split
    · omega
    · omega
  generalize (size / kheapPageSize + if size % kheapPageSize ≠ 0 then 1 else 0) = numPages at *
  split at h
  · cases h
  · next m hloop =>
    cases h
    cases numPages with
    | zero => cases hloop
    | succ n =>
      by_cases hlt : s.heap.kheapEnd < add64 s.heap.kheapEnd ((n + 1) * kheapPageSize % 2 ^ 64)
      · -- the sum has not wrapped, since the loop is entered
        have hlimit : add64 s.heap.kheapEnd ((n + 1) * kheapPageSize % 2 ^ 64) =
            s.heap.kheapEnd + kheapPageSize * (n + 1) ∧
            s.heap.kheapEnd + kheapPageSize * (n + 1) < 2 ^ 64 := by
          simp only [add64, addW, kheapPageSize] at *
          omega
        rw [hlimit.1] at hloop
        exact ⟨n, hpages, hlimit.2, rfl, hloop⟩
      · rw [kheapExtendLoop, if_neg hlt] at hloop
        cases hloop
  · split at h
    · cases h
    · cases h

/-- A failed extension changes nothing exactly if no page was free. -/
theorem kheapExtend_unchanged_iff {size : Nat} (H : Extendable U others root s size)
    (hsize : size < 2 ^ 64) (h : kheapExtend root s size = some (s', false)) :
    Unchanged root s s' ↔ s.machine.frames.freePages = ∅ := by
  obtain ⟨hend, T, leaf, rest, Hp, hsmall⟩ := H
  obtain ⟨n, hpages, hlt, hheap, hloop⟩ := kheapExtend_fails hend hsize h
  have hsmall : ∀ j < n + 1, leaf (leafPath (s.heap.kheapEnd + kheapPageSize * j) true) = 0 := by
    intro j hj
    refine hsmall j (hpages j hj) (Nat.lt_of_le_of_lt (Nat.add_le_add_left ?_ _) hlt)
    exact Nat.mul_le_mul_left _ (Nat.le_of_lt hj)
  rw [Pmm.freePages_eq_empty_iff]
  constructor
  · intro hsame
    by_contra hfree
    obtain ⟨x, hx, hx', htable⟩ := kheapExtendLoop_takes Hp rfl hlt hsmall hfree hloop
    exact htable (hsame.taken x hx hx')
  · intro hnone
    obtain ⟨hvirt, -, -⟩ := next_stop rfl hlt
    rcases kheapExtendLoop_round Hp hvirt (hsmall 0 (Nat.succ_pos n)) hloop with
      ⟨hm, -, -⟩ | ⟨m₁, T₁, leaf₁, new, f, -, H₁, -⟩
    · exact ⟨hheap, fun x => by rw [hm], by rw [hm], fun x hx hx' => absurd (hm ▸ hx) hx'⟩
    · have hcount := Hp.held.freeCount_eq
      have hcount₁ := H₁.held.freeCount_eq
      simp only [List.map_nil, List.nil_append, List.length_append,
        List.length_cons] at hcount hcount₁
      omega

/-! ## Reachable states -/

theorem Inv.extendable (H : Inv U others root s T leaf anon rest) (size : Nat) :
    Extendable U others root s size := by
  have Hp := H.toPaged.keep fun _ => false
  rw [List.filter_eq_nil_iff.mpr fun _ _ => by simp] at Hp
  refine ⟨H.lt, T, leaf, _, Hp, fun j _ hj =>
    H.small _ (Nat.le_trans H.le (Nat.le_add_right _ _)) hj⟩

theorem Extendable.of_sameRange {heap : Kheap} {size : Nat} (H : Extendable U others root s size)
    (h : SameRange s.heap heap) : Extendable U others root ⟨heap, s.machine⟩ size := by
  obtain ⟨hword, T, leaf, rest, Hp, hsmall⟩ := H
  refine ⟨h.2.symm ▸ hword, T, leaf, rest, Hp, ?_⟩
  simp only [h.2]
  exact hsmall

/-- An extension that stays below 2⁶⁴ leaves a heap that can be extended further. -/
theorem extendable_extend {size numPages : Nat} {ok : Bool}
    (H : ∀ size, Extendable U others root s size) (hsize : kheapPageSize * numPages = size)
    (hlt : s.heap.kheapEnd + size < 2 ^ 64) (h : kheapExtend root s size = some (s', ok)) :
    ∀ size, Extendable U others root s' size := by
  intro bytes
  obtain ⟨hloop, -, hend⟩ := kheapExtend_cases hsize (by omega) h
  rw [add64_of_lt hlt] at hloop hend
  obtain ⟨hword, T, leaf, rest, Hp, hsmall⟩ := H (size + bytes)
  have hstop : s.heap.kheapEnd + kheapPageSize * numPages = s.heap.kheapEnd + size := by rw [hsize]
  have hfirst : ∀ j < numPages, leaf (leafPath (s.heap.kheapEnd + kheapPageSize * j) true) = 0 := by
    intro j hj
    have hlt' : kheapPageSize * j < size := hsize ▸ Nat.mul_lt_mul_of_pos_left hj (by decide)
    exact hsmall j (by omega) (by omega)
  obtain ⟨T', leaf', rest', Hp', hlarge, -, -⟩ := kheapExtendLoop_holds Hp hstop hlt hfirst hloop
  refine ⟨?_, T', leaf', rest', Hp', fun j hj hj' => ?_⟩
  · rw [hend]
    split
    · exact hlt
    · exact hword
  · rw [hlarge]
    cases ok with
    | false =>
      rw [if_neg (by decide)] at hend
      rw [hend] at hj' ⊢
      exact hsmall j (by omega) hj'
    | true =>
      have hnext : s'.heap.kheapEnd + kheapPageSize * j =
          s.heap.kheapEnd + kheapPageSize * (numPages + j) := by
        rw [hend, if_pos rfl, Nat.mul_add, hsize, Nat.add_assoc]
      rw [hnext] at hj' ⊢
      refine hsmall _ ?_ hj'
      rw [Nat.mul_add, hsize]
      exact Nat.add_lt_add_left hj _

/-- What the rest of the kernel leaves is a machine on which the heap can be extended. -/
def Live.KeepsTables (U : Set Nat) (others : List Block) (root : Nat) (s : Live) : HeapEvent → Prop
  | .op _ => True
  | .others m => ∀ size, Extendable U others root ⟨s.sys.heap, m⟩ size

theorem extendable_event {s s' : Live} {e : HeapEvent}
    (H : ∀ size, Extendable U others root s.sys size) (hwrap : s.NoWrap e)
    (hothers : s.KeepsTables U others root e) (h : s.event root e = some s') :
    ∀ size, Extendable U others root s'.sys size := by
  rcases e with (size | ptr) | m
  · obtain ⟨-, h⟩ := Option.ite_none_right_eq_some.mp h
    obtain ⟨⟨t, ptr⟩, hround, rfl⟩ := Option.map_eq_some_iff.mp h
    rcases kmallocRound_cases hround with ⟨current, -, rfl, -⟩ | ⟨hs, ok, he, -⟩
    · exact fun size => (H size).of_sameRange (kmallocTake_sameRange ..)
    · exact extendable_extend H kheapExtendingAmount_eq (hwrap hs) he
  · obtain ⟨-, h⟩ := Option.ite_none_right_eq_some.mp h
    obtain ⟨heap, hfree, rfl⟩ := Option.map_eq_some_iff.mp h
    exact fun size => (H size).of_sameRange (kfree_sameRange hfree)
  · cases h
    exact hothers

/-- An extension that fails changes nothing exactly if no page was free. -/
def FailsUnchangedIff (root : Nat) (s : HeapMachine) : Prop :=
  ∀ size s', size < 2 ^ 64 → kheapExtend root s size = some (s', false) →
    (Unchanged root s s' ↔ s.machine.frames.freePages = ∅)

theorem failsUnchangedIff (H : ∀ size, Extendable U others root s size) :
    FailsUnchangedIff root s :=
  fun size _ hsize h => kheapExtend_unchanged_iff (H size) hsize h

/-- A failed extension changes nothing exactly if no page was free: before `kheap_init`, and in
every state that it, the rounds of `kmalloc`, calls of `kfree` and the rest of the kernel lead to,
as long as no extension goes past the end of the address space and the heap can be extended in the
sense above. -/
theorem heapRun_failsUnchangedIff {kernelEnd : Nat} {events : List HeapEvent}
    (H : ∀ size, Extendable U others root (empty (kheapStartOf kernelEnd) m) size)
    (h : kheapInit root kernelEnd m = some s)
    (hstart : kheapStartOf kernelEnd + kheapStartingSize < 2 ^ 64)
    (hsteps : AllSteps (Live.event root) Live.NoWrap ⟨s, []⟩ events)
    (hothers : AllSteps (Live.event root) (Live.KeepsTables U others root) ⟨s, []⟩ events) :
    FailsUnchangedIff root (empty (kheapStartOf kernelEnd) m) ∧
      Along (Live.event root) (fun t => FailsUnchangedIff root t.sys) ⟨s, []⟩ events := by
  obtain ⟨⟨t, ok⟩, hext, rfl⟩ := Option.map_eq_some_iff.mp h
  clear h
  generalize kheapStartOf kernelEnd = start at *
  have H₁ := extendable_extend H kheapStartingSize_eq hstart hext
  have hrun : Along (Live.event root) (fun t => ∀ size, Extendable U others root t.sys size)
      ⟨t, []⟩ events :=
    Along.of_allSteps (fun t e t' Ht hq ht => extendable_event Ht hq.1 hq.2 ht) H₁
      (hsteps.and hothers)
  exact ⟨failsUnchangedIff H, hrun.imp fun t Ht => failsUnchangedIff Ht⟩

/-! ## A machine with too little memory for the first extension -/

/-- The heap of a machine with 23 usable pages, before `kheap_init` extends it. -/
def tinyHeap : HeapMachine := empty 0xffffffff80300000 (smallVmm .kernel).machine

theorem tinyHeap_inv : ∃ T leaf rest,
    Inv (pmmInitPages smallMemmap) [] (smallVmm .kernel).root tinyHeap T leaf [] rest := by
  have H := smallVmm_start .kernel
  obtain ⟨T, leaf, htree, hT⟩ := H.tree
  refine ⟨T, leaf, _, inv_empty ⟨htree, H.frames, hT, nofun⟩ (by decide) (by decide) (by decide)
    fun x _ _ => ?_⟩
  exact pageWalk_zero _ x

/-- The call maps pages before it fails, and then there is no free page left. -/
theorem tinyHeap_eval :
    ((kheapExtend (smallVmm .kernel).root tinyHeap kheapStartingSize).bind fun (s, ok) =>
      (kheapExtend (smallVmm .kernel).root s kheapStartingSize).map fun (_, ok') =>
        (ok, (pageWalk s.machine.mem (smallVmm .kernel).root 0xffffffff80300000).isSome,
          s.machine.frames.freeCount, ok')) = some (false, true, 0, false) := by
  decide +kernel

theorem tinyHeap_fails :
    ∃ s s', kheapExtend (smallVmm .kernel).root tinyHeap kheapStartingSize = some (s, false) ∧
    (pageWalk s.machine.mem (smallVmm .kernel).root 0xffffffff80300000).isSome = true ∧
    s.machine.frames.freeCount = 0 ∧
    kheapExtend (smallVmm .kernel).root s kheapStartingSize = some (s', false) := by
  obtain ⟨⟨s, ok⟩, hext, h⟩ := Option.bind_eq_some_iff.mp tinyHeap_eval
  obtain ⟨⟨s', ok'⟩, hext', heq⟩ := Option.map_eq_some_iff.mp h
  simp only [Prod.mk.injEq] at heq
  obtain ⟨rfl, hwalk, hcount, rfl⟩ := heq
  exact ⟨s, s', hext, hwalk, hcount, hext'⟩

/-- The extension that `kheap_init` makes fails and leaves pages mapped. -/
theorem kheapExtend_leavesPages :
    Extendable (pmmInitPages smallMemmap) [] (smallVmm .kernel).root tinyHeap kheapStartingSize ∧
      ∃ s, kheapExtend (smallVmm .kernel).root tinyHeap kheapStartingSize = some (s, false) ∧
        ¬ Unchanged (smallVmm .kernel).root tinyHeap s := by
  obtain ⟨T, leaf, rest, H⟩ := tinyHeap_inv
  obtain ⟨s, -, hext, hwalk, -⟩ := tinyHeap_fails
  refine ⟨H.extendable _, s, hext, fun hsame => ?_⟩
  have hbefore : pageWalk tinyHeap.machine.mem (smallVmm .kernel).root 0xffffffff80300000 = none :=
    pageWalk_zero _ _
  rw [hsame.walk, hbefore] at hwalk
  cases hwalk

/-- The next extension finds no free page, and changes nothing. -/
theorem heapRun_failsUnchangedIff_exhausted :
    ∃ s s', kheapInit (smallVmm .kernel).root 0xffffffff80200000 (smallVmm .kernel).machine =
      some s ∧ kheapExtend (smallVmm .kernel).root s kheapStartingSize = some (s', false) ∧
      Unchanged (smallVmm .kernel).root s s' := by
  obtain ⟨T, leaf, rest, H⟩ := tinyHeap_inv
  obtain ⟨s, s', hext, -, hcount, hext'⟩ := tinyHeap_fails
  have hstart : kheapStartOf 0xffffffff80200000 = 0xffffffff80300000 := by decide
  have hinit : kheapInit (smallVmm .kernel).root 0xffffffff80200000 (smallVmm .kernel).machine =
      some s := by
    have hempty : empty 0xffffffff80300000 (smallVmm .kernel).machine = tinyHeap := rfl
    rw [kheapInit, hstart, hempty, hext]
    rfl
  have hall : ∀ size, Extendable (pmmInitPages smallMemmap) [] (smallVmm .kernel).root
      (empty (kheapStartOf 0xffffffff80200000) (smallVmm .kernel).machine) size := by
    rw [hstart]
    exact H.extendable
  have hsteps : AllSteps (Live.event (smallVmm .kernel).root) Live.NoWrap ⟨s, []⟩ [] := trivial
  have hrun := heapRun_failsUnchangedIff hall hinit (by decide) hsteps trivial
  refine ⟨s, s', hinit, hext', (hrun.2 kheapStartingSize s' (by decide) hext').mpr ?_⟩
  exact (Pmm.freePages_eq_empty_iff _).mpr hcount

end HeapMachine

end Plos
