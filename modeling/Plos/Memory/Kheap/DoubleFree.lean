import Plos.Memory.Kheap.Tiling

/-! A pointer that is freed twice.

`kfree` looks at the header of the pointer, which may have been merged into the one before it. The
pass that merges writes the sizes and the links of the headers that stay on the list, and never
takes back that a node is free. So the header of a freed pointer says that it is free until
`kmalloc` writes it again. -/

namespace Plos

theorem kheapCoalesce_isFree {n current : Nat} {s s' : Kheap}
    (h : kheapCoalesce n s current = some s') (x : Nat) :
    (s'.node x).isFree = (s.node x).isFree := by
  induction n generalizing s current with
  | zero => cases h
  | succ n ih =>
    unfold kheapCoalesce at h
    split at h
    · cases h
      rfl
    · dsimp only at h
      split at h
      · rw [ih h]
        by_cases hx : x = current
        · subst hx
          simp only [Kheap.setNode_self]
        · simp only [Kheap.setNode_of_ne hx]
      · exact ih h

section
variable {s s' : Kheap} {ptr : Nat}

/-- What is free stays free. -/
theorem kfree_isFree {x : Nat} (h : kfree s ptr = some s') (hx : (s.node x).isFree = true) :
    (s'.node x).isFree = true := by
  unfold kfree at h
  split at h
  · cases h
    exact hx
  · dsimp only at h
    split at h
    · cases h
      exact hx
    · rw [kheapCoalesce_isFree h]
      by_cases hnode : x = sub64 ptr kheapNodeSize
      · rw [hnode, Kheap.setNode_self]
      · rw [Kheap.setNode_of_ne hnode]
        exact hx

/-- The node of the pointer is free afterwards, whether it was before or not. -/
theorem kfree_frees (h : kfree s ptr = some s') (hptr : ptr ≠ 0) :
    (s'.node (sub64 ptr kheapNodeSize)).isFree = true := by
  unfold kfree at h
  rw [if_neg hptr] at h
  dsimp only at h
  split at h
  · next hfree =>
    cases h
    exact hfree
  · rw [kheapCoalesce_isFree h, Kheap.setNode_self]

theorem kfree_of_free (hfree : (s.node (sub64 ptr kheapNodeSize)).isFree = true) :
    kfree s ptr = some s := by
  unfold kfree
  split
  · rfl
  · exact if_pos hfree

end

namespace HeapMachine

/-- The calls of `kfree` with the pointers of a list. -/
def frees (ptrs : List Nat) : List HeapEvent := ptrs.map fun p => .op (.kfree p)

section
variable {root : Nat} {s t : Live}

theorem frees_cons {p : Nat} {ptrs : List Nat}
    (h : runFrom (Live.event root) s (frees (p :: ptrs)) = some t) :
    ∃ heap, kfree s.sys.heap p = some heap ∧
      runFrom (Live.event root) ⟨⟨heap, s.sys.machine⟩, s.live.erase p⟩ (frees ptrs) = some t := by
  obtain ⟨s', hstep, hrest⟩ := runFrom_cons.mp h
  obtain ⟨-, hstep⟩ := Option.ite_none_right_eq_some.mp hstep
  obtain ⟨heap, hfree, rfl⟩ := Option.map_eq_some_iff.mp hstep
  exact ⟨heap, hfree, hrest⟩

theorem frees_isFree {ptrs : List Nat} {x : Nat}
    (h : runFrom (Live.event root) s (frees ptrs) = some t)
    (hx : (s.sys.heap.node x).isFree = true) : (t.sys.heap.node x).isFree = true := by
  induction ptrs generalizing s with
  | nil =>
    cases h
    exact hx
  | cons q ptrs ih =>
    obtain ⟨heap, hfree, hrest⟩ := frees_cons h
    exact ih hrest (kfree_isFree hfree hx)

/-- A second `kfree` of a pointer changes nothing, whatever has been freed in between. -/
theorem kfree_twice {p : Nat} {ptrs : List Nat}
    (h : runFrom (Live.event root) s (frees (p :: ptrs)) = some t) :
    kfree t.sys.heap p = some t.sys.heap := by
  obtain ⟨heap, hfree, hrest⟩ := frees_cons h
  by_cases hp : p = 0
  · rw [hp]
    rfl
  · exact kfree_of_free (frees_isFree hrest (kfree_frees hfree hp))

/-- Calls with live pointers, each of them once, return. -/
theorem frees_return {l : List Chunk} {ptrs : List Nat} (H : KheapRow s.row l)
    (hnodup : ptrs.Nodup) (hlive : ∀ q ∈ ptrs, q ∈ s.live) :
    ∃ t, runFrom (Live.event root) s (frees ptrs) = some t := by
  induction ptrs generalizing s l with
  | nil => exact ⟨s, rfl⟩
  | cons q ptrs ih =>
    obtain ⟨hq, hptrs⟩ := List.forall_mem_cons.mp hlive
    obtain ⟨hnot, hnodup⟩ := List.nodup_cons.mp hnodup
    rcases H with ⟨-, E⟩ | H
    · have hnone : s.live = [] := E.live
      rw [hnone] at hq
      cases hq
    obtain ⟨heap, l', hstep, H'⟩ := @Live.kfree_step root s l q H hq
    have hrest : ∀ p ∈ ptrs, p ∈ s.live.erase q := by
      intro p hp
      have hne : p ≠ q := fun h => hnot (h ▸ hp)
      exact (List.mem_erase_of_ne hne).mpr (hptrs p hp)
    obtain ⟨t, ht⟩ := @ih ⟨⟨heap, s.sys.machine⟩, s.live.erase q⟩ l' (.nodes H') hnodup hrest
    exact ⟨t, runFrom_cons.mpr ⟨_, hstep, ht⟩⟩

end

/-- In every state that `kheap_init`, the rounds of `kmalloc`, calls of `kfree` with live pointers
and the rest of the kernel lead to, if a live pointer is freed and then others are, a second `kfree`
of the first one leaves the heap as it is. As long as no extension goes past the end of the address
space, such calls return. -/
theorem heapRun_doubleFree {root kernelEnd : Nat} {m : Machine Pmm} {s : HeapMachine}
    {events : List HeapEvent} (h : kheapInit root kernelEnd m = some s) :
    (∀ t p ptrs u, runFrom (Live.event root) ⟨s, []⟩ events = some t → p ∈ t.live →
      runFrom (Live.event root) t (frees (p :: ptrs)) = some u →
        kfree u.sys.heap p = some u.sys.heap) ∧
    (0 < kheapStartOf kernelEnd → kheapStartOf kernelEnd + kheapStartingSize < 2 ^ 64 →
      AllSteps (Live.event root) Live.NoWrap ⟨s, []⟩ events →
      Along (Live.event root) (fun t => ∀ p ptrs, (p :: ptrs).Nodup →
        (∀ q ∈ p :: ptrs, q ∈ t.live) →
        ∃ u, runFrom (Live.event root) t (frees (p :: ptrs)) = some u ∧
          kfree u.sys.heap p = some u.sys.heap) ⟨s, []⟩ events) := by
  refine ⟨fun t p ptrs u _ _ hu => kfree_twice hu, fun hpos hlt hsteps => ?_⟩
  refine (heapRun_row h hpos hlt hsteps).imp fun t ⟨l, H⟩ p ptrs hnodup hlive => ?_
  obtain ⟨u, hu⟩ := @frees_return root _ _ _ H hnodup hlive
  exact ⟨u, hu, kfree_twice hu⟩

theorem heapRun_doubleFree_tightHeap : ∃ root m s, Booted tightMemmap root m ∧
    kheapInit root 0xffffffff80200000 m = some s ∧
    (runFrom (Live.event root) ⟨s, []⟩ threeAllocations).isSome = true ∧
    Along (Live.event root) (fun t => ∀ p ptrs, (p :: ptrs).Nodup →
      (∀ q ∈ p :: ptrs, q ∈ t.live) →
      ∃ u, runFrom (Live.event root) t (frees (p :: ptrs)) = some u ∧
        kfree u.sys.heap p = some u.sys.heap) ⟨s, []⟩ threeAllocations := by
  obtain ⟨root, m, s, H⟩ := exists_tightHeap
  exact ⟨root, m, s, H.booted, H.init, H.runs,
    (heapRun_doubleFree H.init).2 (by decide) (by decide) H.noWrap⟩

end HeapMachine

end Plos
