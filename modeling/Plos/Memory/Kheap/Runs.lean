import Plos.Lib.Run
import Plos.Memory.Kheap.Represent

/-! Runs of `kmalloc` and `kfree` from `kheap_init` on, and the row of chunks behind the node list.

`KheapInv s l` says that the heap is the row of chunks `l`. Extending, taking and freeing change the
row at one place, and the invariant follows from what that place becomes. The pointers that have
been handed out and not been freed are recorded in `live`.

The steps of a run are the rounds of the loop in `kmalloc`, so that the states between two
extensions of one call are states of the run. The row does not depend on the frames and the tables,
which the rest of the kernel may change between two steps. -/

namespace Plos

/-- A heap and its live pointers. -/
structure KheapSys where
  heap : Kheap
  live : List Nat

structure KheapInv (s : KheapSys) (l : List Chunk) : Prop where
  head : s.heap.kheapHead = s.heap.kheapStart
  pos : 0 < s.heap.kheapStart
  rep : Rep s.heap.node s.heap.kheapStart l
  limit : s.heap.kheapEnd = s.heap.kheapStart + extent kheapNodeSize l
  lt : s.heap.kheapEnd < 2 ^ 64
  aligned : s.heap.kheapStart % 8 = 0
  sizes : ∀ b ∈ l, b.size % 8 = 0
  merged : Merged l
  live : s.live.Perm ((usedAddrs kheapNodeSize s.heap.kheapStart l).map (· + kheapNodeSize))
  made : l.length ≤ s.heap.made

/-- No extension has gone through yet. -/
structure KheapEmpty (s : KheapSys) : Prop where
  head : s.heap.kheapHead = 0
  pos : 0 < s.heap.kheapStart
  limit : s.heap.kheapEnd = s.heap.kheapStart
  lt : s.heap.kheapEnd < 2 ^ 64
  aligned : s.heap.kheapStart % 8 = 0
  live : s.live = []

/-- The heap is the row `l`, of which there is none before the first extension has gone through. -/
inductive KheapRow (s : KheapSys) (l : List Chunk) : Prop
  | empty : l = [] → KheapEmpty s → KheapRow s l
  | nodes : KheapInv s l → KheapRow s l

/-! ## The row -/

theorem grown_eq_snoc (b : Chunk) (bytes : Nat) :
    ∃ l d, grown b bytes = l ++ [d] ∧ d.free = true := by
  unfold grown
  split
  · exact ⟨[], _, rfl, rfl⟩
  · exact ⟨[b], _, rfl, rfl⟩

namespace KheapInv

variable {s : KheapSys} {l l₁ l₂ : List Chunk} {b c : Chunk}

/-- A heap of one free chunk. -/
theorem single {node : Nat → KheapNode} {start bytes made : Nat} (hpos : 0 < start)
    (hstart : start % 8 = 0) (hnode : kheapNodeSize ≤ bytes) (hbytes : bytes % 8 = 0)
    (hlt : start + bytes < 2 ^ 64) :
    KheapInv ⟨⟨Function.update node start ⟨bytes - kheapNodeSize, true, 0⟩, start, start + bytes,
      start, made + 1⟩, []⟩ [⟨bytes - kheapNodeSize, true⟩] := by
  have hextent : extent kheapNodeSize [⟨bytes - kheapNodeSize, true⟩] = bytes := by
    rw [extent_cons, extent_nil, Chunk.span, Nat.add_zero, Nat.add_sub_of_le hnode]
  refine ⟨rfl, hpos, Function.update_self .., congrArg (start + ·) hextent.symm, hlt, hstart,
    fun b hb => ?_, List.isChain_singleton _, List.Perm.refl _, Nat.le_add_left _ _⟩
  rw [List.mem_singleton.mp hb]
  simp only [kheapNodeSize] at hnode ⊢
  omega

theorem eq_snoc (H : KheapInv s l) : ∃ l₀ b, l = l₀ ++ [b] := by
  cases l using List.reverseRec with
  | nil => exact H.rep.elim
  | append_singleton l₀ b => exact ⟨l₀, b, rfl⟩

theorem last_eq (H : KheapInv s (l ++ [b])) :
    kheapLast s.heap.node (s.heap.made + 1) s.heap.kheapHead =
      some (s.heap.kheapStart + extent kheapNodeSize l) := by
  have hmade := H.made
  rw [List.length_append, List.length_singleton] at hmade
  rw [H.head]
  exact kheapLast_eq H.rep H.pos (Nat.lt_succ_of_le (Nat.le_of_succ_le hmade))

/-- The heap grows at its end. -/
theorem grow (H : KheapInv s (l ++ [b])) {bytes : Nat} (hbytes : kheapNodeSize ≤ bytes)
    (hmod : bytes % 8 = 0) (hlt : s.heap.kheapEnd + bytes < 2 ^ 64) :
    KheapInv ⟨kheapGrow s.heap (s.heap.kheapStart + extent kheapNodeSize l) bytes, s.live⟩
        (l ++ grown b bytes) ∧
      (kheapGrow s.heap (s.heap.kheapStart + extent kheapNodeSize l) bytes).kheapEnd =
        s.heap.kheapEnd + bytes := by
  obtain ⟨node', made', hgrow, hrep, hmade⟩ := kheapGrow_rep H.rep H.pos H.limit hbytes hlt
  rw [hgrow]
  refine ⟨?_, rfl⟩
  have hlimit := H.limit
  have hlive := H.live
  have hlen := H.made
  rw [extent_append, extent_cons, extent_nil] at hlimit
  rw [usedAddrs_append] at hlive
  rw [List.length_append, List.length_singleton] at hlen
  have hlast := H.sizes b (List.mem_append_right _ (List.mem_singleton_self b))
  refine ⟨H.head, H.pos, hrep, ?_, hlt, H.aligned, fun c hc => ?_, ?_, ?_, ?_⟩
  · rw [extent_append, extent_grown hbytes]
    simp only
    omega
  · rcases List.mem_append.mp hc with hc | hc
    · exact H.sizes c (List.mem_append_left _ hc)
    · unfold grown at hc
      split at hc
      · rw [List.mem_singleton.mp hc]
        simp only
        omega
      · rcases List.mem_cons.mp hc with rfl | hc
        · exact hlast
        · rw [List.mem_singleton.mp hc]
          simp only [kheapNodeSize]
          omega
  · unfold grown
    split
    · next hfree =>
      have := H.merged.splice hfree (List.isChain_singleton ⟨b.size + bytes, true⟩)
      rwa [List.append_nil] at this
    · next hfree => exact H.merged.snoc (by simpa using hfree)
  · rw [usedAddrs_append]
    refine hlive.trans (.of_eq ?_)
    unfold grown
    split
    · next hfree => simp only [usedAddrs, hfree, if_true]
    · next hfree => simp only [usedAddrs, hfree, if_true]
  · rw [List.length_append]
    simp only
    omega

/-- A chunk is taken from the row, and its payload is a new live pointer. -/
theorem take (H : KheapInv s (l₁ ++ c :: l₂)) {size : Nat} (hfree : c.free = true)
    (hsize : size ≤ c.size) (hmod : size % 8 = 0) :
    KheapInv ⟨kmallocTake s.heap (s.heap.kheapStart + extent kheapNodeSize l₁) size,
        (s.heap.kheapStart + extent kheapNodeSize l₁ + kheapNodeSize) :: s.live⟩
      (l₁ ++ (taken c size ++ l₂)) := by
  have hlt := H.lt
  rw [H.limit] at hlt
  obtain ⟨node', made', htake, hrep, hmade⟩ := kmallocTake_rep H.rep hlt hfree hsize
  rw [htake]
  have hlimit := H.limit
  have hlive := H.live
  have hlen := H.made
  have hc := H.sizes c (List.mem_append_right _ List.mem_cons_self)
  rw [extent_append, extent_cons] at hlimit
  rw [usedAddrs_append, usedAddrs, if_pos hfree] at hlive
  rw [List.length_append, List.length_cons] at hlen
  refine ⟨H.head, H.pos, hrep, ?_, H.lt, H.aligned, fun d hd => ?_, ?_, ?_, ?_⟩
  · rw [extent_append, extent_append, extent_taken hsize]
    exact hlimit
  · rcases List.mem_append.mp hd with hd | hd
    · exact H.sizes d (List.mem_append_left _ hd)
    · rcases List.mem_append.mp hd with hd | hd
      · unfold taken at hd
        split at hd
        · simp only [List.mem_cons, List.not_mem_nil, or_false] at hd
          rcases hd with rfl | rfl
          · exact hmod
          · simp only [kheapNodeSize]
            omega
        · rw [List.mem_singleton.mp hd]
          exact hc
      · exact H.sizes d (List.mem_append_right _ (List.mem_cons_of_mem _ hd))
  · refine H.merged.splice hfree ?_
    unfold taken
    split
    · exact List.isChain_cons_cons.mpr ⟨by simp, List.isChain_singleton _⟩
    · exact List.isChain_singleton _
  · have hused : usedAddrs kheapNodeSize (s.heap.kheapStart + extent kheapNodeSize l₁)
        (taken c size ++ l₂) = (s.heap.kheapStart + extent kheapNodeSize l₁) ::
          usedAddrs kheapNodeSize
            (s.heap.kheapStart + extent kheapNodeSize l₁ + c.span kheapNodeSize) l₂ := by
      rw [usedAddrs_append, extent_taken hsize]
      unfold taken
      split <;> rfl
    rw [usedAddrs_append, hused, List.map_append, List.map_cons]
    refine .trans (.cons _ hlive) ?_
    rw [List.map_append]
    exact List.perm_middle.symm
  · rw [List.length_append, List.length_append]
    simp only
    omega

/-- A live pointer is the payload of a used chunk. -/
theorem exists_of_live (H : KheapInv s l) {ptr : Nat} (hptr : ptr ∈ s.live) :
    ∃ l₁ c l₂, l = l₁ ++ c :: l₂ ∧ c.free = false ∧
      ptr = s.heap.kheapStart + extent kheapNodeSize l₁ + kheapNodeSize := by
  obtain ⟨x, hx, rfl⟩ := List.mem_map.mp (H.live.subset hptr)
  obtain ⟨l₁, c, l₂, rfl, hc, rfl⟩ := exists_of_mem_usedAddrs hx
  exact ⟨l₁, c, l₂, rfl, hc, rfl⟩

/-- A used chunk becomes free, and the pass over the whole row merges it with its neighbours. -/
theorem kfree (H : KheapInv s (l₁ ++ c :: l₂)) (hused : c.free = false) :
    ∃ heap, kfree s.heap (s.heap.kheapStart + extent kheapNodeSize l₁ + kheapNodeSize) = some heap ∧
      KheapInv ⟨heap, s.live.erase (s.heap.kheapStart + extent kheapNodeSize l₁ + kheapNodeSize)⟩
        (mergeAll kheapNodeSize (l₁ ++ ⟨c.size, true⟩ :: l₂)) := by
  have hlt := H.lt
  rw [H.limit] at hlt
  obtain ⟨node', hfree, hrep⟩ := kfree_rep H.rep H.pos H.head hlt hused H.made
  have hlive := H.live
  rw [usedAddrs_append, usedAddrs, if_neg (by simp [hused]), List.map_append,
    List.map_cons] at hlive
  refine ⟨_, hfree, H.head, H.pos, hrep, ?_, H.lt, H.aligned, ?_, merged_mergeAll, ?_, ?_⟩
  · rw [extent_mergeAll]
    refine H.limit.trans ?_
    rw [extent_append, extent_append]
    rfl
  · refine size_mod_mergeAll rfl fun d hd => ?_
    rcases List.mem_append.mp hd with hd | hd
    · exact H.sizes d (List.mem_append_left _ hd)
    · rcases List.mem_cons.mp hd with rfl | hd
      · exact H.sizes c (List.mem_append_right _ List.mem_cons_self)
      · exact H.sizes d (List.mem_append_right _ (List.mem_cons_of_mem _ hd))
  · rw [usedAddrs_mergeAll, usedAddrs_append, usedAddrs, if_pos rfl, List.map_append]
    have := (hlive.trans List.perm_middle).erase
      (s.heap.kheapStart + extent kheapNodeSize l₁ + kheapNodeSize)
    rwa [List.erase_cons_head] at this
  · refine length_mergeAll_le.trans ?_
    have := H.made
    simpa using this


/-- The search of `kmalloc` on the row. -/
theorem search (H : KheapInv s l) (size : Nat) :
    (∃ l₁ c l₂, l = l₁ ++ c :: l₂ ∧ c.free = true ∧ size ≤ c.size ∧
        (∀ d ∈ l₁, ¬ (d.free = true ∧ size ≤ d.size)) ∧
        kmallocSearch s.heap.node size (s.heap.made + 1) s.heap.kheapHead =
          some (some (s.heap.kheapStart + extent kheapNodeSize l₁))) ∨
      (∀ d ∈ l, ¬ (d.free = true ∧ size ≤ d.size)) ∧
        kmallocSearch s.heap.node size (s.heap.made + 1) s.heap.kheapHead = some none := by
  rw [H.head]
  exact kmallocSearch_eq size H.rep H.pos (Nat.lt_succ_of_le H.made)

/-- The pointer to the payload of a chunk. -/
theorem ptr_eq (H : KheapInv s (l₁ ++ c :: l₂)) :
    add64 (s.heap.kheapStart + extent kheapNodeSize l₁) kheapNodeSize =
      s.heap.kheapStart + extent kheapNodeSize l₁ + kheapNodeSize := by
  have := H.lt
  rw [H.limit, extent_append, extent_cons, Chunk.span] at this
  exact add64_of_lt (by omega)

end KheapInv

namespace KheapEmpty

variable {s : KheapSys}

theorem last_eq (E : KheapEmpty s) :
    kheapLast s.heap.node (s.heap.made + 1) s.heap.kheapHead = some 0 := by
  rw [kheapLast, E.head, if_pos (.inl rfl)]

theorem search_eq (E : KheapEmpty s) (size : Nat) :
    kmallocSearch s.heap.node size (s.heap.made + 1) s.heap.kheapHead = some none := by
  rw [kmallocSearch, E.head, if_pos rfl]

/-- The first extension that goes through makes the first node. -/
theorem grow (E : KheapEmpty s) {bytes : Nat} (hbytes : kheapNodeSize ≤ bytes)
    (hmod : bytes % 8 = 0) (hlt : s.heap.kheapEnd + bytes < 2 ^ 64) :
    KheapInv ⟨kheapGrow s.heap 0 bytes, s.live⟩ [⟨bytes - kheapNodeSize, true⟩] := by
  have hstart : s.heap.kheapStart + bytes < 2 ^ 64 := E.limit ▸ hlt
  rw [kheapGrow_zero, E.limit, E.live, add64_of_lt hstart, sub64_of_le (by omega) hbytes]
  exact .single E.pos E.aligned hbytes hmod hstart

end KheapEmpty

namespace KheapRow

variable {s : KheapSys} {l l₁ l₂ : List Chunk} {c : Chunk}

theorem inv (H : KheapRow s (l₁ ++ c :: l₂)) : KheapInv s (l₁ ++ c :: l₂) := by
  rcases H with ⟨h, -⟩ | H
  · simp at h
  · exact H

theorem search (H : KheapRow s l) (size : Nat) :
    (∃ l₁ c l₂, l = l₁ ++ c :: l₂ ∧ c.free = true ∧ size ≤ c.size ∧
        (∀ d ∈ l₁, ¬ (d.free = true ∧ size ≤ d.size)) ∧
        kmallocSearch s.heap.node size (s.heap.made + 1) s.heap.kheapHead =
          some (some (s.heap.kheapStart + extent kheapNodeSize l₁))) ∨
      (∀ d ∈ l, ¬ (d.free = true ∧ size ≤ d.size)) ∧
        kmallocSearch s.heap.node size (s.heap.made + 1) s.heap.kheapHead = some none := by
  rcases H with ⟨rfl, E⟩ | H
  · exact .inr ⟨fun d hd => absurd hd List.not_mem_nil, E.search_eq size⟩
  · exact H.search size

/-- An extension that goes through leaves a row that ends with a free chunk. -/
theorem grow (H : KheapRow s l) : ∃ current,
    kheapLast s.heap.node (s.heap.made + 1) s.heap.kheapHead = some current ∧
      ∀ bytes, kheapNodeSize ≤ bytes → bytes % 8 = 0 → s.heap.kheapEnd + bytes < 2 ^ 64 →
        ∃ l' d, KheapInv ⟨kheapGrow s.heap current bytes, s.live⟩ (l' ++ [d]) ∧ d.free = true := by
  rcases H with ⟨rfl, E⟩ | H
  · exact ⟨0, E.last_eq, fun bytes hbytes hmod hlt => ⟨[], _, E.grow hbytes hmod hlt, rfl⟩⟩
  · obtain ⟨l, b, rfl⟩ := H.eq_snoc
    refine ⟨_, H.last_eq, fun bytes hbytes hmod hlt => ?_⟩
    obtain ⟨l', d, hgrown, hd⟩ := grown_eq_snoc b bytes
    have H' := (H.grow hbytes hmod hlt).1
    rw [hgrown, ← List.append_assoc] at H'
    exact ⟨_, d, H', hd⟩

end KheapRow

theorem kheapStartOf_page (kernelEnd : Nat) :
    kheapStartOf kernelEnd < 2 ^ 64 ∧ kheapStartOf kernelEnd % kheapPageSize = 0 := by
  have hlt : add64 kernelEnd 0x100000 < 2 ^ 64 := Nat.mod_lt _ (by decide)
  unfold kheapStartOf
  generalize add64 kernelEnd 0x100000 = start at hlt
  simp only [kheapPageSize, add64, addW]
  split
  · omega
  · omega

theorem blockAlignUp_mod (size : Nat) : blockAlignUp size % 8 = 0 := by
  simp only [blockAlignUp, kheapBlockSize, add64, addW]
  split
  · omega
  · omega

/-! ## Extensions -/

theorem kheapStartingSize_eq : kheapPageSize * 256 = kheapStartingSize := rfl

theorem kheapExtendingAmount_eq : kheapPageSize * 256 = kheapExtendingAmount := rfl

@[simp] theorem kheapGrow_kheapStart (s : Kheap) (current bytes : Nat) :
    (kheapGrow s current bytes).kheapStart = s.kheapStart := by
  simp only [kheapGrow, Kheap.setNode]
  split
  · split <;> rfl
  · rfl

@[simp] theorem kheapGrow_kheapEnd (s : Kheap) (current bytes : Nat) :
    (kheapGrow s current bytes).kheapEnd = add64 s.kheapEnd bytes := by
  simp only [kheapGrow, Kheap.setNode]
  split
  · split <;> rfl
  · rfl

/-- Two heaps with the same range. -/
def SameRange (s s' : Kheap) : Prop := s'.kheapStart = s.kheapStart ∧ s'.kheapEnd = s.kheapEnd

theorem kmallocTake_sameRange (s : Kheap) (current size : Nat) :
    SameRange s (kmallocTake s current size) := by
  simp only [kmallocTake, Kheap.setNode]
  split
  · exact ⟨rfl, rfl⟩
  · exact ⟨rfl, rfl⟩

theorem kheapCoalesce_sameRange {n current : Nat} {s s' : Kheap}
    (h : kheapCoalesce n s current = some s') : SameRange s s' := by
  induction n generalizing s current with
  | zero => cases h
  | succ n ih =>
    unfold kheapCoalesce at h
    split at h
    · cases h
      exact ⟨rfl, rfl⟩
    · dsimp only at h
      split at h
      · have hrange := ih h
        exact hrange
      · exact ih h

theorem kfree_sameRange {ptr : Nat} {s s' : Kheap} (h : kfree s ptr = some s') :
    SameRange s s' := by
  unfold kfree at h
  split at h
  · cases h
    exact ⟨rfl, rfl⟩
  · dsimp only at h
    split at h
    · cases h
      exact ⟨rfl, rfl⟩
    · have hrange := kheapCoalesce_sameRange h
      exact hrange

inductive HeapOp where
  /-- a round of the outer loop of `kmalloc(size)` -/
  | kmalloc (size : Nat)
  | kfree (ptr : Nat)

namespace HeapMachine

section
variable {root size numPages : Nat} {s s' : HeapMachine} {ok : Bool}

/-- The extension by a whole number of pages. -/
theorem kheapExtend_eq (hsize : kheapPageSize * numPages = size) (hlt : size < 2 ^ 64) :
    kheapExtend root s size =
      (kheapExtendLoop root (add64 s.heap.kheapEnd size) numPages s.heap.kheapEnd s.machine).bind
        fun (m, ok) =>
          if ok then
            (kheapLast s.heap.node (s.heap.made + 1) s.heap.kheapHead).map fun current =>
              (⟨kheapGrow s.heap current size, m⟩, true)
          else some (⟨s.heap, m⟩, false) := by
  have hnum : (size / kheapPageSize + if size % kheapPageSize ≠ 0 then 1 else 0) = numPages := by
    rw [← hsize, Nat.mul_div_cancel_left _ (by decide), Nat.mul_mod_right, if_neg (by simp)]
    rfl
  have hbytes : numPages * kheapPageSize % 2 ^ 64 = size := by
    rw [Nat.mul_comm, hsize, Nat.mod_eq_of_lt hlt]
  simp only [kheapExtend, hnum, hbytes]
  rcases kheapExtendLoop root (add64 s.heap.kheapEnd size) numPages s.heap.kheapEnd s.machine with
    _ | ⟨m, _ | _⟩
  · rfl
  · rfl
  · rcases kheapLast s.heap.node (s.heap.made + 1) s.heap.kheapHead with _ | current
    · rfl
    · rfl

/-- An extension of a heap whose last node is found: the loop over the pages decides. -/
theorem kheapExtend_of_last {current : Nat} (hsize : kheapPageSize * numPages = size)
    (hlt : size < 2 ^ 64)
    (hlast : kheapLast s.heap.node (s.heap.made + 1) s.heap.kheapHead = some current) :
    kheapExtend root s size =
      (kheapExtendLoop root (add64 s.heap.kheapEnd size) numPages s.heap.kheapEnd s.machine).map
        fun (m, ok) => (⟨if ok then kheapGrow s.heap current size else s.heap, m⟩, ok) := by
  rw [kheapExtend_eq hsize hlt, hlast]
  rcases kheapExtendLoop root (add64 s.heap.kheapEnd size) numPages s.heap.kheapEnd s.machine with
    _ | ⟨m, _ | _⟩
  · rfl
  · rfl
  · rfl

/-- What an extension does to the machine and to the range of the heap. -/
theorem kheapExtend_cases (hsize : kheapPageSize * numPages = size) (hlt : size < 2 ^ 64)
    (h : kheapExtend root s size = some (s', ok)) :
    kheapExtendLoop root (add64 s.heap.kheapEnd size) numPages s.heap.kheapEnd s.machine =
        some (s'.machine, ok) ∧
      s'.heap.kheapStart = s.heap.kheapStart ∧
      s'.heap.kheapEnd = if ok then add64 s.heap.kheapEnd size else s.heap.kheapEnd := by
  rw [kheapExtend_eq hsize hlt] at h
  obtain ⟨⟨m, ok'⟩, hloop, h⟩ := Option.bind_eq_some_iff.mp h
  cases ok' with
  | false =>
    cases h
    exact ⟨hloop, rfl, rfl⟩
  | true =>
    obtain ⟨current, -, heq⟩ := Option.map_eq_some_iff.mp h
    cases heq
    exact ⟨hloop, kheapGrow_kheapStart .., kheapGrow_kheapEnd ..⟩

theorem kheapExtendLoop_of_le {limit virtual : Nat} (h : limit ≤ virtual) (n : Nat)
    (m : Machine Pmm) : kheapExtendLoop root limit n virtual m = some (m, true) := by
  cases n with
  | zero => rfl
  | succ n => rw [kheapExtendLoop, if_neg (Nat.not_lt.mpr h)]

/-- An extension to 2⁶⁴ or beyond maps nothing, and the end of the heap wraps. -/
theorem kheapExtend_wrapped (hsize : kheapPageSize * numPages = size) (hlt : size < 2 ^ 64)
    (hend : s.heap.kheapEnd < 2 ^ 64) (hwrap : 2 ^ 64 ≤ s.heap.kheapEnd + size)
    (h : kheapExtend root s size = some (s', ok)) :
    s'.heap.kheapStart = s.heap.kheapStart ∧
      s'.heap.kheapEnd = s.heap.kheapEnd + size - 2 ^ 64 := by
  obtain ⟨hloop, hstart, hend'⟩ := kheapExtend_cases hsize hlt h
  have hadd : add64 s.heap.kheapEnd size = s.heap.kheapEnd + size - 2 ^ 64 := by
    simp only [add64, addW]
    omega
  rw [kheapExtendLoop_of_le (by omega)] at hloop
  obtain rfl : true = ok := congrArg Prod.snd (Option.some.inj hloop)
  rw [if_pos rfl, hadd] at hend'
  exact ⟨hstart, hend'⟩

end

/-! ## Rounds of `kmalloc` -/

section
variable {root size : Nat} {s s' t u : HeapMachine}

/-- A round takes a node or extends the heap. -/
theorem kmallocRound_cases {ptr : Option Nat} (h : kmallocRound root size s = some (s', ptr)) :
    (∃ current, s.search size = some (some current) ∧
        s' = ⟨kmallocTake s.heap current (blockAlignUp size), s.machine⟩ ∧
        ptr = some (add64 current kheapNodeSize)) ∨
      s.search size = some none ∧ ∃ ok, kheapExtend root s kheapExtendingAmount = some (s', ok) ∧
        ptr = if ok then none else some 0 := by
  unfold kmallocRound at h
  generalize kheapExtend root s kheapExtendingAmount = extended at h ⊢
  cases hs : s.search size with
  | none =>
    rw [hs] at h
    cases h
  | some found =>
    rw [hs] at h
    cases found with
    | some current =>
      cases h
      exact .inl ⟨current, rfl, rfl, rfl⟩
    | none =>
      refine .inr ⟨rfl, ?_⟩
      rcases extended with _ | ⟨t, _ | _⟩
      · cases h
      · cases h
        exact ⟨false, rfl, rfl⟩
      · cases h
        exact ⟨true, rfl, rfl⟩

theorem kmallocRound_of_extend {ok : Bool} (hs : s.search size = some none)
    (he : kheapExtend root s kheapExtendingAmount = some (s', ok)) :
    kmallocRound root size s = some (s', if ok then none else some 0) := by
  unfold kmallocRound
  generalize kheapExtend root s kheapExtendingAmount = extended at he ⊢
  subst he
  rw [hs]
  cases ok with
  | true => rfl
  | false => rfl

theorem kmallocRound_of_none (hs : s.search size = some none)
    (he : kheapExtend root s kheapExtendingAmount = none) : kmallocRound root size s = none := by
  unfold kmallocRound
  generalize kheapExtend root s kheapExtendingAmount = extended at he ⊢
  subst he
  rw [hs]

/-- The rounds of `kmalloc(size)` that have extended the heap. -/
inductive Rounds (root size : Nat) : Nat → HeapMachine → HeapMachine → Prop
  | zero (s : HeapMachine) : Rounds root size 0 s s
  | succ {k : Nat} {s t u : HeapMachine} : kmallocRound root size s = some (t, none) →
    Rounds root size k t u → Rounds root size (k + 1) s u

/-- A call that returns has extended the heap in all rounds but the last. -/
theorem kmalloc_rounds {n ptr : Nat} (h : kmalloc root size n s = some (s', ptr)) :
    ∃ k u, Rounds root size k s u ∧ kmallocRound root size u = some (s', some ptr) := by
  induction n generalizing s with
  | zero => cases h
  | succ n ih =>
    rw [kmalloc] at h
    rcases hr : kmallocRound root size s with _ | ⟨t, _ | p⟩
    · rw [hr] at h
      cases h
    · rw [hr] at h
      obtain ⟨k, u, hk, hu⟩ := ih h
      exact ⟨k + 1, u, .succ hr hk, hu⟩
    · rw [hr] at h
      cases h
      exact ⟨0, s, .zero s, hr⟩

def step (root : Nat) (s : HeapMachine) : HeapOp → Option HeapMachine
  | .kmalloc size => (kmallocRound root size s).map Prod.fst
  | .kfree ptr => (kfree s.heap ptr).map fun heap => ⟨heap, s.machine⟩

theorem Rounds.run {k : Nat} (h : Rounds root size k s u) :
    runFrom (step root) s (.replicate k (.kmalloc size)) = some u := by
  induction h with
  | zero s => rfl
  | succ hr _ ih =>
    refine runFrom_cons.mpr ⟨_, ?_, ih⟩
    rw [step, hr, Option.map_some]

/-- A call of `kmalloc` is a run of its rounds. -/
theorem kmalloc_run {n ptr : Nat} (h : kmalloc root size n s = some (s', ptr)) :
    ∃ k, runFrom (step root) s (.replicate k (.kmalloc size)) = some s' := by
  obtain ⟨k, u, hk, hu⟩ := kmalloc_rounds h
  refine ⟨k + 1, ?_⟩
  rw [List.replicate_succ', runFrom_append hk.run]
  refine runFrom_cons.mpr ⟨s', ?_, rfl⟩
  rw [step, hu, Option.map_some]

/-- A round that has to extend the heap leaves its end below 2⁶⁴. -/
def NoWrap (s : HeapMachine) : HeapOp → Prop
  | .kmalloc size => s.search size = some none → s.heap.kheapEnd + kheapExtendingAmount < 2 ^ 64
  | .kfree _ => True

/-- A round takes the first chunk that fits, or extends the heap, which stops the machine, fails or
goes through. -/
theorem round_cases {live : List Nat} {l : List Chunk} (H : KheapRow ⟨s.heap, live⟩ l)
    (hwrap : s.NoWrap (.kmalloc size)) :
    (∃ l₁ c l₂, l = l₁ ++ c :: l₂ ∧ c.free = true ∧ blockAlignUp size ≤ c.size ∧
        (∀ d ∈ l₁, ¬ (d.free = true ∧ blockAlignUp size ≤ d.size)) ∧
        kmallocRound root size s = some
          (⟨kmallocTake s.heap (s.heap.kheapStart + extent kheapNodeSize l₁) (blockAlignUp size),
              s.machine⟩,
            some (s.heap.kheapStart + extent kheapNodeSize l₁ + kheapNodeSize))) ∨
      (∀ d ∈ l, ¬ (d.free = true ∧ blockAlignUp size ≤ d.size)) ∧
        s.heap.kheapEnd + kheapExtendingAmount < 2 ^ 64 ∧
        (kheapExtendLoop root (s.heap.kheapEnd + kheapExtendingAmount) 256 s.heap.kheapEnd
              s.machine = none ∧
            kmallocRound root size s = none ∨
          (∃ m, kheapExtend root s kheapExtendingAmount = some (⟨s.heap, m⟩, false) ∧
            kmallocRound root size s = some (⟨s.heap, m⟩, some 0)) ∨
          ∃ m current, kheapLast s.heap.node (s.heap.made + 1) s.heap.kheapHead = some current ∧
            kheapExtendLoop root (s.heap.kheapEnd + kheapExtendingAmount) 256 s.heap.kheapEnd
              s.machine = some (m, true) ∧
            kmallocRound root size s =
              some (⟨kheapGrow s.heap current kheapExtendingAmount, m⟩, none) ∧
            ∃ l' d, KheapInv ⟨kheapGrow s.heap current kheapExtendingAmount, live⟩ (l' ++ [d]) ∧
              d.free = true) := by
  rcases H.search (blockAlignUp size) with ⟨l₁, c, l₂, rfl, hfree, hsize, hbefore, hs⟩ | ⟨hnone, hs⟩
  · refine .inl ⟨l₁, c, l₂, rfl, hfree, hsize, hbefore, ?_⟩
    rw [kmallocRound, search, hs]
    simp only [H.inv.ptr_eq]
  · have hlt : s.heap.kheapEnd + kheapExtendingAmount < 2 ^ 64 := hwrap hs
    obtain ⟨current, hlast, hgrow⟩ := H.grow
    have hext := @kheapExtend_of_last root _ _ s current kheapExtendingAmount_eq (by decide) hlast
    rw [add64_of_lt hlt] at hext
    refine .inr ⟨hnone, hlt, ?_⟩
    generalize hloop : kheapExtendLoop root (s.heap.kheapEnd + kheapExtendingAmount) 256
      s.heap.kheapEnd s.machine = extended at hext
    rcases extended with _ | ⟨m, _ | _⟩
    · exact .inl ⟨rfl, kmallocRound_of_none hs hext⟩
    · exact .inr (.inl ⟨m, hext, kmallocRound_of_extend hs hext⟩)
    · exact .inr (.inr ⟨m, current, hlast, rfl, kmallocRound_of_extend hs hext,
        hgrow _ (by decide) (by decide) hlt⟩)

end

/-! ## Runs -/

/-- The heap on the machine, with the pointers that have been handed out and not been freed. -/
structure Live where
  sys : HeapMachine
  live : List Nat

/-- What happens to the heap and the machine. -/
inductive HeapEvent where
  | op (op : HeapOp)
  /-- The rest of the kernel changes the frames and the tables. -/
  | others (m : Machine Pmm)

namespace Live

def row (s : Live) : KheapSys := ⟨s.sys.heap, s.live⟩

/-- A round of `kmalloc`, or a call of `kfree` with a live pointer. -/
def step (root : Nat) (s : Live) : HeapOp → Option Live
  | .kmalloc size =>
    if size < 2 ^ 64 then
      (kmallocRound root size s.sys).map fun r => ⟨r.1, (r.2.filter (· ≠ 0)).toList ++ s.live⟩
    else none
  | .kfree ptr =>
    if ptr ∈ s.live then
      (kfree s.sys.heap ptr).map fun heap => ⟨⟨heap, s.sys.machine⟩, s.live.erase ptr⟩
    else none

def event (root : Nat) (s : Live) : HeapEvent → Option Live
  | .op op => s.step root op
  | .others m => some ⟨⟨s.sys.heap, m⟩, s.live⟩

def NoWrap (s : Live) : HeapEvent → Prop
  | .op op => s.sys.NoWrap op
  | .others _ => True

variable {root : Nat} {s s' : Live} {l : List Chunk}

theorem event_kheapStart {e : HeapEvent} (h : s.event root e = some s') :
    s'.sys.heap.kheapStart = s.sys.heap.kheapStart := by
  rcases e with (size | ptr) | m
  · obtain ⟨-, h⟩ := Option.ite_none_right_eq_some.mp h
    obtain ⟨⟨t, ptr⟩, hround, rfl⟩ := Option.map_eq_some_iff.mp h
    rcases kmallocRound_cases hround with ⟨current, -, rfl, -⟩ | ⟨-, ok, he, -⟩
    · exact (kmallocTake_sameRange ..).1
    · exact (kheapExtend_cases kheapExtendingAmount_eq (by decide) he).2.1
  · obtain ⟨-, h⟩ := Option.ite_none_right_eq_some.mp h
    obtain ⟨heap, hfree, rfl⟩ := Option.map_eq_some_iff.mp h
    exact (kfree_sameRange hfree).1
  · cases h
    rfl

theorem kfree_step {ptr : Nat} (H : KheapInv s.row l) (hptr : ptr ∈ s.live) :
    ∃ heap l', s.step root (.kfree ptr) = some ⟨⟨heap, s.sys.machine⟩, s.live.erase ptr⟩ ∧
      KheapInv ⟨heap, s.live.erase ptr⟩ l' := by
  obtain ⟨l₁, c, l₂, rfl, hused, rfl⟩ := H.exists_of_live hptr
  obtain ⟨heap, hfree, H'⟩ := H.kfree hused
  refine ⟨heap, _, ?_, H'⟩
  rw [step, if_pos hptr]
  exact congrArg (Option.map _) hfree

/-- The same with the live pointers, for a call in which no extension goes past the end of the
address space. -/
theorem kmalloc_run {size n ptr : Nat} {u : HeapMachine} (hsize : size < 2 ^ 64)
    (hwrap : ∀ k v, Rounds root size k s.sys v → v.NoWrap (.kmalloc size))
    (h : kmalloc root size n s.sys = some (u, ptr)) :
    ∃ events, runFrom (event root) s events = some ⟨u, if ptr = 0 then s.live else ptr :: s.live⟩ ∧
      AllSteps (event root) NoWrap s events := by
  induction n generalizing s with
  | zero => cases h
  | succ n ih =>
    have hfirst : s.NoWrap (.op (.kmalloc size)) := hwrap 0 s.sys (.zero _)
    have hstep {t : HeapMachine} {o : Option Nat}
        (hr : kmallocRound root size s.sys = some (t, o)) :
        s.event root (.op (.kmalloc size)) = some ⟨t, (o.filter (· ≠ 0)).toList ++ s.live⟩ := by
      rw [event, step, if_pos hsize, hr, Option.map_some]
    rw [kmalloc] at h
    rcases hr : kmallocRound root size s.sys with _ | ⟨t, _ | p⟩
    · rw [hr] at h
      cases h
    · rw [hr] at h
      obtain ⟨events, hrun, hsteps⟩ := @ih ⟨t, s.live⟩
        (fun k v hv => hwrap (k + 1) v (.succ hr hv)) h
      refine ⟨.op (.kmalloc size) :: events, runFrom_cons.mpr ⟨_, hstep hr, hrun⟩,
        .intro hfirst fun s' hs' => ?_⟩
      cases (hstep hr).symm.trans hs'
      exact hsteps
    · rw [hr] at h
      cases h
      refine ⟨[.op (.kmalloc size)], runFrom_cons.mpr ⟨_, hstep hr, ?_⟩,
        .intro hfirst fun _ _ => trivial⟩
      by_cases hp : ptr = 0
      · simp [runFrom, Option.filter_some, hp]
      · simp [runFrom, Option.filter_some, hp]

/-- A step leaves a row of chunks, or the heap as it is. -/
theorem row_step {op : HeapOp} (H : KheapRow s.row l) (hwrap : s.sys.NoWrap op)
    (h : s.step root op = some s') : (∃ l', KheapInv s'.row l') ∨ s'.row = s.row := by
  cases op with
  | kfree ptr =>
    have hptr := (Option.ite_none_right_eq_some.mp h).1
    rcases H with ⟨-, E⟩ | H
    · have hlive : s.live = [] := E.live
      rw [hlive] at hptr
      cases hptr
    · obtain ⟨heap, l', hstep, H'⟩ := @kfree_step root s l ptr H hptr
      cases h.symm.trans hstep
      exact .inl ⟨l', H'⟩
  | kmalloc size =>
    obtain ⟨-, h⟩ := Option.ite_none_right_eq_some.mp h
    obtain ⟨⟨t, ptr⟩, hround, rfl⟩ := Option.map_eq_some_iff.mp h
    rcases @round_cases root size s.sys s.live l H hwrap with
      ⟨l₁, c, l₂, rfl, hfree, hsize, -, hr⟩ |
      ⟨-, -, ⟨-, hr⟩ | ⟨m, -, hr⟩ | ⟨m, current, -, -, hr, l', d, H', -⟩⟩
    · cases hround.symm.trans hr
      have hne : s.sys.heap.kheapStart + extent kheapNodeSize l₁ + kheapNodeSize ≠ 0 :=
        Nat.ne_of_gt (Nat.lt_add_left _ (by decide))
      simp only [row, Option.filter_some, decide_eq_true hne, if_true, Option.toList_some,
        List.singleton_append]
      exact .inl ⟨_, H.inv.take hfree hsize (blockAlignUp_mod size)⟩
    · cases hround.symm.trans hr
    · cases hround.symm.trans hr
      exact .inr rfl
    · cases hround.symm.trans hr
      exact .inl ⟨_, H'⟩

theorem row_event {e : HeapEvent} (H : KheapRow s.row l) (hwrap : s.NoWrap e)
    (h : s.event root e = some s') : (∃ l', KheapInv s'.row l') ∨ s'.row = s.row := by
  cases e with
  | op op => exact row_step H hwrap h
  | others m =>
    cases h
    exact .inr rfl

end Live

/-- The heap that `kheap_init` makes, if the first extension stays below 2⁶⁴. -/
theorem kheapInit_row {root kernelEnd : Nat} {m : Machine Pmm} {s : HeapMachine}
    (hpos : 0 < kheapStartOf kernelEnd) (hlt : kheapStartOf kernelEnd + kheapStartingSize < 2 ^ 64)
    (h : kheapInit root kernelEnd m = some s) :
    KheapEmpty ⟨s.heap, []⟩ ∨
    KheapInv ⟨s.heap, []⟩ [⟨kheapStartingSize - kheapNodeSize, true⟩] := by
  obtain ⟨⟨t, ok⟩, hext, rfl⟩ := Option.map_eq_some_iff.mp h
  obtain ⟨hstart, hmod⟩ := kheapStartOf_page kernelEnd
  clear h
  generalize kheapStartOf kernelEnd = start at *
  have hmod8 : start % 8 = 0 := by
    rw [← Nat.mod_mod_of_dvd start (show 8 ∣ kheapPageSize by decide), hmod]
  have E : KheapEmpty ⟨(empty start m).heap, []⟩ := ⟨rfl, hpos, rfl, hstart, hmod8, rfl⟩
  rw [kheapExtend_of_last kheapStartingSize_eq (by decide) E.last_eq] at hext
  obtain ⟨⟨m', ok'⟩, -, heq⟩ := Option.map_eq_some_iff.mp hext
  obtain ⟨rfl, rfl⟩ := Prod.mk.inj heq
  cases ok' with
  | false => exact .inl E
  | true => exact .inr (E.grow (by decide) (by decide) hlt)

/-- As long as no extension goes past the end of the address space, the heap is a row of chunks, or
no extension has gone through yet. -/
theorem heapRun_row {root kernelEnd : Nat} {m : Machine Pmm} {s : HeapMachine}
    {events : List HeapEvent} (h : kheapInit root kernelEnd m = some s)
    (hpos : 0 < kheapStartOf kernelEnd) (hlt : kheapStartOf kernelEnd + kheapStartingSize < 2 ^ 64)
    (hsteps : AllSteps (Live.event root) Live.NoWrap ⟨s, []⟩ events) :
    Along (Live.event root) (fun t => ∃ l, KheapRow t.row l) ⟨s, []⟩ events := by
  refine Along.of_allSteps (fun t e t' ⟨l, H⟩ hwrap ht => ?_) ?_ hsteps
  · rcases Live.row_event H hwrap ht with ⟨l', H'⟩ | hrow
    · exact ⟨l', .nodes H'⟩
    · exact ⟨l, hrow ▸ H⟩
  · rcases kheapInit_row hpos hlt h with E | H
    · exact ⟨[], .empty rfl E⟩
    · exact ⟨_, .nodes H⟩

end HeapMachine

end Plos
